import Mathlib.Algebra.Group.Nat.Defs
import Mathlib.Data.List.MinMax
import Mathlib.Data.Prod.Lex
import Mathlib.Tactic.Common

/-!
# Indices of products

A shallow embedding of `ProductKey.h`, `TransitionRecordKey.h`, `ProductResolverIndex.h`,
`ProductResolverIndexHelper.cc` and `ProductResolverIndexHelpersBuilder.cc`. A `std::map` is a
`TreeMap`, and what is thrown is an `Except`.
-/

namespace UnifyPrototype.ProductHandling

open Std (TreeMap)

/-! ## Keys -/

/-- A `std::string`. `char_traits` compares its characters as bytes. -/
abbrev StdString := List UInt8

/-- The bytes of a literal of the source. -/
def StdString.ofLiteral (s : String) : StdString :=
  s.toUTF8.toList

/-- The types that a `TypeIDBase` refers to, in the order of `std::type_info::before`. -/
class TypeInfo (T : Type) extends LinearOrder T where
  name : T → StdString

/-- Types that are numbered in their order. -/
instance : TypeInfo ℕ where
  name n := .ofLiteral (toString n)

variable {T : Type} [TypeInfo T]

/-- `ProductKey`. -/
structure ProductKey (T : Type) where
  typeID : T
  moduleLabel : StdString
  productInstanceName : StdString
  processName : StdString
deriving DecidableEq, Repr

/-- The defaulted `operator<=>`: one member after the other. -/
instance : Ord (ProductKey T) where
  compare := compareLex (compareOn ProductKey.typeID) <|
    compareLex (compareOn ProductKey.moduleLabel) <|
    compareLex (compareOn ProductKey.productInstanceName) (compareOn ProductKey.processName)

instance : Std.TransOrd (ProductKey T) :=
  inferInstanceAs <| Std.TransCmp <| compareLex (compareOn ProductKey.typeID) <|
    compareLex (compareOn ProductKey.moduleLabel) <|
    compareLex (compareOn ProductKey.productInstanceName) (compareOn ProductKey.processName)

/-- Keys are compared member by member. -/
lemma compare_productKey (a b : ProductKey T) : compare a b
    = (compare a.typeID b.typeID).then ((compare a.moduleLabel b.moduleLabel).then
      ((compare a.productInstanceName b.productInstanceName).then
        (compare a.processName b.processName))) :=
  rfl

instance : Std.LawfulEqOrd (ProductKey T) where
  eq_of_compare {a b} h := by
    rw [compare_productKey] at h
    simp only [Ordering.then_eq_eq, Std.LawfulEqCmp.compare_eq_iff_eq] at h
    obtain ⟨htype, hlabel, hinstance, hprocess⟩ := h
    cases a
    cases b
    simp only at htype hlabel hinstance hprocess
    rw [htype, hlabel, hinstance, hprocess]

/-- `TransitionRecordKey`, with its defaulted `operator<=>`. -/
structure TransitionRecordKey (T : Type) where
  typeID : T
deriving DecidableEq, Repr

instance : Ord (TransitionRecordKey T) where
  compare := compareOn TransitionRecordKey.typeID

instance : Std.TransOrd (TransitionRecordKey T) :=
  inferInstanceAs <| Std.TransCmp <| compareOn TransitionRecordKey.typeID

instance : Std.LawfulEqOrd (TransitionRecordKey T) where
  eq_of_compare {a b} h := by
    have hcompare : compare a.typeID b.typeID = .eq := h
    have htype := Std.LawfulEqCmp.compare_eq_iff_eq.mp hcompare
    cases a
    cases b
    exact congrArg TransitionRecordKey.mk htype

/-! ## Indices -/

/-- `ProductResolverIndex::s_uninitializedValue`. -/
def uninitializedValue : UInt32 :=
  UInt32.ofNat (2 ^ 32 - 1)

/-- `ProductResolverIndex`. -/
structure ProductResolverIndex where
  index : UInt32 := uninitializedValue
deriving DecidableEq, Repr

def ProductResolverIndex.value (i : ProductResolverIndex) : UInt32 :=
  i.index

def ProductResolverIndex.isUninitialized (i : ProductResolverIndex) : Bool :=
  i.index == uninitializedValue

/-! ## `ProductResolverIndexHelper` -/

/-- A `cms::Exception`: its category and what was streamed into it. -/
structure Exception where
  category : StdString
  message : StdString
deriving DecidableEq, Repr

/-- `ProductResolverIndexHelper`. -/
structure ProductResolverIndexHelper (T : Type) [TypeInfo T] where
  keyToIndex : TreeMap (ProductKey T) ProductResolverIndex := {}

/-- The exception of `insert`. -/
def alreadyExists (productKey : ProductKey T) : Exception :=
  let blank := StdString.ofLiteral " "
  { category := .ofLiteral "ProductResolverIndexHelper"
    message := StdString.ofLiteral "ProductKey already exists: " ++ TypeInfo.name productKey.typeID
      ++ blank ++ productKey.moduleLabel ++ blank ++ productKey.productInstanceName ++ blank
      ++ productKey.processName }

namespace ProductResolverIndexHelper

/-- `insert`. The size of the map is converted to an `unsigned int`. -/
def insert (h : ProductResolverIndexHelper T) (productKey : ProductKey T) :
    Except Exception (ProductResolverIndexHelper T) :=
  if h.keyToIndex.contains productKey then throw (alreadyExists productKey)
  else
    let newIndex : ProductResolverIndex := { index := UInt32.ofNat h.keyToIndex.size }
    return { keyToIndex := h.keyToIndex.insert productKey newIndex }

/-- `getIndex`. -/
def getIndex (h : ProductResolverIndexHelper T) (productKey : ProductKey T) :
    ProductResolverIndex :=
  match h.keyToIndex[productKey]? with
  | some index => index
  | none => {}

end ProductResolverIndexHelper

/-- The key with the empty process name. -/
def ProductKey.default (testKey : ProductKey T) : ProductKey T :=
  { testKey with processName := [] }

/-- The entries of `defaultLookup`: a process name and an index. -/
abbrev Candidate := StdString × ProductResolverIndex

/-- The position of the iterator that `std::find` returns. -/
def find (processNameOrder : List StdString) (processName : StdString) : ℕ :=
  processNameOrder.idxOf processName

/-- What the body of the first loop of `finalize` makes of the entry `prod`. -/
def choose (processNameOrder : List StdString) (prod : Candidate)
    (keyAndIndex : ProductKey T × ProductResolverIndex) : Candidate :=
  let testKey := keyAndIndex.1
  if prod.1.isEmpty then (testKey.processName, keyAndIndex.2)
  else if find processNameOrder testKey.processName < find processNameOrder prod.1 then
    (testKey.processName, keyAndIndex.2)
  else prod

/-- The body of the first loop; `operator[]` makes an entry where there is none. -/
def scan (processNameOrder : List StdString) (defaultLookup : TreeMap (ProductKey T) Candidate)
    (testKey : ProductKey T) (index : ProductResolverIndex) : TreeMap (ProductKey T) Candidate :=
  let newKey := testKey.default
  let prod := defaultLookup.getD newKey ([], {})
  defaultLookup.insert newKey (choose processNameOrder prod (testKey, index))

/-- `finalize`: the loop over `keyToIndex_`, and the loop over `defaultLookup`. -/
def ProductResolverIndexHelper.finalize (h : ProductResolverIndexHelper T)
    (processNameOrder : List StdString) : ProductResolverIndexHelper T :=
  let defaultLookup : TreeMap (ProductKey T) Candidate :=
    h.keyToIndex.foldl (scan processNameOrder) {}
  { keyToIndex := defaultLookup.foldl (fun keyToIndex key prod => keyToIndex.insert key prod.2)
      h.keyToIndex }

/-! ## `ProductResolverIndexHelpersBuilder` -/

/-- `ProductResolversProvider`, as far as the builder uses it. -/
structure ProductResolversProvider (T : Type) where
  resolverRecords : List (TransitionRecordKey T)
  productKeysForRecord : TransitionRecordKey T → List (ProductKey T)

/-- `ProductResolverIndexHelpersBuilder`. -/
structure ProductResolverIndexHelpersBuilder (T : Type) [TypeInfo T] where
  helpers : TreeMap (TransitionRecordKey T) (ProductResolverIndexHelper T) := {}

namespace ProductResolverIndexHelpersBuilder

/-- The body of the inner loop of `determineProductsFrom`. -/
def declare (b : ProductResolverIndexHelpersBuilder T) (recordKey : TransitionRecordKey T)
    (productKey : ProductKey T) : Except Exception (ProductResolverIndexHelpersBuilder T) := do
  let helper ← (b.helpers.getD recordKey {}).insert productKey
  return { helpers := b.helpers.insert recordKey helper }

/-- `determineProductsFrom`. -/
def determineProductsFrom (b : ProductResolverIndexHelpersBuilder T)
    (provider : ProductResolversProvider T) :
    Except Exception (ProductResolverIndexHelpersBuilder T) :=
  provider.resolverRecords.foldlM (fun b recordKey =>
    (provider.productKeysForRecord recordKey).foldlM (fun b productKey =>
      b.declare recordKey productKey) b) b

/-- `finalize`. -/
def finalize (b : ProductResolverIndexHelpersBuilder T) (processHistoryOrder : List StdString) :
    ProductResolverIndexHelpersBuilder T :=
  { helpers := b.helpers.map fun _ helper => helper.finalize processHistoryOrder }

/-- `usedRecords`. -/
def usedRecords (b : ProductResolverIndexHelpersBuilder T) : List (TransitionRecordKey T) :=
  b.helpers.foldl (fun keys key _ => keys ++ [key]) []

/-- `helperFor`; a null pointer is `none`. -/
def helperFor (b : ProductResolverIndexHelpersBuilder T) (key : TransitionRecordKey T) :
    Option (ProductResolverIndexHelper T) :=
  b.helpers[key]?

end ProductResolverIndexHelpersBuilder

end UnifyPrototype.ProductHandling
