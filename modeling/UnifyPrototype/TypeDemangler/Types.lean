import UnifyPrototype.TypeDemangler.Result
import UnifyPrototype.Utils.Rewriting

/-!
# Types

`typeDemangle` works on a text, but what it is for is a type: class templates with arguments, which are
types or integers. A type is a tree here. The demangler of gcc writes the tree in one style, and the
names by which dictionaries are found are in another one.
-/

namespace UnifyPrototype.TypeDemangler

open UnifyPrototype.Utils UnifyPrototype.Cms Text

/-! ## Trees -/

/-- The characters of a name. -/
def isNameChar (c : Char) : Bool :=
  anyChar c ∧ c ∉ ['<', '>', ',', '[', '*', '&']

/-- What is written for a class or a fundamental type. It may have spaces, but no qualifier. -/
structure IsName (n : StdString) : Prop where
  chars : ∀ c ∈ n, isNameChar c
  first : ∃ c rest, n = c :: rest ∧ c ≠ ' ' ∧ isDigit c = false
  unqualified : ¬ word <+: n
  noQualifier : ¬ toBeMoved <:+: n

abbrev Name := { n : StdString // IsName n }

inductive Declarator
  | pointer
  | reference
  deriving DecidableEq

def Declarator.char : Declarator → Char
  | .pointer => '*'
  | .reference => '&'

/-- The arguments of a template. A type may be const, and there may be pointers or references to it. -/
inductive Arguments
  | none
  | integer (value : { n : StdString // Digits n }) (letters : { r : StdString // r = [] ∨ Matched r })
      (rest : Arguments)
  | type (name : Name) (const : Bool) (declarators : List Declarator) (rest : Arguments)
  | template (name : Name) (arguments : Arguments) (const : Bool) (declarators : List Declarator)
      (rest : Arguments)

/-! ## Styles -/

/-- How types are written: what is between arguments, how a name is spelled, whether `const` comes
before the name, whether the letters of an integer are written, and whether a space is put between two
brackets also where the inner one belongs to a const type. -/
structure Style where
  comma : StdString
  spell : StdString → StdString
  before : Bool
  letters : Bool
  spaced : Bool

namespace Style

/-- What comes before the arguments. -/
def front (st : Style) (const : Bool) (name : Name) : StdString :=
  if const && st.before then "const ".toList ++ st.spell name.val else st.spell name.val

/-- What comes behind them. -/
def back (st : Style) (const : Bool) (declarators : List Declarator) : StdString :=
  if const && !st.before then toBeMoved ++ declarators.map Declarator.char
  else declarators.map Declarator.char

def number (st : Style) (value letters : StdString) : StdString :=
  if st.letters then value ++ letters else value

end Style

/-- The bracket behind the arguments, with a space if a bracket is before it. -/
def closing (b : Bool) : StdString :=
  if b then [' ', '>'] else ['>']

namespace Arguments

/-- Whether the last argument ends in a bracket; `b` is for the text before them. Const types count if
`all` is set. -/
def closes (all : Bool) : Bool → Arguments → Bool
  | b, none => b
  | _, integer _ _ rest => rest.closes all false
  | _, type _ _ _ rest => rest.closes all false
  | _, template _ _ const declarators rest => rest.closes all (declarators.isEmpty && (all || !const))

/-- The text of the arguments, of which the first one comes behind `d`, and the text `z` behind it. -/
def write (st : Style) : Arguments → StdString → StdString → StdString
  | none, _, z => z
  | integer value letters rest, d, z =>
    d ++ (st.number value letters ++ rest.write st st.comma z)
  | type name const declarators rest, d, z =>
    d ++ (st.front const name ++ st.back const declarators ++ rest.write st st.comma z)
  | template name arguments const declarators rest, d, z =>
    d ++ (st.front const name ++ '<' :: arguments.write st [] (closing (arguments.closes st.spaced false) ++
      (st.back const declarators ++ rest.write st st.comma z)))

/-- One type, which is not const. -/
def IsType : Arguments → Prop
  | type _ const _ none => const = false
  | template _ _ const _ none => const = false
  | _ => False

/-- A type is a name or a template with its arguments. -/
lemma IsType.eq {t : Arguments} (htype : t.IsType) :
    (∃ name declarators, t = type name false declarators none) ∨
      ∃ name arguments declarators, t = template name arguments false declarators none := by
  match t, htype with
  | type name const declarators none, htype =>
    obtain rfl : const = false := htype
    exact .inl ⟨name, declarators, rfl⟩
  | template name arguments const declarators none, htype =>
    obtain rfl : const = false := htype
    exact .inr ⟨name, arguments, declarators, rfl⟩

end Arguments

/-- The style of the demangler. -/
def gcc : Style where
  comma := ", ".toList
  spell := id
  before := false
  letters := true
  spaced := false

/-! ## What `typeDemangle` is to do -/

/-- What `replaceString` makes of a text. -/
def replaced (from' to' s : StdString) : StdString :=
  (replaceString s.length s from' to').getD s

/-- A name without the inline namespaces of the two libraries. -/
def rename (name : StdString) : StdString :=
  replaced "std::__cxx11::".toList "std::".toList (replaced "std::__1::".toList "std::".toList name)

/-- A name with the type names for `long long`. -/
def shorten (name : StdString) : StdString :=
  replaced "long long".toList "Long64_t".toList
    (replaced "unsigned long long".toList "ULong64_t".toList name)

/-- The style of the dictionaries. -/
def dictionary : Style where
  comma := ",".toList
  spell := shorten ∘ rename
  before := true
  letters := false
  spaced := true

namespace Arguments

/-- The arguments without the templates of the name `w`, of which the first argument is none. -/
def without (w : StdString) : Bool → Arguments → Arguments
  | _, none => none
  | _, integer value letters rest => integer value letters (rest.without w false)
  | _, type name const declarators rest => type name const declarators (rest.without w false)
  | first, template name arguments const declarators rest =>
    if !first && rename name.val = w then rest.without w false
    else template name (arguments.without w true) const declarators (rest.without w false)

/-- The templates of the name `w` that are not the first argument are plain types. -/
def Defaults (w : StdString) : Bool → Arguments → Prop
  | _, none => True
  | _, integer _ _ rest => rest.Defaults w false
  | _, type _ _ _ rest => rest.Defaults w false
  | first, template name arguments const declarators rest =>
    (first = false → rename name.val = w → const = false ∧ declarators = []) ∧
      arguments.Defaults w true ∧ rest.Defaults w false

def reduced (t : Arguments) : Arguments :=
  (t.without "std::allocator".toList true).without "std::less".toList true

end Arguments

end UnifyPrototype.TypeDemangler
