import UnifyPrototype.Cms.Model
import UnifyPrototype.Utils.Loops
import UnifyPrototype.Utils.Regex
import UnifyPrototype.Utils.Text

/-!
# `typeDemangle`

A shallow embedding of `TypeDemangler.cc`. Each loop over the name is given by its round. What
`abi::__cxa_demangle` makes of a name is a parameter; it gives nothing when its status is not 0. The
depth of the brackets is a natural number here, which the `int` of the code shows in a name with fewer
than `2 ^ 31 - 1` characters (`matchingInt_eq_matching`, `enclosingInt_eq_enclosing`).
-/

namespace UnifyPrototype.TypeDemangler

open UnifyPrototype.Utils UnifyPrototype.Cms Text

/-! ## `replaceString` -/

/-- A round of `replaceString`, with `pos` and the name. -/
def replaceRound (from' to' : StdString) : ℕ × StdString → Round (ℕ × StdString)
  | (pos, demangledName) =>
    match find demangledName from' pos with
    | some pos => .again (pos, replace demangledName pos from'.length to')
    | none => .leave

/-- `edm::replaceString`, if it takes at most `fuel` replacements. -/
def replaceString (fuel : ℕ) (demangledName from' to' : StdString) : Option StdString :=
  (loop (replaceRound from' to') fuel (0, demangledName)).map Prod.snd

/-! ## `removeParameter` -/

/-- The inner loop of `removeParameter`, which `find_first_of` leads from one bracket to the next one:
how many characters are before the `>` at which `depth` comes to 0. -/
def matching : ℕ → StdString → Option ℕ
  | _, [] => none
  | depth, c :: rest =>
    if c = '<' then (matching (depth + 1) rest).map (· + 1)
    else if c = '>' then
      if depth - 1 = 0 then some 0 else (matching (depth - 1) rest).map (· + 1)
    else (matching depth rest).map (· + 1)

/-- A round of `removeParameter`. -/
def removeRound (toRemove demangledName : StdString) : Round StdString :=
  match find demangledName toRemove 0 with
  | some index =>
    match matching 1 (demangledName.drop (index + toRemove.length)) with
    | some n =>
      let inx := index + toRemove.length + n
      let demangledName := erase demangledName index (inx + 1 - index)
      if demangledName[index]? = some ' ' ∧
          (index = 0 ∨ demangledName[index - 1]? ≠ some '>') then
        .again (erase demangledName index 1)
      else .again demangledName
    | none => .again demangledName
  | none => .leave

def removeParameter (fuel : ℕ) (demangledName toRemove : StdString) : Option StdString :=
  loop (removeRound toRemove) fuel demangledName

def allocator : StdString :=
  ",std::allocator<".toList

def comparator : StdString :=
  ",std::less<".toList

/-! ## `constBeforeIdentifier` -/

def toBeMoved : StdString :=
  " const".toList

/-- The inner loop of `constBeforeIdentifier`, from `inx` down to 1: the position of the `<` or `,`
behind which the qualifier goes. -/
def enclosing (demangledName : StdString) : ℕ → ℕ → Option ℕ
  | 0, _ => none
  | inx + 1, depth =>
    let c := demangledName[inx + 1]?
    if c = some '>' then enclosing demangledName inx (depth + 1)
    else if depth > 0 then
      if c = some '<' then enclosing demangledName inx (depth - 1)
      else enclosing demangledName inx depth
    else if c = some '<' ∨ c = some ',' then some (inx + 1)
    else enclosing demangledName inx depth

/-- A round of `constBeforeIdentifier`. For the index 0 the inner loop begins with
`demangledName[npos]`. -/
def constRound (demangledName : StdString) : Round StdString :=
  match find demangledName toBeMoved 0 with
  | some index =>
    let demangledName := erase demangledName index toBeMoved.length
    if index = 0 then .undefined
    else
      match enclosing demangledName (index - 1) 0 with
      | some inx => .again (insert demangledName (inx + 1) "const ".toList)
      | none => .again demangledName
  | none => .leave

def constBeforeIdentifier (fuel : ℕ) (demangledName : StdString) : Option StdString :=
  loop constRound fuel demangledName

/-! ## `reformatter` -/

/-- A round of `reformatter`. -/
def reformatRound (regexp : Regex Char) (format : List ℕ) (input : StdString) : Round StdString :=
  if (regexp.regexMatch input).isSome then .again (regexp.regexReplace format input) else .leave

def reformatter (fuel : ℕ) (input : StdString) (regexp : Regex Char) (format : List ℕ) :
    Option StdString :=
  loop (reformatRound regexp format) fuel input

/-- `.`, which is no NUL. -/
def anyChar (c : Char) : Bool :=
  c.toNat ≠ 0

def isDigit (c : Char) : Bool :=
  '0' ≤ c ∧ c ≤ '9'

/-- `(.*[<,][0-9]+)[ul]l*([,>].*)`. -/
def suffixed : Regex Char :=
  .seq (.group (.seq (.many anyChar) (.seq (.set (· ∈ ['<', ','])) (.plus isDigit)))) <|
    .seq (.set (· ∈ ['u', 'l'])) <|
    .seq (.many (· = 'l')) <|
    .group (.seq (.set (· ∈ [',', '>'])) (.many anyChar))

/-! ## `typeDemangle` -/

/-- `cms::Exception("Demangling error") << " '" << mangledName << "'\n"`. -/
def demanglingError (mangledName : StdString) : Cms.Exception :=
  let e := Cms.Exception.ofCategory "Demangling error".toList
  { e with ost := ((e.ost.insert " '".toList).insert mangledName).insert "'\n".toList }

/-- `edm::typeDemangle`, if none of its loops takes more than `fuel` rounds. -/
def typeDemangle (cxaDemangle : StdString → Option StdString) (fuel : ℕ) (mangledName : StdString) :
    Option (Except Cms.Exception StdString) :=
  match cxaDemangle mangledName with
  | none => some (.error (demanglingError mangledName))
  | some demangled => do
    let name ← replaceString fuel demangled ", ".toList ",".toList
    let name ← replaceString fuel name " [".toList "[".toList
    let name ← replaceString fuel name "std::__1::".toList "std::".toList
    let name ← replaceString fuel name "std::__cxx11::".toList "std::".toList
    let name ← removeParameter fuel name allocator
    let name ← removeParameter fuel name comparator
    let name ← constBeforeIdentifier fuel name
    let name ← replaceString fuel name ">>".toList "> >".toList
    let name ← reformatter fuel name suffixed [1, 2]
    let name ← replaceString fuel name "unsigned long long".toList "ULong64_t".toList
    let name ← replaceString fuel name "long long".toList "Long64_t".toList
    return .ok name

end UnifyPrototype.TypeDemangler
