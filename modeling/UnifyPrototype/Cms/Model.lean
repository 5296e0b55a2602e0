import Mathlib.Algebra.Group.Nat.Defs
import Mathlib.Tactic.Common
import UnifyPrototype.Utils.Runs

/-!
# `cms::Exception`

A shallow embedding of `Exception.h` and `Exception.cc`, and of what they use of
`std::ostringstream`. A program has any number of exceptions, which are numbered.
-/

namespace UnifyPrototype.Cms

open UnifyPrototype.Utils

/-- A `std::string`. -/
abbrev StdString := List Char

/-! ## `std::ostringstream` -/

/-- The characters of the buffer, and what the insertion of a string reads of the state: `width()`,
`fill()`, whether `adjustfield` is `left`, and `good()`. -/
structure OStringStream where
  str : StdString := []
  width : ℕ := 0
  fill : Char := ' '
  left : Bool := false
  good : Bool := true

namespace OStringStream

/-- The fill characters of a text of this length. -/
def padding (ost : OStringStream) (length : ℕ) : StdString :=
  List.replicate (ost.width - length) ost.fill

/-- `ost << text`. A stream that is not `good()` takes nothing; otherwise the field width is used
up. -/
def insert (ost : OStringStream) (text : StdString) : OStringStream :=
  if ost.good then
    let padding := ost.padding text.length
    { ost with str := ost.str ++ if ost.left then text ++ padding else padding ++ text, width := 0 }
  else ost

end OStringStream

/-- What `operator<<` may be given: something that is formatted as a text, or a manipulator. -/
inductive Stuff
  | text (s : StdString)
  | manipulator (f : OStringStream → OStringStream)

/-- `ost << stuff`. -/
def OStringStream.put (ost : OStringStream) : Stuff → OStringStream
  | .text s => ost.insert s
  | .manipulator f => f ost

/-! ## The class -/

/-- `cms::Exception`. -/
structure Exception where
  ost : OStringStream := {}
  category : StdString
  what : StdString := []
  context : List StdString := []
  additionalInfo : List StdString := []
  alreadyPrinted : Bool := false

namespace Exception

def message (e : Exception) : StdString :=
  e.ost.str

/-- `init`, in which `sz` is an `unsigned`. -/
def init (e : Exception) (message : StdString) : Exception :=
  let e := { e with ost := e.ost.insert message }
  if message.isEmpty then e
  else
    let sz := (message.length - 1) % 2 ^ 32
    if message[sz]? ≠ some '\n' ∧ message[sz]? ≠ some ' ' then
      { e with ost := e.ost.insert [' '] }
    else e

/-- The constructors with a category. -/
def ofCategory (aCategory : StdString) : Exception where
  category := aCategory

/-- The constructors with a category and a message. -/
def ofMessage (aCategory message : StdString) : Exception :=
  (ofCategory aCategory).init message

def append (e : Exception) (more_information : StdString) : Exception :=
  { e with ost := e.ost.insert more_information }

/-- The constructor with another exception. -/
def ofAnother (aCategory message : StdString) (another : Exception) : Exception :=
  let e : Exception := {
    category := aCategory
    context := another.context
    additionalInfo := another.additionalInfo
    ost := ({} : OStringStream).insert message }
  let e :=
    if message ≠ [] ∧ message.getLast? ≠ some '\n' then { e with ost := e.ost.insert ['\n'] } else e
  e.append another.message

/-- The copy constructor. -/
def copy (other : Exception) : Exception where
  ost := ({} : OStringStream).insert other.ost.str
  category := other.category
  what := other.what
  context := other.context
  additionalInfo := other.additionalInfo
  alreadyPrinted := other.alreadyPrinted

/-- `this->swap(other)` for two different exceptions: `this` and `other` afterwards. -/
def swap (this other : Exception) : Exception × Exception :=
  ({ ost := this.ost.insert other.ost.str
     category := other.category
     what := other.what
     context := other.context
     additionalInfo := other.additionalInfo
     alreadyPrinted := other.alreadyPrinted },
    { ost := other.ost
      category := this.category
      what := this.what
      context := this.context
      additionalInfo := this.additionalInfo
      alreadyPrinted := this.alreadyPrinted })

/-- `this->swap(*this)`: the other members are exchanged with themselves. -/
def selfSwap (this : Exception) : Exception :=
  { this with ost := this.ost.insert this.ost.str }

/-- `operator=`. -/
def assign (this other : Exception) : Exception :=
  let temp := copy other
  (this.swap temp).1

/-- The numbered lines of the context, the newest one first. -/
def contextLines (context : List StdString) : StdString :=
  (context.reverse.zipIdx.map fun (line, count) =>
    "   [".toList ++ (toString count).toList ++ "] ".toList ++ line ++ ['\n']).flatten

/-- The lettered lines of the additional information; `char c` counts up from `'a'`. -/
def infoLines (additionalInfo : List StdString) : StdString :=
  (additionalInfo.reverse.zipIdx.map fun (line, n) =>
    "      [".toList ++ [Char.ofNat ((97 + n) % 256)] ++ "] ".toList ++ line ++ ['\n']).flatten

def explainSelf (e : Exception) : StdString :=
  let banner := "An exception of category '".toList ++ e.category
  let context :=
    if e.context.isEmpty then "' occurred.\n".toList
    else "' occurred while\n".toList ++ contextLines e.context
  let centralMessage := e.ost.str
  let message :=
    if centralMessage.isEmpty then []
    else "Exception Message:\n".toList ++ centralMessage ++
      if centralMessage.getLast? ≠ some '\n' then ['\n'] else []
  let info :=
    if e.additionalInfo.isEmpty then []
    else "   Additional Info:\n".toList ++ infoLines e.additionalInfo
  banner ++ context ++ message ++ info

end Exception

/-! ## Programs -/

/-- What a program does with its exceptions. -/
inductive Label
  | ofCategory (aCategory : StdString)
  | ofMessage (aCategory message : StdString)
  | ofAnother (aCategory message : StdString) (another : ℕ)
  | copy (other : ℕ)
  | insert (e : ℕ) (stuff : Stuff)
  | append (e : ℕ) (more_information : StdString)
  | appendAnother (e another : ℕ)
  | addContext (e : ℕ) (context : StdString)
  | setContext (e : ℕ) (context : List StdString)
  | clearContext (e : ℕ)
  | addAdditionalInfo (e : ℕ) (info : StdString)
  | setAdditionalInfo (e : ℕ) (info : List StdString)
  | clearAdditionalInfo (e : ℕ)
  | clearMessage (e : ℕ)
  | setAlreadyPrinted (e : ℕ)
  | what (e : ℕ)
  | assign (this other : ℕ)
  | swap (this other : ℕ)

/-- The exceptions of the program. -/
abbrev State := List Exception

/-- `e` becomes what a member function makes of it. -/
def State.modify (s : State) (e : ℕ) (f : Exception → Exception) : Option State :=
  s[e]?.map fun x => s.set e (f x)

/-- The program does what the label says; `none` if there is no such exception. -/
def step (s : State) : Label → Option State
  | .ofCategory aCategory => some (s ++ [.ofCategory aCategory])
  | .ofMessage aCategory message => some (s ++ [.ofMessage aCategory message])
  | .ofAnother aCategory message another =>
    s[another]?.map fun x => s ++ [.ofAnother aCategory message x]
  | .copy other => s[other]?.map fun x => s ++ [.copy x]
  | .insert e stuff => s.modify e fun x => { x with ost := x.ost.put stuff }
  | .append e more_information => s.modify e (·.append more_information)
  | .appendAnother e another => s[another]?.bind fun y => s.modify e (·.append y.message)
  | .addContext e context => s.modify e fun x => { x with context := x.context ++ [context] }
  | .setContext e context => s.modify e ({ · with context := context })
  | .clearContext e => s.modify e ({ · with context := [] })
  | .addAdditionalInfo e info =>
    s.modify e fun x => { x with additionalInfo := x.additionalInfo ++ [info] }
  | .setAdditionalInfo e info => s.modify e ({ · with additionalInfo := info })
  | .clearAdditionalInfo e => s.modify e ({ · with additionalInfo := [] })
  | .clearMessage e => s.modify e fun x => { x with ost := { x.ost with str := [] } }
  | .setAlreadyPrinted e => s.modify e ({ · with alreadyPrinted := true })
  | .what e => s.modify e fun x => { x with what := x.explainSelf }
  | .assign this other => s[other]?.bind fun y => s.modify this (·.assign y)
  | .swap this other =>
    s[this]?.bind fun x => s[other]?.map fun y =>
      if this = other then s.set this x.selfSwap
      else (s.set this (x.swap y).1).set other (x.swap y).2

/-- What some program comes to. -/
abbrev Reachable (s : State) : Prop :=
  Reaches step [] s

end UnifyPrototype.Cms
