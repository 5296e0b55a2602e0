import UnifyPrototype.TypeDemangler.Numbers
import Mathlib.Order.Filter.AtTopBot.Basic

/-!
# `typeDemangle` on types

What `typeDemangle` makes of the text of a type is the text of the same type in the style of the
dictionaries, without the arguments that are left out.
-/

namespace UnifyPrototype.TypeDemangler

open UnifyPrototype.Utils UnifyPrototype.Cms Text Filter

variable {cxaDemangle : StdString → Option StdString} {mangledName from' to' w s u : StdString}
  {t : Arguments}

/-! ## Enough rounds -/

/-- What comes out with some fuel comes out with any more. -/
lemma eventually_of_stable {A : Type*} {f : ℕ → Option A} {a : A} (hf : Stable f)
    (h : ∃ fuel, f fuel = some a) : ∀ᶠ fuel in atTop, f fuel = some a := by
  obtain ⟨fuel, hfuel⟩ := h
  filter_upwards [eventually_ge_atTop fuel] with n hle
  exact hf hle hfuel

lemma eventually_replaceString (h : ∃ fuel, replaceString fuel s from' to' = some u) :
    ∀ᶠ fuel in atTop, replaceString fuel s from' to' = some u :=
  eventually_of_stable (stable_replaceString s from' to') h

lemma eventually_removeParameter (h : ∃ fuel, removeParameter fuel s w = some u) :
    ∀ᶠ fuel in atTop, removeParameter fuel s w = some u :=
  eventually_of_stable (stable_loop (removeRound w) s) h

/-! ## The steps -/

/-- The steps before `constBeforeIdentifier` leave the arguments out. -/
lemma stripped_write_gcc (htype : t.IsType) (hallocator : t.Defaults "std::allocator".toList true)
    (hless : t.Defaults "std::less".toList true) :
    ∀ᶠ fuel in atTop, stripped (t.write gcc [] []) fuel = some (t.reduced.write renamed [] []) := by
  have hcomma := eventually_replaceString (respells_comma.replaceString (by decide) t)
  have hbracket := eventually_replaceString (respells_bracket.replaceString (by decide) t)
  have hclang := eventually_replaceString (respells_clang.replaceString (by decide) t)
  have habi := eventually_replaceString (respells_abi.replaceString (by decide) t)
  have hallocators : ∃ fuel, removeParameter fuel (t.write renamed [] []) allocator =
      some ((t.without "std::allocator".toList true).write renamed [] []) :=
    removeParameter_write ⟨by decide, by decide, by decide⟩ (by decide) t htype hallocator
  have hcomparators : ∃ fuel, removeParameter fuel
      ((t.without "std::allocator".toList true).write renamed [] []) comparator =
      some (t.reduced.write renamed [] []) :=
    removeParameter_write ⟨by decide, by decide, by decide⟩ (by decide) _ (isType_without t htype _)
      (defaults_without t true hless _)
  filter_upwards [hcomma, hbracket, hclang, habi, eventually_removeParameter hallocators,
    eventually_removeParameter hcomparators] with fuel h₁ h₂ h₃ h₄ h₅ h₆
  rw [stripped, h₁, Option.bind_eq_bind, Option.bind_some, h₂]
  simp only [Option.bind_some, h₃, h₄, h₅, h₆]

/-- The steps behind it spread the brackets, take the letters and shorten the names. -/
lemma finished_write (htype : t.IsType) :
    ∀ᶠ fuel in atTop, finished (t.write qualified [] []) fuel = some (t.write dictionary [] []) := by
  have hbrackets := eventually_replaceString (replaceString_brackets t htype)
  have hnumbers := eventually_of_stable (stable_loop (reformatRound suffixed [1, 2]) _)
    (reformatter_write t htype)
  have hunsigned := eventually_replaceString (respells_unsigned.replaceString (by decide) t)
  have hlong := eventually_replaceString (respells_long.replaceString (by decide) t)
  filter_upwards [hbrackets, hnumbers, hunsigned, hlong] with fuel h₁ h₂ h₃ h₄
  rw [finished, h₁, Option.bind_eq_bind, Option.bind_some]
  simp only [reformatter, Option.bind_some, h₂, h₃, h₄]

/-- More fuel changes no result. -/
lemma stable_typeDemangle (hdemangled : cxaDemangle mangledName = some s) :
    Stable fun fuel => typeDemangle cxaDemangle fuel mangledName := by
  simp only [typeDemangle_eq hdemangled]
  exact (stable_stripped s).bind fun _ => (stable_loop constRound _).bind fun _ =>
    (stable_finished _).bind fun _ _ _ _ _ h => h

/-- What is demangled is a type, in which the arguments that are left out are plain types. -/
structure Demangles (cxaDemangle : StdString → Option StdString) (mangledName : StdString)
    (t : Arguments) : Prop where
  type : t.IsType
  allocators : t.Defaults "std::allocator".toList true
  comparators : t.Defaults "std::less".toList true
  demangled : cxaDemangle mangledName = some (t.write gcc [] [])

/-- The steps one after the other. -/
lemma Demangles.eventually (h : Demangles cxaDemangle mangledName t) : ∀ᶠ fuel in atTop,
    typeDemangle cxaDemangle fuel mangledName = some (.ok (t.reduced.write dictionary [] [])) := by
  have htype : t.reduced.IsType := isType_without _ (isType_without t h.type _) _
  have hstripped := stripped_write_gcc h.type h.allocators h.comparators
  have hconst := eventually_of_stable (stable_loop constRound _) (constBeforeIdentifier_write _ htype)
  filter_upwards [hstripped, hconst, finished_write htype] with fuel h₁ h₂ h₃
  rw [typeDemangle_eq h.demangled, h₁, Option.bind_some, constBeforeIdentifier, h₂, Option.bind_some, h₃,
    Option.bind_some]

/-- The name of a type comes out in the dictionary's spelling, whatever the fuel. -/
lemma Demangles.result_eq (h : Demangles cxaDemangle mangledName t) {fuel : ℕ}
    {result : Except Cms.Exception StdString}
    (hresult : typeDemangle cxaDemangle fuel mangledName = some result) :
    result = .ok (t.reduced.write dictionary [] []) := by
  obtain ⟨fuel', hfuel'⟩ := h.eventually.exists
  exact (stable_typeDemangle h.demangled).unique hresult hfuel'

def classA : Name :=
  ⟨['A'], forall_mem_of_all (by decide), ⟨'A', _, rfl, by decide, by decide⟩, by decide, by decide⟩

def classB : Name :=
  ⟨['B'], forall_mem_of_all (by decide), ⟨'B', _, rfl, by decide, by decide⟩, by decide, by decide⟩

def longLong : Name :=
  ⟨"long long".toList, forall_mem_of_all (by decide), ⟨'l', _, rfl, by decide, by decide⟩, by decide,
    by decide⟩

def stdLess : Name :=
  ⟨"std::less".toList, forall_mem_of_all (by decide), ⟨'s', _, rfl, by decide, by decide⟩, by decide,
    by decide⟩

def everyStep : Arguments :=
  .template classA (.integer ⟨['3'], by decide, forall_mem_of_all (by decide)⟩
    ⟨"ul".toList, .inr ⟨'u', ['l'], rfl, by decide, forall_mem_of_all (by decide)⟩⟩
    (.template classB (.type longLong true [] .none) false []
      (.template stdLess (.type longLong false [] .none) false [] .none))) false [] .none

def everyStepText : StdString :=
  "A<3ul, B<long long const>, std::less<long long> >".toList

end UnifyPrototype.TypeDemangler
