import UnifyPrototype.TypeDemangler.Replace
import UnifyPrototype.TypeDemangler.Suffixes

/-!
# The steps of `typeDemangle`

Whether `typeDemangle` ends is decided by the loops of `removeParameter` and `constBeforeIdentifier`: the
other ones always end.
-/

namespace UnifyPrototype.TypeDemangler

open UnifyPrototype.Utils UnifyPrototype.Cms Text

variable {cxaDemangle : StdString → Option StdString} {mangledName demangled s t : StdString}

/-- The steps before `constBeforeIdentifier`. -/
def stripped (demangled : StdString) (fuel : ℕ) : Option StdString := do
  let name ← replaceString fuel demangled ", ".toList ",".toList
  let name ← replaceString fuel name " [".toList "[".toList
  let name ← replaceString fuel name "std::__1::".toList "std::".toList
  let name ← replaceString fuel name "std::__cxx11::".toList "std::".toList
  let name ← removeParameter fuel name allocator
  removeParameter fuel name comparator

/-- The steps behind it. -/
def finished (name : StdString) (fuel : ℕ) : Option StdString := do
  let name ← replaceString fuel name ">>".toList "> >".toList
  let name ← reformatter fuel name suffixed [1, 2]
  let name ← replaceString fuel name "unsigned long long".toList "ULong64_t".toList
  replaceString fuel name "long long".toList "Long64_t".toList

/-- The steps, one after another. -/
lemma typeDemangle_eq (h : cxaDemangle mangledName = some demangled) (fuel : ℕ) :
    typeDemangle cxaDemangle fuel mangledName =
      (stripped demangled fuel).bind fun s =>
        (constBeforeIdentifier fuel s).bind fun t =>
          (finished t fuel).bind fun name => some (.ok name) := by
  simp only [typeDemangle, h, stripped, finished, Option.bind_eq_bind, Option.bind_assoc]
  rfl

/-! ## More rounds -/

lemma stable_replaceString (s from' to' : StdString) : Stable fun fuel => replaceString fuel s from' to' :=
  (stable_loop (replaceRound from' to') (0, s)).map Prod.snd

lemma stable_stripped (demangled : StdString) : Stable (stripped demangled) :=
  (stable_replaceString _ _ _).bind fun _ =>
    (stable_replaceString _ _ _).bind fun _ =>
      (stable_replaceString _ _ _).bind fun _ =>
        (stable_replaceString _ _ _).bind fun _ =>
          (stable_loop (removeRound allocator) _).bind fun _ => stable_loop (removeRound comparator) _

lemma stable_finished (s : StdString) : Stable (finished s) :=
  (stable_replaceString _ _ _).bind fun _ =>
    (stable_loop (reformatRound suffixed [1, 2]) _).bind fun _ =>
      (stable_replaceString _ _ _).bind fun _ => stable_replaceString _ _ _

/-- The steps behind `constBeforeIdentifier` end. -/
lemma exists_finished (s : StdString) : ∃ fuel t, finished s fuel = some t := by
  have hreplace : ∀ {from' to'} (s : StdString), ¬ from' <:+: to' →
      ∃ fuel t, replaceString fuel s from' to' = some t := fun s hfrom =>
    ⟨s.length, exists_replaceString s hfrom⟩
  -- each step ends on what the one before has left
  obtain ⟨fuel₁, s₁, h₁⟩ := hreplace s (show ¬ ">>".toList <:+: "> >".toList by decide)
  obtain ⟨s₂, hends⟩ := exists_reformatter_ends s₁
  obtain ⟨fuel₃, s₃, h₃⟩ :=
    hreplace s₂ (show ¬ "unsigned long long".toList <:+: "ULong64_t".toList by decide)
  have hlast := hreplace s₃ (show ¬ "long long".toList <:+: "Long64_t".toList by decide)
  -- the most rounds that a step needs are enough for all of them
  refine (stable_replaceString _ _ _).exists_bind (fun _ => ?_) ⟨fuel₁, h₁⟩ ?_
  · exact (stable_loop (reformatRound suffixed [1, 2]) _).bind fun _ =>
      (stable_replaceString _ _ _).bind fun _ => stable_replaceString _ _ _
  refine (stable_loop (reformatRound suffixed [1, 2]) _).exists_bind (fun _ => ?_) hends.exists_loop ?_
  · exact (stable_replaceString _ _ _).bind fun _ => stable_replaceString _ _ _
  exact (stable_replaceString _ _ _).exists_bind (fun _ => stable_replaceString _ _ _) ⟨fuel₃, h₃⟩ hlast

/-- **`constBeforeIdentifier`, and `typeDemangle` where it comes to it, end if and only if all qualifiers
can be moved.** -/
theorem constBeforeIdentifier_ends_iff (s : StdString) :
    ((∃ fuel t, constBeforeIdentifier fuel s = some t ∧ ¬ toBeMoved <:+: t) ↔ Movable s) ∧
      ∀ cxaDemangle mangledName demangled fuel, cxaDemangle mangledName = some demangled →
        stripped demangled fuel = some s →
        ((∃ fuel result, typeDemangle cxaDemangle fuel mangledName = some result) ↔ Movable s) := by
  have hconst := exists_constBeforeIdentifier_iff s
  refine ⟨hconst, fun cxaDemangle mangledName demangled fuel hdemangled hstripped => ?_⟩
  simp only [typeDemangle_eq hdemangled]
  rw [← hconst]
  constructor
  · rintro ⟨fuel', result, hresult⟩
    obtain ⟨s', hs', hrest⟩ := Option.bind_eq_some_iff.mp hresult
    obtain rfl := (stable_stripped demangled).unique hs' hstripped
    obtain ⟨t, ht, -⟩ := Option.bind_eq_some_iff.mp hrest
    have hleft := (Ends.of_loop ht).left
    exact ⟨fuel', t, ht, not_infix_of_leave hleft⟩
  · rintro ⟨fuel', t, ht, -⟩
    obtain ⟨fuel'', u, hu⟩ := exists_finished t
    -- with the most rounds that one of the three parts needs
    have hle : fuel ≤ max fuel (max fuel' fuel'') := by omega
    have hle' : fuel' ≤ max fuel (max fuel' fuel'') := by omega
    have hle'' : fuel'' ≤ max fuel (max fuel' fuel'') := by omega
    have hs := stable_stripped demangled hle hstripped
    have ht' : constBeforeIdentifier (max fuel (max fuel' fuel'')) s = some t := loop_mono hle' ht
    have hu' := stable_finished t hle'' hu
    refine ⟨max fuel (max fuel' fuel''), .ok u, ?_⟩
    rw [hs, Option.bind_some, ht', Option.bind_some, hu', Option.bind_some]

theorem constBeforeIdentifier_ends_iff_argument : ∃ fuel result,
    typeDemangle (fun _ => some "A<B const>".toList) fuel "1AIK1BE".toList = some result := by
  obtain ⟨hconst, htype⟩ := constBeforeIdentifier_ends_iff "A<B const>".toList
  have hmovable : Movable "A<B const>".toList :=
    hconst.mp ⟨1, "A<const B>".toList, by decide, by decide⟩
  exact (htype _ _ _ 0 rfl (by decide)).mpr hmovable

/-- A pointer that is const to something const. -/
def constPointer : StdString :=
  "A<int const* const>".toList

/-- The second qualifier comes before the first one, with which it is a ` const` again. -/
theorem constPointer_again : ¬ toBeMoved <+: constPointer ∧
    (¬ ∃ fuel t, constBeforeIdentifier fuel constPointer = some t) ∧
    ∀ cxaDemangle mangledName, cxaDemangle mangledName = some constPointer →
      ¬ ∃ fuel result, typeDemangle cxaDemangle fuel mangledName = some result := by
  have hmoved : ¬ Movable constPointer := fun hmovable => absurd (hmovable.once 1) (by decide)
  have hnot : ¬ ∃ fuel t, constBeforeIdentifier fuel constPointer = some t := by
    rintro ⟨fuel, t, ht⟩
    exact hmoved (.of_ends (.of_loop ht))
  refine ⟨by decide, hnot, fun cxaDemangle mangledName hdemangled => ?_⟩
  rintro ⟨fuel, result, hresult⟩
  rw [typeDemangle_eq hdemangled] at hresult
  obtain ⟨s, hs, hrest⟩ := Option.bind_eq_some_iff.mp hresult
  have hstripped : stripped constPointer 0 = some constPointer := by decide
  obtain rfl := (stable_stripped constPointer).unique hs hstripped
  obtain ⟨t, ht, -⟩ := Option.bind_eq_some_iff.mp hrest
  exact hnot ⟨fuel, t, ht⟩

end UnifyPrototype.TypeDemangler
