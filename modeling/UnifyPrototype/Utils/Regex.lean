import Mathlib.Data.List.Infix
import Mathlib.Tactic.Common

/-!
# Regular expressions

Expressions that are made of sets of characters, repeated sets, sequences and groups, as in POSIX. The
matches that begin where a text begins come in the order in which a repetition takes as many characters
as it can; a search takes the longest match at the first place that has one.
-/

namespace UnifyPrototype.Utils

variable {A : Type*}

/-- `[p]`, `[p]*`, `r r'` and `(r)`. -/
inductive Regex (A : Type*)
  | set (p : A → Bool)
  | many (p : A → Bool)
  | seq (r r' : Regex A)
  | group (r : Regex A)

/-- A match: its text, the texts of its groups in the order in which they end, and what follows. -/
structure Match (A : Type*) where
  text : List A
  groups : List (List A)
  rest : List A

namespace Regex

/-- `[p]+`. -/
def plus (p : A → Bool) : Regex A :=
  .seq (.set p) (.many p)

/-- How often a set may be repeated at the beginning of a text, the most often first. -/
def repetitions (p : A → Bool) : List A → List (List A × List A)
  | [] => [([], [])]
  | c :: s =>
    if p c then (repetitions p s).map (fun (u, v) => (c :: u, v)) ++ [([], c :: s)] else [([], c :: s)]

/-- The ways in which a text may begin with a match. -/
def ways : Regex A → List A → List (Match A)
  | .set p, s =>
    match s with
    | c :: s => if p c then [⟨[c], [], s⟩] else []
    | [] => []
  | .many p, s => (repetitions p s).map fun (u, v) => ⟨u, [], v⟩
  | .seq r r', s =>
    (r.ways s).flatMap fun m => (r'.ways m.rest).map fun m' =>
      ⟨m.text ++ m'.text, m.groups ++ m'.groups, m'.rest⟩
  | .group r, s => (r.ways s).map fun m => ⟨m.text, m.groups ++ [m.text], m.rest⟩

variable {r r' : Regex A} {p : A → Bool} {s : List A} {m : Match A}

/-! ## What matches -/

lemma mem_repetitions {u v : List A} :
    (u, v) ∈ repetitions p s ↔ s = u ++ v ∧ ∀ c ∈ u, p c = true := by
  induction s generalizing u with
  | nil =>
    simp only [repetitions, List.mem_singleton, Prod.mk.injEq, List.nil_eq_append_iff]
    exact ⟨fun h => ⟨h, by simp [h.1]⟩, And.left⟩
  | cons c s ih =>
    unfold repetitions
    cases u with
    | nil => split <;> simp [eq_comm (a := v)]
    | cons c' u =>
      split
      next hc =>
        simp only [List.mem_append, List.mem_map, Prod.exists, Prod.mk.injEq, List.cons.injEq,
          List.mem_singleton, reduceCtorEq, false_and, or_false, List.cons_append, List.forall_mem_cons]
        constructor
        · rintro ⟨u', v', hmem, ⟨rfl, rfl⟩, rfl⟩
          obtain ⟨hs, hall⟩ := ih.mp hmem
          exact ⟨⟨rfl, hs⟩, hc, hall⟩
        · rintro ⟨⟨rfl, hs⟩, -, hall⟩
          exact ⟨u, v, ih.mpr ⟨hs, hall⟩, ⟨rfl, rfl⟩, rfl⟩
      next hc =>
        simp only [List.mem_singleton, Prod.mk.injEq, reduceCtorEq, false_and, List.cons_append,
          List.cons.injEq, List.forall_mem_cons, false_iff]
        rintro ⟨⟨rfl, -⟩, hc', -⟩
        exact hc hc'

lemma mem_ways_set :
    m ∈ (Regex.set p).ways s ↔ ∃ c, p c = true ∧ s = c :: m.rest ∧ m.text = [c] ∧ m.groups = [] := by
  obtain ⟨text, groups, rest⟩ := m
  cases s with
  | nil => simp [ways]
  | cons c s =>
    unfold ways
    dsimp only
    split
    next hc => simp; grind
    next hc => simp; grind

lemma mem_ways_many :
    m ∈ (Regex.many p).ways s ↔ s = m.text ++ m.rest ∧ (∀ c ∈ m.text, p c = true) ∧ m.groups = [] := by
  obtain ⟨text, groups, rest⟩ := m
  simp only [ways, List.mem_map, Prod.exists, Match.mk.injEq]
  constructor
  · rintro ⟨u, v, hmem, rfl, rfl, rfl⟩
    obtain ⟨hs, hall⟩ := mem_repetitions.mp hmem
    exact ⟨hs, hall, rfl⟩
  · rintro ⟨hs, hall, rfl⟩
    exact ⟨text, rest, mem_repetitions.mpr ⟨hs, hall⟩, rfl, rfl, rfl⟩

lemma mem_ways_seq :
    m ∈ (Regex.seq r r').ways s ↔ ∃ m₁ ∈ r.ways s, ∃ m₂ ∈ r'.ways m₁.rest,
      m.text = m₁.text ++ m₂.text ∧ m.groups = m₁.groups ++ m₂.groups ∧ m.rest = m₂.rest := by
  obtain ⟨text, groups, rest⟩ := m
  simp only [ways, List.mem_flatMap, List.mem_map, Match.mk.injEq]
  simp only [eq_comm]

lemma mem_ways_group :
    m ∈ (Regex.group r).ways s ↔ ∃ m₁ ∈ r.ways s,
      m.text = m₁.text ∧ m.groups = m₁.groups ++ [m₁.text] ∧ m.rest = m₁.rest := by
  obtain ⟨text, groups, rest⟩ := m
  simp only [ways, List.mem_map, Match.mk.injEq]
  simp only [eq_comm]

/-- The texts that an expression matches, with the texts of its groups. -/
inductive Matches : Regex A → List A → List (List A) → Prop
  | set {p : A → Bool} {c : A} : p c = true → Matches (.set p) [c] []
  | many {p : A → Bool} {t : List A} : (∀ c ∈ t, p c = true) → Matches (.many p) t []
  | seq {r r' : Regex A} {t t' : List A} {gs gs' : List (List A)} :
      Matches r t gs → Matches r' t' gs' → Matches (.seq r r') (t ++ t') (gs ++ gs')
  | group {r : Regex A} {t : List A} {gs : List (List A)} :
      Matches r t gs → Matches (.group r) t (gs ++ [t])

section
variable {t : List A} {gs : List (List A)}

lemma matches_set : (Regex.set p).Matches t gs ↔ ∃ c, p c = true ∧ t = [c] ∧ gs = [] := by
  constructor
  · intro h
    cases h with
    | set hc => exact ⟨_, hc, rfl, rfl⟩
  · rintro ⟨c, hc, rfl, rfl⟩
    exact .set hc

lemma matches_many : (Regex.many p).Matches t gs ↔ (∀ c ∈ t, p c = true) ∧ gs = [] := by
  constructor
  · intro h
    cases h with
    | many hall => exact ⟨hall, rfl⟩
  · rintro ⟨hall, rfl⟩
    exact .many hall

lemma matches_seq : (Regex.seq r r').Matches t gs ↔ ∃ t₁ gs₁ t₂ gs₂,
    r.Matches t₁ gs₁ ∧ r'.Matches t₂ gs₂ ∧ t = t₁ ++ t₂ ∧ gs = gs₁ ++ gs₂ := by
  constructor
  · intro h
    cases h with
    | seq h h' => exact ⟨_, _, _, _, h, h', rfl, rfl⟩
  · rintro ⟨t₁, gs₁, t₂, gs₂, h, h', rfl, rfl⟩
    exact .seq h h'

lemma matches_group : (Regex.group r).Matches t gs ↔ ∃ gs', r.Matches t gs' ∧ gs = gs' ++ [t] := by
  constructor
  · intro h
    cases h with
    | group h => exact ⟨_, h, rfl⟩
  · rintro ⟨gs', h, rfl⟩
    exact .group h

lemma matches_plus : (plus p).Matches t gs ↔ t ≠ [] ∧ (∀ c ∈ t, p c = true) ∧ gs = [] := by
  simp only [plus, matches_seq, matches_set, matches_many]
  constructor
  · rintro ⟨_, _, u, _, ⟨c, hc, rfl, rfl⟩, ⟨hall, rfl⟩, rfl, rfl⟩
    exact ⟨List.cons_ne_nil c u, List.forall_mem_cons.mpr ⟨hc, hall⟩, rfl⟩
  · rintro ⟨hne, hall, rfl⟩
    obtain ⟨c, u, rfl⟩ := List.exists_cons_of_ne_nil hne
    obtain ⟨hc, hall⟩ := List.forall_mem_cons.mp hall
    exact ⟨[c], [], u, [], ⟨c, hc, rfl, rfl⟩, ⟨hall, rfl⟩, rfl, rfl⟩

end

/-- The ways to begin are those to begin with a text that matches. -/
lemma mem_ways : m ∈ r.ways s ↔ s = m.text ++ m.rest ∧ r.Matches m.text m.groups := by
  induction r generalizing s m with
  | set p =>
    rw [mem_ways_set, matches_set]
    constructor
    · rintro ⟨c, hc, hs, htext, hgroups⟩
      exact ⟨by rw [htext]; exact hs, c, hc, htext, hgroups⟩
    · rintro ⟨hs, c, hc, htext, hgroups⟩
      rw [htext] at hs
      exact ⟨c, hc, hs, htext, hgroups⟩
  | many p => rw [mem_ways_many, matches_many]
  | seq r r' ih ih' =>
    rw [mem_ways_seq, matches_seq]
    constructor
    · rintro ⟨m₁, hm₁, m₂, hm₂, htext, hgroups, hrest⟩
      obtain ⟨hs, h⟩ := ih.mp hm₁
      obtain ⟨hs', h'⟩ := ih'.mp hm₂
      refine ⟨?_, _, _, _, _, h, h', htext, hgroups⟩
      -- the second part begins where the first one ends
      rw [htext, hrest, List.append_assoc, ← hs']
      exact hs
    · rintro ⟨hs, t₁, gs₁, t₂, gs₂, h, h', htext, hgroups⟩
      rw [htext, List.append_assoc] at hs
      exact ⟨⟨t₁, gs₁, t₂ ++ m.rest⟩, ih.mpr ⟨hs, h⟩, ⟨t₂, gs₂, m.rest⟩, ih'.mpr ⟨rfl, h'⟩, htext,
        hgroups, rfl⟩
  | group r ih =>
    rw [mem_ways_group, matches_group]
    constructor
    · rintro ⟨m₁, hm₁, htext, hgroups, hrest⟩
      obtain ⟨hs, h⟩ := ih.mp hm₁
      rw [htext, hrest]
      exact ⟨hs, m₁.groups, h, hgroups⟩
    · rintro ⟨hs, gs, h, hgroups⟩
      exact ⟨⟨m.text, gs, m.rest⟩, ih.mpr ⟨hs, h⟩, rfl, hgroups, rfl⟩

/-! ## `regex_match` and `regex_replace` -/

/-- The first match that is the whole text. -/
def regexMatch (r : Regex A) (s : List A) : Option (Match A) :=
  (r.ways s).find? (·.rest.isEmpty)

/-- The first one of the longest matches. -/
def longest : List (Match A) → Option (Match A)
  | [] => none
  | m :: ms =>
    match longest ms with
    | some m' => if m'.text.length ≤ m.text.length then some m else some m'
    | none => some m

/-- What a format that names these groups makes of a match. -/
def expand (format : List ℕ) (m : Match A) : List A :=
  format.flatMap fun n => m.groups.getD (n - 1) []

/-- The matches that do not overlap are replaced, at most `n` of them. After an empty match the search
goes on behind the next character. -/
def replaceFrom (r : Regex A) (format : List ℕ) : ℕ → List A → List A
  | 0, s => s
  | n + 1, s =>
    match longest (r.ways s), s with
    | some m, _ =>
      if m.text.isEmpty then expand format m ++ s.head?.toList ++ replaceFrom r format n s.tail
      else expand format m ++ replaceFrom r format n m.rest
    | none, c :: s => c :: replaceFrom r format n s
    | none, [] => []

/-- All of them: there are no more matches than places in the text. -/
def regexReplace (r : Regex A) (format : List ℕ) (s : List A) : List A :=
  replaceFrom r format (s.length + 1) s

lemma rest_eq_nil_of_find? {ms : List (Match A)} (hm : ms.find? (·.rest.isEmpty) = some m) :
    m.rest = [] := by
  have hempty := List.find?_some hm
  exact List.isEmpty_iff.mp hempty

lemma matches_of_regexMatch (hm : r.regexMatch s = some m) : r.Matches s m.groups := by
  obtain ⟨hs, hmatches⟩ := mem_ways.mp (List.mem_of_find?_eq_some hm)
  rw [rest_eq_nil_of_find? hm, List.append_nil] at hs
  rwa [hs]

lemma not_matches_of_regexMatch (hm : r.regexMatch s = none) (gs : List (List A)) :
    ¬ r.Matches s gs := by
  intro hmatches
  have hmem : ⟨s, gs, []⟩ ∈ r.ways s := mem_ways.mpr ⟨(List.append_nil s).symm, hmatches⟩
  exact List.find?_eq_none.mp hm _ hmem rfl

/-- The first match of the whole text is a longest one. -/
lemma longest_eq {ms : List (Match A)} (hlength : ∀ m ∈ ms, s = m.text ++ m.rest)
    (hm : ms.find? (·.rest.isEmpty) = some m) : longest ms = some m := by
  induction ms with
  | nil => cases hm
  | cons m₁ ms ih =>
    have hm₁ := congrArg List.length (hlength m₁ List.mem_cons_self)
    rw [List.length_append] at hm₁
    have hlength' : ∀ m ∈ ms, s = m.text ++ m.rest := fun m hm => hlength m (List.mem_cons_of_mem _ hm)
    -- no match is longer than the text
    have hshorter : ∀ m', longest ms = some m' → m'.text.length ≤ s.length := by
      intro m' hm'
      have hmem : m' ∈ ms := by
        clear ih hm hlength hlength' hm₁
        induction ms generalizing m' with
        | nil => cases hm'
        | cons m₂ ms ih =>
          unfold longest at hm'
          grind
      have hm' := congrArg List.length (hlength' m' hmem)
      rw [List.length_append] at hm'
      omega
    unfold longest
    rw [List.find?_cons] at hm
    -- a match of the whole text is the longest one, and a later one is not longer
    split at hm
    next hwhole =>
      obtain rfl := Option.some.inj hm
      have hnil := List.length_eq_zero_iff.mpr (List.isEmpty_iff.mp hwhole)
      split
      next m' hm' =>
        have hle := hshorter m' hm'
        rw [if_pos (by omega)]
      next => rfl
    next hpart =>
      rw [ih hlength' hm]
      have hne : m₁.rest.length ≠ 0 := fun h => by simp [List.length_eq_zero_iff.mp h] at hpart
      have hmem := List.mem_of_find?_eq_some hm
      have hnil := rest_eq_nil_of_find? hm
      have hm' := congrArg List.length (hlength' m hmem)
      rw [List.length_append, hnil] at hm'
      dsimp only
      rw [if_neg (by simp at hm'; omega)]

/-- If the whole text matches, `regex_replace` replaces the whole text. -/
lemma regexReplace_eq {format : List ℕ} (hm : regexMatch r s = some m) (hnil : r.ways [] = []) :
    regexReplace r format s = expand format m := by
  have hlongest := longest_eq (fun _ hmem => (mem_ways.mp hmem).1) hm
  have hrest := rest_eq_nil_of_find? hm
  have hmem := List.mem_of_find?_eq_some hm
  have htext : m.text.isEmpty = false := by
    rw [List.isEmpty_eq_false_iff]
    intro hempty
    have hs := (mem_ways.mp hmem).1
    rw [hrest, hempty] at hs
    rw [hs] at hmem
    simp [hnil] at hmem
  have hdone : ∀ n, replaceFrom r format n [] = [] := by
    intro n
    cases n with
    | zero => rfl
    | succ n => simp [replaceFrom, hnil, longest]
  simp [regexReplace, replaceFrom, hlongest, htext, hrest, hdone]

end Regex

end UnifyPrototype.Utils
