import UnifyPrototype.SerialTaskQueue.Destructor

/-!
# What the destructor waits for

The destructor pushes its task behind all others, so when this one has run everything that was pushed
is finished. But it waits for its own group only: a runner loop of another group that has cleared
`m_taskChosen` and is still inside `pickNextTask` uses the queue afterwards.
-/

namespace UnifyPrototype.SerialTaskQueue

open UnifyPrototype.Utils

variable {Q α : Type} [DecidableEq Q] {s s' : Teardown Q α} {q : Q} {a : TeardownLabel Q α}

/-! ## The task of the destructor -/

/-- One for the task that the destructor pushes. -/
def isLast (t : QueuedTask (Option α)) : ℕ :=
  if t.action.isNone then 1 else 0

/-- One for such a task in another group than that of the destructor. -/
def misplaced (t : QueuedTask (Option α)) : ℕ :=
  if t.action.isNone ∧ t.group ≠ 0 then 1 else 0

/-- The destructor has pushed its task. -/
def DestructorPoint.hasPushed : DestructorPoint → Bool
  | .wait | .finished => true
  | _ => false

/-- A point of the call of `push` that the destructor makes. -/
def Point.ofDestructor : Point (Option α) → Bool
  | .push t => t.action.isNone
  | .pause | .resume => false
  | _ => true

/-- There is one task of the destructor, in the queue `q` and in the group of the destructor, until it
has handed `last` to the group; and nobody else is in a member function of `q`. -/
structure Teardown.Sound (q : Q) (s : Teardown Q α) : Prop where
  elsewhere : ∀ q' ≠ q, s.program.held isLast q' = 0
  held : s.program.held isLast q = if s.last = .deferred then 1 else 0
  grouped : s.program.held misplaced q = 0
  announced : s.program.announced isLast q = if s.last = .unmade then 0 else 1
  made : ∀ i, s.destructor = some (i, .wait) → s.last ≠ .unmade
  stage : s.last ≠ .unmade → ∃ i p, s.destructor = some (i, p) ∧ p.hasPushed = true
  calls : ∀ i p, s.destructor = some (i, p) → ∀ (j : ℕ) th pt, s.program.threads[j]? = some th →
    th.call = some (q, pt) → p = .wait ∧ j = i ∧ pt.ofDestructor = true

omit [DecidableEq Q] in
/-- The destructor's operations lead to operations of the destructor. -/
lemma ofDestructor_next {m : Queue (Option α)} {pt n : Point (Option α)} {r : Result (Option α)}
    (h : pt.step m = some r) (hn : r.next = some n) : n.ofDestructor = true := by
  cases operation h <;> simp_all [Point.ofDestructor] <;> subst hn <;> rfl

omit [DecidableEq Q] in
lemma tally_outside {v : QueuedTask (Option α) → ℕ} (hv : ∀ k g a, v ⟨k, g, some a⟩ = 0) (k : ℕ)
    (op : Op α) : tally v (op.outside.entry k).tasks = 0 ∧ (op.outside.entry k).pushing v = 0 := by
  cases op with
  | push g a => simp [Op.outside, Op.entry, Point.tasks, Point.pushing, hv]
  | pause | resume => exact ⟨rfl, rfl⟩

omit [DecidableEq Q] in
/-- A thread that executes the task of the destructor. -/
lemma executesLast_eq {i g : ℕ} {t : QueuedTask (Option α)} {q' : Q}
    (h : s.program.threads[i]? = some ⟨some (q', .execute g t), none⟩) :
    s.executesLast i = t.action.isNone := by
  simp [Teardown.executesLast, h]

/-- A step of the program that the destructor permits keeps the state sound. -/
lemma sound_program {b : Label Q α} {p : State Q (Option α)} (h : s.Sound q)
    (hpermits : s.permits q b = true) (hp : SerialTaskQueue.step s.program b.outside = some p) :
    Teardown.Sound q { s with program := p, last := s.lastAfter b } := by
  have hcalls : ∀ i pt', s.destructor = some (i, pt') → ∀ (j : ℕ) th pt, p.threads[j]? = some th →
      th.call = some (q, pt) → pt' = .wait ∧ j = i ∧ pt.ofDestructor = true := by
    intro i pt' hdestructor j th n hj hcall
    rcases call_step hp hj hcall with ⟨th₀, hth₀, hcall₀⟩ | ⟨op, hlabel, -⟩ |
      ⟨th₀, pt₀, r, hth₀, hcall₀, hr, hn⟩
    · exact h.calls i pt' hdestructor j th₀ n hth₀ hcall₀
    · -- nobody calls a member function of `q` any more
      cases b with
      | call i' q' op' =>
        obtain ⟨-, rfl, -⟩ := by simpa [Label.outside] using hlabel
        simp [Teardown.permits, hdestructor] at hpermits
      | _ => cases hlabel
    · obtain ⟨hwait, rfl, -⟩ := h.calls i pt' hdestructor j th₀ pt₀ hth₀ hcall₀
      exact ⟨hwait, rfl, ofDestructor_next hr hn⟩
  cases b with
  | fork =>
    refine ⟨fun q' hq' => ?_, ?_, ?_, ?_, h.made, h.stage, hcalls⟩
    · exact (held_fork hp isLast q').trans (h.elsewhere q' hq')
    · exact (held_fork hp isLast q).trans h.held
    · exact (held_fork hp misplaced q).trans h.grouped
    · exact (announced_step hp (by intros; rintro ⟨⟩) isLast q).trans h.announced
  | advance i =>
    refine ⟨fun q' hq' => ?_, ?_, ?_, ?_, h.made, h.stage, hcalls⟩
    · exact (held_advance hp isLast q').trans (h.elsewhere q' hq')
    · exact (held_advance hp isLast q).trans h.held
    · exact (held_advance hp misplaced q).trans h.grouped
    · exact (announced_step hp (by intros; rintro ⟨⟩) isLast q).trans h.announced
  | call i q' op =>
    have hlast : ∀ k g (a : α), isLast ⟨k, g, some a⟩ = 0 := fun _ _ _ => rfl
    have hmisplaced : ∀ k g (a : α), misplaced ⟨k, g, some a⟩ = 0 := fun _ _ _ =>
      if_neg (by simp)
    refine ⟨fun q' hq' => ?_, ?_, ?_, ?_, h.made, h.stage, hcalls⟩
    · rw [held_call hp isLast q', (tally_outside hlast _ op).1, ite_self]
      exact h.elsewhere q' hq'
    · rw [held_call hp isLast q, (tally_outside hlast _ op).1, ite_self]
      exact h.held
    · rw [held_call hp misplaced q, (tally_outside hmisplaced _ op).1, ite_self]
      exact h.grouped
    · rw [announced_call hp isLast q, (tally_outside hlast _ op).2, ite_self]
      exact h.announced
  | finish i threw =>
    obtain ⟨q', g, t, hth, hheld⟩ := held_finish hp
    have hexecutes := executesLast_eq hth
    have hannounced : p.announced isLast q = if s.last = .unmade then 0 else 1 :=
      (announced_step hp (by intros; rintro ⟨⟩) isLast q).trans h.announced
    have hgrouped : p.held misplaced q = 0 := by
      have hsum := hheld misplaced q
      rw [h.grouped] at hsum
      omega
    have helsewhere : ∀ q' ≠ q, p.held isLast q' = 0 := by
      intro q₁ hq₁
      have hsum := hheld isLast q₁
      rw [h.elsewhere q₁ hq₁] at hsum
      omega
    cases hnone : t.action.isNone with
    | false =>
      have hlast : s.lastAfter (.finish i threw) = s.last := by
        simp [Teardown.lastAfter, hexecutes, hnone]
      rw [hlast]
      refine ⟨helsewhere, ?_, hgrouped, hannounced, h.made, h.stage, hcalls⟩
      have hsum := hheld isLast q
      rw [isLast, hnone] at hsum
      rw [← h.held]
      simpa using hsum
    | true =>
      have hlast : s.lastAfter (.finish i threw) = .running := by
        simp [Teardown.lastAfter, hexecutes, hnone]
      have hone : isLast t = 1 := if_pos hnone
      obtain rfl : q' = q := by
        by_contra hne
        have hsum := hheld isLast q'
        rw [h.elsewhere q' hne, if_pos rfl, hone] at hsum
        omega
      have hsum := hheld isLast q'
      rw [h.held, if_pos rfl, hone] at hsum
      -- the task was there, so `last` was deferred until now
      have hdeferred : s.last = .deferred := by
        by_contra hne
        rw [if_neg hne] at hsum
        omega
      rw [hlast]
      refine ⟨helsewhere, ?_, hgrouped, ?_, fun _ _ => by simp, fun _ => h.stage ?_, hcalls⟩
      · rw [if_pos hdeferred] at hsum
        show p.held isLast q' = 0
        omega
      · rw [hannounced, hdeferred]
        rfl
      · rw [hdeferred]
        simp

/-- So does every step. -/
lemma sound_step (h : s.Sound q) (hapart : s.program.Apart)
    (hstep : Teardown.step q s a = some s') : s'.Sound q := by
  have hreading : ∀ {i p p'}, s.destructor = some (i, p) → p.hasPushed = false → p' ≠ .wait →
      Teardown.Sound q { s with destructor := some (i, p') } := by
    intro i p p' hpoint hread hwait
    have hunmade : s.last = .unmade := by
      by_contra hne
      obtain ⟨j, p'', hpoint', hpushed⟩ := h.stage hne
      obtain ⟨-, rfl⟩ := Prod.mk.inj (Option.some.inj (hpoint.symm.trans hpoint'))
      cases hread.symm.trans hpushed
    refine ⟨h.elsewhere, h.held, h.grouped, h.announced, fun j hj => ?_,
      fun hne => absurd hunmade hne, fun j p'' hj k th pt hk hcall => ?_⟩
    · obtain ⟨-, rfl⟩ := Prod.mk.inj (Option.some.inj hj)
      exact absurd rfl hwait
    · obtain ⟨rfl, -⟩ := h.calls i p hpoint k th pt hk hcall
      cases hread
  cases Teardown.steps hstep with
  | program b hpermits hp => exact sound_program h hpermits hp
  | destroy i hnone hcalls =>
    have hunmade : s.last = .unmade := by
      by_contra hne
      obtain ⟨j, p, hpoint, -⟩ := h.stage hne
      cases hnone.symm.trans hpoint
    refine ⟨h.elsewhere, h.held, h.grouped, h.announced, nofun, fun hne => absurd hunmade hne,
      fun j p hj k th pt hk hcall => ?_⟩
    have hin := hapart.calls th (List.mem_of_getElem? hk) q pt hcall
    cases hin.symm.trans (hcalls pt (mem_points (List.mem_of_getElem? hk) (.inr hcall)))
  | readEmpty i hpoint => exact hreading hpoint rfl nofun
  | readChosen i isEmpty hpoint =>
    refine hreading hpoint rfl ?_
    split
    · split <;> nofun
    · nofun
  | readPauseCount i isTaskChosen hpoint =>
    refine hreading hpoint rfl ?_
    split <;> nofun
  | @push i p hpoint hp =>
    have hunmade : s.last = .unmade := by
      by_contra hne
      obtain ⟨j, p'', hpoint', hpushed⟩ := h.stage hne
      obtain ⟨-, rfl⟩ := Prod.mk.inj (Option.some.inj (hpoint.symm.trans hpoint'))
      cases hpushed
    refine ⟨fun q' hq' => ?_, ?_, ?_, ?_, nofun, fun _ => ⟨i, .wait, rfl, rfl⟩,
      fun j p' hj k th pt hk hcall => ?_⟩
    · rw [held_call hp isLast q', if_neg (Ne.symm hq'), Nat.add_zero]
      exact h.elsewhere q' hq'
    · rw [held_call hp isLast q, if_pos rfl, h.held, hunmade]
      rfl
    · rw [held_call hp misplaced q, if_pos rfl, h.grouped]
      rfl
    · rw [announced_call hp isLast q, if_pos rfl, h.announced, hunmade]
      rfl
    · obtain ⟨rfl, rfl⟩ := Prod.mk.inj (Option.some.inj hj)
      rcases call_step hp hk hcall with ⟨th₀, hth₀, hcall₀⟩ | ⟨op, hlabel, rfl⟩ |
        ⟨th₀, pt₀, r, hth₀, hcall₀, -⟩
      · cases (h.calls i _ hpoint k th₀ pt hth₀ hcall₀).1
      · obtain ⟨rfl, rfl⟩ := by simpa using hlabel
        exact ⟨rfl, rfl, rfl⟩
      · cases (h.calls i _ hpoint k th₀ pt₀ hth₀ hcall₀).1
  | wait i hpoint hcall hlast =>
    refine ⟨h.elsewhere, h.held, h.grouped, h.announced, fun j hj => ?_,
      fun _ => ⟨i, .finished, rfl, rfl⟩, fun j p hj k th pt hk hcall' => ?_⟩
    · cases hj
    · -- its own call of `push` has returned
      obtain ⟨-, rfl, -⟩ := h.calls i _ hpoint k th pt hk hcall'
      rw [hk] at hcall
      cases hcall.symm.trans hcall'
  | runLast hlast =>
    refine ⟨h.elsewhere, ?_, h.grouped, ?_, fun _ _ => nofun, fun _ => h.stage ?_, h.calls⟩
    · rw [h.held, hlast]
      rfl
    · rw [h.announced, hlast]
      rfl
    · rw [hlast]
      nofun

/-- Every state of a run is sound. -/
theorem sound {ok : Teardown Q α → TeardownLabel Q α → Prop}
    (h : RunsTo (Teardown.step q) ok {} s) : s.Sound q := by
  refine h.invariant_of (J := fun s => s.program.Apart) (fun h => apart (Teardown.reachable h)) ?_
    fun s a s' hapart hs _ hstep => sound_step hs hapart hstep
  exact ⟨fun _ _ => rfl, rfl, rfl, rfl, nofun, fun hne => absurd rfl hne, nofun⟩

/-! ## The condition -/

/-- The queue is not paused when the destructor starts. -/
def startsUnpaused (q : Q) (s : Teardown Q α) : TeardownLabel Q α → Bool
  | .destroy _ => (s.program.queue q).pauseCount == 0
  | _ => true

/-- One for a runner loop inside `pickNextTask`. -/
def Point.runnerPicks : Point α → ℕ
  | .pick (.runner _) _ => 1
  | _ => 0

/-- When the destructor finds that it does not have to wait, no runner loop is inside `pickNextTask`;
and when its task is popped, no other one is. -/
def leavesNoRunner (q : Q) (s : Teardown Q α) : TeardownLabel Q α → Bool
  | .advance =>
    match s.destructor with
    | some (_, .readChosen true) =>
      (s.program.queue q).taskChosen || s.program.count Point.runnerPicks q == 0
    | _ => true
  | .program (.advance j) =>
    match (s.program.threads[j]?).bind Thread.next? with
    | some (q', .pick c .tryPop) =>
      !decide (q' = q) || (s.program.queue q).tasks.head?.all (!·.action.isNone) ||
        decide (s.program.count Point.runnerPicks q ≤ (Point.pick c .tryPop : Point α).runnerPicks)
    | _ => true
  | _ => true

/-! ## Who is left -/

/-- One for an operation that is neither of the task of the destructor nor of a call of `push` that
gets no other task. -/
def Point.strays : Point (Option α) → ℕ
  | .push _ | .pause | .resume => 1
  | .pick _ (.unlockPicking (some t)) | .spawn _ t | .waiting t => if t.action.isNone then 0 else 1
  | .loop g t | .execute g t => if t.action.isNone ∧ g = 0 then 0 else 1
  | .pick .member _ => 0
  | .pick (.runner g) _ | .finishedTask g => if g = 0 then 0 else 1

/-- One for the first operation of a call. -/
def Point.outer : Point α → ℕ
  | .push _ | .pause | .resume => 1
  | _ => 0

/-- What is left of the queue, step by step. -/
structure Teardown.Alone (q : Q) (s : Teardown Q α) : Prop where
  unpaused : s.destructor ≠ none → (s.program.queue q).pauseCount = 0
  empty : ∀ i, s.destructor = some (i, .readChosen true) → (s.program.queue q).tasks = []
  order : tally isLast (s.program.queue q).tasks.dropLast = 0
  alone : 1 ≤ tally isLast (s.program.queue q).popped →
    s.program.count Point.strays q = 0 ∧ (s.program.queue q).tasks = []
  gone : ∀ i, s.destructor = some (i, .finished) →
    (∀ pt ∈ s.program.points q, False) ∧ (s.program.queue q).tasks = []

/-- Once the destructor has started, a call at `q` is its own. -/
lemma Teardown.Sound.ofDestructor (h : s.Sound q) (hapart : s.program.Apart) {pt : Point (Option α)}
    (hmem : pt ∈ s.program.points q) (hin : pt.inCall = true) {i : ℕ} {p : DestructorPoint}
    (hpoint : s.destructor = some (i, p)) : p = .wait ∧ pt.ofDestructor = true ∧
      ∃ th, s.program.threads[i]? = some th ∧ th.call = some (q, pt) := by
  obtain ⟨j, th, hj, hjob | hcall⟩ := mem_points_iff.mp hmem
  · cases hin.symm.trans (hapart.jobs th (List.mem_of_getElem? hj) q pt hjob)
  · obtain ⟨hwait, rfl, hof⟩ := h.calls i p hpoint j th pt hj hcall
    exact ⟨hwait, hof, th, hj, hcall⟩

/-- What a step of the program does at the queue that is destroyed. -/
inductive Teardown.ProgramAt (q : Q) (s : Teardown Q α) (b : Label Q α) (p : State Q (Option α)) : Prop
  | same (hqueue : p.queue q = s.program.queue q)
      (hcount : ∀ w, p.count w q = s.program.count w q)
  | called (hnone : s.destructor = none) (hqueue : p.queue q = s.program.queue q)
  | moved (j : ℕ) (pt : Point (Option α)) (r : Result (Option α)) (hlabel : b = .advance j)
      (hnext : (s.program.threads[j]?).bind Thread.next? = some (q, pt))
      (hmem : pt ∈ s.program.points q) (hstep : pt.step (s.program.queue q) = some r)
      (hqueue : p.queue q = r.queue)
      (hcount : ∀ w, p.count w q + w pt = s.program.count w q + r.weight w)
  | finished (g : ℕ) (t : QueuedTask (Option α)) (hmem : .execute g t ∈ s.program.points q)
      (hqueue : p.queue q = s.program.queue q)
      (hcount : ∀ w, p.count w q + w (.execute g t) = s.program.count w q + w (.finishedTask g))

/-- What a step of the program may do at the queue. -/
lemma program_at {b : Label Q α} {p : State Q (Option α)} (hpermits : s.permits q b = true)
    (hp : SerialTaskQueue.step s.program b.outside = some p) : s.ProgramAt q b p := by
  have hcases : (∃ i q' op, b = .call i q' op) ∨ ∀ i q' op, b.outside ≠ .call i q' op := by
    cases b with
    | call i q' op => exact .inl ⟨i, q', op, rfl⟩
    | _ => exact .inr nofun
  rcases hcases with ⟨i, q', op, rfl⟩ | hcall
  · by_cases hnone : s.destructor = none
    · exact .called hnone (congrFun (count_call hp (fun _ => 0) q).1 q)
    · have hne : q' ≠ q := by
        simpa [Teardown.permits, Option.isNone_iff_eq_none, hnone] using
          (Bool.and_eq_true_iff.mp hpermits).2
      refine .same (congrFun (count_call hp (fun _ => 0) q).1 q) fun w => ?_
      rw [(count_call hp w q).2, if_neg hne, Nat.add_zero]
  · cases step_at q hp with
    | elsewhere hqueue hcount => exact .same hqueue hcount
    | entered op hqueue hid hcount =>
      rw [nextId_eq hp hcall] at hid
      omega
    | moved j th pt r hlabel hth hnext hmem hr hqueue hcount =>
      refine .moved j pt r ?_ (by simp [hth, hnext]) hmem hr hqueue hcount
      cases b with
      | advance j' =>
        obtain rfl := by simpa [Label.outside] using hlabel
        rfl
      | _ => cases hlabel
    | finished j threw g t _ _ hmem hqueue hcount => exact .finished g t hmem hqueue hcount

lemma isNone_of_strays {c : Prop} [Decidable c] (h : (if c then 0 else 1) = 0) : c := by
  by_contra hc
  rw [if_neg hc] at h
  cases h

omit [DecidableEq Q] in
/-- Where nothing strays and no task waits, an operation leaves it so. -/
lemma strays_step {m : Queue (Option α)} {pt : Point (Option α)} {r : Result (Option α)}
    (h : pt.step m = some r) (hpt : pt.strays = 0) (hempty : m.tasks = [])
    (hgroup : ∀ t ∈ pt.tasks, t.action.isNone = true → t.group = 0) :
    r.weight Point.strays = 0 ∧ r.queue.tasks = [] := by
  by_cases hunlock : ∃ g t, pt = .pick (.runner g) (.unlockPicking (some t))
  · -- the loop goes on with a task of its own group only
    obtain ⟨g, t, rfl⟩ := hunlock
    have hnone : t.action.isNone = true := isNone_of_strays hpt
    have hzero := hgroup t (List.mem_singleton.mpr rfl) hnone
    obtain rfl := Option.some.inj h
    refine ⟨?_, hempty⟩
    simp only [Pick.step, Caller.receive, hzero]
    by_cases hg : (0 : ℕ) ≠ g
    · rw [if_pos hg]
      exact if_pos hnone
    · rw [if_neg hg]
      exact if_pos ⟨hnone, (not_not.mp hg).symm⟩
  · cases operation h with
    | push | pause | resume | resumeLast => cases hpt
    | pop c htasks => cases hempty.symm.trans htasks
    | paused | unlockNone => exact ⟨rfl, hempty⟩
    | spawn c t =>
      have hnone : t.action.isNone = true := isNone_of_strays hpt
      exact ⟨(Nat.zero_add _).trans (if_pos hnone), hempty⟩
    | unlockLoop g t => exact absurd ⟨g, t, rfl⟩ hunlock
    | unlockSpawn c t =>
      have hnone : t.action.isNone = true := isNone_of_strays hpt
      exact ⟨if_pos hnone, hempty⟩
    | waiting t =>
      have hnone : t.action.isNone = true := isNone_of_strays hpt
      exact ⟨if_pos ⟨hnone, hgroup t (List.mem_singleton.mpr rfl) hnone⟩, hempty⟩
    | loop g t => exact ⟨hpt, hempty⟩
    | finishedTask g => exact ⟨hpt, hempty⟩
    | notPaused c | spin c | lock c | alreadyChosen c | choose c | empty c | clear c =>
      exact ⟨by cases c <;> exact hpt, hempty⟩

omit [DecidableEq Q] in
/-- Only who owns the queue, picks or pushes can stray. -/
lemma strays_le (pt : Point (Option α)) :
    pt.strays ≤ pt.owns + pt.runnerPicks + pt.outer := by
  have hone : ∀ (c : Prop) [Decidable c], (if c then 0 else 1) ≤ 1 := fun c _ => by
    split <;> omega
  rcases pt with _ | _ | _ | ⟨_ | g, _ | _ | _ | _ | _ | _ | t⟩ | _ | _ | _ | _ | _ <;>
    simp [Point.strays, Point.owns, Pick.owns, Point.runnerPicks, Point.outer, hone]
  all_goals exact (hone _).trans (by omega)

/-- A task at a point of the queue is a task of the destructor only in its group. -/
lemma Teardown.Sound.group_eq_zero (h : s.Sound q) {pt : Point (Option α)}
    (hmem : pt ∈ s.program.points q) {t : QueuedTask (Option α)} (ht : t ∈ pt.tasks)
    (hnone : t.action.isNone = true) : t.group = 0 := by
  have hle := le_count (fun p => tally misplaced p.tasks) hmem
  have htask := le_tally_of_mem misplaced ht
  have hzero := h.grouped
  unfold State.held at hzero
  by_contra hne
  have hone : misplaced t = 1 := if_pos ⟨hnone, hne⟩
  omega

/-- A task of the destructor that somebody knows of was made. -/
lemma Teardown.Sound.made_of_pos (h : s.Sound q) (hpos : 1 ≤ s.program.announced isLast q) :
    s.last ≠ .unmade := by
  intro hunmade
  rw [h.announced, if_pos hunmade] at hpos
  omega

/-- No call at `q` has its first operation to come once the task of the destructor is pushed. -/
lemma Teardown.Sound.outer_eq_zero (h : s.Sound q) (hapart : s.program.Apart)
    (hpushed : 1 ≤ tally isLast (s.program.queue q).pushed) :
    s.program.count Point.outer q = 0 := by
  have hmade := h.made_of_pos (hpushed.trans (Nat.le_add_left _ _))
  have hannounced := h.announced
  unfold State.announced at hannounced
  obtain ⟨i, p, hpoint, -⟩ := h.stage hmade
  rw [if_neg hmade] at hannounced
  refine tally_eq_zero.mpr fun pt hmem => ?_
  cases pt with
  | push t =>
    obtain ⟨-, hof, -⟩ := h.ofDestructor hapart hmem rfl hpoint
    have hle := le_count (Point.pushing isLast) hmem
    have hone : isLast t = 1 := if_pos hof
    simp only [Point.pushing] at hle
    omega
  | pause | resume =>
    obtain ⟨-, hof, -⟩ := h.ofDestructor hapart hmem rfl hpoint
    cases hof
  | _ => rfl

omit [DecidableEq Q] in
/-- The last task was pushed as often as it was popped or waits. -/
lemma fifo_tally {m : Queue (Option α)} (h : m.Fifo) :
    tally isLast m.popped + tally isLast m.tasks = tally isLast m.pushed := by
  rw [← tally_append, h]

/-- The destructor's task was made before it was popped. -/
lemma Teardown.Sound.made_of_popped (h : s.Sound q) (hreach : Reachable s.program)
    (hpopped : 1 ≤ tally isLast (s.program.queue q).popped) : s.last ≠ .unmade := by
  have hfifo := fifo_tally (fifo hreach q)
  refine h.made_of_pos ?_
  unfold State.announced
  omega

/-- The task of the destructor is popped, and nobody else is there. -/
lemma strays_of_pop (h : s.Sound q) (hreach : Reachable s.program) {c : Caller}
    {t : QueuedTask (Option α)} {ts : List (QueuedTask (Option α))} {p : State Q (Option α)}
    (hmem : .pick c .tryPop ∈ s.program.points q) (htasks : (s.program.queue q).tasks = t :: ts)
    (hlast : t.action.isNone = true)
    (hrunners : s.program.count Point.runnerPicks q ≤ (Point.pick c .tryPop : Point α).runnerPicks)
    (hcount : p.count Point.strays q + (Point.pick c .tryPop : Point (Option α)).strays
      = s.program.count Point.strays q) : p.count Point.strays q = 0 := by
  have hfifo := fifo_tally (fifo hreach q)
  rw [htasks, tally_cons, isLast, if_pos hlast] at hfifo
  have houter := h.outer_eq_zero (apart hreach) (by omega)
  have howns := owns_le_one hreach q
  set u : Point (Option α) → ℕ := fun pt => pt.owns + pt.runnerPicks + pt.outer with hu
  have htotal : s.program.count u q = s.program.count Point.owns q
      + s.program.count Point.runnerPicks q + s.program.count Point.outer q := by
    rw [hu, count_add (fun pt => pt.owns + pt.runnerPicks) Point.outer, count_add]
  -- what the others weigh in `strays`, they weigh in `u`
  have hsplit : s.program.count u q
      = s.program.count Point.strays q + s.program.count (fun pt => u pt - pt.strays) q := by
    rw [← count_add]
    refine tally_congr fun pt _ => ?_
    have hle := strays_le pt
    simp only [hu]
    omega
  have hle : u (.pick c .tryPop) - (Point.pick c .tryPop : Point (Option α)).strays
      ≤ s.program.count (fun pt => u pt - pt.strays) q := le_count (fun pt => u pt - pt.strays) hmem
  have hself := strays_le (.pick c .tryPop : Point (Option α))
  have hweight : u (.pick c .tryPop) = (Point.pick c .tryPop : Point (Option α)).owns
      + (Point.pick c .tryPop : Point (Option α)).runnerPicks
      + (Point.pick c .tryPop : Point (Option α)).outer := rfl
  have hpopper : (Point.pick c .tryPop : Point (Option α)).owns = 1 := rfl
  have hsame : (Point.pick c .tryPop : Point (Option α)).runnerPicks
      = (Point.pick c .tryPop : Point α).runnerPicks := by
    cases c <;> rfl
  have hnone : (Point.pick c .tryPop : Point (Option α)).outer = 0 := rfl
  omega

/-! ## Every step -/

omit [DecidableEq Q] in
lemma tally_dropLast_tail (v : QueuedTask (Option α) → ℕ) (t : QueuedTask (Option α))
    (ts : List (QueuedTask (Option α))) :
    tally v ts.dropLast ≤ tally v (t :: ts).dropLast ∧
      (ts ≠ [] → v t ≤ tally v (t :: ts).dropLast) := by
  cases ts with
  | nil => exact ⟨le_rfl, fun h => absurd rfl h⟩
  | cons u us =>
    rw [List.dropLast_cons_cons, tally_cons]
    exact ⟨Nat.le_add_left _ _, fun _ => Nat.le_add_right _ _⟩

/-- Nobody pauses or resumes the queue once the destructor has started. -/
lemma pauseCount_moved {pt : Point (Option α)} {r : Result (Option α)} (h : s.Sound q)
    (hapart : s.program.Apart) {i : ℕ} {p : DestructorPoint} (hpoint : s.destructor = some (i, p))
    (hmem : pt ∈ s.program.points q) (hr : pt.step (s.program.queue q) = some r) :
    r.queue.pauseCount = (s.program.queue q).pauseCount := by
  have hcall : pt.inCall = true → pt.ofDestructor = true := fun hin =>
    (h.ofDestructor hapart hmem hin hpoint).2.1
  cases operation hr with
  | pause | resume | resumeLast => cases hcall rfl
  | _ => rfl

/-- An operation at the queue that is destroyed. -/
lemma alone_moved {pt : Point (Option α)} {r : Result (Option α)} {p : State Q (Option α)} {j : ℕ}
    (h : s.Sound q) (hreach : Reachable s.program) (halone : s.Alone q)
    (hok : leavesNoRunner q s (.program (.advance j)) = true)
    (hnext : (s.program.threads[j]?).bind Thread.next? = some (q, pt))
    (hmem : pt ∈ s.program.points q) (hr : pt.step (s.program.queue q) = some r)
    (hqueue : p.queue q = r.queue)
    (hcount : ∀ w, p.count w q + w pt = s.program.count w q + r.weight w) (last : Last) :
    Teardown.Alone q { s with program := p, last := last } := by
  have hapart := apart hreach
  -- after the start there are no calls but that of the destructor
  have hcall : ∀ {i p'}, s.destructor = some (i, p') → pt.inCall = true →
      p' = .wait ∧ pt.ofDestructor = true := fun hpoint hin => by
    obtain ⟨hwait, hof, -⟩ := h.ofDestructor hapart hmem hin hpoint
    exact ⟨hwait, hof⟩
  have hfifo := fifo_tally (fifo hreach q)
  have hannounced := h.announced
  unfold State.announced at hannounced
  refine ⟨fun hne => ?_, fun i hpoint => ?_, ?_, fun hpopped => ?_, fun i hpoint => ?_⟩
  · obtain ⟨⟨i, p'⟩, hpoint⟩ := Option.ne_none_iff_exists'.mp hne
    show (p.queue q).pauseCount = 0
    rw [hqueue, pauseCount_moved h hapart hpoint hmem hr]
    exact halone.unpaused hne
  · have hempty := halone.empty i hpoint
    show (p.queue q).tasks = []
    rw [hqueue]
    cases operation hr with
    | push t => cases (hcall hpoint rfl).1
    | pop c htasks => cases hempty.symm.trans htasks
    | _ => exact hempty
  · show tally isLast (p.queue q).tasks.dropLast = 0
    rw [hqueue]
    cases operation hr with
    | push t =>
      rw [List.dropLast_concat]
      by_contra hne
      -- the task of the destructor is there already, and this one would be a second
      have hmade : s.last ≠ .unmade := h.made_of_pos (by unfold State.announced; omega)
      obtain ⟨i, p', hpoint, -⟩ := h.stage hmade
      have hone : isLast t = 1 := if_pos (hcall hpoint rfl).2
      have hle := le_count (Point.pushing isLast) hmem
      simp only [Point.pushing] at hle
      rw [if_neg hmade] at hannounced
      omega
    | @pop c t ts htasks =>
      have horder := halone.order
      rw [htasks] at horder
      have hle := (tally_dropLast_tail isLast t ts).1
      show tally isLast ts.dropLast = 0
      omega
    | _ => exact halone.order
  · by_cases hold : 1 ≤ tally isLast (s.program.queue q).popped
    · obtain ⟨hzero, hempty⟩ := halone.alone hold
      have hpt : pt.strays = 0 := tally_eq_zero.mp hzero pt hmem
      obtain ⟨hweight, hempty'⟩ := strays_step hr hpt hempty fun t ht hnone =>
        h.group_eq_zero hmem ht hnone
      have hmove := hcount Point.strays
      show p.count Point.strays q = 0 ∧ (p.queue q).tasks = []
      rw [hqueue]
      exact ⟨by omega, hempty'⟩
    · change 1 ≤ tally isLast (p.queue q).popped at hpopped
      rw [hqueue] at hpopped
      show p.count Point.strays q = 0 ∧ (p.queue q).tasks = []
      rw [hqueue]
      cases operation hr with
      | @pop c t ts htasks =>
        have hlast : t.action.isNone = true := by
          by_contra hne
          have hzero : isLast t = 0 := if_neg hne
          simp only [tally_append, tally_cons, tally_nil] at hpopped
          omega
        have hone : isLast t = 1 := if_pos hlast
        obtain rfl : ts = [] := by
          by_contra hne
          have horder := halone.order
          rw [htasks] at horder
          have hle := (tally_dropLast_tail isLast t ts).2 hne
          omega
        have hrunners : s.program.count Point.runnerPicks q
            ≤ (Point.pick c .tryPop : Point α).runnerPicks := by
          simpa [leavesNoRunner, hnext, htasks, Option.isNone_iff_eq_none.mp hlast] using hok
        have hmove := hcount Point.strays
        have hweight : Result.weight Point.strays (⟨{ s.program.queue q with
            tasks := [], popped := (s.program.queue q).popped ++ [t] },
            some (.pick c (.unlockPicking (some t))), none⟩ : Result (Option α)) = 0 :=
          if_pos hlast
        rw [hweight, Nat.add_zero] at hmove
        exact ⟨strays_of_pop h hreach hmem htasks hlast hrunners hmove, rfl⟩
      | _ => exact absurd hpopped hold
  · exact absurd hmem ((halone.gone i hpoint).1 pt)

lemma forall_false_of_count {p : State Q (Option α)}
    (h : ∀ pt ∈ s.program.points q, False) (hcount : ∀ w, p.count w q = s.program.count w q) :
    ∀ pt ∈ p.points q, False :=
  forall_points_of_count [] h (by simp) fun w => by simp [hcount]

/-- A step of the program that leaves no runner keeps what is left of the queue. -/
lemma alone_program {b : Label Q α} {p : State Q (Option α)} (h : s.Sound q)
    (hreach : Reachable s.program) (halone : s.Alone q) (hok : leavesNoRunner q s (.program b) = true)
    (hpermits : s.permits q b = true) (hp : SerialTaskQueue.step s.program b.outside = some p) :
    Teardown.Alone q { s with program := p, last := s.lastAfter b } := by
  cases program_at hpermits hp with
  | same hqueue hcount =>
    refine ⟨?_, ?_, ?_, ?_, fun i hpoint => ⟨?_, ?_⟩⟩
    all_goals simp only [hqueue, hcount]
    · exact halone.unpaused
    · exact halone.empty
    · exact halone.order
    · exact halone.alone
    · exact forall_false_of_count (halone.gone i hpoint).1 hcount
    · exact (halone.gone i hpoint).2
  | called hnone hqueue =>
    refine ⟨fun hne => absurd hnone hne, fun i hpoint => ?_, ?_, fun hpopped => ?_,
      fun i hpoint => ?_⟩
    · cases hnone.symm.trans hpoint
    · show tally isLast (p.queue q).tasks.dropLast = 0
      rw [hqueue]
      exact halone.order
    · -- the task of the destructor is not there before it starts
      change 1 ≤ tally isLast (p.queue q).popped at hpopped
      rw [hqueue] at hpopped
      obtain ⟨i, p', hpoint, -⟩ := h.stage (h.made_of_popped hreach hpopped)
      cases hnone.symm.trans hpoint
    · cases hnone.symm.trans hpoint
  | moved j pt r hlabel hnext hmem hr hqueue hcount =>
    subst hlabel
    exact alone_moved h hreach halone hok hnext hmem hr hqueue hcount _
  | finished g t hmem hqueue hcount =>
    refine ⟨?_, ?_, ?_, fun hpopped => ?_, fun i hpoint => ?_⟩
    · simp only [hqueue]
      exact halone.unpaused
    · simp only [hqueue]
      exact halone.empty
    · simp only [hqueue]
      exact halone.order
    · change 1 ≤ tally isLast (p.queue q).popped at hpopped
      rw [hqueue] at hpopped
      obtain ⟨hzero, hempty⟩ := halone.alone hpopped
      have hself : (Point.execute g t).strays = 0 := tally_eq_zero.mp hzero _ hmem
      obtain ⟨-, rfl⟩ := isNone_of_strays hself
      have hmove := hcount Point.strays
      have hdone : (Point.finishedTask 0 : Point (Option α)).strays = 0 := rfl
      show p.count Point.strays q = 0 ∧ (p.queue q).tasks = []
      rw [hqueue]
      exact ⟨by omega, hempty⟩
    · exact absurd hmem ((halone.gone i hpoint).1 _)

/-- When the wait is over, nobody is at the queue. -/
lemma gone_of_wait (h : s.Sound q) (hreach : Reachable s.program) (halone : s.Alone q) {i : ℕ}
    (hpoint : s.destructor = some (i, .wait))
    (hcall : (s.program.threads[i]?).bind Thread.call = none) (hlast : s.last = .done)
    (hgroup : ∀ pt ∈ s.program.points q, pt.group ≠ some 0) :
    (∀ pt ∈ s.program.points q, False) ∧ (s.program.queue q).tasks = [] := by
  have hheld := h.held
  have hannounced := h.announced
  have hfifo := fifo_tally (fifo hreach q)
  unfold State.held at hheld
  unfold State.announced at hannounced
  rw [hlast, if_neg nofun] at hheld
  rw [hlast, if_neg nofun] at hannounced
  -- the last task is over, so nobody holds it
  have hnone : ∀ pt ∈ s.program.points q, ∀ t ∈ pt.tasks, t.action.isNone = false := by
    intro pt hmem t ht
    have hle := le_count (fun p => tally isLast p.tasks) hmem
    have htask := le_tally_of_mem isLast ht
    by_contra hne
    have hone : isLast t = 1 := if_pos (by simpa using hne)
    omega
  have hpushing : s.program.count (Point.pushing isLast) q
      ≤ s.program.count (fun p => tally isLast p.tasks) q := by
    refine count_mono (fun pt => ?_) s.program q
    cases pt with
    | push t => exact Nat.le_add_right _ _
    | _ => exact Nat.zero_le _
  obtain ⟨hstrays, hempty⟩ := halone.alone (by omega)
  refine ⟨fun pt hmem => ?_, hempty⟩
  -- whoever is at the queue is of the group that the destructor waits for, which is empty
  have hself : pt.strays = 0 := tally_eq_zero.mp hstrays pt hmem
  have hin : pt.inCall = false := by
    by_contra hin
    obtain ⟨-, -, th, hth, hcall'⟩ := h.ofDestructor (apart hreach) hmem (by simpa using hin) hpoint
    rw [hth] at hcall
    cases hcall.symm.trans hcall'
  have hno := hgroup pt hmem
  have htasks := hnone pt hmem
  cases pt with
  -- by the point: a call, a group, or the last task
  | push | pause | resume => cases hin
  | pick c pick =>
    cases c with
    | member => cases hin
    | runner g =>
      cases pick with
      | unlockPicking t =>
        cases t with
        | none =>
          obtain rfl : g = 0 := isNone_of_strays hself
          exact hno rfl
        | some t =>
          have hyes : t.action.isNone = true := isNone_of_strays hself
          cases hyes.symm.trans (htasks t (List.mem_singleton.mpr rfl))
      | _ =>
        obtain rfl : g = 0 := isNone_of_strays hself
        exact hno rfl
  | spawn c t | waiting t =>
    have hyes : t.action.isNone = true := isNone_of_strays hself
    cases hyes.symm.trans (htasks t (List.mem_singleton.mpr rfl))
  | loop g t | execute g t =>
    obtain ⟨hyes, -⟩ := isNone_of_strays hself
    cases hyes.symm.trans (htasks t (List.mem_singleton.mpr rfl))
  | finishedTask g =>
    obtain rfl : g = 0 := isNone_of_strays hself
    exact hno rfl

/-- When the destructor does not wait, nobody is at the queue. -/
lemma gone_of_readChosen (h : s.Sound q) (hreach : Reachable s.program) {i : ℕ}
    (hpoint : s.destructor = some (i, .readChosen true))
    (hchosen : (s.program.queue q).taskChosen = false)
    (hrunners : s.program.count Point.runnerPicks q = 0) :
    ∀ pt ∈ s.program.points q, False := by
  intro pt hmem
  have howns := le_count Point.owns hmem
  have hpicks := le_count Point.runnerPicks hmem
  rw [owns_eq hreach q, hchosen] at howns
  rw [hrunners] at hpicks
  have hin : pt.inCall = false := by
    by_contra hin
    obtain ⟨hwait, -⟩ := h.ofDestructor (apart hreach) hmem (by simpa using hin) hpoint
    cases hwait
  cases pt with
  | push | pause | resume => cases hin
  | pick c pick =>
    cases c with
    | member => cases hin
    | runner g => cases hpicks
  | _ => cases howns

/-- So does every step. -/
lemma alone_step (h : s.Sound q) (hreach : Reachable s.program) (halone : s.Alone q)
    (hstarts : startsUnpaused q s a = true) (hok : leavesNoRunner q s a = true)
    (hstep : Teardown.step q s a = some s') : s'.Alone q := by
  cases Teardown.steps hstep with
  | program b hpermits hp => exact alone_program h hreach halone hok hpermits hp
  | destroy i hnone hcalls =>
    refine ⟨fun _ => ?_, by simp, halone.order, halone.alone, by simp⟩
    simpa [startsUnpaused] using hstarts
  | readEmpty i hpoint =>
    have hunpaused := halone.unpaused (by simp [hpoint])
    refine ⟨fun _ => hunpaused, fun j hj => ?_, halone.order, halone.alone, by simp⟩
    obtain ⟨-, hempty⟩ := Prod.mk.inj (Option.some.inj hj)
    simpa using hempty
  | readChosen i isEmpty hpoint =>
    have hunpaused := halone.unpaused (by simp [hpoint])
    refine ⟨fun _ => hunpaused, fun j hj => ?_, halone.order, halone.alone, fun j hj => ?_⟩
    · cases isEmpty <;> cases hchosen : (s.program.queue q).taskChosen <;> simp [hchosen] at hj
    · cases isEmpty with
      | false => cases hj
      | true =>
        cases hchosen : (s.program.queue q).taskChosen with
        | true => simp [hchosen] at hj
        | false =>
          have hrunners : s.program.count Point.runnerPicks q = 0 := by
            simpa [leavesNoRunner, hpoint, hchosen] using hok
          -- nothing to do and nobody to do it: the destructor does not wait
          have hgone := gone_of_readChosen h hreach hpoint hchosen hrunners
          exact ⟨hgone, halone.empty i hpoint⟩
  | readPauseCount i isTaskChosen hpoint =>
    have hunpaused := halone.unpaused (by simp [hpoint])
    rw [if_pos (.inl hunpaused)]
    exact ⟨fun _ => hunpaused, by simp, halone.order, halone.alone, by simp⟩
  | @push i p hpoint hp =>
    have hqueue := congrFun (count_call hp (fun _ => 0) q).1 q
    refine ⟨fun _ => ?_, by simp, ?_, fun hpopped => ?_, by simp⟩
    · show (p.queue q).pauseCount = 0
      rw [hqueue]
      exact halone.unpaused (by simp [hpoint])
    · show tally isLast (p.queue q).tasks.dropLast = 0
      rw [hqueue]
      exact halone.order
    · change 1 ≤ tally isLast (p.queue q).popped at hpopped
      rw [hqueue] at hpopped
      -- the last task is not popped before it is pushed
      obtain ⟨j, p', hpoint', hpushed⟩ := h.stage (h.made_of_popped hreach hpopped)
      obtain ⟨-, rfl⟩ := Prod.mk.inj (Option.some.inj (hpoint.symm.trans hpoint'))
      cases hpushed
  | wait i hpoint hcall hlast hgroup =>
    have hunpaused := halone.unpaused (by simp [hpoint])
    have hgone := gone_of_wait h hreach halone hpoint hcall hlast hgroup
    exact ⟨fun _ => hunpaused, by simp, halone.order, halone.alone, fun _ _ => hgone⟩
  | runLast hlast => exact ⟨halone.unpaused, halone.empty, halone.order, halone.alone, halone.gone⟩

/-! ## Runs -/

/-- **The destructor waits for all users of the queue.** In every run in which the queue is not paused
when the destructor starts, and no runner loop is inside `pickNextTask` when it finds that it does not
have to wait, and none but the one that pops its task when it does: when it has finished, every task
that was pushed has been executed, and no thread is at an operation of the queue. -/
theorem destructor_waits
    (h : RunsTo (Teardown.step q)
      (fun s a => startsUnpaused q s a = true ∧ leavesNoRunner q s a = true) {} s) {i : ℕ}
    (hfinished : s.destructor = some (i, .finished)) :
    (s.program.queue q).begun = (s.program.queue q).pushed ∧ s.program.points q = [] := by
  have hknown : ∀ {t : Teardown Q α}, RunsTo (Teardown.step q)
      (fun s a => startsUnpaused q s a = true ∧ leavesNoRunner q s a = true) {} t →
      t.Sound q ∧ Reachable t.program := fun ht => ⟨sound ht, Teardown.reachable ht⟩
  have halone : s.Alone q := by
    refine h.invariant_of hknown ⟨fun hne => absurd rfl hne, nofun, rfl, nofun, nofun⟩
      fun s a s' hk hs hok hstep => alone_step hk.1 hk.2 hs hok.1 hok.2 hstep
  obtain ⟨hnobody, hempty⟩ := halone.gone i hfinished
  have hpoints := List.eq_nil_iff_forall_not_mem.mpr hnobody
  have hreach := Teardown.reachable h
  have horder := inOrder hreach q
  have hfifo := fifo hreach q
  rw [Queue.Fifo, hempty, List.append_nil] at hfifo
  have hholds : s.program.count Point.holds q = 0 := by
    rw [State.count, hpoints]
    rfl
  refine ⟨?_, hpoints⟩
  rw [← hfifo]
  refine horder.begun_popped.eq_of_length ?_
  rw [horder.length_popped, hholds, Nat.add_zero]

/-- `n` operations of thread `i`. -/
def operations (i n : ℕ) : List (TeardownLabel Unit ℕ) :=
  List.replicate n (.program (.advance i))

/-- Thread 0 pushes a task, which runs as thread 1. -/
def runTask : List (TeardownLabel Unit ℕ) :=
  [.program .fork, .program (.call 0 () (.push 0 7))] ++ operations 0 7 ++ operations 1 2

/-- Thread 0 destroys the queue while the task is running, and waits. -/
def destroyRunning : List (TeardownLabel Unit ℕ) :=
  runTask ++ [.destroy 0, .advance, .advance, .advance] ++ operations 0 5

/-- The runner loop of the task gets the task of the destructor, which runs as thread 2. -/
def endOfWait : List (TeardownLabel Unit ℕ) :=
  [.program (.finish 1 false)] ++ operations 1 7 ++ operations 2 2 ++
    [.program (.finish 2 false), .runLast] ++ operations 2 7 ++ [.advance]

theorem destructor_waits_destroyRunning :
    ∃ s : Teardown Unit ℕ, execute (Teardown.step ())
        (fun s a => startsUnpaused () s a && leavesNoRunner () s a) {}
        (destroyRunning ++ endOfWait) = some s ∧
      (s.program.queue ()).begun = (s.program.queue ()).pushed ∧ s.program.points () = [] := by
  have hrun : ∃ s : Teardown Unit ℕ, execute (Teardown.step ())
      (fun s a => startsUnpaused () s a && leavesNoRunner () s a) {}
      (destroyRunning ++ endOfWait) = some s ∧ s.destructor = some (0, .finished) :=
    ⟨_, rfl, by decide⟩
  obtain ⟨s, hs, hfinished⟩ := hrun
  have hmain := destructor_waits
    (.of_execute (destroyRunning ++ endOfWait) (fun _ _ h => by simpa using h) hs) hfinished
  exact ⟨s, hs, hmain⟩

/-- The task has finished, and its runner loop has cleared `m_taskChosen`, when thread 0 destroys the
queue. -/
def destroyFinished : List (TeardownLabel Unit ℕ) :=
  runTask ++ [.program (.finish 1 false)] ++ operations 1 1 ++ [.destroy 0, .advance, .advance]

/-- **A runner loop can be left.** Its next operation reads `m_pauseCount` of the queue that is
destroyed. -/
theorem runner_left :
    ¬ ∀ (s : Teardown Unit ℕ) (i : ℕ),
      RunsTo (Teardown.step ()) (fun s a => startsUnpaused () s a = true) {} s →
      s.destructor = some (i, .finished) →
      (s.program.queue ()).begun = (s.program.queue ()).pushed ∧ s.program.points () = [] := by
  have hrun : ∃ s : Teardown Unit ℕ,
      execute (Teardown.step ()) (startsUnpaused ()) {} destroyFinished = some s ∧
      s.destructor = some (0, .finished) ∧
      s.program.points () = [.pick (.runner 1) .readPauseCount] := by
    refine ⟨_, rfl, ?_, ?_⟩ <;> decide
  obtain ⟨s, hs, hfinished, hpoints⟩ := hrun
  intro hall
  obtain ⟨-, hnone⟩ := hall s 0 (.of_execute destroyFinished (fun _ _ h => h) hs) hfinished
  cases hnone.symm.trans hpoints

end UnifyPrototype.SerialTaskQueue
