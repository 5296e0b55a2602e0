import UnifyPrototype.SerialTaskQueue.Steps

/-!
# Who holds the picking lock and who owns the chosen flag

`m_pickingNextTask` is a spin lock and `m_taskChosen` a token that is handed from the thread that
set it, through `spawn`, to the functor that runs the task and back to `finishedTask`.
-/

namespace UnifyPrototype.SerialTaskQueue

open UnifyPrototype.Utils

variable {Q α : Type} [DecidableEq Q] {s s' : State Q α} {q : Q}

/-! ## The weights -/

/-- Past the compare-exchange on `m_pickingNextTask`, before the sentry's store. -/
def Pick.locks : Pick α → ℕ
  | .readPauseCount | .lockPicking => 0
  | .chooseTask | .tryPop | .clearChosen | .unlockPicking _ => 1

/-- Holds the spin lock. -/
def Point.locks : Point α → ℕ
  | .pick _ p => p.locks
  | _ => 0

/-- Past the compare-exchange on `m_taskChosen`, with the flag still its own. -/
def Pick.owns : Pick α → ℕ
  | .tryPop | .clearChosen | .unlockPicking (some _) => 1
  | .readPauseCount | .lockPicking | .chooseTask | .unlockPicking none => 0

/-- Owns the chosen flag: it is looking for a task, or a task it found is on its way to a runner,
or it is the runner. -/
def Point.owns : Point α → ℕ
  | .pick _ p => p.owns
  | .push _ | .pause | .resume => 0
  | .spawn _ _ | .waiting _ | .loop _ _ | .execute _ _ | .finishedTask _ => 1

/-! ## One operation -/

/-- The lock is taken only when it is free and released only by its holder. -/
lemma locks_step {m : Queue α} {pt : Point α} {r : Result α} (h : pt.step m = some r)
    (hlock : pt.locks ≤ m.pickingNextTask.toNat) :
    r.weight Point.locks + m.pickingNextTask.toNat
      = pt.locks + r.queue.pickingNextTask.toNat := by
  have hle := m.pickingNextTask.toNat_le
  cases operation h with
  | lock c hfree => simp [Result.weight, Point.locks, Pick.locks, hfree]
  | unlockNone c | unlockSpawn c t | unlockLoop g t =>
    simp only [Point.locks, Pick.locks] at hlock
    simp only [Result.weight, Option.elim_some, Option.elim_none, Point.locks, Pick.locks,
      Bool.toNat_false]
    omega
  | _ => simp [Result.weight, Point.locks, Pick.locks]

/-- The flag is set only when it is clear and cleared only by its owner. -/
lemma owns_step {m : Queue α} {pt : Point α} {r : Result α} (h : pt.step m = some r)
    (hown : pt.owns ≤ m.taskChosen.toNat) :
    r.weight Point.owns + m.taskChosen.toNat = pt.owns + r.queue.taskChosen.toNat := by
  have hle := m.taskChosen.toNat_le
  cases operation h with
  | choose c hclear => simp [Result.weight, Point.owns, Pick.owns, hclear]
  | clear c | finishedTask g =>
    simp only [Point.owns, Pick.owns] at hown
    simp only [Result.weight, Option.elim_some, Option.elim_none, Point.owns, Pick.owns,
      Bool.toNat_false]
    omega
  | _ => simp [Result.weight, Point.owns, Pick.owns]

/-! ## Every run -/

/-- **Token rule.** If every operation at a queue moves the weight of the thread that makes it by
as much as it moves the data member `f`, then `f` always tells the weight of all threads. -/
theorem count_eq (w : Point α → ℕ) (f : Queue α → ℕ) (hinit : f {} = 0)
    (hentry : ∀ id op, w (Op.entry id op) = 0)
    (hfinish : ∀ g t, w (.execute g t) = w (.finishedTask g))
    (hlocal : ∀ {m pt r}, pt.step m = some r → w pt ≤ f m →
      r.weight w + f m = w pt + f r.queue)
    (h : Reachable s) (q : Q) : s.count w q = f (s.queue q) := by
  refine h.invariant (I := fun s => s.count w q = f (s.queue q)) hinit.symm
    fun s a s' ih _ hstep => ?_
  cases step_at q hstep with
  | elsewhere hq hc => rw [hc, hq, ih]
  | entered op hq _ hc => rw [hc, hq, ih, hentry, Nat.add_zero]
  | moved i th pt r _ _ _ hmem hr hq hc =>
    have hmove := hlocal hr (ih ▸ le_count w hmem)
    have := hc w
    rw [hq]
    omega
  | finished i threw g t _ _ _ hq hc =>
    have := hc w
    rw [hfinish] at this
    rw [hq, ← ih]
    omega

/-- One thread holds the lock if it is taken, none otherwise. -/
theorem locks_eq (h : Reachable s) (q : Q) :
    s.count Point.locks q = (s.queue q).pickingNextTask.toNat :=
  count_eq Point.locks (fun m => m.pickingNextTask.toNat) rfl
    (fun _ op => by cases op <;> rfl) (fun _ _ => rfl) locks_step h q

/-- One thread owns the chosen flag if it is set, none otherwise. -/
theorem owns_eq (h : Reachable s) (q : Q) :
    s.count Point.owns q = (s.queue q).taskChosen.toNat :=
  count_eq Point.owns (fun m => m.taskChosen.toNat) rfl
    (fun _ op => by cases op <;> rfl) (fun _ _ => rfl) owns_step h q

/-- One thread at a time is behind `m_pickingNextTask`. -/
lemma locks_le_one (h : Reachable s) (q : Q) : s.count Point.locks q ≤ 1 := by
  rw [locks_eq h q]
  exact Bool.toNat_le _

/-- One thread at a time owns the queue. -/
lemma owns_le_one (h : Reachable s) (q : Q) : s.count Point.owns q ≤ 1 := by
  rw [owns_eq h q]
  exact Bool.toNat_le _

/-- All owners of the flag are at the same program point. -/
lemma owner_unique (h : Reachable s) (pt : Point α) {pt' : Point α} (hpt : pt.owns = 1) (hpt' : pt'.owns = 1)
    (hmem : pt ∈ s.points q) (hmem' : pt' ∈ s.points q) : pt' = pt := by
  classical
  by_contra hne
  have hzero : s.count (fun p => if p = pt then 0 else p.owns) q = 0 := by
    refine count_eq_zero (w := fun p => if p = pt then p.owns else 0) (u := Point.owns)
      (fun p => ?_) (owns_le_one h q) pt (by simpa using hpt) hmem
    by_cases hp : p = pt <;> simp [hp]
  have hle := le_count (fun p => if p = pt then 0 else p.owns) hmem'
  rw [hzero, if_neg hne, hpt'] at hle
  omega

/-- One thread runs tasks of a queue at a time. -/
lemma runner_unique (h : Reachable s) {i j : ℕ} {th th' : Thread Q α} {pt pt' : Point α}
    (hi : s.threads[i]? = some th) (hj : s.threads[j]? = some th')
    (hjob : th.job = some (q, pt)) (hjob' : th'.job = some (q, pt')) (hpt : pt.owns = 1)
    (hpt' : pt'.owns = 1) : i = j := by
  by_contra hij
  have hadd := add_le_tally (Thread.weight Point.owns q) hij hi hj
  have hle := owns_le_one h q
  rw [count_eq_tally] at hle
  simp only [Thread.weight, hjob, hjob', pointAt_self, tally_cons, tally_nil] at hadd
  omega

/-- Where a thread owns the flag, the flag is set. -/
lemma taskChosen_of_owns (h : Reachable s) {pt : Point α} (hpt : pt.owns = 1)
    (hmem : pt ∈ s.points q) : (s.queue q).taskChosen = true := by
  have hle := le_count Point.owns hmem
  rw [owns_eq h q, hpt] at hle
  cases hchosen : (s.queue q).taskChosen with
  | true => rfl
  | false => simp [hchosen] at hle

end UnifyPrototype.SerialTaskQueue
