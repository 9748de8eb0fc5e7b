import LinuxServer.Framework.Reachability

/-!
# Two threads and two mutexes

`workA` locks `mutex1` and then `mutex2`, `workB` locks `mutex2` and then `mutex1`.
But for the order both have the same body, so both are one definition with the
`Worker` as a parameter. One step is one statement.

- §1 the threads
- §2 who owns which mutex
- §3 the two ways a run can end
-/

namespace LinuxServer.Deadlock

open LinuxServer.Framework

/-! ## §1  The threads -/

inductive Worker where
  | A
  | B
deriving DecidableEq

inductive Mutex where
  | mutex1
  | mutex2
deriving DecidableEq

/-- The mutex a thread locks first. -/
def Worker.first : Worker → Mutex
  | .A => .mutex1
  | .B => .mutex2

def Worker.second : Worker → Mutex
  | .A => .mutex2
  | .B => .mutex1

inductive Pc where
  | lockFirst
  | sleep
  | lockSecond
  | print
  | unlockSecond
  | unlockFirst
  | done
deriving DecidableEq

structure State where
  pc : Worker → Pc
  owner : Mutex → Option Worker
  /-- Who has printed its line. -/
  out : List Worker

/-- One statement of the thread `me`; `none` where it blocks or has returned. -/
def work (me : Worker) (s : State) : Option State :=
  match s.pc me with
  | .lockFirst =>
      if s.owner me.first = none then
        some { s with
          pc := Function.update s.pc me .sleep
          owner := Function.update s.owner me.first (some me) }
      else none
  | .sleep => some { s with pc := Function.update s.pc me .lockSecond }
  | .lockSecond =>
      if s.owner me.second = none then
        some { s with
          pc := Function.update s.pc me .print
          owner := Function.update s.owner me.second (some me) }
      else none
  | .print =>
      some { s with pc := Function.update s.pc me .unlockSecond, out := s.out ++ [me] }
  | .unlockSecond =>
      some { s with
        pc := Function.update s.pc me .unlockFirst
        owner := Function.update s.owner me.second none }
  | .unlockFirst =>
      some { s with
        pc := Function.update s.pc me .done
        owner := Function.update s.owner me.first none }
  | .done => none

def workA : State → Option State := work .A

def workB : State → Option State := work .B

def Step (s s' : State) : Prop := workA s = some s' ∨ workB s = some s'

def threads : System State where
  init s := s = ⟨fun _ => .lockFirst, fun _ => none, []⟩
  step := Step

/-! ## §2  Who owns which mutex -/

def Pc.hasFirst : Pc → Bool
  | .sleep | .lockSecond | .print | .unlockSecond | .unlockFirst => true
  | .lockFirst | .done => false

def Pc.hasSecond : Pc → Bool
  | .print | .unlockSecond => true
  | _ => false

/-- At `pc` the thread `w` has the mutex `m`. -/
def Holds (m : Mutex) (w : Worker) (pc : Pc) : Prop :=
  m = w.first ∧ pc.hasFirst = true ∨ m = w.second ∧ pc.hasSecond = true

def Pc.printed : Pc → ℕ
  | .unlockSecond | .unlockFirst | .done => 1
  | _ => 0

structure Inv (s : State) : Prop where
  owner : ∀ m w, s.owner m = some w ↔ Holds m w (s.pc w)
  out : ∀ w, s.out.count w = (s.pc w).printed

variable {s s' : State} {w : Worker}

theorem first_ne_second (w : Worker) : w.first ≠ w.second := by
  cases w <;> simp [Worker.first, Worker.second]

/-- The owners after the thread `w` took the mutex `m` or gave it back. -/
theorem owner_update {m : Mutex} {o : Option Worker} {pc : Pc}
    (hi : ∀ m w, s.owner m = some w ↔ Holds m w (s.pc w))
    (ho : ∀ v, v ≠ w → s.owner m ≠ some v ∧ o ≠ some v)
    (hpc : ∀ m', Holds m' w pc ↔ if m' = m then o = some w else Holds m' w (s.pc w))
    (m' : Mutex) (v : Worker) :
    Function.update s.owner m o m' = some v ↔ Holds m' v (Function.update s.pc w pc v) := by
  by_cases hv : v = w
  · subst hv
    rw [Function.update_self, hpc]
    by_cases hm : m' = m
    · rw [hm, Function.update_self, if_pos rfl]
    · rw [Function.update_of_ne hm, if_neg hm, hi]
  · rw [Function.update_of_ne hv, ← hi]
    by_cases hm : m' = m
    · rw [hm, Function.update_self]
      exact iff_of_false (ho v hv).2 (ho v hv).1
    · rw [Function.update_of_ne hm]

theorem owner_move {pc : Pc} (hi : ∀ m w, s.owner m = some w ↔ Holds m w (s.pc w))
    (hpc : ∀ m', Holds m' w pc ↔ Holds m' w (s.pc w)) (m' : Mutex) :
    ∀ v, s.owner m' = some v ↔ Holds m' v (Function.update s.pc w pc v) := by
  apply (Function.forall_update_iff s.pc fun v pc => s.owner m' = some v ↔ Holds m' v pc).mpr
  exact ⟨by rw [hpc, hi], fun v _ => hi m' v⟩

theorem out_move {pc : Pc} (hi : ∀ w, s.out.count w = (s.pc w).printed)
    (hpc : pc.printed = (s.pc w).printed) :
    ∀ v, s.out.count v = (Function.update s.pc w pc v).printed := by
  apply (Function.forall_update_iff s.pc fun v pc => s.out.count v = pc.printed).mpr
  exact ⟨by rw [hpc, hi], fun v _ => hi v⟩

theorem work_inv (hi : Inv s) (h : work w s = some s') : Inv s' := by
  have hne := first_ne_second w
  unfold work at h
  cases hpc : s.pc w with
  | lockFirst =>
      simp only [hpc] at h
      split at h
      · rename_i hfree
        cases h
        refine ⟨owner_update hi.owner ?_ ?_, out_move hi.out (by rw [hpc]; rfl)⟩
        · exact fun v hv => by simp [hfree, Ne.symm hv]
        · simp [Holds, hpc, Pc.hasFirst, Pc.hasSecond]
      · cases h
  | sleep =>
      simp only [hpc] at h
      cases h
      refine ⟨owner_move hi.owner ?_, out_move hi.out (by rw [hpc]; rfl)⟩
      simp [Holds, hpc, Pc.hasFirst, Pc.hasSecond]
  | lockSecond =>
      simp only [hpc] at h
      split at h
      · rename_i hfree
        cases h
        refine ⟨owner_update hi.owner ?_ ?_, out_move hi.out (by rw [hpc]; rfl)⟩
        · exact fun v hv => by simp [hfree, Ne.symm hv]
        · intro m
          simp only [Holds, hpc, Pc.hasFirst, Pc.hasSecond]
          by_cases hm : m = w.second
          · simp [hm]
          · simp [hm]
      · cases h
  | print =>
      simp only [hpc] at h
      cases h
      refine ⟨owner_move hi.owner ?_, fun v => ?_⟩
      · simp [Holds, hpc, Pc.hasFirst, Pc.hasSecond]
      · have hout := hi.out v
        by_cases hv : v = w
        · subst hv
          rw [hpc] at hout
          simp [Pc.printed, hout]
        · simp [Function.update_of_ne hv, hout, Ne.symm hv]
  | unlockSecond =>
      simp only [hpc] at h
      cases h
      have hown : s.owner w.second = some w := by
        rw [hi.owner, hpc]
        exact .inr ⟨rfl, rfl⟩
      refine ⟨owner_update hi.owner ?_ ?_, out_move hi.out (by rw [hpc]; rfl)⟩
      · exact fun v hv => by simp [hown, Ne.symm hv]
      · intro m
        simp only [Holds, hpc, Pc.hasFirst, Pc.hasSecond]
        by_cases hm : m = w.second
        · simp [hm, hne.symm]
        · simp [hm]
  | unlockFirst =>
      simp only [hpc] at h
      cases h
      have hown : s.owner w.first = some w := by
        rw [hi.owner, hpc]
        exact .inl ⟨rfl, rfl⟩
      refine ⟨owner_update hi.owner ?_ ?_, out_move hi.out (by rw [hpc]; rfl)⟩
      · exact fun v hv => by simp [hown, Ne.symm hv]
      · simp [Holds, hpc, Pc.hasFirst, Pc.hasSecond]
  | done =>
      simp only [hpc] at h
      cases h

theorem step_inv (hi : Inv s) (h : Step s s') : Inv s' := by
  rcases h with h | h
  · exact work_inv hi h
  · exact work_inv hi h

theorem reachable_inv (h : threads.Reachable s) : Inv s := by
  apply System.invariant (I := Inv) _ _ h
  · rintro _ rfl
    exact ⟨fun m w => by simp [Holds, Pc.hasFirst, Pc.hasSecond], fun w => rfl⟩
  · intro _ _ _ hi hst
    exact step_inv hi hst

/-! ## §3  The two ways a run can end -/

/-- Statements a thread has left. -/
def Pc.left : Pc → ℕ
  | .lockFirst => 6
  | .sleep => 5
  | .lockSecond => 4
  | .print => 3
  | .unlockSecond => 2
  | .unlockFirst => 1
  | .done => 0

def left (s : State) : ℕ := (s.pc .A).left + (s.pc .B).left

/-- A statement brings its thread further and leaves the other where it is. -/
theorem work_left (h : work w s = some s') :
    (s'.pc w).left < (s.pc w).left ∧ ∀ v, v ≠ w → s'.pc v = s.pc v := by
  have hmoved : ∀ {pc pc' owner out}, Pc.left pc' < Pc.left pc →
      s' = ⟨Function.update s.pc w pc', owner, out⟩ →
      (s'.pc w).left < pc.left ∧ ∀ v, v ≠ w → s'.pc v = s.pc v := by
    rintro pc pc' owner out hlt rfl
    exact ⟨by simpa using hlt, fun v hv => Function.update_of_ne hv ..⟩
  unfold work at h
  cases hpc : s.pc w with
  | lockFirst | lockSecond =>
      simp only [hpc] at h
      split at h
      · exact hmoved (by decide) (Option.some.inj h).symm
      · cases h
  | sleep | print | unlockSecond | unlockFirst =>
      simp only [hpc] at h
      exact hmoved (by decide) (Option.some.inj h).symm
  | done =>
      simp only [hpc] at h
      cases h

theorem left_decreases (h : Step s s') : left s' < left s := by
  unfold left
  rcases h with h | h
  · obtain ⟨hA, hB⟩ := work_left h
    rw [hB .B (by simp)]
    omega
  · obtain ⟨hB, hA⟩ := work_left h
    rw [hA .A (by simp)]
    omega

theorem stuck_iff_work : (∀ s', ¬ Step s s') ↔ ∀ w, work w s = none := by
  constructor
  · intro h w
    rw [Option.eq_none_iff_forall_ne_some]
    intro s' hs'
    cases w with
    | A => exact h s' (.inl hs')
    | B => exact h s' (.inr hs')
  · rintro h s' (hs' | hs')
    · exact absurd (hs'.symm.trans (h .A)) (by simp)
    · exact absurd (hs'.symm.trans (h .B)) (by simp)

/-- Where a thread cannot go on. -/
theorem work_eq_none_iff : work w s = none ↔
    s.pc w = .done ∨ s.pc w = .lockFirst ∧ s.owner w.first ≠ none ∨
      s.pc w = .lockSecond ∧ s.owner w.second ≠ none := by
  unfold work
  cases hpc : s.pc w <;> simp

theorem exists_other (w : Worker) :
    ∃ v, v.first = w.second ∧ v.second = w.first ∧ ∀ u, u = v ∨ u = w := by
  cases w with
  | A => exact ⟨.B, rfl, rfl, fun u => by cases u <;> simp⟩
  | B => exact ⟨.A, rfl, rfl, fun u => by cases u <;> simp⟩

/-- Where neither can go on, a thread that has not returned waits for its second
mutex, and so does the other one. -/
theorem lockSecond_of_stuck (hi : Inv s) (h : ∀ w, work w s = none) (hw : s.pc w ≠ .done) :
    ∀ u, s.pc u = .lockSecond := by
  obtain ⟨v, hfirst, hsecond, hall⟩ := exists_other w
  have hv := work_eq_none_iff.mp (h v)
  rcases work_eq_none_iff.mp (h w) with hpc | ⟨hpc, howner⟩ | ⟨hpc, howner⟩
  · exact absurd hpc hw
  · -- the other one has taken both mutexes, so it can go on
    obtain ⟨u, hu⟩ := Option.ne_none_iff_exists'.mp howner
    have hholds := (hi.owner _ _).mp hu
    rcases hall u with rfl | rfl
    · rw [← hsecond] at hholds
      rcases hholds with ⟨heq, -⟩ | ⟨-, hsec⟩
      · exact absurd heq.symm (first_ne_second u)
      · rcases hv with hv | ⟨hv, -⟩ | ⟨hv, -⟩ <;> simp [hv, Pc.hasSecond] at hsec
    · simp [Holds, hpc, Pc.hasFirst, Pc.hasSecond] at hholds
  · obtain ⟨u, hu⟩ := Option.ne_none_iff_exists'.mp howner
    have hholds := (hi.owner _ _).mp hu
    have hother : s.pc v = .lockSecond := by
      rcases hall u with rfl | rfl
      · rw [← hfirst] at hholds
        rcases hv with hv | ⟨hv, -⟩ | ⟨hv, -⟩
        · simp [Holds, hv, Pc.hasFirst, Pc.hasSecond] at hholds
        · simp [Holds, hv, Pc.hasFirst, Pc.hasSecond] at hholds
        · exact hv
      · simp [Holds, hpc, Pc.hasSecond, Ne.symm (first_ne_second u)] at hholds
    intro u
    rcases hall u with rfl | rfl
    · exact hother
    · exact hpc

/-- **How a run ends.** After at most 12 statements no thread can go on. Then either
both have returned, each with its line printed once, or both wait for the mutex the
other one has, and no line was printed. -/
theorem work_deadlocks_iff {n : ℕ} (h : threads.Run n s) :
    n ≤ 12 ∧ ((∀ s', ¬ Step s s') ↔
      (∀ w, s.pc w = .done ∧ s.out.count w = 1) ∨
      (∀ w, s.pc w = .lockSecond ∧ s.out.count w = 0)) := by
  have hi := reachable_inv h.reachable
  have hbound := System.Run.bounded (μ := left) (b := 12) (fun _ h0 => by rw [h0]; rfl)
    (fun _ _ _ hst => left_decreases hst) h
  refine ⟨by omega, ?_⟩
  rw [stuck_iff_work]
  constructor
  · intro hstuck
    by_cases hdone : ∀ w, s.pc w = .done
    · exact .inl fun w => ⟨hdone w, by rw [hi.out, hdone w]; rfl⟩
    · obtain ⟨w, hw⟩ := not_forall.mp hdone
      have hpc := lockSecond_of_stuck hi hstuck hw
      exact .inr fun u => ⟨hpc u, by rw [hi.out, hpc u]; rfl⟩
  · rintro (hdone | hwait) w
    · exact work_eq_none_iff.mpr (.inl (hdone w).1)
    · obtain ⟨v, hfirst, -⟩ := exists_other w
      have howner : s.owner w.second = some v := by
        rw [hi.owner, (hwait v).1]
        exact .inl ⟨hfirst.symm, rfl⟩
      exact work_eq_none_iff.mpr (.inr (.inr ⟨(hwait w).1, by simp [howner]⟩))

/-- Each takes its first mutex before the other takes its second. -/
theorem work_deadlocks_after_four : ∃ s : State, threads.Run 4 s ∧ s.out = [] ∧
    ∀ s', ¬ Step s s' := by
  have h₀ : threads.Run 0 ⟨fun _ => .lockFirst, fun _ => none, []⟩ := .init rfl
  have h₁ := h₀.step (.inl rfl)
  have h₂ := h₁.step (.inl rfl)
  have h₃ := h₂.step (.inr rfl)
  have h₄ := h₃.step (.inr rfl)
  refine ⟨_, h₄, rfl, (work_deadlocks_iff h₄).2.mpr (.inr fun w => ?_)⟩
  cases w with
  | A => exact ⟨rfl, rfl⟩
  | B => exact ⟨rfl, rfl⟩

end LinuxServer.Deadlock
