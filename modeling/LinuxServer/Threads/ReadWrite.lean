import LinuxServer.Framework.Reachability
import LinuxServer.Framework.Threads

/-!
# Writers and readers under a read-write lock

Threads that count `num` up (`writeNum`) and threads that read it (`readNum`), with
`rwlock` around both. One step is one statement; `num++` is a load and a store, and
the argument of `printf` is a load.

- §1 the threads
- §2 who is inside the lock
- §3 what the terminal shows
-/

namespace LinuxServer.ReadWrite

open LinuxServer.Framework

/-! ## §1  The threads -/

inductive Role where
  | writer
  | reader
deriving DecidableEq

inductive Pc where
  | lock
  /-- `num++`, the read. -/
  | load
  /-- `num++`, the write. -/
  | store
  /-- The argument of `printf`. -/
  | fetch
  | print
  | unlock
  | usleep
deriving DecidableEq

structure Local where
  role : Role
  pc : Pc
  reg : BitVec 32

/-- The line a thread prints. -/
structure Line (τ : Type) where
  tid : τ
  role : Role
  num : BitVec 32
deriving DecidableEq

/-- `num` wraps where an `int` overflows. -/
structure Shared (τ : Type) where
  /-- `rwlock`: the writer inside, and the number of readers inside. -/
  writer : Option τ
  readers : ℕ
  num : BitVec 32
  out : List (Line τ)

variable {τ : Type}

/-- One statement of `writeNum`; `none` where it blocks. -/
def writeNum (me : τ) (sh : Shared τ) (l : Local) : Option (Shared τ × Local) :=
  match l.pc with
  | .lock =>
      if sh.writer = none ∧ sh.readers = 0 then
        some ({ sh with writer := some me }, { l with pc := .load })
      else none
  | .load => some (sh, { l with pc := .store, reg := sh.num })
  | .store => some ({ sh with num := l.reg + 1 }, { l with pc := .fetch })
  | .fetch => some (sh, { l with pc := .print, reg := sh.num })
  | .print => some ({ sh with out := sh.out ++ [⟨me, .writer, l.reg⟩] }, { l with pc := .unlock })
  | .unlock => some ({ sh with writer := none }, { l with pc := .usleep })
  | .usleep => some (sh, { l with pc := .lock })

/-- One statement of `readNum`. -/
def readNum (me : τ) (sh : Shared τ) (l : Local) : Option (Shared τ × Local) :=
  match l.pc with
  | .lock =>
      if sh.writer = none then
        some ({ sh with readers := sh.readers + 1 }, { l with pc := .fetch })
      else none
  | .load | .store => none
  | .fetch => some (sh, { l with pc := .print, reg := sh.num })
  | .print => some ({ sh with out := sh.out ++ [⟨me, .reader, l.reg⟩] }, { l with pc := .unlock })
  | .unlock => some ({ sh with readers := sh.readers - 1 }, { l with pc := .usleep })
  | .usleep => some (sh, { l with pc := .lock })

structure State (τ : Type) where
  threads : τ → Local
  sh : Shared τ

variable [DecidableEq τ]

inductive Step : State τ → State τ → Prop where
  | write {s : State τ} (t : τ) (hrole : (s.threads t).role = .writer) (sh : Shared τ)
      (l : Local) (h : writeNum t s.sh (s.threads t) = some (sh, l)) :
      Step s ⟨Function.update s.threads t l, sh⟩
  | read {s : State τ} (t : τ) (hrole : (s.threads t).role = .reader) (sh : Shared τ)
      (l : Local) (h : readNum t s.sh (s.threads t) = some (sh, l)) :
      Step s ⟨Function.update s.threads t l, sh⟩

/-- `int num = 1;`, and no thread has run yet. -/
def Start (s : State τ) : Prop := s.sh = ⟨none, 0, 1, []⟩ ∧ ∀ t, (s.threads t).pc = .lock

def program : System (State τ) where
  init := Start
  step := Step

/-! ## §2  Who is inside the lock -/

/-- Between the lock and the unlock. -/
def Pc.inside : Pc → Bool
  | .lock | .usleep => false
  | .load | .store | .fetch | .print | .unlock => true

def Local.Writing (l : Local) : Prop := l.role = .writer ∧ l.pc.inside = true

/-- One for a reader inside the lock. -/
def Local.reading (l : Local) : ℕ := if l.role = .reader ∧ l.pc.inside = true then 1 else 0

/-- One for a writer that has counted and not printed yet. -/
def Local.ahead (l : Local) : ℕ := if l.pc = .fetch ∨ l.pc = .print then 1 else 0

def writes (out : List (Line τ)) : ℕ := out.countP fun line => line.role = .writer

/-- Every line shows one more than the number of writers' lines up to it. -/
def Consistent (out : List (Line τ)) : Prop :=
  ∀ before line after, out = before ++ line :: after →
    line.num = BitVec.ofNat 32 (1 + writes (before ++ [line]))

omit [DecidableEq τ] in
theorem writes_concat (out : List (Line τ)) (line : Line τ) :
    writes (out ++ [line]) = writes out + if line.role = .writer then 1 else 0 := by
  rw [writes, List.countP_append, List.countP_singleton]
  simp [writes]

omit [DecidableEq τ] in
theorem Consistent.concat {out : List (Line τ)} {line : Line τ} (h : Consistent out)
    (hline : line.num = BitVec.ofNat 32 (1 + writes (out ++ [line]))) :
    Consistent (out ++ [line]) := by
  intro before line' after heq
  rcases List.eq_nil_or_concat after with rfl | ⟨after, last, rfl⟩
  · obtain ⟨rfl, hlast⟩ := List.append_inj' heq rfl
    cases hlast
    exact hline
  · have heq' : out ++ [line] = (before ++ line' :: after) ++ [last] := by
      rw [heq]
      simp
    exact h before line' after (List.append_inj' heq' rfl).1

/-- The writer inside that has counted and not printed yet. -/
def State.ahead (s : State τ) : ℕ := (s.sh.writer.map fun t => (s.threads t).ahead).getD 0

variable [Fintype τ]

structure Inv (s : State τ) : Prop where
  writer : Exclusive Local.Writing s.threads s.sh.writer
  readers : ∑ t, (s.threads t).reading = s.sh.readers
  apart : s.sh.writer = none ∨ s.sh.readers = 0
  body : ∀ t, (s.threads t).role = .reader → (s.threads t).pc ≠ .load ∧ (s.threads t).pc ≠ .store
  num : s.sh.num = BitVec.ofNat 32 (1 + writes s.sh.out + s.ahead)
  reg : ∀ t, (s.threads t).pc = .store ∨ (s.threads t).pc = .print →
    (s.threads t).reg = s.sh.num
  log : Consistent s.sh.out

variable {s s' : State τ} {t : τ}

omit [DecidableEq τ] in
theorem start_inv (h : Start s) : Inv s := by
  obtain ⟨hsh, hpc⟩ := h
  refine ⟨fun t => ?_, ?_, ?_, fun t _ => ?_, ?_, fun t ht => ?_, ?_⟩
  · rw [Local.Writing, hpc t, hsh]
    simp [Pc.inside]
  · simp [Local.reading, hpc, Pc.inside, hsh]
  · rw [hsh]
    exact .inl rfl
  · simp [hpc t]
  · rw [State.ahead, hsh]
    rfl
  · simp [hpc t] at ht
  · rw [hsh]
    intro before line after heq
    simp at heq

omit [DecidableEq τ] in
/-- With a reader inside there is no writer inside. -/
theorem Inv.no_writer (hi : Inv s) (hrole : (s.threads t).role = .reader)
    (hin : (s.threads t).pc.inside = true) : s.sh.writer = none ∧ 0 < s.sh.readers := by
  have hle := le_sum (fun _ l => Local.reading l) s.threads t
  rw [hi.readers, Local.reading, if_pos ⟨hrole, hin⟩] at hle
  rcases hi.apart with h | h
  · exact ⟨h, hle⟩
  · omega

omit [DecidableEq τ] in
/-- A writer inside is alone. -/
theorem Inv.alone (hi : Inv s) (h : s.sh.writer = some t) {u : τ} (hu : u ≠ t) :
    (s.threads u).pc.inside = false := by
  rw [← Bool.not_eq_true]
  intro hin
  cases hrole : (s.threads u).role with
  | writer =>
      have := (hi.writer u).mp ⟨hrole, hin⟩
      rw [h] at this
      exact hu (Option.some.inj this).symm
  | reader =>
      have := (hi.no_writer hrole hin).1
      rw [h] at this
      cases this

/-- What has to be looked at when the thread `t` moves. -/
theorem Inv.update {l : Local} {sh : Shared τ} (hi : Inv s)
    (hwriter : Exclusive Local.Writing (Function.update s.threads t l) sh.writer)
    (hreaders : sh.readers + (s.threads t).reading = s.sh.readers + l.reading)
    (hapart : sh.writer = none ∨ sh.readers = 0)
    (hbody : l.role = .reader → l.pc ≠ .load ∧ l.pc ≠ .store)
    (hnum : sh.num = BitVec.ofNat 32 (1 + writes sh.out +
      State.ahead ⟨Function.update s.threads t l, sh⟩))
    (hreg : l.pc = .store ∨ l.pc = .print → l.reg = sh.num)
    (hothers : sh.num = s.sh.num ∨ ∀ u, u ≠ t → (s.threads u).pc.inside = false)
    (hlog : Consistent sh.out) : Inv ⟨Function.update s.threads t l, sh⟩ := by
  refine ⟨hwriter, ?_, hapart, ?_, hnum, ?_, hlog⟩
  · have hsum := sum_update (fun _ l => Local.reading l) s.threads t l
    rw [hi.readers] at hsum
    show ∑ u, (Function.update s.threads t l u).reading = sh.readers
    omega
  · apply (Function.forall_update_iff s.threads fun _ l =>
      l.role = .reader → l.pc ≠ .load ∧ l.pc ≠ .store).mpr
    exact ⟨hbody, fun u _ => hi.body u⟩
  · apply (Function.forall_update_iff s.threads fun _ l =>
      l.pc = .store ∨ l.pc = .print → l.reg = sh.num).mpr
    refine ⟨hreg, fun u hut hu => ?_⟩
    rcases hothers with h | h
    · rw [h]
      exact hi.reg u hu
    · have hin := h u hut
      rcases hu with hpc | hpc <;> simp [hpc, Pc.inside] at hin

section Statement

variable {l : Local} {sh : Shared τ}

omit [Fintype τ] in
theorem ahead_self (h : sh.writer = some t) :
    State.ahead ⟨Function.update s.threads t l, sh⟩ = l.ahead := by
  simp [State.ahead, h]

omit [Fintype τ] in
theorem ahead_other (h : sh.writer ≠ some t) :
    State.ahead ⟨Function.update s.threads t l, sh⟩ = State.ahead ⟨s.threads, sh⟩ := by
  unfold State.ahead
  cases hw : sh.writer with
  | none => rfl
  | some u =>
      have hu : u ≠ t := by
        rintro rfl
        exact h hw
      simp [Function.update_of_ne hu]

/-- A statement of the writer inside. -/
theorem Inv.inside (hi : Inv s) (hw : s.sh.writer = some t) (hrole : l.role = .writer)
    (hin : l.pc.inside = true) (hwriter : sh.writer = some t)
    (hreaders : sh.readers = s.sh.readers)
    (hnum : sh.num = BitVec.ofNat 32 (1 + writes sh.out + l.ahead))
    (hreg : l.pc = .store ∨ l.pc = .print → l.reg = sh.num) (hlog : Consistent sh.out) :
    Inv ⟨Function.update s.threads t l, sh⟩ := by
  have hwriting := (hi.writer t).mpr hw
  have hexclusive := hi.writer
  rw [hw] at hexclusive
  refine hi.update ?_ ?_ ?_ ?_ ?_ hreg (.inr fun u hu => hi.alone hw hu) hlog
  · rw [hwriter]
    exact hexclusive.move (iff_of_true ⟨hrole, hin⟩ hwriting)
  · simp [Local.reading, hrole, hwriting.1, hreaders]
  · rw [hreaders]
    exact .inr (hi.apart.resolve_left (by simp [hw]))
  · simp [hrole]
  · rw [hnum, ahead_self hwriter]

theorem writeNum_inv (hi : Inv s) (hrole : (s.threads t).role = .writer)
    (h : writeNum t s.sh (s.threads t) = some (sh, l)) :
    Inv ⟨Function.update s.threads t l, sh⟩ := by
  have hw : (s.threads t).pc.inside = true → s.sh.writer = some t :=
    fun hin => (hi.writer t).mp ⟨hrole, hin⟩
  have hnum : s.sh.writer = some t →
      s.sh.num = BitVec.ofNat 32 (1 + writes s.sh.out + (s.threads t).ahead) := by
    intro hwt
    rw [hi.num, State.ahead, hwt]
    rfl
  unfold writeNum at h
  cases hpc : (s.threads t).pc with
  | lock =>
      simp only [hpc] at h
      split at h
      · rename_i hfree
        cases h
        have hexclusive := hi.writer
        rw [hfree.1] at hexclusive
        refine hi.update (hexclusive.lock ⟨hrole, rfl⟩) ?_ (.inr hfree.2) ?_ ?_ ?_ (.inl rfl) hi.log
        · simp [Local.reading, hrole]
        · simp [hrole]
        · rw [ahead_self rfl, hi.num, State.ahead, hfree.1]
          rfl
        · simp
      · cases h
  | load =>
      simp only [hpc] at h
      cases h
      have hwt := hw (by rw [hpc]; rfl)
      refine hi.inside hwt hrole rfl hwt rfl ?_ (fun _ => rfl) hi.log
      rw [hnum hwt, Local.ahead, hpc]
      rfl
  | store =>
      simp only [hpc] at h
      cases h
      have hwt := hw (by rw [hpc]; rfl)
      refine hi.inside hwt hrole rfl hwt rfl ?_ (by simp) hi.log
      have hzero : (s.threads t).ahead = 0 := by simp [Local.ahead, hpc]
      show (s.threads t).reg + 1 = BitVec.ofNat 32 (1 + writes s.sh.out + 1)
      rw [hi.reg t (.inl hpc), hnum hwt, hzero, BitVec.ofNat_add _ 1]
      rfl
  | fetch =>
      simp only [hpc] at h
      cases h
      have hwt := hw (by rw [hpc]; rfl)
      refine hi.inside hwt hrole rfl hwt rfl ?_ (fun _ => rfl) hi.log
      rw [hnum hwt, Local.ahead, hpc]
      rfl
  | print =>
      simp only [hpc] at h
      cases h
      have hwt := hw (by rw [hpc]; rfl)
      have hone : (s.threads t).ahead = 1 := by simp [Local.ahead, hpc]
      have hwrites : writes (s.sh.out ++ [⟨t, .writer, (s.threads t).reg⟩]) =
          writes s.sh.out + 1 := writes_concat ..
      have hline := hnum hwt
      rw [hone, Nat.add_assoc, ← hwrites] at hline
      refine hi.inside hwt hrole rfl hwt rfl hline (by simp) (hi.log.concat ?_)
      exact (hi.reg t (.inr hpc)).trans hline
  | unlock =>
      simp only [hpc] at h
      cases h
      have hwt := hw (by rw [hpc]; rfl)
      have hexclusive := hi.writer
      rw [hwt] at hexclusive
      refine hi.update (hexclusive.unlock (by simp [Local.Writing, Pc.inside])) ?_ (.inl rfl) ?_ ?_
        (by simp) (.inl rfl) hi.log
      · simp [Local.reading, hrole]
      · simp [hrole]
      · show s.sh.num = _
        rw [hnum hwt, Local.ahead, hpc]
        rfl
  | usleep =>
      simp only [hpc] at h
      cases h
      have hout : ¬ (s.threads t).Writing := by simp [Local.Writing, hpc, Pc.inside]
      refine hi.update (hi.writer.move (iff_of_false (by simp [Local.Writing, Pc.inside]) hout)) ?_
        hi.apart ?_ ?_ (by simp) (.inl rfl) hi.log
      · simp [Local.reading, hrole]
      · simp [hrole]
      · rw [ahead_other fun hwt => hout ((hi.writer t).mpr hwt)]
        exact hi.num

/-- A statement of a reader. -/
theorem Inv.reader (hi : Inv s) (hrole : (s.threads t).role = .reader) (hl : l.role = .reader)
    (hwriter : sh.writer = s.sh.writer) (hnum : sh.num = s.sh.num)
    (hwrites : writes sh.out = writes s.sh.out)
    (hreaders : sh.readers + (s.threads t).reading = s.sh.readers + l.reading)
    (hapart : sh.writer = none ∨ sh.readers = 0) (hbody : l.pc ≠ .load ∧ l.pc ≠ .store)
    (hreg : l.pc = .print → l.reg = sh.num) (hlog : Consistent sh.out) :
    Inv ⟨Function.update s.threads t l, sh⟩ := by
  have hout : ¬ (s.threads t).Writing := by simp [Local.Writing, hrole]
  refine hi.update ?_ hreaders hapart (fun _ => hbody) ?_
    (fun h => hreg (h.resolve_left hbody.2)) (.inl hnum) hlog
  · rw [hwriter]
    exact hi.writer.move (iff_of_false (by simp [Local.Writing, hl]) hout)
  · rw [ahead_other (hwriter ▸ fun hwt => hout ((hi.writer t).mpr hwt)), hnum, hwrites, hi.num,
      State.ahead, State.ahead, hwriter]

theorem readNum_inv (hi : Inv s) (hrole : (s.threads t).role = .reader)
    (h : readNum t s.sh (s.threads t) = some (sh, l)) :
    Inv ⟨Function.update s.threads t l, sh⟩ := by
  unfold readNum at h
  cases hpc : (s.threads t).pc with
  | lock =>
      simp only [hpc] at h
      split at h
      · rename_i hfree
        cases h
        refine hi.reader hrole hrole rfl rfl rfl ?_ (.inl hfree) (by simp) (by simp) hi.log
        simp [Local.reading, hpc, hrole, Pc.inside]
      · cases h
  | load | store =>
      simp only [hpc] at h
      cases h
  | fetch =>
      simp only [hpc] at h
      cases h
      refine hi.reader hrole hrole rfl rfl rfl ?_ hi.apart (by simp) (fun _ => rfl) hi.log
      simp [Local.reading, hpc, hrole, Pc.inside]
  | print =>
      simp only [hpc] at h
      cases h
      have hnone := (hi.no_writer hrole (by rw [hpc]; rfl)).1
      have hwrites : writes (s.sh.out ++ [⟨t, .reader, (s.threads t).reg⟩]) =
          writes s.sh.out := writes_concat ..
      have hnum := hi.num
      rw [State.ahead, hnone] at hnum
      refine hi.reader hrole hrole rfl rfl hwrites ?_ hi.apart (by simp) (by simp)
        (hi.log.concat ?_)
      · simp [Local.reading, hpc, hrole, Pc.inside]
      · rw [hwrites]
        exact (hi.reg t (.inr hpc)).trans hnum
  | unlock =>
      simp only [hpc] at h
      cases h
      obtain ⟨hnone, hpos⟩ := hi.no_writer hrole (by rw [hpc]; rfl)
      refine hi.reader hrole hrole rfl rfl rfl ?_ (.inl hnone) (by simp) (by simp) hi.log
      simp only [Local.reading, hpc, hrole, Pc.inside]
      simp
      omega
  | usleep =>
      simp only [hpc] at h
      cases h
      refine hi.reader hrole hrole rfl rfl rfl ?_ hi.apart (by simp) (by simp) hi.log
      simp [Local.reading, hpc, hrole, Pc.inside]

end Statement

theorem step_inv (hi : Inv s) (h : Step s s') : Inv s' := by
  cases h with
  | write t hrole sh l h => exact writeNum_inv hi hrole h
  | read t hrole sh l h => exact readNum_inv hi hrole h

theorem reachable_inv (h : program.Reachable s) : Inv s := by
  apply System.invariant (I := Inv) _ _ h
  · intro _ h0
    exact start_inv h0
  · intro _ _ _ hi hst
    exact step_inv hi hst

/-! ## §3  What the terminal shows -/

/-- A thread can go on where it is inside, and where nobody is. -/
theorem Inv.can_step (hi : Inv s)
    (h : (s.threads t).pc.inside = true ∨ s.sh.writer = none ∧ s.sh.readers = 0) :
    ∃ s', Step s s' := by
  cases hrole : (s.threads t).role with
  | writer =>
      have hsome : (writeNum t s.sh (s.threads t)).isSome := by
        unfold writeNum
        cases hpc : (s.threads t).pc with
        | lock =>
            rw [hpc] at h
            simp only [Pc.inside, Bool.false_eq_true, false_or] at h
            rw [if_pos h]
            rfl
        | load | store | fetch | print | unlock | usleep => rfl
      obtain ⟨⟨sh, l⟩, hl⟩ := Option.isSome_iff_exists.mp hsome
      exact ⟨_, .write t hrole sh l hl⟩
  | reader =>
      have hbody := hi.body t hrole
      have hsome : (readNum t s.sh (s.threads t)).isSome := by
        unfold readNum
        cases hpc : (s.threads t).pc with
        | lock =>
            rw [hpc] at h
            simp only [Pc.inside, Bool.false_eq_true, false_or] at h
            rw [if_pos h.1]
            rfl
        | load => exact absurd hpc hbody.1
        | store => exact absurd hpc hbody.2
        | fetch | print | unlock | usleep => rfl
      obtain ⟨⟨sh, l⟩, hl⟩ := Option.isSome_iff_exists.mp hsome
      exact ⟨_, .read t hrole sh l hl⟩

omit [DecidableEq τ] in
theorem Inv.free (hi : Inv s) (h : ∀ t, (s.threads t).pc.inside = false) :
    s.sh.writer = none ∧ s.sh.readers = 0 := by
  constructor
  · rw [Option.eq_none_iff_forall_ne_some]
    intro t ht
    have hin := ((hi.writer t).mpr ht).2
    rw [h t] at hin
    cases hin
  · rw [← hi.readers]
    simp [Local.reading, h]

theorem Inv.goes_on (hi : Inv s) (t : τ) : ∃ s', Step s s' := by
  by_cases hin : ∃ u, (s.threads u).pc.inside = true
  · obtain ⟨u, hu⟩ := hin
    exact hi.can_step (.inl hu)
  · exact hi.can_step (t := t) (.inr (hi.free (by simpa using hin)))

omit [DecidableEq τ] in
/-- A writer inside keeps everybody else outside. -/
theorem Inv.reader_of_two (hi : Inv s) {u : τ} (hne : t ≠ u)
    (ht : (s.threads t).pc.inside = true) (hu : (s.threads u).pc.inside = true) :
    (s.threads t).role = .reader := by
  cases hrole : (s.threads t).role with
  | reader => rfl
  | writer =>
      have hout := hi.alone ((hi.writer t).mp ⟨hrole, ht⟩) hne.symm
      rw [hu] at hout
      cases hout

/-- **Every line shows one more than the number of writers' lines up to it**, for any
number of threads and every interleaving: no count is lost, and no reader sees one
before it is printed or after the next one is. Two threads that are inside at the
same time are readers, and some thread can always go on. -/
theorem rwlock_lines_consistent (h : program.Reachable s) :
    Consistent s.sh.out ∧
    (∀ t u, t ≠ u → (s.threads t).pc.inside = true → (s.threads u).pc.inside = true →
      (s.threads t).role = .reader ∧ (s.threads u).role = .reader) ∧
    ∀ _ : τ, ∃ s', Step s s' := by
  have hi := reachable_inv h
  refine ⟨hi.log, fun t u hne ht hu => ⟨?_, ?_⟩, fun t => hi.goes_on t⟩
  · exact hi.reader_of_two hne ht hu
  · exact hi.reader_of_two hne.symm hu ht

/-- One writer and one reader, after one round of each. -/
theorem rwlock_lines_two : ∃ s : State Bool, program.Reachable s ∧
    s.sh.out = [⟨true, .writer, 2⟩, ⟨false, .reader, 2⟩] ∧ Consistent s.sh.out := by
  have h₀ : program.Reachable (σ := State Bool)
      ⟨fun b => ⟨if b then .writer else .reader, .lock, 0⟩, ⟨none, 0, 1, []⟩⟩ :=
    .init ⟨rfl, fun _ => rfl⟩
  have h₁ := h₀.step (.write true rfl _ _ rfl)
  have h₂ := h₁.step (.write true rfl _ _ rfl)
  have h₃ := h₂.step (.write true rfl _ _ rfl)
  have h₄ := h₃.step (.write true rfl _ _ rfl)
  have h₅ := h₄.step (.write true rfl _ _ rfl)
  have h₆ := h₅.step (.write true rfl _ _ rfl)
  have h₇ := h₆.step (.read false rfl _ _ rfl)
  have h₈ := h₇.step (.read false rfl _ _ rfl)
  have h₉ := h₈.step (.read false rfl _ _ rfl)
  exact ⟨_, h₉, rfl, (rwlock_lines_consistent h₉).1⟩

end LinuxServer.ReadWrite
