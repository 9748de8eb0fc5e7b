import LinuxServer.Threads.NodesRun

/-!
# Producers and customers: one thread's turn

What a thread does from the start of its loop back to it when no other thread
comes in between: a producer puts in a node, a customer takes one out or goes to
sleep. Turns in a row are runs of the program.

- §1 statements in a row
- §2 a producer's and a customer's statements
- §3 turns
-/

namespace LinuxServer.Threads

open LinuxServer.Framework

variable {τ : Type} {v : Version} {r : Role}

/-! ## §1  Statements in a row -/

/-- The statements of one thread in a row, while it finds no fault. -/
inductive Runs (v : Version) (r : Role) (me : τ) :
    Shared τ × Local → Shared τ × Local → Prop where
  | refl (c : Shared τ × Local) : Runs v r me c c
  | head {c d : Shared τ × Local} (k : Answer) (sh : Shared τ) (l : Local)
      (hok : c.1.mem.fault = false) (h : stmt v r me k c.1 c.2 = some (sh, l))
      (hrest : Runs v r me (sh, l) d) : Runs v r me c d

theorem Runs.trans {t : τ} {c d e : Shared τ × Local} (h : Runs v r t c d)
    (h' : Runs v r t d e) : Runs v r t c e := by
  induction h with
  | refl => exact h'
  | head k sh l hok h _ ih => exact .head k sh l hok h (ih h')

theorem Runs.reachable [DecidableEq τ] {role : τ → Role} {t : τ} {c d : Shared τ × Local}
    (hruns : Runs v (role t) t c d) :
    ∀ {f : τ → Local}, (nodes v role).Reachable ⟨f, c.1⟩ → f t = c.2 →
      (nodes v role).Reachable ⟨Function.update f t d.2, d.1⟩ := by
  induction hruns with
  | refl c =>
      intro f h hf
      rw [← hf, Function.update_eq_self]
      exact h
  | head k sh l hok h hrest ih =>
      intro f hr hf
      rw [← hf] at h
      have hstep : (nodes v role).Reachable ⟨Function.update f t l, sh⟩ :=
        hr.step (.act t (.run hok k sh l h))
      have hend := ih hstep (Function.update_self ..)
      rwa [Function.update_idem] at hend

/-! ## §2  A producer's and a customer's statements -/

/-- The units of the semaphore a thread waits for. -/
def Shared.units (sh : Shared τ) : Role → ℕ
  | .producer => sh.psem
  | .customer => sh.csem

/-- After the `sem_wait` at the start of the loop, if the version has one. -/
def Shared.wait (v : Version) (r : Role) (sh : Shared τ) : Shared τ :=
  match v, r with
  | .sem, .producer => { sh with psem := sh.psem - 1 }
  | .sem, .customer => { sh with csem := sh.csem - 1 }
  | _, _ => sh

/-- After the `sem_post` at the end of the loop, if the version has one. -/
def Shared.post (v : Version) (r : Role) (sh : Shared τ) : Shared τ :=
  match v, r with
  | .sem, .producer => { sh with csem := sh.csem + 1 }
  | .sem, .customer => { sh with psem := sh.psem + 1 }
  | _, _ => sh

@[simp] theorem Shared.wait_mem (sh : Shared τ) : (sh.wait v r).mem = sh.mem := by
  cases v <;> cases r <;> rfl

@[simp] theorem Shared.wait_mutex (sh : Shared τ) : (sh.wait v r).mutex = sh.mutex := by
  cases v <;> cases r <;> rfl

@[simp] theorem Shared.post_mem (sh : Shared τ) : (sh.post v r).mem = sh.mem := by
  cases v <;> cases r <;> rfl

@[simp] theorem Shared.post_mutex (sh : Shared τ) : (sh.post v r).mutex = sh.mutex := by
  cases v <;> cases r <;> rfl

section Statements

variable {t : τ} {sh : Shared τ} {l : Local} {a n : ℕ} {next : Ptr}

theorem wait_runs (hpc : l.pc = v.loopStart) (hok : sh.mem.fault = false)
    (hunit : v = .sem → 0 < sh.units r) :
    Runs v r t (sh, l) (sh.wait v r, { l with pc := .lock }) := by
  rcases l with ⟨pc, newNode, tmp⟩
  cases hpc
  cases v with
  | polling | cond => cases r <;> exact .refl _
  | sem =>
      have hpos := hunit rfl
      cases r with
      | producer =>
          apply Runs.head ⟨none, 0⟩ _ _ hok _ (.refl _)
          exact if_pos hpos
      | customer =>
          apply Runs.head ⟨none, 0⟩ _ _ hok _ (.refl _)
          exact if_pos hpos

theorem lock_runs (hpc : l.pc = .lock) (hok : sh.mem.fault = false) (hm : sh.mutex = none) :
    Runs v r t (sh, l) ({ sh with mutex := some t }, { l with pc := r.afterLock }) := by
  apply Runs.head ⟨none, 0⟩ _ _ hok _ (.refl _)
  simp only [stmt, hpc, hm]

/-- From the start of the loop into the critical section. -/
theorem enter_runs (hpc : l.pc = v.loopStart) (hok : sh.mem.fault = false)
    (hm : sh.mutex = none) (hunit : v = .sem → 0 < sh.units r) :
    Runs v r t (sh, l) ({ sh.wait v r with mutex := some t }, { l with pc := r.afterLock }) := by
  apply (wait_runs hpc hok hunit).trans
  apply lock_runs rfl
  · rw [Shared.wait_mem, hok]
  · rw [Shared.wait_mutex, hm]

/-- A producer allocates a node and points it to the list. -/
theorem alloc_runs (hpc : l.pc = .malloc) (hok : sh.mem.fault = false)
    (hfree : sh.mem.heap a = none) :
    Runs v .producer t (sh, l)
      ({ sh with mem := { sh.mem with
          heap := (sh.mem.heap.put a ⟨0, none⟩).put a ⟨0, sh.mem.head⟩ } },
        { l with pc := .setHead, newNode := some a }) := by
  apply Runs.head ⟨some (a, ⟨0, none⟩), 0⟩
    { sh with mem := { sh.mem with heap := sh.mem.heap.put a ⟨0, none⟩ } }
    { l with pc := .setNext, newNode := some a } hok
  · simp only [stmt, Memory.stmt, hpc, hfree]
    rfl
  apply Runs.head ⟨none, 0⟩ _ _ hok _ (.refl _)
  simp only [stmt, Memory.stmt, deref_some (m := { sh.mem with
    heap := sh.mem.heap.put a ⟨0, none⟩ }) (Heap.put_same ..)]
  rfl

/-- It puts the node in, gives it a number and prints it. -/
theorem add_runs (num : ℕ) (hpc : l.pc = .setHead) (hnew : l.newNode = some a)
    (hok : sh.mem.fault = false) (ha : sh.mem.heap a = some ⟨n, next⟩) :
    Runs v .producer t (sh, l)
      ({ sh with mem := { sh.mem with
          head := some a, heap := sh.mem.heap.put a ⟨num % 1000, next⟩,
          out := sh.mem.out ++ [.add (num % 1000) t] } },
        { l with pc := v.afterAdd }) := by
  apply Runs.head ⟨none, 0⟩ { sh with mem := { sh.mem with head := some a } }
    { l with pc := .setNum } hok
  · simp only [stmt, Memory.stmt, hpc, hnew]
    rfl
  apply Runs.head ⟨none, num⟩ { sh with mem := { sh.mem with
      head := some a, heap := sh.mem.heap.put a ⟨num % 1000, next⟩ } }
    { l with pc := .printAdd } hok
  · simp only [stmt, Memory.stmt, hnew, deref_some (m := { sh.mem with head := some a }) ha]
    rfl
  apply Runs.head ⟨none, 0⟩ _ _ hok _ (.refl _)
  simp only [stmt, Memory.stmt, hnew, deref_some (m := { sh.mem with
      head := some a, heap := sh.mem.heap.put a ⟨num % 1000, next⟩ }) (Heap.put_same ..)]
  rfl

/-- A customer in the critical section takes the first node out, prints its
number and frees it. -/
theorem take_runs (hpc : l.pc = .saveHead) (hok : sh.mem.fault = false)
    (hhead : sh.mem.head = some a) (ha : sh.mem.heap a = some ⟨n, next⟩) :
    Runs v .customer t (sh, l)
      ({ sh with mem := { sh.mem with
          head := next, heap := sh.mem.heap.free a, out := sh.mem.out ++ [.del n t] } },
        { l with pc := .unlock, tmp := some a }) := by
  have hadvance : Runs v .customer t (sh, l) (sh, { l with pc := .advance, tmp := some a }) := by
    apply Runs.head ⟨none, 0⟩ sh { l with pc := v.afterSave, tmp := some a } hok
    · simp only [stmt, Memory.stmt, hpc, hhead]
      rfl
    cases v with
    | sem => exact .refl _
    | polling | cond =>
        apply Runs.head ⟨none, 0⟩ _ _ hok _ (.refl _)
        simp only [stmt, Memory.stmt, Version.afterSave, hhead]
        rfl
  apply hadvance.trans
  apply Runs.head ⟨none, 0⟩ { sh with mem := { sh.mem with head := next } }
    { l with pc := .printDel, tmp := some a } hok
  · simp only [stmt, Memory.stmt, hhead, deref_some ha]
    rfl
  apply Runs.head ⟨none, 0⟩ { sh with mem := { sh.mem with
      head := next, out := sh.mem.out ++ [.del n t] } }
    { l with pc := .free, tmp := some a } hok
  · simp only [stmt, Memory.stmt, deref_some (m := { sh.mem with head := next }) ha]
    rfl
  apply Runs.head ⟨none, 0⟩ _ _ hok _ (.refl _)
  simp only [stmt, Memory.stmt, ha]
  rfl

/-- From the unlock back to the start of the loop. -/
theorem leave_runs (hpc : l.pc = .unlock) (hok : sh.mem.fault = false) :
    Runs v r t (sh, l)
      ({ sh with mutex := none }.post v r, { l with pc := v.loopStart }) := by
  apply Runs.head ⟨none, 0⟩ { sh with mutex := none } { l with pc := v.afterUnlock } hok
  · simp only [stmt, hpc]
  cases v with
  | polling | cond => cases r <;> exact .refl _
  | sem => cases r <;> exact .head ⟨none, 0⟩ _ _ hok rfl (.refl _)

/-- With the condition variable, a customer that finds the list empty goes to
sleep. -/
theorem sleep_runs (hpc : l.pc = .lock) (hok : sh.mem.fault = false) (hm : sh.mutex = none)
    (hhead : sh.mem.head = none) :
    Runs .cond .customer t (sh, l) (sh, { l with pc := .waiting, tmp := none }) := by
  apply (lock_runs hpc hok hm).trans
  apply Runs.head ⟨none, 0⟩ { sh with mutex := some t } { l with pc := .test, tmp := none } hok
  · simp only [stmt, Memory.stmt, Role.afterLock, hhead]
    rfl
  apply Runs.head ⟨none, 0⟩ { sh with mutex := some t }
    { l with pc := .condWait, tmp := none } hok
  · simp only [stmt, Memory.stmt, hhead]
    rfl
  apply Runs.head ⟨none, 0⟩ _ _ hok _ (.refl _)
  simp only [stmt, ← hm]

end Statements

/-! ## §3  Turns -/

section Turns

variable [DecidableEq τ] {role : τ → Role} {s : State τ} {t : τ}

/-- The mutex is free, no `malloc` failed, and the thread `t` is at the start of
its loop. -/
structure Idle (v : Version) (t : τ) (s : State τ) : Prop where
  free : s.sh.mutex = none
  ok : s.sh.mem.fault = false
  memory : s.sh.mem.oom = false
  pc : (s.threads t).pc = v.loopStart

omit [DecidableEq τ] in
theorem Idle.other {u : τ} (h : Idle v t s) (hpc : (s.threads u).pc = v.loopStart) :
    Idle v u s := ⟨h.free, h.ok, h.memory, hpc⟩

/-- The thread `t` takes its unit, whoever holds the mutex. -/
theorem waits (hr : (nodes v role).Reachable s) (hok : s.sh.mem.fault = false)
    (hpc : (s.threads t).pc = v.loopStart) (hunit : v = .sem → 0 < s.sh.units (role t)) :
    ∃ s', (nodes v role).Reachable s' ∧ (s'.threads t).pc = .lock ∧
      (∀ u, u ≠ t → s'.threads u = s.threads u) ∧ s'.sh = s.sh.wait v (role t) :=
  ⟨_, (wait_runs hpc hok hunit).reachable hr rfl, by simp, fun _ hu => Function.update_of_ne hu _ _,
    rfl⟩

/-- The thread `t` takes the free mutex. -/
theorem enters (hr : (nodes v role).Reachable s) (h : Idle v t s)
    (hunit : v = .sem → 0 < s.sh.units (role t)) :
    ∃ s', (nodes v role).Reachable s' ∧ (∀ u, u ≠ t → s'.threads u = s.threads u) ∧
      s'.sh = { s.sh.wait v (role t) with mutex := some t } :=
  ⟨_, (enter_runs h.pc h.ok h.free hunit).reachable hr rfl,
    fun _ hu => Function.update_of_ne hu _ _, rfl⟩

/-- The customer `t` finds the list empty and goes to sleep. -/
theorem sleeps (hrole : role t = .customer) (hr : (nodes .cond role).Reachable s)
    (h : Idle .cond t s) (hhead : s.sh.mem.head = none) :
    ∃ s', (nodes .cond role).Reachable s' ∧ (s'.threads t).pc = .waiting ∧
      (∀ u, u ≠ t → s'.threads u = s.threads u) ∧ s'.sh = s.sh := by
  have hruns := sleep_runs (t := t) h.pc h.ok h.free hhead
  rw [← hrole] at hruns
  exact ⟨_, hruns.reachable hr rfl, by simp, fun _ hu => Function.update_of_ne hu _ _, rfl⟩

/-- From a producer's `printf` to its unlock, with a signal in the version
`cond` that wakes every thread that waits. -/
theorem reaches_unlock {f : τ → Local} {sh : Shared τ} (hr : (nodes v role).Reachable ⟨f, sh⟩)
    (hok : sh.mem.fault = false) (hpc : (f t).pc = v.afterAdd) :
    ∃ g : τ → Local, (nodes v role).Reachable ⟨g, sh⟩ ∧ (g t).pc = .unlock ∧
      (∀ u, u ≠ t → (f u).pc ≠ .waiting → g u = f u) ∧
      (v = .cond → ∀ u, u ≠ t → (f u).pc = .waiting → (g u).pc = .relock) := by
  cases v with
  | polling | sem => exact ⟨f, hr, hpc, fun _ _ _ => rfl, fun hv => by cases hv⟩
  | cond =>
      let woken : τ → Bool := fun u => (f u).pc = .waiting
      refine ⟨signalled f t woken, hr.step (.act t (.signal hok hpc woken ?_ ?_)), ?_,
        fun u hu hw => ?_, fun _ u hu hw => ?_⟩
      · exact fun u hu => of_decide_eq_true hu
      · exact fun u hu => ⟨u, decide_eq_true hu⟩
      · simp [signalled]
      · simp [signalled, Function.update_of_ne hu, wake, woken, hw]
      · simp [signalled, Function.update_of_ne hu, wake, woken, hw]

/-- What a turn of the thread `t` leaves of the semaphores and of the other
threads. -/
structure Turn (v : Version) (r : Role) (t : τ) (s s' : State τ) : Prop where
  idle : Idle v t s'
  sems : v = .sem → s'.sh.psem = ((s.sh.wait v r).post v r).psem ∧
    s'.sh.csem = ((s.sh.wait v r).post v r).csem
  others : ∀ u, u ≠ t → (s.threads u).pc ≠ .waiting → s'.threads u = s.threads u

omit [DecidableEq τ] in
/-- Where all threads are at the start of their loops, they are so after a turn
of one of them. -/
theorem Turn.idle_all {s' : State τ} (hturn : Turn v r t s s') (h : ∀ u, Idle v u s) (u : τ) :
    Idle v u s' := by
  by_cases hut : u = t
  · rw [hut]
    exact hturn.idle
  · apply hturn.idle.other
    rw [hturn.others u hut, (h u).pc]
    rw [(h u).pc]
    cases v <;> simp [Version.loopStart]

variable [Fintype τ]

/-- **A producer's turn.** It needs nobody else to put in a node, but a unit of
its semaphore. -/
theorem produces (num : ℕ) (hrole : role t = .producer) (hr : (nodes v role).Reachable s)
    (h : Idle v t s) (hunit : v = .sem → 0 < s.sh.psem) :
    ∃ s', (nodes v role).Reachable s' ∧ Turn v .producer t s s' ∧
      s'.sh.mem.out = s.sh.mem.out ++ [.add (num % 1000) t] ∧
      (v = .cond → ∀ u, u ≠ t → (s.threads u).pc = .waiting →
        (s'.threads u).pc = .relock) := by
  obtain ⟨a, ha⟩ := heap_fresh hr
  have hruns : Runs v .producer t (s.sh, s.threads t) _ :=
    (enter_runs (r := .producer) h.pc h.ok h.free hunit).trans <|
      (alloc_runs (a := a) rfl (by simp [h.ok]) (by simp [ha])).trans <|
        add_runs num rfl rfl (by simp [h.ok]) (Heap.put_same ..)
  rw [← hrole] at hruns
  obtain ⟨g, hr₂, hpc, hsame, hwoken⟩ := reaches_unlock (t := t) (hruns.reachable hr rfl)
    (by simp [h.ok]) (by simp)
  refine ⟨_, (leave_runs hpc (by simp [h.ok])).reachable hr₂ rfl,
    ⟨⟨by simp, by simp [h.ok], by simp [h.memory], by simp⟩, ?_, fun u hu hw => ?_⟩, ?_, ?_⟩
  · rintro rfl
    rw [hrole]
    exact ⟨rfl, rfl⟩
  · simp only [Function.update_of_ne hu]
    rw [hsame u hu (by rwa [Function.update_of_ne hu]), Function.update_of_ne hu]
  · simp
  · intro hv u hu hw
    simp only [Function.update_of_ne hu]
    exact hwoken hv u hu (by rwa [Function.update_of_ne hu])

/-- A producer on its way: its node is allocated and not yet in the list. -/
theorem allocates (hrole : role t = .producer) (hr : (nodes v role).Reachable s)
    (h : Idle v t s) (hunit : v = .sem → 0 < s.sh.psem) :
    ∃ s' a xs, (nodes v role).Reachable s' ∧ (s'.threads t).pc = .setHead ∧
      (s'.threads t).newNode = some a ∧ s'.sh.mem.oom = false ∧
      s'.sh.mem.out = s.sh.mem.out ∧ s'.sh.psem = (s.sh.wait v .producer).psem ∧
      Listed s'.sh.mem xs [a] (vals xs) := by
  obtain ⟨a, ha⟩ := heap_fresh hr
  obtain ⟨xs, hq⟩ := reachable_quiet hr h.free
  have hruns : Runs v .producer t (s.sh, s.threads t) _ :=
    (enter_runs (r := .producer) h.pc h.ok h.free hunit).trans <|
      alloc_runs (a := a) rfl (by simp [h.ok]) (by simp [ha])
  rw [← hrole] at hruns
  refine ⟨_, a, xs, hruns.reachable hr rfl, by simp, by simp, by simp [h.memory], by simp,
    by simp [hrole], ?_⟩
  simpa using (hq.alloc ha ⟨0, none⟩).setNext ⟨0, s.sh.mem.head⟩

/-- **A customer's turn** where the terminal leaves the number `n` on top. -/
theorem takes {n : ℕ} {rest : List ℕ} (hrole : role t = .customer)
    (hr : (nodes v role).Reachable s) (h : Idle v t s)
    (hunit : v = .sem → 0 < s.sh.csem) (hlog : replay s.sh.mem.out = some (n :: rest)) :
    ∃ s', (nodes v role).Reachable s' ∧ Turn v .customer t s s' ∧
      s'.sh.mem.out = s.sh.mem.out ++ [.del n t] := by
  obtain ⟨xs, hq⟩ := reachable_quiet hr h.free
  -- the first node of the list holds the number
  have hvals : vals xs = n :: rest := Option.some.inj (hq.log.symm.trans hlog)
  obtain ⟨⟨a, m⟩, ys, rfl⟩ : ∃ x ys, xs = x :: ys := by
    cases xs with
    | nil => cases hvals
    | cons x ys => exact ⟨x, ys, rfl⟩
  obtain ⟨rfl, -⟩ := List.cons.inj hvals
  obtain ⟨hhead, next, ha, -⟩ := hq.first
  let sh₁ : Shared τ := { s.sh.wait v .customer with mutex := some t }
  have hmem : sh₁.mem = s.sh.mem := Shared.wait_mem _
  have henter : Runs v .customer t (s.sh, s.threads t)
      (sh₁, { s.threads t with pc := .saveHead }) := enter_runs h.pc h.ok h.free hunit
  have hruns := (henter.trans (take_runs rfl (by rw [hmem, h.ok]) (by rw [hmem, hhead])
    (by rw [hmem, ha]))).trans (leave_runs rfl (by simp only [hmem, h.ok]))
  rw [← hrole] at hruns
  refine ⟨_, hruns.reachable hr rfl,
    ⟨⟨by simp, by simp [hmem, h.ok], by simp [hmem, h.memory], by simp⟩, ?_,
      fun u hu hw => ?_⟩, ?_⟩
  · rintro rfl
    rw [hrole]
    exact ⟨rfl, rfl⟩
  · simp only [Function.update_of_ne hu]
  · simp [hmem]

end Turns

end LinuxServer.Threads
