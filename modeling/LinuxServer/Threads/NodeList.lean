import LinuxServer.Framework.Threads
import LinuxServer.Threads.Nodes

/-!
# Producers and customers: the list and the terminal

What the thread that holds the mutex may find, statement by statement, in any
interleaving of any number of threads and in each of the three versions.

- §1 the terminal as the history of a stack
- §2 the list in the heap, and what the statements do to it
- §3 what each statement finds
- §4 one statement: where it goes on, and what it finds there
-/

namespace LinuxServer.Threads

open LinuxServer.Framework

variable {τ : Type}

/-! ## §1  The terminal as the history of a stack -/

/-- A printed line, read as an operation on a stack of numbers: `add` pushes,
`del` must name the number on top. -/
def replayLine (st : Option (List ℕ)) : Line τ → Option (List ℕ)
  | .add num _ => st.map fun xs => num :: xs
  | .del num _ => st.bind fun xs =>
      match xs with
      | [] => none
      | x :: rest => if x = num then some rest else none

/-- The stack after the printed lines, if they are the history of a stack. -/
def replay (out : List (Line τ)) : Option (List ℕ) := out.foldl replayLine (some [])

theorem replay_append (out : List (Line τ)) (line : Line τ) :
    replay (out ++ [line]) = replayLine (replay out) line := by
  unfold replay
  rw [List.foldl_append, List.foldl_cons, List.foldl_nil]

/-! ## §2  The list in the heap -/

/-- `head` starts the list `xs`, the allocated nodes are those of `xs` and
`extra`, and the terminal is a history that leaves `stack`. -/
structure Listed (m : Memory τ) (xs : List (ℕ × ℕ)) (extra stack : List ℕ) : Prop where
  chain : Chain m.heap m.head xs
  owns : Owns m.heap xs extra
  apart : ∀ a ∈ extra, a ∉ addrs xs
  log : replay m.out = some stack

/-- Between two critical sections: the numbers in the list are those the
terminal says were added and not deleted. -/
def Quiet (m : Memory τ) (xs : List (ℕ × ℕ)) : Prop := Listed m xs [] (vals xs)

theorem deref_some {m : Memory τ} {a : ℕ} {c : Cell ℕ} (h : m.heap a = some c) :
    m.deref (some a) = some (a, c) := by
  unfold Memory.deref
  rw [Option.bind_some, h, Option.map_some]

section Operations

variable {m : Memory τ} {xs : List (ℕ × ℕ)} {extra stack : List ℕ} {a n : ℕ}

theorem Listed.alloc (h : Listed m xs [] stack) (hfree : m.heap a = none)
    (c : Cell ℕ) : Listed { m with heap := m.heap.put a c } xs [a] stack := by
  have ha : a ∉ addrs xs := fun hmem => h.chain.allocated hmem hfree
  refine ⟨h.chain.put ha c, h.owns.alloc a c, ?_, h.log⟩
  intro b hb
  rw [List.mem_singleton.mp hb]
  exact ha

theorem Listed.extra_allocated (h : Listed m xs [a] stack) : ∃ c, m.heap a = some c :=
  Option.ne_none_iff_exists'.mp ((h.owns a).mpr (.inr List.mem_cons_self))

theorem Listed.setNext (h : Listed m xs [a] stack) (c : Cell ℕ) :
    Listed { m with heap := m.heap.put a c } xs [a] stack := by
  obtain ⟨c', hc'⟩ := h.extra_allocated
  refine ⟨h.chain.put (h.apart a List.mem_cons_self) c, h.owns.put ?_ c, h.apart, h.log⟩
  rw [hc']
  simp

/-- `head = newNode;` puts the node that points to the old list in front. -/
theorem Listed.link (h : Listed m xs [a] stack) (ha : m.heap a = some ⟨n, m.head⟩) :
    Listed { m with head := some a } ((a, n) :: xs) [] stack := by
  refine ⟨⟨rfl, m.head, ha, h.chain⟩, ?_, fun b hb => absurd hb List.not_mem_nil, h.log⟩
  intro b
  rw [h.owns b]
  simp only [addrs, List.map_cons, List.mem_cons, List.not_mem_nil, or_false]
  exact or_comm

theorem Listed.first (h : Listed m ((a, n) :: xs) extra stack) :
    m.head = some a ∧ ∃ next, m.heap a = some ⟨n, next⟩ ∧ Chain m.heap next xs :=
  h.chain

theorem Listed.setNum (h : Listed m ((a, n) :: xs) [] stack) {next : Ptr}
    (ha : m.heap a = some ⟨n, next⟩) (num : ℕ) :
    Listed { m with heap := m.heap.put a ⟨num, next⟩ } ((a, num) :: xs) [] stack := by
  have hnot : a ∉ addrs xs := h.chain.not_mem_tail
  obtain ⟨hhead, next', ha', hrest⟩ := h.first
  have hnext : next' = next := by
    rw [ha] at ha'
    exact (Cell.mk.inj (Option.some.inj ha')).2.symm
  subst hnext
  exact ⟨⟨hhead, next', Heap.put_same _ _ _, hrest.put hnot _⟩,
    h.owns.put (by rw [ha]; simp) _, fun _ hb => absurd hb List.not_mem_nil, h.log⟩

/-- `head = head->next;` leaves the old head out of the list, still allocated. -/
theorem Listed.unlink (h : Listed m ((a, n) :: xs) [] stack) {next : Ptr}
    (ha : m.heap a = some ⟨n, next⟩) :
    Listed { m with head := next } xs [a] stack := by
  obtain ⟨-, next', ha', hrest⟩ := h.first
  have hnext : next' = next := by
    rw [ha] at ha'
    exact (Cell.mk.inj (Option.some.inj ha')).2.symm
  subst hnext
  refine ⟨hrest, ?_, ?_, h.log⟩
  · intro b
    rw [h.owns b]
    simp only [addrs, List.map_cons, List.mem_cons, List.not_mem_nil, or_false]
    exact or_comm
  · intro b hb
    rw [List.mem_singleton.mp hb]
    exact h.chain.not_mem_tail

theorem Listed.free (h : Listed m xs [a] stack) :
    Listed { m with heap := m.heap.free a } xs [] stack :=
  ⟨h.chain.free (h.apart a List.mem_cons_self),
    h.owns.free (h.apart a List.mem_cons_self),
    fun _ hb => absurd hb List.not_mem_nil, h.log⟩

theorem Listed.printAdd (h : Listed m xs extra stack) (t : τ) :
    Listed { m with out := m.out ++ [.add n t] } xs extra (n :: stack) := by
  refine ⟨h.chain, h.owns, h.apart, ?_⟩
  rw [replay_append, h.log]
  rfl

theorem Listed.printDel (h : Listed m xs extra (n :: stack)) (t : τ) :
    Listed { m with out := m.out ++ [.del n t] } xs extra stack := by
  refine ⟨h.chain, h.owns, h.apart, ?_⟩
  rw [replay_append, h.log]
  simp [replayLine]

theorem Listed.head_eq_none (h : Listed m xs extra stack) : m.head = none ↔ xs = [] := by
  have hc := h.chain
  cases xs with
  | nil => exact iff_of_true hc rfl
  | cons x rest =>
      apply iff_of_false
      · rw [hc.1]
        simp
      · simp

end Operations

/-! ## §3  What each statement finds -/

/-- The statements between taking the mutex and releasing it. -/
def Pc.holds : Pc → Bool
  | .semWait | .lock | .waiting | .relock | .post => false
  | _ => true

/-- The statements a thread of the role `r` has in the version `v`. -/
def Pc.allowed (v : Version) (r : Role) : Pc → Bool
  | .semWait | .post => v == .sem
  | .lock | .unlock => true
  | .malloc | .setNext | .setHead | .setNum | .printAdd => r == .producer
  | .signal => r == .producer && v == .cond
  | .saveHead | .advance | .printDel | .free => r == .customer
  | .test => r == .customer && v != .sem
  | .condWait | .waiting | .relock => r == .customer && v == .cond

/-- What the thread that holds the mutex finds before its next statement. The
locals name the node it is putting in or taking out. -/
def Finds (v : Version) (l : Local) (m : Memory τ) (xs : List (ℕ × ℕ)) : Prop :=
  match l.pc with
  | .setNext =>
      (l.newNode = none ∧ m.oom = true ∧ Quiet m xs) ∨
        ∃ a, l.newNode = some a ∧ Listed m xs [a] (vals xs)
  | .setHead =>
      ∃ a n, l.newNode = some a ∧ m.heap a = some ⟨n, m.head⟩ ∧
        Listed m xs [a] (vals xs)
  | .setNum | .printAdd =>
      ∃ a n rest, l.newNode = some a ∧ xs = (a, n) :: rest ∧ Listed m xs [] (vals rest)
  | .test => l.tmp = m.head ∧ Quiet m xs
  | .advance => l.tmp = m.head ∧ (v ≠ .sem → xs ≠ []) ∧ Quiet m xs
  | .condWait => xs = [] ∧ Quiet m xs
  | .printDel =>
      ∃ a c, l.tmp = some a ∧ m.heap a = some c ∧ Listed m xs [a] (c.val :: vals xs)
  | .free => ∃ a, l.tmp = some a ∧ Listed m xs [a] (vals xs)
  | _ => Quiet m xs

/-- A node whose `sem_post(&csem)` is still to come, or whose `sem_wait(&csem)`
is done while it is still in the list. -/
def Pc.owed : Role → Pc → ℕ
  | .producer, .setNum | .producer, .printAdd | .producer, .unlock
  | .producer, .post => 1
  | .customer, .lock | .customer, .saveHead | .customer, .advance => 1
  | _, _ => 0

/-- Between its `sem_wait` and its `sem_post` a thread has a unit of neither
semaphore. -/
def Pc.taken : Pc → ℕ
  | .semWait => 0
  | _ => 1

theorem Pc.taken_of_holds {p : Pc} (h : p.holds = true) : p.taken = 1 := by
  cases p with
  | semWait => cases h
  | _ => rfl

/-- The statement that follows one on the memory. -/
inductive Pc.Next (v : Version) : Pc → Pc → Prop where
  | malloc : Next v .malloc .setNext
  | setNext : Next v .setNext .setHead
  | setHead : Next v .setHead .setNum
  | setNum : Next v .setNum .printAdd
  | printAdd : Next v .printAdd v.afterAdd
  | saveHead : Next v .saveHead v.afterSave
  | found : Next v .test .advance
  | empty : Next v .test v.noData
  | advance : Next v .advance .printDel
  | printDel : Next v .printDel .free
  | free : Next v .free .unlock

theorem Pc.Next.holds {v : Version} {p q : Pc} (h : p.Next v q) :
    p.holds = true ∧ q.holds = true := by
  cases h with
  | printAdd => cases v <;> exact ⟨rfl, rfl⟩
  | saveHead => cases v <;> exact ⟨rfl, rfl⟩
  | empty => cases v <;> exact ⟨rfl, rfl⟩
  | _ => exact ⟨rfl, rfl⟩

theorem Pc.Next.allowed {v : Version} {r : Role} {p q : Pc} (h : p.Next v q)
    (hp : p.allowed v r = true) : q.allowed v r = true := by
  cases h with
  | malloc | setNext | setHead | setNum | advance | printDel => exact hp
  | free => rfl
  | printAdd =>
      cases v with
      | polling | sem => rfl
      | cond => exact Bool.and_eq_true_iff.mpr ⟨hp, rfl⟩
  | saveHead =>
      cases v with
      | polling | cond => exact Bool.and_eq_true_iff.mpr ⟨hp, rfl⟩
      | sem => exact hp
  | found => exact (Bool.and_eq_true_iff.mp hp).1
  | empty =>
      cases v with
      | polling | sem => rfl
      | cond => exact Bool.and_eq_true_iff.mpr ⟨(Bool.and_eq_true_iff.mp hp).1, rfl⟩

/-! ## §4  One statement -/

section Statement

variable {v : Version} {r : Role} {me : τ} {k : Answer} {sh sh' : Shared τ}
  {m m' : Memory τ} {l l' : Local} {xs : List (ℕ × ℕ)}

/-- A statement on the memory goes on to the next one, or faults. -/
theorem memory_next (h : m.stmt v me k l = some (m', l')) :
    l.pc.Next v l'.pc ∨ (l.pc.holds = true ∧ l' = l ∧ m' = m.crash) := by
  unfold Memory.stmt at h
  split at h
  case h_1 hpc =>
    rw [hpc]
    split at h
    · cases h
      exact .inl .malloc
    · split at h <;> cases h
      exact .inl .malloc
  case h_2 hpc =>
    rw [hpc]
    split at h <;> cases h
    · exact .inl .setNext
    · exact .inr ⟨rfl, rfl, rfl⟩
  case h_3 hpc =>
    rw [hpc]
    cases h
    exact .inl .setHead
  case h_4 hpc =>
    rw [hpc]
    split at h <;> cases h
    · exact .inl .setNum
    · exact .inr ⟨rfl, rfl, rfl⟩
  case h_5 hpc =>
    rw [hpc]
    split at h <;> cases h
    · exact .inl .printAdd
    · exact .inr ⟨rfl, rfl, rfl⟩
  case h_6 hpc =>
    rw [hpc]
    cases h
    exact .inl .saveHead
  case h_7 hpc =>
    rw [hpc]
    split at h <;> cases h
    · exact .inl .found
    · exact .inl .empty
  case h_8 hpc =>
    rw [hpc]
    split at h <;> cases h
    · exact .inl .advance
    · exact .inr ⟨rfl, rfl, rfl⟩
  case h_9 hpc =>
    rw [hpc]
    split at h <;> cases h
    · exact .inl .printDel
    · exact .inr ⟨rfl, rfl, rfl⟩
  case h_10 hpc =>
    rw [hpc]
    split at h
    · cases h
      exact .inl .free
    · split at h <;> cases h
      · exact .inl .free
      · exact .inr ⟨rfl, rfl, rfl⟩
  case h_11 => cases h

/-- The statements outside the critical section. -/
inductive Outside (r : Role) (v : Version) (me : τ) (sh : Shared τ) (l : Local) :
    Shared τ → Local → Prop where
  | waitPsem (hpc : l.pc = .semWait) (hr : r = .producer) (hpos : 0 < sh.psem) :
      Outside r v me sh l { sh with psem := sh.psem - 1 } { l with pc := .lock }
  | waitCsem (hpc : l.pc = .semWait) (hr : r = .customer) (hpos : 0 < sh.csem) :
      Outside r v me sh l { sh with csem := sh.csem - 1 } { l with pc := .lock }
  | lock (hpc : l.pc = .lock) (hfree : sh.mutex = none) :
      Outside r v me sh l { sh with mutex := some me } { l with pc := r.afterLock }
  | relock (hpc : l.pc = .relock) (hfree : sh.mutex = none) :
      Outside r v me sh l { sh with mutex := some me } { l with pc := .unlock }
  | postCsem (hpc : l.pc = .post) (hr : r = .producer) :
      Outside r v me sh l { sh with csem := sh.csem + 1 } { l with pc := v.loopStart }
  | postPsem (hpc : l.pc = .post) (hr : r = .customer) :
      Outside r v me sh l { sh with psem := sh.psem + 1 } { l with pc := v.loopStart }

theorem stmt_outside (h : stmt v r me k sh l = some (sh', l')) (hout : l.pc.holds = false) :
    Outside r v me sh l sh' l' := by
  cases hpc : l.pc <;> rw [hpc] at hout <;> cases hout <;> simp only [stmt, hpc] at h
  case semWait =>
    cases r with
    | producer =>
        obtain ⟨hpos, heq⟩ := Option.ite_none_right_eq_some.mp h
        cases heq
        exact .waitPsem hpc rfl hpos
    | customer =>
        obtain ⟨hpos, heq⟩ := Option.ite_none_right_eq_some.mp h
        cases heq
        exact .waitCsem hpc rfl hpos
  case lock =>
    split at h <;> cases h
    exact .lock hpc (by assumption)
  case waiting => cases h
  case relock =>
    split at h <;> cases h
    exact .relock hpc (by assumption)
  case post =>
    cases r with
    | producer =>
        cases h
        exact .postCsem hpc rfl
    | customer =>
        cases h
        exact .postPsem hpc rfl

/-- Inside, a statement works on the memory or gives up the mutex. -/
theorem stmt_inside (h : stmt v r me k sh l = some (sh', l')) (hin : l.pc.holds = true) :
    (∃ m', sh.mem.stmt v me k l = some (m', l') ∧ sh' = { sh with mem := m' }) ∨
    (sh' = { sh with mutex := none } ∧
      (l.pc = .unlock ∧ l' = { l with pc := v.afterUnlock } ∨
        l.pc = .condWait ∧ l' = { l with pc := .waiting })) := by
  unfold stmt at h
  split at h
  case h_4 hpc =>
    cases h
    exact .inr ⟨rfl, .inr ⟨hpc, rfl⟩⟩
  case h_7 hpc =>
    cases h
    exact .inr ⟨rfl, .inl ⟨hpc, rfl⟩⟩
  case h_9 =>
    obtain ⟨⟨m', l''⟩, hm, heq⟩ := Option.map_eq_some_iff.mp h
    cases heq
    exact .inl ⟨m', hm, rfl⟩
  case h_3 => exact absurd h (by simp)
  all_goals
    rename_i hpc
    rw [hpc] at hin
    cases hin

theorem Outside.mem_eq (h : Outside r v me sh l sh' l') : sh'.mem = sh.mem := by
  cases h <;> rfl

/-- What a statement outside the critical section does to the mutex and to
being in the critical section. -/
theorem Outside.mutex (h : Outside r v me sh l sh' l') :
    (sh.mutex = none ∧ sh'.mutex = some me ∧ l'.pc.holds = true) ∨
      (sh'.mutex = sh.mutex ∧ l'.pc.holds = false) := by
  cases h with
  | waitPsem | waitCsem => exact .inr ⟨rfl, rfl⟩
  | lock hpc hfree =>
      refine .inl ⟨hfree, rfl, ?_⟩
      cases r <;> rfl
  | relock hpc hfree => exact .inl ⟨hfree, rfl, rfl⟩
  | postCsem | postPsem =>
      refine .inr ⟨rfl, ?_⟩
      cases v <;> rfl

theorem Outside.allowed (h : Outside r v me sh l sh' l') : l'.pc.allowed v r = true := by
  cases h with
  | waitPsem | waitCsem | relock => rfl
  | lock => cases r <;> rfl
  | postCsem | postPsem => cases v <;> rfl

/-- A unit goes from a semaphore to the thread or back. -/
theorem Outside.units (h : Outside r .sem me sh l sh' l') (hl : l.pc.allowed .sem r = true) :
    sh'.psem + sh'.csem + l'.pc.taken = sh.psem + sh.csem + l.pc.taken := by
  cases h with
  | waitPsem hpc hr hpos =>
      rw [hpc]
      show sh.psem - 1 + sh.csem + 1 = sh.psem + sh.csem + 0
      omega
  | waitCsem hpc hr hpos =>
      rw [hpc]
      show sh.psem + (sh.csem - 1) + 1 = sh.psem + sh.csem + 0
      omega
  | lock hpc hfree =>
      rw [hpc]
      cases r <;> rfl
  | relock hpc hfree =>
      rw [hpc] at hl
      cases r <;> cases hl
  | postCsem hpc hr =>
      rw [hpc]
      show sh.psem + (sh.csem + 1) + 0 = sh.psem + sh.csem + 1
      omega
  | postPsem hpc hr =>
      rw [hpc]
      show sh.psem + 1 + sh.csem + 0 = sh.psem + sh.csem + 1
      omega

/-- The units of `csem` and the nodes that are owed stay in step. -/
theorem Outside.owed (h : Outside r .sem me sh l sh' l') (hl : l.pc.allowed .sem r = true) :
    sh'.csem + l'.pc.owed r = sh.csem + l.pc.owed r := by
  cases h with
  | waitPsem hpc hr hpos =>
      rw [hpc, hr]
      rfl
  | waitCsem hpc hr hpos =>
      rw [hpc, hr]
      show sh.csem - 1 + 1 = sh.csem + 0
      omega
  | lock hpc hfree =>
      rw [hpc]
      cases r <;> rfl
  | relock hpc hfree =>
      rw [hpc] at hl
      cases r <;> cases hl
  | postCsem hpc hr =>
      rw [hpc, hr]
      rfl
  | postPsem hpc hr =>
      rw [hpc, hr]
      rfl

/-- The statement that enters the critical section finds the list whole. -/
theorem Outside.finds (h : Outside r v me sh l sh' l') (hin : l'.pc.holds = true)
    (hq : Quiet m xs) : Finds v l' m xs := by
  cases h with
  | waitPsem | waitCsem => cases hin
  | lock => cases r <;> exact hq
  | relock => exact hq
  | postCsem | postPsem => cases v <;> cases hin

/-- What a statement does to the mutex, to being in the critical section, and
to the units of the semaphores. -/
theorem stmt_flow (h : stmt v r me k sh l = some (sh', l'))
    (hl : l.pc.allowed v r = true) :
    ((sh.mutex = none ∧ sh'.mutex = some me ∧ l.pc.holds = false ∧ l'.pc.holds = true) ∨
      (sh'.mutex = none ∧ l.pc.holds = true ∧ l'.pc.holds = false) ∨
      (sh'.mutex = sh.mutex ∧ l'.pc.holds = l.pc.holds)) ∧
    l'.pc.allowed v r = true ∧
    (v = .sem → sh'.psem + sh'.csem + l'.pc.taken = sh.psem + sh.csem + l.pc.taken) := by
  cases hc : l.pc.holds with
  | false =>
      have ho := stmt_outside h hc
      refine ⟨?_, ho.allowed, ?_⟩
      · rcases ho.mutex with ⟨hfree, hm, hc'⟩ | ⟨hm, hc'⟩
        · exact .inl ⟨hfree, hm, rfl, hc'⟩
        · exact .inr (.inr ⟨hm, hc'⟩)
      · rintro rfl
        exact ho.units hl
  | true =>
      rcases stmt_inside h hc with ⟨m', hm, rfl⟩ | ⟨rfl, ⟨hpc, rfl⟩ | ⟨hpc, rfl⟩⟩
      · rcases memory_next hm with hnext | ⟨-, rfl, -⟩
        · refine ⟨.inr (.inr ⟨rfl, hnext.holds.2⟩), hnext.allowed hl, fun _ => ?_⟩
          rw [Pc.taken_of_holds hnext.holds.1, Pc.taken_of_holds hnext.holds.2]
        · exact ⟨.inr (.inr ⟨rfl, hc⟩), hl, fun _ => rfl⟩
      · rw [hpc]
        cases v with
        | polling | cond => exact ⟨.inr (.inl ⟨rfl, rfl, rfl⟩), rfl, fun hv => by cases hv⟩
        | sem => exact ⟨.inr (.inl ⟨rfl, rfl, rfl⟩), rfl, fun _ => rfl⟩
      · rw [hpc] at hl ⊢
        exact ⟨.inr (.inl ⟨rfl, rfl, rfl⟩), hl, fun _ => rfl⟩

/-- A statement of a thread in the role `r` went from `l` to `l'` and left the
memory `m'` with the list `xs'`. -/
structure Moves (v : Version) (r : Role) (l : Local) (xs : List (ℕ × ℕ)) (l' : Local)
    (m' : Memory τ) (xs' : List (ℕ × ℕ)) : Prop where
  finds : Finds v l' m' xs'
  safe : m'.fault = true → m'.oom = true
  count : v = .sem → xs'.length + l.pc.owed r = xs.length + l'.pc.owed r

theorem moves_malloc (hpc : l.pc = .malloc) (h : m.stmt v me k l = some (m', l'))
    (hf : Quiet m xs) (hsafe : m.fault = true → m.oom = true) :
    Moves v .producer l xs l' m' xs := by
  simp only [Memory.stmt, hpc] at h
  split at h
  · cases h
    exact ⟨.inl ⟨rfl, rfl, ⟨hf.chain, hf.owns, hf.apart, hf.log⟩⟩, fun _ => rfl,
      fun _ => by rw [hpc]; rfl⟩
  · rename_i a c _
    split at h
    · rename_i hfree
      cases h
      exact ⟨.inr ⟨a, rfl, hf.alloc hfree c⟩, hsafe, fun _ => by rw [hpc]; rfl⟩
    · exact absurd h (by simp)

/-- The one statement that can fault: after a `malloc` that returned `NULL`. -/
theorem moves_setNext (hpc : l.pc = .setNext) (h : m.stmt v me k l = some (m', l'))
    (hf : Finds v l m xs) (hsafe : m.fault = true → m.oom = true) :
    Moves v .producer l xs l' m' xs := by
  simp only [Memory.stmt, hpc] at h
  simp only [Finds, hpc] at hf
  rcases hf with ⟨hnull, hoom, hq⟩ | ⟨a, ha, hf⟩
  · rw [hnull] at h
    cases h
    refine ⟨?_, fun _ => hoom, fun _ => rfl⟩
    simp only [Finds, hpc]
    exact .inl ⟨hnull, hoom, ⟨hq.chain, hq.owns, hq.apart, hq.log⟩⟩
  · obtain ⟨c, hc⟩ := hf.extra_allocated
    rw [ha, deref_some hc] at h
    cases h
    exact ⟨⟨a, c.val, rfl, Heap.put_same _ _ _, hf.setNext _⟩, hsafe,
      fun _ => by rw [hpc]; rfl⟩

theorem moves_setHead (hpc : l.pc = .setHead) (h : m.stmt v me k l = some (m', l'))
    (hf : Finds v l m xs) (hsafe : m.fault = true → m.oom = true) :
    ∃ xs', Moves v .producer l xs l' m' xs' := by
  simp only [Memory.stmt, hpc] at h
  simp only [Finds, hpc] at hf
  obtain ⟨a, n, ha, hcell, hf⟩ := hf
  rw [ha] at h
  cases h
  exact ⟨(a, n) :: xs, ⟨a, n, xs, rfl, rfl, hf.link hcell⟩, hsafe,
    fun _ => by rw [hpc]; rfl⟩

theorem moves_setNum (hpc : l.pc = .setNum) (h : m.stmt v me k l = some (m', l'))
    (hf : Finds v l m xs) (hsafe : m.fault = true → m.oom = true) :
    ∃ xs', Moves v .producer l xs l' m' xs' := by
  simp only [Memory.stmt, hpc] at h
  simp only [Finds, hpc] at hf
  obtain ⟨a, n, rest, ha, rfl, hf⟩ := hf
  obtain ⟨-, next, hcell, -⟩ := hf.first
  rw [ha, deref_some hcell] at h
  cases h
  exact ⟨(a, k.rand % 1000) :: rest, ⟨a, _, rest, rfl, rfl, hf.setNum hcell _⟩, hsafe,
    fun _ => by rw [hpc]; rfl⟩

/-- The printed number is the one in the node, so the list and the terminal
agree again. -/
theorem moves_printAdd (hpc : l.pc = .printAdd) (h : m.stmt v me k l = some (m', l'))
    (hf : Finds v l m xs) (hsafe : m.fault = true → m.oom = true) :
    Moves v .producer l xs l' m' xs := by
  simp only [Memory.stmt, hpc] at h
  simp only [Finds, hpc] at hf
  obtain ⟨a, n, rest, ha, rfl, hf⟩ := hf
  obtain ⟨-, next, hcell, -⟩ := hf.first
  rw [ha, deref_some hcell] at h
  cases h
  refine ⟨?_, hsafe, fun hv => by rw [hpc, hv]; rfl⟩
  cases v <;> exact hf.printAdd me

theorem moves_saveHead (hpc : l.pc = .saveHead) (h : m.stmt v me k l = some (m', l'))
    (hf : Quiet m xs) (hsafe : m.fault = true → m.oom = true) :
    Moves v .customer l xs l' m' xs := by
  simp only [Memory.stmt, hpc] at h
  cases h
  refine ⟨?_, hsafe, fun hv => by rw [hpc, hv]; rfl⟩
  cases v with
  | polling => exact ⟨rfl, hf⟩
  | cond => exact ⟨rfl, hf⟩
  | sem => exact ⟨rfl, fun hne => absurd rfl hne, hf⟩

theorem moves_test (hpc : l.pc = .test) (hv : v ≠ .sem)
    (h : m.stmt v me k l = some (m', l')) (hf : Finds v l m xs)
    (hsafe : m.fault = true → m.oom = true) : Moves v .customer l xs l' m' xs := by
  simp only [Memory.stmt, hpc] at h
  simp only [Finds, hpc] at hf
  obtain ⟨htmp, hf⟩ := hf
  split at h
  · rename_i a hhead
    cases h
    refine ⟨⟨htmp, fun _ hnil => ?_, hf⟩, hsafe, fun hsem => absurd hsem hv⟩
    rw [hf.head_eq_none.mpr hnil] at hhead
    exact absurd hhead (by simp)
  · rename_i hhead
    cases h
    refine ⟨?_, hsafe, fun hsem => absurd hsem hv⟩
    cases v with
    | polling => exact hf
    | cond => exact ⟨hf.head_eq_none.mp hhead, hf⟩
    | sem => exact absurd rfl hv

theorem moves_advance (hpc : l.pc = .advance) (hne : xs ≠ [])
    (h : m.stmt v me k l = some (m', l')) (hf : Finds v l m xs)
    (hsafe : m.fault = true → m.oom = true) :
    ∃ xs', Moves v .customer l xs l' m' xs' := by
  simp only [Memory.stmt, hpc] at h
  simp only [Finds, hpc] at hf
  obtain ⟨htmp, -, hf⟩ := hf
  obtain ⟨⟨a, n⟩, rest, rfl⟩ := List.exists_cons_of_ne_nil hne
  obtain ⟨hhead, next, hcell, -⟩ := hf.first
  rw [hhead, deref_some hcell] at h
  cases h
  exact ⟨rest, ⟨a, ⟨n, next⟩, htmp.trans hhead, hcell, hf.unlink hcell⟩, hsafe,
    fun _ => by rw [hpc]; rfl⟩

theorem moves_printDel (hpc : l.pc = .printDel) (h : m.stmt v me k l = some (m', l'))
    (hf : Finds v l m xs) (hsafe : m.fault = true → m.oom = true) :
    Moves v .customer l xs l' m' xs := by
  simp only [Memory.stmt, hpc] at h
  simp only [Finds, hpc] at hf
  obtain ⟨a, c, htmp, hcell, hf⟩ := hf
  rw [htmp, deref_some hcell] at h
  cases h
  exact ⟨⟨a, rfl, hf.printDel me⟩, hsafe, fun _ => by rw [hpc]; rfl⟩

theorem moves_free (hpc : l.pc = .free) (h : m.stmt v me k l = some (m', l'))
    (hf : Finds v l m xs) (hsafe : m.fault = true → m.oom = true) :
    Moves v .customer l xs l' m' xs := by
  simp only [Memory.stmt, hpc] at h
  simp only [Finds, hpc] at hf
  obtain ⟨a, htmp, hf⟩ := hf
  obtain ⟨c, hc⟩ := hf.extra_allocated
  simp only [htmp, hc] at h
  cases h
  exact ⟨hf.free, hsafe, fun _ => by rw [hpc]; rfl⟩

/-- **One statement on the memory.** What the thread finds before a statement
tells what it finds before the next one. -/
theorem memory_moves (hl : l.pc.allowed v r = true) (h : m.stmt v me k l = some (m', l'))
    (hf : Finds v l m xs) (hadv : v = .sem → l.pc = .advance → xs ≠ [])
    (hsafe : m.fault = true → m.oom = true) : ∃ xs', Moves v r l xs l' m' xs' := by
  cases hpc : l.pc <;> rw [hpc] at hl <;> simp [Pc.allowed] at hl
  case malloc =>
    subst hl
    simp only [Finds, hpc] at hf
    exact ⟨xs, moves_malloc hpc h hf hsafe⟩
  case setNext =>
    subst hl
    exact ⟨xs, moves_setNext hpc h hf hsafe⟩
  case setHead =>
    subst hl
    exact moves_setHead hpc h hf hsafe
  case setNum =>
    subst hl
    exact moves_setNum hpc h hf hsafe
  case printAdd =>
    subst hl
    exact ⟨xs, moves_printAdd hpc h hf hsafe⟩
  case saveHead =>
    subst hl
    simp only [Finds, hpc] at hf
    exact ⟨xs, moves_saveHead hpc h hf hsafe⟩
  case test =>
    obtain ⟨rfl, hv⟩ := hl
    exact ⟨xs, moves_test hpc hv h hf hsafe⟩
  case advance =>
    subst hl
    apply moves_advance hpc ?_ h hf hsafe
    by_cases hv : v = .sem
    · exact hadv hv hpc
    · simp only [Finds, hpc] at hf
      exact hf.2.1 hv
  case printDel =>
    subst hl
    exact ⟨xs, moves_printDel hpc h hf hsafe⟩
  case free =>
    subst hl
    exact ⟨xs, moves_free hpc h hf hsafe⟩
  all_goals
    simp only [Memory.stmt, hpc] at h
    exact absurd h (by simp)

end Statement

end LinuxServer.Threads
