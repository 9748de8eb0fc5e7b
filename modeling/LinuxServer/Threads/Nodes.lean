import LinuxServer.Framework.LinkedHeap
import LinuxServer.Framework.Reachability

/-!
# Producers and customers: the three programs

Producers put nodes at the head of a linked list and customers take them off.
The three versions differ in how a customer finds out that there is a node:
it polls, it waits on a condition variable, or it waits on a semaphore.

One step is one C statement of one thread, in any interleaving. The threads
are of any type with a role for each, so that nothing rests on there being
five of each kind, or on how many of the `pthread_create`s succeeded.

- §1 the threads and what they share
- §2 the statements
- §3 the interleavings
-/

namespace LinuxServer.Threads

open LinuxServer.Framework

/-! ## §1  The threads and what they share -/

inductive Version where
  | polling
  | cond
  | sem
deriving DecidableEq

inductive Role where
  | producer
  | customer
deriving DecidableEq

/-- The statement a thread is about to execute. -/
inductive Pc where
  /-- `sem_wait(&psem);` or `sem_wait(&csem);`. -/
  | semWait
  | lock
  | malloc
  /-- `newNode->next = head;`. -/
  | setNext
  /-- `head = newNode;`. -/
  | setHead
  /-- `newNode->num = rand() % 1000;`. -/
  | setNum
  | printAdd
  | signal
  /-- `struct Node * tmp = head;`. -/
  | saveHead
  /-- `if(head != NULL)`. -/
  | test
  /-- `head = head->next;`. -/
  | advance
  | printDel
  | free
  | condWait
  /-- Blocked inside `pthread_cond_wait`. -/
  | waiting
  /-- Woken inside `pthread_cond_wait`, about to take the mutex again. -/
  | relock
  | unlock
  /-- `sem_post(&csem);` or `sem_post(&psem);`. -/
  | post
deriving DecidableEq

structure Local where
  pc : Pc
  newNode : Ptr
  tmp : Ptr
deriving DecidableEq

/-- The lines on the terminal: the number and the thread. -/
inductive Line (τ : Type) where
  | add (num : ℕ) (tid : τ)
  | del (num : ℕ) (tid : τ)
deriving DecidableEq

/-- The list, the heap and the terminal. `oom`: a `malloc` returned `NULL`.
`fault`: a pointer was used that does not point to a node. -/
structure Memory (τ : Type) where
  head : Ptr
  heap : Heap ℕ
  out : List (Line τ)
  oom : Bool
  fault : Bool

structure Shared (τ : Type) where
  mutex : Option τ
  psem : ℕ
  csem : ℕ
  mem : Memory τ

variable {τ : Type}

/-- The node behind a pointer, if it points to one. -/
def Memory.deref (m : Memory τ) (p : Ptr) : Option (ℕ × Cell ℕ) :=
  p.bind fun a => (m.heap a).map fun c => (a, c)

def Memory.crash (m : Memory τ) : Memory τ := { m with fault := true }

/-! ## §2  The statements -/

/-- What the library answers: the node of a `malloc` with whatever it holds,
or `NULL`, and the value of a `rand()`. -/
structure Answer where
  node : Option (ℕ × Cell ℕ)
  rand : ℕ

/-- The first statement inside the critical section. -/
def Role.afterLock : Role → Pc
  | .producer => .malloc
  | .customer => .saveHead

/-- The first statement of the `while(1)`. -/
def Version.loopStart : Version → Pc
  | .polling => .lock
  | .cond => .lock
  | .sem => .semWait

/-- After a producer's `printf`: the version `cond` signals. -/
def Version.afterAdd : Version → Pc
  | .polling => .unlock
  | .cond => .signal
  | .sem => .unlock

/-- After `tmp = head`: the version `sem` has no test. -/
def Version.afterSave : Version → Pc
  | .polling => .test
  | .cond => .test
  | .sem => .advance

/-- The first statement of the `else`. -/
def Version.noData : Version → Pc
  | .polling => .unlock
  | .cond => .condWait
  | .sem => .unlock

/-- After the unlock; `usleep` changes nothing. -/
def Version.afterUnlock : Version → Pc
  | .polling => .lock
  | .cond => .lock
  | .sem => .post

/-- The statements inside the critical section, which work on the memory. -/
def Memory.stmt (v : Version) (me : τ) (k : Answer) (m : Memory τ) (l : Local) :
    Option (Memory τ × Local) :=
  match l.pc with
  | .malloc =>
      match k.node with
      | none => some ({ m with oom := true }, { l with pc := .setNext, newNode := none })
      | some (a, c) =>
          match m.heap a with
          | none => some ({ m with heap := m.heap.put a c },
              { l with pc := .setNext, newNode := some a })
          | some _ => none
  | .setNext =>
      match m.deref l.newNode with
      | some (a, c) =>
          some ({ m with heap := m.heap.put a { c with next := m.head } },
            { l with pc := .setHead })
      | none => some (m.crash, l)
  | .setHead => some ({ m with head := l.newNode }, { l with pc := .setNum })
  | .setNum =>
      match m.deref l.newNode with
      | some (a, c) =>
          some ({ m with heap := m.heap.put a { c with val := k.rand % 1000 } },
            { l with pc := .printAdd })
      | none => some (m.crash, l)
  | .printAdd =>
      match m.deref l.newNode with
      | some (_, c) =>
          some ({ m with out := m.out ++ [.add c.val me] }, { l with pc := v.afterAdd })
      | none => some (m.crash, l)
  | .saveHead => some (m, { l with pc := v.afterSave, tmp := m.head })
  | .test =>
      match m.head with
      | some _ => some (m, { l with pc := .advance })
      | none => some (m, { l with pc := v.noData })
  | .advance =>
      match m.deref m.head with
      | some (_, c) => some ({ m with head := c.next }, { l with pc := .printDel })
      | none => some (m.crash, l)
  | .printDel =>
      match m.deref l.tmp with
      | some (_, c) =>
          some ({ m with out := m.out ++ [.del c.val me] }, { l with pc := .free })
      | none => some (m.crash, l)
  | .free =>
      match l.tmp with
      -- `free(NULL)` does nothing
      | none => some (m, { l with pc := .unlock })
      | some a =>
          match m.heap a with
          | some _ => some ({ m with heap := m.heap.free a }, { l with pc := .unlock })
          | none => some (m.crash, l)
  | _ => none

/-- One statement of the thread `me`; `none` where it blocks. `signal` moves
other threads too and is a step of its own below. -/
def stmt (v : Version) (r : Role) (me : τ) (k : Answer) (sh : Shared τ) (l : Local) :
    Option (Shared τ × Local) :=
  match l.pc with
  | .semWait =>
      match r with
      | .producer =>
          if 0 < sh.psem then some ({ sh with psem := sh.psem - 1 }, { l with pc := .lock })
          else none
      | .customer =>
          if 0 < sh.csem then some ({ sh with csem := sh.csem - 1 }, { l with pc := .lock })
          else none
  | .lock =>
      match sh.mutex with
      | none => some ({ sh with mutex := some me }, { l with pc := r.afterLock })
      | some _ => none
  | .signal => none
  | .condWait => some ({ sh with mutex := none }, { l with pc := .waiting })
  | .waiting => none
  | .relock =>
      match sh.mutex with
      | none => some ({ sh with mutex := some me }, { l with pc := .unlock })
      | some _ => none
  | .unlock => some ({ sh with mutex := none }, { l with pc := v.afterUnlock })
  | .post =>
      match r with
      | .producer => some ({ sh with csem := sh.csem + 1 }, { l with pc := v.loopStart })
      | .customer => some ({ sh with psem := sh.psem + 1 }, { l with pc := v.loopStart })
  | _ => (sh.mem.stmt v me k l).map fun (m, l') => ({ sh with mem := m }, l')

/-! ## §3  The interleavings -/

structure State (τ : Type) where
  threads : τ → Local
  sh : Shared τ

/-- The threads of `woken` return from the wait in `pthread_cond_wait`. -/
def wake (f : τ → Local) (woken : τ → Bool) : τ → Local := fun u =>
  if woken u then { f u with pc := .relock } else f u

variable [DecidableEq τ]

/-- The threads after `t` signalled and `woken` were woken. -/
def signalled (f : τ → Local) (t : τ) (woken : τ → Bool) : τ → Local :=
  Function.update (wake f woken) t { f t with pc := .unlock }

/-- A statement of the thread `t`. A signal wakes at least one of the threads
that wait, if there are any. After a fault there is no next statement. -/
inductive Act (v : Version) (role : τ → Role) (t : τ) : State τ → State τ → Prop where
  | run {s : State τ} (hok : s.sh.mem.fault = false) (k : Answer) (sh : Shared τ) (l : Local)
      (h : stmt v (role t) t k s.sh (s.threads t) = some (sh, l)) :
      Act v role t s ⟨Function.update s.threads t l, sh⟩
  | signal {s : State τ} (hok : s.sh.mem.fault = false) (hpc : (s.threads t).pc = .signal)
      (woken : τ → Bool) (hwait : ∀ u, woken u = true → (s.threads u).pc = .waiting)
      (hone : ∀ u, (s.threads u).pc = .waiting → ∃ u', woken u' = true) :
      Act v role t s ⟨signalled s.threads t woken, s.sh⟩

/-- A thread's statement, or a spurious return from `pthread_cond_wait`. -/
inductive Step (v : Version) (role : τ → Role) : State τ → State τ → Prop where
  | act {s s' : State τ} (t : τ) (h : Act v role t s s') : Step v role s s'
  | spurious {s : State τ} (hok : s.sh.mem.fault = false) (t : τ)
      (hpc : (s.threads t).pc = .waiting) :
      Step v role s ⟨wake s.threads (fun u => u == t), s.sh⟩

/-- What `main` sets up: an empty list, the mutex free, `sem_init(&psem, 0, 8)`
and `sem_init(&csem, 0, 0)`. -/
def Shared.start : Shared τ :=
  { mutex := none, psem := 8, csem := 0,
    mem := { head := none, heap := fun _ => none, out := [], oom := false, fault := false } }

/-- Every thread is before its first statement; `newNode` and `tmp` are not
initialised. -/
def Start (v : Version) (s : State τ) : Prop :=
  s.sh = Shared.start ∧ ∀ t, (s.threads t).pc = v.loopStart

/-- The program in the version `v`, with the threads `τ` in their roles. -/
def nodes (v : Version) (role : τ → Role) : System (State τ) where
  init := Start v
  step := Step v role

/-- The threads `main` creates: five producers and five customers. -/
abbrev MainThread : Type := Fin 5 ⊕ Fin 5

def mainRole : MainThread → Role
  | .inl _ => .producer
  | .inr _ => .customer

end LinuxServer.Threads
