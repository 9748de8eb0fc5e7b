import LinuxServer.Framework.Reachability

/-!
# `wait.c` and `waitpid.c`: the processes

A parent forks five children and collects them in a loop, with a blocking
`wait` in one file and a polling `waitpid(-1, &st, WNOHANG)` in the other.
Both files are one program up to that call, so both are one definition with
the `Variant` as a parameter.

A process runs `Local.next` between system calls. What the kernel decides is
in `Step`: whether a `fork` succeeds, when a child runs or dies and how, and
which dead child a `wait` returns.
-/

namespace LinuxServer.Reap

open LinuxServer.Framework

/-! ## §1  The program -/

inductive Variant where
  | wait
  | waitpid
deriving DecidableEq

/-- The id of a process. -/
structure Pid where
  val : Int
  pos : 0 < val
deriving DecidableEq

/-- How a child ended: with an exit code, or by a signal. -/
inductive Status where
  | exited (code : ℕ)
  | signaled (sig : ℕ)
deriving DecidableEq

/-- The lines on the terminal, in the order of the `printf`s. -/
inductive Line where
  | parent (pid : Pid)
  | exitStatus (code : ℕ)
  | termSignal (sig : ℕ)
  | childDie (pid : Int)
  | child (pid : Pid)
deriving DecidableEq

/-- The statement a process is about to execute. -/
inductive Pc where
  /-- `i < 5`. -/
  | loop
  /-- `pid = fork();`. -/
  | fork
  /-- `if(pid == 0) break;`, then `i++`. -/
  | test
  /-- `if(pid > 0) ... else if(pid == 0) ...`. -/
  | branch
  | parentPrint
  | sleep
  /-- `wait(&st)` or `waitpid(-1, &st, WNOHANG)`. -/
  | wait
  /-- The tests of `ret`. -/
  | check
  /-- `WIFEXITED(st)` and `WIFSIGNALED(st)`. -/
  | status
  | die
  | childPrint
  | childSleep
  /-- `return 0;`. -/
  | done
deriving DecidableEq

/-- The variables of `main`. `st` has no value before the first `wait`. -/
structure Local where
  pc : Pc
  i : ℕ
  pid : Int
  ret : Int
  st : Option Status

/-- What the two `if`s on `st` print. -/
def Status.report : Status → List Line
  | .exited code => [.exitStatus code]
  | .signaled sig => [.termSignal sig]

/-- One statement of the process `me` with the lines it prints; `none` where it
needs the kernel's answer, and at the end. -/
def Local.next (v : Variant) (me : Pid) (l : Local) : Option (Local × List Line) :=
  match l.pc with
  | .loop => some ({ l with pc := if l.i < 5 then .fork else .branch }, [])
  | .fork => none
  | .test =>
      if l.pid = 0 then some ({ l with pc := .branch }, [])
      else some ({ l with pc := .loop, i := l.i + 1 }, [])
  | .branch =>
      if 0 < l.pid then some ({ l with pc := .parentPrint }, [])
      else if l.pid = 0 then some ({ l with pc := .childPrint }, [])
      else some ({ l with pc := .done }, [])
  | .parentPrint =>
      -- waitpid.c sleeps before it polls, wait.c after a child was collected
      match v with
      | .wait => some ({ l with pc := .wait }, [.parent me])
      | .waitpid => some ({ l with pc := .sleep }, [.parent me])
  | .sleep =>
      match v with
      | .wait => some ({ l with pc := .parentPrint }, [])
      | .waitpid => some ({ l with pc := .wait }, [])
  | .wait => none
  | .check =>
      if l.ret = -1 then some ({ l with pc := .done }, [])
      else
        match v with
        | .wait => some ({ l with pc := .status }, [])
        | .waitpid =>
            if l.ret = 0 then some ({ l with pc := .parentPrint }, [])
            else if 0 < l.ret then some ({ l with pc := .status }, [])
            else some ({ l with pc := .parentPrint }, [])
  | .status => some ({ l with pc := .die }, (l.st.map Status.report).getD [])
  | .die =>
      match v with
      | .wait => some ({ l with pc := .sleep }, [.childDie l.ret])
      | .waitpid => some ({ l with pc := .parentPrint }, [.childDie l.ret])
  | .childPrint => some ({ l with pc := .childSleep }, [.child me])
  | .childSleep => some ({ l with pc := .childPrint }, [])
  | .done => none

/-! ## §2  The parent, its children and the kernel -/

/-- A child that has not been reaped: it runs, or it is dead. -/
inductive Fate where
  | running (l : Local)
  | dead (st : Status)

structure Child where
  pid : Pid
  fate : Fate

/-- The parent, its unreaped children, and the history: what each `fork`
returned, which children were reaped, what was printed. -/
structure State where
  self : Local
  children : List Child
  forks : List (Option Pid)
  reaped : List Pid
  out : List Line

def State.created (s : State) : List Pid := s.forks.filterMap id

def State.unreaped (s : State) : List Pid := s.children.map Child.pid

/-- The return value of a `fork` in the parent. -/
def forkResult : Option Pid → Int
  | some p => p.val
  | none => -1

/-- The parent after a `fork`. -/
def Local.forked (l : Local) (pid : Int) : Local := { l with pc := .test, pid := pid }

/-- The parent after a `wait`. -/
def Local.waited (l : Local) (ret : Int) (st : Option Status) : Local :=
  { l with pc := .check, ret := ret, st := st }

/-- One step of the parent `me`, of a child or of the kernel. A `wait` with
children none of which is dead blocks: no step of the parent. -/
inductive Step (v : Variant) (me : Pid) : State → State → Prop where
  | main {s : State} (l : Local) (lines : List Line)
      (h : s.self.next v me = some (l, lines)) :
      Step v me s { s with self := l, out := s.out ++ lines }
  | forkOk {s : State} (hpc : s.self.pc = .fork) (p : Pid)
      (hfresh : p ∉ s.unreaped) :
      Step v me s { s with
        self := s.self.forked (forkResult (some p))
        children := s.children ++ [⟨p, .running (s.self.forked 0)⟩]
        forks := s.forks ++ [some p] }
  | forkFail {s : State} (hpc : s.self.pc = .fork) :
      Step v me s { s with
        self := s.self.forked (forkResult none)
        forks := s.forks ++ [none] }
  | reap {s : State} (hpc : s.self.pc = .wait) (before after : List Child)
      (p : Pid) (st : Status) (hc : s.children = before ++ ⟨p, .dead st⟩ :: after) :
      Step v me s { s with
        self := s.self.waited p.val (some st)
        children := before ++ after
        reaped := s.reaped ++ [p] }
  | noChild {s : State} (hpc : s.self.pc = .wait) (hc : s.children = []) :
      Step v me s { s with self := s.self.waited (-1) s.self.st }
  | noneDead {s : State} (hpc : s.self.pc = .wait) (hv : v = .waitpid)
      (hne : s.children ≠ []) (hc : ∀ c ∈ s.children, ∀ st, c.fate ≠ .dead st) :
      Step v me s { s with self := s.self.waited 0 s.self.st }
  | childRuns {s : State} (before after : List Child) (p : Pid) (l l' : Local)
      (lines : List Line) (hc : s.children = before ++ ⟨p, .running l⟩ :: after)
      (h : l.next v p = some (l', lines)) :
      Step v me s { s with
        children := before ++ ⟨p, .running l'⟩ :: after
        out := s.out ++ lines }
  | childDies {s : State} (before after : List Child) (p : Pid) (l : Local)
      (st : Status) (hc : s.children = before ++ ⟨p, .running l⟩ :: after) :
      Step v me s { s with children := before ++ ⟨p, .dead st⟩ :: after }

/-- Before the first statement; `pid`, `ret` and `st` are not initialised. -/
def Start (s : State) : Prop :=
  s.self.pc = .loop ∧ s.self.i = 0 ∧ s.children = [] ∧ s.forks = [] ∧
    s.reaped = [] ∧ s.out = []

def processes (v : Variant) (me : Pid) : System State where
  init := Start
  step := Step v me

/-- `wait.c`, run as the process `me`. -/
def waitMain (me : Pid) : System State := processes .wait me

/-- `waitpid.c`, run as the process `me`. -/
def waitpidMain (me : Pid) : System State := processes .waitpid me

end LinuxServer.Reap
