import LinuxServer.Reap.Processes

/-!
# Reaping from a `SIGCHLD` handler: the programs

Two programs collect their children from a handler that polls `waitpid` until
it has nothing left: `myFun` of the program that forks twenty children, and
`recycleChild` of the server that forks for every connection. The model is that
of one process, its signal state and its children.

A signal is one pending bit: children that die while `SIGCHLD` is blocked, or
while the handler runs, are announced by one delivery.

- §1 the main programs
- §2 the handlers
- §3 the process, its children and the kernel
-/

namespace LinuxServer.Sigchld

open LinuxServer.Framework
open LinuxServer.Reap (Pid forkResult)

/-! ## §1  The main programs -/

inductive Program where
  /-- Twenty children, handler `myFun`. -/
  | twenty
  /-- A child for each connection, handler `recycleChild`. -/
  | server
deriving DecidableEq

/-- The statement `main` is about to execute. -/
inductive Pc where
  /-- `sigprocmask(SIG_BLOCK, &set, NULL);`. -/
  | block
  /-- `i < 20`. -/
  | loop
  | fork
  /-- The test of `pid` after the `fork`. -/
  | test
  /-- `if(pid > 0) ... else if( pid == 0) ...`. -/
  | branch
  | sigaction
  /-- `sigprocmask(SIG_UNBLOCK, &set, NULL);`. -/
  | unblock
  | parentPrint
  | sleep
  /-- `socket`, `bind` and `listen`. -/
  | listen
  | accept
  | done
deriving DecidableEq

structure Local where
  pc : Pc
  i : ℕ
  pid : Int

/-- `SIGCHLD` in this process: whether it is in the signal mask, whether a
handler is installed, and the pending bit. -/
structure Signals where
  blocked : Bool
  caught : Bool
  pending : Bool
deriving DecidableEq

/-- A `SIGCHLD` arrives. It is dropped only if it is neither blocked nor caught:
the default is to ignore it. -/
def Signals.raise (g : Signals) : Signals :=
  if g.blocked || g.caught then { g with pending := true } else g

/-- The lines on the terminal. -/
inductive Line where
  /-- `捕捉到的信号 ：%d`. -/
  | caught (num : ℕ)
  /-- `child die , pid = %d`. -/
  | childDie (pid : Int)
  /-- `子进程 %d 被回收了`. -/
  | recycled (pid : Int)
  /-- `parent process pid : %d`. -/
  | parent (pid : Pid)
deriving DecidableEq

/-- The id in a line about a child that was reaped. -/
def Line.reaped : Line → Option Int
  | .childDie pid => some pid
  | .recycled pid => some pid
  | _ => none

def SIGCHLD : ℕ := 17

/-- One statement of `main` in the process `me` with what it prints; `none`
where it needs the kernel's answer, and at the end. A process whose `fork`
returned `0` is a child and not followed further. -/
def Local.next (prog : Program) (me : Pid) (l : Local) (g : Signals) :
    Option (Local × Signals × List Line) :=
  match l.pc with
  | .block => some ({ l with pc := .loop }, { g with blocked := true }, [])
  | .loop => some ({ l with pc := if l.i < 20 then .fork else .branch }, g, [])
  | .fork => none
  | .test =>
      match prog with
      | .twenty =>
          if l.pid = 0 then some ({ l with pc := .branch }, g, [])
          else some ({ l with pc := .loop, i := l.i + 1 }, g, [])
      | .server =>
          if l.pid = 0 then some ({ l with pc := .done }, g, [])
          else some ({ l with pc := .accept }, g, [])
  | .branch =>
      if 0 < l.pid then some ({ l with pc := .sigaction }, g, [])
      else some ({ l with pc := .done }, g, [])
  | .sigaction =>
      match prog with
      | .twenty => some ({ l with pc := .unblock }, { g with caught := true }, [])
      | .server => some ({ l with pc := .listen }, { g with caught := true }, [])
  | .unblock => some ({ l with pc := .parentPrint }, { g with blocked := false }, [])
  | .parentPrint => some ({ l with pc := .sleep }, g, [.parent me])
  | .sleep => some ({ l with pc := .parentPrint }, g, [])
  | .listen => none
  | .accept => none
  | .done => none

/-! ## §2  The handlers -/

/-- Where the handler is. -/
inductive Frame where
  | entry
  /-- `waitpid(-1, NULL, WNOHANG)`. -/
  | wait
  /-- The tests of `ret`. -/
  | check (ret : Int)
deriving DecidableEq

/-- The first statement of the handler: `myFun` prints the signal's number. -/
def Program.enter : Program → List Line
  | .twenty => [.caught SIGCHLD]
  | .server => []

/-- `myFun` after a `waitpid` that returned `ret`: the frame that follows, `none`
if it returns. -/
def myFun (ret : Int) : Option Frame × List Line :=
  if 0 < ret then (some .wait, [.childDie ret])
  else if ret = 0 then (none, [])
  else if ret = -1 then (none, [])
  else (some .wait, [])

/-- `recycleChild` after a `waitpid` that returned `ret`. -/
def recycleChild (ret : Int) : Option Frame × List Line :=
  if ret = -1 then (none, [])
  else if ret = 0 then (none, [])
  else (some .wait, [.recycled ret])

def Program.handler : Program → Int → Option Frame × List Line
  | .twenty => myFun
  | .server => recycleChild

/-! ## §3  The process, its children and the kernel -/

/-- A child that has not been reaped. -/
structure Child where
  pid : Pid
  dead : Bool
deriving DecidableEq

structure State where
  self : Local
  sig : Signals
  frame : Option Frame
  children : List Child
  forks : List (Option Pid)
  reaped : List Pid
  out : List Line

def State.created (s : State) : List Pid := s.forks.filterMap id

def State.unreaped (s : State) : List Pid := s.children.map Child.pid

/-- The delivery of the signal and the statements of the handler. While it runs
the signal is not delivered again. -/
inductive Handles (prog : Program) : State → State → Prop where
  | deliver {s : State} (hframe : s.frame = none) (hpending : s.sig.pending = true)
      (hmask : s.sig.blocked = false) (hcaught : s.sig.caught = true) :
      Handles prog s
        { s with frame := some .entry, sig := { s.sig with pending := false } }
  | enter {s : State} (hframe : s.frame = some .entry) :
      Handles prog s { s with frame := some .wait, out := s.out ++ prog.enter }
  | reap {s : State} (hframe : s.frame = some .wait) (before after : List Child)
      (p : Pid) (hc : s.children = before ++ ⟨p, true⟩ :: after) :
      Handles prog s { s with
        frame := some (.check p.val)
        children := before ++ after
        reaped := s.reaped ++ [p] }
  | noneDead {s : State} (hframe : s.frame = some .wait) (hne : s.children ≠ [])
      (hc : ∀ c ∈ s.children, c.dead = false) :
      Handles prog s { s with frame := some (.check 0) }
  | noChild {s : State} (hframe : s.frame = some .wait) (hc : s.children = []) :
      Handles prog s { s with frame := some (.check (-1)) }
  | check {s : State} (ret : Int) (hframe : s.frame = some (.check ret)) :
      Handles prog s { s with
        frame := (prog.handler ret).1
        out := s.out ++ (prog.handler ret).2 }

/-- `main` after a `fork`. -/
def Local.forked (l : Local) (pid : Int) : Local := { l with pc := .test, pid := pid }

/-- One statement of `main` in the process `me`. It stands still while the handler
runs. -/
inductive Mains (prog : Program) (me : Pid) : State → State → Prop where
  | next {s : State} (hframe : s.frame = none) (l : Local) (g : Signals)
      (lines : List Line) (h : s.self.next prog me s.sig = some (l, g, lines)) :
      Mains prog me s { s with self := l, sig := g, out := s.out ++ lines }
  | forkOk {s : State} (hframe : s.frame = none) (hpc : s.self.pc = .fork) (p : Pid)
      (hfresh : p ∉ s.unreaped) :
      Mains prog me s { s with
        self := s.self.forked (forkResult (some p))
        children := s.children ++ [⟨p, false⟩]
        forks := s.forks ++ [some p] }
  | forkFail {s : State} (hframe : s.frame = none) (hpc : s.self.pc = .fork) :
      Mains prog me s { s with
        self := s.self.forked (forkResult none)
        forks := s.forks ++ [none] }
  | listen {s : State} (hframe : s.frame = none) (hpc : s.self.pc = .listen)
      (ok : Bool) :
      Mains prog me s { s with self := { s.self with pc := if ok then .accept else .done } }
  /-- `accept` returns a connection, or `-1` with `EINTR`, or another error. -/
  | accept {s : State} (hframe : s.frame = none) (hpc : s.self.pc = .accept)
      (next : Pc) (hnext : next = .fork ∨ next = .accept ∨ next = .done) :
      Mains prog me s { s with self := { s.self with pc := next } }

/-- What happens to the children at any time, also while the handler runs. A child
that is stopped or continued raises the signal too. -/
inductive Kids : State → State → Prop where
  | dies {s : State} (before after : List Child) (p : Pid)
      (hc : s.children = before ++ ⟨p, false⟩ :: after) :
      Kids s { s with
        children := before ++ ⟨p, true⟩ :: after
        sig := s.sig.raise }
  | stops {s : State} (c : Child) (hc : c ∈ s.children) (halive : c.dead = false) :
      Kids s { s with sig := s.sig.raise }

/-- One step of the process `me`, in its handler or in `main`, or of a child. -/
inductive Step (prog : Program) (me : Pid) : State → State → Prop where
  | handles {s s' : State} (h : Handles prog s s') : Step prog me s s'
  | mains {s s' : State} (h : Mains prog me s s') : Step prog me s s'
  | kids {s s' : State} (h : Kids s s') : Step prog me s s'

/-- The first statement. -/
def Program.entry : Program → Pc
  | .twenty => .block
  | .server => .sigaction

/-- Before the first statement; `pid` is not initialised. -/
def Start (prog : Program) (s : State) : Prop :=
  s.self.pc = prog.entry ∧ s.self.i = 0 ∧ s.sig = ⟨false, false, false⟩ ∧
    s.frame = none ∧ s.children = [] ∧ s.forks = [] ∧ s.reaped = [] ∧ s.out = []

/-- The program `prog`, run as the process `me`. -/
def reaper (prog : Program) (me : Pid) : System State where
  init := Start prog
  step := Step prog me

end LinuxServer.Sigchld
