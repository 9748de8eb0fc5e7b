import LinuxServer.Framework.Reachability
import LinuxServer.Framework.TerminatedText

/-!
# Chat over two FIFOs: the programs

Two processes talk over `fifo1` (from A to B) and `fifo2` (from B to A). Each
makes the FIFOs that are missing and opens them; then A writes a line and reads
the answer, B reads a line and writes an answer, and so on. The two programs
have the same body but for the place where the loop starts, so both are one
definition with the `Party` as a parameter.

- §1 the texts: `fgets`, `strlen` and `read` on `buf[128]`
- §2 the processes
-/

namespace LinuxServer.Chat

open LinuxServer.Framework

/-! ## §1  The texts -/

/-- `char buf[128]`. -/
abbrev ChatBuf : Type := Buf Byte 128

/-- After `memset(buf, 0, 128)`. -/
def blank : ChatBuf := Buf.fill NUL 128

/-- What `fgets(buf, 128, stdin)` stores before its terminator. -/
structure Line where
  bytes : List Byte
  le : bytes.length ≤ 127

/-- `buf` after `fgets`; at the end of the input nothing is stored. -/
def fgets : Option Line → ChatBuf
  | none => blank
  | some line => blank.overwrite (line.bytes ++ [NUL]) (by
      rw [List.length_append]
      exact Nat.succ_le_succ line.le)

/-- The bytes that `write(fdw, buf, strlen(buf))` writes. -/
def message (input : Option Line) : Option (List Byte) := upTo NUL (fgets input).cells

/-- The text of `printf("buf: %s\n", buf)` after `read(fdr, buf, 128)` has stored
`bytes`. -/
def shownText (bytes : List Byte) : Option (List Byte) :=
  upTo NUL (blank.overwrite (bytes.take 128) (List.length_take_le 128 bytes)).cells

/-- `strlen` finds a terminator after `fgets`. -/
theorem exists_message (input : Option Line) : ∃ msg, message input = some msg := by
  rw [← Option.ne_none_iff_exists', message, ne_eq, upTo_eq_none_iff, not_not]
  cases input with
  | none => exact List.mem_replicate.mpr ⟨by decide, rfl⟩
  | some line =>
      rw [fgets, Buf.overwrite_cells]
      exact List.mem_append_left _ (List.mem_append_right _ (List.mem_singleton_self _))

/-- A message as the programs send it. -/
def IsMessage (msg : List Byte) : Prop := NUL ∉ msg ∧ msg.length < 128

theorem message_spec {input : Option Line} {msg : List Byte} (h : message input = some msg) :
    IsMessage msg := by
  refine ⟨not_mem_of_upTo h, ?_⟩
  have := length_upTo_lt h
  rwa [(fgets input).size] at this

/-- A message that is read in one piece is shown as it was sent. -/
theorem shownText_message {msg : List Byte} (h : IsMessage msg) :
    shownText msg = some msg := by
  have htake : msg.take 128 = msg := List.take_of_length_le h.2.le
  unfold shownText
  simp only [htake]
  rw [upTo_overwrite_eq_some_iff h.1]
  exact Buf.fill_getElem? h.2

/-! ## §2  The processes -/

inductive Party where
  | A
  | B
deriving DecidableEq

def Party.peer : Party → Party
  | .A => .B
  | .B => .A

@[simp] theorem Party.peer_peer (p : Party) : p.peer.peer = p := by cases p <;> rfl

theorem Party.peer_ne (p : Party) : p.peer ≠ p := by cases p <;> decide

theorem Party.eq_or_eq_peer (p q : Party) : q = p ∨ q = p.peer := by
  cases p <;> cases q <;> decide

inductive Fifo where
  | fifo1
  | fifo2
deriving DecidableEq

/-- The statement a process is about to execute. -/
inductive Pc where
  /-- `access("fifo1", F_OK)`. -/
  | access (f : Fifo)
  | mkfifo (f : Fifo)
  | openFifo (f : Fifo)
  | fgets
  | write (msg : List Byte)
  | read
  /-- `exit(0)` after `mkfifo` failed. -/
  | exited
  /-- The loop was left, or the process was killed. -/
  | gone
deriving DecidableEq

structure Local where
  pc : Pc
  /-- The messages written, and the texts printed. -/
  sent : List (List Byte)
  shown : List (Option (List Byte))

/-- `pipe p` holds the bytes on their way to `p`; `made f` says who created the
FIFO, if it is not an old one. -/
structure State where
  loc : Party → Local
  pipe : Party → List Byte
  present : Fifo → Bool
  made : Fifo → Option Party

def State.move (s : State) (p : Party) (pc : Pc) : State :=
  { s with loc := Function.update s.loc p { s.loc p with pc := pc } }

/-- The statement after those for `f`. -/
def Fifo.next : Fifo → Pc
  | .fifo1 => .access .fifo2
  | .fifo2 => .openFifo .fifo1

/-- Where the loop starts. -/
def Party.loopStart : Party → Pc
  | .A => .fgets
  | .B => .read

/-- What the two programs do. An `open` waits for the other side, so both return
from it together. A pipe has room for a message, and a write of no bytes succeeds
whether or not there is a reader. -/
inductive Act : State → State → Prop where
  | found {s : State} (p : Party) (f : Fifo) (hpc : (s.loc p).pc = .access f)
      (h : s.present f = true) : Act s (s.move p f.next)
  | missing {s : State} (p : Party) (f : Fifo) (hpc : (s.loc p).pc = .access f)
      (h : s.present f = false) : Act s (s.move p (.mkfifo f))
  | mkfifo {s : State} (p : Party) (f : Fifo) (hpc : (s.loc p).pc = .mkfifo f)
      (h : s.present f = false) :
      Act s { s.move p f.next with
        present := Function.update s.present f true
        made := Function.update s.made f (some p) }
  | mkfifoFails {s : State} (p : Party) (f : Fifo) (hpc : (s.loc p).pc = .mkfifo f)
      (h : s.present f = true) : Act s (s.move p .exited)
  | openFirst {s : State} (h : ∀ p, (s.loc p).pc = .openFifo .fifo1) :
      Act s { s with loc := fun p => { s.loc p with pc := .openFifo .fifo2 } }
  | openSecond {s : State} (h : ∀ p, (s.loc p).pc = .openFifo .fifo2) :
      Act s { s with loc := fun p => { s.loc p with pc := p.loopStart } }
  | fgets {s : State} (p : Party) (hpc : (s.loc p).pc = .fgets) (input : Option Line)
      (msg : List Byte) (h : message input = some msg) : Act s (s.move p (.write msg))
  | write {s : State} (p : Party) (msg : List Byte) (hpc : (s.loc p).pc = .write msg)
      (h : (s.loc p.peer).pc ≠ .gone ∨ msg = []) :
      Act s { s with
        loc := Function.update s.loc p
          { s.loc p with pc := .read, sent := (s.loc p).sent ++ [msg] }
        pipe := Function.update s.pipe p.peer (s.pipe p.peer ++ msg) }
  /-- `SIGPIPE`. -/
  | writeBroken {s : State} (p : Party) (msg : List Byte) (hpc : (s.loc p).pc = .write msg)
      (h : (s.loc p.peer).pc = .gone) (hne : msg ≠ []) : Act s (s.move p .gone)
  | read {s : State} (p : Party) (hpc : (s.loc p).pc = .read) (h : s.pipe p ≠ []) :
      Act s { s with
        loc := Function.update s.loc p
          { s.loc p with pc := .fgets, shown := (s.loc p).shown ++ [shownText (s.pipe p)] }
        pipe := Function.update s.pipe p ((s.pipe p).drop 128) }
  /-- `read` returns `0`: the loop is left. -/
  | readEnd {s : State} (p : Party) (hpc : (s.loc p).pc = .read) (h : s.pipe p = [])
      (hpeer : (s.loc p.peer).pc = .gone) : Act s (s.move p .gone)

/-- The process is in its loop, or was and is gone. -/
def Pc.inLoop : Pc → Bool
  | .fgets | .write _ | .read | .gone => true
  | .access _ | .mkfifo _ | .openFifo _ | .exited => false

/-- A process may be killed while it talks. -/
inductive Step : State → State → Prop where
  | act {s s' : State} (h : Act s s') : Step s s'
  | kill {s : State} (p : Party) (h : (s.loc p).pc.inLoop = true) : Step s (s.move p .gone)

/-- Both start; some of the FIFOs may be there already. -/
def Start (s : State) : Prop :=
  (∀ p, s.loc p = ⟨.access .fifo1, [], []⟩) ∧ (∀ p, s.pipe p = []) ∧ ∀ f, s.made f = none

def chat : System State where
  init := Start
  step := Step

end LinuxServer.Chat
