import LinuxServer.Framework.Reachability
import LinuxServer.Framework.TerminatedText

/-!
# `ps aux` through a pipe

The parent reads a pipe and prints what it gets, the child makes the pipe its
standard output and executes `ps aux`. The parent asks for one byte less than its
buffer has and clears the buffer after each line, and it closes its own write end
before it reads: otherwise it would never see the end of the pipe.

- §1 the processes
- §2 the invariant
- §3 every run ends, with everything printed
-/

namespace LinuxServer.PsAux

open LinuxServer.Framework

/-! ## §1  The processes -/

/-- `char buf[1024]`. -/
abbrev PipeBuf : Type := Buf Byte 1024

/-- After `= {0}` and after `memset(buf, 0, 1024)`. -/
def blank : PipeBuf := Buf.fill NUL 1024

/-- Bytes that fit in a pipe. -/
def pipeSize : ℕ := 65536

/-- Where the parent is; at `fault` it ran past the end of `buf`. -/
inductive Parent where
  | pipe
  | fork
  | closeWrite
  | read
  | print
  | memset
  | wait
  | exited
  | fault
deriving DecidableEq

/-- Where the child is; `ps` is the program it becomes. -/
inductive Child where
  | unborn
  | closeRead
  | dup2
  | execlp
  | ps
  | zombie
  | reaped
deriving DecidableEq

structure State where
  parent : Parent
  child : Child
  pipe : List Byte
  buf : PipeBuf
  /-- What `ps` has still to write. -/
  rest : List Byte
  screen : List Byte
  -- kept for the statements: the bytes read so far, and whether `execlp` succeeded
  taken : List Byte
  executed : Bool

/-- The child has a write end, as `fd[1]` or as its standard output. -/
def Child.holdsWrite : Child → Bool
  | .closeRead | .dup2 | .execlp | .ps => true
  | .unborn | .zombie | .reaped => false

inductive Step : State → State → Prop where
  | pipe {s : State} (hpc : s.parent = .pipe) : Step s { s with parent := .fork }
  | pipeFails {s : State} (hpc : s.parent = .pipe) : Step s { s with parent := .exited }
  | fork {s : State} (hpc : s.parent = .fork) :
      Step s { s with parent := .closeWrite, child := .closeRead }
  | forkFails {s : State} (hpc : s.parent = .fork) : Step s { s with parent := .exited }
  | closeWrite {s : State} (hpc : s.parent = .closeWrite) : Step s { s with parent := .read }
  /-- `read(fd[0], buf, sizeof(buf) - 1)`. -/
  | read {s : State} (hpc : s.parent = .read) (len : ℕ) (hpos : 0 < len) (hlen : len ≤ 1023)
      (hpipe : len ≤ s.pipe.length) :
      Step s { s with
        parent := .print
        buf := s.buf.overwrite (s.pipe.take len)
          (le_trans (List.length_take_le ..) (by omega))
        pipe := s.pipe.drop len
        taken := s.taken ++ s.pipe.take len }
  /-- The end of the pipe: it is empty and no write end is open. -/
  | readEnd {s : State} (hpc : s.parent = .read) (hpipe : s.pipe = [])
      (hclosed : s.child.holdsWrite = false) : Step s { s with parent := .wait }
  /-- `printf("%s", buf)`. -/
  | print {s : State} (hpc : s.parent = .print) (text : List Byte)
      (htext : upTo NUL s.buf.cells = some text) :
      Step s { s with parent := .memset, screen := s.screen ++ text }
  | overrun {s : State} (hpc : s.parent = .print) (htext : upTo NUL s.buf.cells = none) :
      Step s { s with parent := .fault }
  | memset {s : State} (hpc : s.parent = .memset) :
      Step s { s with parent := .read, buf := blank }
  | wait {s : State} (hpc : s.parent = .wait) (hchild : s.child = .zombie) :
      Step s { s with parent := .exited, child := .reaped }
  | closeRead {s : State} (hchild : s.child = .closeRead) : Step s { s with child := .dup2 }
  | dup2 {s : State} (hchild : s.child = .dup2) : Step s { s with child := .execlp }
  | execlp {s : State} (hchild : s.child = .execlp) :
      Step s { s with child := .ps, executed := true }
  /-- `perror` and `exit(0)`. -/
  | execlpFails {s : State} (hchild : s.child = .execlp) : Step s { s with child := .zombie }
  | psWrites {s : State} (hchild : s.child = .ps) (len : ℕ) (hpos : 0 < len)
      (hrest : len ≤ s.rest.length) (hroom : s.pipe.length + len ≤ pipeSize) :
      Step s { s with pipe := s.pipe ++ s.rest.take len, rest := s.rest.drop len }
  | psExits {s : State} (hchild : s.child = .ps) (hrest : s.rest = []) :
      Step s { s with child := .zombie }

/-- `output` is all that `ps aux` writes. -/
def program (output : List Byte) : System State where
  init s := s = ⟨.pipe, .unborn, [], blank, output, [], [], false⟩
  step := Step

/-! ## §2  The invariant -/

/-- The child exists from `fork` until `wait`. -/
def Family : Parent → Child → Prop
  | .pipe, c | .fork, c => c = .unborn
  | .closeWrite, c | .read, c | .print, c | .memset, c => c ≠ .unborn ∧ c ≠ .reaped
  | .wait, c => c = .zombie
  | .exited, c => c = .unborn ∨ c = .reaped
  | .fault, _ => False

/-- The bytes in `buf` that are not printed yet, where `buf` is not clear. -/
def Held (s : State) (chunk : List Byte) : Prop :=
  match s.parent with
  | .print => chunk.length ≤ 1023 ∧ s.buf.cells = chunk ++ blank.cells.drop chunk.length
  | .memset => chunk = []
  | _ => chunk = [] ∧ s.buf = blank

structure Inv (output : List Byte) (s : State) : Prop where
  family : Family s.parent s.child
  bytes : s.taken ++ s.pipe ++ s.rest = output
  held : ∃ chunk, Held s chunk ∧ (NUL ∉ output → s.taken = s.screen ++ chunk)
  printable : NUL ∉ s.screen
  written : s.executed = true → s.child = .ps ∨ s.rest = []
  drained : s.parent = .wait ∨ s.child = .unborn ∨ s.child = .reaped → s.pipe = []

variable {output : List Byte} {s t : State}

theorem init_inv : Inv output ⟨.pipe, .unborn, [], blank, output, [], [], false⟩ where
  family := rfl
  bytes := rfl
  held := ⟨[], ⟨rfl, rfl⟩, fun _ => rfl⟩
  printable := List.not_mem_nil
  written h := by cases h
  drained _ := rfl

/-- While the child holds a write end, the parent is between `fork` and `wait`. -/
theorem Family.of_holdsWrite {p : Parent} {c : Child} (h : Family p c)
    (hc : c.holdsWrite = true) :
    p ≠ .wait ∧ ∀ c', c' ≠ .unborn → c' ≠ .reaped → Family p c' := by
  cases p with
  | pipe | fork | wait =>
      have hc' : c = _ := h
      rw [hc'] at hc
      cases hc
  | exited =>
      rcases h with h | h
      · rw [h] at hc
        cases hc
      · rw [h] at hc
        cases hc
  | fault => exact absurd h id
  | closeWrite | read | print | memset => exact ⟨by simp, fun c' h₁ h₂ => ⟨h₁, h₂⟩⟩

/-- While the child lives nothing is said about the pipe. -/
theorem alive_undrained {p : Parent} {c : Child} {P : Prop} (hp : p ≠ .wait)
    (hc : c ≠ .unborn ∧ c ≠ .reaped) : p = .wait ∨ c = .unborn ∨ c = .reaped → P := by
  rintro (h | h | h)
  · exact absurd h hp
  · exact absurd h hc.1
  · exact absurd h hc.2

/-- A step of the parent before or after its loop, or into it. -/
theorem Inv.move {parent : Parent} {child : Child} (hi : Inv output s)
    (hs : s.parent ≠ .print ∧ s.parent ≠ .memset) (ht : parent ≠ .print ∧ parent ≠ .memset)
    (hfamily : Family parent child) (hwritten : s.child ≠ .ps ∨ child = .ps)
    (hdrained : parent = .wait ∨ child = .unborn ∨ child = .reaped → s.pipe = []) :
    Inv output { s with parent := parent, child := child } := by
  obtain ⟨chunk, hheld, htaken⟩ := hi.held
  refine ⟨hfamily, hi.bytes, ⟨chunk, ?_, htaken⟩, hi.printable, fun h => ?_, hdrained⟩
  · have hblank : chunk = [] ∧ s.buf = blank := by
      unfold Held at hheld
      split at hheld
      · exact absurd ‹_› hs.1
      · exact absurd ‹_› hs.2
      · exact hheld
    unfold Held
    split
    · exact absurd ‹_› ht.1
    · exact absurd ‹_› ht.2
    · exact hblank
  · rcases hi.written h with hps | hrest
    · exact .inl (hwritten.resolve_left (not_not.mpr hps))
    · exact .inr hrest

/-- A step of the child that writes nothing. -/
theorem Inv.child {child : Child} {executed : Bool} (hi : Inv output s)
    (hs : s.child.holdsWrite = true) (ht : child ≠ .unborn ∧ child ≠ .reaped)
    (hwritten : executed = true → child = .ps ∨ s.rest = []) :
    Inv output { s with child := child, executed := executed } := by
  obtain ⟨hwait, hfamily⟩ := hi.family.of_holdsWrite hs
  refine ⟨hfamily child ht.1 ht.2, hi.bytes, hi.held, hi.printable, hwritten, ?_⟩
  exact alive_undrained hwait ht

theorem read_inv {len : ℕ} (hi : Inv output s) (hpc : s.parent = .read) (hlen : len ≤ 1023) :
    Inv output { s with
      parent := .print
      buf := s.buf.overwrite (s.pipe.take len) (le_trans (List.length_take_le ..) (by omega))
      pipe := s.pipe.drop len
      taken := s.taken ++ s.pipe.take len } := by
  have hfamily := hi.family
  have hsize : (s.pipe.take len).length ≤ 1024 := le_trans (List.length_take_le ..) (by omega)
  obtain ⟨chunk, hheld, htaken⟩ := hi.held
  unfold Held at hheld
  rw [hpc] at hfamily hheld
  obtain ⟨rfl, hbuf⟩ := hheld
  refine ⟨hfamily, ?_, ⟨s.pipe.take len, ⟨?_, ?_⟩, fun h => ?_⟩, hi.printable, hi.written, ?_⟩
  · show s.taken ++ s.pipe.take len ++ s.pipe.drop len ++ s.rest = output
    rw [List.append_assoc s.taken, List.take_append_drop, hi.bytes]
  · exact le_trans (List.length_take_le ..) hlen
  · show (s.buf.overwrite (s.pipe.take len) hsize).cells = _
    rw [Buf.overwrite_cells, hbuf]
  · show s.taken ++ s.pipe.take len = s.screen ++ s.pipe.take len
    rw [htaken h, List.append_nil]
  · exact alive_undrained (by simp) hfamily

/-- The terminator is inside `buf`, and the chunk is what stands before it. -/
theorem upTo_held {chunk : List Byte} {cells : List Byte} (hlen : chunk.length ≤ 1023)
    (hcells : cells = chunk ++ blank.cells.drop chunk.length) :
    upTo NUL cells ≠ none ∧ (NUL ∉ chunk → upTo NUL cells = some chunk) := by
  have hsize : chunk.length ≤ 1024 := by omega
  have hover : cells = (blank.overwrite chunk hsize).cells := hcells
  have hnul : blank.cells[chunk.length]? = some NUL := Buf.fill_getElem? (by omega)
  constructor
  · rw [ne_eq, upTo_eq_none_iff, not_not, hcells]
    refine List.mem_append_right _ (List.mem_iff_getElem?.mpr ⟨0, ?_⟩)
    rw [List.getElem?_drop, Nat.add_zero, hnul]
  · intro h
    rw [hover, upTo_overwrite_eq_some_iff h]
    exact hnul

theorem print_inv {text : List Byte} (hi : Inv output s) (hpc : s.parent = .print)
    (htext : upTo NUL s.buf.cells = some text) :
    Inv output { s with parent := .memset, screen := s.screen ++ text } := by
  have hfamily := hi.family
  obtain ⟨chunk, hheld, htaken⟩ := hi.held
  unfold Held at hheld
  rw [hpc] at hfamily hheld
  refine ⟨hfamily, hi.bytes, ⟨[], rfl, fun h => ?_⟩, ?_, hi.written, ?_⟩
  · have hchunk : NUL ∉ chunk := by
      intro hmem
      apply h
      rw [← hi.bytes, htaken h]
      simp [hmem]
    have htext' := (upTo_held hheld.1 hheld.2).2 hchunk
    rw [htext] at htext'
    show s.taken = s.screen ++ text ++ []
    rw [htaken h, Option.some.inj htext', List.append_nil]
  · show NUL ∉ s.screen ++ text
    rw [List.mem_append, not_or]
    exact ⟨hi.printable, not_mem_of_upTo htext⟩
  · exact alive_undrained (by simp) hfamily

theorem memset_inv (hi : Inv output s) (hpc : s.parent = .memset) :
    Inv output { s with parent := .read, buf := blank } := by
  have hfamily := hi.family
  obtain ⟨chunk, hheld, htaken⟩ := hi.held
  unfold Held at hheld
  rw [hpc] at hfamily hheld
  refine ⟨hfamily, hi.bytes, ⟨chunk, ⟨hheld, rfl⟩, htaken⟩, hi.printable, hi.written, ?_⟩
  exact alive_undrained (by simp) hfamily

theorem psWrites_inv {len : ℕ} (hi : Inv output s) (hchild : s.child = .ps) :
    Inv output { s with pipe := s.pipe ++ s.rest.take len, rest := s.rest.drop len } := by
  obtain ⟨hwait, -⟩ := hi.family.of_holdsWrite (by rw [hchild]; rfl)
  refine ⟨hi.family, ?_, hi.held, hi.printable, fun _ => .inl hchild, ?_⟩
  · show s.taken ++ (s.pipe ++ s.rest.take len) ++ s.rest.drop len = output
    rw [← List.append_assoc, List.append_assoc _ (s.rest.take len), List.take_append_drop,
      hi.bytes]
  · exact alive_undrained hwait (by simp [hchild])

theorem step_inv (hi : Inv output s) (h : Step s t) : Inv output t := by
  have hfamily := hi.family
  cases h with
  | pipe hpc =>
      rw [hpc] at hfamily
      have hchild : s.child = .unborn := hfamily
      exact hi.move (by simp [hpc]) (by simp) hchild (ne_or_eq _ _)
        (fun _ => hi.drained (.inr (.inl hchild)))
  | pipeFails hpc | forkFails hpc =>
      rw [hpc] at hfamily
      have hchild : s.child = .unborn := hfamily
      exact hi.move (by simp [hpc]) (by simp) (.inl hchild) (ne_or_eq _ _)
        (fun _ => hi.drained (.inr (.inl hchild)))
  | fork hpc =>
      rw [hpc] at hfamily
      have hchild : s.child = .unborn := hfamily
      exact hi.move (by simp [hpc]) (by simp) ⟨by simp, by simp⟩ (.inl (by simp [hchild]))
        (alive_undrained (by simp) (by simp))
  | closeWrite hpc =>
      rw [hpc] at hfamily
      exact hi.move (by simp [hpc]) (by simp) hfamily (ne_or_eq _ _)
        (alive_undrained (by simp) hfamily)
  | read hpc _ _ hlen => exact read_inv hi hpc hlen
  | readEnd hpc hpipe hclosed =>
      rw [hpc] at hfamily
      refine hi.move (by simp [hpc]) (by simp) ?_ (ne_or_eq _ _) (fun _ => hpipe)
      show s.child = .zombie
      cases hchild : s.child with
      | unborn => exact absurd hchild hfamily.1
      | reaped => exact absurd hchild hfamily.2
      | zombie => rfl
      | closeRead | dup2 | execlp | ps =>
          rw [hchild] at hclosed
          cases hclosed
  | print hpc text htext => exact print_inv hi hpc htext
  | overrun hpc htext =>
      obtain ⟨chunk, hheld, -⟩ := hi.held
      unfold Held at hheld
      rw [hpc] at hheld
      exact absurd htext (upTo_held hheld.1 hheld.2).1
  | memset hpc => exact memset_inv hi hpc
  | wait hpc hchild =>
      exact hi.move (by simp [hpc]) (by simp) (.inr rfl) (.inl (by simp [hchild]))
        (fun _ => hi.drained (.inl hpc))
  | closeRead hchild | dup2 hchild | execlpFails hchild =>
      refine hi.child (by rw [hchild]; rfl) (by simp) (fun h => ?_)
      exact .inr ((hi.written h).resolve_left (by simp [hchild]))
  | execlp hchild => exact hi.child (by rw [hchild]; rfl) (by simp) (fun _ => .inl rfl)
  | psWrites hchild => exact psWrites_inv hi hchild
  | psExits hchild hrest =>
      exact hi.child (by rw [hchild]; rfl) (by simp) (fun _ => .inr hrest)

theorem reachable_inv (h : (program output).Reachable s) : Inv output s := by
  apply System.invariant (I := Inv output) _ _ h
  · rintro _ rfl
    exact init_inv
  · intro _ _ _ hi hst
    exact step_inv hi hst

/-! ## §3  Every run ends, with everything printed -/

def Parent.left : Parent → ℕ
  | .pipe => 8
  | .fork | .print => 7
  | .closeWrite | .memset => 6
  | .read => 5
  | .wait => 1
  | .exited | .fault => 0

def Child.left : Child → ℕ
  | .unborn => 5
  | .closeRead => 4
  | .dup2 => 3
  | .execlp => 2
  | .ps => 1
  | .zombie | .reaped => 0

/-- Steps left at most: a byte may take four, one to write it and three to read and
print it. -/
def left (s : State) : ℕ :=
  3 * (s.pipe.length + s.rest.length) + s.rest.length + s.parent.left + s.child.left

theorem left_decreases (hi : Inv output s) (h : Step s t) : left t < left s := by
  cases h with
  | pipe hpc | pipeFails hpc | forkFails hpc | closeWrite hpc | readEnd hpc | print hpc
  | overrun hpc | memset hpc =>
      simp only [left, hpc, Parent.left]
      omega
  | fork hpc =>
      have hfamily := hi.family
      rw [hpc] at hfamily
      have hchild : s.child = .unborn := hfamily
      simp only [left, hpc, hchild, Parent.left, Child.left]
      omega
  | read hpc len hpos hlen hpipe =>
      simp only [left, hpc, Parent.left, List.length_drop]
      omega
  | wait hpc hchild =>
      simp only [left, hpc, hchild, Parent.left, Child.left]
      omega
  | closeRead hchild | dup2 hchild | execlp hchild | execlpFails hchild | psExits hchild =>
      simp only [left, hchild, Child.left]
      omega
  | psWrites hchild len hpos hrest =>
      simp only [left, List.length_append, List.length_take, List.length_drop]
      omega

/-- A child that holds a write end can go on as soon as the pipe is empty. -/
theorem child_goes_on (hpipe : s.pipe = []) (hchild : s.child.holdsWrite = true) :
    ∃ t, Step s t := by
  cases hc : s.child with
  | unborn | zombie | reaped =>
      rw [hc] at hchild
      cases hchild
  | closeRead => exact ⟨_, .closeRead hc⟩
  | dup2 => exact ⟨_, .dup2 hc⟩
  | execlp => exact ⟨_, .execlp hc⟩
  | ps =>
      by_cases hrest : s.rest = []
      · exact ⟨_, .psExits hc hrest⟩
      · have hlen : 1 ≤ s.rest.length := List.length_pos_iff.mpr hrest
        exact ⟨_, .psWrites hc 1 one_pos hlen (by simp [hpipe, pipeSize])⟩

/-- The parent can go on, or waits for a child that can. -/
theorem exited_of_stuck (hi : Inv output s) (h : ∀ t, ¬ Step s t) : s.parent = .exited := by
  have hfamily := hi.family
  cases hpc : s.parent with
  | pipe => exact absurd (.pipe hpc) (h _)
  | fork => exact absurd (.fork hpc) (h _)
  | closeWrite => exact absurd (.closeWrite hpc) (h _)
  | read =>
      by_cases hpipe : s.pipe = []
      · cases hclosed : s.child.holdsWrite with
        | false => exact absurd (.readEnd hpc hpipe hclosed) (h _)
        | true =>
            obtain ⟨t, ht⟩ := child_goes_on hpipe hclosed
            exact absurd ht (h t)
      · have hlen : 1 ≤ s.pipe.length := List.length_pos_iff.mpr hpipe
        exact absurd (.read hpc 1 one_pos (by decide) hlen) (h _)
  | print =>
      cases htext : upTo NUL s.buf.cells with
      | none => exact absurd (.overrun hpc htext) (h _)
      | some text => exact absurd (.print hpc text htext) (h _)
  | memset => exact absurd (.memset hpc) (h _)
  | wait =>
      rw [hpc] at hfamily
      exact absurd (.wait hpc hfamily) (h _)
  | exited => rfl
  | fault =>
      rw [hpc] at hfamily
      exact absurd hfamily id

/-- **`ps aux` on the screen.** However the two processes interleave and the output
is cut into pieces, every run is over after at most `4 * output.length + 13` steps: the
parent has ended and the child, if there was one, is reaped. If `ps` was executed,
the screen shows its output exactly iff there is no NUL in it. -/
theorem psAux_result {n : ℕ} (h : (program output).Run n s) :
    n ≤ 4 * output.length + 13 ∧ ((∀ t, ¬ Step s t) →
      s.parent = .exited ∧ (s.child = .unborn ∨ s.child = .reaped) ∧
      (s.executed = true → (s.screen = output ↔ NUL ∉ output))) := by
  have hi := reachable_inv h.reachable
  have hbound := System.Run.bounded (μ := left) (b := 4 * output.length + 13)
    (fun s h0 => by
      rw [show s = _ from h0]
      simp only [left, List.length_nil, Parent.left, Child.left]
      omega)
    (fun _ _ hr hst => left_decreases (reachable_inv hr) hst) h
  refine ⟨by omega, fun hstuck => ?_⟩
  have hpc := exited_of_stuck hi hstuck
  have hfamily := hi.family
  rw [hpc] at hfamily
  refine ⟨hpc, hfamily, fun hexecuted => ⟨fun hscreen => hscreen ▸ hi.printable, fun hnul => ?_⟩⟩
  have hrest : s.rest = [] := by
    refine (hi.written hexecuted).resolve_left (fun hps => ?_)
    rcases hfamily with h | h
    · exact absurd (hps.symm.trans h) (by simp)
    · exact absurd (hps.symm.trans h) (by simp)
  have htaken : s.taken = output := by
    have hbytes := hi.bytes
    rwa [hrest, hi.drained (.inr hfamily), List.append_nil, List.append_nil] at hbytes
  obtain ⟨chunk, hheld, hscreen⟩ := hi.held
  unfold Held at hheld
  rw [hpc] at hheld
  rw [hheld.1, List.append_nil] at hscreen
  rw [← hscreen hnul, htaken]

theorem reaped_stuck (hpc : s.parent = .exited) (hchild : s.child = .reaped) (t : State) :
    ¬ Step s t := by
  intro h
  cases h with
  | pipe h | pipeFails h | fork h | forkFails h | closeWrite h | read h | readEnd h | print h
  | overrun h | memset h | wait h =>
      rw [hpc] at h
      cases h
  | closeRead h | dup2 h | execlp h | execlpFails h | psWrites h | psExits h =>
      rw [hchild] at h
      cases h

theorem psAux_result_pid : ∃ s : State, (program (literal "PID\n")).Run 13 s ∧
    s.child = .reaped ∧ s.screen = literal "PID\n" := by
  have h₀ : (program (literal "PID\n")).Run 0 _ := .init rfl
  have h₁ := h₀.step (.pipe rfl)
  have h₂ := h₁.step (.fork rfl)
  have h₃ := h₂.step (.closeRead rfl)
  have h₄ := h₃.step (.dup2 rfl)
  have h₅ := h₄.step (.execlp rfl)
  have h₆ := h₅.step (.closeWrite rfl)
  have h₇ := h₆.step (.psWrites rfl 4 (by decide) (by decide) (by decide))
  have h₈ := h₇.step (.read rfl 4 (by decide) (by decide) (by decide))
  have h₉ := h₈.step (.psExits rfl rfl)
  have h₁₀ := h₉.step (.print rfl (literal "PID\n") (by decide +kernel))
  have h₁₁ := h₁₀.step (.memset rfl)
  have h₁₂ := h₁₁.step (.readEnd rfl rfl rfl)
  have h₁₃ := h₁₂.step (.wait rfl rfl)
  obtain ⟨-, hchild, hscreen⟩ := (psAux_result h₁₃).2 (reaped_stuck rfl rfl)
  exact ⟨_, h₁₃, rfl, (hscreen rfl).mpr (by decide)⟩

end LinuxServer.PsAux
