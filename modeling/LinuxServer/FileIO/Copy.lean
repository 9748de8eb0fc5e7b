import LinuxServer.Framework.CInt
import LinuxServer.Framework.Files
import LinuxServer.Framework.Reachability
import LinuxServer.Framework.TerminatedText

/-!
# Copying `english.txt` to `cpy.txt`

Two programs make the copy. One reads and writes in turn until `read` returns `0`
or fails; it does not look at what `write` returned and opens `cpy.txt` without
`O_TRUNC`. The other one maps both files and copies the memory; it keeps the
length in an `int` and lengthens `cpy.txt` first.

- §1 `read` and `write`
- §2 its invariant
- §3 what it leaves in `cpy.txt`
- §4 `mmap` and `memcpy`
- §5 what that leaves in `cpy.txt`
-/

namespace LinuxServer.Copy

open LinuxServer.Framework

/-! ## §1  `read` and `write` -/

/-- `char buf[1024]`. -/
abbrev CopyBuf : Type := Buf Byte 1024

/-- Where `main` is, with the number of bytes to write. -/
inductive Pc where
  | openSrc
  | openDest
  | read
  | write (len : ℕ)
  | closeDest
  | closeSrc
  | exited (status : ℤ)
deriving DecidableEq

structure State where
  pc : Pc
  buf : CopyBuf
  /-- The offsets of `srcfd` and `destfd`. -/
  srcOff : ℕ
  destOff : ℕ
  /-- `cpy.txt`, if it exists. -/
  cpy : Option (List Byte)
  -- kept for the statements: the bytes written, the number of bytes that were
  -- read and not written, and whether `read` failed
  written : List Byte
  lost : ℕ
  failed : Bool

/-- What `read` stores. -/
def chunk (english : List Byte) (off len : ℕ) : List Byte := (english.drop off).take len

theorem length_chunk_le (english : List Byte) (off len : ℕ) :
    (chunk english off len).length ≤ len := List.length_take_le ..

inductive Step (english : List Byte) : State → State → Prop where
  | openSrc {s : State} (hpc : s.pc = .openSrc) : Step english s { s with pc := .openDest }
  | openSrcFails {s : State} (hpc : s.pc = .openSrc) :
      Step english s { s with pc := .exited (-1) }
  /-- `O_WRONLY | O_CREAT`: what the file holds is kept. -/
  | openDest {s : State} (hpc : s.pc = .openDest) :
      Step english s { s with pc := .read, cpy := some (s.cpy.getD []) }
  | openDestFails {s : State} (hpc : s.pc = .openDest) :
      Step english s { s with pc := .exited (-1) }
  /-- `read` may return less than there is. -/
  | read {s : State} (hpc : s.pc = .read) (len : ℕ) (hpos : 0 < len) (hlen : len ≤ 1024)
      (hoff : s.srcOff + len ≤ english.length) :
      Step english s { s with
        pc := .write len
        buf := s.buf.overwrite (chunk english s.srcOff len)
          (le_trans (length_chunk_le ..) hlen)
        srcOff := s.srcOff + len }
  | readEnd {s : State} (hpc : s.pc = .read) (hoff : s.srcOff = english.length) :
      Step english s { s with pc := .closeDest }
  /-- `-1` ends the loop as `0` does. -/
  | readFails {s : State} (hpc : s.pc = .read) :
      Step english s { s with pc := .closeDest, failed := true }
  /-- `write` may write less than it was given, or nothing when it fails. -/
  | write {s : State} {len : ℕ} (hpc : s.pc = .write len) (count : ℕ) (hcount : count ≤ len) :
      Step english s { s with
        pc := .read
        cpy := s.cpy.map (writeAt NUL · s.destOff (s.buf.cells.take count))
        destOff := s.destOff + count
        written := s.written ++ s.buf.cells.take count
        lost := s.lost + (len - count) }
  | closeDest {s : State} (hpc : s.pc = .closeDest) : Step english s { s with pc := .closeSrc }
  | closeSrc {s : State} (hpc : s.pc = .closeSrc) : Step english s { s with pc := .exited 0 }

/-- `english.txt` holds `english`, and `cpy.txt` holds `old` or does not exist. -/
def program (english : List Byte) (old : Option (List Byte)) : System State where
  init s := s = ⟨.openSrc, Buf.fill NUL 1024, 0, 0, old, [], 0, false⟩
  step := Step english

/-! ## §2  The invariant -/

/-- `cpy.txt` is open, or was closed after the loop. -/
def Pc.opened : Pc → Bool
  | .read | .write _ | .closeDest | .closeSrc | .exited 0 => true
  | _ => false

/-- The loop is over. -/
def Pc.ended : Pc → Bool
  | .closeDest | .closeSrc | .exited 0 => true
  | _ => false

/-- The bytes read and not given to `write` yet. -/
def State.pending (s : State) : List Byte :=
  match s.pc with
  | .write len => s.buf.cells.take len
  | _ => []

structure Inv (english : List Byte) (old : Option (List Byte)) (s : State) : Prop where
  cpy : s.cpy = if s.pc.opened then some (covered (old.getD []) s.written) else old
  dest : s.destOff = s.written.length
  off : s.srcOff ≤ english.length
  held : ∀ len, s.pc = .write len → len ≤ 1024
  sub : (s.written ++ s.pending).Sublist (english.take s.srcOff)
  count : s.written.length + s.lost + s.pending.length = s.srcOff
  early : s.pc.opened = false → s.written = []
  ended : s.pc.ended = true → s.failed = true ∨ s.srcOff = english.length

variable {english : List Byte} {old : Option (List Byte)} {s t : State}

theorem init_inv : Inv english old ⟨.openSrc, Buf.fill NUL 1024, 0, 0, old, [], 0, false⟩ where
  cpy := rfl
  dest := rfl
  off := Nat.zero_le _
  held _ h := by cases h
  sub := List.nil_sublist _
  count := rfl
  early _ := rfl
  ended h := by cases h

theorem State.pending_eq_nil (h : ∀ len, s.pc ≠ .write len) : s.pending = [] := by
  unfold State.pending
  split
  · rename_i len hpc
    exact absurd hpc (h len)
  · rfl

/-- A step to or from the loop. -/
theorem Inv.move {pc : Pc} {cpy : Option (List Byte)} {failed : Bool} (hi : Inv english old s)
    (hs : ∀ len, s.pc ≠ .write len) (ht : ∀ len, pc ≠ .write len)
    (hcpy : cpy = if pc.opened then some (covered (old.getD []) s.written) else old)
    (hearly : pc.opened = false → s.written = [])
    (hended : pc.ended = true → failed = true ∨ s.srcOff = english.length) :
    Inv english old { s with pc := pc, cpy := cpy, failed := failed } := by
  have hpending : ({ s with pc := pc, cpy := cpy, failed := failed } : State).pending =
      s.pending := by
    rw [State.pending_eq_nil hs, State.pending_eq_nil ht]
  exact ⟨hcpy, hi.dest, hi.off, fun len h => absurd h (ht len), hpending ▸ hi.sub,
    hpending ▸ hi.count, hearly, hended⟩

theorem read_inv {len : ℕ} (hi : Inv english old s) (hpc : s.pc = .read) (hlen : len ≤ 1024)
    (hoff : s.srcOff + len ≤ english.length) :
    Inv english old { s with
      pc := .write len
      buf := s.buf.overwrite (chunk english s.srcOff len) (le_trans (length_chunk_le ..) hlen)
      srcOff := s.srcOff + len } := by
  have hpending : s.pending = [] := State.pending_eq_nil (by simp [hpc])
  have hlength : (chunk english s.srcOff len).length = len := by
    rw [chunk, List.length_take, List.length_drop]
    omega
  have htake : (s.buf.overwrite (chunk english s.srcOff len)
      (le_trans (length_chunk_le ..) hlen)).cells.take len = chunk english s.srcOff len := by
    rw [Buf.overwrite_cells, List.take_left' hlength]
  have hsub := hi.sub
  have hcount := hi.count
  rw [hpending] at hsub hcount
  refine ⟨by rw [hi.cpy, hpc]; rfl, hi.dest, hoff, ?_, ?_, ?_, fun h => (by cases h),
    fun h => (by cases h)⟩
  · rintro _ ⟨⟩
    exact hlen
  · simp only [State.pending, htake, List.take_add]
    rw [List.append_nil] at hsub
    exact hsub.append (List.Sublist.refl _)
  · simp only [State.pending, htake, hlength]
    rw [← hcount, List.length_nil, Nat.add_zero]

theorem write_inv {len count : ℕ} (hi : Inv english old s) (hpc : s.pc = .write len)
    (hcount : count ≤ len) :
    Inv english old { s with
      pc := .read
      cpy := s.cpy.map (writeAt NUL · s.destOff (s.buf.cells.take count))
      destOff := s.destOff + count
      written := s.written ++ s.buf.cells.take count
      lost := s.lost + (len - count) } := by
  have hheld := hi.held len hpc
  have hlength : ∀ n ≤ len, (s.buf.cells.take n).length = n := fun n hn => by
    rw [List.length_take, s.buf.size]
    omega
  have hpending : s.pending = s.buf.cells.take len := by rw [State.pending, hpc]
  have hsub := hi.sub
  have htotal := hi.count
  rw [hpending] at hsub htotal
  rw [hlength len le_rfl] at htotal
  refine ⟨?_, ?_, hi.off, fun _ h => (by cases h), ?_, ?_, fun h => (by cases h),
    fun h => (by cases h)⟩
  · show s.cpy.map _ = some (covered (old.getD []) (s.written ++ s.buf.cells.take count))
    rw [hi.cpy, hpc, hi.dest]
    exact congrArg some (writeAt_covered ..)
  · show s.destOff + count = (s.written ++ s.buf.cells.take count).length
    rw [List.length_append, hlength count hcount, hi.dest]
  · show (s.written ++ s.buf.cells.take count ++ []).Sublist (english.take s.srcOff)
    rw [List.append_nil]
    refine List.Sublist.trans ?_ hsub
    exact (List.Sublist.refl _).append (List.take_sublist_take_left hcount)
  · show (s.written ++ s.buf.cells.take count).length + (s.lost + (len - count)) + 0 = s.srcOff
    rw [List.length_append, hlength count hcount]
    omega

theorem step_inv (hi : Inv english old s) (h : Step english s t) : Inv english old t := by
  have hcpy := hi.cpy
  cases h with
  | openSrc hpc | openSrcFails hpc | openDestFails hpc =>
      rw [hpc] at hcpy
      exact hi.move (by simp [hpc]) (by simp) hcpy (fun _ => hi.early (by rw [hpc]; rfl))
        (fun h => (by cases h))
  | openDest hpc =>
      rw [hpc] at hcpy
      refine hi.move (by simp [hpc]) (by simp) ?_ (fun h => (by cases h)) (fun h => (by cases h))
      rw [hi.early (by rw [hpc]; rfl), covered_nil, hcpy]
      rfl
  | read hpc len _ hlen hoff => exact read_inv hi hpc hlen hoff
  | readEnd hpc hoff =>
      rw [hpc] at hcpy
      exact hi.move (by simp [hpc]) (by simp) hcpy (fun h => (by cases h)) (fun _ => .inr hoff)
  | readFails hpc =>
      rw [hpc] at hcpy
      exact hi.move (by simp [hpc]) (by simp) hcpy (fun h => (by cases h)) (fun _ => .inl rfl)
  | write hpc count hcount => exact write_inv hi hpc hcount
  | closeDest hpc | closeSrc hpc =>
      rw [hpc] at hcpy
      exact hi.move (by simp [hpc]) (by simp) hcpy (fun h => (by cases h))
        (fun _ => hi.ended (by rw [hpc]; rfl))

theorem reachable_inv (h : (program english old).Reachable s) : Inv english old s := by
  apply System.invariant (I := Inv english old) _ _ h
  · rintro _ rfl
    exact init_inv
  · intro _ _ _ hi hst
    exact step_inv hi hst

/-! ## §3  What it leaves in `cpy.txt` -/

/-- Statements left at most. -/
def left (english : List Byte) (s : State) : ℕ :=
  match s.pc with
  | .openSrc => 2 * english.length + 5
  | .openDest => 2 * english.length + 4
  | .read => 2 * (english.length - s.srcOff) + 3
  | .write _ => 2 * (english.length - s.srcOff) + 4
  | .closeDest => 2
  | .closeSrc => 1
  | .exited _ => 0

theorem left_decreases (h : Step english s t) : left english t < left english s := by
  cases h with
  | read hpc len hpos hlen hoff =>
      unfold left
      rw [hpc]
      show 2 * (english.length - (s.srcOff + len)) + 4 < 2 * (english.length - s.srcOff) + 3
      omega
  | openDest hpc =>
      unfold left
      rw [hpc]
      show 2 * (english.length - s.srcOff) + 3 < 2 * english.length + 4
      omega
  | openSrc hpc | openSrcFails hpc | openDestFails hpc | readEnd hpc | readFails hpc
  | write hpc | closeDest hpc | closeSrc hpc =>
      simp only [left, hpc]
      omega

/-- Only a program that has ended cannot go on. -/
theorem exited_of_stuck (h : ∀ t, ¬ Step english s t) :
    ∃ status, s.pc = .exited status := by
  cases hpc : s.pc with
  | openSrc => exact absurd (.openSrc hpc) (h _)
  | openDest => exact absurd (.openDest hpc) (h _)
  | read => exact absurd (.readFails hpc) (h _)
  | write len => exact absurd (.write hpc 0 (Nat.zero_le _)) (h _)
  | closeDest => exact absurd (.closeDest hpc) (h _)
  | closeSrc => exact absurd (.closeSrc hpc) (h _)
  | exited status => exact ⟨status, rfl⟩

/-- **The copy.** Every run of the program is over after at most
`2 * english.length + 5` statements. If it ends with status `0`, then `cpy.txt` is
what it held before, with the bytes written over its beginning, and those are
`english.txt` with what got lost left out. If nothing got lost, the copy is exact iff
`cpy.txt` was not longer than `english.txt`. -/
theorem copy_result {n : ℕ} (h : (program english old).Run n s) :
    n ≤ 2 * english.length + 5 ∧ ((∀ t, ¬ Step english s t) → ∃ status, s.pc = .exited status ∧
      (status = 0 → s.written.Sublist english ∧
        s.cpy = some (covered (old.getD []) s.written) ∧
        (s.lost = 0 → s.failed = false →
          (s.cpy = some english ↔ (old.getD []).length ≤ english.length)))) := by
  have hi := reachable_inv h.reachable
  have hbound := System.Run.bounded (μ := left english) (b := 2 * english.length + 5)
    (fun _ h0 => by rw [h0]; rfl) (fun _ _ _ hst => left_decreases hst) h
  refine ⟨by omega, fun hstuck => ?_⟩
  obtain ⟨status, hpc⟩ := exited_of_stuck hstuck
  refine ⟨status, hpc, ?_⟩
  rintro rfl
  have hpending : s.pending = [] := State.pending_eq_nil (by simp [hpc])
  have hsub := hi.sub
  have hcount := hi.count
  rw [hpending, List.append_nil] at hsub
  rw [hpending, List.length_nil] at hcount
  have hcpy : s.cpy = some (covered (old.getD []) s.written) := by
    rw [hi.cpy, hpc]
    rfl
  refine ⟨hsub.trans (List.take_sublist ..), hcpy, fun hlost hfailed => ?_⟩
  have hoff : s.srcOff = english.length := by
    rcases hi.ended (by rw [hpc]; rfl) with hf | hoff
    · rw [hfailed] at hf
      cases hf
    · exact hoff
  have hwritten : s.written = english := by
    rw [hoff, List.take_length] at hsub
    exact hsub.eq_of_length (by omega)
  rw [hcpy, hwritten, Option.some_inj]
  exact covered_eq_iff ..

theorem exited_stuck {status : ℤ} (hpc : s.pc = .exited status) (t : State) :
    ¬ Step english s t := by
  intro h
  cases h with
  | openSrc h | openSrcFails h | openDest h | openDestFails h | read h | readEnd h
  | readFails h | write h | closeDest h | closeSrc h =>
      rw [hpc] at h
      cases h

/-- The end of a longer `cpy.txt` is still there. -/
theorem copy_leaves_tail : ∃ s : State,
    (program (literal "ab") (some (literal "xyz"))).Run 7 s ∧ s.pc = .exited 0 ∧
      s.lost = 0 ∧ s.cpy = some (literal "abz") ∧ s.cpy ≠ some (literal "ab") := by
  have h₀ : (program (literal "ab") (some (literal "xyz"))).Run 0 _ := .init rfl
  have h₁ := h₀.step (.openSrc rfl)
  have h₂ := h₁.step (.openDest rfl)
  have h₃ := h₂.step (.read rfl 2 (by decide) (by decide) (by decide))
  have h₄ := h₃.step (.write rfl 2 le_rfl)
  have h₅ := h₄.step (.readEnd rfl (by decide))
  have h₆ := h₅.step (.closeDest rfl)
  have h₇ := h₆.step (.closeSrc rfl)
  obtain ⟨status, hpc, hresult⟩ := (copy_result h₇).2 (exited_stuck rfl)
  obtain ⟨-, hcpy, hexact⟩ := hresult (Pc.exited.inj hpc).symm
  refine ⟨_, h₇, rfl, rfl, hcpy.trans (by decide +kernel), fun h => ?_⟩
  exact absurd ((hexact rfl rfl).mp h) (by decide)

/-! ## §4  `mmap` and `memcpy` -/

/-- Which calls succeed, where they can. -/
structure Calls where
  openEnglish : Bool
  openCpy : Bool
  truncate : Bool
  write : Bool
  mmapEnglish : Bool
  mmapCpy : Bool

def Calls.all : Calls := ⟨true, true, true, true, true, true⟩

/-- How the program ends: with a status and `cpy.txt`, or by `SIGBUS` when it
touches a page of a mapping that lies behind the end of the file. -/
inductive Outcome where
  | exit (status : ℤ) (cpy : Option (List Byte))
  | busError
deriving DecidableEq

/-- Pages that `n` bytes take. -/
def pages (n : ℕ) : ℕ := (n + 4095) / 4096

/-- The memory copied between the mappings. Bytes behind the end of `cpy.txt` do
not get into the file. -/
def memcpy (english cpy : List Byte) (len : ℕ) : Outcome :=
  if pages english.length < pages len ∨ pages cpy.length < pages len then .busError
  else .exit 0 (some ((english.take len).take cpy.length ++ cpy.drop len))

/-- `int len = lseek(fd, 0, SEEK_END)`. -/
def fileLen (english : List Byte) : ℤ := int english.length

/-- `truncate` refuses a negative length. -/
def truncate (ok : Calls) (len : ℤ) (cpy : List Byte) : List Byte :=
  if 0 ≤ len ∧ ok.truncate then resize NUL cpy len.toNat else cpy

/-- `write(fd1, " ", 1)`. -/
def writeBlank (ok : Calls) (cpy : List Byte) : List Byte :=
  if ok.write then writeAt NUL cpy 0 (literal " ") else cpy

/-- `main`. A negative `len` is a huge `size_t`, for which there is no room; `mmap`
refuses `0`. -/
def main (ok : Calls) (english : List Byte) (old : Option (List Byte)) : Outcome :=
  if !ok.openEnglish then .exit 0 old
  else
    let len := fileLen english
    if !ok.openCpy then .exit 0 old
    else
      let cpy := writeBlank ok (truncate ok len (old.getD []))
      if ¬ (0 < len ∧ ok.mmapEnglish) then .exit 0 (some cpy)
      else if ¬ (0 < len ∧ ok.mmapCpy) then .exit 0 (some cpy)
      else memcpy english cpy len.toNat

/-! ## §5  What that leaves in `cpy.txt` -/

end LinuxServer.Copy
