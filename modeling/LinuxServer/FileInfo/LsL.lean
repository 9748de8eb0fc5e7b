import LinuxServer.Framework.Decimal
import LinuxServer.Framework.TerminatedText

/-!
# `ls-l.c`

The program prints for one file what `ls -l` prints: type and permissions, number
of links, owner, group, size, time of the last change and name. The line is put
together with `sprintf` in `buf[1024]`, whatever the length of the name.

- §1 type and permissions
- §2 the program
- §3 what the first column tells
- §4 which names fit
-/

namespace LinuxServer.LsL

open LinuxServer.Framework

/-! ## §1  Type and permissions -/

/-- `mode_t`. -/
abbrev Mode : Type := BitVec 32

def S_IFMT : Mode := 0o170000

/-- The cases of `switch(st.st_mode & S_IFMT)`: `S_IFLNK`, `S_IFDIR`, `S_IFREG`,
`S_IFBLK`, `S_IFCHR`, `S_IFSOCK` and `S_IFIFO`. -/
def fileTypes : List (Mode × Byte) :=
  [(0o120000, letter 'l'), (0o040000, letter 'd'), (0o100000, letter '-'),
    (0o060000, letter 'b'), (0o020000, letter 'c'), (0o140000, letter 's'),
    (0o010000, letter 'p')]

def typeLetter (mode : Mode) : Byte :=
  (fileTypes.lookup (mode &&& S_IFMT)).getD (letter '?')

/-- The nine bits in the order of the assignments to `perms`: `S_IRUSR`, `S_IWUSR`,
`S_IXUSR`, `S_IRGRP`, `S_IWGRP`, `S_IXGRP`, `S_IROTH`, `S_IWOTH` and `S_IXOTH`. -/
def permissions : List (Mode × Byte) :=
  [(0o400, letter 'r'), (0o200, letter 'w'), (0o100, letter 'x'),
    (0o040, letter 'r'), (0o020, letter 'w'), (0o010, letter 'x'),
    (0o004, letter 'r'), (0o002, letter 'w'), (0o001, letter 'x')]

/-- `(st.st_mode & S_IRUSR) ? 'r' : '-'`. -/
def flag (mode : Mode) (p : Mode × Byte) : Byte :=
  if mode &&& p.1 ≠ 0 then p.2 else letter '-'

/-- What is assigned to `perms[0]` to `perms[9]`. -/
def permsText (mode : Mode) : List Byte := typeLetter mode :: permissions.map (flag mode)

/-- `char perms[11] = {0};` after the assignments. -/
def perms (mode : Mode) : Buf Byte 11 :=
  (Buf.fill NUL 11).overwrite (permsText mode) (by simp [permsText, permissions])

/-! ## §2  The program -/

structure Stat where
  mode : Mode
  nlink : BitVec 64
  uid : BitVec 32
  gid : BitVec 32
  size : BitVec 64
  mtime : BitVec 64

/-- What the program asks the system; `none` is an error or `NULL`. -/
structure Sys where
  stat : CString → Option Stat
  getpwuid : BitVec 32 → Option CString
  getgrgid : BitVec 32 → Option CString
  ctime : BitVec 64 → Option CString

/-- How a run ends. -/
inductive Outcome where
  | usage (line : List Byte)
  | perror (message : String)
  /-- `NULL` was dereferenced, or a text had no terminator. -/
  | crash
  /-- `sprintf` wrote behind the end of `buf`. -/
  | overflow
  | listed (line : List Byte)

/-- `int linkNum = st.st_nlink;`. -/
def linkNum (st : Stat) : Int := (st.nlink.truncate 32).toInt

/-- `mtime` after `strncpy(mtime, time, strlen(time) - 1)`, as `%s` finds it. The
length is unsigned, and `mtime` has 512 elements. -/
def mtimeText (time : CString) : Option (List Byte) :=
  if h : 0 < time.bytes.length ∧ time.bytes.length - 1 ≤ 512 then
    upTo NUL ((Buf.fill NUL 512).overwrite (time.bytes.take (time.bytes.length - 1)) (by
      rw [List.length_take]
      omega)).cells
  else none

/-- `"%s %d %s %s %ld %s %s"`. -/
def format (perms : List Byte) (linkNum : Int) (fileUser fileGrp : CString) (fileSize : Int)
    (mtime : List Byte) (name : CString) : List Byte :=
  perms ++ literal " " ++ decimal linkNum ++ literal " " ++ fileUser.bytes ++ literal " " ++
    fileGrp.bytes ++ literal " " ++ decimal fileSize ++ literal " " ++ mtime ++ literal " " ++
    name.bytes

/-- `sprintf(buf, ...)` with `char buf[1024]`, and the `printf`. -/
def printLine (line : List Byte) : Outcome :=
  if line.length < 1024 then .listed line else .overflow

/-- `main`, with `argv[0]` apart. -/
def main (sys : Sys) (argv0 : CString) : List CString → Outcome
  | [] => .usage (argv0.bytes ++ literal " filename")
  | name :: _ =>
      match sys.stat name with
      | none => .perror "stat"
      | some st =>
          match upTo NUL (perms st.mode).cells, sys.getpwuid st.uid, sys.getgrgid st.gid,
            (sys.ctime st.mtime).bind mtimeText with
          | some perms, some fileUser, some fileGrp, some mtime =>
              printLine (format perms (linkNum st) fileUser fileGrp st.size.toInt mtime name)
          | _, _, _, _ => .crash

/-! ## §3  What the first column tells -/

/-- The type is one of the seven that the `switch` knows. -/
def Known (mode : Mode) : Prop := ∃ b, (mode &&& S_IFMT, b) ∈ fileTypes

/-- The letter of a known type stands in the table; the others share `?`. -/
theorem typeLetter_cases (mode : Mode) :
    (mode &&& S_IFMT, typeLetter mode) ∈ fileTypes ∨
      ¬ Known mode ∧ typeLetter mode = letter '?' := by
  unfold typeLetter
  cases hl : fileTypes.lookup (mode &&& S_IFMT) with
  | some b =>
      obtain ⟨before, after, heq, -⟩ := List.lookup_eq_some_iff.mp hl
      left
      rw [heq]
      exact List.mem_append_right _ List.mem_cons_self
  | none =>
      right
      refine ⟨?_, rfl⟩
      rintro ⟨b, hb⟩
      exact absurd (List.lookup_eq_none_iff.mp hl _ hb) (by simp)

theorem typeLetter_eq_iff (m m' : Mode) :
    typeLetter m = typeLetter m' ↔
      m &&& S_IFMT = m' &&& S_IFMT ∨ ¬ Known m ∧ ¬ Known m' := by
  have hnodup : (fileTypes.map Prod.snd).Nodup := by decide
  have hne : letter '?' ∉ fileTypes.map Prod.snd := by decide
  constructor
  · intro h
    rcases typeLetter_cases m with hm | ⟨hm, hq⟩ <;>
      rcases typeLetter_cases m' with hm' | ⟨hm', hq'⟩
    · exact .inl (congrArg Prod.fst (List.inj_on_of_nodup_map hnodup hm hm' h))
    · exact absurd (List.mem_map_of_mem hm) (h.trans hq' ▸ hne)
    · exact absurd (List.mem_map_of_mem hm') (h.symm.trans hq ▸ hne)
    · exact .inr ⟨hm, hm'⟩
  · rintro (h | ⟨hm, hm'⟩)
    · unfold typeLetter
      rw [h]
    · rcases typeLetter_cases m with h | ⟨-, hq⟩
      · exact absurd ⟨_, h⟩ hm
      rcases typeLetter_cases m' with h | ⟨-, hq'⟩
      · exact absurd ⟨_, h⟩ hm'
      rw [hq, hq']

theorem flag_eq_iff (m m' : Mode) {p : Mode × Byte} (hp : p ∈ permissions) :
    flag m p = flag m' p ↔ (m &&& p.1 ≠ 0 ↔ m' &&& p.1 ≠ 0) := by
  have hne : letter '-' ∉ permissions.map Prod.snd := by decide
  have hdash : p.2 ≠ letter '-' := fun h => hne (h ▸ List.mem_map_of_mem hp)
  unfold flag
  by_cases h : m &&& p.1 ≠ 0
  · by_cases h' : m' &&& p.1 ≠ 0
    · rw [if_pos h, if_pos h']
      exact iff_of_true rfl (iff_of_true h h')
    · rw [if_pos h, if_neg h']
      exact iff_of_false hdash fun hiff => h' (hiff.mp h)
  · by_cases h' : m' &&& p.1 ≠ 0
    · rw [if_neg h, if_pos h']
      exact iff_of_false hdash.symm fun hiff => h (hiff.mpr h')
    · rw [if_neg h, if_neg h']
      exact iff_of_true rfl (iff_of_false h h')

/-- The nine permissions are the nine lowest bits. -/
theorem permissions_bits :
    (∀ p ∈ permissions, ∃ k < 9, p.1 = BitVec.twoPow 32 k) ∧
      ∀ k < 9, ∃ p ∈ permissions, p.1 = BitVec.twoPow 32 k := by
  have hbits : permissions.map Prod.fst = (List.range 9).reverse.map (BitVec.twoPow 32) := by
    decide
  constructor
  · intro p hp
    have hmem := List.mem_map_of_mem (f := Prod.fst) hp
    rw [hbits] at hmem
    obtain ⟨k, hk, heq⟩ := List.mem_map.mp hmem
    exact ⟨k, List.mem_range.mp (List.mem_reverse.mp hk), heq.symm⟩
  · intro k hk
    have hmem : BitVec.twoPow 32 k ∈ permissions.map Prod.fst := by
      rw [hbits]
      exact List.mem_map_of_mem (List.mem_reverse.mpr (List.mem_range.mpr hk))
    exact List.mem_map.mp hmem

theorem and_twoPow_ne_zero (m : Mode) {k : ℕ} (hk : k < 9) :
    m &&& BitVec.twoPow 32 k ≠ 0 ↔ m.getLsbD k = true := by
  have hne : ∀ k < 9, BitVec.twoPow 32 k ≠ 0 := by decide
  rw [BitVec.and_twoPow]
  cases m.getLsbD k with
  | true => simpa using hne k hk
  | false => simp

/-- The nine flags tell the nine lowest bits. -/
theorem flags_eq_iff (m m' : Mode) :
    permissions.map (flag m) = permissions.map (flag m') ↔
      m &&& 0o777 = m' &&& 0o777 := by
  have hmask : ∀ k < 32, BitVec.getLsbD (0o777 : Mode) k = decide (k < 9) := by decide
  rw [List.map_inj_left]
  constructor
  · intro h
    apply BitVec.eq_of_getLsbD_eq
    intro k hk
    rw [BitVec.getLsbD_and, BitVec.getLsbD_and, hmask k hk]
    by_cases hk9 : k < 9
    · obtain ⟨p, hp, hbit⟩ := permissions_bits.2 k hk9
      have hiff := (flag_eq_iff m m' hp).mp (h p hp)
      rw [hbit, and_twoPow_ne_zero m hk9, and_twoPow_ne_zero m' hk9] at hiff
      rw [Bool.eq_iff_iff.mpr hiff]
    · simp [hk9]
  · intro h p hp
    obtain ⟨k, hk, hbit⟩ := permissions_bits.1 p hp
    rw [flag_eq_iff m m' hp, hbit, and_twoPow_ne_zero m hk, and_twoPow_ne_zero m' hk]
    have hbits := congrArg (fun x => BitVec.getLsbD x k) h
    simp only [BitVec.getLsbD_and, hmask k (by omega), hk, decide_true, Bool.and_true] at hbits
    rw [hbits]

/-- No letter of the column is a terminator. -/
theorem permsText_no_nul (mode : Mode) : NUL ∉ permsText mode := by
  have htype : NUL ∉ fileTypes.map Prod.snd := by decide
  have hperm : NUL ∉ permissions.map Prod.snd := by decide
  unfold permsText
  rw [List.mem_cons, not_or]
  constructor
  · rcases typeLetter_cases mode with h | ⟨-, h⟩
    · exact fun hnul => htype (hnul ▸ List.mem_map_of_mem h)
    · rw [h]
      decide
  · intro h
    obtain ⟨p, hp, heq⟩ := List.mem_map.mp h
    unfold flag at heq
    split at heq
    · exact hperm (heq ▸ List.mem_map_of_mem hp)
    · exact absurd heq (by decide)

theorem permsText_length (mode : Mode) : (permsText mode).length = 10 := by
  simp [permsText, permissions]

/-- So all ten are printed. -/
theorem perms_text (mode : Mode) : upTo NUL (perms mode).cells = some (permsText mode) := by
  unfold perms
  rw [upTo_overwrite_eq_some_iff (permsText_no_nul mode), permsText_length]
  exact Buf.fill_getElem? (by decide)

/-- **What the first column tells.** Two files show the same column iff they have
the same type, or both one the program does not know, and the same nine permission
bits; set-user-id, set-group-id and the sticky bit are not shown. -/
theorem first_column_eq_iff (m m' : Mode) :
    upTo NUL (perms m).cells = upTo NUL (perms m').cells ↔
      (m &&& S_IFMT = m' &&& S_IFMT ∨ ¬ Known m ∧ ¬ Known m') ∧
        m &&& 0o777 = m' &&& 0o777 := by
  rw [perms_text, perms_text, Option.some.injEq]
  unfold permsText
  rw [List.cons.injEq, typeLetter_eq_iff, flags_eq_iff]

example : upTo NUL (perms 0o100644).cells = some (literal "-rw-r--r--") := by decide +kernel

/-! ## §4  Which names fit -/

/-- `%d` takes at most 11 characters, `%ld` at most 20. -/
theorem linkNum_length_le (st : Stat) : (decimal (linkNum st)).length ≤ 11 := by
  apply decimal_length_le (by decide)
  have h₁ := BitVec.le_toInt (st.nlink.truncate 32)
  have h₂ := BitVec.toInt_lt (x := st.nlink.truncate 32)
  unfold linkNum
  omega

theorem size_length_le (st : Stat) : (decimal st.size.toInt).length ≤ 20 := by
  apply decimal_length_le (by decide)
  have h₁ := BitVec.le_toInt st.size
  have h₂ := BitVec.toInt_lt (x := st.size)
  omega

theorem format_length (perms mtime : List Byte) (linkNum fileSize : Int)
    (fileUser fileGrp name : CString) :
    (format perms linkNum fileUser fileGrp fileSize mtime name).length =
      perms.length + (decimal linkNum).length + fileUser.bytes.length +
        fileGrp.bytes.length + (decimal fileSize).length + mtime.length +
        name.bytes.length + 6 := by
  have hspace : (literal " ").length = 1 := by decide
  unfold format
  simp only [List.length_append, hspace]
  omega

/-- A time without its newline, as `ctime` gives it for years of four digits. -/
theorem mtimeText_eq {time : CString} (h : time.bytes.length = 25) :
    mtimeText time = some (time.bytes.take 24) := by
  have hnul : NUL ∉ time.bytes.take 24 := fun hm => time.noNul (List.mem_of_mem_take hm)
  have hlen : (time.bytes.take 24).length = 24 := by
    rw [List.length_take, h]
    rfl
  unfold mtimeText
  rw [dif_pos ⟨by omega, by omega⟩]
  simp only [h]
  rw [upTo_overwrite_eq_some_iff hnul, hlen]
  exact Buf.fill_getElem? (by decide)

section

variable {sys : Sys} {st : Stat} {argv0 name fileUser fileGrp time : CString}
  {args : List CString} (hstat : sys.stat name = some st)
  (huser : sys.getpwuid st.uid = some fileUser) (hgrp : sys.getgrgid st.gid = some fileGrp)
  (hctime : sys.ctime st.mtime = some time) (htime : time.bytes.length = 25)

include hstat huser hgrp hctime htime

theorem main_eq : main sys argv0 (name :: args) =
    printLine (format (permsText st.mode) (linkNum st) fileUser fileGrp st.size.toInt
      (time.bytes.take 24) name) := by
  unfold main
  simp only [hstat, perms_text, huser, hgrp, hctime, Option.bind_some, mtimeText_eq htime]

/-- **Which names fit in `buf`.** A file that is found and whose owner and group
are known by names of at most 32 bytes is listed if its name has at most 888 bytes;
a name of 982 bytes or more always overflows `buf`. -/
theorem ls_l_names_fit :
    (fileUser.bytes.length ≤ 32 → fileGrp.bytes.length ≤ 32 → name.bytes.length ≤ 888 →
      ∃ line, main sys argv0 (name :: args) = .listed line) ∧
    (982 ≤ name.bytes.length → main sys argv0 (name :: args) = .overflow) := by
  have hmtime : (time.bytes.take 24).length = 24 := by
    rw [List.length_take, htime]
    rfl
  have hlength := format_length (permsText st.mode) (time.bytes.take 24) (linkNum st)
    st.size.toInt fileUser fileGrp name
  rw [permsText_length, hmtime] at hlength
  rw [main_eq hstat huser hgrp hctime htime]
  unfold printLine
  constructor
  · intro hu hg hn
    have h₁ := linkNum_length_le st
    have h₂ := size_length_le st
    exact ⟨_, if_pos (by omega)⟩
  · intro hn
    have h₁ := decimal_length_pos (linkNum st)
    have h₂ := decimal_length_pos st.size.toInt
    exact if_neg (by omega)

end

/-- A path that consists of slashes. -/
def slashes (n : ℕ) : CString := ⟨List.replicate n (letter '/'), by
  rw [List.mem_replicate]
  rintro ⟨-, h⟩
  exact absurd h (by decide)⟩

/-- A system with nothing but the root directory, which every path of slashes
names that the kernel accepts. -/
def rootSys : Sys where
  stat path :=
    if !path.bytes.isEmpty && path.bytes.length < 4096 && path.bytes.all (· == letter '/') then
      some ⟨0o040755, 19, 0, 0, 4096, 0⟩
    else none
  getpwuid _ := some ⟨literal "root", by decide⟩
  getgrgid _ := some ⟨literal "root", by decide⟩
  ctime _ := some ⟨literal "Thu Jan  1 00:00:00 1970\n", by decide⟩

theorem rootSys_stat {n : ℕ} (hpos : 0 < n) (hlt : n < 4096) :
    rootSys.stat (slashes n) = some ⟨0o040755, 19, 0, 0, 4096, 0⟩ := by
  apply if_pos
  simp [slashes, hlt, hpos.ne']

/-- The root directory is listed under a path of 888 slashes, and one of 982
overflows `buf`. -/
theorem ls_l_root_twice :
    (∃ line, main rootSys ⟨literal "ls", by decide⟩ [slashes 888] = .listed line) ∧
      main rootSys ⟨literal "ls", by decide⟩ [slashes 982] = .overflow :=
  ⟨(ls_l_names_fit (rootSys_stat (by decide) (by decide)) rfl rfl rfl (by decide)).1
      (by decide) (by decide) (List.length_replicate ..).le,
    (ls_l_names_fit (rootSys_stat (by decide) (by decide)) rfl rfl rfl (by decide)).2
      (List.length_replicate ..).ge⟩

end LinuxServer.LsL
