import LinuxServer.Framework.CInt
import LinuxServer.FileNum.Paths

/-!
# `readFileNum.c`

The program that counts the regular files below a directory: `getFileNum`
with every branch, and `main` around it. What the kernel decides is a
parameter: the tree, the types it reports and the order of each listing
(`FileSystem`), the calls that fail (`Faults`) and the old contents of the
uninitialised `newpath`.
-/

namespace LinuxServer.FileNum

open LinuxServer.Framework

/-! ## The kernel's side -/

inductive DType where
  | unknown
  | fifo
  | chr
  | dir
  | blk
  | reg
  | lnk
  | sock
deriving DecidableEq

/-- The two fields of `struct dirent` the program reads. -/
structure Dirent where
  d_name : CString
  d_type : DType
deriving DecidableEq

def FileName.cstring (n : FileName) : CString := ⟨n.bytes, n.noNul⟩

def LeafType.d_type : LeafType → DType
  | .fifo => .fifo
  | .chr => .chr
  | .blk => .blk
  | .reg => .reg
  | .sock => .sock

/-- An entry with its type. -/
def Entry.dirent : Entry → Dirent
  | .dir n _ => ⟨n.cstring, .dir⟩
  | .link n _ => ⟨n.cstring, .lnk⟩
  | .leaf n t => ⟨n.cstring, t.d_type⟩

def dotEnt : Dirent := ⟨⟨dot, by decide⟩, .dir⟩

def dotDotEnt : Dirent := ⟨⟨dotDot, by decide⟩, .dir⟩

/-- How `readdir` reports an entry of the directory at `l`: with its type, or
with `DT_UNKNOWN`. -/
def report (typed : Loc → Bool) (l : Loc) (ptr : Dirent) : Dirent :=
  if typed (l ++ [ptr.d_name.bytes]) then ptr else { ptr with d_type := .unknown }

/-- A tree together with the entries whose type is reported and the order in
which each directory is listed. -/
structure FileSystem where
  root : List Entry
  ok : EntriesOk root
  typed : Loc → Bool
  listing : Loc → List Dirent
  listing_perm : ∀ l es, dirAt root l = some es →
    (listing l).Perm
      ((dotEnt :: dotDotEnt :: es.map Entry.dirent).map (report typed l))

/-- The file system that reports all types and lists every directory in the
order of the tree. -/
def FileSystem.ofTree (root : List Entry) (ok : EntriesOk root) : FileSystem where
  root := root
  ok := ok
  typed _ := true
  listing l :=
    match dirAt root l with
    | some es => dotEnt :: dotDotEnt :: es.map Entry.dirent
    | none => []
  listing_perm l es h := by
    have hid : report (fun _ => true) l = id := funext fun _ => if_pos rfl
    rw [h, hid, List.map_id]

/-- What the program gets to see of the directory at `l`, which holds `es`. -/
def FileSystem.seen (fs : FileSystem) (l : Loc) (es : List Entry) : List Entry :=
  shown fs.typed l es

/-- The failures of one walk: the directories `opendir` refuses, and those
whose `readdir` reports an error, after how many entries. -/
structure Faults (fs : FileSystem) where
  opendir : Loc → Bool
  readdir : Loc → Option ℕ
  readdir_le : ∀ l n, readdir l = some n → n ≤ (fs.listing l).length

def noFaults (fs : FileSystem) : Faults fs where
  opendir _ := false
  readdir _ := none
  readdir_le _ _ h := absurd h (by simp)

/-! ## The program -/

/-- The ways `getFileNum` does not return: `exit` after a `perror`, a
`sprintf` past the end of `newpath`, and a recursion deeper than `fuel`. -/
inductive Stop where
  | exit (message : String) (status : Int)
  | overflow
  | fuel
deriving DecidableEq

/-- `char newpath[256]; sprintf(newpath, "%s/%s", path, dname);`, checked, and
then read back as the argument of the recursive call. -/
def newpath (old : Buf Byte 256) (path dname : CString) : Except Stop CString :=
  let text := path.bytes ++ slash :: dname.bytes ++ [NUL]
  if h : text.length ≤ 256 then
    match (old.overwrite text h).cstring with
    | some s => .ok s
    | none => .error .overflow
  else .error .overflow

section GetFileNum

variable (fs : FileSystem) (f : Faults fs) (old : CString → CString → Buf Byte 256)

/-- `opendir(path)`: the entries `readdir` will return before its first
`NULL`. An error and the end of the directory look the same from there on. -/
def opendir (path : CString) : Option (List Dirent) :=
  match resolve fs.root path.bytes with
  | none => none
  | some l =>
      if f.opendir l then none
      else
        match f.readdir l with
        | none => some (fs.listing l)
        | some n => some ((fs.listing l).take n)

/-- `strcmp(dname, ".") == 0 || strcmp(dname, "..") == 0`. -/
abbrev IsDotName (ptr : Dirent) : Prop :=
  ptr.d_name.bytes = dot ∨ ptr.d_name.bytes = dotDot

/-- `getFileNum(newpath)` for the entry `dname`. -/
def descend (call : CString → Except Stop Int) (path dname : CString) :
    Except Stop Int :=
  (newpath (old path dname) path dname).bind call

/-- `while((ptr = readdir(dir)) != NULL) { ... } return total;`. -/
def readLoop (call : CString → Except Stop Int) (path : CString) :
    List Dirent → Int → Except Stop Int
  | [], total => .ok total
  | ptr :: rest, total =>
      if IsDotName ptr then readLoop call path rest total
      else
        (if ptr.d_type = .dir then
          (descend old call path ptr.d_name).map fun n => int (total + n)
        else .ok total).bind fun total =>
          readLoop call path rest
            (if ptr.d_type = .reg then int (total + 1) else total)

def getFileNum : ℕ → CString → Except Stop Int
  | 0, _ => .error .fuel
  | fuel + 1, path =>
      match opendir fs f path with
      | none => .error (.exit "opendir" 0)
      | some dir => readLoop old (getFileNum fuel) path dir 0

/-- What the program prints on stdout. -/
inductive Line where
  | usage (prog : CString)
  | count (num : Int)
deriving DecidableEq

/-- How a run of the program ends: with an exit status, what is on stdout and
the message given to `perror`; in an access C gives no meaning to; or not
within `fuel`. -/
inductive Outcome where
  | ended (status : Int) (stdout : List Line) (stderr : List String)
  | undefined
  | unfinished
deriving DecidableEq

/-- The rest of `main` once `getFileNum` has returned `num`; an `exit` inside it
ends the program there. -/
def finish : Except Stop Int → Outcome
  | .ok num => .ended 0 [.count num] []
  | .error (.exit message status) => .ended status [] [message]
  | .error .overflow => .undefined
  | .error .fuel => .unfinished

/-- `main`, with `argv[0]` and the arguments after it. -/
def main (fuel : ℕ) (prog : CString) : List CString → Outcome
  | [] => .ended (-1) [.usage prog] []
  | path :: _ => finish (getFileNum fs f old fuel path)

end GetFileNum

/-! ## One lemma for each part -/

/-- `path/dname`, when it fits. -/
theorem newpath_fits (old : Buf Byte 256) {path : CString} (dname : CString)
    (h : path.bytes.length + 1 + dname.bytes.length + 1 ≤ 256) :
    ∃ s : CString, newpath old path dname = .ok s ∧
      s.bytes = path.bytes ++ slash :: dname.bytes := by
  have hlen : (path.bytes ++ slash :: dname.bytes ++ [NUL]).length ≤ 256 := by
    simp only [List.length_append, List.length_cons, List.length_nil]
    omega
  have hnul : NUL ∉ path.bytes ++ slash :: dname.bytes := by
    rw [List.mem_append, List.mem_cons]
    rintro (h | h | h)
    · exact path.noNul h
    · exact absurd h (by decide)
    · exact dname.noNul h
  refine ⟨⟨path.bytes ++ slash :: dname.bytes, hnul⟩, ?_, rfl⟩
  have hread : (old.overwrite _ hlen).cstring =
      some ⟨path.bytes ++ slash :: dname.bytes, hnul⟩ :=
    Buf.cstring_eq_some (overwrite_terminated hnul)
  rw [newpath]
  simp only [dif_pos hlen, hread]

theorem newpath_overflows (old : Buf Byte 256) {path : CString} (dname : CString)
    (h : ¬ path.bytes.length + 1 + dname.bytes.length + 1 ≤ 256) :
    newpath old path dname = .error .overflow := by
  have hlen : ¬ (path.bytes ++ slash :: dname.bytes ++ [NUL]).length ≤ 256 := by
    simp only [List.length_append, List.length_cons, List.length_nil]
    omega
  rw [newpath]
  exact dif_neg hlen

/-- An entry for which `getFileNum` calls itself. -/
def IsSubdir (ptr : Dirent) : Prop := ¬ IsDotName ptr ∧ ptr.d_type = .dir

section ReadLoop

variable {old : CString → CString → Buf Byte 256}
variable {call call' : CString → Except Stop Int} {path : CString}
variable {ptr : Dirent} {rest ds : List Dirent} {total : Int}

theorem readLoop_dot (h : IsDotName ptr) :
    readLoop old call path (ptr :: rest) total =
      readLoop old call path rest total := by
  rw [readLoop, if_pos h]

theorem readLoop_dir (h : IsSubdir ptr) :
    readLoop old call path (ptr :: rest) total =
      (descend old call path ptr.d_name).bind fun n =>
        readLoop old call path rest (int (total + n)) := by
  rw [readLoop, if_neg h.1, if_pos h.2]
  cases descend old call path ptr.d_name with
  | error s => rfl
  | ok n =>
      rw [h.2]
      rfl

theorem readLoop_reg (h : ¬ IsDotName ptr) (ht : ptr.d_type = .reg) :
    readLoop old call path (ptr :: rest) total =
      readLoop old call path rest (int (total + 1)) := by
  rw [readLoop, if_neg h, ht]
  rfl

theorem readLoop_other (h : ¬ IsDotName ptr) (hd : ptr.d_type ≠ .dir)
    (hr : ptr.d_type ≠ .reg) :
    readLoop old call path (ptr :: rest) total =
      readLoop old call path rest total := by
  rw [readLoop, if_neg h, if_neg hd]
  show readLoop old call path rest (if ptr.d_type = .reg then _ else _) = _
  rw [if_neg hr]

/-- The five ways through the body of the loop. -/
theorem readLoop_cons (old : CString → CString → Buf Byte 256)
    (call : CString → Except Stop Int) (path : CString) (ptr : Dirent)
    (rest : List Dirent) (total : Int) :
    (¬ IsSubdir ptr ∧ ∃ total', readLoop old call path (ptr :: rest) total =
        readLoop old call path rest total') ∨
      (IsSubdir ptr ∧ ∃ n, descend old call path ptr.d_name = .ok n ∧
        readLoop old call path (ptr :: rest) total =
          readLoop old call path rest (int (total + n))) ∨
      (IsSubdir ptr ∧ ∃ s, descend old call path ptr.d_name = .error s ∧
        readLoop old call path (ptr :: rest) total = .error s) := by
  by_cases hdot : IsDotName ptr
  · exact Or.inl ⟨fun h => h.1 hdot, total, readLoop_dot hdot⟩
  · by_cases hdir : ptr.d_type = .dir
    · have hsub : IsSubdir ptr := ⟨hdot, hdir⟩
      cases hd : descend old call path ptr.d_name with
      | ok n =>
          refine Or.inr (Or.inl ⟨hsub, n, rfl, ?_⟩)
          rw [readLoop_dir hsub, hd]
          rfl
      | error s =>
          refine Or.inr (Or.inr ⟨hsub, s, rfl, ?_⟩)
          rw [readLoop_dir hsub, hd]
          rfl
    · refine Or.inl ⟨fun h => hdir h.2, ?_⟩
      by_cases hreg : ptr.d_type = .reg
      · exact ⟨_, readLoop_reg hdot hreg⟩
      · exact ⟨total, readLoop_other hdot hdir hreg⟩

/-- The loop fails only as one of its calls failed. -/
theorem readLoop_error {s : Stop} : ∀ {ds : List Dirent} {total : Int},
    readLoop old call path ds total = .error s →
    ∃ ptr ∈ ds, IsSubdir ptr ∧ descend old call path ptr.d_name = .error s
  | [], total, h => by
      rw [readLoop] at h
      exact absurd h (by simp)
  | ptr :: rest, total, h => by
      have tail : (∃ ptr ∈ rest, IsSubdir ptr ∧
          descend old call path ptr.d_name = .error s) →
          ∃ p ∈ ptr :: rest, IsSubdir p ∧
            descend old call path p.d_name = .error s := by
        rintro ⟨p, hp, hs⟩
        exact ⟨p, List.mem_cons_of_mem _ hp, hs⟩
      rcases readLoop_cons old call path ptr rest total with
        ⟨-, t, heq⟩ | ⟨-, n, -, heq⟩ | ⟨hsub, s', hd, heq⟩
      · exact tail (readLoop_error (heq ▸ h))
      · exact tail (readLoop_error (heq ▸ h))
      · rw [heq] at h
        refine ⟨ptr, List.mem_cons_self, hsub, ?_⟩
        rw [hd, Except.error.inj h]

/-- The loop looks at its recursive function only where it calls it. -/
theorem readLoop_congr : ∀ {ds : List Dirent} {total : Int},
    (∀ ptr ∈ ds, IsSubdir ptr →
      descend old call path ptr.d_name = descend old call' path ptr.d_name) →
    readLoop old call path ds total = readLoop old call' path ds total
  | [], total, _ => rfl
  | ptr :: rest, total, h => by
      have ih : ∀ t, readLoop old call path rest t =
          readLoop old call' path rest t := fun t =>
        readLoop_congr fun p hp => h p (List.mem_cons_of_mem _ hp)
      by_cases hdot : IsDotName ptr
      · rw [readLoop_dot hdot, readLoop_dot hdot, ih]
      · by_cases hdir : ptr.d_type = .dir
        · have hsub : IsSubdir ptr := ⟨hdot, hdir⟩
          rw [readLoop_dir hsub, readLoop_dir hsub,
            h ptr List.mem_cons_self hsub]
          simp only [ih]
        · by_cases hreg : ptr.d_type = .reg
          · rw [readLoop_reg hdot hreg, readLoop_reg hdot hreg, ih]
          · rw [readLoop_other hdot hdir hreg, readLoop_other hdot hdir hreg, ih]

/-- If some call overflows and the others return, the loop overflows. -/
theorem readLoop_overflow : ∀ {ds : List Dirent} {total : Int},
    (∀ ptr ∈ ds, IsSubdir ptr →
      (∃ n, descend old call path ptr.d_name = .ok n) ∨
        descend old call path ptr.d_name = .error .overflow) →
    (∃ ptr ∈ ds, IsSubdir ptr ∧
      descend old call path ptr.d_name = .error .overflow) →
    readLoop old call path ds total = .error .overflow
  | [], total, _, ⟨ptr, hmem, _⟩ => absurd hmem List.not_mem_nil
  | ptr :: rest, total, h, ⟨p, hp, hsub, hover⟩ => by
      have hrest := fun q hq => h q (List.mem_cons_of_mem ptr hq)
      have tail : ∀ t, p ∈ rest →
          readLoop old call path rest t = .error .overflow := fun t hp =>
        readLoop_overflow hrest ⟨p, hp, hsub, hover⟩
      rcases readLoop_cons old call path ptr rest total with
        ⟨hno, t, heq⟩ | ⟨hyes, n, hd, heq⟩ | ⟨hyes, s, hd, heq⟩
      · rcases List.mem_cons.mp hp with rfl | hp
        · exact absurd hsub hno
        · rw [heq, tail t hp]
      · rcases List.mem_cons.mp hp with rfl | hp
        · rw [hover] at hd
          exact absurd hd (by simp)
        · rw [heq, tail _ hp]
      · rw [heq]
        rcases h ptr List.mem_cons_self hyes with ⟨n, hn⟩ | hn
        · rw [hd] at hn
          exact absurd hn (by simp)
        · rw [hd] at hn
          exact hn

end ReadLoop

end LinuxServer.FileNum
