import LinuxServer.FileNum.Walk

/-!
# Where `readFileNum.c` goes wrong

`getFileNum` is exact under four conditions: nothing fails, every composed
path fits into `newpath`, the types it needs are reported, and the count fits
into an `int`. This file shows that none of them is checked.

- §1 a path that does not fit is written past the end of `newpath`.
- §2 a failure is reported as success: `exit(0)` after `opendir`, and a count
  that is too small after `readdir`. So is a count that misses what is listed
  as `DT_UNKNOWN`.
-/

namespace LinuxServer.FileNum

open LinuxServer.Framework

section

variable {fs : FileSystem} {f : Faults fs}
variable {old : CString → CString → Buf Byte 256}

/-! ## §1  `newpath` -/

/-- If every path that is seen fits, no call overflows, whatever fails. -/
theorem getFileNum_ne_overflow : ∀ {fuel : ℕ} {path : CString} {l : Loc}
    {es : List Entry}, Names fs path l es →
    PathsFit path.bytes.length (fs.seen l es) →
    getFileNum fs f old fuel path ≠ .error .overflow
  | 0, _, _, _, _, _ => by
      rw [getFileNum]
      simp
  | fuel + 1, path, l, es, h, hfit => by
      intro hr
      cases hopen : opendir fs f path with
      | none =>
          rw [getFileNum_refused hopen] at hr
          exact absurd hr (by simp)
      | some dir =>
          rw [getFileNum_open hopen] at hr
          obtain ⟨ptr, hmem, hsub, hd⟩ := readLoop_error hr
          obtain ⟨n, sub, hn, ht, -, ⟨hno, -⟩ | ⟨-, s, hbytes, hs, hcall⟩⟩ :=
            child_call old h (opendir_subset h hopen hmem) hsub
          · exact hno ((pathsFit_iff (seen_ok h.ok)).mp hfit n _
              (dir_mem_shown.mpr ⟨sub, hn, ht, rfl⟩)).1
          · rw [hcall] at hd
            refine getFileNum_ne_overflow hs ?_ hd
            rw [hbytes, join_length]
            exact ((pathsFit_iff (seen_ok h.ok)).mp hfit n _
              (dir_mem_shown.mpr ⟨sub, hn, ht, rfl⟩)).2

/-- If some path that is seen does not fit and nothing stops the walk before, a
call overflows. -/
theorem getFileNum_overflows : ∀ {fuel : ℕ} {path : CString} {l : Loc}
    {es : List Entry}, Names fs path l es → Quiet f l (fs.seen l es) →
    ¬ PathsFit path.bytes.length (fs.seen l es) → height es < fuel →
    getFileNum fs f old fuel path = .error .overflow
  | 0, _, _, _, _, _, _, hh => absurd hh (Nat.not_lt_zero _)
  | fuel + 1, path, l, es, h, hq, hfit, hh => by
      rw [getFileNum_open (hq.opendir_eq h)]
      have hok : EntriesOk (fs.seen l es) := seen_ok h.ok
      -- every call returns its count or overflows, by the depth of the fault
      have hcall : ∀ ptr ∈ fs.listing l, IsSubdir ptr → ∃ n sub,
          Entry.dir n sub ∈ es ∧ ptr.d_name = n.cstring ∧
          ((path.bytes.length + 1 + n.bytes.length + 1 ≤ 256 ∧
              PathsFit (path.bytes.length + 1 + n.bytes.length)
                (fs.seen (l ++ [n.bytes]) sub) ∧
              ∃ num, descend old (getFileNum fs f old fuel) path ptr.d_name =
                .ok num) ∨
            descend old (getFileNum fs f old fuel) path ptr.d_name =
              .error .overflow) := by
        intro ptr hmem hsub
        obtain ⟨n, sub, hn, ht, hname, ⟨-, hov⟩ | ⟨hlen, s, hbytes, hs, hcall⟩⟩ :=
          child_call old h hmem hsub
        · exact ⟨n, sub, hn, hname, Or.inr (hov _)⟩
        · refine ⟨n, sub, hn, hname, ?_⟩
          have hseen : Entry.dir n (fs.seen (l ++ [n.bytes]) sub) ∈ fs.seen l es :=
            dir_mem_shown.mpr ⟨sub, hn, ht, rfl⟩
          have hlt := height_sub hn
          have hslen : s.bytes.length =
              path.bytes.length + 1 + n.bytes.length := by
            rw [hbytes, join_length]
          rw [hcall]
          by_cases hsfit : PathsFit s.bytes.length (fs.seen (l ++ [n.bytes]) sub)
          · exact Or.inl ⟨hlen, hslen ▸ hsfit, _,
              getFileNum_eq_count hs (hq.child hok hseen) hsfit (by omega)⟩
          · exact Or.inr (getFileNum_overflows hs (hq.child hok hseen) hsfit
              (by omega))
      apply readLoop_overflow
      · intro ptr hmem hsub
        obtain ⟨n, sub, -, -, ⟨-, -, hnum⟩ | hov⟩ := hcall ptr hmem hsub
        · exact Or.inl hnum
        · exact Or.inr hov
      · by_contra hnone
        refine hfit ((pathsFit_iff hok).mpr fun n sub' hn' => ?_)
        obtain ⟨sub, hn, ht, rfl⟩ := dir_mem_shown.mp hn'
        have hmem : (Entry.dir n sub).dirent ∈ fs.listing l :=
          (mem_listing h).mpr (Or.inr (Or.inr ⟨_, hn, (report_typed ht).symm⟩))
        have hsub : IsSubdir (Entry.dir n sub).dirent :=
          ⟨fun hd => hd.elim n.notDot n.notDotDot, rfl⟩
        obtain ⟨n', sub', hn', hname, ⟨hlen, hsfit, -⟩ | hov⟩ :=
          hcall _ hmem hsub
        · cases entry_unique h.ok hn hn' (congrArg CString.bytes hname)
          exact ⟨hlen, hsfit⟩
        · exact absurd ⟨_, hmem, hsub, hov⟩ hnone

/-- No pattern of failures makes a call overflow iff every path that is seen
fits. -/
theorem ne_overflow_iff (fs : FileSystem) (old : CString → CString → Buf Byte 256)
    (path : CString) :
    (∀ (f : Faults fs) (fuel : ℕ),
        getFileNum fs f old fuel path ≠ .error .overflow) ↔
      ∀ l es, Names fs path l es → PathsFit path.bytes.length (fs.seen l es) := by
  constructor
  · intro h l es hn
    by_contra hfit
    exact h (noFaults fs) (height es + 1)
      (getFileNum_overflows hn (quiet_noFaults l _) hfit (Nat.lt_succ_self _))
  · intro h f fuel hr
    cases hres : resolve fs.root path.bytes with
    | none =>
        cases fuel with
        | zero => exact absurd hr (by simp [getFileNum])
        | succ fuel =>
            rw [getFileNum_unresolved hres] at hr
            exact absurd hr (by simp)
    | some l =>
        obtain ⟨es, hes⟩ := resolve_isDir hres
        exact getFileNum_ne_overflow ⟨hres, hes⟩ (h l es ⟨hres, hes⟩) hr

end

/-- What a Linux file system admits: names of at most 255 bytes, and paths
given to `opendir` that are not empty and have at most 4095. -/
structure Admitted (fs : FileSystem) (path : CString) : Prop where
  names : ∀ l e, entryAt fs.root l = some e → e.name.bytes.length ≤ 255
  nonempty : path.bytes ≠ []
  short : path.bytes.length < pathMax

/-- **Where `newpath` is large enough.** On a tree and a path that the file
system admits no call writes past the end of `newpath`, whatever fails, exactly
if every directory that is listed as one, down from where the path leads, has
names that keep within 256 bytes with the start path. -/
theorem newpath_never_overflows_iff (fs : FileSystem)
    (old : CString → CString → Buf Byte 256) (path : CString) :
    (Admitted fs path → ∀ (f : Faults fs) (fuel : ℕ),
        getFileNum fs f old fuel path ≠ .error .overflow) ↔
      (Admitted fs path → ∀ l es, Names fs path l es →
        PathsFit path.bytes.length (fs.seen l es)) :=
  imp_congr_right fun _ => ne_overflow_iff fs old path

theorem entryAt_cases : ∀ {es : List Entry} {l : Loc} {e : Entry},
    entryAt es l = some e →
    e ∈ es ∨ ∃ n sub l', Entry.dir n sub ∈ es ∧ entryAt sub l' = some e
  | es, [n], e, h => by
      rw [entryAt] at h
      exact Or.inl (lookup_some h).1
  | es, n :: m :: l, e, h => by
      rw [entryAt] at h
      · split at h
        · rename_i name sub hl
          exact Or.inr ⟨name, sub, _, (lookup_some hl).1, h⟩
        · exact absurd h (by simp)
      · simp

/-- A name of `k` times the letter `d`. -/
def longName (k : ℕ) (hk : 3 ≤ k) : FileName where
  bytes := List.replicate k 100
  nonempty := by
    intro h
    have hlen := congrArg List.length h
    simp only [List.length_replicate, List.length_nil] at hlen
    omega
  noSlash h := absurd (List.eq_of_mem_replicate h) (by decide)
  noNul h := absurd (List.eq_of_mem_replicate h) (by decide)
  notDot := by
    intro h
    have hlen := congrArg List.length h
    simp only [List.length_replicate, dot, List.length_cons, List.length_nil] at hlen
    omega
  notDotDot := by
    intro h
    have hlen := congrArg List.length h
    simp only [List.length_replicate, dotDot, List.length_cons,
      List.length_nil] at hlen
    omega

theorem longName_length (k : ℕ) (hk : 3 ≤ k) :
    (longName k hk).bytes.length = k :=
  List.length_replicate

/-- One directory with a name of 200 bytes that holds one with a name of 60. -/
def deepRoot : List Entry :=
  [.dir (longName 200 (by decide)) [.dir (longName 60 (by decide)) []]]

theorem deepRoot_ok : EntriesOk deepRoot := by
  simp [deepRoot, EntriesOk, Entry.Ok]

def deepFs : FileSystem := .ofTree deepRoot deepRoot_ok

theorem deepFs_admitted : Admitted deepFs ⟨dot, by decide⟩ := by
  refine ⟨fun l e h => ?_, by decide, by decide⟩
  rcases entryAt_cases h with hmem | ⟨n, sub, l', hmem, h'⟩
  · cases List.mem_singleton.mp hmem
    rw [Entry.name, longName_length]
    decide
  · cases List.mem_singleton.mp hmem
    rcases entryAt_cases h' with hmem | ⟨n, sub, l'', hmem, h''⟩
    · cases List.mem_singleton.mp hmem
      rw [Entry.name, longName_length]
      decide
    · cases List.mem_singleton.mp hmem
      rcases entryAt_cases h'' with hmem | ⟨n, sub, -, hmem, -⟩
      · exact absurd hmem List.not_mem_nil
      · exact absurd hmem List.not_mem_nil

/-- Two directories are enough: the second composed path needs 264 bytes. -/
theorem two_long_names_overflow :
    Admitted deepFs ⟨dot, by decide⟩ ∧
      getFileNum deepFs (noFaults deepFs) (fun _ _ => Buf.fill 0 256) 3
        ⟨dot, by decide⟩ = .error .overflow := by
  have h : Names deepFs ⟨dot, by decide⟩ [] deepRoot := ⟨by decide, rfl⟩
  have hseen : deepFs.seen [] deepRoot = deepRoot := ofTree_seen _ _ _ _
  refine ⟨deepFs_admitted, getFileNum_overflows h (quiet_noFaults _ _)
    (fun hfit => ?_) (by decide)⟩
  rw [hseen] at hfit
  have h1 := ((pathsFit_iff deepRoot_ok).mp hfit _ _ List.mem_cons_self).2
  have h2 := ((pathsFit_iff (ok_sub deepRoot_ok List.mem_cons_self)).mp h1 _ _
    List.mem_cons_self).1
  rw [longName_length, longName_length] at h2
  simp [dot] at h2

/-! ## §2  `main` -/

/-- Some directory at or below `path` could not be opened or not be read to its
end. A directory that is listed without its type is not tried. -/
def WalkFails (fs : FileSystem) (f : Faults fs) (path : CString) : Prop :=
  resolve fs.root path.bytes = none ∨
    ∃ l es rel sub, Names fs path l es ∧ dirAt (fs.seen l es) rel = some sub ∧
      (f.opendir (l ++ rel) = true ∨ f.readdir (l ++ rel) ≠ none)

/-- What an exit status is for: `0` comes with the exact count, and a walk that
failed prints no count and ends with another status. -/
def Faithful (fs : FileSystem) (f : Faults fs) (path : CString) (o : Outcome) :
    Prop :=
  ∃ status stdout stderr, o = .ended status stdout stderr ∧
    (status = 0 → ∃ l es, Names fs path l es ∧
      stdout = [.count (regularFileCount es)]) ∧
    (WalkFails fs f path → (∀ num, .count num ∉ stdout) ∧ status ≠ 0)

/-- Every run of the program with enough fuel ends in `o`. -/
def Ends (fs : FileSystem) (f : Faults fs)
    (old : CString → CString → Buf Byte 256) (prog : CString)
    (args : List CString) (o : Outcome) : Prop :=
  o ≠ .unfinished ∧ ∃ N, ∀ fuel, N ≤ fuel → main fs f old fuel prog args = o

section Main

variable {fs : FileSystem} {f : Faults fs}
variable {old : CString → CString → Buf Byte 256}
variable {prog path : CString} {rest : List CString}
variable {l : Loc} {es : List Entry} {r : Except Stop Int}

theorem walkFails_iff_not_quiet (h : Names fs path l es) :
    WalkFails fs f path ↔ ¬ Quiet f l (fs.seen l es) := by
  constructor
  · rintro (hnone | ⟨l', es', rel, sub, h', hrel, hf⟩) hq
    · rw [h.resolves] at hnone
      exact absurd hnone (by simp)
    · obtain ⟨rfl, rfl⟩ := h.unique h'
      obtain ⟨hopen, hread⟩ := hq rel sub hrel
      rcases hf with hf | hf
      · rw [hopen] at hf
        exact absurd hf (by simp)
      · exact hf hread
  · intro hq
    by_contra hno
    refine hq fun rel sub hrel => ?_
    constructor
    · by_contra hf
      exact hno (Or.inr ⟨l, es, rel, sub, h, hrel,
        Or.inl (Bool.not_eq_false _ ▸ hf)⟩)
    · by_contra hf
      exact hno (Or.inr ⟨l, es, rel, sub, h, hrel, Or.inr hf⟩)

theorem ends_finish (hr : r ≠ .error .fuel) {N : ℕ}
    (h : ∀ fuel, N ≤ fuel → getFileNum fs f old fuel path = r) :
    Ends fs f old prog (path :: rest) (finish r) := by
  refine ⟨?_, N, fun fuel hfuel => ?_⟩
  · rcases r with (⟨message, status⟩ | - | -) | num
    · simp [finish]
    · simp [finish]
    · exact absurd rfl hr
    · simp [finish]
  · rw [main, h fuel hfuel]

/-- Every status the program can end with is `0`, so a failed walk is never
reported as one. -/
theorem not_faithful_of_fails (hfail : WalkFails fs f path)
    (hexit : ∀ message status, r = .error (.exit message status) → status = 0) :
    ¬ Faithful fs f path (finish r) := by
  rintro ⟨status, stdout, stderr, heq, -, hreport⟩
  refine (hreport hfail).2 ?_
  rcases r with (⟨message, st⟩ | - | -) | num
  · rw [finish, Outcome.ended.injEq] at heq
    rw [← heq.1]
    exact hexit message st rfl
  · exact absurd heq (by simp [finish])
  · exact absurd heq (by simp [finish])
  · rw [finish, Outcome.ended.injEq] at heq
    exact heq.1.symm

theorem ends_unresolved (hres : resolve fs.root path.bytes = none) :
    Ends fs f old prog (path :: rest) (finish (.error (.exit "opendir" 0))) := by
  refine ends_finish (by simp) (N := 1) fun fuel hfuel => ?_
  obtain ⟨k, rfl⟩ := Nat.exists_eq_add_of_le' hfuel
  exact getFileNum_unresolved hres k

theorem not_faithful_unresolved (hres : resolve fs.root path.bytes = none) :
    ¬ Faithful fs f path (finish (.error (.exit "opendir" 0))) := by
  refine not_faithful_of_fails (Or.inl hres) fun message status h => ?_
  cases h
  rfl

/-- A count printed by a walk without failures is right if the types were
reported and the `int` shows it. -/
theorem faithful_count_iff (h : Names fs path l es) (hq : Quiet f l (fs.seen l es)) :
    Faithful fs f path (finish (.ok (int (regularFiles (fs.seen l es))))) ↔
      FilesTyped fs l es ∧ regularFileCount es ≤ 2 ^ 31 - 1 := by
  have hle : regularFiles (fs.seen l es) ≤ regularFiles es := regularFiles_shown_le es
  have htyped : regularFiles (fs.seen l es) = regularFiles es ↔ FilesTyped fs l es :=
    regularFiles_shown_eq_iff h.ok
  rw [← htyped, regularFileCount_eq h.ok, ← int_eq_iff hle]
  constructor
  · rintro ⟨status, stdout, stderr, heq, hzero, -⟩
    rw [finish, Outcome.ended.injEq] at heq
    obtain ⟨rfl, rfl, -⟩ := heq
    obtain ⟨l', es', h', hout⟩ := hzero rfl
    obtain ⟨-, rfl⟩ := h.unique h'
    simpa [regularFileCount_eq h.ok] using hout
  · intro hint
    refine ⟨0, _, [], rfl, fun _ => ⟨l, es, h, ?_⟩, fun hfail => ?_⟩
    · rw [hint, regularFileCount_eq h.ok]
    · exact absurd hq ((walkFails_iff_not_quiet h).mp hfail)

end Main

/-- **The program ends, and its status can be trusted exactly when nothing
failed, every path fitted, the types of the regular files and of the directories
above them were reported, and the count fits into an `int`.** -/
theorem main_faithful_iff (fs : FileSystem) (f : Faults fs)
    (old : CString → CString → Buf Byte 256) (prog path : CString)
    (rest : List CString) :
    ∃ o, Ends fs f old prog (path :: rest) o ∧
      (Faithful fs f path o ↔
        ¬ WalkFails fs f path ∧ ∀ l es, Names fs path l es →
          PathsFit path.bytes.length (fs.seen l es) ∧ FilesTyped fs l es ∧
            regularFileCount es ≤ 2 ^ 31 - 1) := by
  cases hres : resolve fs.root path.bytes with
  | none =>
      have hfail : WalkFails fs f path := Or.inl hres
      have hnot := not_faithful_unresolved (f := f) hres
      exact ⟨_, ends_unresolved hres, fun h => absurd h hnot,
        fun h => absurd hfail h.1⟩
  | some l =>
      obtain ⟨es, hes⟩ := resolve_isDir hres
      have h : Names fs path l es := ⟨hres, hes⟩
      obtain ⟨r, hr, hfuel⟩ := getFileNum_terminates f old h
      have hrun : getFileNum fs f old (height es + 1) path = r :=
        hfuel _ (Nat.lt_succ_self _)
      refine ⟨finish r, ends_finish hr hfuel, ?_⟩
      rw [walkFails_iff_not_quiet h, not_not]
      by_cases hq : Quiet f l (fs.seen l es)
      · by_cases hfit : PathsFit path.bytes.length (fs.seen l es)
        · rw [← hrun, getFileNum_eq_count h hq hfit (Nat.lt_succ_self _),
            faithful_count_iff h hq]
          constructor
          · intro hcount
            refine ⟨hq, fun l' es' h' => ?_⟩
            obtain ⟨rfl, rfl⟩ := h.unique h'
            exact ⟨hfit, hcount⟩
          · exact fun hall => (hall.2 l es h).2
        · rw [← hrun, getFileNum_overflows h hq hfit (Nat.lt_succ_self _)]
          constructor
          · rintro ⟨status, stdout, stderr, heq, -⟩
            exact absurd heq (by simp [finish])
          · exact fun hall => absurd (hall.2 l es h).1 hfit
      · have hnot : ¬ Faithful fs f path (finish r) :=
          not_faithful_of_fails ((walkFails_iff_not_quiet h).mpr hq)
            fun message status hexit =>
              (getFileNum_exit h (hrun.trans hexit)).2
        exact ⟨fun h => absurd h hnot, fun hall => absurd hall.1 hq⟩

def sampleSubLoc : Loc := [literal "a", literal "b"]

/-- `opendir` refuses `a/b`. -/
def refuseSub : Faults sampleFs where
  opendir l := l = sampleSubLoc
  readdir _ := none
  readdir_le _ _ h := absurd h (by simp)

/-- `readdir` reports an error on `a/b` after `.`, `..` and `up`. -/
def cutSub : Faults sampleFs where
  opendir _ := false
  readdir l := if l = sampleSubLoc then some 3 else none
  readdir_le l n h := by
    split at h
    · rename_i hl
      rw [hl, ← Option.some.inj h]
      decide
    · exact absurd h (by simp)

/-- `a` holds two regular files. With `a/b` refused the program prints nothing
and ends with status 0; with `a/b` cut short it prints 1 and ends with
status 0. -/
theorem failures_end_with_status_zero :
    (WalkFails sampleFs refuseSub ⟨literal "a", by decide⟩ ∧
      main sampleFs refuseSub (fun _ _ => Buf.fill 0 256) 3
          ⟨literal "readFileNum", by decide⟩ [⟨literal "a", by decide⟩] =
        .ended 0 [] ["opendir"]) ∧
    (WalkFails sampleFs cutSub ⟨literal "a", by decide⟩ ∧
      main sampleFs cutSub (fun _ _ => Buf.fill 0 256) 3
          ⟨literal "readFileNum", by decide⟩ [⟨literal "a", by decide⟩] =
        .ended 0 [.count 1] []) ∧
    regularFileCount sampleDir = 2 := by
  have h : Names sampleFs ⟨literal "a", by decide⟩ [literal "a"] sampleDir :=
    ⟨by decide, rfl⟩
  refine ⟨⟨Or.inr ⟨_, _, [literal "b"], _, h, rfl, Or.inl (by decide)⟩, ?_⟩,
    ⟨Or.inr ⟨_, _, [literal "b"], _, h, rfl, Or.inr (by decide)⟩, ?_⟩,
    regularFileCount_eq h.ok⟩
  · decide +kernel
  · decide +kernel

end LinuxServer.FileNum
