import LinuxServer.FileNum.ReadFileNum

/-!
# What `getFileNum` computes

The recursion runs on strings; the tree never appears in it. `child_call` is
the simulation between the two: every recursive call that is reached is the
call for one subdirectory of the directory the caller is reading, on a string
that names it. Everything below is an induction on the depth of the recursion
with that lemma as its step.

- §1 the simulation.
- §2 termination, whatever fails.
- §3 the count, when nothing fails.
-/

namespace LinuxServer.FileNum

open LinuxServer.Framework

section

variable {fs : FileSystem} {f : Faults fs}
variable {old : CString → CString → Buf Byte 256}

/-! ## §1  Strings simulate the tree -/

/-- `path` names the directory at `l`, which holds `es`. -/
structure Names (fs : FileSystem) (path : CString) (l : Loc) (es : List Entry) :
    Prop where
  resolves : resolve fs.root path.bytes = some l
  holds : dirAt fs.root l = some es

theorem Names.ok {path : CString} {l : Loc} {es : List Entry}
    (h : Names fs path l es) : EntriesOk es :=
  ok_dirAt fs.ok h.holds

theorem Names.unique {path : CString} {l l' : Loc} {es es' : List Entry}
    (h : Names fs path l es) (h' : Names fs path l' es') : l = l' ∧ es = es' := by
  have hl : l = l' := Option.some.inj (h.resolves.symm.trans h'.resolves)
  refine ⟨hl, Option.some.inj (h.holds.symm.trans ?_)⟩
  rw [hl, h'.holds]

/-- The stream an `opendir` that succeeds returns is part of the listing. -/
theorem opendir_subset {path : CString} {l : Loc} {es : List Entry}
    {dir : List Dirent} (h : Names fs path l es)
    (hopen : opendir fs f path = some dir) : dir ⊆ fs.listing l := by
  rw [opendir, h.resolves] at hopen
  simp only at hopen
  split at hopen
  · exact absurd hopen (by simp)
  · split at hopen
    · rw [← Option.some.inj hopen]
      exact List.Subset.refl _
    · rw [← Option.some.inj hopen]
      exact List.take_subset _ _

theorem report_name (typed : Loc → Bool) (l : Loc) (ptr : Dirent) :
    (report typed l ptr).d_name = ptr.d_name := by
  unfold report
  split <;> rfl

theorem dirent_name (e : Entry) : e.dirent.d_name.bytes = e.name.bytes := by
  cases e <;> rfl

/-- An entry whose type is reported. -/
theorem report_typed {typed : Loc → Bool} {l : Loc} {e : Entry}
    (h : typed (l ++ [e.name.bytes]) = true) :
    report typed l e.dirent = e.dirent := by
  rw [report, dirent_name, if_pos h]

theorem report_untyped {typed : Loc → Bool} {l : Loc} {e : Entry}
    (h : typed (l ++ [e.name.bytes]) = false) :
    (report typed l e.dirent).d_type = .unknown := by
  rw [report, dirent_name, h]
  rfl

theorem mem_listing {path : CString} {l : Loc} {es : List Entry} {ptr : Dirent}
    (h : Names fs path l es) :
    ptr ∈ fs.listing l ↔ ptr = report fs.typed l dotEnt ∨
      ptr = report fs.typed l dotDotEnt ∨
      ∃ e ∈ es, ptr = report fs.typed l e.dirent := by
  rw [(fs.listing_perm l es h.holds).mem_iff]
  simp [eq_comm]

/-- A listed entry besides `.` and `..` that comes with its type. -/
theorem entry_of_listed {path : CString} {l : Loc} {es : List Entry}
    {ptr : Dirent} (h : Names fs path l es) (hmem : ptr ∈ fs.listing l)
    (hdot : ¬ IsDotName ptr) (htype : ptr.d_type ≠ .unknown) :
    ∃ e ∈ es, fs.typed (l ++ [e.name.bytes]) = true ∧ ptr = e.dirent := by
  rcases (mem_listing h).mp hmem with rfl | rfl | ⟨e, he, rfl⟩
  · exact absurd (Or.inl (by rw [report_name]; rfl)) hdot
  · exact absurd (Or.inr (by rw [report_name]; rfl)) hdot
  · cases ht : fs.typed (l ++ [e.name.bytes]) with
    | true => exact ⟨e, he, ht, report_typed ht⟩
    | false => exact absurd (report_untyped ht) htype

/-- A listed entry that is descended into is one of the subdirectories. -/
theorem subdir_of_listed {path : CString} {l : Loc} {es : List Entry}
    {ptr : Dirent} (h : Names fs path l es) (hmem : ptr ∈ fs.listing l)
    (hsub : IsSubdir ptr) :
    ∃ n sub, Entry.dir n sub ∈ es ∧ fs.typed (l ++ [n.bytes]) = true ∧
      ptr.d_name = n.cstring := by
  obtain ⟨e, he, ht, rfl⟩ := entry_of_listed h hmem hsub.1 (by simp [hsub.2])
  cases e with
  | dir n sub => exact ⟨n, sub, he, ht, rfl⟩
  | link n target => exact absurd hsub.2 (by simp [Entry.dirent])
  | leaf n type =>
      exact absurd hsub.2 (by cases type <;> simp [Entry.dirent, LeafType.d_type])

theorem join_length (path : List Byte) (n : FileName) :
    (path ++ slash :: n.bytes).length = path.length + 1 + n.bytes.length := by
  rw [List.length_append, List.length_cons]
  omega

theorem Names.child {path s : CString} {l : Loc} {es sub : List Entry}
    {n : FileName} (h : Names fs path l es) (hmem : Entry.dir n sub ∈ es)
    (hs : s.bytes = path.bytes ++ slash :: n.bytes)
    (hlen : path.bytes.length + 1 + n.bytes.length + 1 ≤ 256) :
    Names fs s (l ++ [n.bytes]) sub := by
  have hmax : (path.bytes ++ slash :: n.bytes).length < pathMax := by
    rw [join_length, pathMax]
    omega
  obtain ⟨hres, hdir⟩ := resolve_join h.resolves h.holds h.ok hmem hmax
  exact ⟨by rw [hs]; exact hres, hdir⟩

/-- **The simulation step.** A recursive call reached from `path` either
overflows `newpath` or is the call on a string naming a subdirectory. -/
theorem child_call (old : CString → CString → Buf Byte 256) {path : CString}
    {l : Loc} {es : List Entry} {ptr : Dirent}
    (h : Names fs path l es) (hmem : ptr ∈ fs.listing l) (hsub : IsSubdir ptr) :
    ∃ n sub, Entry.dir n sub ∈ es ∧ fs.typed (l ++ [n.bytes]) = true ∧
      ptr.d_name = n.cstring ∧
      ((¬ path.bytes.length + 1 + n.bytes.length + 1 ≤ 256 ∧
          ∀ call, descend old call path ptr.d_name = .error .overflow) ∨
        (path.bytes.length + 1 + n.bytes.length + 1 ≤ 256 ∧
          ∃ s : CString, s.bytes = path.bytes ++ slash :: n.bytes ∧
            Names fs s (l ++ [n.bytes]) sub ∧
            ∀ call, descend old call path ptr.d_name = call s)) := by
  obtain ⟨n, sub, hn, ht, hname⟩ := subdir_of_listed h hmem hsub
  refine ⟨n, sub, hn, ht, hname, ?_⟩
  rw [hname]
  by_cases hfit : path.bytes.length + 1 + n.bytes.length + 1 ≤ 256
  · obtain ⟨s, hs, hbytes⟩ :=
      newpath_fits (old path n.cstring) n.cstring hfit
    refine Or.inr ⟨hfit, s, hbytes, h.child hn hbytes hfit, fun call => ?_⟩
    rw [descend, hs]
    rfl
  · refine Or.inl ⟨hfit, fun call => ?_⟩
    rw [descend, newpath_overflows (old path n.cstring) n.cstring hfit]
    rfl

/-! ## §2  Termination -/

theorem getFileNum_open {path : CString} {dir : List Dirent}
    (hopen : opendir fs f path = some dir) (fuel : ℕ) :
    getFileNum fs f old (fuel + 1) path =
      readLoop old (getFileNum fs f old fuel) path dir 0 := by
  rw [getFileNum, hopen]

theorem getFileNum_refused {path : CString}
    (hopen : opendir fs f path = none) (fuel : ℕ) :
    getFileNum fs f old (fuel + 1) path = .error (.exit "opendir" 0) := by
  rw [getFileNum, hopen]

/-- A path that names no directory. -/
theorem getFileNum_unresolved {path : CString}
    (h : resolve fs.root path.bytes = none) (fuel : ℕ) :
    getFileNum fs f old (fuel + 1) path = .error (.exit "opendir" 0) :=
  getFileNum_refused (by rw [opendir, h]) fuel

/-- Fuel beyond the height of the tree is enough and makes no difference: `.`
and `..` are skipped and links are not entered, so each call is one level
further down. -/
theorem getFileNum_stable : ∀ {fuel : ℕ} {path : CString} {l : Loc}
    {es : List Entry}, Names fs path l es → height es < fuel →
    getFileNum fs f old fuel path ≠ .error .fuel ∧
      getFileNum fs f old (fuel + 1) path = getFileNum fs f old fuel path
  | 0, _, _, _, _, hh => absurd hh (Nat.not_lt_zero _)
  | fuel + 1, path, l, es, h, hh => by
      cases hopen : opendir fs f path with
      | none =>
          rw [getFileNum_refused hopen, getFileNum_refused hopen]
          exact ⟨by simp, rfl⟩
      | some dir =>
          have hsubset := opendir_subset h hopen
          rw [getFileNum_open hopen, getFileNum_open hopen]
          constructor
          · intro hfuel
            obtain ⟨ptr, hmem, hsub, hd⟩ := readLoop_error hfuel
            obtain ⟨n, sub, hn, -, -, ⟨-, hov⟩ | ⟨-, s, -, hs, hcall⟩⟩ :=
              child_call old h (hsubset hmem) hsub
            · rw [hov] at hd
              exact absurd hd (by simp)
            · rw [hcall] at hd
              have hlt := height_sub hn
              exact (getFileNum_stable hs (by omega)).1 hd
          · refine readLoop_congr fun ptr hmem hsub => ?_
            obtain ⟨n, sub, hn, -, -, ⟨-, hov⟩ | ⟨-, s, -, hs, hcall⟩⟩ :=
              child_call old h (hsubset hmem) hsub
            · rw [hov, hov]
            · rw [hcall, hcall]
              have hlt := height_sub hn
              exact (getFileNum_stable hs (by omega)).2

/-- **`getFileNum` terminates** on every directory, whatever fails. -/
theorem getFileNum_terminates (f : Faults fs)
    (old : CString → CString → Buf Byte 256) {path : CString} {l : Loc}
    {es : List Entry} (h : Names fs path l es) :
    ∃ r, r ≠ .error .fuel ∧
      ∀ fuel, height es < fuel → getFileNum fs f old fuel path = r := by
  refine ⟨getFileNum fs f old (height es + 1) path,
    (getFileNum_stable h (Nat.lt_succ_self _)).1, ?_⟩
  intro fuel hfuel
  induction fuel with
  | zero => exact absurd hfuel (Nat.not_lt_zero _)
  | succ fuel ih =>
      by_cases hlt : height es < fuel
      · rw [(getFileNum_stable h hlt).2, ih hlt]
      · have heq : height es = fuel := by omega
        rw [heq]

/-- The only `exit` inside `getFileNum` is the one after a failed `opendir`,
and its status is `0`. -/
theorem getFileNum_exit {message : String} {status : Int} : ∀ {fuel : ℕ}
    {path : CString} {l : Loc} {es : List Entry}, Names fs path l es →
    getFileNum fs f old fuel path = .error (.exit message status) →
    message = "opendir" ∧ status = 0
  | 0, _, _, _, _, hr => by
      rw [getFileNum] at hr
      exact absurd hr (by simp)
  | fuel + 1, path, l, es, h, hr => by
      cases hopen : opendir fs f path with
      | none =>
          rw [getFileNum_refused hopen] at hr
          simp only [Except.error.injEq, Stop.exit.injEq] at hr
          exact ⟨hr.1.symm, hr.2.symm⟩
      | some dir =>
          rw [getFileNum_open hopen] at hr
          obtain ⟨ptr, hmem, hsub, hd⟩ := readLoop_error hr
          obtain ⟨n, sub, hn, -, -, ⟨-, hov⟩ | ⟨-, s, -, hs, hcall⟩⟩ :=
            child_call old h (opendir_subset h hopen hmem) hsub
          · rw [hov] at hd
            exact absurd hd (by simp)
          · rw [hcall] at hd
            exact getFileNum_exit hs hd

/-! ## §3  The count -/

/-- No `opendir` or `readdir` fails at or below the directory. -/
def Quiet (f : Faults fs) (l : Loc) (es : List Entry) : Prop :=
  ∀ rel sub, dirAt es rel = some sub →
    f.opendir (l ++ rel) = false ∧ f.readdir (l ++ rel) = none

/-- Every directory below gets a path that fits into `newpath`, when the path
of the directory itself has `len` bytes. -/
def PathsFit (len : ℕ) (es : List Entry) : Prop :=
  ∀ rel sub, rel ≠ [] → dirAt es rel = some sub →
    len + (rel.map fun n => n.length + 1).sum + 1 ≤ 256

theorem Quiet.child {l : Loc} {es sub : List Entry} {n : FileName}
    (h : Quiet f l es) (hok : EntriesOk es) (hmem : Entry.dir n sub ∈ es) :
    Quiet f (l ++ [n.bytes]) sub := by
  intro rel sub' hrel
  rw [List.append_assoc]
  refine h (n.bytes :: rel) sub' ?_
  rw [dirAt_cons_dir hok hmem]
  exact hrel

theorem Quiet.opendir_eq {path : CString} {l : Loc} {es tree : List Entry}
    (h : Quiet f l tree) (hn : Names fs path l es) :
    opendir fs f path = some (fs.listing l) := by
  have h0 := h [] tree (by rw [dirAt])
  rw [List.append_nil] at h0
  rw [opendir, hn.resolves]
  simp [h0.1, h0.2]

/-- `PathsFit`, one level at a time, as the recursion meets it. -/
theorem pathsFit_iff {len : ℕ} {es : List Entry} (hok : EntriesOk es) :
    PathsFit len es ↔ ∀ n sub, Entry.dir n sub ∈ es →
      len + 1 + n.bytes.length + 1 ≤ 256 ∧
        PathsFit (len + 1 + n.bytes.length) sub := by
  constructor
  · intro h n sub hmem
    constructor
    · have h1 := h [n.bytes] sub (by simp)
        (by rw [dirAt_cons_dir hok hmem, dirAt])
      simp only [List.map_cons, List.map_nil, List.sum_cons, List.sum_nil] at h1
      omega
    · intro rel sub' _ hrel
      have h1 := h (n.bytes :: rel) sub' (by simp)
        (by rw [dirAt_cons_dir hok hmem]; exact hrel)
      simp only [List.map_cons, List.sum_cons] at h1
      omega
  · intro h rel sub' hne hrel
    cases rel with
    | nil => exact absurd rfl hne
    | cons m rel =>
        obtain ⟨n, sub, hmem, rfl, hmid⟩ := dirAt_cons hrel
        obtain ⟨hfit, hsub⟩ := h n sub hmem
        simp only [List.map_cons, List.sum_cons]
        by_cases hnil : rel = []
        · rw [hnil]
          simp only [List.map_nil, List.sum_nil]
          omega
        · have h1 := hsub rel sub' hnil hmid
          omega

/-- What the loop adds for an entry: `n`, as far as an `int` shows it. -/
structure Adds (old : CString → CString → Buf Byte 256)
    (call : CString → Except Stop Int) (path : CString) (ptr : Dirent) (n : ℕ) :
    Prop where
  dot : IsDotName ptr → n = 0
  dir : IsSubdir ptr → descend old call path ptr.d_name = .ok (int n)
  reg : ¬ IsDotName ptr → ptr.d_type = .reg → n = 1
  other : ¬ IsDotName ptr → ptr.d_type ≠ .dir → ptr.d_type ≠ .reg → n = 0

theorem readLoop_sum {call : CString → Except Stop Int} {path : CString}
    {w : Dirent → ℕ} : ∀ {ds : List Dirent} {t : Int},
    (∀ ptr ∈ ds, Adds old call path ptr (w ptr)) →
    readLoop old call path ds (int t) = .ok (int (t + ((ds.map w).sum : ℕ)))
  | [], t, _ => by simp [readLoop]
  | ptr :: rest, t, h => by
      have ih : ∀ t : Int, readLoop old call path rest (int t) =
          .ok (int (t + ((rest.map w).sum : ℕ))) := fun t =>
        readLoop_sum fun p hp => h p (List.mem_cons_of_mem _ hp)
      have hptr := h ptr List.mem_cons_self
      rw [List.map_cons, List.sum_cons, Nat.cast_add, ← Int.add_assoc]
      by_cases hdot : IsDotName ptr
      · rw [readLoop_dot hdot, ih, hptr.dot hdot]
        simp
      · by_cases hdir : ptr.d_type = .dir
        · rw [readLoop_dir ⟨hdot, hdir⟩, hptr.dir ⟨hdot, hdir⟩]
          show readLoop old call path rest (int (int t + int (w ptr))) = _
          rw [int_add_int, ih]
        · by_cases hreg : ptr.d_type = .reg
          · rw [readLoop_reg hdot hreg, int_int_add, ih, hptr.reg hdot hreg]
            simp
          · rw [readLoop_other hdot hdir hreg, ih, hptr.other hdot hdir hreg]
            simp

/-- The regular files behind a listed name. -/
def listedFiles (es : List Entry) (ptr : Dirent) : ℕ :=
  match lookup es ptr.d_name.bytes with
  | some e => e.regularFiles
  | none => 0

theorem lookup_dot (es : List Entry) : lookup es dot = none := by
  rw [lookup, List.find?_eq_none]
  intro e _
  simpa using e.name.notDot

theorem lookup_dotDot (es : List Entry) : lookup es dotDot = none := by
  rw [lookup, List.find?_eq_none]
  intro e _
  simpa using e.name.notDotDot

theorem seen_ok {l : Loc} {es : List Entry} (hok : EntriesOk es) :
    EntriesOk (fs.seen l es) := shown_ok hok

theorem lookup_seen_eq_none {l : Loc} {es : List Entry} {e : Entry}
    (hok : EntriesOk es) (hmem : e ∈ es) (h : e.shown fs.typed l = none) :
    lookup (fs.seen l es) e.name.bytes = none := by
  cases hl : lookup (fs.seen l es) e.name.bytes with
  | none => rfl
  | some d' =>
      obtain ⟨hd', hname⟩ := lookup_some hl
      obtain ⟨d, hd, hshown⟩ := mem_shown.mp hd'
      rw [Entry.shown_name hshown] at hname
      rw [entry_unique hok hd hmem hname, h] at hshown
      cases hshown

/-- What is seen of an entry is found under its name. -/
theorem listedFiles_entry {l : Loc} {es : List Entry} {e : Entry}
    (hok : EntriesOk es) (hmem : e ∈ es) :
    listedFiles (fs.seen l es) (report fs.typed l e.dirent) =
      regularFiles (e.shown fs.typed l).toList := by
  rw [listedFiles, report_name, dirent_name]
  cases hshown : e.shown fs.typed l with
  | none =>
      rw [lookup_seen_eq_none hok hmem hshown]
      rfl
  | some e' =>
      have hmem' : e' ∈ fs.seen l es := mem_shown.mpr ⟨e, hmem, hshown⟩
      rw [← Entry.shown_name hshown, lookup_of_mem (seen_ok hok) hmem']
      simp [regularFiles]

theorem regularFiles_seen (l : Loc) (es : List Entry) :
    regularFiles (fs.seen l es) =
      (es.map fun e => regularFiles (e.shown fs.typed l).toList).sum := by
  induction es with
  | nil => rfl
  | cons e es ih =>
      rw [FileSystem.seen] at ih
      rw [FileSystem.seen, shown, List.map_cons, List.sum_cons, ← ih]
      cases e.shown fs.typed l with
      | none => simp [regularFiles]
      | some e' => simp [regularFiles]

/-- Whatever the order of the listing, its entries add up to the regular files
that are seen. -/
theorem listedFiles_sum {path : CString} {l : Loc} {es : List Entry}
    (h : Names fs path l es) :
    ((fs.listing l).map (listedFiles (fs.seen l es))).sum =
      regularFiles (fs.seen l es) := by
  have hperm := (fs.listing_perm l es h.holds).map (listedFiles (fs.seen l es))
  have hdot : listedFiles (fs.seen l es) (report fs.typed l dotEnt) = 0 := by
    rw [listedFiles, report_name, show dotEnt.d_name.bytes = dot from rfl, lookup_dot]
  have hdotDot : listedFiles (fs.seen l es) (report fs.typed l dotDotEnt) = 0 := by
    rw [listedFiles, report_name, show dotDotEnt.d_name.bytes = dotDot from rfl,
      lookup_dotDot]
  have hmap : ((es.map Entry.dirent).map (report fs.typed l)).map
      (listedFiles (fs.seen l es)) =
        es.map fun e => regularFiles (e.shown fs.typed l).toList := by
    rw [List.map_map, List.map_map]
    exact List.map_congr_left fun e he => listedFiles_entry h.ok he
  rw [hperm.sum_eq]
  simp only [List.map_cons, List.sum_cons, hdot, hdotDot, hmap, Nat.zero_add]
  rw [regularFiles_seen]

/-- An entry adds the regular files that are seen of it, if the calls on the
subdirectories return theirs. -/
theorem adds_listedFiles {path : CString} {l : Loc} {es : List Entry}
    {call : CString → Except Stop Int} {ptr : Dirent}
    (h : Names fs path l es) (hmem : ptr ∈ fs.listing l)
    (hcall : ∀ n sub, Entry.dir n sub ∈ es → fs.typed (l ++ [n.bytes]) = true →
      descend old call path n.cstring =
        .ok (int (regularFiles (fs.seen (l ++ [n.bytes]) sub)))) :
    Adds old call path ptr (listedFiles (fs.seen l es) ptr) := by
  refine ⟨?_, ?_, ?_, ?_⟩
  · rintro (hdot | hdot)
    · rw [listedFiles, hdot, lookup_dot]
    · rw [listedFiles, hdot, lookup_dotDot]
  · intro hsub
    obtain ⟨n, sub, hn, ht, hname⟩ := subdir_of_listed h hmem hsub
    have hl : lookup (fs.seen l es) n.bytes =
        some (.dir n (fs.seen (l ++ [n.bytes]) sub)) :=
      lookup_of_mem (seen_ok h.ok) (dir_mem_shown.mpr ⟨sub, hn, ht, rfl⟩)
    rw [hname, hcall n sub hn ht, listedFiles, hname, FileName.cstring, hl]
    simp only [Entry.regularFiles]
  · intro hdot hreg
    obtain ⟨e, he, ht, rfl⟩ := entry_of_listed h hmem hdot (by simp [hreg])
    rw [← report_typed ht, listedFiles_entry h.ok he]
    cases e with
    | dir n sub => exact absurd hreg (by simp [Entry.dirent])
    | link n target => exact absurd hreg (by simp [Entry.dirent])
    | leaf n type =>
        cases type <;> simp [Entry.dirent, LeafType.d_type] at hreg
        rw [Entry.name] at ht
        rw [Entry.shown, if_pos ht]
        rfl
  · intro hdot hdir hreg
    rcases (mem_listing h).mp hmem with rfl | rfl | ⟨e, he, rfl⟩
    · exact absurd (Or.inl (by rw [report_name]; rfl)) hdot
    · exact absurd (Or.inr (by rw [report_name]; rfl)) hdot
    · rw [listedFiles_entry h.ok he]
      cases ht : fs.typed (l ++ [e.name.bytes]) with
      | false =>
          rw [Entry.shown_unknown ht]
          rfl
      | true =>
          rw [report_typed ht] at hdir hreg
          cases e with
          | dir n sub => exact absurd rfl hdir
          | link n target =>
              rw [Entry.name] at ht
              rw [Entry.shown, if_pos ht]
              rfl
          | leaf n type =>
              rw [Entry.name] at ht
              rw [Entry.shown, if_pos ht]
              cases type with
              | reg => exact absurd rfl hreg
              | fifo => rfl
              | chr => rfl
              | blk => rfl
              | sock => rfl

/-- With room for every path and no failure on the directories that are seen,
the walk returns the number of regular files that are seen, as far as an `int`
shows it. -/
theorem getFileNum_eq_count : ∀ {fuel : ℕ} {path : CString} {l : Loc}
    {es : List Entry}, Names fs path l es → Quiet f l (fs.seen l es) →
    PathsFit path.bytes.length (fs.seen l es) → height es < fuel →
    getFileNum fs f old fuel path = .ok (int (regularFiles (fs.seen l es)))
  | 0, _, _, _, _, _, _, hh => absurd hh (Nat.not_lt_zero _)
  | fuel + 1, path, l, es, h, hq, hfit, hh => by
      have hok : EntriesOk (fs.seen l es) := seen_ok h.ok
      have hcall : ∀ n sub, Entry.dir n sub ∈ es → fs.typed (l ++ [n.bytes]) = true →
          descend old (getFileNum fs f old fuel) path n.cstring =
            .ok (int (regularFiles (fs.seen (l ++ [n.bytes]) sub))) := by
        intro n sub hmem ht
        have hseen : Entry.dir n (fs.seen (l ++ [n.bytes]) sub) ∈ fs.seen l es :=
          dir_mem_shown.mpr ⟨sub, hmem, ht, rfl⟩
        obtain ⟨hlen, hsub⟩ := (pathsFit_iff hok).mp hfit n _ hseen
        obtain ⟨s, hs, hbytes⟩ :=
          newpath_fits (old path n.cstring) n.cstring hlen
        have hslen : s.bytes.length = path.bytes.length + 1 + n.bytes.length :=
          hbytes ▸ join_length path.bytes n
        have hlt := height_sub hmem
        rw [descend, hs]
        exact getFileNum_eq_count (h.child hmem hbytes hlen) (hq.child hok hseen)
          (hslen ▸ hsub) (by omega)
      rw [getFileNum_open (hq.opendir_eq h)]
      have hadds : ∀ ptr ∈ fs.listing l, Adds old (getFileNum fs f old fuel) path
          ptr (listedFiles (fs.seen l es) ptr) :=
        fun ptr hptr => adds_listedFiles h hptr hcall
      have hsum := readLoop_sum (t := 0) hadds
      rw [listedFiles_sum h] at hsum
      simpa [int] using hsum

/-- Every regular file at or below the directory at `l` is listed with its type,
and so is every directory on the way to it. -/
def FilesTyped (fs : FileSystem) (l : Loc) (es : List Entry) : Prop :=
  ∀ rel n, entryAt es rel = some (.leaf n .reg) → knownTo fs.typed l rel = true

theorem quiet_seen {l : Loc} {es : List Entry} (hok : EntriesOk es)
    (h : Quiet f l es) : Quiet f l (fs.seen l es) := by
  intro rel sub' hrel
  obtain ⟨sub, hsub⟩ := dirAt_shown hok hrel
  exact h rel sub hsub

theorem pathsFit_seen {len : ℕ} {l : Loc} {es : List Entry} (hok : EntriesOk es)
    (h : PathsFit len es) : PathsFit len (fs.seen l es) := by
  intro rel sub' hne hrel
  obtain ⟨sub, hsub⟩ := dirAt_shown hok hrel
  exact h rel sub hne hsub

/-- Where all types are reported everything is seen. -/
theorem ofTree_seen (root : List Entry) (ok : EntriesOk root) (l : Loc)
    (es : List Entry) : (FileSystem.ofTree root ok).seen l es = es :=
  shown_true l es

theorem ofTree_filesTyped (root : List Entry) (ok : EntriesOk root) (l : Loc)
    {es : List Entry} (hok : EntriesOk es) : FilesTyped (.ofTree root ok) l es :=
  (regularFiles_shown_eq_iff hok).mp (congrArg regularFiles (ofTree_seen root ok l es))

theorem quiet_noFaults (l : Loc) (es : List Entry) : Quiet (noFaults fs) l es :=
  fun _ _ _ => ⟨rfl, rfl⟩

end

/-- **The count is exact.** On every tree, for every path that names one of its
directories and every listing order, `getFileNum` returns the number of places
at or below the directory that hold a regular file. Of the types only those of
the regular files and of the directories above them have to be reported. -/
theorem getFileNum_counts_regular_files (fs : FileSystem) (f : Faults fs)
    (old : CString → CString → Buf Byte 256) (path : CString) (l : Loc)
    (es : List Entry) (h : Names fs path l es) (htyped : FilesTyped fs l es)
    (hquiet : Quiet f l es) (hfit : PathsFit path.bytes.length es)
    (hint : regularFileCount es ≤ 2 ^ 31 - 1) :
    ∃ N, ∀ fuel, N ≤ fuel →
      getFileNum fs f old fuel path = .ok (regularFileCount es) := by
  refine ⟨height es + 1, fun fuel hfuel => ?_⟩
  rw [regularFileCount_eq h.ok] at hint ⊢
  rw [getFileNum_eq_count h (quiet_seen h.ok hquiet) (pathsFit_seen h.ok hfit) hfuel,
    FileSystem.seen, (regularFiles_shown_eq_iff h.ok).mpr htyped,
    (int_eq_self_iff _).mpr hint]

/-- A name written as a literal. -/
def FileName.ofLiteral (s : String)
    (h : literal s ≠ [] ∧ slash ∉ literal s ∧ NUL ∉ literal s ∧
      literal s ≠ dot ∧ literal s ≠ dotDot := by decide) : FileName :=
  ⟨literal s, h.1, h.2.1, h.2.2.1, h.2.2.2.1, h.2.2.2.2⟩

/-- `a`, with regular files on two levels, a pipe and a link back up. -/
def sampleDir : List Entry :=
  [.leaf (.ofLiteral "x") .reg,
   .dir (.ofLiteral "b")
     [.link (.ofLiteral "up") (literal "/a"),
      .leaf (.ofLiteral "y") .reg,
      .leaf (.ofLiteral "p") .fifo]]

def sampleRoot : List Entry :=
  [.link (.ofLiteral "s") (literal "a/./b/.."), .dir (.ofLiteral "a") sampleDir,
   .leaf (.ofLiteral "z") .reg]

theorem sampleRoot_ok : EntriesOk sampleRoot := by
  simp [sampleRoot, sampleDir, EntriesOk, Entry.Ok, Entry.name,
    FileName.ofLiteral, literal]

def sampleFs : FileSystem := .ofTree sampleRoot sampleRoot_ok

/-- Below `s//`, a link to `a`, there are two regular files. -/
theorem getFileNum_counts_sample :
    ∃ N, ∀ fuel, N ≤ fuel →
      getFileNum sampleFs (noFaults sampleFs) (fun _ _ => Buf.fill 7 256) fuel
        ⟨literal "s//", by decide⟩ = .ok 2 := by
  have h : Names sampleFs ⟨literal "s//", by decide⟩ [literal "a"] sampleDir :=
    ⟨by decide, rfl⟩
  have hcount : regularFileCount sampleDir = 2 := regularFileCount_eq h.ok
  have hfit : PathsFit 3 sampleDir := by
    rw [pathsFit_iff h.ok]
    intro n sub hmem
    have hsub : EntriesOk sub := ok_sub h.ok hmem
    simp only [sampleDir, List.mem_cons, Entry.dir.injEq, reduceCtorEq,
      List.not_mem_nil, or_false, false_or] at hmem
    obtain ⟨rfl, rfl⟩ := hmem
    refine ⟨by decide, (pathsFit_iff hsub).mpr fun n sub hmem => ?_⟩
    simp at hmem
  have hmain := getFileNum_counts_regular_files sampleFs (noFaults sampleFs)
    (fun _ _ => Buf.fill 7 256) ⟨literal "s//", by decide⟩ [literal "a"] sampleDir
    h (ofTree_filesTyped _ _ _ h.ok) (quiet_noFaults _ _) hfit (by rw [hcount]; decide)
  rwa [hcount] at hmain

end LinuxServer.FileNum
