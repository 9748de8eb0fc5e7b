import LinuxServer.Framework.TerminatedText

/-!
# Directory trees

What a file system holds, seen without paths, calls or listing orders: the
tree `readFileNum.c` walks over and the number it is asked for.

The number is stated twice. `regularFileCount` is the definition: how many
locations below a directory hold a regular file. `regularFiles` is the sum
over the tree that the proofs work with; `regularFileCount_eq` identifies
them on trees whose sibling names are distinct. `shown` is the part of a tree
that is left when the types of some entries are not known.
-/

namespace LinuxServer.FileNum

open LinuxServer.Framework

/-! ## Names and entries -/

def slash : Byte := 47

def dot : List Byte := [46]

def dotDot : List Byte := [46, 46]

/-- A name a directory can hold besides `.` and `..`. -/
structure FileName where
  bytes : List Byte
  nonempty : bytes ≠ []
  noSlash : slash ∉ bytes
  noNul : NUL ∉ bytes
  notDot : bytes ≠ dot
  notDotDot : bytes ≠ dotDot

/-- Entries that are neither directories nor symbolic links. -/
inductive LeafType where
  | fifo
  | chr
  | blk
  | reg
  | sock
deriving DecidableEq

/-- One entry of a directory. -/
inductive Entry where
  | dir (name : FileName) (entries : List Entry)
  | link (name : FileName) (target : List Byte)
  | leaf (name : FileName) (type : LeafType)

def Entry.name : Entry → FileName
  | .dir n _ => n
  | .link n _ => n
  | .leaf n _ => n

/-- A place below a directory: the names on the way down. -/
abbrev Loc : Type := List (List Byte)

def lookup (es : List Entry) (n : List Byte) : Option Entry :=
  es.find? fun e => e.name.bytes = n

/-- The entries of the directory at `l`; the empty location is the directory
one starts from. -/
def dirAt : List Entry → Loc → Option (List Entry)
  | es, [] => some es
  | es, n :: ns =>
      match lookup es n with
      | some (.dir _ sub) => dirAt sub ns
      | _ => none

/-- The entry at a location below. -/
def entryAt : List Entry → Loc → Option Entry
  | _, [] => none
  | es, [n] => lookup es n
  | es, n :: ns =>
      match lookup es n with
      | some (.dir _ sub) => entryAt sub ns
      | _ => none

/-- How many locations below the directory hold a regular file. -/
noncomputable def regularFileCount (es : List Entry) : ℕ :=
  Set.ncard {l : Loc | ∃ n, entryAt es l = some (.leaf n .reg)}

/-! ## Distinct siblings -/

mutual
def Entry.Ok : Entry → Prop
  | .dir _ es => EntriesOk es
  | .link _ _ => True
  | .leaf _ _ => True
/-- No two siblings anywhere in the tree have the same name. -/
def EntriesOk : List Entry → Prop
  | [] => True
  | e :: es =>
      e.Ok ∧ (∀ e' ∈ es, e'.name.bytes ≠ e.name.bytes) ∧ EntriesOk es
end

theorem lookup_some {es : List Entry} {n : List Byte} {e : Entry}
    (h : lookup es n = some e) : e ∈ es ∧ e.name.bytes = n := by
  refine ⟨List.mem_of_find?_eq_some h, ?_⟩
  simpa using List.find?_some h

theorem ok_of_mem : ∀ {es : List Entry} {e : Entry}, EntriesOk es → e ∈ es → e.Ok
  | d :: es, e, h, hmem => by
      rw [EntriesOk] at h
      rcases List.mem_cons.mp hmem with rfl | hmem
      · exact h.1
      · exact ok_of_mem h.2.2 hmem

theorem ok_sub {es sub : List Entry} {n : FileName} (h : EntriesOk es)
    (hmem : Entry.dir n sub ∈ es) : EntriesOk sub := by
  have hok := ok_of_mem h hmem
  rwa [Entry.Ok] at hok

/-- With distinct siblings a name finds its own entry. -/
theorem lookup_of_mem : ∀ {es : List Entry} {e : Entry}, EntriesOk es → e ∈ es →
    lookup es e.name.bytes = some e
  | d :: es, e, h, hmem => by
      rw [EntriesOk] at h
      rcases List.mem_cons.mp hmem with rfl | hmem
      · simp [lookup]
      · have hne : ¬ d.name.bytes = e.name.bytes :=
          fun heq => h.2.1 e hmem heq.symm
        have ih := lookup_of_mem h.2.2 hmem
        simpa [lookup, List.find?_cons, hne] using ih

theorem entry_unique {es : List Entry} {e e' : Entry} (h : EntriesOk es)
    (hmem : e ∈ es) (hmem' : e' ∈ es) (hname : e.name.bytes = e'.name.bytes) :
    e = e' := by
  have hl := lookup_of_mem h hmem
  rw [hname, lookup_of_mem h hmem'] at hl
  exact (Option.some.inj hl).symm

theorem dirAt_cons_dir {es sub : List Entry} {n : FileName} (h : EntriesOk es)
    (hmem : Entry.dir n sub ∈ es) (l : Loc) :
    dirAt es (n.bytes :: l) = dirAt sub l := by
  have hl : lookup es n.bytes = some (.dir n sub) := lookup_of_mem h hmem
  rw [dirAt, hl]

/-- Going down one name means going down into one directory entry. -/
theorem dirAt_cons {es sub : List Entry} {n : List Byte} {l : Loc}
    (h : dirAt es (n :: l) = some sub) :
    ∃ name mid, Entry.dir name mid ∈ es ∧ name.bytes = n ∧
      dirAt mid l = some sub := by
  rw [dirAt] at h
  split at h
  · rename_i name mid hl
    exact ⟨name, mid, (lookup_some hl).1, (lookup_some hl).2, h⟩
  · exact absurd h (by simp)

theorem dirAt_append : ∀ {es mid : List Entry} {l : Loc} (l' : Loc),
    dirAt es l = some mid → dirAt es (l ++ l') = dirAt mid l'
  | es, mid, [], l', h => by
      rw [dirAt] at h
      rw [Option.some.inj h, List.nil_append]
  | es, mid, n :: l, l', h => by
      rw [dirAt] at h
      rw [List.cons_append, dirAt]
      split at h
      · exact dirAt_append l' h
      · exact absurd h (by simp)

theorem ok_dirAt : ∀ {es sub : List Entry} {l : Loc}, EntriesOk es →
    dirAt es l = some sub → EntriesOk sub
  | es, sub, [], hok, h => by
      rw [dirAt] at h
      rwa [← Option.some.inj h]
  | es, sub, n :: l, hok, h => by
      obtain ⟨name, mid, hmem, -, hmid⟩ := dirAt_cons h
      exact ok_dirAt (ok_sub hok hmem) hmid

/-! ## Height -/

mutual
def Entry.height : Entry → ℕ
  | .dir _ es => height es + 1
  | .link _ _ => 0
  | .leaf _ _ => 0
/-- The number of directory levels below. -/
def height : List Entry → ℕ
  | [] => 0
  | e :: es => max e.height (height es)
end

theorem height_of_mem : ∀ {es : List Entry} {e : Entry}, e ∈ es →
    e.height ≤ height es
  | d :: es, e, hmem => by
      rw [height]
      rcases List.mem_cons.mp hmem with rfl | hmem
      · exact le_max_left _ _
      · exact le_trans (height_of_mem hmem) (le_max_right _ _)

theorem height_sub {es sub : List Entry} {n : FileName}
    (hmem : Entry.dir n sub ∈ es) : height sub < height es := by
  have h := height_of_mem hmem
  rw [Entry.height] at h
  omega

/-! ## The count as a sum over the tree -/

mutual
def Entry.regularFiles : Entry → ℕ
  | .dir _ es => regularFiles es
  | .link _ _ => 0
  | .leaf _ .reg => 1
  | .leaf _ _ => 0
def regularFiles : List Entry → ℕ
  | [] => 0
  | e :: es => e.regularFiles + regularFiles es
end

theorem regularFiles_eq_sum : ∀ es : List Entry,
    regularFiles es = (es.map Entry.regularFiles).sum
  | [] => rfl
  | e :: es => by
      rw [regularFiles, List.map_cons, List.sum_cons, regularFiles_eq_sum es]

mutual
/-- The locations of the regular files of an entry, from its parent. -/
def Entry.files : Entry → List Loc
  | .dir n es => (files es).map (n.bytes :: ·)
  | .link _ _ => []
  | .leaf n .reg => [[n.bytes]]
  | .leaf _ _ => []
def files : List Entry → List Loc
  | [] => []
  | e :: es => e.files ++ files es
end

mutual
theorem Entry.files_length : ∀ e : Entry, e.files.length = e.regularFiles
  | .dir n es => by
      rw [Entry.files, Entry.regularFiles, List.length_map, files_length es]
  | .link _ _ => rfl
  | .leaf _ .reg => rfl
  | .leaf _ .fifo => rfl
  | .leaf _ .chr => rfl
  | .leaf _ .blk => rfl
  | .leaf _ .sock => rfl
theorem files_length : ∀ es : List Entry, (files es).length = regularFiles es
  | [] => rfl
  | e :: es => by
      rw [files, regularFiles, List.length_append, Entry.files_length e,
        files_length es]
end

theorem mem_files {l : Loc} : ∀ {es : List Entry},
    l ∈ files es ↔ ∃ e ∈ es, l ∈ e.files
  | [] => by simp [files]
  | e :: es => by
      rw [files, List.mem_append, mem_files]
      simp

/-- Every location an entry lists starts with the entry's name. -/
theorem Entry.files_head : ∀ {e : Entry} {l : Loc}, l ∈ e.files →
    ∃ l', l = e.name.bytes :: l'
  | .dir n es, l, h => by
      rw [Entry.files, List.mem_map] at h
      obtain ⟨l', -, rfl⟩ := h
      exact ⟨l', rfl⟩
  | .leaf n .reg, l, h => by
      rw [Entry.files, List.mem_singleton] at h
      exact ⟨[], h⟩

mutual
theorem Entry.files_nodup : ∀ {e : Entry}, e.Ok → e.files.Nodup
  | .dir n es, h => by
      rw [Entry.Ok] at h
      rw [Entry.files]
      exact (files_nodup h).map (fun a b hab => (List.cons.inj hab).2)
  | .link _ _, _ => List.nodup_nil
  | .leaf _ .reg, _ => List.nodup_singleton _
  | .leaf _ .fifo, _ => List.nodup_nil
  | .leaf _ .chr, _ => List.nodup_nil
  | .leaf _ .blk, _ => List.nodup_nil
  | .leaf _ .sock, _ => List.nodup_nil
theorem files_nodup : ∀ {es : List Entry}, EntriesOk es → (files es).Nodup
  | [], _ => List.nodup_nil
  | e :: es, h => by
      rw [EntriesOk] at h
      rw [files, List.nodup_append]
      refine ⟨Entry.files_nodup h.1, files_nodup h.2.2, ?_⟩
      rintro a ha b hb rfl
      -- the same location from two siblings would give them one name
      obtain ⟨l₁, h₁⟩ := Entry.files_head ha
      obtain ⟨d, hd, hbd⟩ := mem_files.mp hb
      obtain ⟨l₂, h₂⟩ := Entry.files_head hbd
      rw [h₁] at h₂
      exact h.2.1 d hd (List.cons.inj h₂).1.symm
end

theorem nil_not_mem_files (es : List Entry) : [] ∉ files es := by
  intro h
  obtain ⟨e, -, he⟩ := mem_files.mp h
  obtain ⟨l, hl⟩ := Entry.files_head he
  exact absurd hl (by simp)

/-- A listed location belongs to the entry its first name finds. -/
theorem cons_mem_files {es : List Entry} {n : List Byte} {l : Loc}
    (hok : EntriesOk es) :
    n :: l ∈ files es ↔ ∃ e, lookup es n = some e ∧ n :: l ∈ e.files := by
  rw [mem_files]
  constructor
  · rintro ⟨e, hmem, hl⟩
    obtain ⟨l', hl'⟩ := Entry.files_head hl
    refine ⟨e, ?_, hl⟩
    rw [(List.cons.inj hl').1]
    exact lookup_of_mem hok hmem
  · rintro ⟨e, he, hl⟩
    exact ⟨e, (lookup_some he).1, hl⟩

theorem mem_files_iff : ∀ {l : Loc} {es : List Entry}, EntriesOk es →
    (l ∈ files es ↔ ∃ n, entryAt es l = some (.leaf n .reg))
  | [], es, _ => by
      simp [nil_not_mem_files, entryAt]
  | [n], es, hok => by
      rw [cons_mem_files hok, entryAt]
      constructor
      · rintro ⟨e, he, hl⟩
        cases e with
        | dir name sub =>
            rw [Entry.files, List.mem_map] at hl
            obtain ⟨l', hl', heq⟩ := hl
            rw [(List.cons.inj heq).2] at hl'
            exact absurd hl' (nil_not_mem_files sub)
        | link name target => exact absurd hl (by simp [Entry.files])
        | leaf name type =>
            cases type with
            | reg => exact ⟨name, he⟩
            | fifo => exact absurd hl (by simp [Entry.files])
            | chr => exact absurd hl (by simp [Entry.files])
            | blk => exact absurd hl (by simp [Entry.files])
            | sock => exact absurd hl (by simp [Entry.files])
      · rintro ⟨name, he⟩
        refine ⟨_, he, ?_⟩
        have hname : name.bytes = n := (lookup_some he).2
        rw [Entry.files, hname]
        exact List.mem_singleton_self _
  | n :: m :: ns, es, hok => by
      rw [cons_mem_files hok]
      cases he : lookup es n with
      | none => simp [entryAt, he]
      | some e =>
          cases e with
          | dir name sub =>
              have hname : name.bytes = n := (lookup_some he).2
              have hsub := ok_sub hok (lookup_some he).1
              simp only [entryAt, he, Option.some.injEq, exists_eq_left',
                Entry.files, hname]
              rw [← mem_files_iff hsub]
              simp
          | link name target => simp [entryAt, he, Entry.files]
          | leaf name type => cases type <;> simp [entryAt, he, Entry.files]

/-- The sum over the tree counts each regular file once. -/
theorem regularFileCount_eq {es : List Entry} (hok : EntriesOk es) :
    regularFileCount es = regularFiles es := by
  have hset : {l : Loc | ∃ n, entryAt es l = some (.leaf n .reg)} =
      ((files es).toFinset : Set Loc) := by
    ext l
    rw [Set.mem_ofPred_eq, ← mem_files_iff hok]
    simp
  rw [regularFileCount, hset, Set.ncard_coe_finset,
    List.toFinset_card_of_nodup (files_nodup hok), files_length]

/-! ## What is left when some types are not known

A listing need not give the type of an entry. An entry without its type is
neither counted nor entered, so for the program it is not there, and nothing
below it is. -/

section Shown

variable (known : Loc → Bool)

mutual
/-- An entry of the directory at `l`, if its type is known. -/
def Entry.shown (l : Loc) : Entry → Option Entry
  | .dir n es =>
      if known (l ++ [n.bytes]) then some (.dir n (shown (l ++ [n.bytes]) es)) else none
  | .link n target => if known (l ++ [n.bytes]) then some (.link n target) else none
  | .leaf n type => if known (l ++ [n.bytes]) then some (.leaf n type) else none
/-- The tree below `l` without the entries whose type is not known. -/
def shown (l : Loc) : List Entry → List Entry
  | [] => []
  | e :: es =>
      match e.shown l with
      | some e' => e' :: shown l es
      | none => shown l es
end

/-- Whether the types of all entries on the way from `l` down to `rel` are
known, that of the last one too. -/
def knownTo : Loc → Loc → Bool
  | _, [] => true
  | l, n :: ns => known (l ++ [n]) && knownTo (l ++ [n]) ns

variable {known} {l : Loc}

theorem mem_shown {e' : Entry} : ∀ {es : List Entry},
    e' ∈ shown known l es ↔ ∃ e ∈ es, e.shown known l = some e'
  | [] => by simp [shown]
  | e :: es => by
      rw [shown]
      cases he : e.shown known l with
      | none => simp [he, mem_shown]
      | some d => simp [he, mem_shown, eq_comm]

theorem Entry.shown_name {e e' : Entry} (h : e.shown known l = some e') :
    e'.name = e.name := by
  cases e with
  | dir n es | link n target | leaf n type =>
      rw [Entry.shown, Option.ite_none_right_eq_some] at h
      have hname := congrArg Entry.name (Option.some.inj h.2)
      exact hname.symm

theorem Entry.shown_unknown {e : Entry} (h : known (l ++ [e.name.bytes]) = false) :
    e.shown known l = none := by
  cases e with
  | dir n es | link n target | leaf n type =>
      rw [Entry.name] at h
      rw [Entry.shown, h, if_neg Bool.false_ne_true]

/-- A directory that is shown is one of the tree, with its type known. -/
theorem dir_mem_shown {es sub' : List Entry} {n : FileName} :
    Entry.dir n sub' ∈ shown known l es ↔ ∃ sub, Entry.dir n sub ∈ es ∧
      known (l ++ [n.bytes]) = true ∧ sub' = shown known (l ++ [n.bytes]) sub := by
  rw [mem_shown]
  constructor
  · rintro ⟨e, hmem, he⟩
    cases e with
    | dir m sub =>
        rw [Entry.shown, Option.ite_none_right_eq_some] at he
        obtain ⟨hknown, he⟩ := he
        obtain ⟨rfl, rfl⟩ := Entry.dir.inj (Option.some.inj he)
        exact ⟨sub, hmem, hknown, rfl⟩
    | link m target | leaf m type =>
        rw [Entry.shown, Option.ite_none_right_eq_some] at he
        exact absurd he.2 (by simp)
  · rintro ⟨sub, hmem, hknown, rfl⟩
    refine ⟨_, hmem, ?_⟩
    rw [Entry.shown, if_pos hknown]

mutual
theorem Entry.shown_ok {l : Loc} : ∀ {e e' : Entry}, e.Ok →
    e.shown known l = some e' → e'.Ok
  | .dir n es, e', h, he => by
      rw [Entry.Ok] at h
      rw [Entry.shown, Option.ite_none_right_eq_some] at he
      rw [← Option.some.inj he.2, Entry.Ok]
      exact shown_ok h
  | .link n target, e', h, he => by
      rw [Entry.shown, Option.ite_none_right_eq_some] at he
      rwa [← Option.some.inj he.2]
  | .leaf n type, e', h, he => by
      rw [Entry.shown, Option.ite_none_right_eq_some] at he
      rwa [← Option.some.inj he.2]
/-- Siblings that are shown have distinct names as before. -/
theorem shown_ok {l : Loc} : ∀ {es : List Entry}, EntriesOk es →
    EntriesOk (shown known l es)
  | [], _ => trivial
  | e :: es, h => by
      rw [EntriesOk] at h
      rw [shown]
      cases he : e.shown known l with
      | none => exact shown_ok h.2.2
      | some e' =>
          refine ⟨Entry.shown_ok h.1 he, fun d' hd' => ?_, shown_ok h.2.2⟩
          obtain ⟨d, hd, hshown⟩ := mem_shown.mp hd'
          rw [Entry.shown_name hshown, Entry.shown_name he]
          exact h.2.1 d hd
end

mutual
theorem Entry.shown_true : ∀ (l : Loc) (e : Entry), e.shown (fun _ => true) l = some e
  | l, .dir n es => by
      rw [Entry.shown, if_pos rfl, shown_true _ es]
  | _, .link _ _ => rfl
  | _, .leaf _ _ => rfl
theorem shown_true : ∀ (l : Loc) (es : List Entry), shown (fun _ => true) l es = es
  | _, [] => rfl
  | l, e :: es => by
      rw [shown, Entry.shown_true l e, shown_true l es]
end

/-- A directory of the shown tree is a directory of the tree. -/
theorem dirAt_shown : ∀ {rel l : Loc} {es sub' : List Entry}, EntriesOk es →
    dirAt (shown known l es) rel = some sub' → ∃ sub, dirAt es rel = some sub
  | [], _, es, _, _, _ => ⟨es, by rw [dirAt]⟩
  | n :: rel, l, es, sub', hok, h => by
      obtain ⟨name, mid', hmem', rfl, hmid⟩ := dirAt_cons h
      obtain ⟨mid, hmem, -, rfl⟩ := dir_mem_shown.mp hmem'
      rw [dirAt_cons_dir hok hmem]
      exact dirAt_shown (ok_sub hok hmem) hmid

mutual
theorem Entry.files_shown {l : Loc} : ∀ e : Entry,
    files (e.shown known l).toList = e.files.filter (knownTo known l)
  | .dir n es => by
      rw [Entry.files, List.filter_map, Entry.shown]
      cases hknown : known (l ++ [n.bytes]) with
      | false => simp [knownTo, hknown, files, Function.comp_def]
      | true =>
          have ih := files_shown (l := l ++ [n.bytes]) es
          simp [knownTo, hknown, files, Entry.files, Function.comp_def, ih]
  | .link n target => by
      rw [Entry.shown]
      split <;> rfl
  | .leaf n .reg => by
      rw [Entry.shown]
      cases hknown : known (l ++ [n.bytes]) with
      | false => simp [knownTo, hknown, files, Entry.files]
      | true => simp [knownTo, hknown, files, Entry.files]
  | .leaf n .fifo => by
      rw [Entry.shown]
      split <;> rfl
  | .leaf n .chr => by
      rw [Entry.shown]
      split <;> rfl
  | .leaf n .blk => by
      rw [Entry.shown]
      split <;> rfl
  | .leaf n .sock => by
      rw [Entry.shown]
      split <;> rfl
/-- The regular files that are shown are those with all types on the way to
them known. -/
theorem files_shown {l : Loc} : ∀ es : List Entry,
    files (shown known l es) = (files es).filter (knownTo known l)
  | [] => rfl
  | e :: es => by
      have ihe := Entry.files_shown (l := l) e
      have ih := files_shown (l := l) es
      rw [shown, files, List.filter_append, ← ihe, ← ih]
      cases e.shown known l with
      | none => simp [files]
      | some e' => simp [files]
end

theorem regularFiles_shown_le (es : List Entry) :
    regularFiles (shown known l es) ≤ regularFiles es := by
  rw [← files_length, ← files_length, files_shown]
  exact List.length_filter_le _ _

/-- Nothing is missed iff all types on the way to the regular files are known. -/
theorem regularFiles_shown_eq_iff {es : List Entry} (hok : EntriesOk es) :
    regularFiles (shown known l es) = regularFiles es ↔
      ∀ rel n, entryAt es rel = some (.leaf n .reg) → knownTo known l rel = true := by
  rw [← files_length, ← files_length, files_shown, List.length_filter_eq_length_iff]
  constructor
  · intro h rel n hn
    exact h rel ((mem_files_iff hok).mpr ⟨n, hn⟩)
  · intro h rel hrel
    obtain ⟨n, hn⟩ := (mem_files_iff hok).mp hrel
    exact h rel n hn

end Shown

end LinuxServer.FileNum
