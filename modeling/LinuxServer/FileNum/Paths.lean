import LinuxServer.FileNum.FileTree

/-!
# Path resolution

How the kernel turns the string given to `opendir` into a directory: split on
`/`, ignore empty components, go down name by name. `.` stays, `..` goes up,
and a symbolic link, wherever it stands in the path, is replaced by its target
(at most 40 times, then `ELOOP`). The empty string names nothing (`ENOENT`), and
a string of more than 4095 bytes is refused (`ENAMETOOLONG`).

`readFileNum.c` never extends a location; it extends the string and resolves
it again from the root. `resolve_join` is what makes the two the same.
-/

namespace LinuxServer.FileNum

open LinuxServer.Framework

def components (path : List Byte) : List (List Byte) :=
  (path.splitOn slash).filter (· ≠ [])

/-- `path/name` has one component more, however `path` ends. -/
theorem components_join (path : List Byte) (n : FileName) :
    components (path ++ slash :: n.bytes) = components path ++ [n.bytes] := by
  rw [components, List.splitOn_append_cons_self, List.filter_append,
    List.splitOn_eq_singleton n.noSlash]
  simp [components, n.nonempty]

section Walk

variable (root : List Entry)

/-- Go down component by component from `loc`. What to do at a symbolic link
is left to `follow`. -/
def walkWith (follow : Loc → List Byte → List (List Byte) → Option Loc) :
    Loc → List (List Byte) → Option Loc
  | loc, [] => some loc
  | loc, n :: ns =>
      if n = dot then walkWith follow loc ns
      else if n = dotDot then walkWith follow loc.dropLast ns
      else
        match (dirAt root loc).bind (lookup · n) with
        | some (.dir _ _) => walkWith follow (loc ++ [n]) ns
        | some (.link _ target) => follow loc target ns
        | _ => none

/-- Resolution with at most `hops` symbolic links. -/
def walk : ℕ → Loc → List (List Byte) → Option Loc
  | 0 => walkWith root fun _ _ _ => none
  | hops + 1 => walkWith root fun loc target ns =>
      if target = [] then none
      else
        walk hops (if target.head? = some slash then [] else loc)
          (components target ++ ns)

/-- `PATH_MAX`, which counts the terminator. -/
def pathMax : ℕ := 4096

/-- The directory `opendir(path)` opens. -/
def resolve (path : List Byte) : Option Loc :=
  if path = [] ∨ pathMax ≤ path.length then none
  else walk root 40 [] (components path)

end Walk

variable {root : List Entry}

/-! ## Resolution ends in a directory -/

/-- `l` is the location of a directory. -/
def IsDir (root : List Entry) (l : Loc) : Prop := ∃ es, dirAt root l = some es

theorem isDir_of_append : ∀ {root : List Entry} {l l' : Loc},
    IsDir root (l ++ l') → IsDir root l
  | root, [], _, _ => ⟨root, rfl⟩
  | root, n :: l, l', ⟨es, h⟩ => by
      rw [List.cons_append, dirAt] at h
      split at h
      · rename_i name sub hl
        obtain ⟨mid, hmid⟩ := isDir_of_append ⟨es, h⟩
        refine ⟨mid, ?_⟩
        rw [dirAt, hl]
        exact hmid
      · exact absurd h (by simp)

theorem isDir_dropLast {l : Loc} (h : IsDir root l) : IsDir root l.dropLast := by
  by_cases hl : l = []
  · rw [hl]
    exact ⟨root, rfl⟩
  · rw [← List.dropLast_append_getLast hl] at h
    exact isDir_of_append h

theorem isDir_snoc {l : Loc} {n : List Byte} {name : FileName}
    {sub : List Entry}
    (h : (dirAt root l).bind (lookup · n) = some (.dir name sub)) :
    IsDir root (l ++ [n]) := by
  obtain ⟨es, hes, hl⟩ := Option.bind_eq_some_iff.mp h
  refine ⟨sub, ?_⟩
  rw [dirAt_append [n] hes, dirAt, hl]
  rfl

theorem walkWith_isDir {follow : Loc → List Byte → List (List Byte) → Option Loc}
    (hfollow : ∀ l target ns l', IsDir root l → follow l target ns = some l' →
      IsDir root l') :
    ∀ {ns : List (List Byte)} {l l' : Loc}, IsDir root l →
      walkWith root follow l ns = some l' → IsDir root l'
  | [], l, l', hl, h => by
      rw [walkWith] at h
      rwa [← Option.some.inj h]
  | n :: ns, l, l', hl, h => by
      rw [walkWith] at h
      split at h
      · exact walkWith_isDir hfollow hl h
      · split at h
        · exact walkWith_isDir hfollow (isDir_dropLast hl) h
        · split at h
          · rename_i name sub hdir
            exact walkWith_isDir hfollow (isDir_snoc hdir) h
          · exact hfollow _ _ _ _ hl h
          · exact absurd h (by simp)

theorem walk_isDir : ∀ {hops : ℕ} {ns : List (List Byte)} {l l' : Loc},
    IsDir root l → walk root hops l ns = some l' → IsDir root l'
  | 0, _, _, _, hl, h =>
      walkWith_isDir (fun _ _ _ _ _ hf => absurd hf (by simp)) hl h
  | hops + 1, ns, l, l', hl, h => by
      rw [walk] at h
      refine walkWith_isDir (fun l target ns l' hl hf => ?_) hl h
      rw [Option.ite_none_left_eq_some] at hf
      refine walk_isDir ?_ hf.2
      split
      · exact ⟨root, rfl⟩
      · exact hl

/-- A path that resolves names a directory. -/
theorem resolve_isDir {path : List Byte} {l : Loc}
    (h : resolve root path = some l) : IsDir root l := by
  rw [resolve, Option.ite_none_left_eq_some] at h
  exact walk_isDir ⟨root, rfl⟩ h.2

/-! ## One more component -/

theorem walkWith_snoc {follow : Loc → List Byte → List (List Byte) → Option Loc}
    {n : FileName}
    (hfollow : ∀ l target ns l', follow l target ns = some l' →
      (∃ name sub, (dirAt root l').bind (lookup · n.bytes) =
        some (.dir name sub)) →
      follow l target (ns ++ [n.bytes]) = some (l' ++ [n.bytes])) :
    ∀ {ns : List (List Byte)} {l l' : Loc},
      walkWith root follow l ns = some l' →
      (∃ name sub, (dirAt root l').bind (lookup · n.bytes) =
        some (.dir name sub)) →
      walkWith root follow l (ns ++ [n.bytes]) = some (l' ++ [n.bytes])
  | [], l, l', h, ⟨name, sub, hn⟩ => by
      rw [walkWith] at h
      rw [Option.some.inj h, List.nil_append, walkWith, if_neg n.notDot,
        if_neg n.notDotDot, hn]
      rfl
  | m :: ns, l, l', h, hn => by
      rw [walkWith] at h
      rw [List.cons_append, walkWith]
      split at h
      · rename_i hm
        rw [if_pos hm]
        exact walkWith_snoc hfollow h hn
      · rename_i hm
        rw [if_neg hm]
        split at h
        · rename_i hm'
          rw [if_pos hm']
          exact walkWith_snoc hfollow h hn
        · rename_i hm'
          rw [if_neg hm']
          split at h
          · exact walkWith_snoc hfollow h hn
          · exact hfollow _ _ _ _ h hn
          · exact absurd h (by simp)

theorem walk_snoc {n : FileName} : ∀ {hops : ℕ} {ns : List (List Byte)}
    {l l' : Loc}, walk root hops l ns = some l' →
    (∃ name sub, (dirAt root l').bind (lookup · n.bytes) =
      some (.dir name sub)) →
    walk root hops l (ns ++ [n.bytes]) = some (l' ++ [n.bytes])
  | 0, _, _, _, h, hn =>
      walkWith_snoc (fun _ _ _ _ hf _ => absurd hf (by simp)) h hn
  | hops + 1, ns, l, l', h, hn => by
      rw [walk] at h ⊢
      refine walkWith_snoc (fun l target ns l' hf hn => ?_) h hn
      rw [Option.ite_none_left_eq_some] at hf
      rw [if_neg hf.1, ← List.append_assoc]
      exact walk_snoc hf.2 hn

/-- **Strings and the tree move together.** If `path` names a directory that
holds the directory `n`, then `path/n` names that one, if it is not too long. -/
theorem resolve_join {path : List Byte} {l : Loc} {es sub : List Entry}
    {n : FileName} (hres : resolve root path = some l)
    (hdir : dirAt root l = some es) (hok : EntriesOk es)
    (hmem : Entry.dir n sub ∈ es)
    (hlen : (path ++ slash :: n.bytes).length < pathMax) :
    resolve root (path ++ slash :: n.bytes) = some (l ++ [n.bytes]) ∧
      dirAt root (l ++ [n.bytes]) = some sub := by
  rw [resolve, Option.ite_none_left_eq_some] at hres
  constructor
  · rw [resolve, if_neg (by simpa using hlen), components_join]
    refine walk_snoc hres.2 ⟨n, sub, ?_⟩
    rw [hdir]
    exact lookup_of_mem hok hmem
  · rw [dirAt_append [n.bytes] hdir, dirAt_cons_dir hok hmem, dirAt]

end LinuxServer.FileNum
