import LinuxServer.Framework.Reachability
import LinuxServer.Framework.TerminatedText

/-!
# `daemon.c` and `demo.c`

A process leaves its terminal and then writes down the time whenever a timer
fires, every two seconds, from the handler of `SIGALRM`: `daemon.c` appends to
`time.txt`, `demo.c` prints. Up to that both are one program, so both are one
definition with the `Program` as a parameter.

- §1 the programs
- §2 the invariant
- §3 results
-/

namespace LinuxServer.Daemon

open LinuxServer.Framework

/-! ## §1  The programs -/

inductive Program where
  | daemon
  | demo
deriving DecidableEq

/-- What a descriptor refers to. -/
inductive Target where
  | terminal
  | null
  | timeTxt
deriving DecidableEq

/-- Where `main` is. -/
inductive Pc where
  | fork
  | setsid
  | chdir
  | openNull
  /-- `dup2(fd, k)`, with `none` for `-1`. -/
  | dup (fd : Option ℕ) (k : ℕ)
  /-- `sigaction` and `setitimer`. -/
  | arm
  | loop
  | exited
deriving DecidableEq

/-- Where the handler `work` is, with the time it was told. -/
inductive Frame where
  | idle
  | time
  | openTime (t : ℕ)
  | write (t : ℕ) (fd : Option ℕ)
  | close (fd : Option ℕ)
  | print (t : ℕ)
deriving DecidableEq

/-- The process, its process group and its session. -/
structure Ids where
  pid : ℕ
  pgid : ℕ
  sid : ℕ
deriving DecidableEq

/-- The child of a `fork` has the group and the session of its parent. -/
def Ids.fork (ids : Ids) (pid : ℕ) : Ids := { ids with pid := pid }

/-- `setsid` is refused to the leader of a process group; any other process becomes
the leader of a new group and of a new session. -/
def Ids.setsid (ids : Ids) : Ids :=
  if ids.pgid = ids.pid then ids else ⟨ids.pid, ids.pid, ids.pid⟩

structure State where
  fds : ℕ → Option Target
  pc : Pc
  frame : Frame
  /-- The working directory is the one asked for. -/
  moved : Bool
  ids : Ids
  /-- `SIGALRM` is pending. -/
  pending : Bool
  clock : ℕ
  /-- `time.txt`, and what appeared on the terminal. -/
  file : List Byte
  screen : List Byte
  -- kept for the statements: as what the program was started and whether this is
  -- the child, how often the timer fired, the times written and printed, what
  -- `time.txt` held first, the descriptors `main` set up, and whether it could open
  -- `/dev/null`
  started : Ids
  forked : Bool
  ticks : ℕ
  logged : List ℕ
  printed : List ℕ
  old : List Byte
  base : ℕ → Option Target
  nulled : Bool

/-- The descriptor `open` returns. -/
def Lowest (fds : ℕ → Option Target) (fd : ℕ) : Prop :=
  fds fd = none ∧ ∀ n < fd, fds n ≠ none

/-- What is done with a text written to a descriptor: it goes to the screen if the
descriptor is the terminal. -/
def shown (target : Option Target) (text : List Byte) : List Byte :=
  if target = some .terminal then text else []

/-- `main` and `work`. `stamp` is the text for a time, as `asctime` or `sprintf`
gives it. The path `dev/null` of `demo.c` is relative. The clock does not go back
and a `write` to a file that is open writes the whole text. -/
inductive Step (prog : Program) (stamp : ℕ → List Byte) : State → State → Prop where
  | parent {s : State} (hpc : s.pc = .fork) : Step prog stamp s { s with pc := .exited }
  /-- The number of a process is not that of a group or a session there is. -/
  | child {s : State} (hpc : s.pc = .fork) (pid : ℕ) (hpid : pid ≠ s.ids.pid)
      (hpgid : pid ≠ s.ids.pgid) (hsid : pid ≠ s.ids.sid) :
      Step prog stamp s { s with pc := .setsid, ids := s.ids.fork pid, forked := true }
  /-- `fork` returned `-1`, which is not greater than `0`. -/
  | forkFails {s : State} (hpc : s.pc = .fork) : Step prog stamp s { s with pc := .setsid }
  | setsid {s : State} (hpc : s.pc = .setsid) :
      Step prog stamp s { s with pc := .chdir, ids := s.ids.setsid }
  | chdir {s : State} (hpc : s.pc = .chdir) (moved : Bool) :
      Step prog stamp s { s with pc := .openNull, moved := moved }
  | openNull {s : State} (hpc : s.pc = .openNull) (fd : ℕ) (hfd : Lowest s.fds fd)
      (hpath : prog = .daemon ∨ s.moved = true) :
      Step prog stamp s { s with
        fds := Function.update s.fds fd (some .null), pc := .dup (some fd) 0, nulled := true }
  | openNullFails {s : State} (hpc : s.pc = .openNull) :
      Step prog stamp s { s with pc := .dup none 0 }
  | dup {s : State} {fd k : ℕ} (hpc : s.pc = .dup (some fd) k) (hk : k < 3) :
      Step prog stamp s { s with
        fds := Function.update s.fds k (s.fds fd), pc := .dup (some fd) (k + 1) }
  | dupFails {s : State} {k : ℕ} (hpc : s.pc = .dup none k) (hk : k < 3) :
      Step prog stamp s { s with pc := .dup none (k + 1) }
  | dupDone {s : State} {fd : Option ℕ} (hpc : s.pc = .dup fd 3) :
      Step prog stamp s { s with pc := .arm }
  | arm {s : State} (hpc : s.pc = .arm) :
      Step prog stamp s { s with pc := .loop, base := s.fds }
  | elapse {s : State} (seconds : ℕ) :
      Step prog stamp s { s with clock := s.clock + seconds }
  | tick {s : State} (hpc : s.pc = .loop) :
      Step prog stamp s { s with pending := true, ticks := s.ticks + 1 }
  /-- `SIGALRM` is blocked while its handler runs. -/
  | deliver {s : State} (hpc : s.pc = .loop) (hframe : s.frame = .idle)
      (hpending : s.pending = true) :
      Step prog stamp s { s with frame := .time, pending := false }
  | time {s : State} (hframe : s.frame = .time) :
      Step prog stamp s { s with
        frame := if prog = .daemon then .openTime s.clock else .print s.clock }
  | openTime {s : State} {t : ℕ} (hframe : s.frame = .openTime t) (fd : ℕ)
      (hfd : Lowest s.fds fd) :
      Step prog stamp s { s with
        fds := Function.update s.fds fd (some .timeTxt), frame := .write t (some fd) }
  | openTimeFails {s : State} {t : ℕ} (hframe : s.frame = .openTime t) :
      Step prog stamp s { s with frame := .write t none }
  | write {s : State} {t fd : ℕ} (hframe : s.frame = .write t (some fd)) :
      Step prog stamp s { s with
        file := if s.fds fd = some .timeTxt then s.file ++ stamp t else s.file
        logged := s.logged ++ [t]
        frame := .close (some fd) }
  | writeFails {s : State} {t : ℕ} (hframe : s.frame = .write t none) :
      Step prog stamp s { s with frame := .close none }
  | close {s : State} {fd : ℕ} (hframe : s.frame = .close (some fd)) :
      Step prog stamp s { s with fds := Function.update s.fds fd none, frame := .idle }
  | closeFails {s : State} (hframe : s.frame = .close none) :
      Step prog stamp s { s with frame := .idle }
  | print {s : State} {t : ℕ} (hframe : s.frame = .print t) :
      Step prog stamp s { s with
        screen := s.screen ++ shown (s.fds 1) (stamp t)
        printed := s.printed ++ [t]
        frame := .idle }

/-- Started from a terminal, with `time.txt` holding anything. -/
def Start (s : State) : Prop :=
  (∀ k < 3, s.fds k = some .terminal) ∧ s.pc = .fork ∧ s.frame = .idle ∧
    s.pending = false ∧ s.screen = [] ∧ s.ticks = 0 ∧ s.logged = [] ∧ s.printed = [] ∧
    s.old = s.file ∧ s.nulled = false ∧ s.started = s.ids ∧ s.forked = false

def process (prog : Program) (stamp : ℕ → List Byte) : System State where
  init := Start
  step := Step prog stamp

/-! ## §2  The invariant -/

/-- Handlers under way. -/
def Frame.busy : Frame → ℕ
  | .idle | .close _ => 0
  | .time | .openTime _ | .write _ _ | .print _ => 1

/-- The time the handler was told and has not written yet. -/
def Frame.told : Frame → Option ℕ
  | .openTime t | .write t _ | .print t => some t
  | .idle | .time | .close _ => none

/-- The descriptors, compared with those `main` set up. -/
def Frame.Table (base fds : ℕ → Option Target) : Frame → Prop
  | .write _ (some fd) | .close (some fd) =>
      base fd = none ∧ fds = Function.update base fd (some .timeTxt)
  | _ => fds = base

/-- The standard descriptors while `main` sets them up. -/
def Pc.Standard (fds : ℕ → Option Target) (nulled : Bool) : Pc → Prop
  | .dup (some fd) k => nulled = true ∧ fds fd = some .null ∧ ∀ j < k, fds j = some .null
  | .arm | .loop =>
      if nulled then ∀ j < 3, fds j = some .null else ∀ j < 3, fds j = some .terminal
  | _ => nulled = false ∧ ∀ j < 3, fds j = some .terminal

/-- Whose session the process is in once `setsid` was called: that of the child is
its own; where `fork` failed, it is the one of the start if the process led its
group then. -/
def Settled (ids started : Ids) (forked : Bool) : Prop :=
  ids.pgid = ids.pid ∧
    if forked then ids.sid = ids.pid ∧ ids.pid ≠ started.pid ∧ ids.sid ≠ started.sid
    else ids.pid = started.pid ∧
      ids.sid = if started.pgid = started.pid then started.sid else started.pid

def Pc.Session (ids started : Ids) (forked : Bool) : Pc → Prop
  | .fork => ids = started ∧ forked = false
  | .setsid =>
      if forked then ids.pgid ≠ ids.pid ∧ ids.pid ≠ started.pid ∧ ids.pid ≠ started.sid
      else ids = started
  | .exited => True
  | _ => Settled ids started forked

structure Inv (stamp : ℕ → List Byte) (s : State) : Prop where
  early : s.pc ≠ .loop → s.frame = .idle ∧ s.ticks = 0
  table : s.pc = .loop → s.frame.Table s.base s.fds
  standard : s.pc.Standard (if s.pc = .loop then s.base else s.fds) s.nulled
  session : s.pc.Session s.ids s.started s.forked
  file : s.file = s.old ++ s.logged.flatMap stamp
  screen : s.screen = if s.nulled then [] else s.printed.flatMap stamp
  count : s.logged.length + s.printed.length + s.frame.busy + s.pending.toNat ≤ s.ticks
  sorted : s.logged.Pairwise (· ≤ ·)
  past : ∀ t ∈ s.logged, t ≤ s.clock ∧ ∀ t', s.frame.told = some t' → t ≤ t'
  told : ∀ t, s.frame.told = some t → t ≤ s.clock

variable {prog : Program} {stamp : ℕ → List Byte} {s s' : State}

theorem start_inv (h : Start s) : Inv stamp s := by
  obtain ⟨hfds, hpc, hframe, hpending, hscreen, hticks, hlogged, hprinted, hold, hnulled,
    hstarted, hforked⟩ := h
  have hne : s.pc ≠ .loop := by simp [hpc]
  refine ⟨fun _ => ⟨hframe, hticks⟩, fun h => absurd h hne, ?_, ?_, ?_, ?_, ?_, ?_, ?_, ?_⟩
  · rw [if_neg hne, hpc]
    exact ⟨hnulled, hfds⟩
  · rw [hpc]
    exact ⟨hstarted.symm, hforked⟩
  · rw [hlogged, hold]
    simp
  · rw [hscreen, hprinted, hnulled]
    rfl
  · rw [hlogged, hprinted, hframe, hpending, hticks]
    rfl
  · rw [hlogged]
    exact List.Pairwise.nil
  · rw [hlogged]
    exact fun t ht => absurd ht List.not_mem_nil
  · rw [hframe]
    exact fun t ht => (by cases ht)

/-- Before the loop nothing was printed. -/
theorem Inv.unprinted (hi : Inv stamp s) (hpc : s.pc ≠ .loop) :
    s.printed = [] ∧ s.screen = [] := by
  have hcount := hi.count
  rw [(hi.early hpc).2] at hcount
  have hprinted : s.printed = [] := List.length_eq_zero_iff.mp (by omega)
  refine ⟨hprinted, ?_⟩
  rw [hi.screen, hprinted]
  split <;> rfl

/-- A step of `main` before its loop. -/
theorem Inv.main {fds base : ℕ → Option Target} {pc : Pc} {moved nulled forked : Bool}
    {ids : Ids} (hi : Inv stamp s) (hpc : s.pc ≠ .loop)
    (hstandard : pc.Standard (if pc = .loop then base else fds) nulled)
    (hbase : pc = .loop → fds = base) (hsession : pc.Session ids s.started forked) :
    Inv stamp { s with
      fds := fds, pc := pc, moved := moved, ids := ids, forked := forked
      base := base, nulled := nulled } := by
  obtain ⟨hframe, hticks⟩ := hi.early hpc
  obtain ⟨hprinted, hscreen⟩ := hi.unprinted hpc
  refine ⟨fun _ => ⟨hframe, hticks⟩, fun h => ?_, hstandard, hsession, hi.file, ?_, hi.count,
    hi.sorted, hi.past, hi.told⟩
  · show s.frame.Table base fds
    rw [hframe, hbase h]
    rfl
  · show s.screen = if nulled then [] else s.printed.flatMap stamp
    rw [hscreen, hprinted]
    split <;> rfl

/-- A handler only runs in the loop. -/
theorem Inv.inLoop (hi : Inv stamp s) (h : s.frame ≠ .idle) : s.pc = .loop := by
  by_contra hpc
  exact h (hi.early hpc).1

/-- A step of the handler that writes and prints nothing. -/
theorem Inv.handle {fds : ℕ → Option Target} {frame : Frame} {pending : Bool}
    (hi : Inv stamp s) (hpc : s.pc = .loop) (htable : frame.Table s.base fds)
    (hcount : frame.busy + pending.toNat ≤ s.frame.busy + s.pending.toNat)
    (htold : ∀ t, frame.told = some t → s.frame.told = some t ∨ t = s.clock) :
    Inv stamp { s with fds := fds, frame := frame, pending := pending } := by
  have hstandard := hi.standard
  rw [if_pos hpc] at hstandard
  refine ⟨fun h => absurd hpc h, fun _ => htable, ?_, hi.session, hi.file, hi.screen, ?_,
    hi.sorted, fun t ht => ⟨(hi.past t ht).1, fun t' ht' => ?_⟩, fun t ht => ?_⟩
  · show s.pc.Standard (if s.pc = .loop then s.base else fds) s.nulled
    rwa [if_pos hpc]
  · have := hi.count
    show s.logged.length + s.printed.length + frame.busy + pending.toNat ≤ s.ticks
    omega
  · rcases htold t' ht' with h | h
    · exact (hi.past t ht).2 t' h
    · rw [h]
      exact (hi.past t ht).1
  · rcases htold t ht with h | h
    · exact hi.told t h
    · exact h.le

theorem Inv.standard_of {pc : Pc} (hi : Inv stamp s) (hpc : s.pc = pc) (hne : pc ≠ .loop) :
    pc.Standard s.fds s.nulled := by
  have := hi.standard
  rwa [hpc, if_neg hne] at this

theorem Inv.session_of {pc : Pc} (hi : Inv stamp s) (hpc : s.pc = pc) :
    pc.Session s.ids s.started s.forked := hpc ▸ hi.session

/-- `setsid` is not refused to the child, since it leads no group. -/
theorem setsid_settled {ids started : Ids} {forked : Bool}
    (h : Pc.setsid.Session ids started forked) : Settled ids.setsid started forked := by
  unfold Pc.Session at h
  unfold Ids.setsid
  cases forked with
  | true =>
      obtain ⟨hgroup, hpid, hsid⟩ := h
      rw [if_neg hgroup]
      exact ⟨rfl, rfl, hpid, hsid⟩
  | false =>
      have hids : ids = started := h
      subst hids
      by_cases hleader : ids.pgid = ids.pid
      · rw [if_pos hleader]
        exact ⟨hleader, rfl, (if_pos hleader).symm⟩
      · rw [if_neg hleader]
        exact ⟨rfl, rfl, (if_neg hleader).symm⟩

theorem write_inv {t fd : ℕ} (hi : Inv stamp s) (hframe : s.frame = .write t (some fd)) :
    Inv stamp { s with
      file := if s.fds fd = some .timeTxt then s.file ++ stamp t else s.file
      logged := s.logged ++ [t]
      frame := .close (some fd) } := by
  have hpc := hi.inLoop (by simp [hframe])
  have htable := hi.table hpc
  rw [hframe] at htable
  have htold : s.frame.told = some t := by rw [hframe]; rfl
  have hfd : s.fds fd = some .timeTxt := by rw [htable.2, Function.update_self]
  have hcount := hi.count
  refine ⟨fun h => absurd hpc h, fun _ => htable, hi.standard, hi.session, ?_, hi.screen, ?_,
    ?_, fun t' ht' => ⟨?_, fun _ h => (by cases h)⟩, fun _ h => (by cases h)⟩
  · show (if s.fds fd = some .timeTxt then s.file ++ stamp t else s.file) =
      s.old ++ (s.logged ++ [t]).flatMap stamp
    rw [if_pos hfd, hi.file, List.flatMap_append, List.flatMap_singleton, List.append_assoc]
  · rw [hframe] at hcount
    show (s.logged ++ [t]).length + s.printed.length + 0 + s.pending.toNat ≤ s.ticks
    rw [List.length_append, List.length_singleton]
    have : (Frame.write t (some fd)).busy = 1 := rfl
    omega
  · show (s.logged ++ [t]).Pairwise (· ≤ ·)
    rw [List.pairwise_append]
    refine ⟨hi.sorted, List.pairwise_singleton _ _, fun t' ht' u hu => ?_⟩
    rw [List.mem_singleton.mp hu]
    exact (hi.past t' ht').2 t htold
  · rcases List.mem_append.mp ht' with h | h
    · exact (hi.past t' h).1
    · rw [List.mem_singleton.mp h]
      exact hi.told t htold

theorem print_inv {t : ℕ} (hi : Inv stamp s) (hframe : s.frame = .print t) :
    Inv stamp { s with
      screen := s.screen ++ shown (s.fds 1) (stamp t)
      printed := s.printed ++ [t]
      frame := .idle } := by
  have hpc := hi.inLoop (by simp [hframe])
  have htable := hi.table hpc
  rw [hframe] at htable
  have hbase : s.fds = s.base := htable
  have hstandard := hi.standard
  rw [if_pos hpc, hpc] at hstandard
  have hcount := hi.count
  refine ⟨fun h => absurd hpc h, fun _ => htable, hi.standard, hi.session, hi.file, ?_, ?_,
    hi.sorted, fun t' ht' => ⟨(hi.past t' ht').1, fun _ h => (by cases h)⟩,
    fun _ h => (by cases h)⟩
  · show s.screen ++ shown (s.fds 1) (stamp t) =
      if s.nulled then [] else (s.printed ++ [t]).flatMap stamp
    rw [hi.screen, hbase]
    unfold Pc.Standard at hstandard
    cases hnulled : s.nulled with
    | true =>
        rw [hnulled] at hstandard
        have h1 : s.base 1 = some .null := hstandard 1 (by decide)
        rw [h1]
        rfl
    | false =>
        rw [hnulled] at hstandard
        have h1 : s.base 1 = some .terminal := hstandard 1 (by decide)
        rw [h1]
        simp [shown]
  · rw [hframe] at hcount
    show s.logged.length + (s.printed ++ [t]).length + 0 + s.pending.toNat ≤ s.ticks
    rw [List.length_append, List.length_singleton]
    have : (Frame.print t).busy = 1 := rfl
    omega

theorem close_inv {fd : ℕ} (hi : Inv stamp s) (hframe : s.frame = .close (some fd)) :
    Inv stamp { s with fds := Function.update s.fds fd none, frame := .idle } := by
  have hpc := hi.inLoop (by simp [hframe])
  have htable := hi.table hpc
  rw [hframe] at htable
  obtain ⟨hnone, hfds⟩ := htable
  refine hi.handle hpc ?_ (by simp [Frame.busy]) (fun _ h => (by cases h))
  show Function.update s.fds fd none = s.base
  rw [hfds, Function.update_idem, ← hnone, Function.update_eq_self]

theorem dup_standard {fds : ℕ → Option Target} {nulled : Bool} {fd k : ℕ}
    (h : (Pc.dup (some fd) k).Standard fds nulled) :
    (Pc.dup (some fd) (k + 1)).Standard (Function.update fds k (fds fd)) nulled := by
  obtain ⟨hnulled, hfd, hbelow⟩ := h
  have hnull : ∀ j, fds j = some .null ∨ j = k →
      Function.update fds k (fds fd) j = some .null := by
    intro j hj
    by_cases hjk : j = k
    · rw [hjk, Function.update_self, hfd]
    · rw [Function.update_of_ne hjk]
      exact hj.resolve_right hjk
  refine ⟨hnulled, hnull fd (.inl hfd), fun j hj => hnull j ?_⟩
  rcases Nat.lt_succ_iff_lt_or_eq.mp hj with h | h
  · exact .inl (hbelow j h)
  · exact .inr h

theorem dupDone_standard {fds : ℕ → Option Target} {nulled : Bool} {fd : Option ℕ}
    (h : (Pc.dup fd 3).Standard fds nulled) : Pc.arm.Standard fds nulled := by
  show if nulled then _ else _
  cases fd with
  | none =>
      rw [h.1]
      exact h.2
  | some fd =>
      rw [h.1]
      exact h.2.2

/-- The descriptors in a handler. -/
theorem Inv.table_of {frame : Frame} (hi : Inv stamp s) (hframe : s.frame = frame)
    (hne : frame ≠ .idle) : s.pc = .loop ∧ frame.Table s.base s.fds := by
  have hpc := hi.inLoop (by rwa [hframe])
  exact ⟨hpc, hframe ▸ hi.table hpc⟩

theorem step_inv (hi : Inv stamp s) (h : Step prog stamp s s') : Inv stamp s' := by
  cases h with
  | parent hpc =>
      have hstd := hi.standard_of hpc (by simp)
      exact hi.main (by simp [hpc]) hstd (fun h => (by cases h)) trivial
  | child hpc pid hpid hpgid hsid =>
      have hstd := hi.standard_of hpc (by simp)
      obtain ⟨hstarted, -⟩ := hi.session_of hpc
      rw [hstarted] at hpid hsid
      exact hi.main (by simp [hpc]) hstd (fun h => (by cases h)) ⟨hpgid.symm, hpid, hsid⟩
  | forkFails hpc =>
      have hstd := hi.standard_of hpc (by simp)
      obtain ⟨hstarted, hforked⟩ := hi.session_of hpc
      refine hi.main (by simp [hpc]) hstd (fun h => (by cases h)) ?_
      rw [hforked]
      exact hstarted
  | setsid hpc =>
      have hstd := hi.standard_of hpc (by simp)
      have hsession := setsid_settled (hi.session_of hpc)
      exact hi.main (by simp [hpc]) hstd (fun h => (by cases h)) hsession
  | chdir hpc | openNullFails hpc | dupFails hpc =>
      have hstd := hi.standard_of hpc (by simp)
      have hsession := hi.session_of hpc
      exact hi.main (by simp [hpc]) hstd (fun h => (by cases h)) hsession
  | openNull hpc fd hfd hpath =>
      have hsession := hi.session_of hpc
      exact hi.main (by simp [hpc])
        ⟨rfl, Function.update_self .., fun j hj => absurd hj (Nat.not_lt_zero j)⟩
        (fun h => (by cases h)) hsession
  | dup hpc hk =>
      have hsession := hi.session_of hpc
      exact hi.main (by simp [hpc]) (dup_standard (hi.standard_of hpc (by simp)))
        (fun h => (by cases h)) hsession
  | dupDone hpc =>
      have hsession := hi.session_of hpc
      exact hi.main (by simp [hpc]) (dupDone_standard (hi.standard_of hpc (by simp)))
        (fun h => (by cases h)) hsession
  | arm hpc =>
      have hstd := hi.standard_of hpc (by simp)
      have hsession := hi.session_of hpc
      exact hi.main (by simp [hpc]) hstd (fun _ => rfl) hsession
  | elapse seconds =>
      refine ⟨hi.early, hi.table, hi.standard, hi.session, hi.file, hi.screen, hi.count,
        hi.sorted, fun t ht => ?_, fun t ht => ?_⟩
      · exact ⟨le_trans (hi.past t ht).1 (Nat.le_add_right _ _), (hi.past t ht).2⟩
      · exact le_trans (hi.told t ht) (Nat.le_add_right _ _)
  | tick hpc =>
      refine ⟨fun h => absurd hpc h, hi.table, hi.standard, hi.session, hi.file, hi.screen, ?_,
        hi.sorted, hi.past, hi.told⟩
      have := hi.count
      show s.logged.length + s.printed.length + s.frame.busy + 1 ≤ s.ticks + 1
      omega
  | deliver hpc hframe hpending =>
      have htable := hi.table hpc
      rw [hframe] at htable
      exact hi.handle hpc htable (by simp [hframe, hpending, Frame.busy])
        (fun _ h => (by cases h))
  | time hframe =>
      obtain ⟨hpc, htable⟩ := hi.table_of hframe (by simp)
      cases prog with
      | daemon | demo =>
          exact hi.handle hpc htable (by simp [hframe, Frame.busy])
            (fun t h => .inr (Option.some.inj h).symm)
  | openTime hframe fd hfd =>
      obtain ⟨hpc, htable⟩ := hi.table_of hframe (by simp)
      have hbase : s.fds = s.base := htable
      exact hi.handle hpc ⟨hbase ▸ hfd.1, by rw [hbase]⟩ (by simp [hframe, Frame.busy])
        (fun t h => .inl (hframe ▸ h))
  | openTimeFails hframe =>
      obtain ⟨hpc, htable⟩ := hi.table_of hframe (by simp)
      exact hi.handle hpc htable (by simp [hframe, Frame.busy]) (fun t h => .inl (hframe ▸ h))
  | write hframe => exact write_inv hi hframe
  | writeFails hframe | closeFails hframe =>
      obtain ⟨hpc, htable⟩ := hi.table_of hframe (by simp)
      exact hi.handle hpc htable (by simp [Frame.busy]) (fun _ h => (by cases h))
  | close hframe => exact close_inv hi hframe
  | print hframe => exact print_inv hi hframe

theorem reachable_inv (h : (process prog stamp).Reachable s) : Inv stamp s :=
  System.invariant (I := Inv stamp) (fun _ h0 => start_inv h0)
    (fun _ _ _ hi hst => step_inv hi hst) h

/-! ## §3  Results -/

/-- **What `time.txt` holds.** Whatever was there first, followed by one whole text
for each time written, in order; there are no more of them than alarms. Whenever
the handler is not running the process has the descriptors it set up: none is
leaked. -/
theorem daemon_log (h : (process prog stamp).Reachable s) :
    s.file = s.old ++ s.logged.flatMap stamp ∧ s.logged.Pairwise (· ≤ ·) ∧
      s.logged.length ≤ s.ticks ∧ (s.pc = .loop → s.frame = .idle → s.fds = s.base) := by
  have hi := reachable_inv h
  have hcount := hi.count
  refine ⟨hi.file, hi.sorted, by omega, fun hpc hframe => ?_⟩
  have htable := hi.table hpc
  rw [hframe] at htable
  exact htable

/-- A process started from a shell, as the leader of a group in the session `1`. -/
def fromShell : State :=
  ⟨fun k => if k < 3 then some .terminal else none, .fork, .idle, false, ⟨7, 7, 1⟩, false,
    0, [], [], ⟨7, 7, 1⟩, false, 0, [], [], [], fun _ => none, false⟩

/-- Both programs get into their loop with `/dev/null` open. -/
theorem loop_reachable (prog : Program) (stamp : ℕ → List Byte) :
    ∃ fds, Lowest fds 4 ∧ (process prog stamp).Reachable { fromShell with
      fds := fds, base := fds, pc := .loop, moved := true, ids := ⟨8, 8, 8⟩
      forked := true, nulled := true } := by
  have h₀ : (process prog stamp).Reachable fromShell :=
    .init ⟨by decide, rfl, rfl, rfl, rfl, rfl, rfl, rfl, rfl, rfl, rfl, rfl⟩
  have h₁ := h₀.step (.child rfl 8 (by decide) (by decide) (by decide))
  have h₂ := h₁.step (.setsid rfl)
  have h₃ := h₂.step (.chdir rfl true)
  have h₄ := h₃.step (.openNull rfl 3 ⟨rfl, by decide⟩ (.inr rfl))
  have h₅ := h₄.step (.dup rfl (by decide))
  have h₆ := h₅.step (.dup rfl (by decide))
  have h₇ := h₆.step (.dup rfl (by decide))
  have h₈ := h₇.step (.dupDone rfl)
  exact ⟨_, ⟨rfl, by decide⟩, h₈.step (.arm rfl)⟩

/-- One alarm handled, from the timer to the end of the handler. -/
theorem alarm_handled {s : State} {fd : ℕ} (h : (process .daemon stamp).Reachable s)
    (hpc : s.pc = .loop) (hframe : s.frame = .idle) (hfd : Lowest s.fds fd)
    (seconds : ℕ) :
    ∃ s', (process .daemon stamp).Reachable s' ∧ s'.pc = .loop ∧ s'.frame = .idle ∧
      s'.fds = s.fds ∧ s'.clock = s.clock + seconds ∧
      s'.logged = s.logged ++ [s.clock + seconds] ∧ s'.old = s.old := by
  have h₁ := h.step (.elapse seconds)
  have h₂ := h₁.step (.tick hpc)
  have h₃ := h₂.step (.deliver hpc hframe rfl)
  have h₄ := h₃.step (.time rfl)
  have h₅ := h₄.step (.openTime rfl fd hfd)
  have h₆ := h₅.step (.write rfl)
  have h₇ := h₆.step (.close rfl)
  refine ⟨_, h₇, hpc, rfl, ?_, rfl, rfl, rfl⟩
  show Function.update (Function.update s.fds fd (some .timeTxt)) fd none = s.fds
  rw [Function.update_idem, ← hfd.1, Function.update_eq_self]

theorem daemon_log_two : ∃ s : State, (process .daemon fun _ => literal "1970\n").Reachable s ∧
    s.logged = [2, 4] ∧ s.file = literal "1970\n1970\n" ∧ s.fds = s.base := by
  obtain ⟨fds, hfd, h⟩ := loop_reachable .daemon fun _ => literal "1970\n"
  obtain ⟨s₁, h₁, hpc₁, hframe₁, hfds₁, hclock₁, hlogged₁, hold₁⟩ :=
    alarm_handled h rfl rfl hfd 2
  obtain ⟨s₂, h₂, hpc₂, hframe₂, -, -, hlogged₂, hold₂⟩ :=
    alarm_handled h₁ hpc₁ hframe₁ (by rw [hfds₁]; exact hfd) 2
  obtain ⟨hfile, -, -, hbase⟩ := daemon_log h₂
  rw [hclock₁, hlogged₁] at hlogged₂
  rw [hold₂, hold₁, hlogged₂] at hfile
  exact ⟨s₂, h₂, hlogged₂, hfile, hbase hpc₂ hframe₂⟩

/-- The handler does not touch the standard descriptors. -/
theorem Inv.fds_standard (hi : Inv stamp s) (hpc : s.pc = .loop) {k : ℕ}
    (hk : s.base k ≠ none) : s.fds k = s.base k := by
  have htable := hi.table hpc
  have hupdate : ∀ fd, s.base fd = none ∧ s.fds = Function.update s.base fd (some .timeTxt) →
      s.fds k = s.base k := by
    rintro fd ⟨hnone, hfds⟩
    rw [hfds, Function.update_of_ne]
    rintro rfl
    exact hk hnone
  unfold Frame.Table at htable
  split at htable
  · exact hupdate _ htable
  · exact hupdate _ htable
  · rw [htable]

/-- **Away from the terminal.** In its loop the process leads a process group. If
`fork` succeeded it is a new process and leads a session of its own. If `fork`
failed, which is not tested for, it is the process that was started, and `setsid` was
refused to it if it led its group: it is still in the session it was started in. If
it could open `/dev/null`, its standard descriptors refer to that and nothing it
prints is seen; if not, they are still the terminal and everything is. -/
theorem daemon_detached (h : (process prog stamp).Reachable s) (hpc : s.pc = .loop) :
    s.ids.pgid = s.ids.pid ∧
      (if s.forked then s.ids.sid = s.ids.pid ∧ s.ids.pid ≠ s.started.pid ∧
          s.ids.sid ≠ s.started.sid
        else s.ids.pid = s.started.pid ∧ s.ids.sid =
          if s.started.pgid = s.started.pid then s.started.sid else s.started.pid) ∧
      if s.nulled then (∀ k < 3, s.fds k = some .null) ∧ s.screen = []
      else (∀ k < 3, s.fds k = some .terminal) ∧ s.screen = s.printed.flatMap stamp := by
  have hi := reachable_inv h
  have hstandard := hi.standard
  rw [if_pos hpc, hpc] at hstandard
  have hscreen := hi.screen
  obtain ⟨hgroup, hsession⟩ : Settled s.ids s.started s.forked := hi.session_of hpc
  refine ⟨hgroup, hsession, ?_⟩
  unfold Pc.Standard at hstandard
  cases hnulled : s.nulled with
  | true =>
      rw [hnulled] at hstandard hscreen
      refine ⟨fun k hk => ?_, hscreen⟩
      rw [hi.fds_standard hpc (by simp [hstandard k hk]), hstandard k hk]
  | false =>
      rw [hnulled] at hstandard hscreen
      refine ⟨fun k hk => ?_, hscreen⟩
      rw [hi.fds_standard hpc (by simp [hstandard k hk]), hstandard k hk]

/-- Started from a shell, `demo.c` gets a session of its own and prints into nothing.
If `fork` and `open` fail, it stays in the session of the shell and prints to the
terminal. -/
theorem daemon_detached_demo :
    (∃ s : State, (process .demo fun _ => literal "1970\n").Reachable s ∧ s.printed = [0] ∧
      s.ids.sid = 8 ∧ (∀ k < 3, s.fds k = some .null) ∧ s.screen = []) ∧
    ∃ s : State, (process .demo fun _ => literal "1970\n").Reachable s ∧ s.printed = [0] ∧
      s.ids.sid = 1 ∧ (∀ k < 3, s.fds k = some .terminal) ∧ s.screen = literal "1970\n" := by
  constructor
  · obtain ⟨fds, -, h⟩ := loop_reachable .demo fun _ => literal "1970\n"
    have h₁ := h.step (.tick rfl)
    have h₂ := h₁.step (.deliver rfl rfl rfl)
    have h₃ := h₂.step (.time rfl)
    have h₄ := h₃.step (.print rfl)
    obtain ⟨-, hsession, hnull⟩ := daemon_detached h₄ rfl
    exact ⟨_, h₄, rfl, hsession.1, hnull⟩
  · have h₀ : (process .demo fun _ => literal "1970\n").Reachable fromShell :=
      .init ⟨by decide, rfl, rfl, rfl, rfl, rfl, rfl, rfl, rfl, rfl, rfl, rfl⟩
    have h₁ := h₀.step (.forkFails rfl)
    have h₂ := h₁.step (.setsid rfl)
    have h₃ := h₂.step (.chdir rfl false)
    have h₄ := h₃.step (.openNullFails rfl)
    have h₅ := h₄.step (.dupFails rfl (by decide))
    have h₆ := h₅.step (.dupFails rfl (by decide))
    have h₇ := h₆.step (.dupFails rfl (by decide))
    have h₈ := (h₇.step (.dupDone rfl)).step (.arm rfl)
    have h₉ := (h₈.step (.tick rfl)).step (.deliver rfl rfl rfl)
    have h₁₀ := (h₉.step (.time rfl)).step (.print rfl)
    obtain ⟨-, hsession, hterminal⟩ := daemon_detached h₁₀ rfl
    exact ⟨_, h₁₀, rfl, hsession.2, hterminal⟩

end LinuxServer.Daemon
