import LinuxServer.Tcp.Sockets

/-!
# The `select` server

An echo server that waits with `select` on the listening socket and all its
connections, accepts, and then reads once from each connection that `select`
reported. `tmpSet` is the answer of `select` and `rSet` the set it waits on.

- §1 the server
- §2 the invariant
- §3 where it cannot go on
- §4 what it reads from
- §5 what it echoes
-/

namespace LinuxServer.Select

open LinuxServer.Framework LinuxServer.Tcp

/-! ## §1  The server -/

inductive Pc where
  | select
  | accept (tmpSet : Finset ℕ)
  /-- The loop over the descriptors, at `i`; `recv_buf` is zeroed before it. -/
  | scan (i : ℕ) (tmpSet : Finset ℕ) (round : Round)
  /-- In `write` to `i`, with the bytes that are still to be taken over. -/
  | write (i : ℕ) (tmpSet : Finset ℕ) (round : Round) (left : List Byte)
  | exit
  /-- Ended by `SIGPIPE`. -/
  | killed
  /-- `FD_SET` was called for a descriptor that has no bit in an `fd_set`. -/
  | fault
  /-- `printf` and `strlen` ran past `recv_buf` when `chunk` was read from `i`. -/
  | overran (i : ℕ) (round : Round) (chunk : Chunk)

structure State where
  net : Net
  rSet : Finset ℕ
  maxfd : ℕ
  pc : Pc

/-- `FD_SETSIZE`. -/
def setSize : ℕ := 1024

/-- What `select` reports. -/
def State.ready (listenfd : ℕ) (s : State) : Finset ℕ :=
  s.rSet.filter fun fd => if fd = listenfd then 0 < s.net.backlog else s.net.ReadyAt fd

def Pc.afterSelect (listenfd : ℕ) (tmpSet : Finset ℕ) : Pc :=
  if listenfd ∈ tmpSet then .accept tmpSet else .scan (listenfd + 1) tmpSet .start

/-- What `write` returns is not looked at. -/
def Pc.afterWrite (i : ℕ) (tmpSet : Finset ℕ) (round : Round) : Written → Pc
  | .part left => .write i tmpSet round left
  | .done => .scan (i + 1) tmpSet round
  | .killed => .killed

/-- The server's own steps, as long as no system call fails but `read` and
`write`. -/
inductive Serve (listenfd : ℕ) : State → State → Prop where
  | select {s : State} (hpc : s.pc = .select) (hne : (s.ready listenfd).Nonempty) :
      Serve listenfd s { s with pc := .afterSelect listenfd (s.ready listenfd) }
  | accept {s : State} {tmpSet : Finset ℕ} (hpc : s.pc = .accept tmpSet)
      (hbacklog : 0 < s.net.backlog) (fd : ℕ) (hfd : s.net.Lowest listenfd fd)
      (hin : fd < setSize) (c : Socket) (hc : c.Fresh) :
      Serve listenfd s
        { net := s.net.accept fd c
          rSet := insert fd s.rSet
          maxfd := max s.maxfd fd
          pc := .scan (listenfd + 1) tmpSet .start }
  | acceptOverrun {s : State} {tmpSet : Finset ℕ} (hpc : s.pc = .accept tmpSet)
      (hbacklog : 0 < s.net.backlog) (fd : ℕ) (hfd : s.net.Lowest listenfd fd)
      (hout : setSize ≤ fd) : Serve listenfd s { s with pc := .fault }
  | skip {s : State} {i : ℕ} {tmpSet : Finset ℕ} {round : Round}
      (hpc : s.pc = .scan i tmpSet round) (hle : i ≤ s.maxfd) (hi : i ∉ tmpSet) :
      Serve listenfd s { s with pc := .scan (i + 1) tmpSet round }
  | data {s : State} {i : ℕ} {tmpSet : Finset ℕ} {round : Round}
      (hpc : s.pc = .scan i tmpSet round) (hle : i ≤ s.maxfd) (hi : i ∈ tmpSet)
      (chunk : Chunk) (net : Net) (hread : s.net.Read i (.data chunk) net)
      (text : List Byte) (htext : round.shows chunk = some text) :
      Serve listenfd s { s with
        net := net, pc := .write i tmpSet (round.add i chunk text htext) text }
  | dataOverrun {s : State} {i : ℕ} {tmpSet : Finset ℕ} {round : Round}
      (hpc : s.pc = .scan i tmpSet round) (hle : i ≤ s.maxfd) (hi : i ∈ tmpSet)
      (chunk : Chunk) (net : Net) (hread : s.net.Read i (.data chunk) net)
      (htext : round.shows chunk = none) :
      Serve listenfd s { s with net := net, pc := .overran i round chunk }
  | write {s : State} {i : ℕ} {tmpSet : Finset ℕ} {round : Round} {left : List Byte}
      (hpc : s.pc = .write i tmpSet round left) (r : Written) (net : Net)
      (hwrite : s.net.Write true i left r net) :
      Serve listenfd s { s with net := net, pc := .afterWrite i tmpSet round r }
  | closed {s : State} {i : ℕ} {tmpSet : Finset ℕ} {round : Round}
      (hpc : s.pc = .scan i tmpSet round) (hle : i ≤ s.maxfd) (hi : i ∈ tmpSet)
      (net : Net) (hread : s.net.Read i .closed net) :
      -- `close(i); FD_CLR(i, &rSet); break;`
      Serve listenfd s { s with net := net.set i none, rSet := s.rSet.erase i, pc := .select }
  | error {s : State} {i : ℕ} {tmpSet : Finset ℕ} {round : Round}
      (hpc : s.pc = .scan i tmpSet round) (hle : i ≤ s.maxfd) (hi : i ∈ tmpSet)
      (net : Net) (hread : s.net.Read i .error net) :
      Serve listenfd s { s with net := net, pc := .exit }
  | done {s : State} {i : ℕ} {tmpSet : Finset ℕ} {round : Round}
      (hpc : s.pc = .scan i tmpSet round) (hlt : s.maxfd < i) :
      Serve listenfd s { s with pc := .select }

/-- A step of the server or of a client. `select` and `accept` may fail, and
then the server exits. -/
inductive Step (listenfd : ℕ) : State → State → Prop where
  | serve {s s' : State} (h : Serve listenfd s s') : Step listenfd s s'
  | fail {s : State} (hpc : s.pc = .select ∨ ∃ tmpSet, s.pc = .accept tmpSet) :
      Step listenfd s { s with pc := .exit }
  | client {s : State} (net : Net) (h : s.net.Client net) :
      Step listenfd s { s with net := net }

/-- After `listen` and `FD_SET(listenfd, &rSet)`. -/
structure Start (listenfd : ℕ) (s : State) : Prop where
  inSet : listenfd < setSize
  conns : ∀ fd, s.net.conns fd = none
  rSet : s.rSet = {listenfd}
  maxfd : s.maxfd = listenfd
  pc : s.pc = .select

def server (listenfd : ℕ) : System State where
  init := Start listenfd
  step := Step listenfd

/-! ## §2  The invariant -/

/-- The round has read from descriptors below `i`, from lower ones first. -/
structure Ascends (round : Round) (i : ℕ) : Prop where
  sorted : round.echoes.Pairwise fun d e => d.fd < e.fd
  below : ∀ e ∈ round.echoes, e.fd < i

/-- What the server still has to read in this round is ready. -/
def Pc.Holds (listenfd : ℕ) (net : Net) : Pc → Prop
  | .accept tmpSet => 0 < net.backlog ∧ Serving net {fd | fd ∈ tmpSet ∧ fd ≠ listenfd}
  | .scan i tmpSet round =>
      listenfd < i ∧ Serving net {fd | fd ∈ tmpSet ∧ i ≤ fd} ∧ Ascends round i
  | .write i tmpSet round _ =>
      listenfd < i ∧ Serving net {fd | fd ∈ tmpSet ∧ i + 1 ≤ fd} ∧ Ascends round (i + 1)
  | .fault => ∀ fd, listenfd < fd → fd < setSize → (net.conns fd).isSome
  | .overran i round chunk => Ascends round i ∧ round.shows chunk = none
  | _ => True

structure Inv (listenfd : ℕ) (s : State) : Prop where
  watched : ∀ fd, fd ∈ s.rSet ↔ fd = listenfd ∨ (s.net.conns fd).isSome
  range : ∀ fd, (s.net.conns fd).isSome → listenfd < fd ∧ fd ≤ s.maxfd
  pc : s.pc.Holds listenfd s.net

variable {listenfd i : ℕ} {s s' : State} {tmpSet : Finset ℕ} {round : Round}

theorem Ascends.start (i : ℕ) : Ascends .start i := ⟨.nil, fun _ h => by cases h⟩

theorem Ascends.succ (h : Ascends round i) : Ascends round (i + 1) :=
  ⟨h.sorted, fun e he => Nat.lt_succ_of_lt (h.below e he)⟩

theorem Ascends.add (h : Ascends round i) {chunk : Chunk} {text : List Byte}
    (htext : round.shows chunk = some text) :
    Ascends (round.add i chunk text htext) (i + 1) := by
  constructor
  · refine List.pairwise_append.mpr ⟨h.sorted, List.pairwise_singleton _ _, fun d hd e he => ?_⟩
    rw [List.mem_singleton.mp he]
    exact h.below d hd
  · intro e he
    rcases List.mem_append.mp he with he | he
    · exact Nat.lt_succ_of_lt (h.below e he)
    · rw [List.mem_singleton.mp he]
      exact Nat.lt_succ_self i

theorem start_inv (h : Start listenfd s) : Inv listenfd s := by
  refine ⟨fun fd => ?_, fun fd hfd => ?_, ?_⟩
  · rw [h.rSet, h.conns fd]
    simp
  · rw [h.conns fd] at hfd
    cases hfd
  · rw [h.pc]
    trivial

/-- A step that opens and closes nothing. -/
theorem Inv.move {net : Net} {pc : Pc} (hi : Inv listenfd s)
    (hopen : ∀ n, (net.conns n).isSome = (s.net.conns n).isSome)
    (hpc : pc.Holds listenfd net) : Inv listenfd { s with net := net, pc := pc } := by
  refine ⟨fun fd => ?_, fun fd hfd => ?_, hpc⟩
  · rw [hopen fd]
    exact hi.watched fd
  · rw [hopen fd] at hfd
    exact hi.range fd hfd

/-- `select` reports open connections that are ready, and the listening socket
if there is someone to accept. -/
theorem afterSelect_holds (s : State) :
    (Pc.afterSelect listenfd (s.ready listenfd)).Holds listenfd s.net := by
  have hready : ∀ fd ∈ s.ready listenfd, fd ≠ listenfd → s.net.ReadyAt fd := by
    intro fd hfd hne
    obtain ⟨-, h⟩ := Finset.mem_filter.mp hfd
    rwa [if_neg hne] at h
  unfold Pc.afterSelect
  split
  · rename_i hmem
    obtain ⟨-, h⟩ := Finset.mem_filter.mp hmem
    rw [if_pos rfl] at h
    exact ⟨h, fun fd hfd => hready fd hfd.1 hfd.2⟩
  · refine ⟨Nat.lt_succ_self _, fun fd hfd => hready fd hfd.1 ?_, .start _⟩
    have : listenfd + 1 ≤ fd := hfd.2
    omega

theorem accept_inv {fd : ℕ} (hi : Inv listenfd s) (hpc : s.pc = .accept tmpSet)
    (hfd : s.net.Lowest listenfd fd) (c : Socket) :
    Inv listenfd ⟨s.net.accept fd c, insert fd s.rSet, max s.maxfd fd,
      .scan (listenfd + 1) tmpSet .start⟩ := by
  have hholds := hi.pc
  rw [hpc] at hholds
  refine ⟨fun n => ?_, fun n hn => ?_, ?_⟩
  · rw [Finset.mem_insert, hi.watched n, s.net.accept_isSome, or_left_comm]
  · rcases (s.net.accept_isSome fd c n).mp hn with rfl | hn
    · exact ⟨hfd.above, le_max_right _ _⟩
    · exact ⟨(hi.range n hn).1, le_trans (hi.range n hn).2 (le_max_left _ _)⟩
  · refine ⟨Nat.lt_succ_self _, ?_, .start _⟩
    apply (hholds.2.accept hfd.unused c).mono
    rintro n ⟨hmem, hle⟩
    have hle : listenfd + 1 ≤ n := hle
    exact ⟨hmem, by omega⟩

theorem close_inv {net : Net} (hi : Inv listenfd s) (hne : i ≠ listenfd)
    (hopen : ∀ n, (net.conns n).isSome = (s.net.conns n).isSome) :
    Inv listenfd { s with net := net.set i none, rSet := s.rSet.erase i, pc := .select } := by
  refine ⟨fun fd => ?_, fun fd hfd => ?_, trivial⟩
  · rw [Finset.mem_erase, hi.watched fd, net.close_isSome, hopen fd]
    constructor
    · rintro ⟨hfd, h | h⟩
      · exact .inl h
      · exact .inr ⟨hfd, h⟩
    · rintro (rfl | ⟨hfd, h⟩)
      · exact ⟨hne.symm, .inl rfl⟩
      · exact ⟨hfd, .inr h⟩
  · have hfd := (net.close_isSome i fd).mp hfd
    rw [hopen fd] at hfd
    exact hi.range fd hfd.2

theorem serve_inv (hi : Inv listenfd s) (h : Serve listenfd s s') : Inv listenfd s' := by
  have hholds := hi.pc
  cases h with
  | select hpc hne => exact ⟨hi.watched, hi.range, afterSelect_holds s⟩
  | accept hpc hbacklog fd hfd hin c hc => exact accept_inv hi hpc hfd c
  | acceptOverrun hpc hbacklog fd hfd hout =>
      refine ⟨hi.watched, hi.range, fun n hn hlt => ?_⟩
      exact Option.isSome_iff_ne_none.mpr (hfd.least n hn (lt_of_lt_of_le hlt hout))
  | @skip i tmpSet round hpc hle hmem =>
      rw [hpc] at hholds
      obtain ⟨hlt, hserving, hasc⟩ := hholds
      refine ⟨hi.watched, hi.range, Nat.lt_succ_of_lt hlt, hserving.mono ?_, hasc.succ⟩
      rintro fd ⟨hfd, hle⟩
      exact ⟨hfd, Nat.le_of_succ_le hle⟩
  | @data i tmpSet round hpc hle hmem chunk net hread text htext =>
      rw [hpc] at hholds
      obtain ⟨hlt, hserving, hasc⟩ := hholds
      refine hi.move hread.isSome ⟨hlt, ?_, hasc.add htext⟩
      have hrest : Serving s.net {fd | fd ∈ tmpSet ∧ i + 1 ≤ fd} :=
        hserving.mono fun fd hfd => ⟨hfd.1, Nat.le_of_succ_le hfd.2⟩
      exact hrest.read hread fun hi => absurd hi.2 (Nat.not_succ_le_self i)
  | dataOverrun hpc hle hmem chunk net hread htext =>
      rw [hpc] at hholds
      exact hi.move hread.isSome ⟨hholds.2.2, htext⟩
  | write hpc r net hwrite =>
      rw [hpc] at hholds
      obtain ⟨hlt, hserving, hasc⟩ := hholds
      refine hi.move hwrite.isSome ?_
      cases r with
      | part left => exact ⟨hlt, hserving.write hwrite, hasc⟩
      | done => exact ⟨Nat.lt_succ_of_lt hlt, hserving.write hwrite, hasc⟩
      | killed => trivial
  | closed hpc hle hmem net hread =>
      rw [hpc] at hholds
      exact close_inv hi (ne_of_gt hholds.1) hread.isSome
  | error hpc hle hmem net hread => exact hi.move hread.isSome trivial
  | done hpc hlt => exact ⟨hi.watched, hi.range, trivial⟩

/-- What is ready for the server stays so whatever the clients do. -/
theorem client_holds {net net' : Net} (h : net.Client net') {pc : Pc}
    (hpc : pc.Holds listenfd net) : pc.Holds listenfd net' := by
  cases pc with
  | accept tmpSet => exact ⟨lt_of_lt_of_le hpc.1 h.backlog_le, hpc.2.client h⟩
  | scan i tmpSet round => exact ⟨hpc.1, hpc.2.1.client h, hpc.2.2⟩
  | write i tmpSet round left => exact ⟨hpc.1, hpc.2.1.client h, hpc.2.2⟩
  | fault => exact fun fd hlt hin => (h.isSome fd).trans (hpc fd hlt hin)
  | overran i round chunk => exact hpc
  | select | exit | killed => trivial

theorem step_inv (hi : Inv listenfd s) (h : Step listenfd s s') : Inv listenfd s' := by
  cases h with
  | serve h => exact serve_inv hi h
  | fail hpc => exact ⟨hi.watched, hi.range, trivial⟩
  | client net h => exact hi.move h.isSome (client_holds h hi.pc)

theorem reachable_inv (h : (server listenfd).Reachable s) : Inv listenfd s :=
  System.invariant (I := Inv listenfd) (fun _ h0 => start_inv h0)
    (fun _ _ _ hi hst => step_inv hi hst) h

/-! ## §3  Where it cannot go on -/

def Pc.Ended : Pc → Prop
  | .exit | .killed | .fault | .overran .. => True
  | _ => False

/-- `select` returns as soon as there is something to report. -/
theorem Inv.select_idle_iff (hi : Inv listenfd s) :
    s.ready listenfd = ∅ ↔ s.net.backlog = 0 ∧ ∀ fd, ¬ s.net.ReadyAt fd := by
  unfold State.ready
  rw [Finset.filter_eq_empty_iff]
  constructor
  · intro hnot
    constructor
    · have := hnot ((hi.watched listenfd).mpr (.inl rfl))
      rw [if_pos rfl] at this
      omega
    · intro fd hready
      have hsome := hready.isSome
      have := hnot ((hi.watched fd).mpr (.inr hsome))
      rw [if_neg (ne_of_gt (hi.range fd hsome).1)] at this
      exact this hready
  · rintro ⟨hbacklog, hidle⟩ fd -
    split
    · omega
    · exact hidle fd

/-- In the loop it can always go on. -/
theorem Inv.scan_goes_on (hi : Inv listenfd s) (hpc : s.pc = .scan i tmpSet round) :
    ∃ s', Serve listenfd s s' := by
  have hholds := hi.pc
  rw [hpc] at hholds
  by_cases hle : i ≤ s.maxfd
  · by_cases hmem : i ∈ tmpSet
    · obtain ⟨r, net, hread⟩ := (hholds.2.1 i ⟨hmem, le_refl _⟩).read
      cases r with
      | error => exact ⟨_, .error hpc hle hmem net hread⟩
      | closed => exact ⟨_, .closed hpc hle hmem net hread⟩
      | data chunk =>
          cases htext : round.shows chunk with
          | none => exact ⟨_, .dataOverrun hpc hle hmem chunk net hread htext⟩
          | some text => exact ⟨_, .data hpc hle hmem chunk net hread text htext⟩
    · exact ⟨_, .skip hpc hle hmem⟩
  · exact ⟨_, .done hpc (Nat.lt_of_not_le hle)⟩

theorem Inv.accept_goes_on (hi : Inv listenfd s) (hpc : s.pc = .accept tmpSet) :
    ∃ s', Serve listenfd s s' := by
  have hholds := hi.pc
  rw [hpc] at hholds
  obtain ⟨fd, hfd⟩ := s.net.exists_lowest listenfd fun n hn => (hi.range n hn).2
  by_cases hin : fd < setSize
  · exact ⟨_, .accept hpc hholds.1 fd hfd hin (silent 0) (silent_fresh 0)⟩
  · exact ⟨_, .acceptOverrun hpc hholds.1 fd hfd (Nat.le_of_not_lt hin)⟩

/-- An ended server has no step. -/
theorem Serve.not_ended (h : Serve listenfd s s') : ¬ s.pc.Ended := by
  cases h with
  | select hpc | accept hpc | acceptOverrun hpc | skip hpc | data hpc | dataOverrun hpc
  | write hpc | closed hpc | error hpc | done hpc =>
      rw [hpc]
      exact id

/-- **Where the server cannot go on**: it has ended; or it is in `select` with
nobody waiting for it, no connection to accept and no client that sent, closed or
reset anything not read; or it is in `write` to a client that takes nothing more.
In particular no `read` blocks. `FD_SET` is called for a descriptor beyond the set
only when every descriptor within is in use. -/
theorem select_stuck_iff (h : (server listenfd).Reachable s) :
    ((∀ s', ¬ Serve listenfd s s') ↔ s.pc.Ended ∨
      (s.pc = .select ∧ s.net.backlog = 0 ∧ ∀ fd, ¬ s.net.ReadyAt fd) ∨
      ∃ i tmpSet round left, s.pc = .write i tmpSet round left ∧ s.net.BlockedAt i left) ∧
    (s.pc = .fault → ∀ fd, listenfd < fd → fd < setSize → (s.net.conns fd).isSome) := by
  have hi := reachable_inv h
  refine ⟨⟨fun hstuck => ?_, ?_⟩, fun hpc => ?_⟩
  · cases hpc : s.pc with
    | exit | killed | fault | overran => exact .inl trivial
    | accept tmpSet =>
        obtain ⟨s', h'⟩ := hi.accept_goes_on hpc
        exact absurd h' (hstuck s')
    | scan i tmpSet round =>
        obtain ⟨s', h'⟩ := hi.scan_goes_on hpc
        exact absurd h' (hstuck s')
    | select =>
        refine .inr (.inl ⟨rfl, hi.select_idle_iff.mp ?_⟩)
        rw [← Finset.not_nonempty_iff_eq_empty]
        exact fun hne => hstuck _ (.select hpc hne)
    | write i tmpSet round left =>
        refine .inr (.inr ⟨i, tmpSet, round, left, rfl, Net.blockedAt_iff.mpr ?_⟩)
        exact fun r net hwrite => hstuck _ (.write hpc r net hwrite)
  · rintro (hended | ⟨hpc, hidle⟩ | ⟨i, tmpSet, round, left, hpc, hblocked⟩) s' h'
    · exact h'.not_ended hended
    · have hempty := hi.select_idle_iff.mpr hidle
      cases h' with
      | select hpc' hne =>
          rw [hempty] at hne
          exact Finset.not_nonempty_empty hne
      | accept hpc' | acceptOverrun hpc' | skip hpc' | data hpc' | dataOverrun hpc'
      | write hpc' | closed hpc' | error hpc' | done hpc' =>
          rw [hpc] at hpc'
          cases hpc'
    · cases h' with
      | write hpc' r net hwrite =>
          rw [hpc] at hpc'
          cases hpc'
          exact Net.blockedAt_iff.mp hblocked r net hwrite
      | select hpc' | accept hpc' | acceptOverrun hpc' | skip hpc' | data hpc'
      | dataOverrun hpc' | closed hpc' | error hpc' | done hpc' =>
          rw [hpc] at hpc'
          cases hpc'
  · have hholds := hi.pc
    rw [hpc] at hholds
    exact hholds

/-! Runs in which clients come. -/

/-- With nothing to read the loop goes on to its end. -/
theorem scan_skips {net : Net} {rSet : Finset ℕ} {maxfd : ℕ} (k : ℕ)
    (h : (server listenfd).Reachable ⟨net, rSet, maxfd, .scan i tmpSet round⟩)
    (hnot : ∀ j, i ≤ j → j ∉ tmpSet) (hk : i + k ≤ maxfd + 1) :
    (server listenfd).Reachable ⟨net, rSet, maxfd, .scan (i + k) tmpSet round⟩ := by
  induction k with
  | zero => exact h
  | succ k ih =>
      have hle : i + k ≤ maxfd := by omega
      exact (ih (by omega)).step (.serve (.skip rfl hle (hnot _ (Nat.le_add_right i k))))

/-- The round in which a client is accepted, with nobody else waiting. -/
theorem accept_round {conns : ℕ → Option Socket} {rSet : Finset ℕ} {maxfd : ℕ}
    (h : (server listenfd).Reachable ⟨⟨conns, 0⟩, rSet, maxfd, .select⟩)
    (hidle : ∀ n, ¬ Net.ReadyAt ⟨conns, 0⟩ n) (fd : ℕ)
    (hfd : Net.Lowest ⟨conns, 0⟩ listenfd fd) (hin : fd < setSize) {c : Socket} (hc : c.Fresh) :
    (server listenfd).Reachable
      ⟨Net.set ⟨conns, 0⟩ fd (some c), insert fd rSet, max maxfd fd, .select⟩ := by
  have hi := reachable_inv h
  have h₁ : (server listenfd).Reachable ⟨⟨conns, 1⟩, rSet, maxfd, .select⟩ :=
    h.step (.client _ .connect)
  have hready : State.ready listenfd ⟨⟨conns, 1⟩, rSet, maxfd, .select⟩ = {listenfd} := by
    ext n
    rw [State.ready, Finset.mem_filter, Finset.mem_singleton]
    constructor
    · rintro ⟨-, hn⟩
      by_contra hne
      rw [if_neg hne] at hn
      exact hidle n hn
    · rintro rfl
      exact ⟨(hi.watched n).mpr (.inl rfl), by rw [if_pos rfl]; exact one_pos⟩
  have h₂ : (server listenfd).Reachable ⟨⟨conns, 1⟩, rSet, maxfd, .accept {listenfd}⟩ := by
    have h := h₁.step (.serve (.select rfl (hready ▸ Finset.singleton_nonempty _)))
    rwa [hready, Pc.afterSelect, if_pos (Finset.mem_singleton_self _)] at h
  have h₃ : (server listenfd).Reachable ⟨Net.set ⟨conns, 0⟩ fd (some c),
      insert fd rSet, max maxfd fd, .scan (listenfd + 1) {listenfd} .start⟩ :=
    h₂.step (.serve (.accept rfl one_pos fd ⟨hfd.above, hfd.unused, hfd.least⟩ hin c hc))
  have h₄ := scan_skips (max maxfd fd - listenfd) h₃
    (fun j hj hmem => by
      have := Finset.mem_singleton.mp hmem
      omega)
    (by
      have := hfd.above
      omega)
  refine h₄.step (.serve (.done rfl ?_))
  show max maxfd fd < listenfd + 1 + (max maxfd fd - listenfd)
  omega

/-- The server on descriptor `3`, with a client on `4`. -/
theorem one_client_reachable (k : ℕ) : (server 3).Reachable
    ⟨⟨pair 4 5 (some (silent k)) none, 0⟩, {4, 3}, 4, .select⟩ := by
  have h₀ : (server 3).Reachable ⟨⟨pair 4 5 none none, 0⟩, {3}, 3, .select⟩ :=
    .init ⟨by decide, pair_none 4 5, rfl, rfl, rfl⟩
  have h₁ := accept_round h₀ (fun n hn => ?_) 4
    ⟨by decide, rfl, fun n h h' => by omega⟩ (by decide) (silent_fresh k)
  · rwa [pair_set_fst] at h₁
  · rcases pair_readyAt hn with ⟨-, c, hc, -⟩ | ⟨-, c, hc, -⟩ <;> cases hc

/-- And with another one on `5`. -/
theorem two_clients_reachable (k : ℕ) : (server 3).Reachable
    ⟨⟨pair 4 5 (some (silent k)) (some (silent k)), 0⟩, {5, 4, 3}, 5, .select⟩ := by
  have h₁ := accept_round (one_client_reachable k) (fun n hn => ?_) 5
    ⟨by decide, rfl, fun n h h' => ?_⟩ (by decide) (silent_fresh k)
  · rwa [pair_set_snd (by decide)] at h₁
  · rcases pair_readyAt hn with ⟨-, c, hc, hready⟩ | ⟨-, c, hc, -⟩
    · cases hc
      exact silent_not_ready k hready
    · cases hc
  · obtain rfl : n = 4 := by omega
    exact Option.some_ne_none _

/-- The round with two clients that have both sent. -/
theorem both_reported {a b : Socket} (h : (server 3).Reachable
    ⟨⟨pair 4 5 (some a) (some b), 0⟩, {5, 4, 3}, 5, .select⟩) (ha : a.Ready) (hb : b.Ready) :
    (server 3).Reachable
      ⟨⟨pair 4 5 (some a) (some b), 0⟩, {5, 4, 3}, 5, .scan 4 {5, 4} .start⟩ := by
  have hset : State.ready 3 ⟨⟨pair 4 5 (some a) (some b), 0⟩, {5, 4, 3}, 5, .select⟩ =
      {5, 4} := by
    have h₅ : Net.ReadyAt ⟨pair 4 5 (some a) (some b), 0⟩ 5 := ⟨b, rfl, hb⟩
    have h₄ : Net.ReadyAt ⟨pair 4 5 (some a) (some b), 0⟩ 4 := ⟨a, rfl, ha⟩
    simp [State.ready, Finset.filter_insert, Finset.filter_singleton, h₄, h₅]
  have h₁ := h.step (.serve (.select rfl (hset ▸ ⟨4, by decide⟩)))
  rwa [hset, Pc.afterSelect, if_neg (by decide)] at h₁

theorem start_shows_hello : Round.start.shows helloChunk = some (literal "hello") := by
  decide +kernel

def helloRound : Round := Round.start.add 4 helloChunk (literal "hello") start_shows_hello

/-- The client on `4` has sent `hello` and the one on `5` something else, and the
server has read `hello`. -/
theorem hello_read_reachable (k : ℕ) (bytes : List Byte) (hne : bytes ≠ []) :
    (server 3).Reachable
      ⟨⟨pair 4 5 (some { greeting k with inbox := [], reads := [literal "hello"] })
          (some { silent k with inbox := bytes, sent := bytes }), 0⟩,
        {5, 4, 3}, 5, .write 4 {5, 4} helloRound (literal "hello")⟩ := by
  have h₁ := (two_clients_reachable k).step
    (.client _ (.send 4 (silent k) (literal "hello") rfl rfl rfl))
  rw [pair_set_fst] at h₁
  have h₂ := h₁.step (.client _ (.send 5 (silent k) bytes rfl rfl rfl))
  rw [pair_set_snd (by decide)] at h₂
  have h₃ := both_reported h₂ (greeting_ready k) (.inl hne)
  have h₄ := h₃.step (.serve (.data rfl (show 4 ≤ 5 by decide) (by decide) helloChunk _
    (.data (greeting k) helloChunk [] rfl (by simp [greeting, helloChunk])) (literal "hello")
    start_shows_hello))
  rw [pair_set_fst] at h₄
  exact h₄

/-- Two silent clients, and the server sleeps. One sends `hello` and takes nothing
back, and the server waits for it in `write`, while another one has sent too. -/
theorem select_stuck_in_write :
    (∀ s', ¬ Serve 3 ⟨⟨pair 4 5 (some (silent 9)) (some (silent 9)), 0⟩, {5, 4, 3}, 5,
      .select⟩ s') ∧
    ∃ s : State, (server 3).Reachable s ∧ s.net.ReadyAt 5 ∧ ∀ s', ¬ Serve 3 s s' := by
  constructor
  · refine (select_stuck_iff (two_clients_reachable 9)).1.mpr (.inr (.inl ⟨rfl, rfl, ?_⟩))
    intro fd hfd
    rcases pair_readyAt hfd with ⟨-, c, hc, hready⟩ | ⟨-, c, hc, hready⟩
    · cases hc
      exact silent_not_ready 9 hready
    · cases hc
      exact silent_not_ready 9 hready
  · have h := hello_read_reachable 0 (literal "hi") (by decide)
    refine ⟨_, h, ⟨_, rfl, .inl (show literal "hi" ≠ [] by decide)⟩, ?_⟩
    exact (select_stuck_iff h).1.mpr
      (.inr (.inr ⟨_, _, _, _, rfl, _, rfl, rfl, rfl, by decide⟩))

/-! ## §4  What it reads from -/

/-- **The server reads from open connections only**, and only from those that are
ready: never from a descriptor it has closed. So of its own steps the one to `exit`
comes after a `read` from a client that has reset this very connection. -/
theorem select_exits_only_on_reset (h : (server listenfd).Reachable s) :
    (∀ i tmpSet round, s.pc = .scan i tmpSet round → i ≤ s.maxfd → i ∈ tmpSet →
      s.net.ReadyAt i) ∧
    ∀ s', Serve listenfd s s' → s'.pc = .exit → ∃ i tmpSet round c,
      s.pc = .scan i tmpSet round ∧ s.net.conns i = some c ∧ c.reset = true := by
  have hholds := (reachable_inv h).pc
  have hready : ∀ i tmpSet round, s.pc = .scan i tmpSet round → i ≤ s.maxfd → i ∈ tmpSet →
      s.net.ReadyAt i := by
    intro i tmpSet round hpc hle hmem
    rw [hpc] at hholds
    exact hholds.2.1 i ⟨hmem, le_refl _⟩
  refine ⟨hready, fun s' hserve hexit => ?_⟩
  cases hserve with
  | @error i tmpSet round hpc hle hmem net hread =>
      obtain ⟨c, hc, hreset⟩ := (hready i tmpSet round hpc hle hmem).error hread
      exact ⟨i, tmpSet, round, c, hpc, hc, hreset⟩
  | select hpc hne =>
      unfold Pc.afterSelect at hexit
      simp only at hexit
      split at hexit <;> cases hexit
  | write hpc r net hwrite => cases r <;> cases hexit
  | accept | acceptOverrun | skip | data | dataOverrun | closed | done => cases hexit

/-- A client leaves, another one gets its descriptor and resets its connection. -/
theorem select_exits_on_reset : ∃ s s' : State, (server 3).Reachable s ∧
    Serve 3 s s' ∧ s'.pc = .exit ∧ s.net.ReadyAt 4 ∧ ∃ i tmpSet round c,
      s.pc = .scan i tmpSet round ∧ s.net.conns i = some c ∧ c.reset = true := by
  have h₁ := (one_client_reachable 0).step (.client _ (.close 4 (silent 0) rfl))
  rw [pair_set_fst] at h₁
  have h₂ := h₁.step (.serve (.select rfl ⟨4, by decide⟩))
  have h₃ : (server 3).Reachable ⟨⟨pair 4 5 none none, 0⟩, {3}, 4, .select⟩ := by
    have hclosed : Serve 3 ⟨⟨pair 4 5 (some { silent 0 with eof := true }) none, 0⟩,
        {4, 3}, 4, .scan 4 {4} .start⟩ _ := .closed rfl (le_refl 4) (by decide) _
      (.closed { silent 0 with eof := true } rfl rfl rfl)
    have h := h₂.step (.serve hclosed)
    rw [pair_set_fst] at h
    exact h
  have h₄ : (server 3).Reachable ⟨⟨pair 4 5 (some (silent 0)) none, 0⟩, {4, 3}, 4,
      .select⟩ := by
    have h := accept_round h₃ (fun n hn => ?_) 4
      ⟨by decide, rfl, fun n h h' => by omega⟩ (by decide) (silent_fresh 0)
    · rw [pair_set_fst] at h
      exact h
    · rcases pair_readyAt hn with ⟨-, c, hc, -⟩ | ⟨-, c, hc, -⟩ <;> cases hc
  have h₅ := h₄.step (.client _ (.reset 4 (silent 0) rfl))
  rw [pair_set_fst] at h₅
  have h₆ : (server 3).Reachable ⟨⟨pair 4 5 (some { silent 0 with reset := true }) none, 0⟩,
      {4, 3}, 4, .scan 4 {4} .start⟩ := h₅.step (.serve (.select rfl ⟨4, by decide⟩))
  have hread : Serve 3 ⟨⟨pair 4 5 (some { silent 0 with reset := true }) none, 0⟩,
      {4, 3}, 4, .scan 4 {4} .start⟩ _ :=
    .error rfl (le_refl 4) (by decide) _ (.reset { silent 0 with reset := true } rfl rfl)
  obtain ⟨hready, hexit⟩ := select_exits_only_on_reset h₆
  exact ⟨_, _, h₆, hread, rfl, hready 4 _ _ rfl (le_refl 4) (by decide), hexit _ hread rfl⟩

/-! ## §5  What it echoes -/

/-- What was read in the current round. -/
def Pc.echoes : Pc → List Echo
  | .scan _ _ round => round.echoes
  | .write _ _ round _ => round.echoes
  | .overran _ round _ => round.echoes
  | _ => []

theorem Inv.echoes (hi : Inv listenfd s) (hne : s.pc.echoes ≠ []) :
    ∃ round : Round, s.pc.echoes = round.echoes ∧
      round.echoes.Pairwise fun d e => d.fd < e.fd := by
  have hholds := hi.pc
  cases hpc : s.pc with
  | scan i tmpSet round =>
      rw [hpc] at hholds
      exact ⟨round, rfl, hholds.2.2.sorted⟩
  | write i tmpSet round left =>
      rw [hpc] at hholds
      exact ⟨round, rfl, hholds.2.2.sorted⟩
  | overran i round chunk =>
      rw [hpc] at hholds
      exact ⟨round, rfl, hholds.1.sorted⟩
  | select | accept | exit | killed | fault =>
      rw [hpc] at hne
      exact absurd rfl hne

end LinuxServer.Select
