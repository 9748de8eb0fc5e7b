import LinuxServer.Tcp.Sockets

/-!
# The `epoll` servers

Two echo servers that wait with `epoll_wait`. The first leaves its connections
level triggered and reads once from each that is reported. The second makes them
edge triggered and non-blocking, and reads five bytes at a time until nothing is
left. Both leave the loop over the reported events when a client has closed.

- §1 the servers
- §2 the batch of reported events
- §3 the invariant
-/

namespace LinuxServer.Epoll

open LinuxServer.Framework LinuxServer.Tcp

/-! ## §1  The servers -/

inductive Mode where
  | level
  | edge
deriving DecidableEq

/-- `events[1024]`. -/
def maxEvents : ℕ := 1024

/-- `char recv_buf[5]` of the edge triggered server. -/
abbrev ShortBuf : Type := Buf Byte 5

def zeroedShort : ShortBuf := Buf.fill NUL 5

/-- A `read` that returned something: from whom, the bytes, the text of the
`printf`, and what `write` is given. -/
structure Reply where
  fd : ℕ
  chunk : List Byte
  text : List Byte
  sent : List Byte

inductive Pc where
  | wait
  /-- The loop over the events that were reported, with those still to handle. -/
  | batch (todo : List ℕ)
  /-- The inner loop of the edge triggered server. -/
  | drain (fd : ℕ) (todo : List ℕ) (recvBuf : ShortBuf)
  /-- In `write` to `fd`, with the bytes that are still to be taken over. -/
  | write (fd : ℕ) (todo : List ℕ) (left : List Byte)
  | exit
  /-- Ended by `SIGPIPE`. -/
  | killed
  /-- `printf`, `strlen` or `strcpy` ran past `recv_buf` when `chunk` was read from
  `fd`. -/
  | overran (fd : ℕ) (chunk : List Byte)

/-- `edges` are the connections on the kernel's ready list: something came in
since they were last reported. `lost` are those that were reported and dropped
with nothing coming in since. -/
structure State where
  net : Net
  edges : Finset ℕ
  pc : Pc
  log : List Reply
  lost : Finset ℕ

/-- What `epoll_wait` reports. The listening socket is level triggered in both
servers. -/
def State.Reported (mode : Mode) (listenfd : ℕ) (s : State) (fd : ℕ) : Prop :=
  if fd = listenfd then 0 < s.net.backlog
  else s.net.ReadyAt fd ∧ (mode = .edge → fd ∈ s.edges)

instance (mode : Mode) (listenfd : ℕ) (s : State) (fd : ℕ) :
    Decidable (s.Reported mode listenfd fd) :=
  inferInstanceAs (Decidable (if fd = listenfd then 0 < s.net.backlog
    else s.net.ReadyAt fd ∧ (mode = .edge → fd ∈ s.edges)))

/-- The connection is open and has nothing to read: a non-blocking `read` fails
with `EAGAIN`. -/
def Drained (net : Net) (fd : ℕ) : Prop := (net.conns fd).isSome ∧ ¬ net.ReadyAt fd

/-- The connections of the first server are blocking. -/
def Mode.blocks : Mode → Bool
  | .level => true
  | .edge => false

/-- What `write` returns is not looked at. The edge triggered server clears its
buffer and reads on. -/
def Pc.afterWrite (mode : Mode) (fd : ℕ) (todo : List ℕ) : Written → Pc
  | .part left => .write fd todo left
  | .done =>
      match mode with
      | .level => .batch todo
      | .edge => .drain fd todo zeroedShort
  | .killed => .killed

/-- The servers' own steps, as long as no system call fails but `read` and `write`.
The descriptor after `listenfd` is `epfd`. -/
inductive Serve (mode : Mode) (listenfd : ℕ) : State → State → Prop where
  | wait {s : State} (hpc : s.pc = .wait) (events : List ℕ) (hne : events ≠ [])
      (hnodup : events.Nodup) (hlen : events.length ≤ maxEvents)
      (hevents : ∀ fd ∈ events, s.Reported mode listenfd fd)
      (hall : events.length < maxEvents → ∀ fd, s.Reported mode listenfd fd → fd ∈ events) :
      Serve mode listenfd s { s with
        edges := s.edges \ events.toFinset, pc := .batch events }
  | done {s : State} (hpc : s.pc = .batch []) :
      Serve mode listenfd s { s with pc := .wait }
  | accept {s : State} {todo : List ℕ} (hpc : s.pc = .batch (listenfd :: todo))
      (hbacklog : 0 < s.net.backlog) (fd : ℕ) (hfd : s.net.Lowest (listenfd + 1) fd)
      (c : Socket) (hc : c.Fresh) :
      -- `EPOLL_CTL_ADD` puts the connection on the ready list if it is ready
      Serve mode listenfd s { s with
        net := s.net.accept fd c
        edges := if c.Ready then insert fd s.edges else s.edges
        pc := .batch todo }
  | data {s : State} {fd : ℕ} {todo : List ℕ} (hmode : mode = .level)
      (hpc : s.pc = .batch (fd :: todo)) (hfd : fd ≠ listenfd) (chunk : Chunk) (net : Net)
      (hread : s.net.Read fd (.data chunk) net) (text : List Byte)
      (htext : upTo NUL (zeroed.overwrite chunk.bytes chunk.le).cells = some text) :
      Serve mode listenfd s { s with
        net := net
        pc := .write fd todo text
        log := s.log ++ [⟨fd, chunk.bytes, text, text⟩] }
  | dataOverrun {s : State} {fd : ℕ} {todo : List ℕ} (hmode : mode = .level)
      (hpc : s.pc = .batch (fd :: todo)) (hfd : fd ≠ listenfd) (chunk : Chunk) (net : Net)
      (hread : s.net.Read fd (.data chunk) net)
      (htext : upTo NUL (zeroed.overwrite chunk.bytes chunk.le).cells = none) :
      Serve mode listenfd s { s with net := net, pc := .overran fd chunk.bytes }
  | closed {s : State} {fd : ℕ} {todo : List ℕ} (hmode : mode = .level)
      (hpc : s.pc = .batch (fd :: todo)) (hfd : fd ≠ listenfd) (net : Net)
      (hread : s.net.Read fd .closed net) :
      -- `close(curfd); ... break;`, and `close` ends the registration
      Serve mode listenfd s { s with
        net := net.set fd none, edges := s.edges.erase fd, pc := .wait }
  | error {s : State} {fd : ℕ} {todo : List ℕ} (hmode : mode = .level)
      (hpc : s.pc = .batch (fd :: todo)) (hfd : fd ≠ listenfd) (net : Net)
      (hread : s.net.Read fd .error net) :
      Serve mode listenfd s { s with net := net, pc := .exit }
  | drain {s : State} {fd : ℕ} {todo : List ℕ} (hmode : mode = .edge)
      (hpc : s.pc = .batch (fd :: todo)) (hfd : fd ≠ listenfd) :
      Serve mode listenfd s { s with pc := .drain fd todo zeroedShort }
  | drainData {s : State} {fd : ℕ} {todo : List ℕ} {recvBuf : ShortBuf}
      (hpc : s.pc = .drain fd todo recvBuf) (chunk : Chunk) (hshort : chunk.bytes.length ≤ 5)
      (net : Net) (hread : s.net.Read fd (.data chunk) net) (text : List Byte)
      (htext : upTo NUL (recvBuf.overwrite chunk.bytes hshort).cells = some text) :
      -- `strcpy(test_buf, recv_buf)`, then all of `recv_buf` is written
      Serve mode listenfd s { s with
        net := net
        pc := .write fd todo (recvBuf.overwrite chunk.bytes hshort).cells
        log := s.log ++
          [⟨fd, chunk.bytes, text, (recvBuf.overwrite chunk.bytes hshort).cells⟩] }
  | drainOverrun {s : State} {fd : ℕ} {todo : List ℕ} {recvBuf : ShortBuf}
      (hpc : s.pc = .drain fd todo recvBuf) (chunk : Chunk) (hshort : chunk.bytes.length ≤ 5)
      (net : Net) (hread : s.net.Read fd (.data chunk) net)
      (htext : upTo NUL (recvBuf.overwrite chunk.bytes hshort).cells = none) :
      Serve mode listenfd s { s with net := net, pc := .overran fd chunk.bytes }
  | write {s : State} {fd : ℕ} {todo : List ℕ} {left : List Byte}
      (hpc : s.pc = .write fd todo left) (r : Written) (net : Net)
      (hwrite : s.net.Write mode.blocks fd left r net) :
      Serve mode listenfd s { s with net := net, pc := .afterWrite mode fd todo r }
  | drainOver {s : State} {fd : ℕ} {todo : List ℕ} {recvBuf : ShortBuf}
      (hpc : s.pc = .drain fd todo recvBuf) (hagain : Drained s.net fd) :
      Serve mode listenfd s { s with pc := .batch todo }
  | drainClosed {s : State} {fd : ℕ} {todo : List ℕ} {recvBuf : ShortBuf}
      (hpc : s.pc = .drain fd todo recvBuf) (net : Net)
      (hread : s.net.Read fd .closed net) :
      Serve mode listenfd s { s with
        net := net.set fd none
        edges := s.edges.erase fd
        pc := .wait
        lost := s.lost ∪ todo.toFinset.filter fun n => n ≠ listenfd ∧ n ∉ s.edges }
  | drainError {s : State} {fd : ℕ} {todo : List ℕ} {recvBuf : ShortBuf}
      (hpc : s.pc = .drain fd todo recvBuf) (net : Net)
      (hread : s.net.Read fd .error net) :
      Serve mode listenfd s { s with net := net, pc := .exit }

/-- The connections a client's step has brought something to read. -/
def Changed (net net' : Net) (fd : ℕ) : Prop :=
  (net'.conns fd).map Socket.readable ≠ (net.conns fd).map Socket.readable

/-- A step of the server or of a client. What comes in on a connection puts it on
the ready list. `epoll_wait` and `accept` may fail, and then the server
exits. -/
inductive Step (mode : Mode) (listenfd : ℕ) : State → State → Prop where
  | serve {s s' : State} (h : Serve mode listenfd s s') : Step mode listenfd s s'
  | fail {s : State} (hpc : s.pc = .wait ∨ ∃ todo, s.pc = .batch (listenfd :: todo)) :
      Step mode listenfd s { s with pc := .exit }
  | client {s : State} (net : Net) (h : s.net.Client net) (edges lost : Finset ℕ)
      (hedges : ∀ fd, fd ∈ edges ↔ fd ∈ s.edges ∨ Changed s.net net fd)
      (hlost : ∀ fd, fd ∈ lost ↔ fd ∈ s.lost ∧ ¬ Changed s.net net fd) :
      Step mode listenfd s { s with net := net, edges := edges, lost := lost }

/-- After `listen`, `epoll_create` and the registration of `listenfd`. -/
def Start (s : State) : Prop :=
  (∀ fd, s.net.conns fd = none) ∧ s.edges = ∅ ∧ s.pc = .wait ∧ s.log = [] ∧ s.lost = ∅

def server (mode : Mode) (listenfd : ℕ) : System State where
  init := Start
  step := Step mode listenfd

/-! ## §2  The batch of reported events -/

/-- Whatever is still to handle is ready, and is there once. -/
structure Batch (listenfd : ℕ) (net : Net) (todo : List ℕ) : Prop where
  nodup : todo.Nodup
  backlog : listenfd ∈ todo → 0 < net.backlog
  serving : Serving net {fd | fd ∈ todo ∧ fd ≠ listenfd}

variable {mode : Mode} {listenfd fd : ℕ} {net net' : Net} {todo : List ℕ} {s s' : State}

theorem Batch.tail (hb : Batch listenfd net (fd :: todo)) : Batch listenfd net todo where
  nodup := (List.nodup_cons.mp hb.nodup).2
  backlog h := hb.backlog (List.mem_cons_of_mem _ h)
  serving := hb.serving.mono fun _ hn => ⟨List.mem_cons_of_mem _ hn.1, hn.2⟩

theorem Batch.head (hb : Batch listenfd net (fd :: todo)) (hfd : fd ≠ listenfd) :
    net.ReadyAt fd := hb.serving fd ⟨List.mem_cons_self, hfd⟩

theorem Batch.client (hb : Batch listenfd net todo) (h : net.Client net') :
    Batch listenfd net' todo where
  nodup := hb.nodup
  backlog hmem := lt_of_lt_of_le (hb.backlog hmem) h.backlog_le
  serving := hb.serving.client h

theorem Batch.accept (hb : Batch listenfd net (listenfd :: todo))
    (hunused : net.conns fd = none) (c : Socket) :
    Batch listenfd (net.accept fd c) todo where
  nodup := hb.tail.nodup
  backlog h := absurd h (List.nodup_cons.mp hb.nodup).1
  serving := hb.tail.serving.accept hunused c

theorem Batch.write {block : Bool} {left : List Byte} {r : Written}
    (hb : Batch listenfd net todo) (h : net.Write block fd left r net') :
    Batch listenfd net' todo where
  nodup := hb.nodup
  backlog hmem := h.backlog ▸ hb.backlog hmem
  serving := hb.serving.write h

theorem Batch.read {r : ReadResult} (hb : Batch listenfd net todo) (hfd : fd ∉ todo)
    (h : net.Read fd r net') : Batch listenfd net' todo where
  nodup := hb.nodup
  backlog hmem := h.backlog ▸ hb.backlog hmem
  serving := hb.serving.read h fun hn => hfd hn.1

/-- `epoll_wait` reports at least one event if there is one. -/
theorem exists_events {bound : ℕ} (hbound : ∀ fd, (s.net.conns fd).isSome → fd ≤ bound)
    (h : s.Reported mode listenfd fd) :
    ∃ events : List ℕ, events ≠ [] ∧ events.Nodup ∧ events.length ≤ maxEvents ∧
      (∀ fd ∈ events, s.Reported mode listenfd fd) ∧
      (events.length < maxEvents → ∀ fd, s.Reported mode listenfd fd → fd ∈ events) := by
  let ready := (List.range (max bound listenfd + 1)).filter
    fun fd => s.Reported mode listenfd fd
  have hmem : ∀ n, n ∈ ready ↔ s.Reported mode listenfd n := by
    intro n
    rw [List.mem_filter, List.mem_range, decide_eq_true_eq]
    refine ⟨fun h => h.2, fun hn => ⟨?_, hn⟩⟩
    by_cases hl : n = listenfd
    · omega
    · unfold State.Reported at hn
      rw [if_neg hl] at hn
      have := hbound n hn.1.isSome
      omega
  refine ⟨ready.take maxEvents, fun hnil => ?_, ?_, ?_, fun n hn => ?_, fun hlt n hn => ?_⟩
  · rcases List.take_eq_nil_iff.mp hnil with h0 | h0
    · cases h0
    · have := (hmem fd).mpr h
      rw [h0] at this
      cases this
  · exact (List.nodup_range.filter _).sublist (List.take_sublist _ _)
  · exact List.length_take_le _ _
  · exact (hmem n).mp (List.mem_of_mem_take hn)
  · rw [List.length_take] at hlt
    rw [List.take_of_length_le (by omega)]
    exact (hmem n).mpr hn

/-! ## §3  The invariant -/

def Pc.Ended : Pc → Prop
  | .exit | .killed | .overran .. => True
  | _ => False

/-- The connections that were reported and are not handled yet. -/
def Pc.pending : Pc → List ℕ
  | .batch todo => todo
  | .drain fd todo _ => fd :: todo
  | .write fd todo _ => fd :: todo
  | _ => []

/-- The length of `recv_buf`. -/
def Mode.size : Mode → ℕ
  | .level => 1024
  | .edge => 5

/-- A chunk that fills the buffer and has no terminator. -/
def Mode.Fills (mode : Mode) (chunk : List Byte) : Prop :=
  NUL ∉ chunk ∧ chunk.length = mode.size

instance (mode : Mode) (chunk : List Byte) : Decidable (mode.Fills chunk) :=
  inferInstanceAs (Decidable (NUL ∉ chunk ∧ chunk.length = mode.size))

def Pc.Holds (mode : Mode) (listenfd : ℕ) (net : Net) : Pc → Prop
  | .batch todo => Batch listenfd net todo
  | .drain fd todo recvBuf =>
      mode = .edge ∧ fd ≠ listenfd ∧ fd ∉ todo ∧ (net.conns fd).isSome ∧
        Batch listenfd net todo ∧ recvBuf = zeroedShort
  | .write fd todo _ =>
      fd ≠ listenfd ∧ fd ∉ todo ∧ (net.conns fd).isSome ∧ Batch listenfd net todo
  | .overran _ chunk => mode.Fills chunk
  | _ => True

/-- What the server makes of a chunk: both print it up to its first NUL; the first
writes back this text, the second all of its buffer. -/
structure Reply.Right (mode : Mode) (e : Reply) : Prop where
  short : e.chunk.length ≤ mode.size
  fits : ¬ mode.Fills e.chunk
  text : e.text = e.chunk.takeWhile (· ≠ NUL)
  sent : e.sent =
    match mode with
    | .level => e.text
    | .edge => e.chunk ++ List.replicate (5 - e.chunk.length) NUL

/-- With edge triggering a connection that is ready is on the ready list, in the
batch, or lost; what is lost is none of the others. -/
structure Inv (mode : Mode) (listenfd : ℕ) (s : State) : Prop where
  range : ∀ fd, (s.net.conns fd).isSome → listenfd < fd
  finite : ∃ bound, ∀ fd, (s.net.conns fd).isSome → fd ≤ bound
  pc : s.pc.Holds mode listenfd s.net
  tracked : mode = .edge → ¬ s.pc.Ended → ∀ fd, s.net.ReadyAt fd →
    fd ∈ s.edges ∨ fd ∈ s.pc.pending ∨ fd ∈ s.lost
  lost : ∀ fd ∈ s.lost, mode = .edge ∧ s.net.ReadyAt fd ∧ fd ∉ s.edges ∧ fd ∉ s.pc.pending
  log : ∀ e ∈ s.log, e.Right mode

theorem start_inv (h : Start s) : Inv mode listenfd s := by
  obtain ⟨hconns, hedges, hpc, hlog, hlost⟩ := h
  have hnone : ∀ fd, ¬ (s.net.conns fd).isSome := by
    intro fd
    rw [hconns fd]
    simp
  refine ⟨fun fd hfd => absurd hfd (hnone fd), ⟨0, fun fd hfd => absurd hfd (hnone fd)⟩, ?_,
    fun _ _ fd hfd => absurd hfd.isSome (hnone fd), ?_, ?_⟩
  · rw [hpc]
    trivial
  · rw [hlost]
    intro fd hfd
    cases hfd
  · rw [hlog]
    intro e he
    cases he

/-- The part of the invariant that does not depend on what the server does
next: only which descriptors are open matters. -/
theorem Inv.open_congr (hi : Inv mode listenfd s)
    (h : ∀ n, (net.conns n).isSome → (s.net.conns n).isSome) :
    (∀ fd, (net.conns fd).isSome → listenfd < fd) ∧
      ∃ bound, ∀ fd, (net.conns fd).isSome → fd ≤ bound := by
  obtain ⟨bound, hbound⟩ := hi.finite
  exact ⟨fun fd hfd => hi.range fd (h fd hfd), bound, fun fd hfd => hbound fd (h fd hfd)⟩

theorem wait_inv {events : List ℕ} (hi : Inv mode listenfd s) (hnodup : events.Nodup)
    (hpc : s.pc = .wait) (hevents : ∀ fd ∈ events, s.Reported mode listenfd fd) :
    Inv mode listenfd { s with
      edges := s.edges \ events.toFinset, pc := .batch events } := by
  refine ⟨hi.range, hi.finite, ⟨hnodup, fun hmem => ?_, ?_⟩, fun hmode _ fd hready => ?_,
    fun fd hfd => ?_, hi.log⟩
  · simpa [State.Reported] using hevents listenfd hmem
  · rintro fd ⟨hmem, hne⟩
    have := hevents fd hmem
    rw [State.Reported, if_neg hne] at this
    exact this.1
  · by_cases hmem : fd ∈ events
    · exact .inr (.inl hmem)
    · rcases hi.tracked hmode (by rw [hpc]; exact id) fd hready with h | h | h
      · exact .inl (by simp [h, hmem])
      · rw [hpc] at h
        cases h
      · exact .inr (.inr h)
  · obtain ⟨hmode, hready, hedge, -⟩ := hi.lost fd hfd
    refine ⟨hmode, hready, fun h => hedge (Finset.mem_sdiff.mp h).1, fun hmem => ?_⟩
    have hne : fd ≠ listenfd := ne_of_gt (hi.range fd hready.isSome)
    have := hevents fd hmem
    rw [State.Reported, if_neg hne] at this
    exact hedge (this.2 hmode)

theorem accept_inv (hi : Inv mode listenfd s) (hpc : s.pc = .batch (listenfd :: todo))
    (hfd : s.net.Lowest (listenfd + 1) fd) (c : Socket) :
    Inv mode listenfd { s with
      net := s.net.accept fd c
      edges := if c.Ready then insert fd s.edges else s.edges
      pc := .batch todo } := by
  have hholds := hi.pc
  rw [hpc] at hholds
  obtain ⟨bound, hbound⟩ := hi.finite
  have hother : ∀ {n}, n ≠ fd → ((s.net.accept fd c).ReadyAt n ↔ s.net.ReadyAt n) :=
    fun hn => s.net.set_readyAt (some c) hn
  have hedges : ∀ n, n ∈ (if c.Ready then insert fd s.edges else s.edges) ↔
      n = fd ∧ c.Ready ∨ n ∈ s.edges := by
    intro n
    by_cases hready : c.Ready
    · rw [if_pos hready, Finset.mem_insert]
      exact or_congr_left (and_iff_left hready).symm
    · rw [if_neg hready]
      exact ⟨.inr, fun h => h.resolve_left fun h => hready h.2⟩
  refine ⟨fun n hn => ?_, ⟨max bound fd, fun n hn => ?_⟩, hholds.accept hfd.unused c,
    fun hmode _ n hready => ?_, fun n hn => ?_, hi.log⟩
  · rcases (s.net.accept_isSome fd c n).mp hn with rfl | hn
    · have := hfd.above
      omega
    · exact hi.range n hn
  · rcases (s.net.accept_isSome fd c n).mp hn with rfl | hn
    · exact le_max_right _ _
    · exact le_trans (hbound n hn) (le_max_left _ _)
  · by_cases hn : n = fd
    · subst hn
      obtain ⟨c', hc', hr⟩ := hready
      have hc : (s.net.accept n c).conns n = some c := Net.set_same ..
      rw [hc] at hc'
      cases hc'
      exact .inl ((hedges n).mpr (.inl ⟨rfl, hr⟩))
    · rcases hi.tracked hmode (by rw [hpc]; exact id) n ((hother hn).mp hready) with h | h | h
      · exact .inl ((hedges n).mpr (.inr h))
      · rw [hpc] at h
        rcases List.mem_cons.mp h with rfl | h
        · -- the listening socket is no connection
          have := hi.range n ((hother hn).mp hready).isSome
          omega
        · exact .inr (.inl h)
      · exact .inr (.inr h)
  · obtain ⟨hmode, hready, hedge, hpend⟩ := hi.lost n hn
    have hne : n ≠ fd := by
      rintro rfl
      have := hready.isSome
      rw [hfd.unused] at this
      cases this
    refine ⟨hmode, (hother hne).mpr hready, fun h => ?_, fun h => hpend ?_⟩
    · rcases (hedges n).mp h with ⟨h, -⟩ | h
      · exact hne h
      · exact hedge h
    · rw [hpc]
      exact List.mem_cons_of_mem _ h

/-- A step that reads from what is pending at most. -/
theorem Inv.move {pc : Pc} {log : List Reply} (hi : Inv mode listenfd s)
    (hgoes : ¬ s.pc.Ended) (hopen : ∀ n, (net.conns n).isSome → (s.net.conns n).isSome)
    (hother : ∀ n, n ∉ s.pc.pending → (net.ReadyAt n ↔ s.net.ReadyAt n))
    (hholds : pc.Holds mode listenfd net) (hsub : ∀ n ∈ pc.pending, n ∈ s.pc.pending)
    (hkeep : mode = .edge → ¬ pc.Ended → ∀ n ∈ s.pc.pending, net.ReadyAt n → n ∈ pc.pending)
    (hlog : ∀ e ∈ log, e.Right mode) :
    Inv mode listenfd { s with net := net, pc := pc, log := log } := by
  obtain ⟨hrange, hfinite⟩ := hi.open_congr hopen
  refine ⟨hrange, hfinite, hholds, fun hmode hpc n hready => ?_, fun n hn => ?_, hlog⟩
  · by_cases hmem : n ∈ s.pc.pending
    · exact .inr (.inl (hkeep hmode hpc n hmem hready))
    · rcases hi.tracked hmode hgoes n ((hother n hmem).mp hready) with h | h | h
      · exact .inl h
      · exact absurd h hmem
      · exact .inr (.inr h)
  · obtain ⟨hmode, hready, hedge, hpend⟩ := hi.lost n hn
    exact ⟨hmode, (hother n hpend).mpr hready, hedge, fun h => hpend (hsub n h)⟩

theorem Inv.log_concat (hi : Inv mode listenfd s) {e : Reply} (he : e.Right mode) :
    ∀ e' ∈ s.log ++ [e], e'.Right mode := by
  intro e' he'
  rcases List.mem_append.mp he' with h | h
  · exact hi.log e' h
  · rw [List.mem_singleton.mp h]
    exact he

theorem close_isSome (h : net.Read fd .closed net') {n : ℕ}
    (hn : ((net'.set fd none).conns n).isSome) : n ≠ fd ∧ (net.conns n).isSome := by
  rw [net'.close_isSome, h.isSome n] at hn
  exact hn

/-- The events behind one of a closed connection are dropped. -/
theorem drainClosed_inv {recvBuf : ShortBuf} (hi : Inv mode listenfd s)
    (hpc : s.pc = .drain fd todo recvBuf) (hread : s.net.Read fd .closed net) :
    Inv mode listenfd { s with
      net := net.set fd none
      edges := s.edges.erase fd
      pc := .wait
      lost := s.lost ∪ todo.toFinset.filter fun n => n ≠ listenfd ∧ n ∉ s.edges } := by
  have hholds := hi.pc
  rw [hpc] at hholds
  obtain ⟨hmode, -, hnot, -, hbatch, -⟩ := hholds
  have hother : ∀ {n}, n ≠ fd → ((net.set fd none).ReadyAt n ↔ s.net.ReadyAt n) :=
    fun hn => (net.set_readyAt none hn).trans (hread.readyAt_other hn)
  obtain ⟨hrange, hfinite⟩ := hi.open_congr fun n hn => (close_isSome hread hn).2
  refine ⟨hrange, hfinite, trivial, fun _ _ n hready => ?_, fun n hn => ?_, hi.log⟩
  · have hne : n ≠ fd := (close_isSome hread hready.isSome).1
    by_cases hedge : n ∈ s.edges
    · exact .inl (Finset.mem_erase.mpr ⟨hne, hedge⟩)
    · right; right
      have hready := (hother hne).mp hready
      rcases hi.tracked hmode (by rw [hpc]; exact id) n hready with h | h | h
      · exact absurd h hedge
      · rw [hpc] at h
        have hmem : n ∈ todo := (List.mem_cons.mp h).resolve_left hne
        have hl : n ≠ listenfd := ne_of_gt (hi.range n hready.isSome)
        exact Finset.mem_union_right _ (by simp [hmem, hl, hedge])
      · exact Finset.mem_union_left _ h
  · have hsplit : n ∈ s.lost ∨ (n ∈ todo ∧ n ≠ listenfd ∧ n ∉ s.edges) := by
      simpa using hn
    rcases hsplit with h | ⟨hmem, hl, hedge⟩
    · obtain ⟨-, hready, hedge, hpend⟩ := hi.lost n h
      have hne : n ≠ fd := by
        rintro rfl
        exact hpend (by rw [hpc]; exact List.mem_cons_self)
      exact ⟨hmode, (hother hne).mpr hready, fun h => hedge (Finset.mem_of_mem_erase h),
        List.not_mem_nil⟩
    · have hne : n ≠ fd := by
        rintro rfl
        exact hnot hmem
      exact ⟨hmode, (hother hne).mpr (hbatch.serving n ⟨hmem, hl⟩),
        fun h => hedge (Finset.mem_of_mem_erase h), List.not_mem_nil⟩

/-- Reading into a buffer of zeros. -/
theorem level_text {chunk : Chunk} {text : Option (List Byte)}
    (htext : upTo NUL (zeroed.overwrite chunk.bytes chunk.le).cells = text) :
    text = if Mode.level.Fills chunk.bytes then none
      else some (chunk.bytes.takeWhile (· ≠ NUL)) :=
  htext.symm.trans (upTo_overwrite_fill chunk.le)

theorem edge_text {chunk : Chunk} (hshort : chunk.bytes.length ≤ 5)
    {text : Option (List Byte)}
    (htext : upTo NUL (zeroedShort.overwrite chunk.bytes hshort).cells = text) :
    text = if Mode.edge.Fills chunk.bytes then none
      else some (chunk.bytes.takeWhile (· ≠ NUL)) :=
  htext.symm.trans (upTo_overwrite_fill hshort)

theorem fills_of_none {chunk : List Byte}
    (h : none = if mode.Fills chunk then none else some (chunk.takeWhile (· ≠ NUL))) :
    mode.Fills chunk := by
  by_contra hnot
  rw [if_neg hnot] at h
  cases h

theorem text_of_some {chunk text : List Byte}
    (h : some text = if mode.Fills chunk then none else some (chunk.takeWhile (· ≠ NUL))) :
    ¬ mode.Fills chunk ∧ text = chunk.takeWhile (· ≠ NUL) := by
  by_cases hfills : mode.Fills chunk
  · rw [if_pos hfills] at h
    cases h
  · rw [if_neg hfills] at h
    exact ⟨hfills, Option.some.inj h⟩

/-- The server reads from a connection of its batch, and goes on to what is left of
the batch at most. -/
theorem Inv.read {r : ReadResult} {pc : Pc} {log : List Reply} (hi : Inv mode listenfd s)
    (hgoes : ¬ s.pc.Ended) (hpend : s.pc.pending = fd :: todo)
    (hread : s.net.Read fd r net) (hholds : pc.Holds mode listenfd net)
    (hafter : pc.Ended ∧ pc.pending = [] ∨ pc.pending = fd :: todo)
    (hlog : ∀ e ∈ log, e.Right mode) :
    Inv mode listenfd { s with net := net, pc := pc, log := log } := by
  refine hi.move hgoes (fun n h => hread.isSome n ▸ h) (fun n hn => ?_) hholds (fun n hn => ?_)
    (fun _ hpc n hn _ => ?_) hlog
  · rw [hpend] at hn
    exact hread.readyAt_other fun h => hn (h ▸ List.mem_cons_self)
  · rcases hafter with ⟨-, hnil⟩ | hsame
    · rw [hnil] at hn
      cases hn
    · rwa [hpend, ← hsame]
  · rcases hafter with ⟨hended, -⟩ | hsame
    · exact absurd hended hpc
    · rwa [hsame, ← hpend]

theorem write_inv {left : List Byte} {r : Written} (hi : Inv mode listenfd s)
    (hpc : s.pc = .write fd todo left) (hwrite : s.net.Write mode.blocks fd left r net) :
    Inv mode listenfd { s with net := net, pc := .afterWrite mode fd todo r } := by
  have hholds := hi.pc
  rw [hpc] at hholds
  obtain ⟨hfd, hnot, hsome, hbatch⟩ := hholds
  have hsome' : (net.conns fd).isSome := (hwrite.isSome fd).trans hsome
  refine hi.move (by rw [hpc]; exact id) (fun n h => hwrite.isSome n ▸ h)
    (fun n _ => hwrite.readyAt n) ?_ (fun n hn => ?_) (fun hmode hpc' n hn _ => ?_) hi.log
  · cases r with
    | part left => exact ⟨hfd, hnot, hsome', hbatch.write hwrite⟩
    | killed => trivial
    | done =>
        cases mode with
        | level => exact hbatch.write hwrite
        | edge => exact ⟨rfl, hfd, hnot, hsome', hbatch.write hwrite, rfl⟩
  · rw [hpc]
    cases r with
    | part left => exact hn
    | killed => cases hn
    | done =>
        cases mode with
        | level => exact List.mem_cons_of_mem _ hn
        | edge => exact hn
  · rw [hpc] at hn
    subst hmode
    cases r with
    | part left => exact hn
    | killed => exact absurd trivial hpc'
    | done => exact hn

theorem serve_inv (hi : Inv mode listenfd s) (h : Serve mode listenfd s s') :
    Inv mode listenfd s' := by
  have hholds := hi.pc
  cases h with
  | wait hpc events hne hnodup hlen hevents hall => exact wait_inv hi hnodup hpc hevents
  | accept hpc hbacklog fd hfd c hc => exact accept_inv hi hpc hfd c
  | drainClosed hpc net hread => exact drainClosed_inv hi hpc hread
  | write hpc r net hwrite => exact write_inv hi hpc hwrite
  | done hpc =>
      refine hi.move (by rw [hpc]; exact id) (fun _ h => h) (fun _ _ => Iff.rfl) trivial
        (fun n h => ?_) (fun _ _ n h _ => ?_) hi.log
      · cases h
      · rw [hpc] at h
        cases h
  | @data fd todo hmode hpc hfd chunk net hread text htext =>
      subst hmode
      rw [hpc] at hholds
      obtain ⟨hfits, htext⟩ := text_of_some (level_text htext)
      have hnot := (List.nodup_cons.mp hholds.nodup).1
      refine hi.read (by rw [hpc]; exact id) (by rw [hpc]; rfl) hread
        ⟨hfd, hnot, (hread.isSome fd).trans (hholds.head hfd).isSome, hholds.tail.read hnot hread⟩
        (.inr rfl) (hi.log_concat ⟨chunk.le, hfits, htext, rfl⟩)
  | @dataOverrun fd todo hmode hpc hfd chunk net hread htext =>
      subst hmode
      exact hi.read (by rw [hpc]; exact id) (by rw [hpc]; rfl) hread
        (fills_of_none (level_text htext)) (.inl ⟨trivial, rfl⟩) hi.log
  | @closed fd todo hmode hpc hfd net hread =>
      have hnotEdge : mode ≠ .edge := by
        rw [hmode]
        simp
      obtain ⟨hrange, hfinite⟩ := hi.open_congr fun n hn => (close_isSome hread hn).2
      exact ⟨hrange, hfinite, trivial, fun h => absurd h hnotEdge,
        fun n hn => absurd (hi.lost n hn).1 hnotEdge, hi.log⟩
  | @error fd todo hmode hpc hfd net hread =>
      exact hi.read (by rw [hpc]; exact id) (by rw [hpc]; rfl) hread trivial
        (.inl ⟨trivial, rfl⟩) hi.log
  | @drain fd todo hmode hpc hfd =>
      rw [hpc] at hholds
      refine hi.move (by rw [hpc]; exact id) (fun _ h => h) (fun _ _ => Iff.rfl)
        ⟨hmode, hfd, (List.nodup_cons.mp hholds.nodup).1, (hholds.head hfd).isSome,
          hholds.tail, rfl⟩ (fun n h => ?_) (fun _ _ n h _ => ?_) hi.log
      · rwa [hpc]
      · rwa [hpc] at h
  | @drainData fd todo recvBuf hpc chunk hshort net hread text htext =>
      rw [hpc] at hholds
      obtain ⟨hmode, hfd, hnot, hsome, hbatch, hbuf⟩ := hholds
      subst hmode hbuf
      obtain ⟨hfits, htext⟩ := text_of_some (edge_text hshort htext)
      have hsent : (zeroedShort.overwrite chunk.bytes hshort).cells =
          chunk.bytes ++ List.replicate (5 - chunk.bytes.length) NUL := by
        rw [Buf.overwrite_cells, zeroedShort, Buf.fill, List.drop_replicate]
      exact hi.read (by rw [hpc]; exact id) (by rw [hpc]; rfl) hread
        ⟨hfd, hnot, (hread.isSome fd).trans hsome, hbatch.read hnot hread⟩ (.inr rfl)
        (hi.log_concat ⟨hshort, hfits, htext, hsent⟩)
  | @drainOverrun fd todo recvBuf hpc chunk hshort net hread htext =>
      rw [hpc] at hholds
      obtain ⟨hmode, -, -, -, -, hbuf⟩ := hholds
      subst hmode hbuf
      exact hi.read (by rw [hpc]; exact id) (by rw [hpc]; rfl) hread
        (fills_of_none (edge_text hshort htext)) (.inl ⟨trivial, rfl⟩) hi.log
  | @drainOver fd todo recvBuf hpc hagain =>
      rw [hpc] at hholds
      refine hi.move (by rw [hpc]; exact id) (fun _ h => h) (fun _ _ => Iff.rfl)
        hholds.2.2.2.2.1 (fun n h => ?_) (fun _ _ n h hready => ?_) hi.log
      · rw [hpc]
        exact List.mem_cons_of_mem _ h
      · rw [hpc] at h
        rcases List.mem_cons.mp h with rfl | h
        · exact absurd hready hagain.2
        · exact h
  | @drainError fd todo recvBuf hpc net hread =>
      exact hi.read (by rw [hpc]; exact id) (by rw [hpc]; rfl) hread trivial
        (.inl ⟨trivial, rfl⟩) hi.log

/-- Where nothing came in a connection is as ready as it was. -/
theorem readyAt_of_not_changed (h : ¬ Changed net net' fd) (hr : net'.ReadyAt fd) :
    net.ReadyAt fd := by
  obtain ⟨c', hc', hready⟩ := hr
  have hsame := not_not.mp h
  rw [hc', Option.map_some] at hsame
  obtain ⟨c, hc, heq⟩ := Option.map_eq_some_iff.mp hsame.symm
  refine ⟨c, hc, ?_⟩
  obtain ⟨hinbox, heof, hreset⟩ : c.inbox = c'.inbox ∧ c.eof = c'.eof ∧ c.reset = c'.reset := by
    simpa [Socket.readable] using heq
  unfold Socket.Ready at *
  rwa [hinbox, heof, hreset]

theorem client_inv {edges lost : Finset ℕ} (hi : Inv mode listenfd s)
    (h : s.net.Client net) (hedges : ∀ fd, fd ∈ edges ↔ fd ∈ s.edges ∨ Changed s.net net fd)
    (hlost : ∀ fd, fd ∈ lost ↔ fd ∈ s.lost ∧ ¬ Changed s.net net fd) :
    Inv mode listenfd { s with net := net, edges := edges, lost := lost } := by
  obtain ⟨hrange, hfinite⟩ := hi.open_congr fun n hn => h.isSome n ▸ hn
  refine ⟨hrange, hfinite, ?_, fun hmode hgoes n hready => ?_, fun n hn => ?_, hi.log⟩
  · have hholds := hi.pc
    show s.pc.Holds mode listenfd net
    cases hpc : s.pc with
    | batch todo =>
        rw [hpc] at hholds
        exact hholds.client h
    | drain fd todo recvBuf =>
        rw [hpc] at hholds
        obtain ⟨hmode, hfd, hnot, hsome, hbatch, hbuf⟩ := hholds
        exact ⟨hmode, hfd, hnot, (h.isSome fd).trans hsome, hbatch.client h, hbuf⟩
    | write fd todo left =>
        rw [hpc] at hholds
        obtain ⟨hfd, hnot, hsome, hbatch⟩ := hholds
        exact ⟨hfd, hnot, (h.isSome fd).trans hsome, hbatch.client h⟩
    | overran fd chunk =>
        rw [hpc] at hholds
        exact hholds
    | wait | exit | killed => trivial
  · by_cases hch : Changed s.net net n
    · exact .inl ((hedges n).mpr (.inr hch))
    · rcases hi.tracked hmode hgoes n (readyAt_of_not_changed hch hready) with h | h | h
      · exact .inl ((hedges n).mpr (.inl h))
      · exact .inr (.inl h)
      · exact .inr (.inr ((hlost n).mpr ⟨h, hch⟩))
  · obtain ⟨hn, hch⟩ := (hlost n).mp hn
    obtain ⟨hmode, hready, hedge, hpend⟩ := hi.lost n hn
    refine ⟨hmode, h.readyAt hready, fun hmem => ?_, hpend⟩
    rcases (hedges n).mp hmem with h | h
    · exact hedge h
    · exact hch h

theorem reachable_inv (h : (server mode listenfd).Reachable s) : Inv mode listenfd s := by
  refine System.invariant (I := Inv mode listenfd) (fun _ h0 => start_inv h0) ?_ h
  intro s s' _ hi hst
  cases hst with
  | serve h => exact serve_inv hi h
  | fail hpc =>
      refine ⟨hi.range, hi.finite, trivial, fun _ h => absurd trivial h, fun n hn => ?_, hi.log⟩
      obtain ⟨hmode, hready, hedge, -⟩ := hi.lost n hn
      exact ⟨hmode, hready, hedge, List.not_mem_nil⟩
  | client net h edges lost hedges hlost => exact client_inv hi h hedges hlost

end LinuxServer.Epoll
