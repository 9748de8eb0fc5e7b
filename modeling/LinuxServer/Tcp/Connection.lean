import LinuxServer.Framework.Reachability
import LinuxServer.Tcp.RecvLoop

/-!
# One connection: `client.c` talking to `server.c`

The two programs after `connect` and `accept`, joined by two byte streams
that neither lose nor reorder anything but keep no message boundaries: a
write may arrive late and in pieces, and one `read` may return a piece of a
write or several writes at once.

- §1 the processes, the streams and the steps.
- §2 no deadlock. Requests and replies cannot be counted against each other,
  so the invariant (`Pending`) only says that somebody still has something to
  do.
- §3 the streams: what was read, followed by what is unread, is what was
  written (`Conserved`).
- §4 each process on its own is the receive loop of `RecvLoop`, run on the
  chunks it happened to get.
- §5 so what it prints is what it was sent only as long as the network does
  not cut a message into shrinking pieces.
-/

namespace LinuxServer.Tcp

open LinuxServer.Framework

/-! ## §1  The system -/

/-- One direction of the connection: the bytes a `read` can return now, and
those written but still under way. -/
structure Stream where
  delivered : List Byte
  transit : List Byte

def Stream.unread (s : Stream) : List Byte := s.delivered ++ s.transit

def Stream.push (s : Stream) (data : List Byte) : Stream :=
  { s with transit := s.transit ++ data }

/-- The call a process is about to make. Only the client sleeps. -/
inductive Pc where
  | write
  | sleep
  | read
deriving DecidableEq

/-- A process: its next call, its buffer, and the history of what it read and
did. -/
structure Peer where
  pc : Pc
  recvBuf : RecvBuf
  got : List Chunk
  out : List Event

def Peer.start (pc : Pc) : Peer := ⟨pc, zeroed, [], []⟩

/-- `write(fd, data, strlen(data));`. -/
def Peer.wrote (p : Peer) (data : List Byte) (next : Pc) : Peer :=
  { p with pc := next, out := p.out ++ [.write data] }

/-- `read` returning `c`, with the `if` chain after it. -/
def Peer.received (p : Peer) (label message : String) (c : Chunk) (next : Pc) :
    Peer :=
  let (recvBuf, events, _) := receive label message p.recvBuf (.data c)
  ⟨next, recvBuf, p.got ++ [c], p.out ++ events⟩

structure Conn where
  client : Peer
  server : Peer
  toServer : Stream
  toClient : Stream

def Conn.start : Conn where
  client := Peer.start .write
  server := Peer.start .read
  toServer := ⟨[], []⟩
  toClient := ⟨[], []⟩

/-- One step of either process or of the network. A `read` returns any
non-empty piece of at most 1024 bytes (a `Chunk`) off the front of what has
been delivered; with nothing delivered it blocks, so there is no step. -/
inductive Conn.Step : Conn → Conn → Prop where
  | clientWrite {s : Conn} (hpc : s.client.pc = .write) :
      Step s { s with
        client := s.client.wrote clientData .sleep
        toServer := s.toServer.push clientData }
  | clientSleep {s : Conn} (hpc : s.client.pc = .sleep) :
      Step s { s with
        client := { s.client with pc := .read, out := s.client.out ++ [.sleep 1] } }
  | clientRead {s : Conn} (hpc : s.client.pc = .read) (c : Chunk)
      (rest : List Byte) (hd : s.toClient.delivered = c.bytes ++ rest) :
      Step s { s with
        client := s.client.received "recv server data : " "server closed..." c .write
        toClient := { s.toClient with delivered := rest } }
  | serverRead {s : Conn} (hpc : s.server.pc = .read) (c : Chunk)
      (rest : List Byte) (hd : s.toServer.delivered = c.bytes ++ rest) :
      Step s { s with
        server := s.server.received "recv client data : " "clinet closed..." c .write
        toServer := { s.toServer with delivered := rest } }
  | serverWrite {s : Conn} (hpc : s.server.pc = .write) :
      Step s { s with
        server := s.server.wrote serverData .read
        toClient := s.toClient.push serverData }
  | deliverToServer {s : Conn} (bytes rest : List Byte) (hne : bytes ≠ [])
      (ht : s.toServer.transit = bytes ++ rest) :
      Step s { s with toServer := ⟨s.toServer.delivered ++ bytes, rest⟩ }
  | deliverToClient {s : Conn} (bytes rest : List Byte) (hne : bytes ≠ [])
      (ht : s.toClient.transit = bytes ++ rest) :
      Step s { s with toClient := ⟨s.toClient.delivered ++ bytes, rest⟩ }

def connection : System Conn where
  init s := s = Conn.start
  step := Conn.Step

/-- A process waits in `read` for bytes that have not been delivered. -/
def Conn.clientBlocked (s : Conn) : Prop :=
  s.client.pc = .read ∧ s.toClient.delivered = []

def Conn.serverBlocked (s : Conn) : Prop :=
  s.server.pc = .read ∧ s.toServer.delivered = []

/-- Both processes wait and no byte is left that could wake either. -/
def Conn.Deadlocked (s : Conn) : Prop :=
  s.clientBlocked ∧ s.serverBlocked ∧
    s.toServer.unread = [] ∧ s.toClient.unread = []

theorem clientData_ne_nil : clientData ≠ [] := by decide

theorem serverData_ne_nil : serverData ≠ [] := by decide

/-! ## §2  No deadlock -/

/-- Somebody still has something to do: a process is about to write, or a byte
is unread. -/
def Conn.Pending (s : Conn) : Prop :=
  s.client.pc = .write ∨ s.server.pc = .write ∨
    s.toServer.unread ≠ [] ∨ s.toClient.unread ≠ []

theorem Stream.push_unread (s : Stream) (data : List Byte) :
    (s.push data).unread = s.unread ++ data := by
  simp [Stream.push, Stream.unread]

/-- Delivery moves bytes from one part of the stream to the other. -/
theorem Stream.deliver_unread {s : Stream} {bytes rest : List Byte}
    (ht : s.transit = bytes ++ rest) :
    Stream.unread ⟨s.delivered ++ bytes, rest⟩ = s.unread := by
  simp [Stream.unread, ht]

/-- A write leaves something to read. -/
theorem Stream.push_unread_ne_nil (s : Stream) {data : List Byte}
    (h : data ≠ []) : (s.push data).unread ≠ [] := by
  rw [s.push_unread]
  exact fun hnil => h (List.append_eq_nil_iff.mp hnil).2

/-- One step keeps `Pending`. Whoever uses up the reason gives a new one: a
writer leaves unread bytes, a reader is about to write. -/
theorem pending_step {s t : Conn} (h : s.Pending) (hst : Conn.Step s t) :
    t.Pending := by
  cases hst with
  | clientWrite hpc =>
      exact Or.inr (Or.inr (Or.inl
        (s.toServer.push_unread_ne_nil clientData_ne_nil)))
  | clientSleep hpc =>
      rcases h with h | h
      · rw [hpc] at h
        exact absurd h (by decide)
      · exact Or.inr h
  | clientRead hpc c rest hd => exact Or.inl rfl
  | serverRead hpc c rest hd => exact Or.inr (Or.inl rfl)
  | serverWrite hpc =>
      exact Or.inr (Or.inr (Or.inr
        (s.toClient.push_unread_ne_nil serverData_ne_nil)))
  | deliverToServer bytes rest hne ht =>
      rcases h with h | h | h | h
      · exact Or.inl h
      · exact Or.inr (Or.inl h)
      · refine Or.inr (Or.inr (Or.inl ?_))
        rw [Stream.deliver_unread ht]
        exact h
      · exact Or.inr (Or.inr (Or.inr h))
  | deliverToClient bytes rest hne ht =>
      rcases h with h | h | h | h
      · exact Or.inl h
      · exact Or.inr (Or.inl h)
      · exact Or.inr (Or.inr (Or.inl h))
      · refine Or.inr (Or.inr (Or.inr ?_))
        rw [Stream.deliver_unread ht]
        exact h

theorem reachable_pending {s : Conn} (h : connection.Reachable s) : s.Pending := by
  refine System.invariant (I := Conn.Pending) ?_ ?_ h
  · intro s hs
    rw [show s = Conn.start from hs]
    exact Or.inl rfl
  · intro s t _ hs hst
    exact pending_step hs hst

/-- **No deadlock.** However the streams cut up and delay what is written, the
two processes never wait for each other with nothing unread. -/
theorem connection_never_deadlocks (s : Conn) (h : connection.Reachable s) :
    ¬ s.Deadlocked := by
  rintro ⟨⟨hc, -⟩, ⟨hs, -⟩, hts, htc⟩
  rcases reachable_pending h with hp | hp | hp | hp
  · rw [hc] at hp
    exact absurd hp (by decide)
  · rw [hs] at hp
    exact absurd hp (by decide)
  · exact hp hts
  · exact hp htc

/-- Both processes blocked with the request still under way. -/
def waitingOnNetwork : Conn where
  client := ⟨.read, zeroed, [], [.write clientData, .sleep 1]⟩
  server := Peer.start .read
  toServer := ⟨[], clientData⟩
  toClient := ⟨[], []⟩

theorem waitingOnNetwork_reachable : connection.Reachable waitingOnNetwork := by
  have h0 : connection.Reachable Conn.start := .init rfl
  have h1 := h0.step (Conn.Step.clientWrite rfl)
  exact h1.step (Conn.Step.clientSleep rfl)

theorem waitingOnNetwork_not_deadlocked :
    waitingOnNetwork.clientBlocked ∧ waitingOnNetwork.serverBlocked ∧
      ¬ waitingOnNetwork.Deadlocked :=
  ⟨⟨rfl, rfl⟩, ⟨rfl, rfl⟩,
    connection_never_deadlocks waitingOnNetwork waitingOnNetwork_reachable⟩

/-! ## §3  The streams lose nothing and repeat nothing -/

/-- All bytes a process has written, in order. -/
def written (out : List Event) : List Byte :=
  out.flatMap fun
    | .write data => data
    | _ => []

theorem written_append (xs ys : List Event) :
    written (xs ++ ys) = written xs ++ written ys := by
  simp [written]

def gotBytes (p : Peer) : List Byte := p.got.flatMap Chunk.bytes

@[simp] theorem written_wrote (p : Peer) (data : List Byte) (next : Pc) :
    written (p.wrote data next).out = written p.out ++ data := by
  rw [Peer.wrote, written_append]
  simp [written]

@[simp] theorem written_received (p : Peer) (label message : String) (c : Chunk)
    (next : Pc) :
    written (p.received label message c next).out = written p.out := by
  rw [Peer.received, receive, written_append]
  simp [written]

@[simp] theorem gotBytes_received (p : Peer) (label message : String) (c : Chunk)
    (next : Pc) :
    gotBytes (p.received label message c next) = gotBytes p ++ c.bytes := by
  simp [gotBytes, Peer.received, receive]

/-- In each direction: what was read, then what is unread, is what was
written. -/
structure Conn.Conserved (s : Conn) : Prop where
  toServer : gotBytes s.server ++ s.toServer.unread = written s.client.out
  toClient : gotBytes s.client ++ s.toClient.unread = written s.server.out

/-- Reading takes its chunk off the front of the stream. -/
theorem Stream.read_unread {s : Stream} {c : Chunk} {rest : List Byte}
    (hd : s.delivered = c.bytes ++ rest) :
    c.bytes ++ Stream.unread { s with delivered := rest } = s.unread := by
  simp [Stream.unread, hd]

theorem conserved_step {s t : Conn} (h : s.Conserved) (hst : Conn.Step s t) :
    t.Conserved := by
  obtain ⟨hs, hc⟩ := h
  cases hst with
  | clientWrite hpc =>
      refine ⟨?_, hc⟩
      rw [written_wrote, Stream.push_unread, ← List.append_assoc, hs]
  | clientSleep hpc =>
      refine ⟨?_, hc⟩
      rw [written_append, hs]
      simp [written]
  | clientRead hpc c rest hd =>
      refine ⟨?_, ?_⟩
      · rw [written_received, hs]
      · rw [gotBytes_received, List.append_assoc, Stream.read_unread hd, hc]
  | serverRead hpc c rest hd =>
      refine ⟨?_, ?_⟩
      · rw [gotBytes_received, List.append_assoc, Stream.read_unread hd, hs]
      · rw [written_received, hc]
  | serverWrite hpc =>
      refine ⟨hs, ?_⟩
      rw [written_wrote, Stream.push_unread, ← List.append_assoc, hc]
  | deliverToServer bytes rest hne ht =>
      refine ⟨?_, hc⟩
      rw [Stream.deliver_unread ht, hs]
  | deliverToClient bytes rest hne ht =>
      refine ⟨hs, ?_⟩
      rw [Stream.deliver_unread ht, hc]

/-- **Reliable delivery, end to end**, in every reachable state. -/
theorem reachable_conserved {s : Conn} (h : connection.Reachable s) :
    s.Conserved := by
  refine System.invariant (I := Conn.Conserved) ?_ ?_ h
  · intro s hs
    rw [show s = Conn.start from hs]
    exact ⟨rfl, rfl⟩
  · intro s t _ hs hst
    exact conserved_step hs hst

/-! ## §4  Each process is its receive loop -/

/-- The buffer after a loop that keeps it has read `cs`. -/
def carriedBuf (cs : List Chunk) : RecvBuf :=
  cs.foldl (fun b c => b.overwrite c.bytes c.le) zeroed

/-- The events of `serverBody` or `clientBody` on a chunk. -/
theorem loop_snoc (body : RecvBuf → ReadResult → RecvBuf × List Event × Flow)
    {events : RecvBuf → Chunk → List Event}
    (hbody : ∀ b c, body b (.data c) =
      (b.overwrite c.bytes c.le, events b c, .next)) :
    ∀ (cs : List Chunk) (b : RecvBuf) (c : Chunk),
      (loop body b ((cs ++ [c]).map .data)).1 =
        (loop body b (cs.map .data)).1 ++
          events (cs.foldl (fun b c => b.overwrite c.bytes c.le) b) c
  | [], b, c => by simp [loop, hbody]
  | d :: cs, b, c => by
      have ih := loop_snoc body hbody cs (b.overwrite d.bytes d.le) c
      simp only [List.cons_append, List.map_cons, loop, hbody, List.foldl_cons,
        List.append_assoc, ih]

/-- All events of the server's loop on the chunks it has read. -/
def serverEvents (cs : List Chunk) : List Event :=
  (loop serverBody zeroed (cs.map .data)).1

def clientEvents (cs : List Chunk) : List Event :=
  (loop clientBody zeroed (cs.map .data)).1

theorem serverEvents_snoc (cs : List Chunk) (c : Chunk) :
    serverEvents (cs ++ [c]) = serverEvents cs ++
      [.recv "recv client data : "
        (upTo NUL ((carriedBuf cs).overwrite c.bytes c.le).cells),
        .write serverData] :=
  loop_snoc serverBody (fun _ _ => rfl) cs zeroed c

theorem clientEvents_snoc (cs : List Chunk) (c : Chunk) :
    clientEvents (cs ++ [c]) = clientEvents cs ++
      [.write clientData, .sleep 1, .recv "recv server data : "
        (upTo NUL ((carriedBuf cs).overwrite c.bytes c.le).cells)] :=
  loop_snoc clientBody (fun _ _ => rfl) cs zeroed c

theorem carriedBuf_snoc (cs : List Chunk) (c : Chunk) :
    carriedBuf (cs ++ [c]) = (carriedBuf cs).overwrite c.bytes c.le := by
  simp [carriedBuf]

/-- The server is inside its loop on the chunks in `got`: between iterations
at `read`, and one reply short of the iteration's end at `write`. -/
structure ServerAt (p : Peer) : Prop where
  buf : p.recvBuf = carriedBuf p.got
  awake : p.pc ≠ .sleep
  idle : p.pc = .read → p.out = serverEvents p.got
  replying : p.pc = .write → p.out ++ [.write serverData] = serverEvents p.got

/-- The client is between iterations at `write` and further on otherwise. -/
structure ClientAt (p : Peer) : Prop where
  buf : p.recvBuf = carriedBuf p.got
  idle : p.pc = .write → p.out = clientEvents p.got
  asleep : p.pc = .sleep → p.out = clientEvents p.got ++ [.write clientData]
  waiting : p.pc = .read →
    p.out = clientEvents p.got ++ [.write clientData, .sleep 1]

theorem ServerAt.read {p : Peer} (h : ServerAt p) (hpc : p.pc = .read)
    (c : Chunk) :
    ServerAt (p.received "recv client data : " "clinet closed..." c .write) := by
  refine ⟨?_, by simp [Peer.received], fun hr => absurd hr (by
    simp [Peer.received]), fun _ => ?_⟩
  · show p.recvBuf.overwrite c.bytes c.le = carriedBuf (p.got ++ [c])
    rw [carriedBuf_snoc, h.buf]
  · show (p.out ++ [.recv "recv client data : "
        (upTo NUL (p.recvBuf.overwrite c.bytes c.le).cells)]) ++ _ =
      serverEvents (p.got ++ [c])
    rw [serverEvents_snoc, h.idle hpc, h.buf, List.append_assoc]
    rfl

theorem ServerAt.write {p : Peer} (h : ServerAt p) (hpc : p.pc = .write) :
    ServerAt (p.wrote serverData .read) where
  buf := h.buf
  awake := by simp [Peer.wrote]
  idle := fun _ => h.replying hpc
  replying := fun hw => absurd hw (by simp [Peer.wrote])

theorem ClientAt.write {p : Peer} (h : ClientAt p) (hpc : p.pc = .write) :
    ClientAt (p.wrote clientData .sleep) where
  buf := h.buf
  idle := fun hw => absurd hw (by simp [Peer.wrote])
  asleep := fun _ => by
    show p.out ++ [.write clientData] = _
    rw [h.idle hpc]
    rfl
  waiting := fun hr => absurd hr (by simp [Peer.wrote])

theorem ClientAt.sleep {p : Peer} (h : ClientAt p) (hpc : p.pc = .sleep) :
    ClientAt { p with pc := .read, out := p.out ++ [.sleep 1] } where
  buf := h.buf
  idle := fun hw => absurd hw (by simp)
  asleep := fun hs => absurd hs (by simp)
  waiting := fun _ => by
    show p.out ++ [.sleep 1] = _
    rw [h.asleep hpc, List.append_assoc]
    rfl

theorem ClientAt.read {p : Peer} (h : ClientAt p) (hpc : p.pc = .read)
    (c : Chunk) :
    ClientAt (p.received "recv server data : " "server closed..." c .write) := by
  refine ⟨?_, fun _ => ?_, fun hs => absurd hs (by simp [Peer.received]),
    fun hr => absurd hr (by simp [Peer.received])⟩
  · show p.recvBuf.overwrite c.bytes c.le = carriedBuf (p.got ++ [c])
    rw [carriedBuf_snoc, h.buf]
  · show p.out ++ [.recv "recv server data : "
        (upTo NUL (p.recvBuf.overwrite c.bytes c.le).cells)] =
      clientEvents (p.got ++ [c])
    rw [clientEvents_snoc, h.waiting hpc, h.buf, List.append_assoc]
    rfl

theorem at_step {s t : Conn} (h : ClientAt s.client ∧ ServerAt s.server)
    (hst : Conn.Step s t) : ClientAt t.client ∧ ServerAt t.server := by
  obtain ⟨hc, hs⟩ := h
  cases hst with
  | clientWrite hpc => exact ⟨hc.write hpc, hs⟩
  | clientSleep hpc => exact ⟨hc.sleep hpc, hs⟩
  | clientRead hpc c rest hd => exact ⟨hc.read hpc c, hs⟩
  | serverRead hpc c rest hd => exact ⟨hc, hs.read hpc c⟩
  | serverWrite hpc => exact ⟨hc, hs.write hpc⟩
  | deliverToServer bytes rest hne ht => exact ⟨hc, hs⟩
  | deliverToClient bytes rest hne ht => exact ⟨hc, hs⟩

theorem reachable_at {s : Conn} (h : connection.Reachable s) :
    ClientAt s.client ∧ ServerAt s.server := by
  refine System.invariant (I := fun s => ClientAt s.client ∧ ServerAt s.server)
    ?_ ?_ h
  · intro s hs
    rw [show s = Conn.start from hs]
    exact ⟨⟨rfl, fun _ => rfl, fun hs => absurd hs (by decide),
      fun hr => absurd hr (by decide)⟩,
      ⟨rfl, by decide, fun _ => rfl, fun hw => absurd hw (by decide)⟩⟩
  · intro s t _ hs hst
    exact at_step hs hst

/-- Unread bytes can be delivered, or they have been. -/
theorem Stream.transit_or_delivered {s : Stream} (h : s.unread ≠ []) :
    s.transit ≠ [] ∨ ∃ b bs, s.delivered = b :: bs := by
  by_cases ht : s.transit = []
  · rw [Stream.unread, ht, List.append_nil] at h
    exact Or.inr (List.exists_cons_of_ne_nil h)
  · exact Or.inl ht

/-- **Progress.** Some step is possible in every reachable state. -/
theorem connection_progress {s : Conn} (h : connection.Reachable s) :
    ∃ t, Conn.Step s t := by
  cases hc : s.client.pc with
  | write => exact ⟨_, .clientWrite hc⟩
  | sleep => exact ⟨_, .clientSleep hc⟩
  | read =>
      cases hs : s.server.pc with
      | write => exact ⟨_, .serverWrite hs⟩
      | sleep => exact absurd hs (reachable_at h).2.awake
      | read =>
          -- both are in `read`, so there is something unread
          rcases reachable_pending h with hp | hp | hp | hp
          · exact absurd (hc.symm.trans hp) (by decide)
          · exact absurd (hs.symm.trans hp) (by decide)
          · rcases Stream.transit_or_delivered hp with ht | ⟨b, bs, hd⟩
            · exact ⟨_, .deliverToServer s.toServer.transit [] ht (by simp)⟩
            · exact ⟨_, .serverRead hs ⟨[b], by simp, by simp⟩ bs hd⟩
          · rcases Stream.transit_or_delivered hp with ht | ⟨b, bs, hd⟩
            · exact ⟨_, .deliverToClient s.toClient.transit [] ht (by simp)⟩
            · exact ⟨_, .clientRead hc ⟨[b], by simp, by simp⟩ bs hd⟩

/-- **Refinement.** In every run of the connection each program prints the
texts its receive loop prints on the chunks the network handed it. -/
theorem connection_texts {s : Conn} (h : connection.Reachable s) :
    texts s.server.out = printed serverBody s.server.got ∧
      texts s.client.out = printed clientBody s.client.got := by
  obtain ⟨hc, hs⟩ := reachable_at h
  constructor
  · show _ = texts (serverEvents s.server.got)
    cases hpc : s.server.pc with
    | read => rw [hs.idle hpc]
    | write =>
        rw [← hs.replying hpc, texts_append]
        simp [texts]
    | sleep => exact absurd hpc hs.awake
  · show _ = texts (clientEvents s.client.got)
    cases hpc : s.client.pc with
    | write => rw [hc.idle hpc]
    | sleep =>
        rw [hc.asleep hpc, texts_append]
        simp [texts]
    | read =>
        rw [hc.waiting hpc, texts_append]
        simp [texts]

/-! ## §5  What the two programs print of each other -/

/-- Neither program ever writes a NUL. -/
theorem written_nul_free {s : Conn} (h : connection.Reachable s) :
    NUL ∉ written s.client.out ∧ NUL ∉ written s.server.out := by
  refine System.invariant
    (I := fun s => NUL ∉ written s.client.out ∧ NUL ∉ written s.server.out) ?_ ?_ h
  · intro s hs
    rw [show s = Conn.start from hs]
    exact ⟨List.not_mem_nil, List.not_mem_nil⟩
  · rintro s t - ⟨hc, hs⟩ hst
    cases hst with
    | clientWrite hpc =>
        refine ⟨?_, hs⟩
        rw [written_wrote, List.mem_append]
        exact fun hmem => hmem.elim hc (by decide)
    | clientSleep hpc =>
        refine ⟨?_, hs⟩
        rw [written_append, List.mem_append]
        exact fun hmem => hmem.elim hc List.not_mem_nil
    | clientRead hpc c rest hd => exact ⟨by rwa [written_received], hs⟩
    | serverRead hpc c rest hd => exact ⟨hc, by rwa [written_received]⟩
    | serverWrite hpc =>
        refine ⟨hc, ?_⟩
        rw [written_wrote, List.mem_append]
        exact fun hmem => hmem.elim hs (by decide)
    | deliverToServer bytes rest hne ht => exact ⟨hc, hs⟩
    | deliverToClient bytes rest hne ht => exact ⟨hc, hs⟩

theorem got_nul_free {p : Peer} {unread sent : List Byte}
    (h : gotBytes p ++ unread = sent) (hsent : NUL ∉ sent) :
    ∀ c ∈ p.got, NUL ∉ c.bytes := by
  intro c hc hnul
  refine hsent ?_
  rw [← h, List.mem_append]
  exact Or.inl (List.mem_flatMap.mpr ⟨c, hc, hnul⟩)

/-- **In every run** each program prints exactly what it received iff the
chunks it received never shrank and never filled the buffer. -/
theorem connection_prints_exactly_iff {s : Conn} (h : connection.Reachable s) :
    (texts s.server.out = (s.server.got.map fun c => some c.bytes) ↔
      LeavesRoom s.server.got ∧ NeverShrinks s.server.got) ∧
    (texts s.client.out = (s.client.got.map fun c => some c.bytes) ↔
      LeavesRoom s.client.got ∧ NeverShrinks s.client.got) := by
  obtain ⟨htoServer, htoClient⟩ := reachable_conserved h
  obtain ⟨hclient, hserver⟩ := written_nul_free h
  obtain ⟨hs, hc⟩ := connection_texts h
  constructor
  · rw [hs, printed, server_texts]
    exact carriedTexts_zeroed_exact_iff (got_nul_free htoServer hclient)
  · rw [hc, printed, client_texts]
    exact carriedTexts_zeroed_exact_iff (got_nul_free htoClient hserver)

/-- One request that arrives in two pieces is enough: the server prints the
second, `lient`, with the tail of the first behind it. -/
theorem split_request_is_misprinted :
    ∃ s, connection.Reachable s ∧ texts s.server.out =
      [some (literal "hello,i am c"), some (literal "lient,i am c")] := by
  have h0 : connection.Reachable Conn.start := .init rfl
  have h1 := h0.step (Conn.Step.clientWrite rfl)
  have h2 := h1.step (Conn.Step.deliverToServer clientData [] (by decide) rfl)
  have h3 := h2.step (Conn.Step.serverRead rfl
    ⟨literal "hello,i am c", by decide, by decide⟩ (literal "lient") rfl)
  have h4 := h3.step (Conn.Step.serverWrite rfl)
  have h5 := h4.step (Conn.Step.serverRead rfl
    ⟨literal "lient", by decide, by decide⟩ [] rfl)
  exact ⟨_, h5, by decide +kernel⟩

end LinuxServer.Tcp
