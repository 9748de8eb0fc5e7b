import LinuxServer.Framework.Reachability
import LinuxServer.Tcp.RecvLoop

/-!
# Sockets for the servers with many clients

The kernel's side of the servers that wait with `select`, `poll` and `epoll` and
of the one with threads: the open connections by descriptor, what the clients do
to them, and the system calls `accept`, `read`, `write` and `close`.

- §1 connections and system calls
- §2 descriptors that are ready, and what keeps them so
- §3 a `write` that blocks
- §4 a round of reads into one buffer
-/

namespace LinuxServer.Tcp

open LinuxServer.Framework

/-! ## §1  Connections and system calls -/

/-- One end of a connection: the bytes that arrived and were not read, whether the
client has closed or reset it, and how many bytes can be written before the client
has to read. All that the client has sent, what was read of it, `read` by `read`,
and what was written are kept beside. -/
structure Socket where
  inbox : List Byte
  eof : Bool
  reset : Bool
  room : ℕ
  sent : List Byte
  reads : List (List Byte)
  outbox : List Byte
deriving DecidableEq

/-- A `read` would return at once. -/
def Socket.Ready (c : Socket) : Prop := c.inbox ≠ [] ∨ c.eof = true ∨ c.reset = true

instance (c : Socket) : Decidable c.Ready :=
  inferInstanceAs (Decidable (c.inbox ≠ [] ∨ c.eof = true ∨ c.reset = true))

/-- Nothing was read from it or written to it. -/
structure Socket.Fresh (c : Socket) : Prop where
  reads : c.reads = []
  outbox : c.outbox = []
  sent : c.sent = c.inbox

/-- `bytes` were taken over for the client. -/
def Socket.put (c : Socket) (bytes : List Byte) : Socket :=
  { c with room := c.room - bytes.length, outbox := c.outbox ++ bytes }

/-- What there is to read from it. -/
def Socket.readable (c : Socket) : List Byte × Bool × Bool := (c.inbox, c.eof, c.reset)

/-- The open connections of the server by descriptor, and the number of
established connections it has not accepted. -/
structure Net where
  conns : ℕ → Option Socket
  backlog : ℕ

def Net.set (net : Net) (fd : ℕ) (c : Option Socket) : Net :=
  { net with conns := Function.update net.conns fd c }

/-- What the clients do. -/
inductive Net.Client : Net → Net → Prop where
  | connect {net : Net} : Client net { net with backlog := net.backlog + 1 }
  | send {net : Net} (fd : ℕ) (c : Socket) (bytes : List Byte)
      (h : net.conns fd = some c) (hopen : c.eof = false) (hreset : c.reset = false) :
      Client net (net.set fd
        (some { c with inbox := c.inbox ++ bytes, sent := c.sent ++ bytes }))
  /-- The client reads, and so makes room. -/
  | read {net : Net} (fd : ℕ) (c : Socket) (k : ℕ) (h : net.conns fd = some c) :
      Client net (net.set fd (some { c with room := c.room + k }))
  | close {net : Net} (fd : ℕ) (c : Socket) (h : net.conns fd = some c) :
      Client net (net.set fd (some { c with eof := true }))
  | reset {net : Net} (fd : ℕ) (c : Socket) (h : net.conns fd = some c) :
      Client net (net.set fd (some { c with reset := true }))

/-- The descriptor `accept` returns: the lowest that is not in use. Those up to
`listenfd` are in use throughout. -/
structure Net.Lowest (net : Net) (listenfd fd : ℕ) : Prop where
  above : listenfd < fd
  unused : net.conns fd = none
  least : ∀ n, listenfd < n → n < fd → net.conns n ≠ none

/-- `accept` returned `fd`. The client may have sent already. -/
def Net.accept (net : Net) (fd : ℕ) (c : Socket) : Net :=
  { net.set fd (some c) with backlog := net.backlog - 1 }

/-- `read(fd, buf, 1024)`. There is no result while the connection has nothing
to tell: the call blocks. -/
inductive Net.Read (net : Net) (fd : ℕ) : ReadResult → Net → Prop where
  | data (c : Socket) (chunk : Chunk) (rest : List Byte) (h : net.conns fd = some c)
      (hinbox : c.inbox = chunk.bytes ++ rest) :
      Read net fd (.data chunk)
        (net.set fd (some { c with inbox := rest, reads := c.reads ++ [chunk.bytes] }))
  | closed (c : Socket) (h : net.conns fd = some c) (hinbox : c.inbox = [])
      (heof : c.eof = true) : Read net fd .closed net
  | reset (c : Socket) (h : net.conns fd = some c) (hreset : c.reset = true) :
      Read net fd .error net
  /-- `EBADF`. -/
  | notOpen (h : net.conns fd = none) : Read net fd .error net

/-- How far a `write` has got: `left` is still to be taken over, or it has
returned, or `SIGPIPE` has ended the process. None of the servers looks at what it
returns. -/
inductive Written where
  | part (left : List Byte)
  | done
  | killed

/-- `write(fd, left, ...)` goes on. There is no result while a call that may block
finds no room. On a connection that was reset it fails, and the connection reads as
closed once that was reported; or it ends the process. -/
inductive Net.Write (block : Bool) (net : Net) (fd : ℕ) (left : List Byte) :
    Written → Net → Prop where
  | part (c : Socket) (k : ℕ) (h : net.conns fd = some c) (hblock : block = true)
      (hreset : c.reset = false) (hpos : 0 < k) (hlt : k < left.length)
      (hroom : k ≤ c.room) :
      Write block net fd left (.part (left.drop k))
        (net.set fd (some (c.put (left.take k))))
  | all (c : Socket) (h : net.conns fd = some c) (hreset : c.reset = false)
      (hroom : left.length ≤ c.room) :
      Write block net fd left .done (net.set fd (some (c.put left)))
  /-- The connection is non-blocking. -/
  | short (c : Socket) (h : net.conns fd = some c) (hblock : block = false)
      (hreset : c.reset = false) (hroom : c.room < left.length) :
      Write block net fd left .done (net.set fd (some (c.put (left.take c.room))))
  | refused (c : Socket) (h : net.conns fd = some c) (hreset : c.reset = true) :
      Write block net fd left .done (net.set fd (some { c with eof := true }))
  | sigpipe (c : Socket) (h : net.conns fd = some c) (hreset : c.reset = true) :
      Write block net fd left .killed net
  /-- `EBADF`. -/
  | notOpen (h : net.conns fd = none) : Write block net fd left .done net

/-! ## §2  Descriptors that are ready -/

/-- `fd` is an open connection and a `read` would return at once. -/
def Net.ReadyAt (net : Net) (fd : ℕ) : Prop := ∃ c, net.conns fd = some c ∧ c.Ready

instance (net : Net) (fd : ℕ) : Decidable (net.ReadyAt fd) :=
  match h : net.conns fd with
  | none => .isFalse (by simp [Net.ReadyAt, h])
  | some c => decidable_of_iff c.Ready (by simp [Net.ReadyAt, h])

/-- All of `todo` are ready. -/
def Serving (net : Net) (todo : Set ℕ) : Prop := ∀ fd ∈ todo, net.ReadyAt fd

variable {net net' : Net} {todo : Set ℕ} {fd : ℕ}

theorem Net.set_same (net : Net) (fd : ℕ) (c : Option Socket) :
    (net.set fd c).conns fd = c := Function.update_self ..

theorem Net.set_other (net : Net) {fd n : ℕ} (c : Option Socket) (h : n ≠ fd) :
    (net.set fd c).conns n = net.conns n := Function.update_of_ne h ..

/-- A change to an open connection opens and closes nothing. -/
theorem Net.set_isSome {c : Socket} (h : net.conns fd = some c) (c' : Socket) (n : ℕ) :
    ((net.set fd (some c')).conns n).isSome = (net.conns n).isSome := by
  by_cases hn : n = fd
  · rw [hn, net.set_same, h]
    rfl
  · rw [net.set_other _ hn]

theorem Net.close_isSome (net : Net) (fd n : ℕ) :
    ((net.set fd none).conns n).isSome ↔ n ≠ fd ∧ (net.conns n).isSome := by
  by_cases hn : n = fd
  · simp [hn, Net.set_same]
  · simp [hn, Net.set_other]

theorem Net.accept_isSome (net : Net) (fd : ℕ) (c : Socket) (n : ℕ) :
    ((net.accept fd c).conns n).isSome ↔ n = fd ∨ (net.conns n).isSome := by
  by_cases hn : n = fd
  · simp [hn, Net.accept, Net.set_same]
  · simp [hn, Net.accept, Net.set_other]

/-- Which connections are ready after one was changed. -/
theorem Net.set_readyAt (net : Net) (c : Option Socket) {n : ℕ} (hn : n ≠ fd) :
    (net.set fd c).ReadyAt n ↔ net.ReadyAt n := by
  unfold Net.ReadyAt
  rw [net.set_other c hn]

/-- A connection that was changed, and not to less, is ready if it was. -/
theorem Net.ReadyAt.set {c c' : Socket} {n : ℕ} (hr : net.ReadyAt n)
    (h : net.conns fd = some c) (hmono : c.Ready → c'.Ready) :
    (net.set fd (some c')).ReadyAt n := by
  by_cases hn : n = fd
  · obtain ⟨c₀, hc₀, hready⟩ := hr
    rw [hn, h] at hc₀
    cases hc₀
    exact ⟨c', hn ▸ net.set_same .., hmono hready⟩
  · exact (net.set_readyAt _ hn).mpr hr

/-- A client changes one connection, and never to less. -/
theorem Net.Client.readyAt (h : net.Client net') {n : ℕ} (hr : net.ReadyAt n) :
    net'.ReadyAt n := by
  cases h with
  | connect => exact hr
  | send fd c bytes h =>
      apply hr.set h
      rintro (h | h | h)
      · exact .inl (by simp [h])
      · exact .inr (.inl h)
      · exact .inr (.inr h)
  | read fd c k h => exact hr.set h fun hready => hready
  | close fd c h => exact hr.set h fun _ => .inr (.inl rfl)
  | reset fd c h => exact hr.set h fun _ => .inr (.inr rfl)

/-- The clients open and close no descriptor of the server. -/
theorem Net.Client.isSome (h : net.Client net') (n : ℕ) :
    (net'.conns n).isSome = (net.conns n).isSome := by
  cases h with
  | connect => rfl
  | send fd c bytes h => exact Net.set_isSome h _ n
  | read fd c k h => exact Net.set_isSome h _ n
  | close fd c h => exact Net.set_isSome h _ n
  | reset fd c h => exact Net.set_isSome h _ n

theorem Net.Client.backlog_le (h : net.Client net') : net.backlog ≤ net'.backlog := by
  cases h with
  | connect => exact Nat.le_succ _
  | send | read | close | reset => exact le_refl _

theorem Serving.client (hs : Serving net todo) (h : net.Client net') :
    Serving net' todo := fun n hn => h.readyAt (hs n hn)

theorem Serving.mono {todo' : Set ℕ} (hs : Serving net todo) (h : todo' ⊆ todo) :
    Serving net todo' := fun n hn => hs n (h hn)

/-- Another connection is not touched. -/
theorem Serving.set (hs : Serving net todo) (c : Option Socket) (hfd : fd ∉ todo) :
    Serving (net.set fd c) todo := by
  intro n hn
  obtain ⟨c', hc', hready⟩ := hs n hn
  have hne : n ≠ fd := fun heq => hfd (heq ▸ hn)
  exact ⟨c', (net.set_other _ hne).trans hc', hready⟩

/-- A new descriptor is none of those to be served. -/
theorem Serving.accept (hs : Serving net todo) (hunused : net.conns fd = none)
    (c : Socket) : Serving (net.accept fd c) todo := by
  refine Serving.set hs (some c) (fun hmem => ?_)
  obtain ⟨c', hc', -⟩ := hs fd hmem
  rw [hunused] at hc'
  cases hc'

/-- A `read` is over with its own descriptor and leaves the others. -/
theorem Serving.read {r : ReadResult} (hs : Serving net todo) (h : net.Read fd r net')
    (hfd : fd ∉ todo) : Serving net' todo := by
  cases h with
  | data c chunk rest h hinbox => exact hs.set _ hfd
  | closed => exact hs
  | reset => exact hs
  | notOpen => exact hs

theorem Net.ReadyAt.isSome (h : net.ReadyAt fd) : (net.conns fd).isSome := by
  obtain ⟨c, hc, -⟩ := h
  rw [hc]
  rfl

/-- A `read` of a descriptor that is ready returns, however short its buffer. -/
theorem Net.ReadyAt.read_short (h : net.ReadyAt fd) {k : ℕ} (hk : 0 < k) :
    ∃ r net', net.Read fd r net' ∧ ∀ chunk, r = .data chunk → chunk.bytes.length ≤ k := by
  obtain ⟨c, hc, hready⟩ := h
  by_cases hreset : c.reset = true
  · exact ⟨_, _, .reset c hc hreset, fun _ h => by cases h⟩
  by_cases hinbox : c.inbox = []
  · rcases hready with h | h | h
    · exact absurd hinbox h
    · exact ⟨_, _, .closed c hc hinbox h, fun _ h => by cases h⟩
    · exact absurd h hreset
  · obtain ⟨b, rest, hb⟩ := List.exists_cons_of_ne_nil hinbox
    refine ⟨_, _, .data c ⟨[b], by simp, by simp⟩ rest hc (by rw [hb]; rfl), fun _ h => ?_⟩
    cases h
    exact hk

theorem Net.ReadyAt.read (h : net.ReadyAt fd) : ∃ r net', net.Read fd r net' := by
  obtain ⟨r, net', hread, -⟩ := h.read_short one_pos
  exact ⟨r, net', hread⟩

/-- It fails only if the client has reset the connection. -/
theorem Net.ReadyAt.error (h : net.ReadyAt fd) (hr : net.Read fd .error net') :
    ∃ c, net.conns fd = some c ∧ c.reset = true := by
  obtain ⟨c, hc, -⟩ := h
  cases hr with
  | reset c' hc' hreset => exact ⟨c', hc', hreset⟩
  | notOpen hnone =>
      rw [hc] at hnone
      cases hnone

/-- A `read` opens and closes no descriptor. -/
theorem Net.Read.isSome {r : ReadResult} (h : net.Read fd r net') (n : ℕ) :
    (net'.conns n).isSome = (net.conns n).isSome := by
  cases h with
  | data c chunk rest h hinbox => exact Net.set_isSome h _ n
  | closed | reset | notOpen => rfl

theorem Net.Read.backlog {r : ReadResult} (h : net.Read fd r net') :
    net'.backlog = net.backlog := by
  cases h <;> rfl

/-- Another connection stays as ready as it is. -/
theorem Net.Read.readyAt_other {r : ReadResult} (h : net.Read fd r net') {n : ℕ}
    (hn : n ≠ fd) : net'.ReadyAt n ↔ net.ReadyAt n := by
  cases h with
  | data c chunk rest h hinbox => exact net.set_readyAt _ hn
  | closed | reset | notOpen => exact Iff.rfl

/-- A client that has sent nothing. -/
def silent (room : ℕ) : Socket := ⟨[], false, false, room, [], [], []⟩

theorem silent_fresh (room : ℕ) : (silent room).Fresh := ⟨rfl, rfl, rfl⟩

theorem silent_not_ready (room : ℕ) : ¬ (silent room).Ready := by
  rintro (h | h | h)
  · exact h rfl
  · cases h
  · cases h

theorem silent_not_readyAt (room : ℕ) (hfd : net.conns fd = some (silent room)) :
    ¬ net.ReadyAt fd := by
  rintro ⟨c, hc, hready⟩
  rw [hfd] at hc
  cases hc
  exact silent_not_ready room hready

/-- A client that has sent `hello`. -/
def greeting (room : ℕ) : Socket :=
  ⟨literal "hello", false, false, room, literal "hello", [], []⟩

theorem greeting_ready (room : ℕ) : (greeting room).Ready :=
  .inl (show literal "hello" ≠ [] by decide)

/-- A `read` returns only if the descriptor is ready or is not open. -/
theorem Net.Read.readyAt {r : ReadResult} (h : net.Read fd r net')
    (hopen : (net.conns fd).isSome) : net.ReadyAt fd := by
  cases h with
  | data c chunk rest hc hinbox =>
      refine ⟨c, hc, .inl fun hnil => ?_⟩
      rw [hinbox] at hnil
      have := chunk.pos
      rw [(List.append_eq_nil_iff.mp hnil).1] at this
      cases this
  | closed c hc hinbox heof => exact ⟨c, hc, .inr (.inl heof)⟩
  | reset c hc hreset => exact ⟨c, hc, .inr (.inr hreset)⟩
  | notOpen hnone =>
      rw [hnone] at hopen
      cases hopen

/-- With finitely many descriptors in use there is a lowest unused one. -/
theorem Net.exists_lowest (net : Net) (listenfd : ℕ) {bound : ℕ}
    (h : ∀ n, (net.conns n).isSome → n ≤ bound) : ∃ fd, net.Lowest listenfd fd := by
  have hex : ∃ n, listenfd < n ∧ net.conns n = none := by
    refine ⟨listenfd + bound + 1, by omega, ?_⟩
    by_contra hne
    have := h _ (Option.isSome_iff_ne_none.mpr hne)
    omega
  refine ⟨Nat.find hex, (Nat.find_spec hex).1, (Nat.find_spec hex).2, ?_⟩
  intro n hn hlt hnone
  exact Nat.find_min hex hlt ⟨hn, hnone⟩

/-! Small nets, with two connections at most. -/

def pair (m n : ℕ) (a b : Option Socket) (fd : ℕ) : Option Socket :=
  if fd = m then a else if fd = n then b else none

theorem pair_set_fst (m n k : ℕ) (a b c : Option Socket) :
    Net.set ⟨pair m n a b, k⟩ m c = ⟨pair m n c b, k⟩ := by
  refine congrArg (Net.mk · k) (funext fun fd => ?_)
  unfold pair
  by_cases hfd : fd = m
  · simp [hfd]
  · simp [hfd]

theorem pair_set_snd {m n : ℕ} (hne : n ≠ m) (k : ℕ) (a b c : Option Socket) :
    Net.set ⟨pair m n a b, k⟩ n c = ⟨pair m n a c, k⟩ := by
  refine congrArg (Net.mk · k) (funext fun fd => ?_)
  unfold pair
  by_cases hfd : fd = n
  · simp [hfd, hne]
  · simp [hfd]

theorem pair_none (m n fd : ℕ) : pair m n none none fd = none := by
  unfold pair
  split
  · rfl
  · split <;> rfl

theorem pair_readyAt {m n k fd : ℕ} {a b : Option Socket}
    (h : Net.ReadyAt ⟨pair m n a b, k⟩ fd) :
    (fd = m ∧ ∃ c, a = some c ∧ c.Ready) ∨ (fd = n ∧ ∃ c, b = some c ∧ c.Ready) := by
  obtain ⟨c, hc, hready⟩ := h
  have hc : pair m n a b fd = some c := hc
  unfold pair at hc
  split at hc
  · exact .inl ⟨‹_›, c, hc, hready⟩
  · split at hc
    · exact .inr ⟨‹_›, c, hc, hready⟩
    · cases hc

/-! ## §3  A `write` that blocks -/

theorem Net.Write.isSome {block : Bool} {left : List Byte} {r : Written}
    (h : net.Write block fd left r net') (n : ℕ) :
    (net'.conns n).isSome = (net.conns n).isSome := by
  cases h with
  | part c k h => exact Net.set_isSome h _ n
  | all c h => exact Net.set_isSome h _ n
  | short c h => exact Net.set_isSome h _ n
  | refused c h => exact Net.set_isSome h _ n
  | sigpipe | notOpen => rfl

theorem Net.Write.backlog {block : Bool} {left : List Byte} {r : Written}
    (h : net.Write block fd left r net') : net'.backlog = net.backlog := by
  cases h <;> rfl

/-- A `write` makes no connection ready, and none less so. -/
theorem Net.Write.readyAt {block : Bool} {left : List Byte} {r : Written}
    (h : net.Write block fd left r net') (n : ℕ) : net'.ReadyAt n ↔ net.ReadyAt n := by
  by_cases hn : n = fd
  · subst hn
    have hset : ∀ {c c' : Socket}, net.conns n = some c → (c'.Ready ↔ c.Ready) →
        ((net.set n (some c')).ReadyAt n ↔ net.ReadyAt n) := by
      intro c c' hc hiff
      unfold Net.ReadyAt
      rw [net.set_same, hc]
      simpa using hiff
    cases h with
    | part c k h => exact hset h Iff.rfl
    | all c h => exact hset h Iff.rfl
    | short c h => exact hset h Iff.rfl
    | refused c h hreset => exact hset h ⟨fun _ => .inr (.inr hreset), fun _ => .inr (.inl rfl)⟩
    | sigpipe | notOpen => exact Iff.rfl
  · cases h with
    | part | all | short | refused => exact net.set_readyAt _ hn
    | sigpipe | notOpen => exact Iff.rfl

theorem Serving.write {block : Bool} {left : List Byte} {r : Written}
    (hs : Serving net todo) (h : net.Write block fd left r net') : Serving net' todo :=
  fun n hn => (h.readyAt n).mpr (hs n hn)

/-- The client takes nothing more, and the `write` waits for it. -/
def Net.BlockedAt (net : Net) (fd : ℕ) (left : List Byte) : Prop :=
  ∃ c, net.conns fd = some c ∧ c.reset = false ∧ c.room = 0 ∧ left ≠ []

/-- **A `write` that may block** goes on unless there is no room at all. -/
theorem Net.blockedAt_iff {left : List Byte} :
    net.BlockedAt fd left ↔ ∀ r net', ¬ net.Write true fd left r net' := by
  constructor
  · rintro ⟨c, hc, hreset, hroom, hleft⟩ r net' h
    have hlen : 0 < left.length := List.length_pos_iff.mpr hleft
    cases h with
    | part c' k h hblock hreset' hpos hlt hroom' =>
        cases hc.symm.trans h
        omega
    | all c' h hreset' hroom' =>
        cases hc.symm.trans h
        omega
    | short c' h hblock => cases hblock
    | refused c' h hreset' =>
        cases hc.symm.trans h
        exact absurd (hreset.symm.trans hreset') (by simp)
    | sigpipe c' h hreset' =>
        cases hc.symm.trans h
        exact absurd (hreset.symm.trans hreset') (by simp)
    | notOpen h =>
        rw [hc] at h
        cases h
  · intro h
    cases hc : net.conns fd with
    | none => exact absurd (.notOpen hc) (h _ _)
    | some c =>
        have hreset : c.reset = false := by
          rw [Bool.eq_false_iff]
          exact fun hreset => h _ _ (.refused c hc hreset)
        have hlt : c.room < left.length :=
          Nat.lt_of_not_le fun hle => h _ _ (.all c hc hreset hle)
        have hroom : c.room = 0 := by
          by_contra hne
          exact h _ _ (.part c c.room hc rfl hreset (Nat.pos_of_ne_zero hne) hlt (le_refl _))
        refine ⟨c, hc, hreset, hroom, fun hnil => ?_⟩
        rw [hnil] at hlt
        cases hlt

/-- One that may not always returns. -/
theorem Net.write_returns (net : Net) (fd : ℕ) (left : List Byte) :
    ∃ r net', net.Write false fd left r net' := by
  cases hc : net.conns fd with
  | none => exact ⟨_, _, .notOpen hc⟩
  | some c =>
      by_cases hreset : c.reset = true
      · exact ⟨_, _, .refused c hc hreset⟩
      · have hreset : c.reset = false := Bool.eq_false_iff.mpr hreset
        by_cases hroom : left.length ≤ c.room
        · exact ⟨_, _, .all c hc hreset hroom⟩
        · exact ⟨_, _, .short c hc rfl hreset (Nat.lt_of_not_le hroom)⟩

/-! ## §4  A round of reads into one buffer -/

/-- A `read` of the current round: from whom, what, and the text that
`printf("%s")` and `strlen` find in `recv_buf`, written back to the client. -/
structure Echo where
  fd : ℕ
  chunk : Chunk
  text : List Byte

/-- The buffer after the chunks of a round. -/
def carried (b : RecvBuf) (cs : List Chunk) : RecvBuf :=
  cs.foldl (fun b c => b.overwrite c.bytes c.le) b

theorem carried_concat (b : RecvBuf) (cs : List Chunk) (c : Chunk) :
    carried b (cs ++ [c]) = (carried b cs).overwrite c.bytes c.le := by
  unfold carried
  rw [List.foldl_append, List.foldl_cons, List.foldl_nil]

theorem carriedTexts_append (ds : List Chunk) : ∀ (cs : List Chunk) (b : RecvBuf),
    carriedTexts b (cs ++ ds) = carriedTexts b cs ++ carriedTexts (carried b cs) ds
  | [], _ => rfl
  | c :: cs, b => by
      have ih := carriedTexts_append ds cs (b.overwrite c.bytes c.le)
      rw [List.cons_append, carriedTexts, carriedTexts, ih]
      rfl

theorem carriedTexts_length : ∀ (cs : List Chunk) (b : RecvBuf),
    (carriedTexts b cs).length = cs.length
  | [], _ => rfl
  | c :: cs, b => congrArg (· + 1) (carriedTexts_length cs (b.overwrite c.bytes c.le))

/-- `recv_buf`, zeroed at the start of the round, and what was read in the round so
far. The buffer and the texts are those of one receive loop over all the clients of
the round. -/
structure Round where
  recvBuf : RecvBuf
  echoes : List Echo
  carries : recvBuf = carried zeroed (echoes.map Echo.chunk)
  texts : echoes.map (fun e => some e.text) = carriedTexts zeroed (echoes.map Echo.chunk)

def Round.start : Round := ⟨zeroed, [], rfl, rfl⟩

/-- What `printf("%s")` and `strlen` find in `recv_buf` when `chunk` was read into
it, if there is a terminator in it. -/
def Round.shows (r : Round) (chunk : Chunk) : Option (List Byte) :=
  upTo NUL (r.recvBuf.overwrite chunk.bytes chunk.le).cells

def Round.add (r : Round) (fd : ℕ) (chunk : Chunk) (text : List Byte)
    (h : r.shows chunk = some text) : Round where
  recvBuf := r.recvBuf.overwrite chunk.bytes chunk.le
  echoes := r.echoes ++ [⟨fd, chunk, text⟩]
  carries := by rw [List.map_append, List.map_singleton, carried_concat, ← r.carries]
  texts := by
    rw [List.map_append, List.map_append, carriedTexts_append, ← r.texts, ← r.carries]
    exact congrArg (_ ++ [·]) h.symm

/-- A cell holds a byte of a chunk that reached it. -/
theorem carried_getElem? {cs : List Chunk} {j : ℕ} {b : Byte} (hb : b ≠ NUL)
    (h : (carried zeroed cs).cells[j]? = some b) : ∃ c ∈ cs, c.bytes[j]? = some b := by
  induction cs using List.reverseRecOn with
  | nil =>
      have hj := (List.getElem?_eq_some_iff.mp h).1
      rw [Buf.size] at hj
      have hnul : (carried zeroed []).cells[j]? = some NUL := Buf.fill_getElem? hj
      rw [hnul] at h
      exact absurd (Option.some.inj h).symm hb
  | append_singleton cs c ih =>
      rw [carried_concat] at h
      by_cases hlt : j < c.bytes.length
      · rw [Buf.overwrite_getElem?_lt hlt] at h
        exact ⟨c, by simp, h⟩
      · rw [Buf.overwrite_getElem?_ge (Nat.le_of_not_lt hlt)] at h
        obtain ⟨d, hd, hd'⟩ := ih h
        exact ⟨d, List.mem_append_left _ hd, hd'⟩

theorem carried_remembers {cs : List Chunk} (hnul : ∀ c ∈ cs, NUL ∉ c.bytes) :
    Remembers cs (carried zeroed cs) := by
  induction cs using List.reverseRecOn with
  | nil => exact zeroed_remembers
  | append_singleton cs c ih =>
      have hcs := ih fun d hd => hnul d (List.mem_append_left _ hd)
      rw [carried_concat]
      intro i hi
      rw [read_remembers hcs (hnul c (by simp)) i hi]
      simp only [List.mem_append, List.mem_cons, List.not_mem_nil, or_false]
      exact forall_congr' fun d => by rw [or_comm]

/-- What a client is written back whose chunk was read after those of `before`: its
own bytes first; exactly these iff no chunk before was longer; and what comes behind
are bytes of the chunks before. -/
structure Echo.After (before : List Echo) (e : Echo) : Prop where
  fits : e.chunk.bytes.length < 1024
  own : e.chunk.bytes <+: e.text
  exact_iff : e.text = e.chunk.bytes ↔
    ∀ d ∈ before, d.chunk.bytes.length ≤ e.chunk.bytes.length
  stale : ∀ j b, e.chunk.bytes.length ≤ j → e.text[j]? = some b →
    ∃ d ∈ before, d.chunk.bytes[j]? = some b

/-- **A round echoes** as `Echo.After` says, as long as nobody sends a NUL. -/
theorem Round.after (r : Round) {before after : List Echo} {e : Echo}
    (hr : r.echoes = before ++ e :: after) (hnul : ∀ d ∈ r.echoes, NUL ∉ d.chunk.bytes) :
    e.After before := by
  rw [hr] at hnul
  have hbefore : ∀ c ∈ before.map Echo.chunk, NUL ∉ c.bytes := by
    intro c hc
    obtain ⟨d, hd, rfl⟩ := List.mem_map.mp hc
    exact hnul d (List.mem_append_left _ hd)
  have he : NUL ∉ e.chunk.bytes := hnul e (by simp)
  have hmem := carried_remembers hbefore
  -- the text is what is found in the buffer that the chunks before have left
  have htext : upTo NUL ((carried zeroed (before.map Echo.chunk)).overwrite e.chunk.bytes
      e.chunk.le).cells = some e.text := by
    have htexts := r.texts
    rw [hr, List.map_append, List.map_append, carriedTexts_append] at htexts
    have htail := List.append_inj_right htexts (by simp [carriedTexts_length])
    exact (List.cons.inj htail).1.symm
  have hfits := length_lt_of_upTo_overwrite he htext
  obtain ⟨rest, hcells⟩ := upTo_eq_some htext
  refine ⟨hfits, ?_, ?_, fun j b hj hb => ?_⟩
  · rw [Buf.overwrite_cells, upTo_append he] at htext
    obtain ⟨behind, -, hbehind⟩ := Option.map_eq_some_iff.mp htext
    exact ⟨behind, hbehind⟩
  · rw [← Option.some_inj, ← htext, text_eq_some_iff hmem he, List.forall_mem_map]
    exact and_iff_right hfits
  · have hlt := (List.getElem?_eq_some_iff.mp hb).1
    have hcell : (carried zeroed (before.map Echo.chunk)).cells[j]? = some b := by
      rw [← Buf.overwrite_getElem?_ge (h := e.chunk.le) hj, hcells,
        List.getElem?_append_left hlt, hb]
    have hne : b ≠ NUL := fun heq =>
      not_mem_of_upTo htext (heq ▸ List.mem_of_getElem? hb)
    obtain ⟨c, hc, hcb⟩ := carried_getElem? hne hcell
    obtain ⟨d, hd, rfl⟩ := List.mem_map.mp hc
    exact ⟨d, hd, hcb⟩

/-- Only a chunk that fills the buffer leaves no terminator in it. -/
theorem Round.shows_none (r : Round) {chunk : Chunk} (h : r.shows chunk = none)
    (hnul : ∀ d ∈ r.echoes, NUL ∉ d.chunk.bytes) : chunk.bytes.length = 1024 := by
  have hchunks : ∀ c ∈ r.echoes.map Echo.chunk, NUL ∉ c.bytes := by
    intro c hc
    obtain ⟨d, hd, rfl⟩ := List.mem_map.mp hc
    exact hnul d hd
  have hmem := carried_remembers hchunks
  rw [← r.carries] at hmem
  refine le_antisymm chunk.le (Nat.le_of_not_lt fun hlt => ?_)
  -- no chunk so far has reached the last cell
  have hlast : r.recvBuf.cells[1023]? = some NUL := by
    refine (hmem 1023 (by decide)).mpr fun c hc => ?_
    obtain ⟨d, hd, rfl⟩ := List.mem_map.mp hc
    obtain ⟨before, after, hr⟩ := List.append_of_mem hd
    exact Nat.le_of_lt_succ (r.after hr hnul).fits
  apply upTo_eq_none_iff.mp h
  apply List.mem_of_getElem? (i := 1023)
  rw [Buf.overwrite_getElem?_ge (Nat.le_of_lt_succ hlt), hlast]

end LinuxServer.Tcp
