import LinuxServer.Tcp.EpollServer

/-!
# The `epoll` servers: where they stop and what they send back

- §1 where they cannot go on
- §2 small runs
- §3 what the level triggered server sends back
- §4 what the edge triggered server makes of a chunk
-/

namespace LinuxServer.Epoll

open LinuxServer.Framework LinuxServer.Tcp

variable {mode : Mode} {listenfd fd : ℕ} {net net' : Net} {todo : List ℕ} {s s' : State}

/-! ## §1  Where they cannot go on -/

theorem Serve.not_ended (h : Serve mode listenfd s s') : ¬ s.pc.Ended := by
  cases h with
  | wait hpc | done hpc | accept hpc | drainData hpc | drainOverrun hpc | drainOver hpc
  | drainClosed hpc | drainError hpc | write hpc =>
      rw [hpc]
      exact id
  | data hmode hpc | dataOverrun hmode hpc | closed hmode hpc | error hmode hpc
  | drain hmode hpc =>
      rw [hpc]
      exact id

/-- `epoll_wait` sleeps with nothing to report. -/
theorem Inv.wait_stuck_iff (hi : Inv mode listenfd s) (hpc : s.pc = .wait) :
    (∀ s', ¬ Serve mode listenfd s s') ↔
      s.net.backlog = 0 ∧ (∀ fd, s.net.ReadyAt fd ↔ fd ∈ s.lost) ∧
        (mode = .level → s.lost = ∅) := by
  obtain ⟨bound, hbound⟩ := hi.finite
  constructor
  · intro hstuck
    have hnone : ∀ fd, ¬ s.Reported mode listenfd fd := by
      intro fd hr
      obtain ⟨events, hne, hnodup, hlen, hevents, hall⟩ := exists_events hbound hr
      exact hstuck _ (.wait hpc events hne hnodup hlen hevents hall)
    refine ⟨?_, fun fd => ⟨fun hready => ?_, fun hfd => (hi.lost fd hfd).2.1⟩, fun hmode => ?_⟩
    · have := hnone listenfd
      rw [State.Reported, if_pos rfl] at this
      omega
    · have hnot := hnone fd
      rw [State.Reported, if_neg (ne_of_gt (hi.range fd hready.isSome))] at hnot
      have hedge : mode = .edge ∧ fd ∉ s.edges := by
        by_contra hcon
        exact hnot ⟨hready, fun hm => not_not.mp fun hn => hcon ⟨hm, hn⟩⟩
      rcases hi.tracked hedge.1 (by rw [hpc]; exact id) fd hready with h | h | h
      · exact absurd h hedge.2
      · rw [hpc] at h
        cases h
      · exact h
    · rw [Finset.eq_empty_iff_forall_notMem]
      intro n hn
      have := (hi.lost n hn).1
      rw [hmode] at this
      cases this
  · rintro ⟨hbacklog, hlost, hlevel⟩ s' h
    cases h with
    | wait hpc' events hne hnodup hlen hevents hall =>
        obtain ⟨n, rest, rfl⟩ := List.exists_cons_of_ne_nil hne
        have hn := hevents n List.mem_cons_self
        unfold State.Reported at hn
        split at hn
        · omega
        · obtain ⟨-, -, hedge, -⟩ := hi.lost n ((hlost n).mp hn.1)
          cases mode with
          | edge => exact hedge (hn.2 rfl)
          | level =>
              have := (hlost n).mp hn.1
              rw [hlevel rfl] at this
              cases this
    | done hpc' | accept hpc' | drainData hpc' | drainOverrun hpc' | drainOver hpc'
    | drainClosed hpc' | drainError hpc' | write hpc' =>
        rw [hpc] at hpc'
        cases hpc'
    | data hmode hpc' | dataOverrun hmode hpc' | closed hmode hpc' | error hmode hpc'
    | drain hmode hpc' =>
        rw [hpc] at hpc'
        cases hpc'

/-- A `write` waits only where the connection is blocking. -/
theorem write_stuck_iff {left : List Byte} (hpc : s.pc = .write fd todo left) :
    (∀ s', ¬ Serve mode listenfd s s') ↔ mode = .level ∧ s.net.BlockedAt fd left := by
  constructor
  · intro hstuck
    have hnone : ∀ r net, ¬ s.net.Write mode.blocks fd left r net :=
      fun r net hwrite => hstuck _ (.write hpc r net hwrite)
    cases mode with
    | level => exact ⟨rfl, Net.blockedAt_iff.mpr hnone⟩
    | edge =>
        obtain ⟨r, net, hwrite⟩ := s.net.write_returns fd left
        exact absurd hwrite (hnone r net)
  · rintro ⟨rfl, hblocked⟩ s' h
    cases h with
    | write hpc' r net hwrite =>
        rw [hpc] at hpc'
        cases hpc'
        exact Net.blockedAt_iff.mp hblocked r net hwrite
    | wait hpc' | done hpc' | accept hpc' | drainData hpc' | drainOverrun hpc' | drainOver hpc'
    | drainClosed hpc' | drainError hpc' =>
        rw [hpc] at hpc'
        cases hpc'
    | data hmode hpc' | dataOverrun hmode hpc' | closed hmode hpc' | error hmode hpc'
    | drain hmode hpc' =>
        rw [hpc] at hpc'
        cases hpc'

theorem Inv.batch_goes_on (hi : Inv mode listenfd s) (hpc : s.pc = .batch todo) :
    ∃ s', Serve mode listenfd s s' := by
  have hholds := hi.pc
  rw [hpc] at hholds
  cases todo with
  | nil => exact ⟨_, .done hpc⟩
  | cons fd todo =>
      by_cases hfd : fd = listenfd
      · subst hfd
        obtain ⟨bound, hbound⟩ := hi.finite
        obtain ⟨n, hn⟩ := s.net.exists_lowest (fd + 1) hbound
        exact ⟨_, .accept hpc (hholds.backlog List.mem_cons_self) n hn (silent 0) (silent_fresh 0)⟩
      cases mode with
      | edge => exact ⟨_, .drain rfl hpc hfd⟩
      | level =>
          obtain ⟨r, net, hread⟩ := (hholds.head hfd).read
          cases r with
          | error => exact ⟨_, .error rfl hpc hfd net hread⟩
          | closed => exact ⟨_, .closed rfl hpc hfd net hread⟩
          | data chunk =>
              cases htext : upTo NUL (zeroed.overwrite chunk.bytes chunk.le).cells with
              | none => exact ⟨_, .dataOverrun rfl hpc hfd chunk net hread htext⟩
              | some text => exact ⟨_, .data rfl hpc hfd chunk net hread text htext⟩

theorem Inv.drain_goes_on (hi : Inv mode listenfd s) {recvBuf : ShortBuf}
    (hpc : s.pc = .drain fd todo recvBuf) : ∃ s', Serve mode listenfd s s' := by
  have hholds := hi.pc
  rw [hpc] at hholds
  by_cases hready : s.net.ReadyAt fd
  · obtain ⟨r, net, hread, hshort⟩ := hready.read_short (show 0 < 5 by decide)
    cases r with
    | error => exact ⟨_, .drainError hpc net hread⟩
    | closed => exact ⟨_, .drainClosed hpc net hread⟩
    | data chunk =>
        have hshort := hshort chunk rfl
        cases htext : upTo NUL (recvBuf.overwrite chunk.bytes hshort).cells with
        | none => exact ⟨_, .drainOverrun hpc chunk hshort net hread htext⟩
        | some text => exact ⟨_, .drainData hpc chunk hshort net hread text htext⟩
  · exact ⟨_, .drainOver hpc ⟨hholds.2.2.2.1, hready⟩⟩

/-- **Where the server cannot go on**: it has ended; or it is in `epoll_wait`, there
is no connection to accept, and the connections that are ready are those whose event
stood behind the one of a client that had closed, with nothing coming in since; or it
is the level triggered one and is in `write` to a client that takes nothing more. The
level triggered server drops no event. -/
theorem epoll_stuck_iff (h : (server mode listenfd).Reachable s) :
    (∀ s', ¬ Serve mode listenfd s s') ↔ s.pc.Ended ∨
      (s.pc = .wait ∧ s.net.backlog = 0 ∧ (∀ fd, s.net.ReadyAt fd ↔ fd ∈ s.lost) ∧
        (mode = .level → s.lost = ∅)) ∨
      mode = .level ∧ ∃ fd todo left, s.pc = .write fd todo left ∧ s.net.BlockedAt fd left := by
  have hi := reachable_inv h
  constructor
  · intro hstuck
    cases hpc : s.pc with
    | exit | killed | overran => exact .inl trivial
    | wait => exact .inr (.inl ⟨rfl, (hi.wait_stuck_iff hpc).mp hstuck⟩)
    | batch todo =>
        obtain ⟨s', h'⟩ := hi.batch_goes_on hpc
        exact absurd h' (hstuck s')
    | drain fd todo recvBuf =>
        obtain ⟨s', h'⟩ := hi.drain_goes_on hpc
        exact absurd h' (hstuck s')
    | write fd todo left =>
        obtain ⟨hmode, hblocked⟩ := (write_stuck_iff hpc).mp hstuck
        exact .inr (.inr ⟨hmode, fd, todo, left, rfl, hblocked⟩)
  · rintro (hended | ⟨hpc, hidle⟩ | ⟨hmode, fd, todo, left, hpc, hblocked⟩)
    · exact fun s' h' => h'.not_ended hended
    · exact (hi.wait_stuck_iff hpc).mpr hidle
    · exact (write_stuck_iff hpc).mpr ⟨hmode, hblocked⟩

/-! ## §2  Small runs -/

theorem connect_step (s : State) :
    Step mode listenfd s { s with net := { s.net with backlog := s.net.backlog + 1 } } :=
  .client _ .connect _ _ (fun fd => by simp [Changed]) (fun fd => by simp [Changed])

theorem changed_set {c c' : Socket} (hc : net.conns fd = some c)
    (hne : c'.readable ≠ c.readable) (n : ℕ) :
    Changed net (net.set fd (some c')) n ↔ n = fd := by
  unfold Changed
  by_cases hn : n = fd
  · simp [hn, net.set_same, hc, hne]
  · simp [hn, net.set_other]

theorem set_step {c c' : Socket} (h : s.net.Client (s.net.set fd (some c')))
    (hc : s.net.conns fd = some c) (hne : c'.readable ≠ c.readable) :
    Step mode listenfd s { s with
      net := s.net.set fd (some c'), edges := insert fd s.edges, lost := s.lost.erase fd } :=
  .client _ h _ _ (fun n => by rw [changed_set hc hne, Finset.mem_insert, or_comm])
    (fun n => by rw [changed_set hc hne, Finset.mem_erase, and_comm])

/-- The round in which a silent client is accepted, with nobody else waiting. -/
theorem accept_round {conns : ℕ → Option Socket} {k : ℕ}
    (h : (server mode listenfd).Reachable ⟨⟨conns, 0⟩, ∅, .wait, [], ∅⟩)
    (hidle : ∀ n, ¬ Net.ReadyAt ⟨conns, 0⟩ n) (fd : ℕ)
    (hfd : Net.Lowest ⟨conns, 0⟩ (listenfd + 1) fd) :
    (server mode listenfd).Reachable
      ⟨Net.set ⟨conns, 0⟩ fd (some (silent k)), ∅, .wait, [], ∅⟩ := by
  have h₁ : (server mode listenfd).Reachable ⟨⟨conns, 1⟩, ∅, .wait, [], ∅⟩ :=
    h.step (connect_step _)
  have h₂ : (server mode listenfd).Reachable ⟨⟨conns, 1⟩, ∅, .batch [listenfd], [], ∅⟩ := by
    have hreport : ∀ n, State.Reported mode listenfd ⟨⟨conns, 1⟩, ∅, .wait, [], ∅⟩ n ↔
        n = listenfd := by
      intro n
      unfold State.Reported
      by_cases hn : n = listenfd
      · rw [if_pos hn]
        exact ⟨fun _ => hn, fun _ => one_pos⟩
      · rw [if_neg hn]
        exact ⟨fun h => absurd h.1 (hidle n), fun h => absurd h hn⟩
    simpa using h₁.step (.serve (.wait rfl [listenfd] (by simp) (by simp) (by simp [maxEvents])
      (fun n hn => (hreport n).mpr (List.mem_singleton.mp hn))
      (fun _ n hn => List.mem_singleton.mpr ((hreport n).mp hn))))
  have h₃ : (server mode listenfd).Reachable
      ⟨Net.set ⟨conns, 0⟩ fd (some (silent k)), ∅, .batch [], [], ∅⟩ := by
    have h := h₂.step (.serve (.accept rfl one_pos fd ⟨hfd.above, hfd.unused, hfd.least⟩
      (silent k) (silent_fresh k)))
    rwa [if_neg (silent_not_ready k)] at h
  exact h₃.step (.serve (.done rfl))

/-- The server on descriptor `3`, with silent clients on `5` and `6`. -/
theorem two_clients_reachable (mode : Mode) (k : ℕ) : (server mode 3).Reachable
    ⟨⟨pair 5 6 (some (silent k)) (some (silent k)), 0⟩, ∅, .wait, [], ∅⟩ := by
  have h₀ : (server mode 3).Reachable ⟨⟨pair 5 6 none none, 0⟩, ∅, .wait, [], ∅⟩ :=
    .init ⟨pair_none 5 6, rfl, rfl, rfl, rfl⟩
  have h₁ := accept_round (k := k) h₀ (fun n hn => ?_) 5 ⟨by decide, rfl, fun n h h' => by omega⟩
  · rw [pair_set_fst] at h₁
    have h₂ := accept_round (k := k) h₁ (fun n hn => ?_) 6 ⟨by decide, rfl, fun n h h' => ?_⟩
    · rwa [pair_set_snd (by decide)] at h₂
    · rcases pair_readyAt hn with ⟨-, c, hc, hr⟩ | ⟨-, c, hc, hr⟩
      · cases hc
        exact silent_not_ready k hr
      · cases hc
    · obtain rfl : n = 5 := by omega
      exact Option.some_ne_none _
  · rcases pair_readyAt hn with ⟨-, c, hc, hr⟩ | ⟨-, c, hc, hr⟩ <;> cases hc

/-- A client that has sent `bytes` and nothing else. -/
def sender (k : ℕ) (bytes : List Byte) : Socket :=
  { silent k with inbox := bytes, sent := bytes }

/-- The client on `5` has sent something, and the server was told. -/
theorem sent_reported (mode : Mode) (k : ℕ) {bytes : List Byte} (hne : bytes ≠ []) :
    (server mode 3).Reachable ⟨⟨pair 5 6 (some (sender k bytes)) (some (silent k)), 0⟩, ∅,
      .batch [5], [], ∅⟩ := by
  have h₁ : (server mode 3).Reachable
      ⟨⟨pair 5 6 (some (sender k bytes)) (some (silent k)), 0⟩, {5}, .wait, [], ∅⟩ := by
    have h := (two_clients_reachable mode k).step (set_step
      (.send 5 (silent k) bytes rfl rfl rfl) rfl
      (fun heq => absurd (congrArg Prod.fst heq) hne))
    rw [pair_set_fst] at h
    exact h
  have h := h₁.step (.serve (.wait rfl [5] (by simp) (by simp) (by decide) (fun n hn => ?_)
    (fun _ n hn => ?_)))
  · simpa using h
  · obtain rfl : n = 5 := List.mem_singleton.mp hn
    exact ⟨⟨_, rfl, .inl hne⟩, fun _ => Finset.mem_singleton_self _⟩
  · unfold State.Reported at hn
    split at hn
    · cases hn
    · rcases pair_readyAt hn.1 with ⟨rfl, -⟩ | ⟨-, c, hc, hr⟩
      · exact List.mem_cons_self
      · cases hc
        exact absurd hr (silent_not_ready k)

/-- The level triggered server has read `hello`. -/
theorem level_reads_hello (k : ℕ) : (server .level 3).Reachable
    ⟨⟨pair 5 6 (some { sender k (literal "hello") with
        inbox := [], reads := [literal "hello"] }) (some (silent k)), 0⟩, ∅,
      .write 5 [] (literal "hello"),
      [⟨5, literal "hello", literal "hello", literal "hello"⟩], ∅⟩ := by
  have h := (sent_reported .level k (show literal "hello" ≠ [] by decide)).step
    (.serve (.data rfl rfl (by decide) helloChunk _
      (.data (sender k (literal "hello")) helloChunk [] rfl (by simp [sender, helloChunk]))
      (literal "hello") (by decide +kernel)))
  rw [pair_set_fst] at h
  exact h

/-- A client that has closed. -/
def closing : Socket := { silent 0 with eof := true }

/-- One client closes while another has sent `hello`, and the event of the first
comes first: the edge triggered server goes to sleep with `hello` unread. The level
triggered one waits in `write` for a client that takes nothing back. -/
theorem edge_starves_client :
    (∃ s : State, (server .edge 3).Reachable s ∧ s.net.conns 6 = some (greeting 0) ∧
      s.net.ReadyAt 6 ∧ ∀ s', ¬ Serve .edge 3 s s') ∧
    ∃ s : State, (server .level 3).Reachable s ∧ s.pc = .write 5 [] (literal "hello") ∧
      ∀ s', ¬ Serve .level 3 s s' := by
  constructor
  · have h₁ : (server .edge 3).Reachable
        ⟨⟨pair 5 6 (some closing) (some (silent 0)), 0⟩, {5}, .wait, [], ∅⟩ := by
      have h := (two_clients_reachable .edge 0).step
        (set_step (.close 5 (silent 0) rfl) rfl (by decide))
      rw [pair_set_fst] at h
      exact h
    have h₂ : (server .edge 3).Reachable
        ⟨⟨pair 5 6 (some closing) (some (greeting 0)), 0⟩, {6, 5}, .wait, [], ∅⟩ := by
      have h := h₁.step
        (set_step (.send 6 (silent 0) (literal "hello") rfl rfl rfl) rfl (by decide))
      rw [pair_set_snd (by decide)] at h
      exact h
    have h₃ : (server .edge 3).Reachable
        ⟨⟨pair 5 6 (some closing) (some (greeting 0)), 0⟩, ∅, .batch [5, 6], [], ∅⟩ := by
      have hreport : ∀ n, State.Reported .edge 3 ⟨⟨pair 5 6 (some closing)
          (some (greeting 0)), 0⟩, {6, 5}, .wait, [], ∅⟩ n → n ∈ [5, 6] := by
        intro n hn
        unfold State.Reported at hn
        split at hn
        · cases hn
        · simpa [or_comm] using hn.2 rfl
      have h := h₂.step (.serve (.wait rfl [5, 6] (by simp) (by decide) (by decide)
        (by decide) (fun _ => hreport)))
      have hnone : ({6, 5} : Finset ℕ) \ [5, 6].toFinset = ∅ := by decide
      rwa [hnone] at h
    have h₄ := h₃.step (.serve (.drain rfl rfl (by decide)))
    have h₅ : (server .edge 3).Reachable
        ⟨⟨pair 5 6 none (some (greeting 0)), 0⟩, ∅, .wait, [], {6}⟩ := by
      have h := h₄.step (.serve (.drainClosed rfl _ (.closed closing rfl rfl rfl)))
      rw [pair_set_fst] at h
      exact h
    refine ⟨_, h₅, rfl, ⟨_, rfl, greeting_ready 0⟩, (epoll_stuck_iff h₅).mpr
      (.inr (.inl ⟨rfl, rfl, fun fd => ?_, fun hmode => by cases hmode⟩))⟩
    rw [Finset.mem_singleton]
    constructor
    · intro hready
      rcases pair_readyAt hready with ⟨-, c, hc, -⟩ | ⟨hfd, -⟩
      · cases hc
      · exact hfd
    · rintro rfl
      exact ⟨_, rfl, greeting_ready 0⟩
  · have h := level_reads_hello 0
    exact ⟨_, h, rfl, (epoll_stuck_iff h).mpr
      (.inr (.inr ⟨rfl, _, _, _, rfl, _, rfl, rfl, rfl, by decide⟩))⟩

/-! ## §3  What the level triggered server sends back -/

/-- What C sees of some bytes. -/
def visible (bytes : List Byte) : List Byte := bytes.takeWhile (· ≠ NUL)

/-- What was read from `fd` and is not written back. -/
def Pc.unwritten (fd : ℕ) : Pc → List Byte
  | .write n _ left => if n = fd then left else []
  | .overran n chunk => if n = fd then visible chunk else []
  | _ => []

/-- What a client was written back: its own bytes, `read` by `read` and each up to
its first NUL; all of them but `left`, unless it has reset the connection. -/
structure Echoed (c : Socket) (left : List Byte) : Prop where
  whole : c.sent = c.reads.flatten ++ c.inbox
  own : c.outbox <+: (c.reads.map visible).flatten
  all : c.reset = false → c.outbox ++ left = (c.reads.map visible).flatten

variable {c c' : Socket} {left : List Byte}

theorem Echoed.fresh (hc : c.Fresh) : Echoed c [] := by
  refine ⟨?_, ?_, fun _ => ?_⟩
  · rw [hc.reads, hc.sent]
    rfl
  · rw [hc.outbox]
    exact List.nil_prefix
  · rw [hc.reads, hc.outbox]
    rfl

/-- After a reset nothing more is written. -/
theorem Echoed.of_reset (h : Echoed c left) (hreset : c.reset = true) (left' : List Byte) :
    Echoed c left' := by
  refine ⟨h.whole, h.own, fun hfalse => ?_⟩
  rw [hreset] at hfalse
  cases hfalse

theorem Echoed.read (h : Echoed c []) {chunk rest : List Byte}
    (hinbox : c.inbox = chunk ++ rest) :
    Echoed { c with inbox := rest, reads := c.reads ++ [chunk] } (visible chunk) := by
  have hflat : ((c.reads ++ [chunk]).map visible).flatten =
      (c.reads.map visible).flatten ++ visible chunk := by simp
  refine ⟨?_, ?_, fun hreset => ?_⟩
  · show c.sent = (c.reads ++ [chunk]).flatten ++ rest
    rw [h.whole, hinbox, List.flatten_append, List.flatten_singleton, List.append_assoc]
  · show c.outbox <+: _
    rw [hflat]
    exact h.own.trans (List.prefix_append _ _)
  · show c.outbox ++ _ = _
    rw [hflat, ← h.all hreset, List.append_nil]

theorem Echoed.put (h : Echoed c left) (hreset : c.reset = false) (k : ℕ) :
    Echoed (c.put (left.take k)) (left.drop k) := by
  have hall : c.outbox ++ left.take k ++ left.drop k = (c.reads.map visible).flatten := by
    rw [List.append_assoc, List.take_append_drop]
    exact h.all hreset
  exact ⟨h.whole, hall ▸ List.prefix_append _ _, fun _ => hall⟩

theorem Echoed.write {r : Written} (h : ∀ c, net.conns fd = some c → Echoed c left)
    (hwrite : net.Write true fd left r net') (todo : List ℕ) :
    ∀ c, net'.conns fd = some c →
      Echoed c ((Pc.afterWrite .level fd todo r).unwritten fd) := by
  intro c' hc'
  have hset : ∀ {c₁ : Socket}, (net.set fd (some c₁)).conns fd = some c' → c' = c₁ := by
    intro c₁ h₁
    rw [net.set_same] at h₁
    exact (Option.some.inj h₁).symm
  cases hwrite with
  | part c k hc hblock hreset hpos hlt hroom =>
      rw [hset hc', Pc.afterWrite, Pc.unwritten, if_pos rfl]
      exact (h c hc).put hreset k
  | all c hc hreset hroom =>
      rw [hset hc']
      have := (h c hc).put hreset left.length
      rwa [List.take_length, List.drop_length] at this
  | short c hc hblock => cases hblock
  | refused c hc hreset =>
      rw [hset hc']
      exact ⟨(h c hc).whole, (h c hc).own, ((h c hc).of_reset hreset []).all⟩
  | sigpipe c hc hreset =>
      rw [hc] at hc'
      cases hc'
      exact (h _ hc).of_reset hreset []
  | notOpen hc =>
      rw [hc] at hc'
      cases hc'

/-- A client changes what it has sent, and what can be read of it. -/
theorem Echoed.client (h : ∀ c, net.conns fd = some c → Echoed c left)
    (hclient : net.Client net') : ∀ c, net'.conns fd = some c → Echoed c left := by
  intro c' hc'
  have hset : ∀ {n : ℕ} {c₀ c₁ : Socket}, net.conns n = some c₀ →
      (net.set n (some c₁)).conns fd = some c' → (Echoed c₀ left → Echoed c₁ left) →
      Echoed c' left := by
    intro n c₀ c₁ h₀ h₁ hstep
    by_cases hn : fd = n
    · subst hn
      rw [net.set_same] at h₁
      rw [← Option.some.inj h₁]
      exact hstep (h c₀ h₀)
    · rw [net.set_other _ hn] at h₁
      exact h c' h₁
  cases hclient with
  | connect => exact h c' hc'
  | send n c₀ bytes h₀ hopen hreset =>
      refine hset h₀ hc' fun he => ⟨?_, he.own, he.all⟩
      show c₀.sent ++ bytes = c₀.reads.flatten ++ (c₀.inbox ++ bytes)
      rw [he.whole, List.append_assoc]
  | read n c₀ k h₀ => exact hset h₀ hc' fun he => ⟨he.whole, he.own, he.all⟩
  | close n c₀ h₀ => exact hset h₀ hc' fun he => ⟨he.whole, he.own, he.all⟩
  | reset n c₀ h₀ =>
      exact hset h₀ hc' fun he => ⟨he.whole, he.own, fun hfalse => by cases hfalse⟩

/-- Every client was written back as `Echoed` says. -/
def Echoing (s : State) : Prop :=
  ∀ fd c, s.net.conns fd = some c → Echoed c (s.pc.unwritten fd)

/-- A `read` that returned bytes, with the rest of the clients as they were. -/
theorem Echoing.read {chunk : Chunk} {pc : Pc} (he : Echoing s)
    (hbatch : ∀ n, s.pc.unwritten n = []) (hread : s.net.Read fd (.data chunk) net)
    (hpc : ∀ n, pc.unwritten n = if fd = n then visible chunk.bytes else []) :
    ∀ n c, net.conns n = some c → Echoed c (pc.unwritten n) := by
  intro n c hc
  rw [hpc n]
  cases hread with
  | data c₀ chunk rest h₀ hinbox =>
      have h₀ := he fd c₀ h₀
      rw [hbatch fd] at h₀
      by_cases hn : fd = n
      · subst hn
        rw [Net.set_same] at hc
        cases hc
        rw [if_pos rfl]
        exact h₀.read hinbox
      · rw [Net.set_other _ _ (Ne.symm hn)] at hc
        rw [if_neg hn, ← hbatch n]
        exact he n c hc

theorem serve_echoing (hi : Inv .level listenfd s) (he : Echoing s)
    (h : Serve .level listenfd s s') : Echoing s' := by
  have hholds := hi.pc
  cases h with
  | wait hpc | done hpc =>
      intro n c hc
      have := he n c hc
      rwa [hpc] at this
  | accept hpc hbacklog fd hfd c₀ hc₀ =>
      intro n c hc
      by_cases hn : n = fd
      · subst hn
        rw [show (s.net.accept n c₀).conns n = _ from Net.set_same ..] at hc
        cases hc
        exact .fresh hc₀
      · rw [show (s.net.accept fd c₀).conns n = _ from Net.set_other _ _ hn] at hc
        have := he n c hc
        rwa [hpc] at this
  | data hmode hpc hfd chunk net hread text htext =>
      obtain ⟨-, rfl⟩ := text_of_some (level_text htext)
      exact he.read (fun n => by rw [hpc]; rfl) hread fun n => rfl
  | dataOverrun hmode hpc hfd chunk net hread htext =>
      exact he.read (fun n => by rw [hpc]; rfl) hread fun n => rfl
  | @closed fd todo hmode hpc hfd net hread =>
      intro n c hc
      have hne := (close_isSome hread (by rw [hc]; rfl)).1
      rw [net.set_other _ hne] at hc
      cases hread with
      | closed =>
          have := he n c hc
          rwa [hpc] at this
  | error hmode hpc hfd net hread =>
      intro n c hc
      cases hread with
      | reset | notOpen =>
          have := he n c hc
          rwa [hpc] at this
  | drain hmode => cases hmode
  | drainData hpc | drainOverrun hpc | drainOver hpc | drainClosed hpc | drainError hpc =>
      rw [hpc] at hholds
      cases hholds.1
  | @write fd todo left hpc r net hwrite =>
      intro n c hc
      by_cases hn : n = fd
      · subst hn
        refine Echoed.write (fun c₀ h₀ => ?_) hwrite todo c hc
        have := he n c₀ h₀
        rwa [hpc, Pc.unwritten, if_pos rfl] at this
      · have hunwritten : (Pc.afterWrite .level fd todo r).unwritten n = [] := by
          cases r with
          | part left => exact if_neg (Ne.symm hn)
          | done | killed => rfl
        have hc₀ : s.net.conns n = some c := by
          cases hwrite with
          | part | all | short | refused => rwa [s.net.set_other _ hn] at hc
          | sigpipe | notOpen => exact hc
        have := he n c hc₀
        rw [hpc, Pc.unwritten, if_neg (Ne.symm hn)] at this
        show Echoed c ((Pc.afterWrite .level fd todo r).unwritten n)
        rwa [hunwritten]

theorem reachable_echoing (h : (server .level listenfd).Reachable s) : Echoing s := by
  refine System.invariant (I := Echoing) (fun s₀ h0 n c hc => ?_) ?_ h
  · rw [h0.1 n] at hc
    cases hc
  · intro s₁ s₂ hr he hst
    cases hst with
    | serve h => exact serve_echoing (reachable_inv hr) he h
    | fail hpc =>
        intro n c hc
        have := he n c hc
        rcases hpc with hpc | ⟨todo, hpc⟩ <;> rwa [hpc] at this
    | client net h => exact fun n => Echoed.client (he n) h

/-- **The level triggered server** zeroes its buffer for every event. What it reads
is printed and written back as it is, unless there is a NUL in it; it runs past the
buffer only where a chunk fills it. So each client is written back its own bytes, in
order, and nothing else: all that was read, unless it has reset the connection. -/
theorem level_echoes_own (h : (server .level listenfd).Reachable s) :
    (∀ e ∈ s.log, NUL ∉ e.chunk →
      e.chunk.length < 1024 ∧ e.text = e.chunk ∧ e.sent = e.chunk) ∧
    (∀ fd chunk, s.pc = .overran fd chunk → NUL ∉ chunk ∧ chunk.length = 1024) ∧
    ∀ fd c, s.net.conns fd = some c → Echoed c (s.pc.unwritten fd) ∧
      (NUL ∉ c.sent → c.outbox <+: c.sent) := by
  have hi := reachable_inv h
  refine ⟨fun e he hnul => ?_, fun fd chunk hpc => ?_, fun fd c hc => ?_⟩
  · have hright := hi.log e he
    have htext : e.text = e.chunk := hright.text.trans (takeWhile_ne_self hnul)
    refine ⟨lt_of_le_of_ne hright.short fun heq => hright.fits ⟨hnul, heq⟩, htext, ?_⟩
    rw [hright.sent, htext]
  · have hholds := hi.pc
    rw [hpc] at hholds
    exact hholds
  · have hechoed := reachable_echoing h fd c hc
    refine ⟨hechoed, fun hnul => ?_⟩
    have hreads : c.reads.map visible = c.reads := by
      refine (List.map_congr_left fun bytes hbytes => ?_).trans (List.map_id _)
      apply takeWhile_ne_self
      intro hmem
      apply hnul
      rw [hechoed.whole]
      exact List.mem_append_left _ (List.mem_flatten.mpr ⟨bytes, hbytes, hmem⟩)
    have hown := hechoed.own
    rw [hreads] at hown
    rw [hechoed.whole]
    exact hown.trans (List.prefix_append _ _)

/-- One client sends `hello` and then another one `hi`, and each gets its own
back. -/
theorem level_echoes_hello_hi : ∃ (s : State) (c d : Socket),
    (server .level 3).Reachable s ∧ s.net.conns 5 = some c ∧ s.net.conns 6 = some d ∧
      c.outbox = literal "hello" ∧ c.outbox <+: c.sent ∧
      d.outbox = literal "hi" ∧ d.outbox <+: d.sent ∧
      ∀ e ∈ s.log, e.text = e.chunk ∧ e.sent = e.chunk := by
  have h₁ := (level_reads_hello 9).step (.serve (.write rfl .done _
    (.all _ rfl rfl (show (literal "hello").length ≤ 9 by decide))))
  rw [pair_set_fst] at h₁
  have h₂ := h₁.step (.serve (.done rfl))
  have h₃ := h₂.step (set_step (.send 6 (silent 9) (literal "hi") rfl rfl rfl) rfl (by decide))
  rw [pair_set_snd (by decide)] at h₃
  have h₄ := h₃.step (.serve (.wait rfl [6] (by simp) (by simp) (by decide) (fun n hn => ?_)
    (fun _ n hn => ?_)))
  · have h₅ := h₄.step (.serve (.data rfl rfl (by decide) hiChunk _
      (.data (sender 9 (literal "hi")) hiChunk [] rfl (by simp [sender, hiChunk]))
      (literal "hi") (by decide +kernel)))
    have h₆ := h₅.step (.serve (.write rfl .done _
      (.all _ rfl rfl (show (literal "hi").length ≤ 9 by decide))))
    obtain ⟨hlog, -, hclients⟩ := level_echoes_own h₆
    have h5 := (hclients 5 _ rfl).2 (show NUL ∉ literal "hello" by decide)
    have h6 := (hclients 6 _ rfl).2 (show NUL ∉ literal "hi" by decide)
    have hnul : ∀ e ∈ [Reply.mk 5 (literal "hello") (literal "hello") (literal "hello"),
        ⟨6, literal "hi", literal "hi", literal "hi"⟩], NUL ∉ e.chunk := by decide
    exact ⟨_, _, _, h₆, rfl, rfl, rfl, h5, rfl, h6,
      fun e he => (hlog e he (hnul e he)).2⟩
  · obtain rfl : n = 6 := List.mem_singleton.mp hn
    exact ⟨⟨_, rfl, .inl (show literal "hi" ≠ [] by decide)⟩, fun h => by cases h⟩
  · unfold State.Reported at hn
    split at hn
    · cases hn
    · rcases pair_readyAt hn.1 with ⟨-, c, hc, hr⟩ | ⟨rfl, -⟩
      · cases hc
        exact absurd hr (by decide)
      · exact List.mem_cons_self

/-! ## §4  What the edge triggered server makes of a chunk -/

end LinuxServer.Epoll
