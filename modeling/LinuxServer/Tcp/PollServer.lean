import LinuxServer.Tcp.Sockets

/-!
# The `poll` server

An echo server that waits with `poll` on an array of 1024 slots. A new
connection goes to the first free slot, but the bound `nfds` of the slots in use
is kept as the highest descriptor, not as the highest index; and the `revents`
of the slots are not initialised.

- §1 the server
- §2 slots and descriptors
- §3 the invariant
- §4 where it cannot go on
- §5 when it leaves its array, and what it echoes
-/

namespace LinuxServer.Poll

open LinuxServer.Framework LinuxServer.Tcp

/-! ## §1  The server -/

/-- The length of `fds`. -/
def slots : ℕ := 1024

/-- Where `main` is. `polled` is the value `nfds` had at the `poll` of this
round. -/
inductive Pc where
  | poll
  | accept (polled : ℕ)
  /-- The loop over the slots, at `i`; `recv_buf` is zeroed before it. -/
  | scan (polled i : ℕ) (round : Round)
  /-- In `write` to the connection `fd` of slot `i`, with the bytes that are still to
  be taken over. -/
  | write (polled i fd : ℕ) (round : Round) (left : List Byte)
  | exit
  /-- Ended by `SIGPIPE`. -/
  | killed
  /-- An element behind the end of `fds` was used. -/
  | fault
  /-- `printf` and `strlen` ran past `recv_buf` when `chunk` was read from `fd`. -/
  | overran (fd : ℕ) (round : Round) (chunk : Chunk)

/-- `fds i` is `fds[i].fd` for the connections, with `none` for `-1`, and
`revents i` is `fds[i].revents & POLLIN`. The connections open now and the most
that were open at once are counted beside. -/
structure State where
  net : Net
  fds : ℕ → Option ℕ
  revents : ℕ → Bool
  nfds : ℕ
  pc : Pc
  live : ℕ
  peak : ℕ

/-- What `poll` finds in slot `i`. A negative descriptor is skipped. -/
def State.slotReady (s : State) (i : ℕ) : Bool :=
  if i = 0 then decide (0 < s.net.backlog)
  else
    match s.fds i with
    | none => false
    | some fd => decide (s.net.ReadyAt fd)

/-- The first free slot, of `1` to `1023`. -/
def freeSlot (fds : ℕ → Option ℕ) : Option ℕ :=
  (List.range' 1 (slots - 1)).find? fun i => (fds i).isNone

/-- The connection `fd` is put in the first free slot; it is forgotten if there
is none. -/
def record (fds : ℕ → Option ℕ) (fd : ℕ) : ℕ → Option ℕ :=
  match freeSlot fds with
  | some i => Function.update fds i (some fd)
  | none => fds

/-- `main` after `poll`. -/
def Pc.afterPoll (s : State) : Pc :=
  if s.slotReady 0 then .accept s.nfds else .scan s.nfds 1 .start

/-- What `write` returns is not looked at. -/
def Pc.afterWrite (polled i fd : ℕ) (round : Round) : Written → Pc
  | .part left => .write polled i fd round left
  | .done => .scan polled (i + 1) round
  | .killed => .killed

/-- The server's own steps, as long as no system call fails but `read` and
`write`. -/
inductive Serve (listenfd : ℕ) : State → State → Prop where
  | poll {s : State} (hpc : s.pc = .poll) (hin : s.nfds < slots)
      (hready : ∃ i ≤ s.nfds, s.slotReady i = true) :
      Serve listenfd s { s with
        revents := fun i => if i ≤ s.nfds then s.slotReady i else s.revents i
        pc := .afterPoll s }
  | pollOverrun {s : State} (hpc : s.pc = .poll) (hout : slots ≤ s.nfds) :
      Serve listenfd s { s with pc := .fault }
  | accept {s : State} {polled : ℕ} (hpc : s.pc = .accept polled)
      (hbacklog : 0 < s.net.backlog) (fd : ℕ) (hfd : s.net.Lowest listenfd fd)
      (c : Socket) (hc : c.Fresh) :
      Serve listenfd s { s with
        net := s.net.accept fd c
        fds := record s.fds fd
        nfds := max s.nfds fd
        pc := .scan polled 1 .start
        live := s.live + 1
        peak := max s.peak (s.live + 1) }
  | scanOverrun {s : State} {polled i : ℕ} {round : Round}
      (hpc : s.pc = .scan polled i round) (hle : i ≤ s.nfds) (hout : slots ≤ i) :
      Serve listenfd s { s with pc := .fault }
  | skip {s : State} {polled i : ℕ} {round : Round}
      (hpc : s.pc = .scan polled i round) (hle : i ≤ s.nfds) (hin : i < slots)
      (hi : s.fds i = none ∨ s.revents i = false) :
      Serve listenfd s { s with pc := .scan polled (i + 1) round }
  | data {s : State} {polled i : ℕ} {round : Round}
      (hpc : s.pc = .scan polled i round) (hle : i ≤ s.nfds) (hin : i < slots)
      (fd : ℕ) (hfd : s.fds i = some fd) (hi : s.revents i = true) (chunk : Chunk)
      (net : Net) (hread : s.net.Read fd (.data chunk) net) (text : List Byte)
      (htext : round.shows chunk = some text) :
      Serve listenfd s { s with
        net := net, pc := .write polled i fd (round.add fd chunk text htext) text }
  | dataOverrun {s : State} {polled i : ℕ} {round : Round}
      (hpc : s.pc = .scan polled i round) (hle : i ≤ s.nfds) (hin : i < slots)
      (fd : ℕ) (hfd : s.fds i = some fd) (hi : s.revents i = true) (chunk : Chunk)
      (net : Net) (hread : s.net.Read fd (.data chunk) net)
      (htext : round.shows chunk = none) :
      Serve listenfd s { s with net := net, pc := .overran fd round chunk }
  | write {s : State} {polled i fd : ℕ} {round : Round} {left : List Byte}
      (hpc : s.pc = .write polled i fd round left) (r : Written) (net : Net)
      (hwrite : s.net.Write true fd left r net) :
      Serve listenfd s { s with net := net, pc := .afterWrite polled i fd round r }
  | closed {s : State} {polled i : ℕ} {round : Round}
      (hpc : s.pc = .scan polled i round) (hle : i ≤ s.nfds) (hin : i < slots)
      (fd : ℕ) (hfd : s.fds i = some fd) (hi : s.revents i = true)
      (net : Net) (hread : s.net.Read fd .closed net) :
      -- `close(fds[i].fd); fds[i].fd = -1; break;`
      Serve listenfd s { s with
        net := net.set fd none
        fds := Function.update s.fds i none
        live := s.live - 1
        pc := .poll }
  | error {s : State} {polled i : ℕ} {round : Round}
      (hpc : s.pc = .scan polled i round) (hle : i ≤ s.nfds) (hin : i < slots)
      (fd : ℕ) (hfd : s.fds i = some fd) (hi : s.revents i = true)
      (net : Net) (hread : s.net.Read fd .error net) :
      Serve listenfd s { s with net := net, pc := .exit }
  | done {s : State} {polled i : ℕ} {round : Round}
      (hpc : s.pc = .scan polled i round) (hlt : s.nfds < i) :
      Serve listenfd s { s with pc := .poll }

/-- A step of the server or of a client. `poll` and `accept` may fail, and then
the server exits. -/
inductive Step (listenfd : ℕ) : State → State → Prop where
  | serve {s s' : State} (h : Serve listenfd s s') : Step listenfd s s'
  | fail {s : State} (hpc : s.pc = .poll ∨ ∃ polled, s.pc = .accept polled) :
      Step listenfd s { s with pc := .exit }
  | client {s : State} (net : Net) (h : s.net.Client net) :
      Step listenfd s { s with net := net }

/-- After `listen` and the initialisation of `fds`, which leaves `revents` as
it is. -/
def Start (s : State) : Prop :=
  (∀ fd, s.net.conns fd = none) ∧ (∀ i, s.fds i = none) ∧ s.nfds = 0 ∧
    s.pc = .poll ∧ s.live = 0 ∧ s.peak = 0

def server (listenfd : ℕ) : System State where
  init := Start
  step := Step listenfd

/-! ## §2  Slots and descriptors -/

theorem freeSlot_eq_some {fds : ℕ → Option ℕ} {k : ℕ} (h : freeSlot fds = some k) :
    1 ≤ k ∧ k < slots ∧ fds k = none ∧ ∀ j, 1 ≤ j → j < k → fds j ≠ none := by
  unfold freeSlot at h
  have hmem := List.mem_range'_1.mp (List.mem_of_find?_eq_some h)
  have hfree := List.find?_some h
  refine ⟨hmem.1, by unfold slots at *; omega, by simpa using hfree, fun j hj hlt => ?_⟩
  have := (List.find?_range'_eq_some.mp h).2.2 j hj hlt
  exact Option.isSome_iff_ne_none.mp (by simpa using this)

theorem freeSlot_eq_none {fds : ℕ → Option ℕ} (h : freeSlot fds = none) (j : ℕ)
    (hj : 1 ≤ j) (hlt : j < slots) : fds j ≠ none := by
  have := List.find?_eq_none.mp h j (List.mem_range'_1.mpr ⟨hj, by unfold slots at *; omega⟩)
  simpa using this

/-- The open connections. -/
def opened (listenfd : ℕ) (net : Net) (nfds : ℕ) : Finset ℕ :=
  (Finset.Ioc listenfd nfds).filter fun fd => (net.conns fd).isSome

/-- The table of slots: each open connection is in one slot. `nfds` is the
highest descriptor there was, which is `listenfd` plus the most connections there
were, and no slot beyond that number was ever needed. -/
structure Table (listenfd : ℕ) (net : Net) (fds : ℕ → Option ℕ) (nfds live peak : ℕ) :
    Prop where
  range : ∀ fd, (net.conns fd).isSome → listenfd < fd ∧ fd ≤ nfds
  count : live = (opened listenfd net nfds).card
  highest : peak = 0 ∧ nfds = 0 ∨ 0 < peak ∧ nfds = listenfd + peak
  slot : ∀ i fd, fds i = some fd → (net.conns fd).isSome ∧ 1 ≤ i ∧ i ≤ peak
  inj : ∀ i j fd, fds i = some fd → fds j = some fd → i = j
  recorded : ∀ fd, (net.conns fd).isSome → ∃ i, fds i = some fd

variable {listenfd nfds live peak fd : ℕ} {net net' : Net} {fds : ℕ → Option ℕ}

theorem mem_opened (ht : Table listenfd net fds nfds live peak) {n : ℕ} :
    n ∈ opened listenfd net nfds ↔ (net.conns n).isSome := by
  unfold opened
  rw [Finset.mem_filter, Finset.mem_Ioc]
  exact ⟨fun h => h.2, fun h => ⟨ht.range n h, h⟩⟩

theorem Table.live_le_peak (ht : Table listenfd net fds nfds live peak) : live ≤ peak := by
  have hcard : live ≤ nfds - listenfd := by
    rw [ht.count, ← Nat.card_Ioc]
    exact Finset.card_filter_le _ _
  have := ht.highest
  omega

/-- Slots in use hold different connections. -/
theorem Table.slots_le_live (ht : Table listenfd net fds nfds live peak) {m : ℕ}
    (h : ∀ j, 1 ≤ j → j ≤ m → fds j ≠ none) : m ≤ live := by
  have hsome : ∀ j ∈ Finset.Icc 1 m, fds j = some ((fds j).getD 0) := by
    intro j hj
    obtain ⟨h₁, h₂⟩ := Finset.mem_Icc.mp hj
    obtain ⟨fd, hfd⟩ := Option.ne_none_iff_exists'.mp (h j h₁ h₂)
    rw [hfd]
    rfl
  calc m = (Finset.Icc 1 m).card := by rw [Nat.card_Icc, Nat.add_sub_cancel]
    _ ≤ (opened listenfd net nfds).card := by
        apply Finset.card_le_card_of_injOn fun j => (fds j).getD 0
        · intro j hj
          exact (mem_opened ht).mpr (ht.slot j _ (hsome j hj)).1
        · intro j hj k hk heq
          exact ht.inj j k _ (hsome j hj) ((hsome k hk).trans (congrArg some heq.symm))
    _ = live := ht.count.symm

/-- There is a free slot as long as `nfds` is within the array. -/
theorem Table.exists_free (ht : Table listenfd net fds nfds live peak)
    (hl : 0 < listenfd) (hin : nfds < slots) :
    ∃ k, freeSlot fds = some k ∧ k ≤ live + 1 := by
  cases hfree : freeSlot fds with
  | none =>
      have hall : slots - 1 ≤ live := ht.slots_le_live fun j h₁ h₂ =>
        freeSlot_eq_none hfree j h₁ (by unfold slots at *; omega)
      have := ht.live_le_peak
      have := ht.highest
      unfold slots at *
      omega
  | some k =>
      obtain ⟨hk, -, -, hbelow⟩ := freeSlot_eq_some hfree
      have : k - 1 ≤ live := ht.slots_le_live fun j h₁ h₂ => hbelow j h₁ (by omega)
      exact ⟨k, rfl, by omega⟩

/-- Only which descriptors are open matters. -/
theorem Table.congr (ht : Table listenfd net fds nfds live peak)
    (h : ∀ n, (net'.conns n).isSome = (net.conns n).isSome) :
    Table listenfd net' fds nfds live peak where
  range n hn := ht.range n (h n ▸ hn)
  count := by
    rw [ht.count]
    unfold opened
    simp only [h]
  highest := ht.highest
  slot i n hn := by
    rw [h n]
    exact ht.slot i n hn
  inj := ht.inj
  recorded n hn := ht.recorded n (h n ▸ hn)

theorem opened_accept (ht : Table listenfd net fds nfds live peak)
    (hfd : net.Lowest listenfd fd) (c : Socket) :
    opened listenfd (net.accept fd c) (max nfds fd) =
      insert fd (opened listenfd net nfds) := by
  ext n
  rw [Finset.mem_insert, mem_opened ht]
  unfold opened
  rw [Finset.mem_filter, net.accept_isSome, Finset.mem_Ioc]
  constructor
  · exact fun h => h.2
  · intro h
    refine ⟨?_, h⟩
    rcases h with rfl | h
    · exact ⟨hfd.above, le_max_right _ _⟩
    · exact ⟨(ht.range n h).1, le_trans (ht.range n h).2 (le_max_left _ _)⟩

/-- `accept` returns the lowest descriptor, so a new highest one means that all
below it are in use. -/
theorem Table.accept_peak (ht : Table listenfd net fds nfds live peak)
    (hfd : net.Lowest listenfd fd) (c : Socket) :
    live + 1 = (opened listenfd (net.accept fd c) (max nfds fd)).card ∧
      max nfds fd = listenfd + max peak (live + 1) := by
  have hcard : live + 1 = (opened listenfd (net.accept fd c) (max nfds fd)).card := by
    rw [opened_accept ht hfd c, Finset.card_insert_of_notMem, ht.count]
    rw [mem_opened ht, hfd.unused]
    simp
  have habove : live + 1 ≤ max nfds fd - listenfd := by
    rw [hcard, ← Nat.card_Ioc]
    exact Finset.card_filter_le _ _
  have hbelow : fd - listenfd - 1 ≤ live := by
    rw [ht.count, ← Nat.card_Ioo]
    apply Finset.card_le_card
    intro n hn
    obtain ⟨h₁, h₂⟩ := Finset.mem_Ioo.mp hn
    exact (mem_opened ht).mpr (Option.isSome_iff_ne_none.mpr (hfd.least n h₁ h₂))
  have := hfd.above
  have := ht.highest
  exact ⟨hcard, by omega⟩

theorem Table.accept (ht : Table listenfd net fds nfds live peak) {k : ℕ}
    (hk : freeSlot fds = some k) (hfd : net.Lowest listenfd fd) (c : Socket) :
    Table listenfd (net.accept fd c) (Function.update fds k (some fd)) (max nfds fd)
      (live + 1) (max peak (live + 1)) := by
  obtain ⟨hcard, hmax⟩ := ht.accept_peak hfd c
  obtain ⟨hk₁, -, hfree, hbelow⟩ := freeSlot_eq_some hk
  have hkle : k - 1 ≤ live := ht.slots_le_live fun j h₁ h₂ => hbelow j h₁ (by omega)
  -- no old slot holds the new descriptor
  have hfresh : ∀ j, fds j ≠ some fd := by
    intro j hj
    have := (ht.slot j fd hj).1
    rw [hfd.unused] at this
    cases this
  refine ⟨fun n hn => ?_, hcard, .inr ⟨by omega, hmax⟩, fun i n hn => ?_,
    fun i j n hi hj => ?_, fun n hn => ?_⟩
  · rcases (net.accept_isSome fd c n).mp hn with rfl | hn
    · exact ⟨hfd.above, le_max_right _ _⟩
    · exact ⟨(ht.range n hn).1, le_trans (ht.range n hn).2 (le_max_left _ _)⟩
  · rw [net.accept_isSome]
    by_cases hik : i = k
    · rw [hik, Function.update_self] at hn
      cases hn
      exact ⟨.inl rfl, by omega, by omega⟩
    · rw [Function.update_of_ne hik] at hn
      obtain ⟨h₁, h₂, h₃⟩ := ht.slot i n hn
      exact ⟨.inr h₁, h₂, le_trans h₃ (le_max_left _ _)⟩
  · by_cases hik : i = k <;> by_cases hjk : j = k
    · rw [hik, hjk]
    · rw [hik, Function.update_self] at hi
      rw [Function.update_of_ne hjk] at hj
      exact absurd (hj.trans hi.symm) (hfresh j)
    · rw [hjk, Function.update_self] at hj
      rw [Function.update_of_ne hik] at hi
      exact absurd (hi.trans hj.symm) (hfresh i)
    · rw [Function.update_of_ne hik] at hi
      rw [Function.update_of_ne hjk] at hj
      exact ht.inj i j n hi hj
  · rcases (net.accept_isSome fd c n).mp hn with rfl | hn
    · exact ⟨k, Function.update_self ..⟩
    · obtain ⟨i, hi⟩ := ht.recorded n hn
      refine ⟨i, ?_⟩
      rw [Function.update_of_ne fun hik => ?_]
      · exact hi
      · rw [hik, hfree] at hi
        cases hi

theorem Table.close (ht : Table listenfd net fds nfds live peak) {i : ℕ}
    (hi : fds i = some fd) :
    Table listenfd (net.set fd none) (Function.update fds i none) nfds (live - 1) peak := by
  have hopen := net.close_isSome fd
  have hold : ∀ {j n}, Function.update fds i none j = some n → j ≠ i ∧ fds j = some n := by
    intro j n hj
    by_cases hji : j = i
    · rw [hji, Function.update_self] at hj
      cases hj
    · exact ⟨hji, by rwa [Function.update_of_ne hji] at hj⟩
  have herase : opened listenfd (net.set fd none) nfds =
      (opened listenfd net nfds).erase fd := by
    ext n
    unfold opened
    rw [Finset.mem_erase, Finset.mem_filter, Finset.mem_filter, hopen]
    tauto
  refine ⟨fun n hn => ht.range n ((hopen n).mp hn).2, ?_, ht.highest, fun j n hj => ?_,
    fun j k n hj hk => ht.inj j k n (hold hj).2 (hold hk).2, fun n hn => ?_⟩
  · rw [herase, Finset.card_erase_of_mem ((mem_opened ht).mpr (ht.slot i fd hi).1), ht.count]
  · obtain ⟨hji, hj⟩ := hold hj
    obtain ⟨h₁, h₂⟩ := ht.slot j n hj
    refine ⟨(hopen n).mpr ⟨fun hn => hji ?_, h₁⟩, h₂⟩
    exact ht.inj j i fd (hn ▸ hj) hi
  · obtain ⟨hne, hn⟩ := (hopen n).mp hn
    obtain ⟨j, hj⟩ := ht.recorded n hn
    refine ⟨j, ?_⟩
    rw [Function.update_of_ne fun hji => ?_]
    · exact hj
    · rw [hji, hi] at hj
      exact hne (Option.some.inj hj).symm

/-! ## §3  The invariant -/

/-- The connections that the loop over the slots, at `i`, still reads from. -/
def State.todo (s : State) (i : ℕ) : Set ℕ :=
  {fd | ∃ j, i ≤ j ∧ s.fds j = some fd ∧ s.revents j = true}

/-- The round has read from slots below `i`, and from different connections. -/
structure Apart (fds : ℕ → Option ℕ) (i : ℕ) (round : Round) : Prop where
  slot : ∀ e ∈ round.echoes, ∃ j < i, fds j = some e.fd
  distinct : round.echoes.Pairwise fun d e => d.fd ≠ e.fd

/-- What the server still reads from in this round is ready. The first round is
no part of this: `poll` was given slot `0` only, and slot `1` is looked at. -/
def Pc.Holds (listenfd : ℕ) (s : State) : Pc → Prop
  | .accept polled =>
      polled = s.nfds ∧ s.nfds < slots ∧ 0 < s.net.backlog ∧ Serving s.net (s.todo 1) ∧
        ∀ j, 1 ≤ j → j ≤ polled → s.fds j = none → s.revents j = false
  | .scan polled i round =>
      1 ≤ i ∧ (polled = 0 → s.nfds = listenfd + 1) ∧
        (polled ≠ 0 → Serving s.net (s.todo i)) ∧ Apart s.fds i round
  | .write polled i _ round _ =>
      1 ≤ i ∧ (polled = 0 → s.nfds = listenfd + 1) ∧
        (polled ≠ 0 → Serving s.net (s.todo (i + 1))) ∧ Apart s.fds (i + 1) round
  | .fault => slots ≤ s.nfds
  | .overran _ round chunk => (∃ i, Apart s.fds i round) ∧ round.shows chunk = none
  | _ => True

structure Inv (listenfd : ℕ) (s : State) : Prop where
  table : Table listenfd s.net s.fds s.nfds s.live s.peak
  pc : s.pc.Holds listenfd s

variable {s s' : State}

theorem start_inv (h : Start s) : Inv listenfd s := by
  obtain ⟨hconns, hfds, hnfds, hpc, hlive, hpeak⟩ := h
  have hnone : ∀ fd, ¬ (s.net.conns fd).isSome := by
    intro fd
    rw [hconns fd]
    simp
  refine ⟨⟨fun fd hfd => absurd hfd (hnone fd), ?_, .inl ⟨hpeak, hnfds⟩, fun i fd hi => ?_,
    fun i j fd hi => ?_, fun fd hfd => absurd hfd (hnone fd)⟩, ?_⟩
  · rw [hlive, opened, Finset.filter_false_of_mem fun fd _ => hnone fd, Finset.card_empty]
  · rw [hfds i] at hi
    cases hi
  · rw [hfds i] at hi
    cases hi
  · rw [hpc]
    trivial

theorem Apart.start (i : ℕ) : Apart fds i .start := by
  refine ⟨fun e he => ?_, List.Pairwise.nil⟩
  cases he

theorem Apart.succ {i : ℕ} {round : Round} (h : Apart fds i round) :
    Apart fds (i + 1) round := by
  refine ⟨fun e he => ?_, h.distinct⟩
  obtain ⟨j, hj, hfd⟩ := h.slot e he
  exact ⟨j, Nat.lt_succ_of_lt hj, hfd⟩

theorem Apart.add (ht : Table listenfd net fds nfds live peak) {i : ℕ} {round : Round}
    (h : Apart fds i round) (hfd : fds i = some fd) {chunk : Chunk} {text : List Byte}
    (htext : round.shows chunk = some text) :
    Apart fds (i + 1) (round.add fd chunk text htext) := by
  constructor
  · intro e he
    rcases List.mem_append.mp he with he | he
    · exact h.succ.slot e he
    · rw [List.mem_singleton.mp he]
      exact ⟨i, Nat.lt_succ_self i, hfd⟩
  · refine List.pairwise_append.mpr ⟨h.distinct, List.pairwise_singleton _ _, fun d hd e he => ?_⟩
    rw [List.mem_singleton.mp he]
    intro heq
    have heq : d.fd = fd := heq
    obtain ⟨j, hj, hd'⟩ := h.slot d hd
    rw [heq] at hd'
    have := ht.inj j i fd hd' hfd
    omega

theorem todo_succ (s : State) (i : ℕ) : s.todo (i + 1) ⊆ s.todo i := by
  rintro fd ⟨j, hj, h⟩
  exact ⟨j, Nat.le_of_succ_le hj, h⟩

/-- The connection of slot `i` is in no later slot. -/
theorem Inv.not_mem_todo (hi : Inv listenfd s) {i : ℕ} (hfd : s.fds i = some fd) :
    fd ∉ s.todo (i + 1) := by
  rintro ⟨j, hj, hj', -⟩
  have := hi.table.inj i j fd hfd hj'
  omega

/-- `poll` is given every slot in use. -/
theorem Inv.slot_le_nfds (hi : Inv listenfd s) {i : ℕ} (hfd : s.fds i = some fd) :
    1 ≤ i ∧ i ≤ s.nfds := by
  obtain ⟨-, h₁, h₂⟩ := hi.table.slot i fd hfd
  have := hi.table.highest
  omega

theorem slotReady_some (s : State) {i : ℕ} (hi : 1 ≤ i) (hfd : s.fds i = some fd) :
    s.slotReady i = decide (s.net.ReadyAt fd) := by
  unfold State.slotReady
  rw [if_neg (by omega), hfd]

theorem slotReady_none (s : State) {i : ℕ} (hi : 1 ≤ i) (hnone : s.fds i = none) :
    s.slotReady i = false := by
  unfold State.slotReady
  rw [if_neg (by omega), hnone]

theorem slotReady_idle (hidle : ∀ fd, ¬ s.net.ReadyAt fd) {i : ℕ} (hi : 1 ≤ i) :
    s.slotReady i = false := by
  cases hfds : s.fds i with
  | none => exact slotReady_none s hi hfds
  | some fd => rw [slotReady_some s hi hfds, decide_eq_false (hidle fd)]

theorem poll_inv (hi : Inv listenfd s) (hin : s.nfds < slots)
    (hready : ∃ i ≤ s.nfds, s.slotReady i = true) :
    Inv listenfd { s with
      revents := fun i => if i ≤ s.nfds then s.slotReady i else s.revents i
      pc := .afterPoll s } := by
  refine ⟨hi.table, ?_⟩
  have hserving : Serving s.net {fd | ∃ j, 1 ≤ j ∧ s.fds j = some fd ∧
      (if j ≤ s.nfds then s.slotReady j else s.revents j) = true} := by
    rintro fd ⟨j, hj, hfd, hrev⟩
    rw [if_pos (hi.slot_le_nfds hfd).2, slotReady_some s hj hfd] at hrev
    exact of_decide_eq_true hrev
  show (Pc.afterPoll s).Holds listenfd _
  unfold Pc.afterPoll
  split
  · rename_i hzero
    refine ⟨rfl, hin, of_decide_eq_true hzero, hserving, fun j h₁ h₂ hnone => ?_⟩
    show (if j ≤ s.nfds then s.slotReady j else s.revents j) = false
    rw [if_pos h₂, slotReady_none s h₁ hnone]
  · rename_i hzero
    refine ⟨le_refl 1, fun hnfds => ?_, fun _ => hserving, .start _⟩
    obtain ⟨i, hile, hir⟩ := hready
    rw [hnfds] at hile
    obtain rfl : i = 0 := Nat.le_zero.mp hile
    exact absurd hir hzero

/-- The new connection is not read from in this round, the first one apart: it
is put in a slot that `poll` has seen to be free. -/
theorem accept_inv {polled : ℕ} (hl : 0 < listenfd) (hi : Inv listenfd s)
    (hpc : s.pc = .accept polled) (hfd : s.net.Lowest listenfd fd) (c : Socket) :
    Inv listenfd { s with
      net := s.net.accept fd c
      fds := record s.fds fd
      nfds := max s.nfds fd
      pc := .scan polled 1 .start
      live := s.live + 1
      peak := max s.peak (s.live + 1) } := by
  have hholds := hi.pc
  rw [hpc] at hholds
  obtain ⟨hpolled, hin, -, hserving, hfree⟩ := hholds
  obtain ⟨k, hk, hkle⟩ := hi.table.exists_free hl hin
  have hrecord : record s.fds fd = Function.update s.fds k (some fd) := by
    unfold record
    rw [hk]
  have hlive := hi.table.live_le_peak
  have hhighest := hi.table.highest
  have hmax := (hi.table.accept_peak hfd c).2
  refine ⟨hrecord ▸ hi.table.accept hk hfd c, le_refl 1, fun hzero => ?_, fun hne => ?_,
    .start _⟩
  · show max s.nfds fd = listenfd + 1
    omega
  · obtain ⟨hk₁, -, hknone, -⟩ := freeSlot_eq_some hk
    have hkrev : s.revents k = false := hfree k hk₁ (by omega) hknone
    apply (hserving.accept hfd.unused c).mono
    rintro n ⟨j, hj, hn, hrev⟩
    have hn : record s.fds fd j = some n := hn
    have hjk : j ≠ k := by
      rintro rfl
      rw [show s.revents j = true from hrev] at hkrev
      cases hkrev
    rw [hrecord, Function.update_of_ne hjk] at hn
    exact ⟨j, hj, hn, hrev⟩

theorem serve_inv (hl : 0 < listenfd) (hi : Inv listenfd s) (h : Serve listenfd s s') :
    Inv listenfd s' := by
  have hholds := hi.pc
  cases h with
  | poll hpc hin hready => exact poll_inv hi hin hready
  | pollOverrun hpc hout => exact ⟨hi.table, hout⟩
  | accept hpc hbacklog fd hfd c hc => exact accept_inv hl hi hpc hfd c
  | scanOverrun hpc hle hout => exact ⟨hi.table, le_trans hout hle⟩
  | @skip polled i round hpc hle hin hskip =>
      rw [hpc] at hholds
      obtain ⟨h₁, hfirst, hserving, hapart⟩ := hholds
      exact ⟨hi.table, Nat.le_succ_of_le h₁, hfirst,
        fun hne => (hserving hne).mono (todo_succ s i), hapart.succ⟩
  | @data polled i round hpc hle hin fd hfd hrev chunk net hread text htext =>
      rw [hpc] at hholds
      obtain ⟨h₁, hfirst, hserving, hapart⟩ := hholds
      refine ⟨hi.table.congr hread.isSome, h₁, hfirst, fun hne => ?_, hapart.add hi.table hfd htext⟩
      exact ((hserving hne).mono (todo_succ s i)).read hread (hi.not_mem_todo hfd)
  | dataOverrun hpc hle hin fd hfd hrev chunk net hread htext =>
      rw [hpc] at hholds
      exact ⟨hi.table.congr hread.isSome, ⟨_, hholds.2.2.2⟩, htext⟩
  | write hpc r net hwrite =>
      rw [hpc] at hholds
      obtain ⟨h₁, hfirst, hserving, hapart⟩ := hholds
      have hserving := fun hne => (hserving hne).write hwrite
      refine ⟨hi.table.congr hwrite.isSome, ?_⟩
      cases r with
      | part left => exact ⟨h₁, hfirst, hserving, hapart⟩
      | done => exact ⟨Nat.le_succ_of_le h₁, hfirst, hserving, hapart⟩
      | killed => trivial
  | closed hpc hle hin fd hfd hrev net hread =>
      exact ⟨(hi.table.congr hread.isSome).close hfd, trivial⟩
  | error hpc hle hin fd hfd hrev net hread => exact ⟨hi.table.congr hread.isSome, trivial⟩
  | done hpc hlt => exact ⟨hi.table, trivial⟩

theorem client_inv (hi : Inv listenfd s) (h : s.net.Client net) :
    Inv listenfd { s with net := net } := by
  refine ⟨hi.table.congr h.isSome, ?_⟩
  have hholds := hi.pc
  show s.pc.Holds listenfd _
  cases hpc : s.pc with
  | accept polled =>
      rw [hpc] at hholds
      obtain ⟨hpolled, hin, hbacklog, hserving, hfree⟩ := hholds
      exact ⟨hpolled, hin, lt_of_lt_of_le hbacklog h.backlog_le, hserving.client h, hfree⟩
  | scan polled i round =>
      rw [hpc] at hholds
      obtain ⟨h₁, hfirst, hserving, hapart⟩ := hholds
      exact ⟨h₁, hfirst, fun hne => (hserving hne).client h, hapart⟩
  | write polled i fd round left =>
      rw [hpc] at hholds
      obtain ⟨h₁, hfirst, hserving, hapart⟩ := hholds
      exact ⟨h₁, hfirst, fun hne => (hserving hne).client h, hapart⟩
  | fault =>
      rw [hpc] at hholds
      exact hholds
  | overran fd round chunk =>
      rw [hpc] at hholds
      exact hholds
  | poll | exit | killed => trivial

theorem reachable_inv (hl : 0 < listenfd) (h : (server listenfd).Reachable s) :
    Inv listenfd s := by
  refine System.invariant (I := Inv listenfd) (fun _ h0 => start_inv h0) ?_ h
  intro s s' _ hi hst
  cases hst with
  | serve h => exact serve_inv hl hi h
  | fail hpc => exact ⟨hi.table, trivial⟩
  | client net h => exact client_inv hi h

/-! ## §4  Where it cannot go on -/

def Pc.Ended : Pc → Prop
  | .exit | .killed | .fault | .overran .. => True
  | _ => False

theorem Serve.not_ended (h : Serve listenfd s s') : ¬ s.pc.Ended := by
  cases h with
  | poll hpc | pollOverrun hpc | accept hpc | scanOverrun hpc | skip hpc | data hpc
  | dataOverrun hpc | write hpc | closed hpc | error hpc | done hpc =>
      rw [hpc]
      exact id

/-- `poll` is given slot `0` and every connection. -/
theorem Inv.sleeps_iff (hi : Inv listenfd s) (hpc : s.pc = .poll) :
    (∀ s', ¬ Serve listenfd s s') ↔
      s.nfds < slots ∧ s.net.backlog = 0 ∧ ∀ fd, ¬ s.net.ReadyAt fd := by
  constructor
  · intro hstuck
    have hin : s.nfds < slots :=
      Nat.lt_of_not_le fun hout => hstuck _ (.pollOverrun hpc hout)
    have hnone : ∀ i ≤ s.nfds, ¬ s.slotReady i = true :=
      fun i hle hr => hstuck _ (.poll hpc hin ⟨i, hle, hr⟩)
    refine ⟨hin, ?_, fun fd hready => ?_⟩
    · by_contra hne
      exact hnone 0 (Nat.zero_le _) (decide_eq_true (Nat.pos_of_ne_zero hne))
    · obtain ⟨i, hfd⟩ := hi.table.recorded fd hready.isSome
      obtain ⟨h₁, h₂⟩ := hi.slot_le_nfds hfd
      apply hnone i h₂
      rw [slotReady_some s h₁ hfd]
      exact decide_eq_true hready
  · rintro ⟨hin, hbacklog, hidle⟩ s' h
    cases h with
    | poll hpc' hin' hready =>
        obtain ⟨i, -, hr⟩ := hready
        rcases Nat.eq_zero_or_pos i with rfl | hpos
        · have : 0 < s.net.backlog := of_decide_eq_true hr
          omega
        · rw [slotReady_idle hidle hpos] at hr
          cases hr
    | pollOverrun hpc' hout => omega
    | accept hpc' | scanOverrun hpc' | skip hpc' | data hpc' | dataOverrun hpc' | write hpc'
    | closed hpc' | error hpc' | done hpc' =>
        rw [hpc] at hpc'
        cases hpc'

/-- The server reads from its first client in its first round, because `revents` of
slot `1` was not initialised and `poll` has not been given that slot. -/
def State.ReadsGarbage (s : State) : Prop :=
  ∃ round fd, s.pc = .scan 0 1 round ∧ s.revents 1 = true ∧ s.fds 1 = some fd ∧
    ¬ s.net.ReadyAt fd

theorem Inv.scan_goes_on (hi : Inv listenfd s) {polled i : ℕ} {round : Round}
    (hpc : s.pc = .scan polled i round) (hnot : ¬ s.ReadsGarbage) :
    ∃ s', Serve listenfd s s' := by
  have hholds := hi.pc
  rw [hpc] at hholds
  obtain ⟨h₁, hfirst, hserving, -⟩ := hholds
  by_cases hlt : s.nfds < i
  · exact ⟨_, .done hpc hlt⟩
  have hle : i ≤ s.nfds := Nat.le_of_not_lt hlt
  by_cases hout : slots ≤ i
  · exact ⟨_, .scanOverrun hpc hle hout⟩
  have hin : i < slots := Nat.lt_of_not_le hout
  by_cases hskip : s.fds i = none ∨ s.revents i = false
  · exact ⟨_, .skip hpc hle hin hskip⟩
  rw [not_or, ← ne_eq, Option.ne_none_iff_exists', Bool.not_eq_false] at hskip
  obtain ⟨⟨fd, hfd⟩, hrev⟩ := hskip
  have hready : s.net.ReadyAt fd := by
    by_cases hzero : polled = 0
    · -- `poll` had only the listening socket, and this is the client just accepted
      have hone : i = 1 := by
        have := hfirst hzero
        have := (hi.table.slot i fd hfd).2.2
        have := hi.table.highest
        omega
      subst hzero hone
      exact not_not.mp fun h => hnot ⟨round, fd, hpc, hrev, hfd, h⟩
    · exact hserving hzero fd ⟨i, le_refl i, hfd, hrev⟩
  obtain ⟨r, net, hread⟩ := hready.read
  cases r with
  | error => exact ⟨_, .error hpc hle hin fd hfd hrev net hread⟩
  | closed => exact ⟨_, .closed hpc hle hin fd hfd hrev net hread⟩
  | data chunk =>
      cases htext : round.shows chunk with
      | none => exact ⟨_, .dataOverrun hpc hle hin fd hfd hrev chunk net hread htext⟩
      | some text => exact ⟨_, .data hpc hle hin fd hfd hrev chunk net hread text htext⟩

theorem Inv.garbage_stuck (hi : Inv listenfd s) (hgarbage : s.ReadsGarbage) :
    ∀ s', ¬ Serve listenfd s s' := by
  obtain ⟨round, fd, hpc, hrev, hfd, hnot⟩ := hgarbage
  intro s' h
  have hle := (hi.slot_le_nfds hfd).2
  have hopen := (hi.table.slot 1 fd hfd).1
  -- any `read` is one from this client
  have hread : ∀ {n r net}, s.fds 1 = some n → ¬ s.net.Read n r net := by
    intro n r net hn hr
    rw [hfd] at hn
    cases hn
    exact hnot (hr.readyAt hopen)
  cases h with
  | poll hpc' | pollOverrun hpc' | accept hpc' | write hpc' =>
      rw [hpc] at hpc'
      cases hpc'
  | scanOverrun hpc' hle' hout =>
      rw [hpc] at hpc'
      cases hpc'
      exact absurd hout (by decide)
  | skip hpc' hle' hin hskip =>
      rw [hpc] at hpc'
      cases hpc'
      rw [hfd, hrev] at hskip
      simp at hskip
  | data hpc' hle' hin n hn hrev' chunk net hr
  | dataOverrun hpc' hle' hin n hn hrev' chunk net hr
  | closed hpc' hle' hin n hn hrev' net hr
  | error hpc' hle' hin n hn hrev' net hr =>
      rw [hpc] at hpc'
      cases hpc'
      exact hread hn hr
  | done hpc' hlt =>
      rw [hpc] at hpc'
      cases hpc'
      omega

theorem write_stuck_iff {polled i fd : ℕ} {round : Round} {left : List Byte}
    (hpc : s.pc = .write polled i fd round left) :
    (∀ s', ¬ Serve listenfd s s') ↔ s.net.BlockedAt fd left := by
  rw [Net.blockedAt_iff]
  constructor
  · exact fun hstuck r net hwrite => hstuck _ (.write hpc r net hwrite)
  · intro hblocked s' h
    cases h with
    | write hpc' r net hwrite =>
        rw [hpc] at hpc'
        cases hpc'
        exact hblocked r net hwrite
    | poll hpc' | pollOverrun hpc' | accept hpc' | scanOverrun hpc' | skip hpc' | data hpc'
    | dataOverrun hpc' | closed hpc' | error hpc' | done hpc' =>
        rw [hpc] at hpc'
        cases hpc'

/-- **Where the server cannot go on**: it has ended; or it is in `poll` with its
bound within the array and nobody waiting for it; or it is in its first round and
reads from its first client without need; or it is in `write` to a client that takes
nothing more. -/
theorem poll_stuck_iff (hl : 0 < listenfd) (h : (server listenfd).Reachable s) :
    (∀ s', ¬ Serve listenfd s s') ↔ s.pc.Ended ∨
      (s.pc = .poll ∧ s.nfds < slots ∧ s.net.backlog = 0 ∧ ∀ fd, ¬ s.net.ReadyAt fd) ∨
      s.ReadsGarbage ∨
      ∃ polled i fd round left, s.pc = .write polled i fd round left ∧
        s.net.BlockedAt fd left := by
  have hi := reachable_inv hl h
  have hholds := hi.pc
  constructor
  · intro hstuck
    cases hpc : s.pc with
    | exit | killed | fault | overran => exact .inl trivial
    | poll => exact .inr (.inl ⟨rfl, (hi.sleeps_iff hpc).mp hstuck⟩)
    | accept polled =>
        rw [hpc] at hholds
        obtain ⟨fd, hfd⟩ := s.net.exists_lowest listenfd fun n hn => (hi.table.range n hn).2
        exact absurd (.accept hpc hholds.2.2.1 fd hfd (silent 0) (silent_fresh 0)) (hstuck _)
    | scan polled i round =>
        refine .inr (.inr (.inl (not_not.mp fun hnot => ?_)))
        obtain ⟨s', h'⟩ := hi.scan_goes_on hpc hnot
        exact hstuck s' h'
    | write polled i fd round left =>
        exact .inr (.inr (.inr ⟨_, _, _, _, _, rfl, (write_stuck_iff hpc).mp hstuck⟩))
  · rintro (hended | ⟨hpc, hidle⟩ | hgarbage | ⟨polled, i, fd, round, left, hpc, hblocked⟩)
    · exact fun s' h' => h'.not_ended hended
    · exact (hi.sleeps_iff hpc).mpr hidle
    · exact hi.garbage_stuck hgarbage
    · exact (write_stuck_iff hpc).mpr hblocked

/-- The server on descriptor `3`, with garbage in `revents`, has just accepted its
first client, on `4`, and a second one is there. -/
theorem first_round_reachable {c : Socket} (hc : c.Fresh) : ∃ revents : ℕ → Bool,
    revents 1 = true ∧ (server 3).Reachable ⟨⟨pair 4 5 (some c) none, 1⟩,
      record (fun _ => none) 4, revents, 4, .scan 0 1 .start, 1, 1⟩ := by
  have h₀ : (server 3).Reachable
      ⟨⟨pair 4 5 none none, 0⟩, fun _ => none, fun _ => true, 0, .poll, 0, 0⟩ :=
    .init ⟨pair_none 4 5, fun _ => rfl, rfl, rfl, rfl, rfl⟩
  have h₁ := h₀.step (.client _ .connect)
  have h₂ := h₁.step (.client _ .connect)
  have h₃ := h₂.step (.serve (.poll rfl (show 0 < slots by decide) ⟨0, le_refl 0, rfl⟩))
  have h₄ := h₃.step (.serve (.accept rfl (show 0 < 2 by decide) 4
    ⟨by decide, rfl, fun n h h' => by omega⟩ c hc))
  rw [Net.accept, pair_set_fst] at h₄
  exact ⟨fun i => if i ≤ 0 then _ else true, rfl, h₄⟩

/-- The first client is silent, and the server hangs on it in `read`; or it sends
`hello` and takes nothing back, and the server hangs on it in `write`. The second one
has to wait in either case. -/
theorem poll_hangs_on_first_client :
    (∃ s : State, (server 3).Reachable s ∧ s.net.backlog = 1 ∧ s.ReadsGarbage ∧
      ∀ s', ¬ Serve 3 s s') ∧
    ∃ s : State, (server 3).Reachable s ∧ s.net.backlog = 1 ∧ ¬ s.ReadsGarbage ∧
      ∀ s', ¬ Serve 3 s s' := by
  have hslot : record (fun _ => none) 4 1 = some 4 := by decide
  constructor
  · obtain ⟨revents, hrev, h⟩ := first_round_reachable (silent_fresh 0)
    have hgarbage : State.ReadsGarbage ⟨⟨pair 4 5 (some (silent 0)) none, 1⟩,
        record (fun _ => none) 4, revents, 4, .scan 0 1 .start, 1, 1⟩ :=
      ⟨.start, 4, rfl, hrev, hslot, silent_not_readyAt 0 rfl⟩
    exact ⟨_, h, rfl, hgarbage, (poll_stuck_iff (by decide) h).mpr (.inr (.inr (.inl hgarbage)))⟩
  · obtain ⟨revents, hrev, h⟩ := first_round_reachable (c := greeting 0) ⟨rfl, rfl, rfl⟩
    have hshows : Round.start.shows helloChunk = some (literal "hello") := by decide +kernel
    have h₁ := h.step (.serve (.data rfl (show 1 ≤ 4 by decide) (by decide) 4 hslot hrev
      helloChunk _ (.data (greeting 0) helloChunk [] rfl (by simp [greeting, helloChunk]))
      (literal "hello") hshows))
    refine ⟨_, h₁, rfl, ?_, (poll_stuck_iff (by decide) h₁).mpr (.inr (.inr (.inr
      ⟨_, _, _, _, _, rfl, _, rfl, rfl, rfl, by decide⟩)))⟩
    rintro ⟨round, fd, hpc, -⟩
    cases hpc

/-! ## §5  When it leaves its array, and what it echoes -/

/-- **`nfds` is `listenfd` too large.** No slot beyond the most connections ever
open at once is used, and `nfds` is `listenfd` more than that. The server uses
elements behind its array only after so many were open that it is not less than
1024, though there would be slots for the connections. -/
theorem poll_bound_too_large (hl : 0 < listenfd) (h : (server listenfd).Reachable s) :
    s.nfds = (if s.peak = 0 then 0 else listenfd + s.peak) ∧
      (∀ i fd, s.fds i = some fd → i ≤ s.peak) ∧
      (s.pc = .fault → slots ≤ listenfd + s.peak) := by
  have hi := reachable_inv hl h
  have hhighest := hi.table.highest
  have hholds := hi.pc
  refine ⟨?_, fun i fd hfd => (hi.table.slot i fd hfd).2.2, fun hpc => ?_⟩
  · split <;> omega
  · rw [hpc] at hholds
    have : slots ≤ s.nfds := hholds
    omega

/-- With nothing to report the loop goes on to the end of the array. -/
theorem scan_reaches {polled i : ℕ} {round : Round} (k : ℕ)
    (h : (server listenfd).Reachable s) (hpc : s.pc = .scan polled i round)
    (hrev : ∀ j, i ≤ j → s.revents j = false) (hin : i + k ≤ slots)
    (hle : i + k ≤ s.nfds + 1) :
    (server listenfd).Reachable { s with pc := .scan polled (i + k) round } := by
  induction k with
  | zero =>
      rw [Nat.add_zero, ← hpc]
      exact h
  | succ k ih =>
      have hk : i + k < slots := by omega
      have hk' : i + k ≤ s.nfds := by omega
      exact (ih hk.le (by omega)).step
        (.serve (.skip rfl hk' hk (.inr (hrev (i + k) (by omega)))))

/-- There are `n` clients, as many as there ever were, and all are silent. -/
structure Crowd (n : ℕ) (s : State) : Prop where
  live : s.live = n
  peak : s.peak = n
  backlog : s.net.backlog = 0
  idle : ∀ fd, ¬ s.net.ReadyAt fd
  revents : ∀ j, 1 ≤ j → s.revents j = false

/-- The round in which one more client connects. -/
theorem Crowd.accept {n : ℕ} (hc : Crowd n s) (hl : 0 < listenfd)
    (hn : listenfd + n < slots) (h : (server listenfd).Reachable s) (hpc : s.pc = .poll) :
    ∃ s' polled, (server listenfd).Reachable s' ∧ s'.pc = .scan polled 1 .start ∧
      Crowd (n + 1) s' := by
  have hi := reachable_inv hl h
  have hnfds : s.nfds < slots := by
    have := hi.table.highest
    have := hc.peak
    omega
  have h₁ := h.step (.client _ .connect)
  have h₂ := h₁.step (.serve (.poll hpc hnfds ⟨0, Nat.zero_le _, rfl⟩))
  obtain ⟨fd, hfd⟩ := s.net.exists_lowest listenfd (fun n hn => (hi.table.range n hn).2)
  have hfd' : Net.Lowest { s.net with backlog := s.net.backlog + 1 } listenfd fd :=
    ⟨hfd.above, hfd.unused, hfd.least⟩
  have h₃ := h₂.step (.serve (.accept rfl (Nat.succ_pos _) fd hfd' (silent 0) (silent_fresh 0)))
  refine ⟨_, _, h₃, rfl, ⟨congrArg (· + 1) hc.live, ?_, hc.backlog, fun n => ?_, fun j hj => ?_⟩⟩
  · show max s.peak (s.live + 1) = n + 1
    rw [hc.live, hc.peak]
    omega
  · by_cases hn : n = fd
    · subst hn
      exact silent_not_readyAt 0 (Net.set_same ..)
    · rintro ⟨c, hc', hready⟩
      exact hc.idle n ⟨c, (Net.set_other _ _ hn).symm.trans hc', hready⟩
  · show (if j ≤ s.nfds then _ else s.revents j) = false
    split
    · apply slotReady_idle _ hj
      exact hc.idle
    · exact hc.revents j hj

theorem crowd_reachable (hl : 0 < listenfd) (n : ℕ) (hn : listenfd + n < slots) :
    ∃ s, (server listenfd).Reachable s ∧ s.pc = .poll ∧ Crowd n s := by
  induction n with
  | zero =>
      refine ⟨⟨⟨fun _ => none, 0⟩, fun _ => none, fun _ => false, 0, .poll, 0, 0⟩,
        .init ⟨fun _ => rfl, fun _ => rfl, rfl, rfl, rfl, rfl⟩, rfl, rfl, rfl, rfl, ?_,
        fun _ _ => rfl⟩
      rintro fd ⟨c, hc, -⟩
      cases hc
  | succ n ih =>
      obtain ⟨s, h, hpc, hc⟩ := ih (by omega)
      obtain ⟨s', polled, h', hpc', hc'⟩ := hc.accept hl (by omega) h hpc
      have hnfds : s'.nfds = listenfd + (n + 1) := by
        have := (reachable_inv hl h').table.highest
        have := hc'.peak
        omega
      have hend := scan_reaches s'.nfds h' hpc' hc'.revents (by omega) (by omega)
      exact ⟨_, hend.step (.serve (.done rfl (show s'.nfds < 1 + s'.nfds by omega))), rfl,
        hc'.live, hc'.peak, hc'.backlog, hc'.idle, hc'.revents⟩

/-- With the listening socket on descriptor `3` the server leaves its array when
1021 clients are connected at once. -/
theorem poll_faults_with_1021_clients : ∃ s : State, (server 3).Reachable s ∧
    s.pc = .fault ∧ s.live = 1021 ∧ slots ≤ 3 + s.peak := by
  obtain ⟨s, h, hpc, hc⟩ := crowd_reachable (show 0 < 3 by decide) 1020 (by decide)
  obtain ⟨s', polled, h', hpc', hc'⟩ := hc.accept (by decide) (by decide) h hpc
  have hnfds : s'.nfds = 1024 := by
    have := (reachable_inv (by decide) h').table.highest
    have := hc'.peak
    omega
  have hend := scan_reaches 1023 h' hpc' hc'.revents (by decide) (by omega)
  have hfault := hend.step (.serve (.scanOverrun rfl (show 1 + 1023 ≤ s'.nfds by omega)
    (by decide)))
  exact ⟨_, hfault, rfl, hc'.live, (poll_bound_too_large (by decide) hfault).2.2 rfl⟩

/-- What was read in the current round. -/
def Pc.echoes : Pc → List Echo
  | .scan _ _ round => round.echoes
  | .write _ _ _ round _ => round.echoes
  | .overran _ round _ => round.echoes
  | _ => []

theorem Inv.echoes (hi : Inv listenfd s) (hne : s.pc.echoes ≠ []) :
    ∃ round : Round, s.pc.echoes = round.echoes ∧
      round.echoes.Pairwise fun d e => d.fd ≠ e.fd := by
  have hholds := hi.pc
  cases hpc : s.pc with
  | scan polled i round =>
      rw [hpc] at hholds
      exact ⟨round, rfl, hholds.2.2.2.distinct⟩
  | write polled i fd round left =>
      rw [hpc] at hholds
      exact ⟨round, rfl, hholds.2.2.2.distinct⟩
  | overran fd round chunk =>
      rw [hpc] at hholds
      obtain ⟨⟨i, hapart⟩, -⟩ := hholds
      exact ⟨round, rfl, hapart.distinct⟩
  | poll | accept | exit | killed | fault =>
      rw [hpc] at hne
      exact absurd rfl hne

/-- A round shares `recv_buf` among its clients as in the `select` server. -/
theorem poll_round_echoes (hl : 0 < listenfd) (h : (server listenfd).Reachable s)
    (hnul : ∀ e ∈ s.pc.echoes, NUL ∉ e.chunk.bytes) :
    (∀ before e after, s.pc.echoes = before ++ e :: after →
      e.After before ∧ ∀ d ∈ before, d.fd ≠ e.fd) ∧
    ∀ fd round chunk, s.pc = .overran fd round chunk → chunk.bytes.length = 1024 := by
  have hi := reachable_inv hl h
  constructor
  · intro before e after hsplit
    obtain ⟨round, hround, hdistinct⟩ := hi.echoes (by rw [hsplit]; simp)
    rw [hround] at hsplit hnul
    refine ⟨round.after hsplit hnul, fun d hd => ?_⟩
    rw [hsplit, List.pairwise_append] at hdistinct
    exact hdistinct.2.2 d hd e List.mem_cons_self
  · intro fd round chunk hpc
    have hholds := hi.pc
    rw [hpc] at hholds hnul
    exact round.shows_none hholds.2 hnul

end LinuxServer.Poll
