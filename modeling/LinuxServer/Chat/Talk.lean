import LinuxServer.Chat.Fifos

/-!
# Chat over two FIFOs: what holds in every run

The two take turns, so a FIFO never holds more than one message, and a `read`
of 128 bytes returns exactly one. `View` says what one party knows of the other;
it holds from both sides in every reachable state.

- §1 what a party knows
- §2 how a step changes that
- §3 making the FIFOs
- §4 results
-/

namespace LinuxServer.Chat

open LinuxServer.Framework

/-! ## §1  What a party knows -/

/-- It is this party's turn to write. -/
def Pc.hasTurn : Pc → Bool
  | .fgets | .write _ => true
  | _ => false

/-- The connection as `me` sees it, with `inbox` on the way to it and `outbox` on
the way to its peer. -/
structure View (me peer : Local) (inbox outbox : List Byte) : Prop where
  loop : me.pc.inLoop = true → peer.pc.inLoop = true
  start : me.pc.inLoop = false → inbox = [] ∧ me.sent = [] ∧ me.shown = []
  turn : me.pc.hasTurn = true → inbox = [] ∧ (peer.pc = .gone ∨ peer.pc = .read ∧ outbox = [])
  sent : ∀ m ∈ me.sent, IsMessage m
  next : ∀ m, me.pc = .write m → IsMessage m
  /-- What was shown is what the peer sent, but for what is on the way. -/
  heard : ∃ rest : List (List Byte), peer.sent.map some = me.shown ++ rest.map some ∧
    (me.pc ≠ .gone → rest.flatten = inbox ∧ rest.length ≤ 1)
  single : me.pc = .read → peer.pc = .read → inbox = [] ∨ outbox = []
  quiet : me.pc = .read → peer.pc = .read → inbox = [] → outbox = [] →
    [] ∈ me.sent ∨ [] ∈ peer.sent
  /-- After an empty message nothing comes any more. -/
  ended : [] ∈ me.sent ∨ [] ∈ peer.sent → me.pc ≠ .gone → inbox = [] ∧ me.pc.hasTurn = false

/-- The view from both sides. -/
def Both (me peer : Local) (inbox outbox : List Byte) : Prop :=
  View me peer inbox outbox ∧ View peer me outbox inbox

def Talks (s : State) : Prop :=
  ∀ p, View (s.loc p) (s.loc p.peer) (s.pipe p) (s.pipe p.peer)

variable {me peer : Local} {inbox outbox msg : List Byte} {pc : Pc} {s s' : State} {p : Party}

theorem Talks.both (h : Talks s) (p : Party) :
    Both (s.loc p) (s.loc p.peer) (s.pipe p) (s.pipe p.peer) := by
  refine ⟨h p, ?_⟩
  have := h p.peer
  rwa [p.peer_peer] at this

theorem talks_of_both (p : Party)
    (h : Both (s.loc p) (s.loc p.peer) (s.pipe p) (s.pipe p.peer)) : Talks s := by
  intro q
  rcases p.eq_or_eq_peer q with rfl | rfl
  · exact h.1
  · rw [p.peer_peer]
    exact h.2

/-! ## §2  How a step changes that -/

/-- Before the loop nothing was said. -/
theorem view_silent (hme : me.sent = [] ∧ me.shown = []) (hpeer : peer.sent = [])
    (hloop : me.pc.inLoop = true → peer.pc.inLoop = true)
    (hturn : me.pc.hasTurn = true → peer.pc = .read)
    (hread : me.pc = .read → peer.pc ≠ .read) (hnext : ∀ m, me.pc ≠ .write m) :
    View me peer [] [] := by
  obtain ⟨hs, hh⟩ := hme
  refine ⟨hloop, fun _ => ⟨rfl, hs, hh⟩, fun h => ⟨rfl, .inr ⟨hturn h, rfl⟩⟩, ?_,
    fun m h => absurd h (hnext m), ⟨[], ?_, fun _ => ⟨rfl, Nat.zero_le _⟩⟩,
    fun _ _ => .inl rfl, fun h h' => absurd h' (hread h), fun h => ?_⟩
  · rw [hs]
    exact fun _ h => absurd h List.not_mem_nil
  · rw [hpeer, hh]
    rfl
  · rw [hs, hpeer] at h
    exact absurd h (by simp)

theorem Pc.of_not_inLoop (h : pc.inLoop = false) :
    pc.hasTurn = false ∧ pc ≠ .read ∧ ∀ m, pc ≠ .write m := by
  cases pc with
  | access | mkfifo | openFifo | exited => exact ⟨rfl, by simp, by simp⟩
  | fgets | write | read | gone => cases h

theorem Both.notInLoop (h : Both me peer inbox outbox) (hme : me.pc.inLoop = false) :
    peer.pc.inLoop = false := by
  rw [Bool.eq_false_iff]
  intro hpeer
  rw [h.2.loop hpeer] at hme
  cases hme

/-- A step before the loop. -/
theorem Both.prepare (h : Both me peer inbox outbox) (hme : me.pc.inLoop = false)
    (hpc : pc.inLoop = false) : Both { me with pc := pc } peer inbox outbox := by
  have hpeer := h.notInLoop hme
  obtain ⟨hin, hs, hh⟩ := h.1.start hme
  obtain ⟨hout, hs', hh'⟩ := h.2.start hpeer
  obtain ⟨hturn, hread, hnext⟩ := Pc.of_not_inLoop hpc
  obtain ⟨hturn', hread', hnext'⟩ := Pc.of_not_inLoop hpeer
  rw [hin, hout]
  constructor
  · exact view_silent ⟨hs, hh⟩ hs' (fun h => absurd (hpc.symm.trans h) (by simp))
      (fun h => absurd (hturn.symm.trans h) (by simp)) (fun h => absurd h hread) hnext
  · exact view_silent ⟨hs', hh'⟩ hs (fun h => absurd (hpeer.symm.trans h) (by simp))
      (fun h => absurd (hturn'.symm.trans h) (by simp)) (fun h => absurd h hread') hnext'

theorem Both.fgets (h : Both me peer inbox outbox) (hpc : me.pc = .fgets)
    (hmsg : IsMessage msg) : Both { me with pc := .write msg } peer inbox outbox := by
  obtain ⟨hv, hv'⟩ := h
  have hturn : me.pc.hasTurn = true := by rw [hpc]; rfl
  have halive : me.pc ≠ .gone := by simp [hpc]
  constructor
  · refine ⟨fun _ => hv.loop (by rw [hpc]; rfl), fun h => (by cases h),
      fun _ => hv.turn hturn, hv.sent, fun m h => ?_, ?_, fun h => (by cases h),
      fun h => (by cases h), fun h _ => ?_⟩
    · cases h
      exact hmsg
    · obtain ⟨rest, hrest, hin⟩ := hv.heard
      exact ⟨rest, hrest, fun _ => hin halive⟩
    · have := (hv.ended h halive).2
      rw [hturn] at this
      cases this
  · refine ⟨fun _ => rfl, hv'.start, fun h => ?_, hv'.sent, hv'.next, hv'.heard,
      fun _ h => (by cases h), fun _ h => (by cases h), hv'.ended⟩
    obtain ⟨-, hme | ⟨hme, -⟩⟩ := hv'.turn h
    · exact absurd hme halive
    · rw [hpc] at hme
      cases hme

/-- Who has the turn has sent no empty message, and got none. -/
theorem View.no_empty (hv : View me peer inbox outbox) (hturn : me.pc.hasTurn = true) :
    [] ∉ me.sent ∧ [] ∉ peer.sent := by
  have halive : me.pc ≠ .gone := by
    intro h
    rw [h] at hturn
    cases hturn
  rw [← not_or]
  intro h
  have := (hv.ended h halive).2
  rw [hturn] at this
  cases this

/-- What is on the way was sent. -/
theorem mem_sent_of_rest {sent rest : List (List Byte)} {shown : List (Option (List Byte))}
    (h : sent.map some = shown ++ rest.map some) {m : List Byte} (hm : m ∈ rest) : m ∈ sent := by
  have hmem : some m ∈ sent.map some := by
    rw [h]
    exact List.mem_append_right _ (List.mem_map_of_mem hm)
  obtain ⟨m', hm', heq⟩ := List.mem_map.mp hmem
  rwa [← Option.some.inj heq]

theorem Both.write (h : Both me peer inbox outbox) (hpc : me.pc = .write msg) :
    Both { me with pc := .read, sent := me.sent ++ [msg] } peer inbox (outbox ++ msg) := by
  obtain ⟨hv, hv'⟩ := h
  have hturn : me.pc.hasTurn = true := by rw [hpc]; rfl
  have hpeerLoop := hv.loop (by rw [hpc]; rfl)
  obtain ⟨hin, hpeer⟩ := hv.turn hturn
  obtain ⟨hempty, hempty'⟩ := hv.no_empty hturn
  have hpeerTurn : peer.pc.hasTurn = false := by
    rcases hpeer with h | ⟨h, -⟩ <;> rw [h] <;> rfl
  have hlast : outbox ++ msg = [] → [] ∈ me.sent ++ [msg] := by
    intro h
    rw [(List.append_eq_nil_iff.mp h).2]
    exact List.mem_append_right _ (List.mem_singleton_self _)
  constructor
  · refine ⟨fun _ => hpeerLoop, fun h => (by cases h), fun h => (by cases h), fun m hm => ?_,
      fun m h => (by cases h), ?_, fun _ _ => .inl hin, fun _ _ _ h => .inl (hlast h),
      fun _ _ => ⟨hin, rfl⟩⟩
    · rcases List.mem_append.mp hm with h | h
      · exact hv.sent m h
      · rw [List.mem_singleton.mp h]
        exact hv.next msg hpc
    · obtain ⟨rest, hrest, halive⟩ := hv.heard
      exact ⟨rest, hrest, fun _ => halive (by simp [hpc])⟩
  · refine ⟨fun _ => rfl, fun h => absurd (h.symm.trans hpeerLoop) (by simp),
      fun h => absurd (hpeerTurn.symm.trans h) (by simp), hv'.sent, hv'.next, ?_,
      fun _ _ => .inr hin, fun _ _ h _ => .inr (hlast h), fun h halive => ⟨?_, hpeerTurn⟩⟩
    · obtain ⟨rest, hrest, hout⟩ := hv'.heard
      refine ⟨rest ++ [msg], ?_, fun halive => ?_⟩
      · rw [List.map_append, List.map_append, hrest, List.append_assoc]
      · obtain ⟨hflat, -⟩ := hout halive
        obtain ⟨-, hnil⟩ := hpeer.resolve_left halive
        -- nothing was on the way, since no message was empty
        have hnone : rest = [] := by
          cases rest with
          | nil => rfl
          | cons m rest =>
              rw [hnil, List.flatten_cons, List.append_eq_nil_iff] at hflat
              have := mem_sent_of_rest hrest List.mem_cons_self
              rw [hflat.1] at this
              exact absurd this hempty
        rw [hnone, hnil]
        exact ⟨List.append_nil msg, le_refl 1⟩
    · obtain ⟨-, hnil⟩ := hpeer.resolve_left halive
      have hmsg : msg = [] := by
        rcases h with h | h
        · exact absurd h hempty'
        · rcases List.mem_append.mp h with h | h
          · exact absurd h hempty
          · exact (List.mem_singleton.mp h).symm
      rw [hnil, hmsg]
      rfl

/-- What a `read` finds is one message. -/
theorem View.inbox_message (hv : View me peer inbox outbox) (hsent : ∀ m ∈ peer.sent, IsMessage m)
    (halive : me.pc ≠ .gone) (hne : inbox ≠ []) :
    IsMessage inbox ∧ peer.sent.map some = me.shown ++ [some inbox] := by
  obtain ⟨rest, hrest, hin⟩ := hv.heard
  obtain ⟨hflat, hlen⟩ := hin halive
  cases rest with
  | nil => exact absurd hflat.symm hne
  | cons m rest =>
      have hzero : rest.length = 0 := Nat.le_zero.mp (Nat.le_of_succ_le_succ hlen)
      obtain rfl : rest = [] := List.length_eq_zero_iff.mp hzero
      rw [List.flatten_cons, List.flatten_nil, List.append_nil] at hflat
      rw [← hflat]
      exact ⟨hsent m (mem_sent_of_rest hrest List.mem_cons_self), hrest⟩

theorem Both.read (h : Both me peer inbox outbox) (hpc : me.pc = .read) (hne : inbox ≠ []) :
    Both { me with pc := .fgets, shown := me.shown ++ [shownText inbox] } peer
      (inbox.drop 128) outbox := by
  obtain ⟨hv, hv'⟩ := h
  have halive : me.pc ≠ .gone := by simp [hpc]
  obtain ⟨hmsg, hheard⟩ := hv.inbox_message hv'.sent halive hne
  have hdrop : inbox.drop 128 = [] := List.drop_eq_nil_of_le hmsg.2.le
  have hempty : ¬ ([] ∈ me.sent ∨ [] ∈ peer.sent) := fun h => hne (hv.ended h halive).1
  have hpeerTurn : ¬ peer.pc.hasTurn = true := by
    intro h
    obtain ⟨-, hme | ⟨-, hin⟩⟩ := hv'.turn h
    · exact halive hme
    · exact hne hin
  have hpeerLoop := hv.loop (by rw [hpc]; rfl)
  rw [hdrop, shownText_message hmsg]
  constructor
  · refine ⟨fun _ => hpeerLoop, fun h => (by cases h), fun _ => ⟨rfl, ?_⟩, hv.sent,
      fun m h => (by cases h), ⟨[], by rw [hheard]; simp, fun _ => ⟨rfl, Nat.zero_le _⟩⟩,
      fun h => (by cases h), fun h => (by cases h), fun h => absurd h hempty⟩
    cases hp : peer.pc with
    | gone => exact .inl rfl
    | read => exact .inr ⟨rfl, (hv.single hpc hp).resolve_left hne⟩
    | fgets | write => exact absurd (by rw [hp]; rfl) hpeerTurn
    | access | mkfifo | openFifo | exited =>
        rw [hp] at hpeerLoop
        cases hpeerLoop
  · exact ⟨fun _ => rfl, hv'.start, fun h => absurd h hpeerTurn, hv'.sent, hv'.next, hv'.heard,
      fun _ h => (by cases h), fun _ h => (by cases h), hv'.ended⟩

/-- One of the two is gone. -/
theorem Both.leave (h : Both me peer inbox outbox) (hpc : me.pc.inLoop = true) :
    Both { me with pc := .gone } peer inbox outbox := by
  obtain ⟨hv, hv'⟩ := h
  constructor
  · refine ⟨fun _ => hv.loop hpc, fun h => (by cases h), fun h => (by cases h), hv.sent,
      fun m h => (by cases h), ?_, fun h => (by cases h), fun h => (by cases h),
      fun _ h => absurd rfl h⟩
    obtain ⟨rest, hrest, -⟩ := hv.heard
    exact ⟨rest, hrest, fun h => absurd rfl h⟩
  · exact ⟨fun _ => rfl, hv'.start, fun h => ⟨(hv'.turn h).1, .inl rfl⟩, hv'.sent, hv'.next,
      hv'.heard, fun _ h => (by cases h), fun _ h => (by cases h), hv'.ended⟩

theorem start_talks (h : Start s) : Talks s := by
  obtain ⟨hloc, hpipe, -⟩ := h
  intro p
  rw [hloc, hloc, hpipe, hpipe]
  exact view_silent ⟨rfl, rfl⟩ rfl (fun h => h) (fun h => (by cases h)) (fun h => (by cases h))
    (fun m h => (by cases h))

theorem move_talks
    (hpc : Both { s.loc p with pc := pc } (s.loc p.peer) (s.pipe p) (s.pipe p.peer)) :
    Talks (s.move p pc) := by
  apply talks_of_both p
  simpa [State.move, p.peer_ne] using hpc

theorem act_talks (ht : Talks s) (h : Act s s') : Talks s' := by
  cases h with
  | found p f hpc _ =>
      exact move_talks ((ht.both p).prepare (by rw [hpc]; rfl) (by cases f <;> rfl))
  | missing p f hpc _ => exact move_talks ((ht.both p).prepare (by rw [hpc]; rfl) rfl)
  | mkfifo p f hpc _ =>
      exact move_talks ((ht.both p).prepare (by rw [hpc]; rfl) (by cases f <;> rfl))
  | mkfifoFails p f hpc _ => exact move_talks ((ht.both p).prepare (by rw [hpc]; rfl) rfl)
  | openFirst hpc =>
      intro p
      obtain ⟨hin, hs, hh⟩ := (ht p).start (by rw [hpc p]; rfl)
      obtain ⟨hout, hs', -⟩ := (ht p.peer).start (by rw [hpc p.peer]; rfl)
      show View { s.loc p with pc := _ } { s.loc p.peer with pc := _ } (s.pipe p) (s.pipe p.peer)
      rw [hin, hout]
      exact view_silent ⟨hs, hh⟩ hs' (fun h => h) (fun h => (by cases h))
        (fun h => (by cases h)) (fun m h => (by cases h))
  | openSecond hpc =>
      intro p
      obtain ⟨hin, hs, hh⟩ := (ht p).start (by rw [hpc p]; rfl)
      obtain ⟨hout, hs', -⟩ := (ht p.peer).start (by rw [hpc p.peer]; rfl)
      show View { s.loc p with pc := _ } { s.loc p.peer with pc := _ } (s.pipe p) (s.pipe p.peer)
      rw [hin, hout]
      cases p with
      | A =>
          exact view_silent ⟨hs, hh⟩ hs' (fun _ => rfl) (fun _ => rfl) (fun h => (by cases h))
            (fun m h => (by cases h))
      | B =>
          exact view_silent ⟨hs, hh⟩ hs' (fun _ => rfl) (fun h => (by cases h))
            (fun _ h => (by cases h)) (fun m h => (by cases h))
  | fgets p hpc input msg hmsg => exact move_talks ((ht.both p).fgets hpc (message_spec hmsg))
  | write p msg hpc _ =>
      apply talks_of_both p
      simpa [p.peer_ne, p.peer_ne.symm] using (ht.both p).write hpc
  | writeBroken p msg hpc _ _ => exact move_talks ((ht.both p).leave (by rw [hpc]; rfl))
  | read p hpc hne =>
      apply talks_of_both p
      simpa [p.peer_ne, p.peer_ne.symm] using (ht.both p).read hpc hne
  | readEnd p hpc _ _ => exact move_talks ((ht.both p).leave (by rw [hpc]; rfl))

theorem reachable_talks (h : chat.Reachable s) : Talks s := by
  refine System.invariant (I := Talks) (fun _ h0 => start_talks h0) ?_ h
  intro s s' _ ht hst
  cases hst with
  | act h => exact act_talks ht h
  | kill p h => exact move_talks ((ht.both p).leave h)

/-! ## §3  Making the FIFOs -/

/-- How far a process has come with making the FIFOs. -/
def Pc.rank : Pc → ℕ
  | .access .fifo1 => 1
  | .mkfifo .fifo1 => 2
  | .access .fifo2 => 3
  | .mkfifo .fifo2 => 4
  | .exited => 0
  | _ => 5

theorem Fifo.rank_access (f : Fifo) : (Pc.access f).rank < (Pc.mkfifo f).rank := by
  cases f <;> decide

theorem Fifo.rank_next (f : Fifo) : (Pc.mkfifo f).rank < f.next.rank := by
  cases f <;> decide

theorem Fifo.next_ne (f : Fifo) :
    f.next ≠ .exited ∧ f.next ≠ .openFifo .fifo2 ∧ ∀ g, f.next ≠ .mkfifo g := by
  cases f with
  | fifo1 => exact ⟨by decide, by decide, fun g h => by cases h⟩
  | fifo2 => exact ⟨by decide, by decide, fun g h => by cases h⟩

/-- A process that is about to make a FIFO which is there by now was overtaken by
its peer. So at most one of the two fails. -/
structure Making (pcs : Party → Pc) (present : Fifo → Bool) (made : Fifo → Option Party) :
    Prop where
  overtaken : ∀ p f, pcs p = .mkfifo f → present f = true →
    (pcs p).rank < (pcs p.peer).rank ∧ made f = some p.peer
  failed : ∀ p, pcs p = .exited → pcs p.peer ≠ .exited ∧
    (∀ f, pcs p.peer = .mkfifo f → present f = false) ∧ ∃ f, made f = some p.peer
  together : ∀ p, pcs p = .openFifo .fifo2 → pcs p.peer = .openFifo .fifo2

variable {pcs : Party → Pc} {present present' : Fifo → Bool} {made made' : Fifo → Option Party}

/-- A step that brings `p` further and does not make it wait for its peer. A FIFO
that is new was made by `p`. -/
theorem Making.advance (hm : Making pcs present made) (hrank : (pcs p).rank ≤ pc.rank)
    (hexit : pc ≠ .exited) (hopen : pcs p ≠ .openFifo .fifo2) (hopen' : pc ≠ .openFifo .fifo2)
    (hmakes : ∀ f, pc = .mkfifo f → present' f = false)
    (hpresent : ∀ f, present' f = true → present f = true ∧ made' f = made f ∨
      made' f = some p ∧ (Pc.mkfifo f).rank < pc.rank)
    (hmade : ∀ f, made f = some p → made' f = some p) :
    Making (Function.update pcs p pc) present' made' := by
  have hsame : Function.update pcs p pc p = pc := Function.update_self ..
  have hpeer : Function.update pcs p pc p.peer = pcs p.peer := Function.update_of_ne p.peer_ne ..
  refine ⟨fun q f hq hf => ?_, fun q hq => ?_, fun q hq => ?_⟩
  · rcases p.eq_or_eq_peer q with rfl | rfl
    · rw [hsame] at hq
      exact absurd ((hmakes f hq).symm.trans hf) (by simp)
    · rw [p.peer_peer, hsame, hpeer]
      rw [hpeer] at hq
      rcases hpresent f hf with ⟨hold, hsameMade⟩ | ⟨hnew, hlt⟩
      · obtain ⟨hlt, hby⟩ := hm.overtaken p.peer f hq hold
        rw [p.peer_peer] at hlt hby
        exact ⟨lt_of_lt_of_le hlt hrank, hsameMade.trans hby⟩
      · exact ⟨by rwa [hq], hnew⟩
  · rcases p.eq_or_eq_peer q with rfl | rfl
    · rw [hsame] at hq
      exact absurd hq hexit
    · rw [p.peer_peer, hsame]
      rw [hpeer] at hq
      obtain ⟨-, -, f, hf⟩ := hm.failed p.peer hq
      rw [p.peer_peer] at hf
      exact ⟨hexit, hmakes, f, hmade f hf⟩
  · rcases p.eq_or_eq_peer q with rfl | rfl
    · rw [hsame] at hq
      exact absurd hq hopen'
    · rw [hpeer] at hq
      have := hm.together p.peer hq
      rw [p.peer_peer] at this
      exact absurd this hopen

/-- `mkfifo` fails for `p`. -/
theorem Making.fails (hm : Making pcs present made) {f : Fifo} (hpc : pcs p = .mkfifo f)
    (hf : present f = true) : Making (Function.update pcs p .exited) present made := by
  have hsame : Function.update pcs p .exited p = .exited := Function.update_self ..
  have hpeer : Function.update pcs p .exited p.peer = pcs p.peer :=
    Function.update_of_ne p.peer_ne ..
  obtain ⟨hlt, hby⟩ := hm.overtaken p f hpc hf
  -- the peer was not overtaken in turn
  have hnot : ∀ f', pcs p.peer = .mkfifo f' → present f' = false := by
    intro f' hpc'
    rw [Bool.eq_false_iff]
    intro hf'
    have := (hm.overtaken p.peer f' hpc' hf').1
    rw [p.peer_peer] at this
    omega
  have hne : pcs p.peer ≠ .exited := by
    intro h
    rw [h] at hlt
    exact absurd hlt (Nat.not_lt_zero _)
  refine ⟨fun q f' hq hf' => ?_, fun q hq => ?_, fun q hq => ?_⟩
  · rcases p.eq_or_eq_peer q with rfl | rfl
    · rw [hsame] at hq
      cases hq
    · rw [hpeer] at hq
      exact absurd ((hnot f' hq).symm.trans hf') (by simp)
  · rcases p.eq_or_eq_peer q with rfl | rfl
    · rw [hpeer]
      exact ⟨hne, hnot, f, hby⟩
    · rw [hpeer] at hq
      exact absurd hq hne
  · rcases p.eq_or_eq_peer q with rfl | rfl
    · rw [hsame] at hq
      cases hq
    · rw [hpeer] at hq
      have := hm.together p.peer hq
      rw [p.peer_peer, hpc] at this
      cases this

/-- Both are past the FIFOs. -/
theorem making_of_open (hpc : ∀ p, pcs p ≠ .exited ∧ ∀ f, pcs p ≠ .mkfifo f)
    (htogether : ∀ p, pcs p = .openFifo .fifo2 → pcs p.peer = .openFifo .fifo2) :
    Making pcs present made :=
  ⟨fun p f h => absurd h ((hpc p).2 f), fun p h => absurd h (hpc p).1, htogether⟩

/-- A step of the loop. -/
theorem Making.talk (hm : Making pcs present made) (hpc : (pcs p).inLoop = true)
    (hpc' : pc.inLoop = true) : Making (Function.update pcs p pc) present made := by
  have hrank : ∀ {pc : Pc}, pc.inLoop = true → pc.rank = 5 ∧ pc ≠ .exited ∧
      pc ≠ .openFifo .fifo2 ∧ ∀ f, pc ≠ .mkfifo f := by
    intro pc h
    cases pc with
    | fgets | write | read | gone => exact ⟨rfl, by simp, by simp, by simp⟩
    | access | mkfifo | openFifo | exited => cases h
  obtain ⟨h₁, -, hopen, -⟩ := hrank hpc
  obtain ⟨h₂, hexit, hopen', hmk⟩ := hrank hpc'
  exact hm.advance (by rw [h₁, h₂]) hexit hopen hopen' (fun f h => absurd h (hmk f))
    (fun f h => .inl ⟨h, rfl⟩) (fun f h => h)

def State.pcOf (s : State) : Party → Pc := fun p => (s.loc p).pc

theorem pcs_update (s : State) (p : Party) (l : Local) :
    (fun q => (Function.update s.loc p l q).pc) = Function.update s.pcOf p l.pc := by
  funext q
  by_cases hq : q = p
  · subst hq
    simp
  · simp [hq, State.pcOf]

theorem pcOf_move (s : State) (p : Party) (pc : Pc) :
    (s.move p pc).pcOf = Function.update s.pcOf p pc :=
  pcs_update s p _

theorem act_making (hm : Making s.pcOf s.present s.made) (h : Act s s') :
    Making s'.pcOf s'.present s'.made := by
  cases h with
  | found p f hpc hf =>
      have hpc : s.pcOf p = .access f := hpc
      rw [pcOf_move]
      obtain ⟨hexit, hopen, hmk⟩ := f.next_ne
      refine hm.advance ?_ hexit ?_ hopen (fun f' h => absurd h (hmk f'))
        (fun f h => .inl ⟨h, rfl⟩) (fun f h => h)
      · rw [hpc]
        exact (f.rank_access.trans f.rank_next).le
      · rw [hpc]
        simp
  | missing p f hpc hf =>
      have hpc : s.pcOf p = .access f := hpc
      rw [pcOf_move]
      refine hm.advance ?_ ?_ ?_ ?_ (fun f' h => ?_) (fun f h => .inl ⟨h, rfl⟩) (fun f h => h)
      · rw [hpc]
        exact f.rank_access.le
      · simp
      · simp [hpc]
      · simp
      · cases h
        exact hf
  | mkfifo p f hpc hf =>
      have hpc : s.pcOf p = .mkfifo f := hpc
      show Making (s.move p f.next).pcOf (Function.update s.present f true)
        (Function.update s.made f (some p))
      rw [pcOf_move]
      obtain ⟨hexit, hopen, hmk⟩ := f.next_ne
      refine hm.advance ?_ hexit ?_ hopen (fun f' h => absurd h (hmk f')) (fun f' h => ?_)
        (fun f' h => ?_)
      · rw [hpc]
        exact f.rank_next.le
      · simp [hpc]
      · by_cases hff : f' = f
        · subst hff
          exact .inr ⟨Function.update_self .., f'.rank_next⟩
        · rw [Function.update_of_ne hff] at h
          exact .inl ⟨h, Function.update_of_ne hff ..⟩
      · by_cases hff : f' = f
        · rw [hff, Function.update_self]
        · rwa [Function.update_of_ne hff]
  | mkfifoFails p f hpc hf =>
      rw [pcOf_move]
      exact hm.fails hpc hf
  | openFirst hpc =>
      exact making_of_open (fun p => ⟨fun h => (by cases h), fun f h => (by cases h)⟩)
        (fun p _ => rfl)
  | openSecond hpc =>
      refine making_of_open (fun p => ?_) (fun p h => ?_)
      · cases p
        · exact ⟨fun h => (by cases h), fun f h => (by cases h)⟩
        · exact ⟨fun h => (by cases h), fun f h => (by cases h)⟩
      · cases p <;> cases h
  | fgets p hpc input msg hmsg =>
      rw [pcOf_move]
      exact hm.talk (by rw [show s.pcOf p = _ from hpc]; rfl) rfl
  | write p msg hpc _ =>
      show Making (fun q => (Function.update s.loc p _ q).pc) _ _
      rw [pcs_update]
      exact hm.talk (by rw [show s.pcOf p = _ from hpc]; rfl) rfl
  | writeBroken p msg hpc _ _ =>
      rw [pcOf_move]
      exact hm.talk (by rw [show s.pcOf p = _ from hpc]; rfl) rfl
  | read p hpc hne =>
      show Making (fun q => (Function.update s.loc p _ q).pc) _ _
      rw [pcs_update]
      exact hm.talk (by rw [show s.pcOf p = _ from hpc]; rfl) rfl
  | readEnd p hpc _ _ =>
      rw [pcOf_move]
      exact hm.talk (by rw [show s.pcOf p = _ from hpc]; rfl) rfl

theorem reachable_making (h : chat.Reachable s) : Making s.pcOf s.present s.made := by
  refine System.invariant (I := fun s => Making s.pcOf s.present s.made) (fun s h0 => ?_) ?_ h
  · have hpc : ∀ p, s.pcOf p = .access .fifo1 := fun p => by rw [State.pcOf, h0.1 p]
    exact making_of_open (fun p => by simp [hpc]) (fun p h => absurd (hpc p ▸ h) (by simp))
  · intro s s' _ hm hst
    cases hst with
    | act h => exact act_making hm h
    | kill p h =>
        rw [pcOf_move]
        exact hm.talk h rfl

/-! ## §4  Results -/

/-- **Each party is shown what the other sent**, message by message and in order.
While it is there, at most the last message is missing. -/
theorem chat_shows_what_was_sent (h : chat.Reachable s) (p : Party) :
    ∃ rest : List (List Byte), (s.loc p.peer).sent.map some = (s.loc p).shown ++ rest.map some ∧
      ((s.loc p).pc ≠ .gone → rest.length ≤ 1) := by
  obtain ⟨rest, hrest, hin⟩ := (reachable_talks h p).heard
  exact ⟨rest, hrest, fun halive => (hin halive).2⟩

/-- A party whose turn it is says a line, and its peer is shown it. -/
theorem speaks (h : chat.Reachable s) (hme : (s.loc p).pc = .fgets)
    (hpeer : (s.loc p.peer).pc = .read) (hpipe : s.pipe p.peer = []) (msg : List Byte)
    (line : Line) (hmsg : message (some line) = some msg) (hne : msg ≠ []) :
    ∃ s', chat.Reachable s' ∧
      s'.loc p = ⟨.read, (s.loc p).sent ++ [msg], (s.loc p).shown⟩ ∧
      s'.loc p.peer = ⟨.fgets, (s.loc p.peer).sent, (s.loc p.peer).shown ++ [some msg]⟩ ∧
      s'.pipe p = s.pipe p ∧ s'.pipe p.peer = [] := by
  have hmessage := message_spec hmsg
  have h₁ := h.step (.act (.fgets p hme (some line) msg hmsg))
  have h₂ := h₁.step (.act (.write p msg (by simp [State.move]) (.inl (by
    simp [State.move, p.peer_ne, hpeer]))))
  have h₃ := h₂.step (.act (.read p.peer (by simp [State.move, p.peer_ne, hpeer])
    (by simp [State.move, hpipe, hne])))
  refine ⟨_, h₃, ?_, ?_, ?_, ?_⟩
  · simp [State.move, p.peer_ne.symm]
  · simp [State.move, p.peer_ne, hpipe, shownText_message hmessage]
  · simp [State.move, p.peer_ne.symm]
  · simp [State.move, hpipe, hmessage.2.le]

/-- Both FIFOs are there, and the two have opened them. -/
theorem opened_reachable : ∃ s, chat.Reachable s ∧
    (∀ p, s.loc p = ⟨p.loopStart, [], []⟩) ∧ ∀ p, s.pipe p = [] := by
  have h₀ : chat.Reachable ⟨fun _ => ⟨.access .fifo1, [], []⟩, fun _ => [], fun _ => true,
      fun _ => none⟩ := .init ⟨fun _ => rfl, fun _ => rfl, fun _ => rfl⟩
  have h₁ := h₀.step (.act (.found .A .fifo1 rfl rfl))
  have h₂ := h₁.step (.act (.found .A .fifo2 rfl rfl))
  have h₃ := h₂.step (.act (.found .B .fifo1 rfl rfl))
  have h₄ := h₃.step (.act (.found .B .fifo2 rfl rfl))
  have h₅ := h₄.step (.act (.openFirst fun p => by cases p <;> rfl))
  have h₆ := h₅.step (.act (.openSecond fun p => by cases p <;> rfl))
  exact ⟨_, h₆, fun p => by cases p <;> rfl, fun _ => rfl⟩

/-- A says `hi`, B answers `hello`, and A says `bye`. -/
theorem chat_shows_hi_hello_bye : ∃ s : State, chat.Reachable s ∧
    (s.loc .B).shown = [some (literal "hi"), some (literal "bye")] ∧
    (s.loc .A).shown = [some (literal "hello")] ∧
    ∀ p, ∃ rest : List (List Byte),
      (s.loc p.peer).sent.map some = (s.loc p).shown ++ rest.map some ∧
      ((s.loc p).pc ≠ .gone → rest.length ≤ 1) := by
  obtain ⟨s, h, hloc, hpipe⟩ := opened_reachable
  obtain ⟨s₁, h₁, hA₁, hB₁, hpA₁, hpB₁⟩ := speaks (p := .A) h (by rw [hloc]; rfl)
    (by rw [hloc]; rfl) (hpipe _) (literal "hi") ⟨literal "hi", by decide⟩
    (by decide +kernel) (by decide)
  rw [Party.peer] at hB₁ hpB₁
  obtain ⟨s₂, h₂, hB₂, hA₂, hpB₂, hpA₂⟩ := speaks (p := .B) h₁ (by rw [hB₁])
    (by rw [Party.peer, hA₁]) (by rw [Party.peer, hpA₁, hpipe]) (literal "hello")
    ⟨literal "hello", by decide⟩ (by decide +kernel) (by decide)
  rw [Party.peer] at hA₂ hpA₂
  obtain ⟨s₃, h₃, hA₃, hB₃, -, -⟩ := speaks (p := .A) h₂ (by rw [hA₂])
    (by rw [Party.peer, hB₂]) (by rw [Party.peer, hpB₂, hpB₁]) (literal "bye")
    ⟨literal "bye", by decide⟩ (by decide +kernel) (by decide)
  rw [Party.peer] at hB₃
  refine ⟨s₃, h₃, ?_, ?_, chat_shows_what_was_sent h₃⟩
  · rw [hB₃, hB₂, hB₁, hloc]
    rfl
  · rw [hA₃, hA₂, hA₁, hloc]
    rfl

/-- A party can go on by itself unless it waits for the other. -/
theorem exists_act (p : Party) (h : ∀ s', ¬ Act s s') :
    (∃ f, (s.loc p).pc = .openFifo f) ∨ (s.loc p).pc = .exited ∨ (s.loc p).pc = .gone ∨
      (s.loc p).pc = .read ∧ s.pipe p = [] ∧ (s.loc p.peer).pc ≠ .gone := by
  cases hpc : (s.loc p).pc with
  | openFifo f => exact .inl ⟨f, rfl⟩
  | exited => exact .inr (.inl rfl)
  | gone => exact .inr (.inr (.inl rfl))
  | access f =>
      cases hf : s.present f with
      | true => exact absurd (.found p f hpc hf) (h _)
      | false => exact absurd (.missing p f hpc hf) (h _)
  | mkfifo f =>
      cases hf : s.present f with
      | true => exact absurd (.mkfifoFails p f hpc hf) (h _)
      | false => exact absurd (.mkfifo p f hpc hf) (h _)
  | fgets =>
      obtain ⟨msg, hmsg⟩ := exists_message none
      exact absurd (.fgets p hpc none msg hmsg) (h _)
  | write msg =>
      by_cases hpeer : (s.loc p.peer).pc = .gone
      · by_cases hne : msg = []
        · exact absurd (.write p msg hpc (.inr hne)) (h _)
        · exact absurd (.writeBroken p msg hpc hpeer hne) (h _)
      · exact absurd (.write p msg hpc (.inl hpeer)) (h _)
  | read =>
      by_cases hin : s.pipe p = []
      · refine .inr (.inr (.inr ⟨rfl, hin, fun hpeer => ?_⟩))
        exact h _ (.readEnd p hpc hin hpeer)
      · exact absurd (.read p hpc hin) (h _)

/-- Who acts does not wait for the other, or both return from an `open`. -/
theorem Act.enabled (h : Act s s') :
    (∃ p, (∃ f, (s.loc p).pc = .access f ∨ (s.loc p).pc = .mkfifo f) ∨
      (s.loc p).pc.hasTurn = true ∨
      (s.loc p).pc = .read ∧ (s.pipe p ≠ [] ∨ (s.loc p.peer).pc = .gone)) ∨
    ∃ f, ∀ p, (s.loc p).pc = .openFifo f := by
  cases h with
  | found p f hpc _ | missing p f hpc _ => exact .inl ⟨p, .inl ⟨f, .inl hpc⟩⟩
  | mkfifo p f hpc _ | mkfifoFails p f hpc _ => exact .inl ⟨p, .inl ⟨f, .inr hpc⟩⟩
  | openFirst h | openSecond h => exact .inr ⟨_, h⟩
  | fgets p hpc | write p msg hpc | writeBroken p msg hpc =>
      refine .inl ⟨p, .inr (.inl ?_)⟩
      rw [hpc]
      rfl
  | read p hpc h => exact .inl ⟨p, .inr (.inr ⟨hpc, .inl h⟩)⟩
  | readEnd p hpc _ h => exact .inl ⟨p, .inr (.inr ⟨hpc, .inr h⟩)⟩

/-- The chat stands still before the loop only because of a lost race. -/
theorem stuck_before_loop (h : chat.Reachable s) (hstuck : ∀ s', ¬ Act s s')
    (hp : (s.loc p).pc.inLoop = false) :
    ∃ p f, (s.loc p).pc = .exited ∧ (s.loc p.peer).pc = .openFifo .fifo1 ∧
      s.made f = some p.peer := by
  have ht := reachable_talks h
  have hm := reachable_making h
  have hout : ∀ q, (s.loc q).pc.inLoop = false := by
    intro q
    rcases p.eq_or_eq_peer q with rfl | rfl
    · exact hp
    · exact (ht.both p).notInLoop hp
  have hwaits : ∀ q, (∃ f, (s.loc q).pc = .openFifo f) ∨ (s.loc q).pc = .exited := by
    intro q
    rcases exists_act q hstuck with h | h | h | h
    · exact .inl h
    · exact .inr h
    · exact absurd (hout q) (by simp [h, Pc.inLoop])
    · exact absurd (hout q) (by simp [h.1, Pc.inLoop])
  by_cases hexit : ∃ q, (s.loc q).pc = .exited
  · obtain ⟨q, hq⟩ := hexit
    obtain ⟨hne, -, f, hf⟩ := hm.failed q hq
    obtain ⟨f', hf'⟩ := (hwaits q.peer).resolve_right hne
    cases f' with
    | fifo1 => exact ⟨q, f, hq, hf', hf⟩
    | fifo2 =>
        have := hm.together q.peer hf'
        rw [q.peer_peer] at this
        exact absurd (hq.symm.trans this) (by simp)
  · -- both are in an `open`, and of the same FIFO
    have hopen : ∀ q, ∃ f, (s.loc q).pc = .openFifo f :=
      fun q => (hwaits q).resolve_right fun h => hexit ⟨q, h⟩
    by_cases hsecond : ∃ q, (s.loc q).pc = .openFifo .fifo2
    · obtain ⟨q, hq⟩ := hsecond
      refine absurd (.openSecond fun r => ?_) (hstuck _)
      rcases q.eq_or_eq_peer r with rfl | rfl
      · exact hq
      · exact hm.together q hq
    · refine absurd (.openFirst fun r => ?_) (hstuck _)
      obtain ⟨f, hf⟩ := hopen r
      cases f with
      | fifo1 => exact hf
      | fifo2 => exact absurd ⟨r, hf⟩ hsecond

/-- **When the chat stands still.** Both are gone; or one of them lost the race for
a FIFO and the other waits for it in its first `open`; or both are there, and one
of them has sent an empty message. -/
theorem chat_stuck_iff (h : chat.Reachable s) :
    (∀ s', ¬ Act s s') ↔
      (∀ p, (s.loc p).pc = .gone) ∨
      (∃ p f, (s.loc p).pc = .exited ∧ (s.loc p.peer).pc = .openFifo .fifo1 ∧
        s.made f = some p.peer) ∨
      ((∀ p, (s.loc p).pc.inLoop = true ∧ (s.loc p).pc ≠ .gone) ∧
        ∃ p, [] ∈ (s.loc p).sent) := by
  have ht := reachable_talks h
  constructor
  · intro hstuck
    by_cases hloop : ∃ p, (s.loc p).pc.inLoop = false
    · obtain ⟨p, hp⟩ := hloop
      exact .inr (.inl (stuck_before_loop h hstuck hp))
    have hin : ∀ p, (s.loc p).pc.inLoop = true := by
      intro p
      rw [← Bool.not_eq_false]
      exact fun hp => hloop ⟨p, hp⟩
    have hwaits : ∀ p, (s.loc p).pc = .gone ∨
        (s.loc p).pc = .read ∧ s.pipe p = [] ∧ (s.loc p.peer).pc ≠ .gone := by
      intro p
      rcases exists_act p hstuck with ⟨f, h⟩ | h | h | h
      · exact absurd (hin p) (by simp [h, Pc.inLoop])
      · exact absurd (hin p) (by simp [h, Pc.inLoop])
      · exact .inl h
      · exact .inr h
    rcases hwaits .A with hA | ⟨hA, hpA, hB⟩
    · left
      intro p
      rcases Party.A.eq_or_eq_peer p with rfl | rfl
      · exact hA
      · exact (hwaits Party.A.peer).resolve_right fun h => h.2.2 hA
    · obtain ⟨hB, hpB, -⟩ := (hwaits Party.A.peer).resolve_left hB
      refine .inr (.inr ⟨fun p => ⟨hin p, ?_⟩, ?_⟩)
      · rcases Party.A.eq_or_eq_peer p with rfl | rfl
        · simp [hA]
        · simp [hB]
      · rcases (ht .A).quiet hA hB hpA hpB with h | h
        · exact ⟨_, h⟩
        · exact ⟨_, h⟩
  · rintro hcase s' hact
    rcases hcase with hgone | ⟨p, f, hp, hpeer, -⟩ | ⟨hin, q, hq⟩
    · rcases hact.enabled with ⟨p, hp⟩ | ⟨f, hf⟩
      · simp [hgone, Pc.hasTurn] at hp
      · simpa [hgone] using hf .A
    · rcases hact.enabled with ⟨q, hq⟩ | ⟨f', hf'⟩
      · rcases p.eq_or_eq_peer q with rfl | rfl
        · simp [hp, Pc.hasTurn] at hq
        · simp [hpeer, Pc.hasTurn] at hq
      · simpa [hp] using hf' p
    · -- after an empty message both wait for the other
      have hwait : ∀ p, s.pipe p = [] ∧ (s.loc p).pc.hasTurn = false := by
        intro p
        refine (ht p).ended ?_ (hin p).2
        rcases p.eq_or_eq_peer q with rfl | rfl
        · exact .inl hq
        · exact .inr hq
      rcases hact.enabled with ⟨p, hp | hp | ⟨-, hp | hp⟩⟩ | ⟨f, hf⟩
      · obtain ⟨f, hf | hf⟩ := hp <;> exact absurd (hin p).1 (by simp [hf, Pc.inLoop])
      · exact absurd ((hwait p).2.symm.trans hp) (by simp)
      · exact hp (hwait p).1
      · exact (hin p.peer).2 hp
      · exact absurd (hin .A).1 (by simp [hf .A, Pc.inLoop])

/-- Both find no `fifo1`; A makes it before B does, so B exits and A waits for it
forever. -/
theorem chat_stuck_by_race : ∃ s : State, chat.Reachable s ∧
    (s.loc .B).pc = .exited ∧ ∀ s', ¬ Act s s' := by
  have h₀ : chat.Reachable ⟨fun _ => ⟨.access .fifo1, [], []⟩, fun _ => [], fun _ => false,
      fun _ => none⟩ := .init ⟨fun _ => rfl, fun _ => rfl, fun _ => rfl⟩
  have h₁ := h₀.step (.act (.missing .A .fifo1 rfl rfl))
  have h₂ := h₁.step (.act (.missing .B .fifo1 rfl rfl))
  have h₃ := h₂.step (.act (.mkfifo .A .fifo1 rfl rfl))
  have h₄ := h₃.step (.act (.mkfifoFails .B .fifo1 rfl rfl))
  have h₅ := h₄.step (.act (.missing .A .fifo2 rfl rfl))
  have h₆ := h₅.step (.act (.mkfifo .A .fifo2 rfl rfl))
  exact ⟨_, h₆, rfl, (chat_stuck_iff h₆).mpr (.inr (.inl ⟨.B, .fifo1, rfl, rfl, rfl⟩))⟩

end LinuxServer.Chat
