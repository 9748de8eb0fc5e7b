import LinuxServer.Framework.Decimal
import LinuxServer.Framework.Reachability

/-!
# Client and server over UDP

Each client sends a numbered greeting and waits for the answer; the server sends
every datagram back to where it came from. Both sides send the terminator along
with the text. Datagrams may get lost and may overtake each other.

- §1 the programs
- §2 one client's datagrams
- §3 results
-/

namespace LinuxServer.Udp

open LinuxServer.Framework

/-! ## §1  The programs -/

/-- `char recvbuf[128]` and `char sendBuf[128]`. -/
abbrev UdpBuf : Type := Buf Byte 128

/-- `"hello , i am client %d \n"`. -/
def greeting (num : ℕ) : List Byte :=
  literal "hello , i am client " ++ decimal num ++ literal " \n"

/-- `sprintf(sendBuf, "hello , i am client %d \n", num)`; `none` where it writes behind
the end of `sendBuf`. -/
def sprintf (sendBuf : UdpBuf) (num : ℕ) : Option UdpBuf :=
  if h : (greeting num ++ [NUL]).length ≤ 128 then some (sendBuf.overwrite _ h) else none

/-- What `sendto` sends of `strlen(buf) + 1` bytes; `none` where `strlen` finds no
terminator. -/
def datagram (buf : UdpBuf) : Option (List Byte) := (upTo NUL buf.cells).map (· ++ [NUL])

theorem length_received (data : List Byte) : (data.take 128).length ≤ 128 :=
  List.length_take_le 128 data

/-- `buf` after `recvfrom`; what does not fit is dropped. -/
def recvfrom (buf : UdpBuf) (data : List Byte) : UdpBuf :=
  buf.overwrite (data.take 128) (length_received data)

structure Client where
  /-- In `recvfrom`, and not before `sendto`. -/
  waiting : Bool
  num : ℕ
  sendBuf : UdpBuf
  /-- The texts of `printf("server say : %s\n", sendBuf)`. -/
  shown : List (Option (List Byte))

structure State (ι : Type) where
  clients : ι → Client
  recvbuf : UdpBuf
  /-- `cliaddr` between `recvfrom` and `sendto` of the server. -/
  cliaddr : Option ι
  requests : List (ι × List Byte)
  replies : ι → List (List Byte)
  -- kept for the statements: whose datagram got lost
  lost : ι → Bool

variable {ι : Type} [DecidableEq ι]

/-- A statement of one of the programs. `num++` is undefined at the largest `int`; the
second `num` of the client is another variable. -/
inductive Act : State ι → State ι → Prop where
  | send {s : State ι} (i : ι) (hpc : (s.clients i).waiting = false)
      (hnum : (s.clients i).num < 2 ^ 31 - 1) (buf : UdpBuf)
      (hbuf : sprintf (s.clients i).sendBuf (s.clients i).num = some buf) (data : List Byte)
      (hdata : datagram buf = some data) :
      Act s { s with
        clients := Function.update s.clients i
          { s.clients i with waiting := true, num := (s.clients i).num + 1, sendBuf := buf }
        requests := s.requests ++ [(i, data)] }
  | receive {s : State ι} (i : ι) (hpc : (s.clients i).waiting = true)
      (before after : List (List Byte)) (data : List Byte)
      (hreply : s.replies i = before ++ data :: after) :
      Act s { s with
        clients := Function.update s.clients i
          { s.clients i with
            waiting := false
            sendBuf := recvfrom (s.clients i).sendBuf data
            shown := (s.clients i).shown ++
              [upTo NUL (recvfrom (s.clients i).sendBuf data).cells] }
        replies := Function.update s.replies i (before ++ after) }
  | serverReceives {s : State ι} (hpc : s.cliaddr = none) (i : ι)
      (before after : List (ι × List Byte)) (data : List Byte)
      (hrequest : s.requests = before ++ (i, data) :: after) :
      Act s { s with
        recvbuf := recvfrom s.recvbuf data
        cliaddr := some i
        requests := before ++ after }
  | serverSends {s : State ι} (i : ι) (hpc : s.cliaddr = some i) (data : List Byte)
      (hdata : datagram s.recvbuf = some data) :
      Act s { s with
        cliaddr := none
        replies := Function.update s.replies i (s.replies i ++ [data]) }

/-- The programs run, or the network loses a datagram. -/
inductive Step : State ι → State ι → Prop where
  | act {s s' : State ι} (h : Act s s') : Step s s'
  | loseRequest {s : State ι} (i : ι) (before after : List (ι × List Byte)) (data : List Byte)
      (hrequest : s.requests = before ++ (i, data) :: after) :
      Step s { s with
        requests := before ++ after, lost := Function.update s.lost i true }
  | loseReply {s : State ι} (i : ι) (before after : List (List Byte)) (data : List Byte)
      (hreply : s.replies i = before ++ data :: after) :
      Step s { s with
        replies := Function.update s.replies i (before ++ after)
        lost := Function.update s.lost i true }

/-- Nothing was sent yet; the buffers hold anything. -/
def Start (s : State ι) : Prop :=
  (∀ i, (s.clients i).waiting = false ∧ (s.clients i).num = 0 ∧ (s.clients i).shown = []) ∧
    s.cliaddr = none ∧ s.requests = [] ∧ (∀ i, s.replies i = []) ∧ ∀ i, s.lost i = false

def network : System (State ι) where
  init := Start
  step := Step

/-! ## §2  One client's datagrams -/

theorem greeting_no_nul (num : ℕ) : NUL ∉ greeting num := by
  unfold greeting
  simp only [List.mem_append, not_or]
  exact ⟨⟨by decide, decimal_no_nul _⟩, by decide⟩

/-- A greeting fits, whatever the number. -/
theorem greeting_length {num : ℕ} (h : num < 2 ^ 31) : (greeting num ++ [NUL]).length ≤ 128 := by
  have hdecimal : (decimal num).length ≤ 11 := decimal_length_le (by decide) (by omega)
  have h₁ : (literal "hello , i am client ").length = 20 := by decide
  have h₂ : (literal " \n").length = 2 := by decide
  simp only [greeting, List.length_append, List.length_singleton, h₁, h₂]
  omega

/-- The text of a greeting that arrives with its terminator. -/
theorem upTo_recvfrom {num : ℕ} (h : num < 2 ^ 31) (buf : UdpBuf) :
    upTo NUL (recvfrom buf (greeting num ++ [NUL])).cells = some (greeting num) := by
  have htake : (greeting num ++ [NUL]).take 128 = greeting num ++ [NUL] :=
    List.take_of_length_le (greeting_length h)
  unfold recvfrom
  simp only [htake]
  exact overwrite_terminated (greeting_no_nul num)

/-- What `sendto` sends after `sprintf`. -/
theorem datagram_sprintf {buf buf' : UdpBuf} {num : ℕ} (h : sprintf buf num = some buf') :
    datagram buf' = some (greeting num ++ [NUL]) := by
  unfold sprintf at h
  split at h
  · cases h
    rw [datagram, overwrite_terminated (greeting_no_nul num)]
    rfl
  · cases h

/-- The datagrams of the client `i` that are under way, the one the server holds
included. -/
def State.flight (s : State ι) (i : ι) : List (List Byte) :=
  (s.requests.filter (·.1 = i)).map Prod.snd ++
    (if s.cliaddr = some i then [(datagram s.recvbuf).getD []] else []) ++ s.replies i

/-- A client that waits has one datagram under way or has lost it. -/
structure Talks (c : Client) (flight : List (List Byte)) (lost : Bool) : Prop where
  num : c.num < 2 ^ 31
  flight : flight =
    if c.waiting = true ∧ lost = false then [greeting (c.num - 1) ++ [NUL]] else []
  lost : lost = true → c.waiting = true
  waiting : c.waiting = true → 0 < c.num
  shown : c.shown = (List.range (c.num - c.waiting.toNat)).map fun k => some (greeting k)

def Inv (s : State ι) : Prop := ∀ i, Talks (s.clients i) (s.flight i) (s.lost i)

variable {s s' : State ι} {i : ι}

omit [DecidableEq ι] in
theorem Talks.sole {c : Client} {lost : Bool} {before after : List (List Byte)}
    {data : List Byte} (h : Talks c (before ++ data :: after) lost) :
    c.waiting = true ∧ lost = false ∧ data = greeting (c.num - 1) ++ [NUL] ∧
      before = [] ∧ after = [] := by
  have hflight := h.flight
  split at hflight
  · rename_i hone
    cases before with
    | nil =>
        injection hflight with hdata hafter
        exact ⟨hone.1, hone.2, hdata, rfl, hafter⟩
    | cons x before => simp at hflight
  · simp at hflight

/-- Requests of other clients do not count. -/
theorem filter_other {j : ι} (hj : j ≠ i) (before after : List (ι × List Byte))
    (data : List Byte) :
    (before ++ (i, data) :: after).filter (·.1 = j) = (before ++ after).filter (·.1 = j) := by
  simp [Ne.symm hj]

theorem filter_self (before after : List (ι × List Byte)) (data : List Byte) :
    ((before ++ (i, data) :: after).filter (·.1 = i)).map Prod.snd =
      (before.filter (·.1 = i)).map Prod.snd ++ data :: (after.filter (·.1 = i)).map Prod.snd := by
  simp

/-- A request that is there is the only datagram of its client under way. -/
theorem Inv.request {before after : List (ι × List Byte)} {data : List Byte} (hi : Inv s)
    (h : s.requests = before ++ (i, data) :: after) :
    (s.clients i).waiting = true ∧ s.lost i = false ∧
      data = greeting ((s.clients i).num - 1) ++ [NUL] ∧
      ((before ++ after).filter (·.1 = i)).map Prod.snd = [] ∧ s.cliaddr ≠ some i ∧
      s.replies i = [] := by
  have ht := hi i
  rw [State.flight, h, filter_self, List.append_assoc, List.append_assoc, List.cons_append] at ht
  obtain ⟨hwaiting, hlost, hdata, hbefore, hafter⟩ := ht.sole
  simp only [List.append_eq_nil_iff] at hafter
  obtain ⟨hafter, hheld, hreplies⟩ := hafter
  refine ⟨hwaiting, hlost, hdata, ?_, fun hc => ?_, hreplies⟩
  · rw [List.filter_append, List.map_append, hbefore, hafter]
    rfl
  · simp [hc] at hheld

/-- And so is a reply. -/
theorem Inv.reply {before after : List (List Byte)} {data : List Byte} (hi : Inv s)
    (h : s.replies i = before ++ data :: after) :
    (s.clients i).waiting = true ∧ s.lost i = false ∧
      data = greeting ((s.clients i).num - 1) ++ [NUL] ∧ before ++ after = [] ∧
      (s.requests.filter (·.1 = i)).map Prod.snd = [] ∧ s.cliaddr ≠ some i := by
  have ht := hi i
  rw [State.flight, h, ← List.append_assoc] at ht
  obtain ⟨hwaiting, hlost, hdata, hbefore, hafter⟩ := ht.sole
  simp only [List.append_eq_nil_iff] at hbefore
  obtain ⟨⟨hrequests, hheld⟩, hbefore⟩ := hbefore
  refine ⟨hwaiting, hlost, hdata, by rw [hbefore, hafter]; rfl, hrequests, fun hc => ?_⟩
  simp [hc] at hheld

/-- And so is what the server holds. -/
theorem Inv.held (hi : Inv s) (h : s.cliaddr = some i) :
    datagram s.recvbuf = some (greeting ((s.clients i).num - 1) ++ [NUL]) ∧
      (s.clients i).waiting = true ∧ s.lost i = false ∧
      (s.requests.filter (·.1 = i)).map Prod.snd = [] ∧ s.replies i = [] := by
  have ht := hi i
  rw [State.flight, if_pos h, List.append_assoc, List.singleton_append] at ht
  obtain ⟨hwaiting, hlost, hdata, hrequests, hreplies⟩ := ht.sole
  refine ⟨?_, hwaiting, hlost, hrequests, hreplies⟩
  cases hd : datagram s.recvbuf with
  | none =>
      rw [hd] at hdata
      simp at hdata
  | some data =>
      rw [hd] at hdata
      exact congrArg some hdata

/-- Where the datagram of the client stays under way. -/
theorem Talks.carried {c : Client} {flight flight' : List (List Byte)} {lost : Bool}
    (h : Talks c flight lost) (hwaiting : c.waiting = true) (hlost : lost = false)
    (hflight : flight' = [greeting (c.num - 1) ++ [NUL]]) : Talks c flight' lost :=
  ⟨h.num, by rw [hflight, if_pos ⟨hwaiting, hlost⟩], h.lost, h.waiting, h.shown⟩

/-- Where it gets lost. -/
theorem Talks.lose {c : Client} {flight flight' : List (List Byte)} {lost : Bool}
    (h : Talks c flight lost) (hwaiting : c.waiting = true) (hflight : flight' = []) :
    Talks c flight' true :=
  ⟨h.num, by rw [hflight, if_neg (by simp)], fun _ => hwaiting, h.waiting, h.shown⟩

theorem start_inv (h : Start s) : Inv s := by
  obtain ⟨hclients, hcliaddr, hrequests, hreplies, hlost⟩ := h
  intro i
  obtain ⟨hwaiting, hnum, hshown⟩ := hclients i
  refine ⟨by omega, ?_, fun h => ?_, fun h => ?_, ?_⟩
  · simp [State.flight, hrequests, hcliaddr, hreplies, hwaiting]
  · rw [hlost] at h
    cases h
  · rw [hwaiting] at h
    cases h
  · rw [hshown, hnum, hwaiting]
    rfl

theorem send_inv {buf : UdpBuf} {data : List Byte} (hi : Inv s)
    (hpc : (s.clients i).waiting = false) (hnum : (s.clients i).num < 2 ^ 31 - 1)
    (hbuf : sprintf (s.clients i).sendBuf (s.clients i).num = some buf)
    (hdata : datagram buf = some data) :
    Inv { s with
      clients := Function.update s.clients i
        { s.clients i with waiting := true, num := (s.clients i).num + 1, sendBuf := buf }
      requests := s.requests ++ [(i, data)] } := by
  intro j
  by_cases hj : j = i
  · subst hj
    have ht := hi j
    have hempty := ht.flight
    have hlost : s.lost j = false := by
      rw [← Bool.not_eq_true]
      intro h
      rw [ht.lost h] at hpc
      cases hpc
    rw [if_neg (by simp [hpc]), State.flight] at hempty
    simp only [List.append_eq_nil_iff] at hempty
    obtain ⟨⟨hrequests, hheld⟩, hreplies⟩ := hempty
    rw [datagram_sprintf hbuf] at hdata
    simp only [Function.update_self]
    refine ⟨by show _ + 1 < _; omega, ?_, fun _ => rfl, fun _ => Nat.succ_pos _, ?_⟩
    · rw [if_pos ⟨rfl, hlost⟩, State.flight]
      simp [hrequests, hheld, hreplies, ← Option.some.inj hdata]
    · have hshown := ht.shown
      rw [hpc] at hshown
      exact hshown
  · have hflight : State.flight { s with
        clients := Function.update s.clients i
          { s.clients i with waiting := true, num := (s.clients i).num + 1, sendBuf := buf }
        requests := s.requests ++ [(i, data)] } j = s.flight j := by
      simp [State.flight, Ne.symm hj]
    rw [hflight]
    simp only [Function.update_of_ne hj]
    exact hi j

theorem receive_inv {before after : List (List Byte)} {data : List Byte} (hi : Inv s)
    (hreply : s.replies i = before ++ data :: after) :
    Inv { s with
      clients := Function.update s.clients i
        { s.clients i with
          waiting := false
          sendBuf := recvfrom (s.clients i).sendBuf data
          shown := (s.clients i).shown ++
            [upTo NUL (recvfrom (s.clients i).sendBuf data).cells] }
      replies := Function.update s.replies i (before ++ after) } := by
  intro j
  by_cases hj : j = i
  · subst hj
    have ht := hi j
    obtain ⟨hwaiting, hlost, hdata, hrest, hrequests, hheld⟩ := hi.reply hreply
    have hpos := ht.waiting hwaiting
    have hnum := ht.num
    simp only [Function.update_self]
    refine ⟨hnum, ?_, fun h => ?_, fun h => (by cases h), ?_⟩
    · rw [if_neg (by simp), State.flight]
      simp only [Function.update_self, hrequests, hrest, if_neg hheld]
      rfl
    · rw [hlost] at h
      cases h
    · have hshown := ht.shown
      rw [hwaiting] at hshown
      have hrange : (s.clients j).num = (s.clients j).num - 1 + 1 := by omega
      show (s.clients j).shown ++ _ =
        (List.range (s.clients j).num).map fun k => some (greeting k)
      rw [hshown, hdata, upTo_recvfrom (by omega), hrange, List.range_succ, List.map_append]
      rfl
  · have hflight : State.flight { s with
        clients := Function.update s.clients i
          { s.clients i with
            waiting := false
            sendBuf := recvfrom (s.clients i).sendBuf data
            shown := (s.clients i).shown ++
              [upTo NUL (recvfrom (s.clients i).sendBuf data).cells] }
        replies := Function.update s.replies i (before ++ after) } j = s.flight j := by
      simp [State.flight, Function.update_of_ne hj]
    rw [hflight]
    simp only [Function.update_of_ne hj]
    exact hi j

theorem serverReceives_inv {before after : List (ι × List Byte)} {data : List Byte} (hi : Inv s)
    (hpc : s.cliaddr = none) (hrequest : s.requests = before ++ (i, data) :: after) :
    Inv { s with
      recvbuf := recvfrom s.recvbuf data
      cliaddr := some i
      requests := before ++ after } := by
  intro j
  by_cases hj : j = i
  · subst hj
    obtain ⟨hwaiting, hlost, hdata, hrequests, -, hreplies⟩ := hi.request hrequest
    have hnum : (s.clients j).num - 1 < 2 ^ 31 := lt_of_le_of_lt (Nat.sub_le ..) (hi j).num
    refine (hi j).carried hwaiting hlost ?_
    rw [State.flight]
    simp only [hrequests, hreplies, hdata, datagram, upTo_recvfrom hnum]
    simp
  · have hflight : State.flight { s with
        recvbuf := recvfrom s.recvbuf data
        cliaddr := some i
        requests := before ++ after } j = s.flight j := by
      simp [State.flight, hpc, hrequest, Ne.symm hj]
    rw [hflight]
    exact hi j

theorem serverSends_inv {data : List Byte} (hi : Inv s) (hpc : s.cliaddr = some i)
    (hdata : datagram s.recvbuf = some data) :
    Inv { s with
      cliaddr := none
      replies := Function.update s.replies i (s.replies i ++ [data]) } := by
  intro j
  by_cases hj : j = i
  · subst hj
    obtain ⟨hheld, hwaiting, hlost, hrequests, hreplies⟩ := hi.held hpc
    rw [hdata] at hheld
    refine (hi j).carried hwaiting hlost ?_
    rw [State.flight]
    simp [hrequests, hreplies, Option.some.inj hheld]
  · have hflight : State.flight { s with
        cliaddr := none
        replies := Function.update s.replies i (s.replies i ++ [data]) } j = s.flight j := by
      simp [State.flight, hpc, Function.update_of_ne hj, Ne.symm hj]
    rw [hflight]
    exact hi j

theorem act_inv (hi : Inv s) (h : Act s s') : Inv s' := by
  cases h with
  | send i hpc hnum buf hbuf data hdata => exact send_inv hi hpc hnum hbuf hdata
  | receive i hpc before after data hreply => exact receive_inv hi hreply
  | serverReceives hpc i before after data hrequest =>
      exact serverReceives_inv hi hpc hrequest
  | serverSends i hpc data hdata => exact serverSends_inv hi hpc hdata

theorem step_inv (hi : Inv s) (h : Step s s') : Inv s' := by
  cases h with
  | act h => exact act_inv hi h
  | loseRequest i before after data hrequest =>
      obtain ⟨hwaiting, -, -, hrequests, hheld, hreplies⟩ := hi.request hrequest
      intro j
      by_cases hj : j = i
      · subst hj
        simp only [Function.update_self]
        refine (hi j).lose hwaiting ?_
        rw [State.flight]
        simp only [hrequests, hreplies, if_neg hheld]
        rfl
      · simp only [Function.update_of_ne hj]
        have ht := hi j
        rw [State.flight, hrequest, filter_other hj] at ht
        exact ht
  | loseReply i before after data hreply =>
      obtain ⟨hwaiting, -, -, hrest, hrequests, hheld⟩ := hi.reply hreply
      intro j
      by_cases hj : j = i
      · subst hj
        simp only [Function.update_self]
        refine (hi j).lose hwaiting ?_
        rw [State.flight]
        simp only [hrequests, Function.update_self, hrest, if_neg hheld]
        rfl
      · simp only [Function.update_of_ne hj]
        have hflight : State.flight { s with
            replies := Function.update s.replies i (before ++ after)
            lost := Function.update s.lost i true } j = s.flight j := by
          simp [State.flight, Function.update_of_ne hj]
        rw [hflight]
        exact hi j

theorem reachable_inv (h : network.Reachable s) : Inv s := by
  apply System.invariant (I := Inv) _ _ h
  · intro _ h0
    exact start_inv h0
  · intro _ _ _ hi hst
    exact step_inv hi hst

/-! ## §3  Results -/

/-- A program that has nothing to do is in `recvfrom`, and nothing is on its way to it. -/
theorem lost_of_stuck (hi : Inv s) (h : ∀ s', ¬ Act s s') (i : ι) :
    s.lost i = true ∨ (s.clients i).waiting = false ∧ (s.clients i).num = 2 ^ 31 - 1 := by
  have ht := hi i
  cases hwaiting : (s.clients i).waiting with
  | false =>
      right
      refine ⟨rfl, ?_⟩
      by_contra hne
      have hnum := ht.num
      have hbuf : sprintf (s.clients i).sendBuf (s.clients i).num = some _ :=
        dif_pos (greeting_length hnum)
      exact h _ (.send i hwaiting (by omega) _ hbuf _ (datagram_sprintf hbuf))
  | true =>
      left
      by_contra hlost
      have hflight := ht.flight
      rw [if_pos ⟨hwaiting, by simpa using hlost⟩, State.flight] at hflight
      -- the datagram is with the server, or in front of it, or in front of the client
      cases hcliaddr : s.cliaddr with
      | some j => exact h _ (.serverSends j hcliaddr _ (hi.held hcliaddr).1)
      | none =>
          cases hrequests : s.requests with
          | cons request rest =>
              exact h _ (.serverReceives hcliaddr request.1 [] rest request.2 hrequests)
          | nil =>
              rw [hrequests, hcliaddr] at hflight
              exact h _ (.receive i hwaiting [] [] _ hflight)

/-- Conversely, nothing moves where every client has lost its datagram or has used
up its numbers. -/
theorem stuck_of_lost (hi : Inv s)
    (h : ∀ i, s.lost i = true ∨ (s.clients i).waiting = false ∧ (s.clients i).num = 2 ^ 31 - 1)
    (s' : State ι) : ¬ Act s s' := by
  -- so no datagram is under way
  have hnone : ∀ i, (s.clients i).waiting = true → s.lost i = false → False := by
    intro i hwaiting hlost
    rcases h i with h | ⟨h, -⟩
    · exact Bool.noConfusion (h.symm.trans hlost)
    · exact Bool.noConfusion (h.symm.trans hwaiting)
  intro hact
  cases hact with
  | send i hpc hnum =>
      rcases h i with hlost | ⟨-, hlast⟩
      · rw [(hi i).lost hlost] at hpc
        cases hpc
      · omega
  | receive i hpc before after data hreply =>
      obtain ⟨hwaiting, hlost, -⟩ := hi.reply hreply
      exact hnone i hwaiting hlost
  | serverReceives hpc i before after data hrequest =>
      obtain ⟨hwaiting, hlost, -⟩ := hi.request hrequest
      exact hnone i hwaiting hlost
  | serverSends i hpc =>
      obtain ⟨-, hwaiting, hlost, -⟩ := hi.held hpc
      exact hnone i hwaiting hlost

/-- A client that has lost its datagram stays where it is. -/
theorem lost_step (hi : Inv s) (hlost : s.lost i = true) (h : Step s s') :
    s'.lost i = true ∧ s'.clients i = s.clients i := by
  have hsome : ∀ j, s.lost j = false → i ≠ j := by
    rintro j hj rfl
    rw [hlost] at hj
    cases hj
  cases h with
  | act h =>
      cases h with
      | send j hpc =>
          have hne : i ≠ j := by
            rintro rfl
            rw [(hi i).lost hlost] at hpc
            cases hpc
          exact ⟨hlost, Function.update_of_ne hne ..⟩
      | receive j hpc before after data hreply =>
          exact ⟨hlost, Function.update_of_ne (hsome j (hi.reply hreply).2.1) ..⟩
      | serverReceives | serverSends => exact ⟨hlost, rfl⟩
  | loseRequest j before after data hrequest =>
      have hne := hsome j (hi.request hrequest).2.1
      exact ⟨(Function.update_of_ne hne ..).trans hlost, rfl⟩
  | loseReply j before after data hreply =>
      have hne := hsome j (hi.reply hreply).2.1
      exact ⟨(Function.update_of_ne hne ..).trans hlost, rfl⟩

theorem lost_later (hi : Inv s) (hlost : s.lost i = true)
    (h : (network.later s).Reachable s') :
    s'.lost i = true ∧ s'.clients i = s.clients i := by
  have hboth : Inv s' ∧ s'.lost i = true ∧ s'.clients i = s.clients i := by
    refine System.later_invariant (M := network)
      (I := fun s' => Inv s' ∧ s'.lost i = true ∧ s'.clients i = s.clients i)
      ⟨hi, hlost, rfl⟩ ?_ h
    rintro s₁ s₂ ⟨hi₁, hlost₁, hclient₁⟩ hst
    obtain ⟨hlost₂, hclient₂⟩ := lost_step hi₁ hlost₁ hst
    exact ⟨step_inv hi₁ hst, hlost₂, hclient₂.trans hclient₁⟩
  exact hboth.2

/-- **Each client is shown its own greetings**, one after the other, whatever the other
clients do and the network loses. But there is no timeout: a client that has lost a
datagram never moves again, and nothing moves any more iff every client has lost one
or has used up its numbers. -/
theorem udp_clients_shown_own (h : network.Reachable s) :
    (∀ i, (s.clients i).shown =
      (List.range ((s.clients i).num - (s.clients i).waiting.toNat)).map
        fun k => some (greeting k)) ∧
    (∀ i, s.lost i = true → ∀ s', (network.later s).Reachable s' →
      s'.lost i = true ∧ s'.clients i = s.clients i) ∧
    ((∀ s', ¬ Act s s') ↔ ∀ i, s.lost i = true ∨
      (s.clients i).waiting = false ∧ (s.clients i).num = 2 ^ 31 - 1) := by
  have hi := reachable_inv h
  refine ⟨fun i => (hi i).shown, fun i hlost s' hlater => lost_later hi hlost hlater, ?_⟩
  exact ⟨lost_of_stuck hi, fun h => stuck_of_lost hi h⟩

/-- Nothing is under way, and the server waits for a request. -/
structure Calm (s : State ι) : Prop where
  server : s.cliaddr = none
  requests : s.requests = []
  replies : ∀ i, s.replies i = []

/-- A client that is not waiting can send. -/
theorem send_reachable (h : network.Reachable s) (hpc : (s.clients i).waiting = false)
    (hnum : (s.clients i).num < 2 ^ 31 - 1) :
    ∃ c : Client, c.waiting = true ∧ c.num = (s.clients i).num + 1 ∧ network.Reachable { s with
      clients := Function.update s.clients i c
      requests := s.requests ++ [(i, greeting (s.clients i).num ++ [NUL])] } := by
  have hbuf : sprintf (s.clients i).sendBuf (s.clients i).num = some _ :=
    dif_pos (greeting_length (by omega))
  exact ⟨_, rfl, rfl, h.step (.act (.send i hpc hnum _ hbuf _ (datagram_sprintf hbuf)))⟩

/-- A greeting comes back. -/
theorem greets (h : network.Reachable s) (hcalm : Calm s)
    (hpc : (s.clients i).waiting = false) (hnum : (s.clients i).num < 2 ^ 31 - 1) :
    ∃ s', network.Reachable s' ∧ Calm s' ∧ (s'.clients i).waiting = false ∧
      (s'.clients i).num = (s.clients i).num + 1 ∧
      (∀ j, j ≠ i → s'.clients j = s.clients j) ∧ s'.lost = s.lost := by
  obtain ⟨c, hwaiting, hc, h₁⟩ := send_reachable h hpc hnum
  simp only [hcalm.requests, List.nil_append] at h₁
  have h₂ := h₁.step (.act (.serverReceives (by exact hcalm.server) i [] [] _ rfl))
  have h₃ := h₂.step (.act (.serverSends i rfl (greeting (s.clients i).num ++ [NUL]) (by
    rw [datagram, upTo_recvfrom (by omega)]
    rfl)))
  simp only [hcalm.replies, List.nil_append] at h₃
  have h₄ := h₃.step (.act (.receive i (by simp [hwaiting]) [] []
    (greeting (s.clients i).num ++ [NUL]) (by simp)))
  refine ⟨_, h₄, ⟨rfl, rfl, fun j => ?_⟩, by simp, by simp [hc], fun j hj => by simp [hj], rfl⟩
  by_cases hj : j = i
  · subst hj
    simp
  · simp [hj, hcalm.replies]

/-- A greeting gets lost. -/
theorem loses (h : network.Reachable s) (hcalm : Calm s)
    (hpc : (s.clients i).waiting = false) (hnum : (s.clients i).num < 2 ^ 31 - 1) :
    ∃ s', network.Reachable s' ∧ Calm s' ∧ (s'.clients i).waiting = true ∧
      (s'.clients i).num = (s.clients i).num + 1 ∧
      (∀ j, j ≠ i → s'.clients j = s.clients j) ∧ s'.lost = Function.update s.lost i true := by
  obtain ⟨c, hwaiting, hc, h₁⟩ := send_reachable h hpc hnum
  simp only [hcalm.requests, List.nil_append] at h₁
  have h₂ := h₁.step (.loseRequest i [] [] _ rfl)
  exact ⟨_, h₂, ⟨hcalm.server, rfl, hcalm.replies⟩, by simp [hwaiting], by simp [hc],
    fun j hj => by simp [hj], rfl⟩

/-- Of two clients each gets its first greeting back and loses the second. -/
theorem udp_second_greetings_lost : ∃ s : State Bool, network.Reachable s ∧
    (∀ i, (s.clients i).shown = [some (greeting 0)]) ∧
    (∀ i s', (network.later s).Reachable s' → s'.clients i = s.clients i) ∧
    ∀ s', ¬ Act s s' := by
  have h₀ : network.Reachable (σ := State Bool)
      ⟨fun _ => ⟨false, 0, Buf.fill NUL 128, []⟩, Buf.fill NUL 128, none, [], fun _ => [],
        fun _ => false⟩ :=
    .init ⟨fun _ => ⟨rfl, rfl, rfl⟩, rfl, rfl, fun _ => rfl, fun _ => rfl⟩
  obtain ⟨s₁, h₁, hcalm₁, hpc₁, hnum₁, hsame₁, -⟩ := greets (i := false) h₀
    ⟨rfl, rfl, fun _ => rfl⟩ rfl (by decide)
  have htrue₁ := hsame₁ true (by decide)
  obtain ⟨s₂, h₂, hcalm₂, hpc₂, hnum₂, hsame₂, -⟩ := greets (i := true) h₁ hcalm₁
    (by rw [htrue₁]) (by rw [htrue₁]; decide)
  have hfalse₂ := hsame₂ false (by decide)
  obtain ⟨s₃, h₃, hcalm₃, hpc₃, hnum₃, hsame₃, hlost₃⟩ := loses (i := false) h₂ hcalm₂
    (by rw [hfalse₂, hpc₁]) (by rw [hfalse₂, hnum₁]; decide)
  have htrue₃ := hsame₃ true (by decide)
  obtain ⟨s₄, h₄, -, hpc₄, hnum₄, hsame₄, hlost₄⟩ := loses (i := true) h₃ hcalm₃
    (by rw [htrue₃, hpc₂]) (by rw [htrue₃, hnum₂, htrue₁]; decide)
  have hfalse₄ := hsame₄ false (by decide)
  obtain ⟨hshown, hstays, hstuck⟩ := udp_clients_shown_own h₄
  have hlost : ∀ i, s₄.lost i = true := by
    intro i
    rw [hlost₄, hlost₃]
    cases i with
    | false => rfl
    | true => rfl
  refine ⟨s₄, h₄, fun i => (hshown i).trans ?_, fun i s' hlater => (hstays i (hlost i) s' hlater).2,
    hstuck.mpr fun i => .inl (hlost i)⟩
  have hone : (s₄.clients i).num - (s₄.clients i).waiting.toNat = 1 := by
    cases i with
    | false =>
        rw [hfalse₄, hpc₃, hnum₃, hfalse₂, hnum₁]
        rfl
    | true =>
        rw [hpc₄, hnum₄, htrue₃, hnum₂, htrue₁]
        rfl
  rw [hone]
  rfl

end LinuxServer.Udp
