import LinuxServer.Framework.Reachability
import LinuxServer.Framework.Threads

/-!
# Selling tickets

Threads that sell tickets from one counter, in two programs: `sellticket`
without protection, and `sellticket` with a mutex around the test, the `printf`
and the decrement. One step is one statement, and `tickets--` is a load and a
store.

- §1 the two programs
- §2 the invariant with the mutex
- §3 every run ends, with every ticket sold once
- §4 without the mutex a ticket is sold twice
-/

namespace LinuxServer.Tickets

open LinuxServer.Framework

/-! ## §1  The two programs -/

inductive Version where
  | unprotected
  | mutex
deriving DecidableEq

inductive Pc where
  | lock
  /-- `tickets > 0`. -/
  | test
  | print
  /-- `tickets--`, the read. -/
  | load
  /-- `tickets--`, the write. -/
  | store
  | unlock
  /-- The unlock in the `else`, before the `break`. -/
  | release
  | done
deriving DecidableEq

structure Local where
  pc : Pc
  reg : ℤ

/-- The line a thread prints: the ticket and the thread. -/
structure Line (τ : Type) where
  tid : τ
  ticket : ℤ
deriving DecidableEq

structure Shared (τ : Type) where
  mutex : Option τ
  tickets : ℤ
  out : List (Line τ)

/-- The first statement of the loop. -/
def Version.loopStart : Version → Pc
  | .unprotected => .test
  | .mutex => .lock

/-- Where the loop goes when no ticket is left. -/
def Version.soldOut : Version → Pc
  | .unprotected => .done
  | .mutex => .release

/-- What follows `tickets--`. -/
def Version.afterSale : Version → Pc
  | .unprotected => .test
  | .mutex => .unlock

variable {τ : Type}

/-- One statement of the thread `me`; `none` where it blocks or has returned. -/
def sellticket (v : Version) (me : τ) (sh : Shared τ) (l : Local) :
    Option (Shared τ × Local) :=
  match l.pc with
  | .lock =>
      match sh.mutex with
      | none => some ({ sh with mutex := some me }, { l with pc := .test })
      | some _ => none
  | .test =>
      if 0 < sh.tickets then some (sh, { l with pc := .print })
      else some (sh, { l with pc := v.soldOut })
  | .print => some ({ sh with out := sh.out ++ [⟨me, sh.tickets⟩] }, { l with pc := .load })
  | .load => some (sh, ⟨.store, sh.tickets⟩)
  | .store => some ({ sh with tickets := l.reg - 1 }, { l with pc := v.afterSale })
  | .unlock => some ({ sh with mutex := none }, { l with pc := .lock })
  | .release => some ({ sh with mutex := none }, { l with pc := .done })
  | .done => none

structure State (τ : Type) where
  threads : τ → Local
  sh : Shared τ

variable [DecidableEq τ]

inductive Step (v : Version) : State τ → State τ → Prop where
  | run {s : State τ} (t : τ) (sh : Shared τ) (l : Local)
      (h : sellticket v t s.sh (s.threads t) = some (sh, l)) :
      Step v s ⟨Function.update s.threads t l, sh⟩

/-- `total` tickets and no thread has run yet. -/
def Start (v : Version) (total : ℕ) (s : State τ) : Prop :=
  s.sh = ⟨none, total, []⟩ ∧ ∀ t, (s.threads t).pc = v.loopStart

/-- The program with `total` tickets; the sources have 100 of them without the
mutex and 1000 with it. -/
def sale (v : Version) (total : ℕ) : System (State τ) where
  init := Start v total
  step := Step v

/-! ## §2  The invariant with the mutex -/

/-- The tickets from `total` down to the one above `left`. -/
def countdown (total left : ℕ) : List ℤ :=
  (List.range (total - left)).map fun i : ℕ => (total : ℤ) - (i : ℤ)

theorem countdown_succ {total left : ℕ} (h : left < total) :
    countdown total left = countdown total (left + 1) ++ [(left + 1 : ℤ)] := by
  unfold countdown
  have hlen : total - left = (total - (left + 1)) + 1 := by omega
  rw [hlen, List.range_succ, List.map_append, List.map_singleton]
  congr 2
  omega

def Shared.sold (sh : Shared τ) : List ℤ := sh.out.map Line.ticket

def Local.Critical (l : Local) : Prop :=
  l.pc ≠ .lock ∧ l.pc ≠ .done

/-- What the owner of the mutex finds with `left` tickets on the counter. -/
def Finds (total : ℕ) (l : Local) (sh : Shared τ) (left : ℕ) : Prop :=
  match l.pc with
  | .print => 0 < left ∧ sh.sold = countdown total left
  | .load => 0 < left ∧ sh.sold = countdown total (left - 1)
  | .store => 0 < left ∧ l.reg = left ∧ sh.sold = countdown total (left - 1)
  | .release => left = 0 ∧ sh.sold = countdown total left
  | _ => sh.sold = countdown total left

structure Inv (total : ℕ) (s : State τ) : Prop where
  exclusive : Exclusive Local.Critical s.threads s.sh.mutex
  counter : ∃ left : ℕ, s.sh.tickets = left ∧ left ≤ total ∧
    (s.sh.mutex = none → s.sh.sold = countdown total left) ∧
    (∀ t, s.sh.mutex = some t → Finds total (s.threads t) s.sh left)
  ended : ∀ t, (s.threads t).pc = .done → s.sh.tickets = 0

variable {total : ℕ} {s s' : State τ} {t : τ}

omit [DecidableEq τ] in
theorem start_inv (h : Start .mutex total s) : Inv total s := by
  obtain ⟨hsh, hpc⟩ := h
  refine ⟨fun t => ?_, ⟨total, ?_, le_refl _, fun _ => ?_, fun t ht => ?_⟩, fun t ht => ?_⟩
  · unfold Local.Critical
    rw [hpc t, hsh]
    simp [Version.loopStart]
  · rw [hsh]
  · rw [hsh]
    simp [Shared.sold, countdown]
  · rw [hsh] at ht
    cases ht
  · rw [hpc t] at ht
    cases ht

section Statement

variable {sh sh' : Shared τ} {l l' : Local} {left : ℕ}

omit [DecidableEq τ] in
/-- The statements between the two mutex calls, one by one. -/
theorem finds_sellticket (h : sellticket .mutex t sh l = some (sh', l'))
    (hcrit : l.Critical) (hcrit' : l'.Critical) (hleft : sh.tickets = left)
    (hle : left ≤ total) (hf : Finds total l sh left) :
    sh'.mutex = sh.mutex ∧ ∃ left' : ℕ, sh'.tickets = left' ∧ left' ≤ left ∧
      Finds total l' sh' left' := by
  rcases l with ⟨pc, reg⟩
  cases pc <;> simp only [sellticket] at h
  case lock => exact absurd rfl hcrit.1
  case test =>
    simp only [hleft] at h
    split at h <;> rename_i hpos <;> cases h
    · exact ⟨rfl, left, hleft, le_refl _, by exact_mod_cast hpos, hf⟩
    · exact ⟨rfl, left, hleft, le_refl _, by omega, hf⟩
  case print =>
    cases h
    obtain ⟨hpos, hsold⟩ := hf
    refine ⟨rfl, left, hleft, le_refl _, hpos, ?_⟩
    obtain ⟨k, rfl⟩ : ∃ k, left = k + 1 := ⟨left - 1, by omega⟩
    rw [Nat.add_sub_cancel, countdown_succ (by omega), ← hsold, Shared.sold,
      List.map_append, List.map_singleton, hleft]
    rfl
  case load =>
    cases h
    exact ⟨rfl, left, hleft, le_refl _, hf.1, hleft, hf.2⟩
  case store =>
    cases h
    obtain ⟨hpos, hreg, hsold⟩ := hf
    refine ⟨rfl, left - 1, ?_, by omega, hsold⟩
    show reg - 1 = _
    rw [show reg = left from hreg]
    omega
  case unlock =>
    cases h
    exact absurd rfl hcrit'.1
  case release =>
    cases h
    exact absurd rfl hcrit'.2
  case done => cases h

omit [DecidableEq τ] in
/-- The statements that give up the mutex. -/
theorem release_sellticket (h : sellticket .mutex t sh l = some (sh', l'))
    (hcrit : l.Critical) (hout : ¬ l'.Critical) (hf : Finds total l sh left) :
    sh' = { sh with mutex := none } ∧ sh.sold = countdown total left ∧
      (l'.pc = .done → left = 0) := by
  rcases l with ⟨pc, reg⟩
  cases pc <;> simp only [sellticket] at h
  case lock => exact absurd rfl hcrit.1
  case unlock =>
    cases h
    exact ⟨rfl, hf, fun hd => by cases hd⟩
  case release =>
    cases h
    exact ⟨rfl, hf.2, fun _ => hf.1⟩
  case test =>
    split at h <;> cases h <;> exact absurd ⟨by simp [Version.soldOut], by
      simp [Version.soldOut]⟩ hout
  all_goals
    cases h
    try exact absurd ⟨by simp [Version.afterSale], by simp [Version.afterSale]⟩ hout

omit [DecidableEq τ] in
/-- Outside the critical section a thread can only take the free mutex. -/
theorem lock_sellticket (h : sellticket .mutex t sh l = some (sh', l'))
    (hout : ¬ l.Critical) :
    sh.mutex = none ∧ sh' = { sh with mutex := some t } ∧ l'.pc = .test := by
  rcases l with ⟨pc, reg⟩
  cases pc
  case lock =>
    simp only [sellticket] at h
    split at h
    · rename_i hfree
      cases h
      exact ⟨hfree, rfl, rfl⟩
    · cases h
  case done => cases h
  all_goals exact absurd ⟨by simp, by simp⟩ hout

end Statement

theorem step_inv (hi : Inv total s) (h : Step .mutex s s') : Inv total s' := by
  obtain ⟨t, sh, l, h⟩ := h
  obtain ⟨left, hleft, hle, hfree, hfinds⟩ := hi.counter
  have hown := hi.exclusive t
  -- a thread that ended found no ticket, and the counter only goes down
  have hended : ∀ left' : ℕ, sh.tickets = left' → left' ≤ left →
      (l.pc = .done → left' = 0) →
      ∀ u, (Function.update s.threads t l u).pc = .done → sh.tickets = 0 := by
    intro left' hleft' hle' hdone u hu
    rw [hleft']
    by_cases hut : u = t
    · subst hut
      rw [Function.update_self] at hu
      exact_mod_cast hdone hu
    · rw [Function.update_of_ne hut] at hu
      have := hi.ended u hu
      omega
  by_cases hcrit : (s.threads t).Critical
  · have hm := hown.mp hcrit
    have hf := hfinds t hm
    by_cases hcrit' : l.Critical
    · obtain ⟨hmutex, left', hleft', hle', hf'⟩ :=
        finds_sellticket h hcrit hcrit' hleft hle hf
      refine ⟨?_, ⟨left', hleft', by omega, fun hnone => ?_, fun u hu => ?_⟩,
        hended left' hleft' hle' fun hd => absurd hd hcrit'.2⟩
      · rw [hmutex]
        exact hi.exclusive.move (iff_of_true hcrit' hcrit)
      · rw [hmutex, hm] at hnone
        cases hnone
      · rw [hmutex, hm] at hu
        cases hu
        simp only [Function.update_self]
        exact hf'
    · obtain ⟨rfl, hsold, hdone⟩ := release_sellticket h hcrit hcrit' hf
      refine ⟨?_, ⟨left, hleft, hle, fun _ => hsold, fun u hu => by cases hu⟩,
        hended left hleft (le_refl _) hdone⟩
      have hex := hi.exclusive
      rw [hm] at hex
      exact hex.unlock hcrit'
  · obtain ⟨hnone, rfl, hpc⟩ := lock_sellticket h hcrit
    refine ⟨?_, ⟨left, hleft, hle, fun hn => (by cases hn), fun u hu => ?_⟩,
      hended left hleft (le_refl _) fun hd => by rw [hpc] at hd; cases hd⟩
    · have hex := hi.exclusive
      rw [hnone] at hex
      apply hex.lock
      unfold Local.Critical
      rw [hpc]
      simp
    · cases hu
      simp only [Function.update_self, Finds, hpc]
      exact hfree hnone

theorem reachable_inv (h : (sale .mutex total).Reachable s) : Inv total s :=
  System.invariant (I := Inv total) (fun _ h0 => start_inv h0)
    (fun _ _ _ hi hst => step_inv hi hst) h

/-! ## §3  Every run ends, with every ticket sold once -/

variable [Fintype τ]

/-- How far a thread is from the end of its loop body. -/
def Pc.rank : Pc → ℕ
  | .unlock => 7
  | .lock => 6
  | .test => 5
  | .print => 4
  | .load => 3
  | .store => 2
  | .release => 1
  | .done => 0

/-- The statements left: a ticket on the counter is worth more than one round
of the loop. -/
def remaining (s : State τ) : ℕ := 8 * s.sh.tickets.toNat + ∑ t, (s.threads t).pc.rank

theorem step_remaining (hi : Inv total s) (h : Step .mutex s s') :
    remaining s' < remaining s := by
  obtain ⟨t, sh, l, h⟩ := h
  have hsum := sum_update (fun _ (l : Local) => l.pc.rank) s.threads t l
  obtain ⟨left, hleft, -, -, hfinds⟩ := hi.counter
  have hone : 8 * sh.tickets.toNat + l.pc.rank <
      8 * s.sh.tickets.toNat + (s.threads t).pc.rank := by
    have hown := (hi.exclusive t).mp
    rcases hl : s.threads t with ⟨pc, reg⟩
    rw [hl] at h hown
    cases pc <;> simp only [sellticket] at h
    case lock =>
      split at h <;> cases h
      simp [Pc.rank]
    case test =>
      split at h <;> cases h <;> simp [Pc.rank, Version.soldOut]
    case store =>
      cases h
      have hf := hfinds t (hown ⟨by simp, by simp⟩)
      rw [hl] at hf
      obtain ⟨hpos, hreg, -⟩ := hf
      have hreg : reg = left := hreg
      simp only [Pc.rank, Version.afterSale, hleft, hreg]
      omega
    all_goals
      cases h
      try simp [Pc.rank]
  unfold remaining
  show 8 * sh.tickets.toNat + ∑ u, (Function.update s.threads t l u).pc.rank < _
  omega

omit [Fintype τ] in
/-- Only a taken mutex blocks a thread that has not returned. -/
theorem can_step (hpc : (s.threads t).pc ≠ .done)
    (hm : (s.threads t).pc = .lock → s.sh.mutex = none) : ∃ s', Step .mutex s s' := by
  obtain ⟨⟨sh, l⟩, h⟩ : ∃ r, sellticket .mutex t s.sh (s.threads t) = some r := by
    unfold sellticket
    split
    · rename_i hlock
      rw [hm hlock]
      exact ⟨_, rfl⟩
    · split <;> exact ⟨_, rfl⟩
    case h_8 hdone => exact absurd hdone hpc
    all_goals exact ⟨_, rfl⟩
  exact ⟨_, t, sh, l, h⟩

/-- **With the mutex every ticket is sold once.** A run has at most
`8 * total + 6 * k` steps for `k` threads. When it cannot go on, every thread
has returned, no ticket is left, and the terminal shows the tickets from the
first to the last, each once. -/
theorem mutex_sells_every_ticket_once [Nonempty τ] {n : ℕ}
    (h : (sale .mutex total).Run n s) :
    n ≤ 8 * total + 6 * Fintype.card τ ∧
    ((∀ s', ¬ Step .mutex s s') → (∀ t, (s.threads t).pc = .done) ∧
      s.sh.tickets = 0 ∧ s.sh.out.map Line.ticket = countdown total 0) := by
  constructor
  · have hbound := System.Run.bounded (μ := remaining)
      (b := 8 * total + 6 * Fintype.card τ) ?_ ?_ h
    · omega
    · intro s₀ h0
      have hsum : ∑ t, (s₀.threads t).pc.rank = 6 * Fintype.card τ := by
        rw [Finset.sum_congr rfl fun t _ => by rw [h0.2 t], Finset.sum_const,
          Finset.card_univ, smul_eq_mul, Nat.mul_comm]
        rfl
      unfold remaining
      rw [hsum, h0.1]
      simp
    · exact fun s₁ s₂ hr hst => step_remaining (reachable_inv hr) hst
  · intro hstuck
    have hi := reachable_inv h.reachable
    have hnone : s.sh.mutex = none := by
      cases hm : s.sh.mutex with
      | none => rfl
      | some t =>
          have hcrit := (hi.exclusive t).mpr hm
          obtain ⟨s', hs'⟩ := can_step hcrit.2 (fun hlock => absurd hlock hcrit.1)
          exact absurd hs' (hstuck s')
    have hdone : ∀ t, (s.threads t).pc = .done := by
      intro t
      by_contra hpc
      obtain ⟨s', hs'⟩ := can_step hpc (fun _ => hnone)
      exact hstuck s' hs'
    obtain ⟨left, hleft, -, hfree, -⟩ := hi.counter
    have hzero := hi.ended (Classical.arbitrary τ) (hdone _)
    refine ⟨hdone, hzero, ?_⟩
    have : left = 0 := by omega
    rw [← this]
    exact hfree hnone

omit [Fintype τ] in
/-- The six statements in which a thread sells a ticket. -/
theorem sells_run {n left : ℕ} {f : τ → Local} {out : List (Line τ)}
    (h : (sale .mutex total).Run n ⟨f, ⟨none, (left : ℤ) + 1, out⟩⟩)
    (hpc : (f t).pc = .lock) :
    ∃ l : Local, l.pc = .lock ∧ (sale .mutex total).Run (n + 6)
      ⟨Function.update f t l, ⟨none, left, out ++ [⟨t, left + 1⟩]⟩⟩ := by
  have hpos : (0 : ℤ) < left + 1 := by omega
  have h₁ := h.step ⟨t, ⟨some t, left + 1, out⟩, ⟨.test, (f t).reg⟩, by
    simp only [sellticket, hpc]⟩
  have h₂ := h₁.step ⟨t, ⟨some t, left + 1, out⟩, ⟨.print, (f t).reg⟩, by
    simp only [sellticket, Function.update_self, if_pos hpos]⟩
  have h₃ := h₂.step ⟨t, ⟨some t, left + 1, out ++ [⟨t, left + 1⟩]⟩, ⟨.load, (f t).reg⟩, by
    simp only [sellticket, Function.update_self]⟩
  have h₄ := h₃.step ⟨t, ⟨some t, left + 1, out ++ [⟨t, left + 1⟩]⟩, ⟨.store, left + 1⟩, by
    simp only [sellticket, Function.update_self]⟩
  have h₅ := h₄.step ⟨t, ⟨some t, left, out ++ [⟨t, left + 1⟩]⟩, ⟨.unlock, left + 1⟩, by
    simp only [sellticket, Function.update_self, add_sub_cancel_right]
    rfl⟩
  have h₆ := h₅.step ⟨t, ⟨none, left, out ++ [⟨t, left + 1⟩]⟩, ⟨.lock, left + 1⟩, by
    simp only [sellticket, Function.update_self]⟩
  simp only [Function.update_idem] at h₆
  exact ⟨_, rfl, h₆⟩

omit [Fintype τ] in
/-- The three statements in which a thread finds no ticket and returns. -/
theorem ends_run {n : ℕ} {f : τ → Local} {out : List (Line τ)}
    (h : (sale .mutex total).Run n ⟨f, ⟨none, 0, out⟩⟩) (hpc : (f t).pc = .lock) :
    ∃ l : Local, l.pc = .done ∧ (sale .mutex total).Run (n + 3)
      ⟨Function.update f t l, ⟨none, 0, out⟩⟩ := by
  have h₁ := h.step ⟨t, ⟨some t, 0, out⟩, ⟨.test, (f t).reg⟩, by
    simp only [sellticket, hpc]⟩
  have h₂ := h₁.step ⟨t, ⟨some t, 0, out⟩, ⟨.release, (f t).reg⟩, by
    simp only [sellticket, Function.update_self, lt_irrefl, if_false]
    rfl⟩
  have h₃ := h₂.step ⟨t, ⟨none, 0, out⟩, ⟨.done, (f t).reg⟩, by
    simp only [sellticket, Function.update_self]⟩
  simp only [Function.update_idem] at h₃
  exact ⟨_, rfl, h₃⟩

/-- Two threads sell a ticket each, then both find none left. -/
theorem mutex_sells_two_tickets : ∃ s : State Bool, (sale .mutex 2).Run 18 s ∧
    s.sh.out = [⟨false, 2⟩, ⟨true, 1⟩] ∧ (∀ t, (s.threads t).pc = .done) ∧
    s.sh.tickets = 0 ∧ s.sh.out.map Line.ticket = countdown 2 0 := by
  have h₀ : (sale .mutex 2).Run 0 (⟨fun _ => ⟨.lock, 0⟩, ⟨none, 2, []⟩⟩ : State Bool) :=
    .init ⟨rfl, fun _ => rfl⟩
  obtain ⟨l₁, hl₁, h₁⟩ := sells_run (t := false) h₀ rfl
  obtain ⟨l₂, hl₂, h₂⟩ := sells_run (t := true) h₁ rfl
  obtain ⟨l₃, hl₃, h₃⟩ := ends_run (t := false) h₂ hl₁
  obtain ⟨l₄, hl₄, h₄⟩ := ends_run (t := true) h₃ hl₂
  refine ⟨_, h₄, rfl, (mutex_sells_every_ticket_once h₄).2 ?_⟩
  rintro s' ⟨t, sh, l, h⟩
  cases t with
  | false =>
      simp only [sellticket, Function.update_of_ne Bool.false_ne_true, Function.update_self,
        hl₃] at h
      cases h
  | true =>
      simp only [sellticket, Function.update_self, hl₄] at h
      cases h

/-! ## §4  Without the mutex -/

omit [Fintype τ] in
/-- **Without the mutex a ticket is sold twice**: any two threads may both see
the counter before either has written it. -/
theorem unprotected_sells_twice (hpos : 0 < total) {t u : τ} (htu : t ≠ u) :
    ∃ s, (sale .unprotected total).Reachable s ∧ ⟨t, total⟩ ∈ s.sh.out ∧
      ⟨u, total⟩ ∈ s.sh.out := by
  have htest : ∀ x : τ, sellticket .unprotected x ⟨none, total, []⟩ ⟨.test, 0⟩ =
      some (⟨none, total, []⟩, ⟨.print, 0⟩) := by
    intro x
    simp only [sellticket, Nat.cast_pos, if_pos hpos]
  have h₀ : (sale .unprotected total).Reachable
      (⟨fun _ => ⟨.test, 0⟩, ⟨none, total, []⟩⟩ : State τ) :=
    .init ⟨rfl, fun _ => rfl⟩
  have h₁ := h₀.step ⟨t, ⟨none, total, []⟩, ⟨.print, 0⟩, htest t⟩
  have h₂ := h₁.step ⟨u, ⟨none, total, []⟩, ⟨.print, 0⟩, by
    simp only [Function.update_of_ne htu.symm]
    exact htest u⟩
  have h₃ := h₂.step ⟨t, ⟨none, total, [⟨t, total⟩]⟩, ⟨.load, 0⟩, by
    simp only [Function.update_of_ne htu, Function.update_self]
    rfl⟩
  have h₄ := h₃.step ⟨u, ⟨none, total, [⟨t, total⟩, ⟨u, total⟩]⟩, ⟨.load, 0⟩, by
    simp only [Function.update_of_ne htu.symm, Function.update_self]
    rfl⟩
  exact ⟨_, h₄, by simp, by simp⟩

end LinuxServer.Tickets
