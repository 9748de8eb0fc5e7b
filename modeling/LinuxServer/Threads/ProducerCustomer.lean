import LinuxServer.Threads.NodesTurn

/-!
# Producers and customers: the results

For any number of threads and every interleaving of their statements:

- §1 runs in turns, for the states the results are shown at
- §2 no pointer is misused and no node is lost, as long as `malloc` succeeds
- §3 the terminal shows the history of a stack
- §4 with the semaphores there are never more than eight nodes; without them
  there is no bound
- §5 some thread can always go on, and no wake-up is lost
-/

namespace LinuxServer.Threads

open LinuxServer.Framework

variable {τ : Type} [DecidableEq τ] [Fintype τ] {v : Version} {role : τ → Role}
  {s s' : State τ} {t : τ}

/-! ## §1  Runs in turns -/

omit [DecidableEq τ] [Fintype τ] in
theorem replay_adds (t : τ) (n : ℕ) :
    replay (List.replicate n (Line.add 0 t)) = some (List.replicate n 0) := by
  induction n with
  | zero => rfl
  | succ n ih =>
      rw [List.replicate_succ', replay_append, ih]
      rfl

/-- A producer that runs alone from the start; with the semaphores it has eight
turns. -/
theorem producer_ahead (hrole : role t = .producer) (n : ℕ) (hn : v = .sem → n ≤ 8) :
    ∃ s, (nodes v role).Reachable s ∧ (∀ u, Idle v u s) ∧
      s.sh.mem.out = List.replicate n (.add 0 t) ∧
      (v = .sem → s.sh.psem = 8 - n ∧ s.sh.csem = n) := by
  induction n with
  | zero =>
      exact ⟨⟨fun _ => ⟨v.loopStart, none, none⟩, Shared.start⟩, .init ⟨rfl, fun _ => rfl⟩,
        fun _ => ⟨rfl, rfl, rfl, rfl⟩, rfl, fun _ => ⟨rfl, rfl⟩⟩
  | succ n ih =>
      obtain ⟨s, hr, hidle, hout, hsems⟩ := ih fun hv => by have := hn hv; omega
      have hunit : v = .sem → 0 < s.sh.psem := by
        intro hv
        rw [(hsems hv).1]
        have := hn hv
        omega
      obtain ⟨s', hr', hturn, hout', -⟩ := produces 0 hrole hr (hidle t) hunit
      refine ⟨s', hr', hturn.idle_all hidle, ?_, ?_⟩
      · rw [hout', hout, List.replicate_succ']
      · rintro rfl
        obtain ⟨hpsem, hcsem⟩ := hturn.sems rfl
        obtain ⟨hp, hc⟩ := hsems rfl
        rw [hpsem, hcsem]
        show s.sh.psem - 1 = 8 - (n + 1) ∧ s.sh.csem + 1 = n + 1
        omega

theorem ahead_length (hr : (nodes v role).Reachable s) (hm : s.sh.mutex = none) {n : ℕ}
    (hout : s.sh.mem.out = List.replicate n (.add 0 t)) :
    ∃ xs, Chain s.sh.mem.heap s.sh.mem.head xs ∧ xs.length = n := by
  obtain ⟨xs, hq⟩ := reachable_quiet hr hm
  refine ⟨xs, hq.chain, ?_⟩
  have hlog := hq.log
  rw [hout, replay_adds] at hlog
  rw [← length_vals xs, ← Option.some.inj hlog, List.length_replicate]

/-- Before the first statement of `main`'s threads. -/
def mainStart (v : Version) : State MainThread :=
  ⟨fun _ => ⟨v.loopStart, none, none⟩, Shared.start⟩

theorem mainStart_reachable (v : Version) : (nodes v mainRole).Reachable (mainStart v) :=
  .init ⟨rfl, fun _ => rfl⟩

theorem mainStart_idle (v : Version) (t : MainThread) : Idle v t (mainStart v) :=
  ⟨rfl, rfl, rfl, rfl⟩

/-- Two producers have put in a node each. -/
theorem two_added (v : Version) : ∃ s, (nodes v mainRole).Reachable s ∧ (∀ u, Idle v u s) ∧
    s.sh.mem.out = [.add 7 (.inl 0), .add 5 (.inl 1)] ∧
    (v = .sem → s.sh.psem = 6 ∧ s.sh.csem = 2) := by
  obtain ⟨s₁, hr₁, hturn₁, hout₁, -⟩ := produces 7 (rfl : mainRole (.inl 0) = .producer)
    (mainStart_reachable v) (mainStart_idle v _) fun _ => Nat.succ_pos 7
  have hidle₁ := hturn₁.idle_all (mainStart_idle v)
  have hsems₁ : v = .sem → s₁.sh.psem = 7 ∧ s₁.sh.csem = 1 := by
    rintro rfl
    exact hturn₁.sems rfl
  obtain ⟨s₂, hr₂, hturn₂, hout₂, -⟩ := produces 5 (rfl : mainRole (.inl 1) = .producer)
    hr₁ (hidle₁ _) fun hv => by rw [(hsems₁ hv).1]; omega
  refine ⟨s₂, hr₂, hturn₂.idle_all hidle₁, ?_, ?_⟩
  · rw [hout₂, hout₁]
    rfl
  · rintro rfl
    obtain ⟨hpsem, hcsem⟩ := hturn₂.sems rfl
    rw [hpsem, hcsem]
    show s₁.sh.psem - 1 = 6 ∧ s₁.sh.csem + 1 = 2
    rw [(hsems₁ rfl).1, (hsems₁ rfl).2]
    decide

/-- Then a customer has taken out the second. -/
theorem one_taken (v : Version) : ∃ s, (nodes v mainRole).Reachable s ∧ (∀ u, Idle v u s) ∧
    s.sh.mem.out = [.add 7 (.inl 0), .add 5 (.inl 1), .del 5 (.inr 0)] ∧
    (v = .sem → 0 < s.sh.psem) := by
  obtain ⟨s, hr, hidle, hout, hsems⟩ := two_added v
  have hlog : replay s.sh.mem.out = some (5 :: [7]) := by
    rw [hout]
    rfl
  obtain ⟨s', hr', hturn, hout'⟩ := takes (rfl : mainRole (.inr 0) = .customer) hr
    (hidle _) (fun hv => by rw [(hsems hv).2]; omega) hlog
  refine ⟨s', hr', hturn.idle_all hidle, ?_, ?_⟩
  · rw [hout', hout]
    rfl
  · rintro rfl
    rw [(hturn.sems rfl).1]
    exact Nat.succ_pos _

/-! ## §2  The memory -/

/-- **Memory safety.** Unless a `malloc` returned `NULL`, no thread uses a
pointer that does not point to a node, and none is freed twice. The allocated
nodes are those of the list and at most one more, the `newNode` or the `tmp` of
the thread in the critical section, which is putting it in or has taken it out:
none is lost. -/
theorem nodes_memory_safe (h : (nodes v role).Reachable s) (hoom : s.sh.mem.oom = false) :
    s.sh.mem.fault = false ∧ ∃ xs extra, Chain s.sh.mem.heap s.sh.mem.head xs ∧
      (∀ a, s.sh.mem.heap a ≠ none ↔ a ∈ addrs xs ∨ a ∈ extra) ∧
      (addrs xs).Nodup ∧ extra.length ≤ 1 ∧ (s.sh.mutex = none → extra = []) ∧
      ∀ a ∈ extra, a ∉ addrs xs ∧ ∃ t, s.sh.mutex = some t ∧
        ((s.threads t).newNode = some a ∨ (s.threads t).tmp = some a) := by
  obtain ⟨xs, extra, stack, hl, hbeside, -⟩ := reachable_listed h
  refine ⟨?_, xs, extra, hl.chain, hl.owns, hl.chain.nodup, hbeside.one, hbeside.none,
    fun a ha => ⟨hl.apart a ha, hbeside.named a ha⟩⟩
  cases hf : s.sh.mem.fault with
  | false => rfl
  | true =>
      rw [(reachable_inv h).safe hf] at hoom
      cases hoom

/-- Two nodes were put in and one of them was taken out and freed, and a third
is on its way in. -/
theorem nodes_memory_safe_three : ∃ s : State MainThread,
    s.sh.mem.out = [.add 7 (.inl 0), .add 5 (.inl 1), .del 5 (.inr 0)] ∧
    (s.threads (.inl 1)).pc = .setHead ∧ s.sh.mem.fault = false ∧
    ∃ xs extra, Chain s.sh.mem.heap s.sh.mem.head xs ∧
      (∀ a, s.sh.mem.heap a ≠ none ↔ a ∈ addrs xs ∨ a ∈ extra) ∧
      (addrs xs).Nodup ∧ extra.length ≤ 1 ∧ (s.sh.mutex = none → extra = []) ∧
      ∀ a ∈ extra, a ∉ addrs xs ∧ ∃ t, s.sh.mutex = some t ∧
        ((s.threads t).newNode = some a ∨ (s.threads t).tmp = some a) := by
  obtain ⟨s, hr, hidle, hout, -⟩ := one_taken .polling
  obtain ⟨s', a, -, hr', hpc, -, hoom, hout', -⟩ := allocates
    (rfl : mainRole (.inl 1) = .producer) hr (hidle _) fun hv => by cases hv
  exact ⟨s', hout'.trans hout, hpc, nodes_memory_safe hr' hoom⟩

/-! ## §3  The terminal -/

/-- **The terminal shows the history of a stack**: every `del node` line names
the number of the last `add node` line that was not deleted yet. Whenever no
thread is in the critical section, the numbers in the list are what the history
leaves. -/
theorem nodes_log_is_stack_history (h : (nodes v role).Reachable s) :
    ∃ stack, replay s.sh.mem.out = some stack ∧ (s.sh.mutex = none →
      ∃ xs, Chain s.sh.mem.heap s.sh.mem.head xs ∧ vals xs = stack) := by
  obtain ⟨xs, extra, stack, hl, -, hstack⟩ := reachable_listed h
  exact ⟨stack, hl.log, fun hm => ⟨xs, hl.chain, (hstack hm).symm⟩⟩

theorem nodes_log_is_stack_history_three : ∃ s : State MainThread,
    s.sh.mem.out = [.add 7 (.inl 0), .add 5 (.inl 1), .del 5 (.inr 0)] ∧
      replay s.sh.mem.out = some [7] ∧
      ∃ xs, Chain s.sh.mem.heap s.sh.mem.head xs ∧ vals xs = [7] := by
  obtain ⟨s, hr, hidle, hout, -⟩ := one_taken .cond
  obtain ⟨stack, hlog, hlist⟩ := nodes_log_is_stack_history hr
  obtain rfl : [7] = stack := by
    rw [hout] at hlog
    exact Option.some.inj hlog
  exact ⟨s, hout, hlog, hlist (hidle (.inl 0)).free⟩

/-! ## §4  How many nodes there are -/

omit [DecidableEq τ] [Fintype τ] in
theorem owed_le_taken (t : τ) :
    (s.threads t).pc.owed (role t) ≤ (s.threads t).pc.taken := by
  cases (s.threads t).pc <;> cases role t <;> simp [Pc.owed, Pc.taken]

/-- **With the semaphores at most eight nodes are allocated**, those on their
way in or out included; the units left in `psem` count as room. -/
theorem sem_at_most_eight_nodes (h : (nodes .sem role).Reachable s) :
    ∃ live : Finset ℕ, (∀ a, s.sh.mem.heap a ≠ none ↔ a ∈ live) ∧
      live.card + s.sh.psem ≤ 8 := by
  have hi := reachable_inv h
  obtain ⟨xs, hxs, hlen⟩ := hi.list
  obtain ⟨extra, stack, hl, hbeside, -⟩ := shows_listed role hxs
  have hsum : totalOwed role s.threads + extra.length ≤ totalTaken s.threads := by
    cases hm : s.sh.mutex with
    | none =>
        rw [hbeside.none hm]
        exact Finset.sum_le_sum fun t _ => owed_le_taken t
    | some t =>
        apply sum_add_le_sum (t := t) owed_le_taken
        have htaken := Pc.taken_of_holds ((hi.exclusive t).mpr hm)
        have := hbeside.owed t hm
        omega
  refine ⟨(addrs xs ++ extra).toFinset, fun a => ?_, ?_⟩
  · rw [hl.owns a]
    simp
  · have hcard := List.toFinset_card_le (addrs xs ++ extra)
    have hunits := hi.units rfl
    have := hlen rfl
    rw [List.length_append, length_addrs] at hcard
    omega

/-- Two nodes are in the list and a third is on its way in. -/
theorem sem_at_most_eight_nodes_three : ∃ (s : State MainThread) (xs : List (ℕ × ℕ)) (a : ℕ),
    Chain s.sh.mem.heap s.sh.mem.head xs ∧ vals xs = [5, 7] ∧
    (s.threads (.inl 2)).newNode = some a ∧ s.sh.mem.heap a ≠ none ∧ a ∉ addrs xs ∧
    s.sh.psem = 5 ∧
    ∃ live : Finset ℕ, (∀ a, s.sh.mem.heap a ≠ none ↔ a ∈ live) ∧
      live.card + s.sh.psem ≤ 8 := by
  obtain ⟨s, hr, hidle, hout, hsems⟩ := two_added .sem
  obtain ⟨hpsem, -⟩ := hsems rfl
  obtain ⟨s', a, xs, hr', -, hnew, -, hout', hpsem', hl⟩ := allocates
    (rfl : mainRole (.inl 2) = .producer) hr (hidle _) fun _ => by rw [hpsem]; omega
  have hvals : some (vals xs) = some [5, 7] := by
    rw [← hl.log, hout', hout]
    rfl
  refine ⟨s', xs, a, hl.chain, Option.some.inj hvals, hnew, (hl.owns a).mpr (.inr (by simp)),
    hl.apart a (by simp), ?_, sem_at_most_eight_nodes hr'⟩
  rw [hpsem']
  show s.sh.psem - 1 = 5
  rw [hpsem]

/-- **Without the semaphores there is no bound**: the producers may run ahead
of the customers, so that a reachable state has `n` nodes in the list. -/
theorem polling_cond_unbounded (hv : v ≠ .sem) (hrole : role t = .producer) (n : ℕ) :
    ∃ s xs, (nodes v role).Reachable s ∧ s.sh.mem.oom = false ∧
      Chain s.sh.mem.heap s.sh.mem.head xs ∧ xs.length = n := by
  obtain ⟨s, hr, hidle, hout, -⟩ :=
    producer_ahead (v := v) hrole n fun hsem => absurd hsem hv
  obtain ⟨xs, hchain, hlen⟩ := ahead_length hr (hidle t).free hout
  exact ⟨s, xs, hr, (hidle t).memory, hchain, hlen⟩

/-! ## §5  Who can go on -/

/-- The thread `t` has a statement it can execute now, without a `malloc`
having to fail for it. -/
def CanAct (v : Version) (role : τ → Role) (t : τ) (s : State τ) : Prop :=
  ∃ s', Act v role t s s' ∧ s'.sh.mem.oom = s.sh.mem.oom

omit [Fintype τ] in
theorem canAct_of_stmt {k : Answer} {sh : Shared τ} {l : Local}
    (hok : s.sh.mem.fault = false)
    (h : stmt v (role t) t k s.sh (s.threads t) = some (sh, l))
    (hoom : sh.mem.oom = s.sh.mem.oom) : CanAct v role t s :=
  ⟨_, .run hok k sh l h, hoom⟩

omit [Fintype τ] in
theorem not_canAct (hstmt : ∀ k, stmt v (role t) t k s.sh (s.threads t) = none)
    (hpc : (s.threads t).pc ≠ .signal) : ¬ CanAct v role t s := by
  rintro ⟨s', ha, -⟩
  cases ha with
  | run _ k sh l h =>
      rw [hstmt k] at h
      cases h
  | signal _ hsig => exact hpc hsig

omit [Fintype τ] in
/-- A thread is blocked in `sem_wait` while its semaphore has no unit. -/
theorem blocked_semWait (hpc : (s.threads t).pc = .semWait) (hunits : s.sh.units (role t) = 0) :
    ¬ CanAct v role t s := by
  apply not_canAct
  · intro k
    unfold Shared.units at hunits
    cases hrole : role t <;> rw [hrole] at hunits <;> simp only at hunits <;>
      simp only [stmt, hpc, hunits, lt_irrefl, if_false]
  · rw [hpc]
    simp

omit [Fintype τ] in
/-- A thread is blocked at the lock while another is in the critical section. -/
theorem blocked_lock {u : τ} (hpc : (s.threads t).pc = .lock) (hm : s.sh.mutex = some u) :
    ¬ CanAct v role t s := by
  apply not_canAct
  · intro k
    simp only [stmt, hpc, hm]
  · rw [hpc]
    simp

/-- The thread in the critical section is never blocked. -/
theorem owner_canAct (h : (nodes v role).Reachable s) (hok : s.sh.mem.fault = false)
    (hm : s.sh.mutex = some t) : CanAct v role t s := by
  have hi := reachable_inv h
  have hcrit : (s.threads t).pc.holds = true := (hi.exclusive t).mpr hm
  obtain ⟨a, ha⟩ := heap_fresh h
  by_cases hsig : (s.threads t).pc = .signal
  · exact ⟨_, .signal hok hsig (fun u => (s.threads u).pc = .waiting)
      (fun u hu => of_decide_eq_true hu) (fun u hu => ⟨u, decide_eq_true hu⟩), rfl⟩
  obtain ⟨sh, l, hst, hoom⟩ : ∃ sh l,
      stmt v (role t) t ⟨some (a, ⟨0, none⟩), 0⟩ s.sh (s.threads t) = some (sh, l) ∧
        sh.mem.oom = s.sh.mem.oom := by
    cases hpc : (s.threads t).pc <;> simp only [hpc, Pc.holds, Bool.false_eq_true] at hcrit
    case signal => exact absurd hpc hsig
    all_goals
      simp only [stmt, Memory.stmt, hpc, ha]
      repeat' split
      all_goals exact ⟨_, _, rfl, rfl⟩
  exact canAct_of_stmt hok hst hoom

omit [Fintype τ] in
/-- With the mutex free, only the waiting for a unit or for a signal blocks. -/
theorem free_canAct (hok : s.sh.mem.fault = false) (hm : s.sh.mutex = none)
    (hc : (s.threads t).pc.holds = false) (hw : (s.threads t).pc ≠ .waiting)
    (hs : (s.threads t).pc ≠ .semWait) : CanAct v role t s := by
  obtain ⟨sh, l, hst, hoom⟩ : ∃ sh l,
      stmt v (role t) t ⟨none, 0⟩ s.sh (s.threads t) = some (sh, l) ∧
        sh.mem.oom = s.sh.mem.oom := by
    cases hpc : (s.threads t).pc <;> simp only [hpc, Pc.holds, Bool.true_eq_false] at hc
    case waiting => exact absurd hpc hw
    case semWait => exact absurd hpc hs
    all_goals
      simp only [stmt, hpc, hm]
      repeat' split
      all_goals exact ⟨_, _, rfl, rfl⟩
  exact canAct_of_stmt hok hst hoom

/-- **The program never comes to a stop** while there is a producer and a
customer: in every reachable state without a fault some thread can execute a
statement. For the semaphores this is because the eight units cannot all be
with threads that wait for one. -/
theorem nodes_never_stuck (h : (nodes v role).Reachable s)
    (hok : s.sh.mem.fault = false) (hp : ∃ p, role p = .producer)
    (hc : ∃ c, role c = .customer) : ∃ t, CanAct v role t s := by
  have hi := reachable_inv h
  cases hm : s.sh.mutex with
  | some t => exact ⟨t, owner_canAct h hok hm⟩
  | none =>
      by_cases hsem : v = .sem
      · subst hsem
        by_cases hall : ∀ t, (s.threads t).pc = .semWait
        · -- nobody has a unit, so one of the semaphores is not zero
          have htaken : totalTaken s.threads = 0 := by
            apply Finset.sum_eq_zero
            intro t _
            rw [hall t]
            rfl
          have hunits := hi.units rfl
          rw [htaken] at hunits
          obtain ⟨p, hp⟩ := hp
          obtain ⟨c, hc⟩ := hc
          by_cases hpsem : 0 < s.sh.psem
          · have hst : stmt .sem (role p) p ⟨none, 0⟩ s.sh (s.threads p) =
                some ({ s.sh with psem := s.sh.psem - 1 },
                  { s.threads p with pc := .lock }) := by
              simp only [stmt, hall p, hp, if_pos hpsem]
            exact ⟨p, canAct_of_stmt hok hst rfl⟩
          · have hcsem : 0 < s.sh.csem := by omega
            have hst : stmt .sem (role c) c ⟨none, 0⟩ s.sh (s.threads c) =
                some ({ s.sh with csem := s.sh.csem - 1 },
                  { s.threads c with pc := .lock }) := by
              simp only [stmt, hall c, hc, if_pos hcsem]
            exact ⟨c, canAct_of_stmt hok hst rfl⟩
        · obtain ⟨t, ht⟩ := not_forall.mp hall
          refine ⟨t, free_canAct hok hm (hi.outside hm t) (fun hw => ?_) ht⟩
          have hl := hi.allowed t
          rw [hw] at hl
          simp [Pc.allowed] at hl
      · obtain ⟨p, hp⟩ := hp
        have hl := hi.allowed p
        refine ⟨p, free_canAct hok hm (hi.outside hm p) (fun hw => ?_) (fun hs => ?_)⟩
        · rw [hw, hp] at hl
          simp [Pc.allowed] at hl
        · rw [hs] at hl
          exact hsem (by simpa [Pc.allowed] using hl)

/-- The eight units of `psem` are used up, so that every producer is blocked. A
customer is in the critical section and another is blocked at the lock. -/
theorem nodes_never_stuck_eight : ∃ s : State MainThread, s.sh.psem = 0 ∧
    (∀ i, ¬ CanAct .sem mainRole (.inl i) s) ∧ s.sh.mutex = some (.inr 0) ∧
    ¬ CanAct .sem mainRole (.inr 1) s ∧ ∃ t, CanAct .sem mainRole t s := by
  obtain ⟨s, hr, hidle, -, hsems⟩ :=
    producer_ahead (rfl : mainRole (.inl 0) = .producer) 8 fun _ => le_refl 8
  obtain ⟨hpsem, hcsem⟩ := hsems rfl
  obtain ⟨s₁, hr₁, hsame₁, hsh₁⟩ := enters (t := .inr 0) hr (hidle _) fun _ => by
    show 0 < s.sh.csem
    omega
  have hpc₁ : ∀ u, u ≠ .inr 0 → (s₁.threads u).pc = .semWait := by
    intro u hu
    rw [hsame₁ u hu]
    exact (hidle u).pc
  obtain ⟨s₂, hr₂, hlock, hsame₂, hsh₂⟩ := waits (t := .inr 1) hr₁
    (by rw [hsh₁]; exact (hidle (.inl 0)).ok) (hpc₁ _ (by decide)) fun _ => by
      rw [hsh₁]
      show 0 < s.sh.csem - 1
      omega
  rw [hsh₁] at hsh₂
  have hpsem₂ : s₂.sh.psem = 0 := by
    rw [hsh₂]
    exact hpsem
  have hmutex : s₂.sh.mutex = some (.inr 0) := by
    rw [hsh₂]
    rfl
  refine ⟨s₂, hpsem₂, fun i => blocked_semWait ?_ hpsem₂, hmutex, blocked_lock hlock hmutex,
    nodes_never_stuck hr₂ ?_ ⟨.inl 0, rfl⟩ ⟨.inr 0, rfl⟩⟩
  · rw [hsame₂ _ (by simp)]
    exact hpc₁ _ (by simp)
  · rw [hsh₂]
    exact (hidle (.inl 0)).ok

/-- **No wake-up is lost.** With the condition variable, while there is a node
in the list and no thread is in the critical section, some customer can go on
by itself: they do not all sleep, so that a signal or a spurious return would
have to come first. -/
theorem cond_wakeup_never_lost (h : (nodes .cond role).Reachable s)
    (hm : s.sh.mutex = none) (hne : s.sh.mem.head ≠ none) (hc : ∃ c, role c = .customer) :
    ∃ c, role c = .customer ∧ CanAct .cond role c s := by
  have hi := reachable_inv h
  have hok : s.sh.mem.fault = false := by
    rw [Bool.eq_false_iff]
    exact fun hf => fault_holds h hf hm
  obtain ⟨c, hc⟩ := hc
  rcases hi.heard rfl hne with ⟨u, hu⟩ | hawake
  · have hcrit := hi.outside hm u
    cases hpc : (s.threads u).pc <;> rw [hpc] at hu hcrit <;> cases hu <;> cases hcrit
  · obtain ⟨c', hc', hpc⟩ := hawake c hc
    refine ⟨c', hc', free_canAct hok hm (hi.outside hm c') hpc (fun hs => ?_)⟩
    have hl := hi.allowed c'
    rw [hs] at hl
    simp [Pc.allowed] at hl

/-- A customer has slept on the empty list and was woken by a producer. -/
theorem cond_wakeup_after_sleep : ∃ s : State MainThread,
    (nodes .cond mainRole).Reachable s ∧ (s.threads (.inr 0)).pc = .relock ∧
    s.sh.mem.out = [.add 7 (.inl 0)] ∧
    ∃ c, mainRole c = .customer ∧ CanAct .cond mainRole c s := by
  obtain ⟨s, hr, hwait, hsame, hsh⟩ := sleeps (rfl : mainRole (.inr 0) = .customer)
    (mainStart_reachable .cond) (mainStart_idle .cond _) rfl
  have hidle : Idle .cond (.inl 0) s := by
    refine ⟨by rw [hsh]; rfl, by rw [hsh]; rfl, by rw [hsh]; rfl, ?_⟩
    rw [hsame _ (by decide)]
    rfl
  obtain ⟨s', hr', hturn, hout, hwoken⟩ := produces 7 (rfl : mainRole (.inl 0) = .producer)
    hr hidle fun hv => by cases hv
  have hne : s'.sh.mem.head ≠ none := by
    obtain ⟨xs, hq⟩ := reachable_quiet hr' hturn.idle.free
    have hlog := hq.log
    rw [hout, hsh] at hlog
    rw [Ne, hq.head_eq_none]
    rintro rfl
    cases hlog
  rw [hsh] at hout
  exact ⟨s', hr', hwoken rfl (.inr 0) (by decide) hwait, hout,
    cond_wakeup_never_lost hr' hturn.idle.free hne ⟨.inr 0, rfl⟩⟩

end LinuxServer.Threads
