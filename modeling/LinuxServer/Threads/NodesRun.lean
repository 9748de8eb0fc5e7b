import LinuxServer.Threads.NodeList

/-!
# Producers and customers: every interleaving

The invariant of the three programs and what one step keeps of it.

- §1 the invariant
- §2 one statement of one thread
- §3 threads that wake up
- §4 every run
- §5 the list, in whatever statement the threads are
-/

namespace LinuxServer.Threads

open LinuxServer.Framework

variable {τ : Type} [DecidableEq τ] [Fintype τ] {v : Version} {role : τ → Role}
  {s s' : State τ} {t : τ}

/-! ## §1  The invariant -/

/-- Inside the critical section. -/
def Local.Critical (l : Local) : Prop := l.pc.holds = true

/-- The list as the owner of the mutex finds it, or whole if there is none. -/
def State.Shows (v : Version) (s : State τ) (xs : List (ℕ × ℕ)) : Prop :=
  match s.sh.mutex with
  | none => Quiet s.sh.mem xs
  | some t => Finds v (s.threads t) s.sh.mem xs

def totalOwed (role : τ → Role) (f : τ → Local) : ℕ := ∑ t, (f t).pc.owed (role t)

def totalTaken (f : τ → Local) : ℕ := ∑ t, (f t).pc.taken

/-- From putting a node in to the signal for it. -/
def Pc.signals : Pc → Bool
  | .setNum | .printAdd | .signal => true
  | _ => false

/-- Somebody who is awake knows that there is a node: the producer that put it
in and has not signalled yet, or a customer. -/
def State.Heard (role : τ → Role) (s : State τ) : Prop :=
  (∃ u, (s.threads u).pc.signals = true) ∨
    ∀ c, role c = .customer → ∃ c', role c' = .customer ∧ (s.threads c').pc ≠ .waiting

structure Inv (v : Version) (role : τ → Role) (s : State τ) : Prop where
  exclusive : Exclusive Local.Critical s.threads s.sh.mutex
  allowed : ∀ t, (s.threads t).pc.allowed v (role t) = true
  safe : s.sh.mem.fault = true → s.sh.mem.oom = true
  list : ∃ xs, s.Shows v xs ∧ (v = .sem → xs.length = s.sh.csem + totalOwed role s.threads)
  units : v = .sem → s.sh.psem + s.sh.csem + totalTaken s.threads = 8
  heard : v = .cond → s.sh.mem.head ≠ none → s.Heard role

omit [DecidableEq τ] in
theorem start_inv (h : Start v s) : Inv v role s := by
  obtain ⟨hsh, hpc⟩ := h
  have hsum : v = .sem → totalOwed role s.threads = 0 ∧ totalTaken s.threads = 0 := by
    rintro rfl
    unfold totalOwed totalTaken
    constructor <;>
    · apply Finset.sum_eq_zero
      intro t _
      rw [hpc t]
      first
        | rfl
        | cases role t <;> rfl
  constructor
  · intro t
    unfold Local.Critical
    rw [hpc t, hsh]
    cases v <;> simp [Version.loopStart, Pc.holds, Shared.start]
  · intro t
    rw [hpc t]
    cases v <;> rfl
  · rw [hsh]
    intro h
    cases h
  · refine ⟨[], ?_, fun hv => ?_⟩
    · unfold State.Shows
      rw [hsh]
      refine ⟨rfl, ?_, fun _ ha => absurd ha List.not_mem_nil, rfl⟩
      intro a
      simp [Shared.start, addrs]
    · rw [hsh, (hsum hv).1]
      rfl
  · intro hv
    rw [hsh, (hsum hv).2]
    rfl
  · rw [hsh]
    intro _ h
    exact absurd rfl h

/-! ## §2  One statement of one thread -/

theorem Pc.Next.signals {p q : Pc} (h : p.Next .cond q) (hp : p.signals = true) :
    q.signals = true := by
  cases h with
  | setNum | printAdd => rfl
  | _ => cases hp

omit [DecidableEq τ] [Fintype τ] in
/-- Only `head = newNode;` makes an empty list one with a node. -/
theorem memory_head {k : Answer} {m m' : Memory τ} {l l' : Local}
    (h : m.stmt v t k l = some (m', l')) (hnone : m.head = none) (hne : m'.head ≠ none) :
    l'.pc = .setNum := by
  unfold Memory.stmt at h
  split at h
  case h_1 =>
    split at h
    · cases h
      exact absurd hnone hne
    · split at h <;> cases h
      exact absurd hnone hne
  case h_3 =>
    cases h
    rfl
  case h_6 =>
    cases h
    exact absurd hnone hne
  case h_8 =>
    -- `head->next` of an empty list faults
    rw [hnone] at h
    cases h
    exact absurd hnone hne
  case h_10 =>
    split at h
    · cases h
      exact absurd hnone hne
    · split at h <;> cases h <;> exact absurd hnone hne
  case h_11 => cases h
  all_goals
    split at h <;> cases h <;> exact absurd hnone hne

omit [DecidableEq τ] [Fintype τ] in
theorem Outside.signals {r : Role} {sh sh' : Shared τ} {l l' : Local}
    (h : Outside r v t sh l sh' l') : l'.pc ≠ .waiting ∧ l.pc.signals = false := by
  cases h with
  | waitPsem hpc | waitCsem hpc | relock hpc => exact ⟨by simp, by rw [hpc]; rfl⟩
  | lock hpc => exact ⟨by cases r <;> simp [Role.afterLock], by rw [hpc]; rfl⟩
  | postCsem hpc | postPsem hpc =>
      exact ⟨by cases v <;> simp [Version.loopStart], by rw [hpc]; rfl⟩

omit [DecidableEq τ] [Fintype τ] in
/-- What a statement does to the wake-ups. -/
theorem stmt_heard {r : Role} {k : Answer} {sh sh' : Shared τ} {l l' : Local}
    (h : stmt .cond r t k sh l = some (sh', l')) :
    (l'.pc = .waiting → l.pc = .condWait ∨ l' = l) ∧
    (l.pc.signals = true → l'.pc.signals = true) ∧
    (sh.mem.head = none → sh'.mem.head ≠ none → l'.pc.signals = true) := by
  cases hc : l.pc.holds with
  | false =>
      have ho := stmt_outside h hc
      refine ⟨fun hw => absurd hw ho.signals.1, fun hs => ?_, fun hnone hne => ?_⟩
      · rw [ho.signals.2] at hs
        cases hs
      · rw [ho.mem_eq] at hne
        exact absurd hnone hne
  | true =>
      rcases stmt_inside h hc with ⟨m', hm, rfl⟩ | ⟨rfl, ⟨hpc, rfl⟩ | ⟨hpc, rfl⟩⟩
      · refine ⟨fun hw => ?_, fun hs => ?_, fun hnone hne => ?_⟩
        · rcases memory_next hm with hnext | ⟨-, rfl, -⟩
          · have hin := hnext.holds.2
            rw [hw] at hin
            cases hin
          · exact .inr rfl
        · rcases memory_next hm with hnext | ⟨-, rfl, -⟩
          · exact hnext.signals hs
          · exact hs
        · rw [memory_head hm hnone hne]
          rfl
      · refine ⟨fun hw => (by cases hw), fun hs => ?_, fun hnone hne => absurd hnone hne⟩
        rw [hpc] at hs
        cases hs
      · refine ⟨fun _ => .inl hpc, fun hs => ?_, fun hnone hne => absurd hnone hne⟩
        rw [hpc] at hs
        cases hs

theorem exclusive_run {k : Answer} {sh' : Shared τ} {l' : Local} (hi : Inv v role s)
    (h : stmt v (role t) t k s.sh (s.threads t) = some (sh', l')) :
    Exclusive Local.Critical (Function.update s.threads t l') sh'.mutex := by
  have hown := hi.exclusive t
  rcases (stmt_flow h (hi.allowed t)).1 with ⟨hfree, hm, -, hc⟩ | ⟨hm, hc, hc'⟩ | ⟨hm, hc⟩
  · rw [hm]
    have hex := hi.exclusive
    rw [hfree] at hex
    exact hex.lock hc
  · rw [hm]
    apply Exclusive.unlock
    · rw [← hown.mp hc]
      exact hi.exclusive
    · unfold Local.Critical
      rw [hc']
      simp
  · rw [hm]
    apply hi.exclusive.move
    unfold Local.Critical
    rw [hc]

theorem heard_run {k : Answer} {sh' : Shared τ} {l' : Local} (hi : Inv .cond role s)
    (h : stmt .cond (role t) t k s.sh (s.threads t) = some (sh', l'))
    (hne : sh'.mem.head ≠ none) :
    State.Heard role ⟨Function.update s.threads t l', sh'⟩ := by
  obtain ⟨hwait, hsig, hput⟩ := stmt_heard h
  by_cases hhead : s.sh.mem.head = none
  · refine .inl ⟨t, ?_⟩
    show (Function.update s.threads t l' t).pc.signals = true
    rw [Function.update_self]
    exact hput hhead hne
  rcases hi.heard rfl hhead with ⟨u, hu⟩ | hawake
  · refine .inl ⟨u, ?_⟩
    show (Function.update s.threads t l' u).pc.signals = true
    by_cases hut : u = t
    · subst hut
      rw [Function.update_self]
      exact hsig hu
    · rw [Function.update_of_ne hut]
      exact hu
  · refine .inr fun c hc => ?_
    obtain ⟨c', hc', hpc⟩ := hawake c hc
    refine ⟨c', hc', ?_⟩
    show (Function.update s.threads t l' c').pc ≠ .waiting
    by_cases hct : c' = t
    · subst hct
      rw [Function.update_self]
      intro hw
      -- it goes to sleep only after it found the list empty
      obtain hcw | rfl := hwait hw
      swap
      · exact hpc hw
      obtain ⟨xs, hxs, -⟩ := hi.list
      have hown : s.sh.mutex = some c' := (hi.exclusive c').mp (by rw [Local.Critical, hcw]; rfl)
      unfold State.Shows at hxs
      simp only [hown, Finds, hcw] at hxs
      exact hhead (hxs.2.head_eq_none.mpr hxs.1)
    · rw [Function.update_of_ne hct]
      exact hpc

theorem owed_run (role : τ → Role) (s : State τ) (t : τ) (l' : Local) :
    totalOwed role (Function.update s.threads t l') + (s.threads t).pc.owed (role t) =
      totalOwed role s.threads + l'.pc.owed (role t) :=
  sum_update (fun u (l : Local) => l.pc.owed (role u)) s.threads t l'

theorem taken_run (s : State τ) (t : τ) (l' : Local) :
    totalTaken (Function.update s.threads t l') + (s.threads t).pc.taken =
      totalTaken s.threads + l'.pc.taken :=
  sum_update (fun _ (l : Local) => l.pc.taken) s.threads t l'

omit [DecidableEq τ] in
/-- A customer of the version without a test finds the list not empty: its unit
of `csem` stands for a node that is still there. -/
theorem advance_nonempty {xs : List (ℕ × ℕ)} (hv : v = .sem) (hi : Inv v role s)
    (hlen : v = .sem → xs.length = s.sh.csem + totalOwed role s.threads)
    (hpc : (s.threads t).pc = .advance) : xs ≠ [] := by
  have hrole : role t = .customer := by
    have hl := hi.allowed t
    rw [hpc] at hl
    simpa [Pc.allowed] using hl
  have howed : 1 ≤ totalOwed role s.threads := by
    have hle := le_sum (fun u (l : Local) => l.pc.owed (role u)) s.threads t
    rw [hpc, hrole] at hle
    exact hle
  intro hnil
  rw [hnil, List.length_nil] at hlen
  have := hlen hv
  omega

/-- The list and the count after a statement outside the critical section. -/
theorem list_outside {k : Answer} {sh' : Shared τ} {l' : Local} {xs : List (ℕ × ℕ)}
    (hi : Inv v role s) (h : stmt v (role t) t k s.sh (s.threads t) = some (sh', l'))
    (hc : (s.threads t).pc.holds = false) (hxs : s.Shows v xs) :
    State.Shows v ⟨Function.update s.threads t l', sh'⟩ xs := by
  have ho := stmt_outside h hc
  unfold State.Shows at hxs ⊢
  rw [ho.mem_eq]
  rcases ho.mutex with ⟨hfree, hm, hc'⟩ | ⟨hm, -⟩
  · simp only [hm, Function.update_self]
    simp only [hfree] at hxs
    exact ho.finds hc' hxs
  · simp only [hm]
    cases howner : s.sh.mutex with
    | none => simpa only [howner] using hxs
    | some u =>
        have hut : u ≠ t := by
          rintro rfl
          have hcrit := (hi.exclusive u).mpr howner
          rw [Local.Critical, hc] at hcrit
          cases hcrit
        simp only [howner, Function.update_of_ne hut] at hxs ⊢
        exact hxs

theorem list_run {k : Answer} {sh' : Shared τ} {l' : Local} (hi : Inv v role s)
    (h : stmt v (role t) t k s.sh (s.threads t) = some (sh', l')) :
    (sh'.mem.fault = true → sh'.mem.oom = true) ∧
    ∃ xs, State.Shows v ⟨Function.update s.threads t l', sh'⟩ xs ∧
      (v = .sem → xs.length =
        sh'.csem + totalOwed role (Function.update s.threads t l')) := by
  have hl := hi.allowed t
  have hsum := owed_run role s t l'
  obtain ⟨xs, hxs, hlen⟩ := hi.list
  cases hc : (s.threads t).pc.holds with
  | false =>
      have ho := stmt_outside h hc
      refine ⟨by rw [ho.mem_eq]; exact hi.safe, xs, list_outside hi h hc hxs, ?_⟩
      rintro rfl
      have := hlen rfl
      have := ho.owed hl
      omega
  | true =>
      have hmutex := (hi.exclusive t).mp hc
      unfold State.Shows at hxs ⊢
      simp only [hmutex] at hxs
      rcases stmt_inside h hc with ⟨m', hm, rfl⟩ | ⟨rfl, hpc⟩
      · obtain ⟨xs', hfinds, hsafe, hcount⟩ := memory_moves hl hm hxs
          (fun hv => advance_nonempty hv hi hlen) hi.safe
        simp only [hmutex, Function.update_self]
        refine ⟨hsafe, xs', hfinds, fun hv => ?_⟩
        have := hlen hv
        have := hcount hv
        omega
      · refine ⟨hi.safe, xs, ?_, fun hv => ?_⟩
        · rcases hpc with ⟨hpc, -⟩ | ⟨hpc, -⟩ <;> simp only [Finds, hpc] at hxs
          · exact hxs
          · exact hxs.2
        · have howed : l'.pc.owed (role t) = (s.threads t).pc.owed (role t) := by
            rcases hpc with ⟨hpc, rfl⟩ | ⟨hpc, -⟩
            · rw [hpc, hv]
              cases role t <;> rfl
            · rw [hpc, hv] at hl
              simp [Pc.allowed] at hl
          have := hlen hv
          show xs.length = s.sh.csem + _
          omega

theorem run_inv {k : Answer} {sh' : Shared τ} {l' : Local} (hi : Inv v role s)
    (h : stmt v (role t) t k s.sh (s.threads t) = some (sh', l')) :
    Inv v role ⟨Function.update s.threads t l', sh'⟩ := by
  obtain ⟨-, hallowed, hunits⟩ := stmt_flow h (hi.allowed t)
  obtain ⟨hsafe, hlist⟩ := list_run hi h
  refine ⟨exclusive_run hi h, ?_, hsafe, hlist, fun hv => ?_, ?_⟩
  · intro u
    by_cases hut : u = t
    · subst hut
      simpa using hallowed
    · simpa [Function.update_of_ne hut] using hi.allowed u
  · have h8 := hi.units hv
    have hone := hunits hv
    have hsum := taken_run s t l'
    show sh'.psem + sh'.csem + totalTaken (Function.update s.threads t l') = 8
    omega
  · rintro rfl hne
    exact heard_run hi h hne

/-! ## §3  Threads that wake up -/

section Wake

variable {woken : τ → Bool}

omit [DecidableEq τ] [Fintype τ] in
theorem wake_of_ne (hwait : ∀ u, woken u = true → (s.threads u).pc = .waiting) {u : τ}
    (hu : (s.threads u).pc ≠ .waiting) : wake s.threads woken u = s.threads u := by
  unfold wake
  rw [if_neg (fun hw => hu (hwait u hw))]

omit [DecidableEq τ] in
/-- A thread that returns from the wait in `pthread_cond_wait` is still outside
the critical section. -/
theorem wake_inv (hi : Inv v role s)
    (hwait : ∀ u, woken u = true → (s.threads u).pc = .waiting) :
    Inv v role ⟨wake s.threads woken, s.sh⟩ := by
  have hwaiting : ∀ u, woken u = true → role u = .customer ∧ v = .cond := by
    intro u hu
    have hl := hi.allowed u
    rw [hwait u hu] at hl
    simpa [Pc.allowed] using hl
  have hsem : v = .sem → wake s.threads woken = s.threads := by
    rintro rfl
    funext u
    exact if_neg fun hw => by cases (hwaiting u hw).2
  refine ⟨fun u => ?_, fun u => ?_, hi.safe, ?_, ?_, ?_⟩
  · rw [← hi.exclusive u]
    show (wake s.threads woken u).pc.holds = true ↔ (s.threads u).pc.holds = true
    unfold wake
    split
    · rename_i hw
      rw [hwait u hw]
      rfl
    · rfl
  · show (wake s.threads woken u).pc.allowed v (role u) = true
    unfold wake
    split
    · rename_i hw
      obtain ⟨hrole, rfl⟩ := hwaiting u hw
      rw [hrole]
      rfl
    · exact hi.allowed u
  · obtain ⟨xs, hxs, hlen⟩ := hi.list
    refine ⟨xs, ?_, fun hv => by rw [hsem hv]; exact hlen hv⟩
    unfold State.Shows at hxs ⊢
    cases howner : s.sh.mutex with
    | none => simpa only [howner] using hxs
    | some u =>
        have hne : (s.threads u).pc ≠ .waiting := by
          intro hpc
          have hcrit := (hi.exclusive u).mpr howner
          rw [Local.Critical, hpc] at hcrit
          cases hcrit
        simpa only [howner, wake_of_ne hwait hne] using hxs
  · intro hv
    rw [hsem hv]
    exact hi.units hv
  · intro hv hne
    rcases hi.heard hv hne with ⟨u, hu⟩ | hawake
    · refine .inl ⟨u, ?_⟩
      show (wake s.threads woken u).pc.signals = true
      rw [wake_of_ne hwait (fun hpc => by rw [hpc] at hu; cases hu)]
      exact hu
    · refine .inr fun c hc => ?_
      obtain ⟨c', hc', hpc⟩ := hawake c hc
      refine ⟨c', hc', ?_⟩
      show (wake s.threads woken c').pc ≠ .waiting
      rw [wake_of_ne hwait hpc]
      exact hpc

omit [Fintype τ] in
/-- After the signal a customer is awake: one was woken, or none had been
waiting. -/
theorem signal_heard (hpc : (s.threads t).pc = .signal) (hrole : role t = .producer)
    (hwait : ∀ u, woken u = true → (s.threads u).pc = .waiting)
    (hcust : ∀ u, woken u = true → role u = .customer)
    (hone : ∀ u, (s.threads u).pc = .waiting → ∃ u', woken u' = true) :
    State.Heard role ⟨signalled s.threads t woken, s.sh⟩ := by
  refine .inr fun c hc => ?_
  have hother : ∀ u, role u = .customer →
      signalled s.threads t woken u = wake s.threads woken u := by
    intro u hu
    apply Function.update_of_ne
    rintro rfl
    rw [hrole] at hu
    cases hu
  by_cases hcw : (s.threads c).pc = .waiting
  · obtain ⟨u, hu⟩ := hone c hcw
    refine ⟨u, hcust u hu, ?_⟩
    show (signalled s.threads t woken u).pc ≠ .waiting
    rw [hother u (hcust u hu), wake, if_pos hu]
    simp
  · refine ⟨c, hc, ?_⟩
    show (signalled s.threads t woken c).pc ≠ .waiting
    rw [hother c hc, wake_of_ne hwait hcw]
    exact hcw

theorem signal_inv (hi : Inv v role s) (hpc : (s.threads t).pc = .signal)
    (hwait : ∀ u, woken u = true → (s.threads u).pc = .waiting)
    (hone : ∀ u, (s.threads u).pc = .waiting → ∃ u', woken u' = true) :
    Inv v role ⟨signalled s.threads t woken, s.sh⟩ := by
  have hl := hi.allowed t
  rw [hpc] at hl
  obtain ⟨hrole, rfl⟩ : role t = .producer ∧ v = .cond := by simpa [Pc.allowed] using hl
  have hw := wake_inv hi hwait
  have hself : wake s.threads woken t = s.threads t := by
    apply wake_of_ne hwait
    rw [hpc]
    simp
  have hmutex : s.sh.mutex = some t := by
    apply (hi.exclusive t).mp
    rw [Local.Critical, hpc]
    rfl
  have hcust : ∀ u, woken u = true → role u = .customer := by
    intro u hu
    have hlu := hi.allowed u
    rw [hwait u hu] at hlu
    simpa [Pc.allowed] using hlu
  refine ⟨?_, fun u => ?_, hi.safe, ?_, fun hv => (by cases hv), fun _ _ =>
    signal_heard hpc hrole hwait hcust hone⟩
  · apply hw.exclusive.move
    show _ ↔ (wake s.threads woken t).Critical
    rw [hself]
    simp [Local.Critical, hpc, Pc.holds]
  · by_cases hut : u = t
    · subst hut
      simp [signalled, Pc.allowed]
    · simpa only [signalled, Function.update_of_ne hut] using hw.allowed u
  · obtain ⟨xs, hxs, -⟩ := hi.list
    refine ⟨xs, ?_, fun hv => (by cases hv)⟩
    unfold State.Shows at hxs ⊢
    simp only [hmutex, Finds, hpc] at hxs
    simp only [hmutex, signalled, Function.update_self, Finds]
    exact hxs

end Wake

/-! ## §4  Every run -/

theorem step_inv (hi : Inv v role s) (h : Step v role s s') : Inv v role s' := by
  cases h with
  | act t h =>
      cases h with
      | run _ k sh l h => exact run_inv hi h
      | signal _ hpc woken hwait hone => exact signal_inv hi hpc hwait hone
  | spurious _ t hpc =>
      apply wake_inv hi
      intro u hu
      rw [eq_of_beq hu]
      exact hpc

/-- **The invariant holds in every interleaving.** -/
theorem reachable_inv (h : (nodes v role).Reachable s) : Inv v role s :=
  System.invariant (I := Inv v role) (fun _ h0 => start_inv h0)
    (fun _ _ _ hi hst => step_inv hi hst) h

/-- A thread that faulted is still in the critical section. -/
theorem fault_holds (h : (nodes v role).Reachable s) :
    s.sh.mem.fault = true → s.sh.mutex ≠ none := by
  refine System.invariant (M := nodes v role)
    (I := fun s => s.sh.mem.fault = true → s.sh.mutex ≠ none) ?_ ?_ h
  · rintro s ⟨hsh, -⟩ hf
    rw [hsh] at hf
    cases hf
  · intro s s' hr _ hst
    cases hst with
    | spurious hok =>
        intro hf
        rw [hok] at hf
        cases hf
    | act t ha =>
        cases ha with
        | signal hok =>
            intro hf
            rw [hok] at hf
            cases hf
        | run hok k sh' l' hrun =>
            show sh'.mem.fault = true → sh'.mutex ≠ none
            intro hf
            cases hc : (s.threads t).pc.holds with
            | false =>
                rw [(stmt_outside hrun hc).mem_eq, hok] at hf
                cases hf
            | true =>
                rcases stmt_inside hrun hc with ⟨m', -, rfl⟩ | ⟨rfl, -⟩
                · show s.sh.mutex ≠ none
                  rw [((reachable_inv hr).exclusive t).mp hc]
                  simp
                · rw [hok] at hf
                  cases hf

omit [DecidableEq τ] in
theorem Inv.outside (hi : Inv v role s) (hm : s.sh.mutex = none) (t : τ) :
    (s.threads t).pc.holds = false := by
  rw [Bool.eq_false_iff]
  intro hcrit
  rw [(hi.exclusive t).mp hcrit] at hm
  cases hm

/-! ## §5  The list, in whatever statement the threads are -/

omit [DecidableEq τ] [Fintype τ] in
/-- In whatever statement a thread is, the list is there, with at most one
node beside it, which the thread itself names, and the terminal is the history
of a stack. The node beside the list is none that is owed to the semaphores. -/
theorem finds_listed {l : Local} {m : Memory τ} {xs : List (ℕ × ℕ)} (r : Role)
    (h : Finds v l m xs) :
    ∃ extra stack, Listed m xs extra stack ∧ extra.length + l.pc.owed r ≤ 1 ∧
      ∀ a ∈ extra, l.newNode = some a ∨ l.tmp = some a := by
  have hnil : ∀ a ∈ ([] : List ℕ), l.newNode = some a ∨ l.tmp = some a := List.forall_mem_nil _
  cases hpc : l.pc <;> simp only [Finds, hpc] at h
  case setNext =>
    rcases h with ⟨-, -, h⟩ | ⟨a, hnew, h⟩
    · exact ⟨[], _, h, by cases r <;> simp [Pc.owed], hnil⟩
    · exact ⟨[a], _, h, by cases r <;> simp [Pc.owed], List.forall_mem_singleton.mpr (.inl hnew)⟩
  case setHead =>
    obtain ⟨a, n, hnew, -, h⟩ := h
    exact ⟨[a], _, h, by cases r <;> simp [Pc.owed], List.forall_mem_singleton.mpr (.inl hnew)⟩
  case printDel =>
    obtain ⟨a, c, htmp, -, h⟩ := h
    exact ⟨[a], _, h, by cases r <;> simp [Pc.owed], List.forall_mem_singleton.mpr (.inr htmp)⟩
  case free =>
    obtain ⟨a, htmp, h⟩ := h
    exact ⟨[a], _, h, by cases r <;> simp [Pc.owed], List.forall_mem_singleton.mpr (.inr htmp)⟩
  case setNum | printAdd =>
    obtain ⟨a, n, rest, -, -, h⟩ := h
    exact ⟨[], _, h, by cases r <;> simp [Pc.owed], hnil⟩
  case test | condWait => exact ⟨[], _, h.2, by cases r <;> simp [Pc.owed], hnil⟩
  case advance => exact ⟨[], _, h.2.2, by cases r <;> simp [Pc.owed], hnil⟩
  all_goals exact ⟨[], _, h, by cases r <;> simp [Pc.owed], hnil⟩

/-- The nodes beside the list are at most one, which the owner of the mutex is
putting in or has taken out. -/
structure State.Beside (role : τ → Role) (s : State τ) (extra : List ℕ) : Prop where
  one : extra.length ≤ 1
  none : s.sh.mutex = none → extra = []
  named : ∀ a ∈ extra, ∃ t, s.sh.mutex = some t ∧
    ((s.threads t).newNode = some a ∨ (s.threads t).tmp = some a)
  owed : ∀ t, s.sh.mutex = some t → extra.length + (s.threads t).pc.owed (role t) ≤ 1

omit [Fintype τ] [DecidableEq τ] in
theorem shows_listed {xs : List (ℕ × ℕ)} (role : τ → Role) (h : s.Shows v xs) :
    ∃ extra stack, Listed s.sh.mem xs extra stack ∧ s.Beside role extra ∧
      (s.sh.mutex = none → stack = vals xs) := by
  unfold State.Shows at h
  cases hm : s.sh.mutex with
  | none =>
      simp only [hm] at h
      refine ⟨[], vals xs, h, ⟨by simp, fun _ => rfl, ?_, fun t ht => ?_⟩, fun _ => rfl⟩
      · exact fun _ ha => absurd ha List.not_mem_nil
      · rw [hm] at ht
        cases ht
  | some u =>
      simp only [hm] at h
      obtain ⟨extra, stack, hl, hlen, hnamed⟩ := finds_listed (role u) h
      refine ⟨extra, stack, hl, ⟨by omega, fun hnone => ?_, fun a ha => ?_, fun t ht => ?_⟩,
        fun hnone => (by cases hnone)⟩
      · rw [hm] at hnone
        cases hnone
      · exact ⟨u, hm, hnamed a ha⟩
      · rw [hm] at ht
        cases ht
        exact hlen

theorem reachable_listed (h : (nodes v role).Reachable s) :
    ∃ xs extra stack, Listed s.sh.mem xs extra stack ∧ s.Beside role extra ∧
      (s.sh.mutex = none → stack = vals xs) := by
  obtain ⟨xs, hxs, -⟩ := (reachable_inv h).list
  exact ⟨xs, shows_listed role hxs⟩

theorem reachable_quiet (h : (nodes v role).Reachable s) (hm : s.sh.mutex = none) :
    ∃ xs, Quiet s.sh.mem xs := by
  obtain ⟨xs, hxs, -⟩ := (reachable_inv h).list
  unfold State.Shows at hxs
  simp only [hm] at hxs
  exact ⟨xs, hxs⟩

theorem heap_fresh (h : (nodes v role).Reachable s) : ∃ a, s.sh.mem.heap a = none := by
  obtain ⟨xs, extra, stack, hl, -, -⟩ := reachable_listed h
  exact hl.owns.fresh

end LinuxServer.Threads
