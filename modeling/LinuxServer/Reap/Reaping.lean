import LinuxServer.Reap.Ledger

/-!
# Which children are reaped

Whether the parent collects its children depends on one variable: after the
loop, `pid` holds what the *last* `fork` returned. If that one failed, `pid`
is `-1`, neither branch is taken and the parent ends with its children
unreaped, whatever the earlier `fork`s did.

- §1 the end of `main`, from the invariant of `Ledger`.
- §2 the runs: every pattern of `fork` results can lead to the end.
- §3 exactly when the end is clean.
-/

namespace LinuxServer.Reap

open LinuxServer.Framework

/-! ## §1  The end of `main` -/

/-- What the loop of the parent is for: every child it created is reaped, and
there is one `child die` line for each and none for anybody else. -/
structure Clean (s : State) : Prop where
  reaped : ∀ p ∈ s.created, p ∈ s.reaped
  noneLeft : s.children = []
  once : ∀ p ∈ s.created, s.out.count (.childDie p.val) = 1
  noOther : ∀ r, Line.childDie r ∈ s.out → ∃ p ∈ s.created, p.val = r

section End

variable {v : Variant} {me : Pid} {s : State}

theorem pid_val_injective : Function.Injective Pid.val := by
  rintro ⟨a, ha⟩ ⟨b, hb⟩ h
  cases h
  rfl

/-- With no child left the ledger is settled. -/
theorem Inv.clean (h : Inv v s) (hend : s.self.pc = .done)
    (hnone : s.unreaped = []) : Clean s := by
  have hperm : s.created.Perm s.reaped := by
    have hp := h.perm
    rwa [hnone, List.append_nil] at hp
  have hdied : died s.out = s.reaped.map Pid.val := by
    rw [← h.lines, Local.pending, hend, List.append_nil]
  refine ⟨fun p hp => hperm.mem_iff.mp hp, List.map_eq_nil_iff.mp hnone, ?_, ?_⟩
  · intro p hp
    rw [count_died, hdied, List.count_map_of_injective _ _ pid_val_injective]
    exact List.count_eq_one_of_mem (hperm.nodup_iff.mp h.nodup) (hperm.mem_iff.mp hp)
  · intro r hr
    rw [← mem_died, hdied, List.mem_map] at hr
    obtain ⟨p, hp, rfl⟩ := hr
    exact ⟨p, hperm.mem_iff.mpr hp, rfl⟩

theorem Inv.forks_length (h : Inv v s) (hend : s.self.pc = .done) :
    s.forks.length = 5 := by
  have hphase := h.phase
  simp only [Local.Phase, hend] at hphase
  rcases hphase with ⟨⟨p, hlast⟩, -⟩ | ⟨hlast, -⟩
  · exact hlast.1
  · exact hlast.1

/-- With `pid` at `-1` the parent goes straight to the end. -/
theorem Inv.none_reaped (h : Inv v s) (hend : s.self.pc = .done)
    (hfail : s.forks.getLast? = some none) :
    s.reaped = [] ∧ ∀ r, Line.childDie r ∉ s.out := by
  have hphase := h.phase
  simp only [Local.Phase, hend] at hphase
  rcases hphase with ⟨⟨p, hlast⟩, -⟩ | ⟨-, hr⟩
  · rw [hlast.2] at hfail
    exact absurd hfail (by simp)
  · refine ⟨hr, fun r hmem => ?_⟩
    have hlines := h.lines
    rw [hr, List.map_nil, List.append_eq_nil_iff] at hlines
    rw [← mem_died, hlines.1] at hmem
    exact absurd hmem List.not_mem_nil

theorem Inv.clean_iff (h : Inv v s) (hend : s.self.pc = .done) :
    Clean s ↔ (∃ p, s.forks.getLast? = some (some p)) ∨ s.created = [] := by
  have hphase := h.phase
  simp only [Local.Phase, hend] at hphase
  rcases hphase with ⟨⟨p, hlast⟩, hnone⟩ | ⟨hlast, hr⟩
  · exact ⟨fun _ => Or.inl ⟨p, hlast.2⟩, fun _ => h.clean hend hnone⟩
  · constructor
    · intro hclean
      refine Or.inr (List.eq_nil_iff_forall_not_mem.mpr fun p hp => ?_)
      have hmem := hclean.reaped p hp
      rw [hr] at hmem
      exact absurd hmem List.not_mem_nil
    · rintro (⟨p, hp⟩ | hcreated)
      · rw [hlast.2] at hp
        exact absurd hp (by simp)
      · have hperm := h.perm
        rw [hcreated, hr, List.nil_append] at hperm
        exact h.clean hend hperm.symm.eq_nil

end End

/-! ## §2  Every pattern of `fork` results has a run to the end -/

section Runs

variable {v : Variant} {me : Pid} {s : State}

/-- The parent executes one statement. -/
theorem run_main (hr : (processes v me).Reachable s) (l : Local)
    (lines : List Line) (hn : s.self.next v me = some (l, lines)) :
    (processes v me).Reachable { s with self := l, out := s.out ++ lines } :=
  hr.step (Step.main l lines hn)

/-- Where the parent is after `rs` and before the next `fork`. -/
structure Forked (rs : List (Option Pid)) (s : State) : Prop where
  pc : s.self.pc = .loop
  i : s.self.i = rs.length
  forks : s.forks = rs
  unreaped : s.unreaped = rs.filterMap id
  pid : ∀ r, rs.getLast? = some r → s.self.pid = forkResult r

/-- After a `fork` the parent comes back to the head of its loop. -/
theorem forked_of_test {rs : List (Option Pid)} {r : Option Pid}
    (hs : (processes v me).Reachable s) (hpc : s.self.pc = .test)
    (hi : s.self.i = rs.length) (hpid : s.self.pid = forkResult r)
    (hforks : s.forks = rs ++ [r])
    (hunreaped : s.unreaped = (rs ++ [r]).filterMap id) :
    ∃ t, (processes v me).Reachable t ∧ Forked (rs ++ [r]) t := by
  have hne : s.self.pid ≠ 0 := hpid ▸ forkResult_ne_zero r
  have ht := run_main hs { s.self with pc := .loop, i := s.self.i + 1 } []
    (by simp [Local.next, hpc, hne])
  refine ⟨_, ht, rfl, ?_, hforks, hunreaped, fun r' hr' => ?_⟩
  · rw [List.length_append, ← hi]
    rfl
  · rw [List.getLast?_concat] at hr'
    cases hr'
    exact hpid

/-- The kernel may answer the `fork`s in any way. -/
theorem forks_reachable (v : Variant) (me : Pid) (rs : List (Option Pid))
    (hlen : rs.length ≤ 5) (hnodup : (rs.filterMap id).Nodup) :
    ∃ s, (processes v me).Reachable s ∧ Forked rs s := by
  induction rs using List.reverseRecOn with
  | nil =>
      refine ⟨⟨⟨.loop, 0, 0, 0, none⟩, [], [], [], []⟩,
        .init ⟨rfl, rfl, rfl, rfl, rfl, rfl⟩, rfl, rfl, rfl, rfl, ?_⟩
      intro r hr
      exact absurd hr (by simp)
  | append_singleton rs r ih =>
      rw [List.length_append, List.length_singleton] at hlen
      rw [List.filterMap_append] at hnodup
      obtain ⟨s, hs, hf⟩ := ih (by omega) (List.nodup_append.mp hnodup).1
      have hi : s.self.i < 5 := by
        rw [hf.i]
        omega
      have hfork := run_main hs { s.self with pc := .fork } []
        (by simp [Local.next, hf.pc, hi])
      cases r with
      | some p =>
          have hfresh : p ∉ s.unreaped := by
            rw [hf.unreaped]
            intro hp
            exact (List.nodup_append.mp hnodup).2.2 p hp p (by simp) rfl
          refine forked_of_test (hfork.step (Step.forkOk rfl p hfresh)) rfl hf.i rfl
            ?_ ?_
          · simp [hf.forks]
          · have hun := hf.unreaped
            simp only [State.unreaped] at hun ⊢
            simp [hun]
      | none =>
          refine forked_of_test (hfork.step (Step.forkFail rfl)) rfl hf.i rfl ?_ ?_
          · simp [hf.forks]
          · have hun := hf.unreaped
            simp only [State.unreaped] at hun ⊢
            simp [hun]

/-- A dead child is collected and the parent is back at its `wait`. -/
theorem collect_dead (hr : (processes v me).Reachable s) (hpc : s.self.pc = .wait)
    {p : Pid} {st : Status} {rest : List Child}
    (hc : s.children = ⟨p, .dead st⟩ :: rest) :
    ∃ t, (processes v me).Reachable t ∧ t.self.pc = .wait ∧ t.forks = s.forks ∧
      t.children = rest := by
  have hpos := p.pos
  have hne1 : p.val ≠ -1 := by omega
  have hne0 : p.val ≠ 0 := by omega
  have hreap := hr.step (Step.reap hpc [] rest p st hc)
  cases v with
  | wait =>
      have hcheck := run_main hreap
        { s.self.waited p.val (some st) with pc := .status } []
        (by simp [Local.next, Local.waited, hne1])
      have hdie := run_main (run_main hcheck _ _ rfl) _ _ rfl
      exact ⟨_, run_main (run_main hdie _ _ rfl) _ _ rfl, rfl, rfl, rfl⟩
  | waitpid =>
      have hcheck := run_main hreap
        { s.self.waited p.val (some st) with pc := .status } []
        (by simp [Local.next, Local.waited, hne1, hne0, hpos])
      have hdie := run_main (run_main hcheck _ _ rfl) _ _ rfl
      exact ⟨_, run_main (run_main hdie _ _ rfl) _ _ rfl, rfl, rfl, rfl⟩

/-- From its `wait` the parent can always come to the end. -/
theorem end_reachable : ∀ {cs : List Child} {s : State},
    (processes v me).Reachable s → s.self.pc = .wait → s.children = cs →
    ∃ t, (processes v me).Reachable t ∧ t.self.pc = .done ∧ t.forks = s.forks
  | [], s, hr, hpc, hc => by
      have hwait := hr.step (Step.noChild hpc hc)
      have hcheck := run_main hwait
        { s.self.waited (-1) s.self.st with pc := .done } []
        (by simp [Local.next, Local.waited])
      exact ⟨_, hcheck, rfl, rfl⟩
  | ⟨p, .running l⟩ :: cs, s, hr, hpc, hc => by
      -- the child may be killed right now
      have hdead := hr.step (Step.childDies [] cs p l (.signaled 9) hc)
      obtain ⟨t, ht, htpc, htf, htc⟩ := collect_dead hdead hpc rfl
      obtain ⟨u, hu, hupc, huf⟩ := end_reachable ht htpc htc
      exact ⟨u, hu, hupc, huf.trans htf⟩
  | ⟨p, .dead st⟩ :: cs, s, hr, hpc, hc => by
      obtain ⟨t, ht, htpc, htf, htc⟩ := collect_dead hr hpc hc
      obtain ⟨u, hu, hupc, huf⟩ := end_reachable ht htpc htc
      exact ⟨u, hu, hupc, huf.trans htf⟩

/-- **Whatever the five `fork`s return, the parent can come to the end.** -/
theorem fork_pattern_ends (v : Variant) (me : Pid) (rs : List (Option Pid))
    (hlen : rs.length = 5) (hnodup : (rs.filterMap id).Nodup) :
    ∃ s, (processes v me).Reachable s ∧ s.self.pc = .done ∧ s.forks = rs := by
  obtain ⟨s, hs, hf⟩ := forks_reachable v me rs (by omega) hnodup
  have hi : ¬ s.self.i < 5 := by
    rw [hf.i]
    omega
  obtain ⟨r, hlast⟩ : ∃ r, rs.getLast? = some r := by
    cases hrs : rs.getLast? with
    | none =>
        rw [List.getLast?_eq_none_iff.mp hrs] at hlen
        exact absurd hlen (by decide)
    | some r => exact ⟨r, rfl⟩
  have hpid := hf.pid r hlast
  have hbranch := run_main hs { s.self with pc := .branch } []
    (by simp [Local.next, hf.pc, hi])
  cases r with
  | none =>
      have hdone := run_main hbranch { s.self with pc := .done } []
        (by simp [Local.next, hpid, forkResult])
      exact ⟨_, hdone, rfl, hf.forks⟩
  | some p =>
      have hprint := run_main hbranch { s.self with pc := .parentPrint } []
        (by simp [Local.next, hpid, forkResult, p.pos])
      have hwait : ∃ t, (processes v me).Reachable t ∧ t.self.pc = .wait ∧
          t.forks = rs := by
        cases v with
        | wait => exact ⟨_, run_main hprint _ _ rfl, rfl, hf.forks⟩
        | waitpid =>
            have hsleep := run_main hprint _ _ rfl
            exact ⟨_, run_main hsleep _ _ rfl, rfl, hf.forks⟩
      obtain ⟨t, ht, htpc, htf⟩ := hwait
      obtain ⟨u, hu, hupc, huf⟩ := end_reachable ht htpc rfl
      exact ⟨u, hu, hupc, huf.trans htf⟩

end Runs

/-! ## §3  Exactly when the end is clean -/

/-- **At the end of `main` every child has been reaped and reported exactly
once if and only if the last `fork` succeeded, or none did.** -/
theorem parent_ends_clean_iff (me : Pid) (s : State)
    (h : (waitMain me).Reachable s ∨ (waitpidMain me).Reachable s)
    (hend : s.self.pc = .done) :
    s.forks.length = 5 ∧
      (Clean s ↔ (∃ p, s.forks.getLast? = some (some p)) ∨ s.created = []) := by
  rcases h with h | h
  · exact ⟨(reachable_inv h).forks_length hend, (reachable_inv h).clean_iff hend⟩
  · exact ⟨(reachable_inv h).forks_length hend, (reachable_inv h).clean_iff hend⟩

/-- Two of the `fork`s fail, the last does not: three children, all reaped. -/
theorem three_children_reaped :
    ∃ s, (waitpidMain ⟨100, by decide⟩).Reachable s ∧ s.self.pc = .done ∧
      s.created.length = 3 ∧ Clean s := by
  obtain ⟨s, hs, hend, hf⟩ := fork_pattern_ends .waitpid ⟨100, by decide⟩
    [some ⟨101, by decide⟩, none, some ⟨102, by decide⟩, none,
      some ⟨103, by decide⟩] rfl (by decide)
  have hiff := (parent_ends_clean_iff _ s (Or.inr hs) hend).2
  refine ⟨s, hs, hend, ?_, hiff.mpr (Or.inl ⟨⟨103, by decide⟩, ?_⟩)⟩
  · rw [State.created, hf]
    rfl
  · rw [hf]
    rfl

/-- Four `fork`s succeed and the last fails: both programs can end with none of
the four children reaped or reported. -/
theorem last_fork_fails_leaves_children :
    (∃ s, (waitMain ⟨100, by decide⟩).Reachable s ∧ s.self.pc = .done ∧
      s.created.length = 4 ∧ s.reaped = [] ∧ ∀ r, Line.childDie r ∉ s.out) ∧
    (∃ s, (waitpidMain ⟨100, by decide⟩).Reachable s ∧ s.self.pc = .done ∧
      s.created.length = 4 ∧ s.reaped = [] ∧ ∀ r, Line.childDie r ∉ s.out) := by
  have hrun : ∀ v, ∃ s, (processes v ⟨100, by decide⟩).Reachable s ∧
      s.self.pc = .done ∧ s.created.length = 4 ∧ s.reaped = [] ∧
      ∀ r, Line.childDie r ∉ s.out := by
    intro v
    obtain ⟨s, hs, hend, hf⟩ := fork_pattern_ends v ⟨100, by decide⟩
      [some ⟨101, by decide⟩, some ⟨102, by decide⟩, some ⟨103, by decide⟩,
        some ⟨104, by decide⟩, none] rfl (by decide)
    refine ⟨s, hs, hend, ?_, (reachable_inv hs).none_reaped hend ?_⟩
    · rw [State.created, hf]
      rfl
    · rw [hf]
      rfl
  exact ⟨hrun .wait, hrun .waitpid⟩

end LinuxServer.Reap
