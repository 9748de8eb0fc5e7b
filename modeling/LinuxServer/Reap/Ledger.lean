import LinuxServer.Reap.Processes

/-!
# The ledger of the children

What holds along every run of `wait.c` and `waitpid.c`, whatever the kernel
answers.

- §1 what is printed about a child.
- §2 the invariant: a ledger of the children, and for each statement of the
  parent what holds there.
- §3 one step, and every run.
-/

namespace LinuxServer.Reap

open LinuxServer.Framework

/-! ## §1  The `child die` lines -/

def diedPid : Line → Option Int
  | .childDie r => some r
  | _ => none

/-- The ids in the `child die` lines, in order. -/
def died (out : List Line) : List Int := out.filterMap diedPid

theorem died_append (out lines : List Line) :
    died (out ++ lines) = died out ++ died lines :=
  List.filterMap_append

theorem mem_died {out : List Line} {r : Int} :
    r ∈ died out ↔ Line.childDie r ∈ out := by
  rw [died, List.mem_filterMap]
  constructor
  · rintro ⟨line, hmem, hline⟩
    cases line with
    | childDie r' => exact Option.some.inj hline ▸ hmem
    | parent p => exact absurd hline (by simp [diedPid])
    | exitStatus code => exact absurd hline (by simp [diedPid])
    | termSignal sig => exact absurd hline (by simp [diedPid])
    | child p => exact absurd hline (by simp [diedPid])
  · intro hmem
    exact ⟨_, hmem, rfl⟩

theorem count_died (r : Int) : ∀ out : List Line,
    out.count (.childDie r) = (died out).count r
  | [] => rfl
  | line :: out => by
      have ih := count_died r out
      cases line with
      | childDie r' =>
          rw [show died (.childDie r' :: out) = r' :: died out from rfl,
            List.count_cons, List.count_cons, ih]
          simp
      | parent p => rwa [List.count_cons_of_ne (by simp)]
      | exitStatus code => rwa [List.count_cons_of_ne (by simp)]
      | termSignal sig => rwa [List.count_cons_of_ne (by simp)]
      | child p => rwa [List.count_cons_of_ne (by simp)]

theorem died_report (st : Option Status) :
    died ((st.map Status.report).getD []) = [] := by
  cases st with
  | none => rfl
  | some st => cases st <;> rfl

/-! ## §2  The invariant -/

/-- The reaped child whose line is still to be printed. -/
def Local.pending (l : Local) : List Int :=
  match l.pc with
  | .check => if 0 < l.ret then [l.ret] else []
  | .status => [l.ret]
  | .die => [l.ret]
  | _ => []

/-- A child never leaves its own branch: it is not in the `fork` loop, does not
wait and does not end by itself. -/
def Local.InChild (l : Local) : Prop :=
  l.pid = 0 ∧
    (l.pc = .test ∨ l.pc = .branch ∨ l.pc = .childPrint ∨ l.pc = .childSleep)

/-- Every child is accounted for: it is reaped or unreaped, a reaped one has
its line or is about to get it, and an unreaped one is in its own branch. -/
structure Ledger (s : State) : Prop where
  perm : s.created.Perm (s.reaped ++ s.unreaped)
  nodup : s.created.Nodup
  lines : died s.out ++ s.self.pending = s.reaped.map Pid.val
  kids : ∀ p l, Child.mk p (.running l) ∈ s.children → l.InChild

/-- The last of `n` forks returned `r`. -/
def LastFork (forks : List (Option Pid)) (n : ℕ) (r : Option Pid) : Prop :=
  forks.length = n ∧ forks.getLast? = some r

/-- What holds at each statement of the parent. -/
def Local.Phase (v : Variant) (forks : List (Option Pid)) (reaped unreaped : List Pid)
    (l : Local) : Prop :=
  match l.pc with
  | .loop => reaped = [] ∧ forks.length = l.i ∧ l.i ≤ 5 ∧
      (l.i = 5 → ∃ r, LastFork forks 5 r ∧ l.pid = forkResult r)
  | .fork => reaped = [] ∧ forks.length = l.i ∧ l.i < 5
  | .test => reaped = [] ∧ l.i < 5 ∧
      ∃ r, LastFork forks (l.i + 1) r ∧ l.pid = forkResult r
  | .branch => reaped = [] ∧ ∃ r, LastFork forks 5 r ∧ l.pid = forkResult r
  | .parentPrint => ∃ p, LastFork forks 5 (some p)
  | .sleep => ∃ p, LastFork forks 5 (some p)
  | .wait => ∃ p, LastFork forks 5 (some p)
  | .check => (∃ p, LastFork forks 5 (some p)) ∧
      (0 < l.ret ∨ (l.ret = 0 ∧ v = .waitpid) ∨ (l.ret = -1 ∧ unreaped = []))
  | .status => (∃ p, LastFork forks 5 (some p)) ∧ 0 < l.ret
  | .die => (∃ p, LastFork forks 5 (some p)) ∧ 0 < l.ret
  | .childPrint => False
  | .childSleep => False
  | .done => ((∃ p, LastFork forks 5 (some p)) ∧ unreaped = []) ∨
      (LastFork forks 5 none ∧ reaped = [])

/-! ## §3  One step, and every run -/

theorem forkResult_ne_zero (r : Option Pid) : forkResult r ≠ 0 := by
  cases r with
  | none => decide
  | some p => exact ne_of_gt p.pos

theorem forkResult_pos {r : Option Pid} (h : 0 < forkResult r) :
    ∃ p, r = some p := by
  cases r with
  | none => exact absurd h (by decide)
  | some p => exact ⟨p, rfl⟩

theorem forkResult_not_pos {r : Option Pid} (h : ¬ 0 < forkResult r) : r = none := by
  cases r with
  | none => rfl
  | some p => exact absurd p.pos h

section Next

variable {v : Variant} {me : Pid} {l l' : Local} {lines : List Line}
variable {forks : List (Option Pid)} {reaped unreaped : List Pid}

/-- A child stays in its branch and prints no `child die`. -/
theorem next_inChild (h : l.next v me = some (l', lines)) (hl : l.InChild) :
    l'.InChild ∧ died lines = [] := by
  obtain ⟨hpid, hpc | hpc | hpc | hpc⟩ := hl
  all_goals
    simp only [Local.next, hpc, hpid, if_pos, lt_irrefl, if_false, Option.some.injEq,
      Prod.mk.injEq] at h
    obtain ⟨rfl, rfl⟩ := h
    exact ⟨⟨rfl, by simp⟩, rfl⟩

/-- A statement of the parent that moves it on to the next phase and prints the
line it owes, and no other. -/
def Advances (v : Variant) (forks : List (Option Pid)) (reaped unreaped : List Pid)
    (l l' : Local) (lines : List Line) : Prop :=
  l'.Phase v forks reaped unreaped ∧ died lines ++ l'.pending = l.pending

theorem next_loop (hpc : l.pc = .loop) (h : l.next v me = some (l', lines))
    (hl : l.Phase v forks reaped unreaped) :
    Advances v forks reaped unreaped l l' lines := by
  simp only [Local.Phase, hpc] at hl
  obtain ⟨hr, hlen, hle, hlast⟩ := hl
  simp only [Local.next, hpc, Option.some.injEq, Prod.mk.injEq] at h
  obtain ⟨rfl, rfl⟩ := h
  by_cases hi : l.i < 5
  · simp only [Advances, Local.Phase, Local.pending, hpc, if_pos hi]
    exact ⟨⟨hr, hlen, hi⟩, rfl⟩
  · obtain ⟨r, hr5, hpid⟩ := hlast (by omega)
    simp only [Advances, Local.Phase, Local.pending, hpc, if_neg hi]
    exact ⟨⟨hr, r, hr5, hpid⟩, rfl⟩

/-- The parent does not `break`: no `fork` returns `0` to it. -/
theorem next_test (hpc : l.pc = .test) (h : l.next v me = some (l', lines))
    (hl : l.Phase v forks reaped unreaped) :
    Advances v forks reaped unreaped l l' lines := by
  simp only [Local.Phase, hpc] at hl
  obtain ⟨hr, hi, r, hlast, hpid⟩ := hl
  have hne : l.pid ≠ 0 := hpid ▸ forkResult_ne_zero r
  simp only [Local.next, hpc, if_neg hne, Option.some.injEq, Prod.mk.injEq] at h
  obtain ⟨rfl, rfl⟩ := h
  simp only [Advances, Local.Phase, Local.pending, hpc]
  refine ⟨⟨hr, hlast.1, by omega, fun hi5 => ⟨r, ?_, hpid⟩⟩, rfl⟩
  rw [← hi5]
  exact hlast

/-- The last `fork` alone decides whether the parent waits or ends. -/
theorem next_branch (hpc : l.pc = .branch) (h : l.next v me = some (l', lines))
    (hl : l.Phase v forks reaped unreaped) :
    Advances v forks reaped unreaped l l' lines := by
  simp only [Local.Phase, hpc] at hl
  obtain ⟨hr, r, hlast, hpid⟩ := hl
  have hne : l.pid ≠ 0 := hpid ▸ forkResult_ne_zero r
  simp only [Local.next, hpc, if_neg hne] at h
  by_cases hpos : 0 < l.pid
  · simp only [if_pos hpos, Option.some.injEq, Prod.mk.injEq] at h
    obtain ⟨rfl, rfl⟩ := h
    obtain ⟨p, rfl⟩ := forkResult_pos (hpid ▸ hpos)
    simp only [Advances, Local.Phase, Local.pending, hpc]
    exact ⟨⟨p, hlast⟩, rfl⟩
  · simp only [if_neg hpos, Option.some.injEq, Prod.mk.injEq] at h
    obtain ⟨rfl, rfl⟩ := h
    cases forkResult_not_pos (hpid ▸ hpos)
    simp only [Advances, Local.Phase, Local.pending, hpc]
    exact ⟨Or.inr ⟨hlast, hr⟩, rfl⟩

/-- With a child collected both programs go on to report it. -/
theorem next_check_reaped (hpc : l.pc = .check) (hret : 0 < l.ret)
    (h : l.next v me = some (l', lines)) :
    l' = { l with pc := .status } ∧ lines = [] := by
  have hne1 : l.ret ≠ -1 := by omega
  have hne0 : l.ret ≠ 0 := by omega
  cases v with
  | wait =>
      simp only [Local.next, hpc, if_neg hne1, Option.some.injEq,
        Prod.mk.injEq] at h
      exact ⟨h.1.symm, h.2.symm⟩
  | waitpid =>
      simp only [Local.next, hpc, if_neg hne1, if_neg hne0, if_pos hret,
        Option.some.injEq, Prod.mk.injEq] at h
      exact ⟨h.1.symm, h.2.symm⟩

theorem next_check (hpc : l.pc = .check) (h : l.next v me = some (l', lines))
    (hl : l.Phase v forks reaped unreaped) :
    Advances v forks reaped unreaped l l' lines := by
  simp only [Local.Phase, hpc] at hl
  obtain ⟨hlast, hret | ⟨hret, rfl⟩ | ⟨hret, hnone⟩⟩ := hl
  · obtain ⟨rfl, rfl⟩ := next_check_reaped hpc hret h
    simp only [Advances, Local.Phase, Local.pending, hpc, if_pos hret]
    exact ⟨⟨hlast, hret⟩, rfl⟩
  · -- a poll that found nothing dead: round the loop again
    have hne1 : l.ret ≠ -1 := by omega
    simp only [Local.next, hpc, if_neg hne1, if_pos hret, Option.some.injEq,
      Prod.mk.injEq] at h
    obtain ⟨rfl, rfl⟩ := h
    simp only [Advances, Local.Phase, Local.pending, hpc, hret, lt_irrefl, if_false]
    exact ⟨hlast, rfl⟩
  · simp only [Local.next, hpc, if_pos hret, Option.some.injEq, Prod.mk.injEq] at h
    obtain ⟨rfl, rfl⟩ := h
    have hneg : ¬ 0 < l.ret := by omega
    simp only [Advances, Local.Phase, Local.pending, hpc, if_neg hneg]
    exact ⟨Or.inl ⟨hlast, hnone⟩, rfl⟩

/-- The statements around the `wait`. The two programs have them in different
orders; in both they print what is owed and stay in the loop. -/
theorem next_in_loop
    (hpc : l.pc = .parentPrint ∨ l.pc = .sleep ∨ l.pc = .die)
    (h : l.next v me = some (l', lines)) :
    ∃ pc, (pc = .parentPrint ∨ pc = .sleep ∨ pc = .wait) ∧
      l' = { l with pc := pc } ∧ died lines = l.pending := by
  rcases hpc with hpc | hpc | hpc
  all_goals
    cases v
    all_goals
      simp only [Local.next, hpc, Option.some.injEq, Prod.mk.injEq] at h
      obtain ⟨rfl, rfl⟩ := h
      exact ⟨_, by simp, rfl, by simp [Local.pending, hpc, died, diedPid]⟩

theorem advances_in_loop
    (hpc : l.pc = .parentPrint ∨ l.pc = .sleep ∨ l.pc = .die)
    (h : l.next v me = some (l', lines)) (hlast : ∃ p, LastFork forks 5 (some p)) :
    Advances v forks reaped unreaped l l' lines := by
  obtain ⟨pc, hpc', rfl, hlines⟩ := next_in_loop hpc h
  rw [Advances, hlines]
  rcases hpc' with rfl | rfl | rfl
  · exact ⟨hlast, List.append_nil _⟩
  · exact ⟨hlast, List.append_nil _⟩
  · exact ⟨hlast, List.append_nil _⟩

/-- Every statement of the parent advances it. -/
theorem next_phase (h : l.next v me = some (l', lines))
    (hl : l.Phase v forks reaped unreaped) :
    Advances v forks reaped unreaped l l' lines := by
  cases hpc : l.pc with
  | loop => exact next_loop hpc h hl
  | test => exact next_test hpc h hl
  | branch => exact next_branch hpc h hl
  | check => exact next_check hpc h hl
  | fork => exact absurd h (by simp [Local.next, hpc])
  | wait => exact absurd h (by simp [Local.next, hpc])
  | done => exact absurd h (by simp [Local.next, hpc])
  | childPrint => simp only [Local.Phase, hpc] at hl
  | childSleep => simp only [Local.Phase, hpc] at hl
  | parentPrint =>
      simp only [Local.Phase, hpc] at hl
      exact advances_in_loop (Or.inl hpc) h hl
  | sleep =>
      simp only [Local.Phase, hpc] at hl
      exact advances_in_loop (Or.inr (Or.inl hpc)) h hl
  | status =>
      simp only [Local.Phase, hpc] at hl
      simp only [Local.next, hpc, Option.some.injEq, Prod.mk.injEq] at h
      obtain ⟨rfl, rfl⟩ := h
      simp only [Advances, Local.Phase, Local.pending, hpc, died_report]
      exact ⟨hl, rfl⟩
  | die =>
      simp only [Local.Phase, hpc] at hl
      exact advances_in_loop (Or.inr (Or.inr hpc)) h hl.1

end Next

/-- The ledger, and where the parent is. -/
structure Inv (v : Variant) (s : State) : Prop extends Ledger s where
  phase : s.self.Phase v s.forks s.reaped s.unreaped

theorem inv_start {v : Variant} {s : State} (h : Start s) : Inv v s := by
  obtain ⟨hpc, hi, hc, hf, hr, ho⟩ := h
  refine ⟨⟨?_, ?_, ?_, ?_⟩, ?_⟩
  · simp [State.created, State.unreaped, hf, hr, hc]
  · simp [State.created, hf]
  · simp [Local.pending, hpc, ho, hr, died]
  · simp [hc]
  · simp [Local.Phase, hpc, hi, hf, hr]

theorem lastFork_snoc {forks : List (Option Pid)} {n : ℕ} (h : forks.length = n)
    (r : Option Pid) : LastFork (forks ++ [r]) (n + 1) r := by
  refine ⟨?_, List.getLast?_concat⟩
  rw [List.length_append, h]
  rfl

section Steps

variable {v : Variant} {me : Pid} {s : State}

theorem Inv.pending_nil (h : Inv v s) (hpc : s.self.pc = .fork ∨ s.self.pc = .wait) :
    died s.out = s.reaped.map Pid.val := by
  have hp : s.self.pending = [] := by
    rcases hpc with hpc | hpc <;> rw [Local.pending, hpc]
  rw [← h.lines, hp, List.append_nil]

theorem inv_main (h : Inv v s) {l : Local} {lines : List Line}
    (hn : s.self.next v me = some (l, lines)) :
    Inv v { s with self := l, out := s.out ++ lines } := by
  obtain ⟨hphase, hpend⟩ := next_phase hn h.phase
  refine ⟨⟨h.perm, h.nodup, ?_, h.kids⟩, hphase⟩
  show died (s.out ++ lines) ++ l.pending = _
  rw [died_append, List.append_assoc, hpend, h.lines]

theorem inv_forkOk (h : Inv v s) (hpc : s.self.pc = .fork) {p : Pid}
    (hfresh : p ∉ s.unreaped) :
    Inv v { s with
      self := s.self.forked (forkResult (some p))
      children := s.children ++ [⟨p, .running (s.self.forked 0)⟩]
      forks := s.forks ++ [some p] } := by
  have hphase := h.phase
  simp only [Local.Phase, hpc] at hphase
  obtain ⟨hr, hlen, hi⟩ := hphase
  have hcreated : (s.forks ++ [some p]).filterMap id = s.created ++ [p] :=
    List.filterMap_append
  have hunreaped : (s.children ++ [Child.mk p (.running (s.self.forked 0))]).map
      Child.pid = s.unreaped ++ [p] := List.map_append
  refine ⟨⟨?_, ?_, ?_, ?_⟩, ?_⟩
  · rw [State.created, State.unreaped, hcreated, hunreaped, ← List.append_assoc]
    exact h.perm.append_right [p]
  · -- nothing is reaped yet, so a pid that is fresh now was never given out
    rw [State.created, hcreated]
    have hp : p ∉ s.created := by
      rw [h.perm.mem_iff, hr, List.nil_append]
      exact hfresh
    rw [← List.concat_eq_append]
    exact h.nodup.concat hp
  · show died s.out ++ [] = _
    rw [List.append_nil, h.pending_nil (Or.inl hpc)]
  · intro q l hmem
    rcases List.mem_append.mp hmem with hmem | hmem
    · exact h.kids q l hmem
    · cases List.mem_singleton.mp hmem
      exact ⟨rfl, Or.inl rfl⟩
  · exact ⟨hr, hi, _, lastFork_snoc hlen _, rfl⟩

theorem inv_forkFail (h : Inv v s) (hpc : s.self.pc = .fork) :
    Inv v { s with
      self := s.self.forked (forkResult none)
      forks := s.forks ++ [none] } := by
  have hphase := h.phase
  simp only [Local.Phase, hpc] at hphase
  obtain ⟨hr, hlen, hi⟩ := hphase
  have hcreated : (s.forks ++ [none]).filterMap id = s.created := by
    rw [List.filterMap_append]
    exact List.append_nil _
  refine ⟨⟨?_, ?_, ?_, h.kids⟩, hr, hi, _, lastFork_snoc hlen _, rfl⟩
  · rw [State.created, hcreated]
    exact h.perm
  · rw [State.created, hcreated]
    exact h.nodup
  · show died s.out ++ [] = _
    rw [List.append_nil, h.pending_nil (Or.inl hpc)]

theorem inv_reap (h : Inv v s) (hpc : s.self.pc = .wait) {before after : List Child}
    {p : Pid} {st : Status} (hc : s.children = before ++ ⟨p, .dead st⟩ :: after) :
    Inv v { s with
      self := s.self.waited p.val (some st)
      children := before ++ after
      reaped := s.reaped ++ [p] } := by
  have hphase := h.phase
  simp only [Local.Phase, hpc] at hphase
  refine ⟨⟨?_, h.nodup, ?_, ?_⟩, hphase, Or.inl p.pos⟩
  · have hperm := h.perm
    rw [State.unreaped, hc, List.map_append, List.map_cons] at hperm
    refine hperm.trans ?_
    show (s.reaped ++ (before.map Child.pid ++ p :: after.map Child.pid)).Perm
      (s.reaped ++ [p] ++ (before ++ after).map Child.pid)
    rw [List.map_append, List.append_assoc]
    exact List.perm_middle.append_left s.reaped
  · show died s.out ++ (if 0 < p.val then [p.val] else []) = _
    rw [if_pos p.pos, h.pending_nil (Or.inr hpc), List.map_append]
    rfl
  · intro q l hmem
    refine h.kids q l ?_
    rw [hc, List.mem_append, List.mem_cons]
    rcases List.mem_append.mp hmem with hmem | hmem
    · exact Or.inl hmem
    · exact Or.inr (Or.inr hmem)

/-- A `wait` that returns no child: there is none left, or none is dead. -/
theorem inv_waited (h : Inv v s) (hpc : s.self.pc = .wait) {ret : Int}
    (hret : (ret = 0 ∧ v = .waitpid) ∨ (ret = -1 ∧ s.unreaped = [])) :
    Inv v { s with self := s.self.waited ret s.self.st } := by
  have hphase := h.phase
  simp only [Local.Phase, hpc] at hphase
  refine ⟨⟨h.perm, h.nodup, ?_, h.kids⟩, hphase, Or.inr hret⟩
  have hneg : ¬ 0 < ret := by
    rcases hret with ⟨hret, -⟩ | ⟨hret, -⟩ <;> omega
  show died s.out ++ (if 0 < ret then [ret] else []) = _
  rw [if_neg hneg, List.append_nil, h.pending_nil (Or.inr hpc)]

/-- A child that runs or dies changes nothing the parent has noticed. -/
theorem inv_child (h : Inv v s) {before after : List Child} {p : Pid} {l : Local}
    (fate : Fate) (lines : List Line)
    (hc : s.children = before ++ ⟨p, .running l⟩ :: after)
    (hfate : ∀ l', fate = .running l' → l'.InChild) (hlines : died lines = []) :
    Inv v { s with
      children := before ++ ⟨p, fate⟩ :: after
      out := s.out ++ lines } := by
  have hpids : (before ++ ⟨p, fate⟩ :: after).map Child.pid = s.unreaped := by
    rw [State.unreaped, hc, List.map_append, List.map_append]
    rfl
  refine ⟨⟨?_, h.nodup, ?_, ?_⟩, ?_⟩
  · rw [State.unreaped, hpids]
    exact h.perm
  · show died (s.out ++ lines) ++ _ = _
    rw [died_append, hlines, List.append_nil]
    exact h.lines
  · intro q l' hmem
    rcases List.mem_append.mp hmem with hmem | hmem
    · exact h.kids q l' (hc ▸ List.mem_append_left _ hmem)
    · rcases List.mem_cons.mp hmem with heq | hmem
      · rw [Child.mk.injEq] at heq
        exact hfate l' heq.2.symm
      · exact h.kids q l' (hc ▸ List.mem_append_right _ (List.mem_cons_of_mem _ hmem))
  · rw [State.unreaped, hpids]
    exact h.phase

/-- **One step keeps the invariant.** -/
theorem inv_step {t : State} (h : Inv v s) (hst : Step v me s t) : Inv v t := by
  cases hst with
  | main l lines hn => exact inv_main h hn
  | forkOk hpc p hfresh => exact inv_forkOk h hpc hfresh
  | forkFail hpc => exact inv_forkFail h hpc
  | reap hpc before after p st hc => exact inv_reap h hpc hc
  | noChild hpc hc =>
      exact inv_waited h hpc (Or.inr ⟨rfl, by rw [State.unreaped, hc]; rfl⟩)
  | noneDead hpc hv hne hc => exact inv_waited h hpc (Or.inl ⟨rfl, hv⟩)
  | childRuns before after p l l' lines hc hn =>
      have hl : l.InChild := h.kids p l (hc ▸ by simp)
      obtain ⟨hl', hlines⟩ := next_inChild hn hl
      refine inv_child h _ lines hc (fun l'' heq => ?_) hlines
      cases heq
      exact hl'
  | childDies before after p l st hc =>
      have hinv := inv_child h (.dead st) [] hc
        (fun l' heq => absurd heq (by simp)) rfl
      simpa using hinv

theorem reachable_inv (h : (processes v me).Reachable s) : Inv v s :=
  System.invariant (I := Inv v) (fun _ hs => inv_start hs)
    (fun _ _ _ hs hst => inv_step hs hst) h

end Steps

end LinuxServer.Reap
