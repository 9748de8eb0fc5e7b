import LinuxServer.Reap.Ledger
import LinuxServer.Reap.SigchldLedger

/-!
# Reaping from a `SIGCHLD` handler: no zombie stays

- §1 at rest there is no zombie
- §2 the handler drains the zombies
- §3 the last `fork` decides
-/

namespace LinuxServer.Sigchld

open LinuxServer.Framework
open LinuxServer.Reap (Pid forkResult forkResult_ne_zero forkResult_pos forkResult_not_pos
  LastFork)

variable {prog : Program} {me : Pid} {s s' : State}

/-! ## §1  At rest there is no zombie -/

/-- A zombie is announced by the pending bit or by a handler that has not yet found
`waitpid` empty. -/
theorem Inv.no_zombie (hi : Inv prog s) (hpending : s.sig.pending = false)
    (hframe : s.frame = none) : ∀ c ∈ s.children, c.dead = false := by
  intro c hc
  rw [Bool.eq_false_iff]
  intro hdead
  rcases hi.noticed ⟨c, hc, hdead⟩ with hp | hpolls
  · rw [hpending] at hp
    cases hp
  · rw [hframe] at hpolls
    exact hpolls

/-- **At rest there is no zombie.** Whenever no `SIGCHLD` is pending and the
handler is not running, every child that died has been reaped, and each of them
has its line: the children forked so far are those in the lines and those still
alive, each once. -/
theorem no_zombie_at_rest (h : (reaper prog me).Reachable s)
    (hpending : s.sig.pending = false) (hframe : s.frame = none) :
    (∀ c ∈ s.children, c.dead = false) ∧
      (s.created.map Pid.val).Perm (s.reported ++ s.unreaped.map Pid.val) := by
  have hi := reachable_inv h
  constructor
  · exact hi.no_zombie hpending hframe
  · have hlines := hi.lines
    rw [hframe] at hlines
    have hperm := hi.perm.map Pid.val
    rw [List.map_append, ← hlines] at hperm
    simpa [owedLine] using hperm

def first : Pid := ⟨2, by decide⟩

def second : Pid := ⟨3, by decide⟩

/-- Two connections were served by a child each, and the first child died while the
server waits in `accept`. -/
def childDied : State :=
  { self := ⟨.accept, 0, 3⟩, sig := ⟨false, true, true⟩, frame := none,
    children := [⟨first, true⟩, ⟨second, false⟩], forks := [some first, some second],
    reaped := [], out := [] }

/-- Both children were reaped and the handler has returned. -/
def childrenReaped : State :=
  { childDied with
    sig := ⟨false, true, false⟩, children := [], reaped := [first, second],
    out := [.recycled 2, .recycled 3] }

theorem childDied_reachable :
    (reaper .server ⟨1, by decide⟩).Reachable childDied := by
  have h₀ : (reaper .server ⟨1, by decide⟩).Reachable
      ⟨⟨.sigaction, 0, 0⟩, ⟨false, false, false⟩, none, [], [], [], []⟩ :=
    .init ⟨rfl, rfl, rfl, rfl, rfl, rfl, rfl, rfl⟩
  have h₁ := h₀.step (.mains (.next rfl ⟨.listen, 0, 0⟩ ⟨false, true, false⟩ [] rfl))
  have h₂ := h₁.step (.mains (.listen rfl rfl true))
  have h₃ := h₂.step (.mains (.accept rfl rfl .fork (.inl rfl)))
  have h₄ := h₃.step (.mains (.forkOk rfl rfl first (by simp [State.unreaped])))
  have h₅ := h₄.step (.mains (.next rfl ⟨.accept, 0, 2⟩ ⟨false, true, false⟩ [] rfl))
  have h₆ := h₅.step (.mains (.accept rfl rfl .fork (.inl rfl)))
  have h₇ := h₆.step (.mains (.forkOk rfl rfl second (by decide)))
  have h₈ := h₇.step (.mains (.next rfl ⟨.accept, 0, 3⟩ ⟨false, true, false⟩ [] rfl))
  exact h₈.step (.kids (.dies [] [⟨second, false⟩] first rfl))

/-- The second child dies while the first is being reaped: the handler finds it in
the same call, and runs once more for the signal that came with it. -/
theorem childrenReaped_run :
    Among (Handles .server) Kids childDied 12 1 childrenReaped := by
  have h₀ : Among (Handles .server) Kids childDied 0 0 childDied := .start
  have h₁ := h₀.mine (.deliver rfl rfl rfl rfl)
  have h₂ := h₁.mine (.enter rfl)
  have h₃ := h₂.mine (.reap rfl [] [⟨second, false⟩] first rfl)
  have h₄ := h₃.theirs (.dies [] [] second rfl)
  have h₅ := h₄.mine (.check 2 rfl)
  have h₆ := h₅.mine (.reap rfl [] [] second rfl)
  have h₇ := h₆.mine (.check 3 rfl)
  have h₈ := h₇.mine (.noChild rfl rfl)
  have h₉ := h₈.mine (.check (-1) rfl)
  have h₁₀ := h₉.mine (.deliver rfl rfl rfl rfl)
  have h₁₁ := h₁₀.mine (.enter rfl)
  have h₁₂ := h₁₁.mine (.noChild rfl rfl)
  exact h₁₂.mine (.check (-1) rfl)

/-- What the handler and the children do is part of a run of the program. -/
theorem among_reachable {n k : ℕ} {t : State} (hs : (reaper prog me).Reachable s)
    (h : Among (Handles prog) Kids s n k t) : (reaper prog me).Reachable t := by
  induction h with
  | start => exact hs
  | mine _ hst ih => exact ih.step (.handles hst)
  | theirs _ hst ih => exact ih.step (.kids hst)

theorem no_zombie_after_reaping :
    (∀ c ∈ childrenReaped.children, c.dead = false) ∧
      (childrenReaped.created.map Pid.val).Perm
        (childrenReaped.reported ++ childrenReaped.unreaped.map Pid.val) ∧
      childrenReaped.reported = [2, 3] := by
  obtain ⟨hdead, hperm⟩ :=
    no_zombie_at_rest (among_reachable childDied_reachable childrenReaped_run) rfl rfl
  exact ⟨hdead, hperm, rfl⟩

/-! ## §2  The handler drains the zombies -/

def zombies (s : State) : ℕ := s.children.countP Child.dead

def Frame.rank : Option Frame → ℕ
  | none => 0
  | some (.check ret) => if 0 < ret then 4 else 1
  | some .wait => 3
  | some .entry => 5

theorem Frame.rank_le (f : Option Frame) : Frame.rank f ≤ 5 := by
  cases f with
  | none => exact Nat.zero_le _
  | some f =>
      cases f with
      | entry => exact le_refl 5
      | wait => exact Nat.le_add_right 3 2
      | check ret =>
          rw [Frame.rank]
          by_cases hpos : 0 < ret
          · rw [if_pos hpos]
            exact Nat.le_add_right 4 1
          · rw [if_neg hpos]
            exact Nat.le_add_right 1 4

/-- The statements the handler has left, as long as no other child dies. -/
def handlerWork (s : State) : ℕ :=
  (if s.sig.pending then 6 else 0) + Frame.rank s.frame + 2 * zombies s

theorem handles_work (hi : Inv prog s) (h : Handles prog s s') :
    handlerWork s' < handlerWork s := by
  unfold handlerWork zombies
  cases h with
  | deliver hframe hpending hmask hcaught => simp [hframe, hpending, Frame.rank]
  | enter hframe => simp [hframe, Frame.rank]
  | reap hframe before after p hc =>
      have := p.pos
      simp only [hframe, hc, Frame.rank, if_pos this, List.countP_append, List.countP_cons]
      simp
      omega
  | noneDead hframe hne hc => simp [hframe, Frame.rank]
  | noChild hframe hc => simp [hframe, Frame.rank]
  | check ret hframe =>
      obtain ⟨-, hnext⟩ := handler_check prog (hi.answer ret hframe)
      have hrank : Frame.rank (prog.handler ret).1 < Frame.rank (some (.check ret)) := by
        rcases hi.answer ret hframe with hpos | rfl | rfl
        · rcases hnext with hn | hn <;> rw [hn] <;> simp [Frame.rank, hpos]
        · cases prog <;> simp [Frame.rank, Program.handler, myFun, recycleChild]
        · cases prog <;> simp [Frame.rank, Program.handler, myFun, recycleChild]
      simp only [hframe]
      omega

/-- A child that dies adds a zombie and perhaps a run of the handler. -/
theorem kids_work (h : Kids s s') : handlerWork s' ≤ handlerWork s + 8 := by
  have hpending : ∀ g : Signals, (if g.pending then 6 else 0) ≤ 6 := by
    intro g
    split <;> omega
  unfold handlerWork zombies
  cases h with
  | dies before after p hc =>
      have := hpending s.sig.raise
      simp only [hc, List.countP_append, List.countP_cons]
      simp
      omega
  | stops c hc halive =>
      have := hpending s.sig.raise
      simp only
      omega

/-- The handler is never blocked: `waitpid` has `WNOHANG`. -/
theorem handler_goes_on (prog : Program) {f : Frame} (hframe : s.frame = some f) :
    ∃ s', Handles prog s s' := by
  cases f with
  | entry => exact ⟨_, .enter hframe⟩
  | check ret => exact ⟨_, .check ret hframe⟩
  | wait =>
      by_cases hdead : ∃ c ∈ s.children, c.dead = true
      · obtain ⟨⟨p, dead⟩, hmem, rfl⟩ := hdead
        obtain ⟨before, after, hc⟩ := List.append_of_mem hmem
        exact ⟨_, .reap hframe before after p hc⟩
      · by_cases hnil : s.children = []
        · exact ⟨_, .noChild hframe hnil⟩
        · refine ⟨_, .noneDead hframe hnil fun c hc => ?_⟩
          rw [Bool.eq_false_iff]
          exact fun h => hdead ⟨c, hc, h⟩

/-- The main loop of a program. -/
def Program.loop : Program → List Pc
  | .twenty => [.parentPrint, .sleep]
  | .server => [.accept, .fork, .test]

/-- The handler is installed and the signal not blocked. -/
structure Open (prog : Program) (s : State) : Prop where
  inv : Inv prog s
  caught : s.sig.caught = true
  mask : s.sig.blocked = false

theorem open_of_loop (hi : Inv prog s) (hpc : s.self.pc ∈ prog.loop) : Open prog s := by
  have hphase := hi.phase
  cases prog with
  | twenty =>
      rcases List.mem_pair.mp hpc with hpc | hpc
      · rw [hpc] at hphase
        exact ⟨hi, hphase.1, hphase.2⟩
      · rw [hpc] at hphase
        exact ⟨hi, hphase.1, hphase.2⟩
  | server =>
      have hpc : s.self.pc = .accept ∨ s.self.pc = .fork ∨ s.self.pc = .test := by
        simpa [Program.loop] using hpc
      rcases hpc with hpc | hpc | hpc
      · rw [hpc] at hphase
        exact ⟨hi, hphase.1, hphase.2⟩
      · rw [hpc] at hphase
        exact ⟨hi, hphase.1, hphase.2⟩
      · rw [hpc] at hphase
        exact ⟨hi, hphase.1, hphase.2⟩

theorem handles_open (ho : Open prog s) (h : Handles prog s s') : Open prog s' := by
  have hi := handles_inv ho.inv h
  cases h with
  | deliver | enter | reap | noneDead | noChild | check => exact ⟨hi, ho.caught, ho.mask⟩

theorem kids_open (ho : Open prog s) (h : Kids s s') : Open prog s' := by
  have hi := kids_inv ho.inv h
  cases h with
  | dies | stops =>
      exact ⟨hi, (raise_caught _).trans ho.caught, (raise_blocked _).trans ho.mask⟩

/-- **The handler drains the zombies.** In the main loop of either program, with `z`
zombies, the delivery and the handler take at most `11 + 2 * z + 8 * k` steps, if `k`
times a child dies, stops or goes on meanwhile. Where they have nothing left to do,
the handler has returned and there is no zombie. -/
theorem handler_drains (h : (reaper prog me).Reachable s) (hpc : s.self.pc ∈ prog.loop)
    {n k : ℕ} {t : State} (hrun : Among (Handles prog) Kids s n k t) :
    n ≤ 11 + 2 * zombies s + 8 * k ∧
    ((∀ t', ¬ Handles prog t t') → t.frame = none ∧ t.sig.pending = false ∧
      ∀ c ∈ t.children, c.dead = false) := by
  obtain ⟨hopen, hbound⟩ := Among.bounded (I := Open prog) (μ := handlerWork) (c := 8)
    (open_of_loop (reachable_inv h) hpc)
    (fun _ _ ho hst => ⟨handles_open ho hst, handles_work ho.inv hst⟩)
    (fun _ _ ho hst => ⟨kids_open ho hst, kids_work hst⟩) hrun
  constructor
  · have hrank := Frame.rank_le s.frame
    have hwork : handlerWork s ≤ 11 + 2 * zombies s := by
      unfold handlerWork
      split <;> omega
    omega
  · intro hstuck
    have hframe : t.frame = none := by
      cases hf : t.frame with
      | none => rfl
      | some f =>
          obtain ⟨t', ht'⟩ := handler_goes_on prog hf
          exact absurd ht' (hstuck t')
    have hpending : t.sig.pending = false := by
      rw [Bool.eq_false_iff]
      exact fun hp => hstuck _ (.deliver hframe hp hopen.mask hopen.caught)
    exact ⟨hframe, hpending, hopen.inv.no_zombie hpending hframe⟩

theorem handler_drains_two : zombies childDied = 1 ∧
    12 ≤ 11 + 2 * zombies childDied + 8 * 1 ∧
    childrenReaped.frame = none ∧ childrenReaped.sig.pending = false ∧
    ∀ c ∈ childrenReaped.children, c.dead = false := by
  obtain ⟨hle, hdone⟩ := handler_drains childDied_reachable (by decide) childrenReaped_run
  refine ⟨rfl, hle, hdone ?_⟩
  intro t' h
  cases h with
  | deliver hframe hpending => cases hpending
  | enter hframe => cases hframe
  | reap hframe => cases hframe
  | noneDead hframe => cases hframe
  | noChild hframe => cases hframe
  | check ret hframe => cases hframe

/-! ## §3  The last `fork` decides -/

/-- What the program with twenty children has done at each statement. -/
def Local.Forked (forks : List (Option Pid)) (l : Local) : Prop :=
  match l.pc with
  | .block => forks = [] ∧ l.i = 0
  | .loop => forks.length = l.i ∧ l.i ≤ 20 ∧
      (l.i = 20 → ∃ r, LastFork forks 20 r ∧ l.pid = forkResult r)
  | .fork => forks.length = l.i ∧ l.i < 20
  | .test => l.i < 20 ∧ ∃ r, LastFork forks (l.i + 1) r ∧ l.pid = forkResult r
  | .branch => ∃ r, LastFork forks 20 r ∧ l.pid = forkResult r
  | .done => LastFork forks 20 none
  | _ => ∃ p, LastFork forks 20 (some p)

theorem next_forked {l l' : Local} {g g' : Signals} {lines : List Line}
    {forks : List (Option Pid)} (h : l.next .twenty me g = some (l', g', lines))
    (hf : l.Forked forks) : l'.Forked forks := by
  unfold Local.next at h
  unfold Local.Forked at hf
  cases hpc : l.pc with
  | block =>
      rw [hpc] at h hf
      cases h
      obtain ⟨hforks, hi⟩ := hf
      refine ⟨by rw [hforks, hi]; rfl, le_of_eq_of_le hi (Nat.zero_le _), fun h20 => ?_⟩
      have h20 : l.i = 20 := h20
      omega
  | loop =>
      rw [hpc] at h hf
      obtain ⟨hlen, hle, hlast⟩ := hf
      by_cases hlt : l.i < 20
      · simp only [if_pos hlt] at h
        cases h
        exact ⟨hlen, hlt⟩
      · simp only [if_neg hlt] at h
        cases h
        exact hlast (le_antisymm hle (not_lt.mp hlt))
  | test =>
      rw [hpc] at h hf
      obtain ⟨hi, r, hlast, hpid⟩ := hf
      have hne : l.pid ≠ 0 := hpid ▸ forkResult_ne_zero r
      simp only [if_neg hne] at h
      cases h
      refine ⟨hlast.1, hi, fun h20 => ⟨r, ?_, hpid⟩⟩
      have h20 : l.i + 1 = 20 := h20
      rw [← h20]
      exact hlast
  | branch =>
      rw [hpc] at h hf
      obtain ⟨r, hlast, hpid⟩ := hf
      by_cases hpos : 0 < l.pid
      · simp only [if_pos hpos] at h
        cases h
        obtain ⟨p, rfl⟩ := forkResult_pos (hpid ▸ hpos)
        exact ⟨p, hlast⟩
      · simp only [if_neg hpos] at h
        cases h
        cases forkResult_not_pos (hpid ▸ hpos)
        exact hlast
  | sigaction | unblock | parentPrint | sleep =>
      rw [hpc] at h hf
      cases h
      exact hf
  | fork | listen | accept | done =>
      rw [hpc] at h
      cases h

theorem forked_forked {l : Local} {forks : List (Option Pid)} (hpc : l.pc = .fork)
    (hf : l.Forked forks) (r : Option Pid) :
    (l.forked (forkResult r)).Forked (forks ++ [r]) := by
  simp only [Local.Forked, hpc] at hf
  refine ⟨hf.2, r, ⟨?_, by simp⟩, rfl⟩
  rw [List.length_append, hf.1]
  rfl

/-- Before its loop the parent has nothing reaped: the signal is blocked. -/
structure Forking (s : State) : Prop where
  forked : s.self.Forked s.forks
  early : s.self.pc ≠ .parentPrint → s.self.pc ≠ .sleep → s.frame = none ∧ s.reaped = []

theorem Forking.late (hf : Forking s) (hframe : s.frame ≠ none) :
    s.self.pc = .parentPrint ∨ s.self.pc = .sleep := by
  by_contra hpc
  obtain ⟨h1, h2⟩ := not_or.mp hpc
  exact hframe (hf.early h1 h2).1

/-- The signal gets through only in the loop. -/
theorem loop_of_open (hi : Inv .twenty s) (hcaught : s.sig.caught = true)
    (hmask : s.sig.blocked = false) : s.self.pc = .parentPrint ∨ s.self.pc = .sleep := by
  have hphase := hi.phase
  have hallowed := hi.allowed
  cases hpc : s.self.pc with
  | parentPrint => exact .inl rfl
  | sleep => exact .inr rfl
  | block =>
      rw [hpc] at hphase
      exact absurd (hcaught.symm.trans hphase) (by simp)
  | unblock =>
      rw [hpc] at hphase
      exact absurd (hmask.symm.trans hphase.2) (by simp)
  | loop | fork | test | branch | sigaction | done =>
      rw [hpc] at hphase
      exact absurd (hmask.symm.trans hphase) (by simp)
  | listen | accept =>
      rw [hpc] at hallowed
      cases hallowed

theorem handles_forking (hi : Inv .twenty s) (hf : Forking s)
    (h : Handles .twenty s s') : Forking s' := by
  have hlate : (s.self.pc = .parentPrint ∨ s.self.pc = .sleep) ∧
      s'.self = s.self ∧ s'.forks = s.forks := by
    cases h with
    | deliver hframe hpending hmask hcaught => exact ⟨loop_of_open hi hcaught hmask, rfl, rfl⟩
    | enter hframe => exact ⟨hf.late (by rw [hframe]; simp), rfl, rfl⟩
    | reap hframe => exact ⟨hf.late (by rw [hframe]; simp), rfl, rfl⟩
    | noneDead hframe => exact ⟨hf.late (by rw [hframe]; simp), rfl, rfl⟩
    | noChild hframe => exact ⟨hf.late (by rw [hframe]; simp), rfl, rfl⟩
    | check ret hframe => exact ⟨hf.late (by rw [hframe]; simp), rfl, rfl⟩
  obtain ⟨hpc, hself, hforks⟩ := hlate
  refine ⟨by rw [hself, hforks]; exact hf.forked, fun h1 h2 => ?_⟩
  rw [hself] at h1 h2
  rcases hpc with hpc | hpc
  · exact absurd hpc h1
  · exact absurd hpc h2

theorem mains_forking (hi : Inv .twenty s) (hf : Forking s) (h : Mains .twenty me s s') :
    Forking s' := by
  cases h with
  | next hframe l g lines h =>
      refine ⟨next_forked h hf.forked, fun h1 h2 => ⟨hframe, ?_⟩⟩
      by_cases hpc : s.self.pc = .parentPrint ∨ s.self.pc = .sleep
      · exfalso
        rcases hpc with hpc | hpc <;> simp only [Local.next, hpc] at h <;> cases h
        · exact h2 rfl
        · exact h1 rfl
      · obtain ⟨h3, h4⟩ := not_or.mp hpc
        exact (hf.early h3 h4).2
  | forkOk hframe hpc p hfresh =>
      exact ⟨forked_forked hpc hf.forked _, fun _ _ => hf.early (by rw [hpc]; simp)
        (by rw [hpc]; simp)⟩
  | forkFail hframe hpc =>
      exact ⟨forked_forked hpc hf.forked _, fun _ _ => hf.early (by rw [hpc]; simp)
        (by rw [hpc]; simp)⟩
  | listen hframe hpc ok => cases hi.server (.inl hpc)
  | accept hframe hpc next hnext => cases hi.server (.inr hpc)

theorem kids_forking (hf : Forking s) (h : Kids s s') : Forking s' := by
  cases h with
  | dies | stops => exact ⟨hf.forked, hf.early⟩

theorem reachable_forking (h : (reaper .twenty me).Reachable s) : Forking s := by
  refine System.invariant (I := Forking) ?_ ?_ h
  · rintro s₀ ⟨hpc, hi, -, hframe, -, hforks, hreaped, -⟩
    refine ⟨?_, fun _ _ => ⟨hframe, hreaped⟩⟩
    simp only [Local.Forked, hpc, Program.entry]
    exact ⟨hforks, hi⟩
  · intro s₁ s₂ hr hf hst
    cases hst with
    | handles h => exact handles_forking (reachable_inv hr) hf h
    | mains h => exact mains_forking (reachable_inv hr) hf h
    | kids h => exact kids_forking hf h

/-- The parent made these twenty forks, and the last one has failed. -/
structure Failed (forks : List (Option Pid)) (s : State) : Prop where
  inv : Inv .twenty s
  forking : Forking s
  made : s.forks = forks
  last : LastFork s.forks 20 none

/-- The statements `main` has left then. -/
def Pc.toDone : Pc → ℕ
  | .test => 3
  | .loop => 2
  | .branch => 1
  | _ => 0

variable {forks : List (Option Pid)}

/-- The parent is past its forks and before its loop. -/
theorem Failed.pc (hf : Failed forks s) : s.self.pc = .done ∨
    (s.self.pc = .test ∧ s.self.i = 19 ∧ s.self.pid = -1) ∨
    (s.self.pc = .loop ∧ s.self.i = 20) ∨ (s.self.pc = .branch ∧ s.self.pid = -1) := by
  have hforked := hf.forking.forked
  have hallowed := hf.inv.allowed
  have hlen := hf.last.1
  unfold Local.Forked at hforked
  cases hpc : s.self.pc with
  | done => exact .inl rfl
  | test =>
      rw [hpc] at hforked
      obtain ⟨-, r, hlast, hpid⟩ := hforked
      have hi : s.self.i = 19 := by
        have := hlast.1
        omega
      have hr : r = none := Option.some.inj (hlast.2.symm.trans hf.last.2)
      rw [hr] at hpid
      exact .inr (.inl ⟨rfl, hi, hpid⟩)
  | loop =>
      rw [hpc] at hforked
      exact .inr (.inr (.inl ⟨rfl, by omega⟩))
  | branch =>
      rw [hpc] at hforked
      obtain ⟨r, hlast, hpid⟩ := hforked
      have hr : r = none := Option.some.inj (hlast.2.symm.trans hf.last.2)
      rw [hr] at hpid
      exact .inr (.inr (.inr ⟨rfl, hpid⟩))
  | block =>
      rw [hpc] at hforked
      rw [hforked.1] at hlen
      cases hlen
  | fork =>
      rw [hpc] at hforked
      omega
  | sigaction | unblock | parentPrint | sleep =>
      rw [hpc] at hforked
      obtain ⟨p, hp⟩ := hforked
      exact absurd (hf.last.2.symm.trans hp.2) (by simp)
  | listen | accept =>
      rw [hpc] at hallowed
      cases hallowed

theorem Failed.frame (hf : Failed forks s) : s.frame = none ∧ s.reaped = [] := by
  apply hf.forking.early
  · rcases hf.pc with h | ⟨h, -⟩ | ⟨h, -⟩ | ⟨h, -⟩ <;> rw [h] <;> simp
  · rcases hf.pc with h | ⟨h, -⟩ | ⟨h, -⟩ | ⟨h, -⟩ <;> rw [h] <;> simp

/-- Each statement that is left leads on to the end of `main`. -/
theorem Failed.next (hf : Failed forks s) (me : Pid) (hpc : s.self.pc ≠ .done) :
    ∃ l, s.self.next .twenty me s.sig = some (l, s.sig, []) ∧
      l.pc.toDone < s.self.pc.toDone := by
  rcases hf.pc with h | ⟨h, -, hpid⟩ | ⟨h, hi⟩ | ⟨h, hpid⟩
  · exact absurd h hpc
  · refine ⟨{ s.self with pc := .loop, i := s.self.i + 1 }, ?_, ?_⟩
    · simp only [Local.next, h, hpid]
      rfl
    · rw [h]
      exact Nat.lt_succ_self 2
  · refine ⟨{ s.self with pc := .branch }, ?_, ?_⟩
    · simp only [Local.next, h, hi]
      rfl
    · rw [h]
      exact Nat.lt_succ_self 1
  · refine ⟨{ s.self with pc := .done }, ?_, ?_⟩
    · simp only [Local.next, h, hpid]
      rfl
    · rw [h]
      exact Nat.lt_succ_self 0

theorem Failed.mains (hf : Failed forks s) (h : Mains .twenty me s s') :
    Failed forks s' ∧ s'.self.pc.toDone < s.self.pc.toDone := by
  have hinv := mains_inv hf.inv h
  have hforking := mains_forking hf.inv hf.forking h
  cases h with
  | next hframe l g lines h =>
      refine ⟨⟨hinv, hforking, hf.made, hf.last⟩, ?_⟩
      by_cases hpc : s.self.pc = .done
      · simp only [Local.next, hpc] at h
        cases h
      · obtain ⟨l', hl', hlt⟩ := hf.next me hpc
        rw [hl'] at h
        cases h
        exact hlt
  | forkOk hframe hpc | forkFail hframe hpc =>
      rcases hf.pc with h | ⟨h, -⟩ | ⟨h, -⟩ | ⟨h, -⟩ <;> rw [hpc] at h <;> cases h
  | listen hframe hpc ok => cases hf.inv.server (.inl hpc)
  | accept hframe hpc next hnext => cases hf.inv.server (.inr hpc)

/-- The handler and the children: what is not a statement of `main`. -/
def Others (prog : Program) (s s' : State) : Prop := Handles prog s s' ∨ Kids s s'

theorem Failed.others (hf : Failed forks s) (h : Others .twenty s s') :
    Failed forks s' ∧ s'.self.pc.toDone ≤ s.self.pc.toDone + 0 := by
  rcases h with h | h
  · -- the signal is blocked, so there is no handler
    obtain ⟨hframe, -⟩ := hf.frame
    have hblocked : s.self.pc ≠ .parentPrint ∧ s.self.pc ≠ .sleep := by
      rcases hf.pc with h | ⟨h, -⟩ | ⟨h, -⟩ | ⟨h, -⟩ <;> rw [h] <;> simp
    cases h with
    | deliver hframe hpending hmask hcaught =>
        rcases loop_of_open hf.inv hcaught hmask with h | h
        · exact absurd h hblocked.1
        · exact absurd h hblocked.2
    | enter h | reap h | noneDead h | noChild h | check ret h =>
        rw [hframe] at h
        cases h
  · have hinv := kids_inv hf.inv h
    have hforking := kids_forking hf.forking h
    cases h with
    | dies | stops => exact ⟨⟨hinv, hforking, hf.made, hf.last⟩, le_refl _⟩

/-- **The last `fork` decides.** The parent of twenty children comes to its loop
only if its last `fork` succeeded, and to the end of `main` only if that one failed.
Once it has failed, `main` has at most three statements left, whatever the children
do meanwhile, and where it has none it has returned, with the signal blocked and
every child it forked unreaped. -/
theorem last_fork_decides (h : (reaper .twenty me).Reachable s) :
    (s.self.pc = .parentPrint ∨ s.self.pc = .sleep → ∃ p, LastFork s.forks 20 (some p)) ∧
    (s.self.pc = .done → LastFork s.forks 20 none) ∧
    (LastFork s.forks 20 none → ∀ {n k : ℕ} {t : State},
      Among (Mains .twenty me) (Others .twenty) s n k t → n ≤ 3 ∧
        ((∀ t', ¬ Mains .twenty me t t') → t.self.pc = .done ∧ t.sig.blocked = true ∧
          t.created = s.created ∧ t.created.Perm t.unreaped)) := by
  have hi := reachable_inv h
  have hf := reachable_forking h
  have hforked := hf.forked
  refine ⟨?_, fun hpc => ?_, fun hlast n k t hrun => ?_⟩
  · rintro (hpc | hpc) <;> simpa only [Local.Forked, hpc] using hforked
  · simpa only [Local.Forked, hpc] using hforked
  · obtain ⟨hfailed, hbound⟩ := Among.bounded (I := Failed s.forks)
      (μ := fun t => t.self.pc.toDone) (c := 0) ⟨hi, hf, rfl, hlast⟩
      (fun _ _ hfailed => hfailed.mains) (fun _ _ hfailed => hfailed.others) hrun
    have hleft : s.self.pc.toDone ≤ 3 := by
      cases s.self.pc <;> decide
    refine ⟨by omega, fun hstuck => ?_⟩
    have hdone : t.self.pc = .done := by
      by_contra hpc
      obtain ⟨l, hl, -⟩ := hfailed.next me hpc
      exact hstuck _ (.next hfailed.frame.1 l _ _ hl)
    have hphase := hfailed.inv.phase
    have hperm := hfailed.inv.perm
    rw [hdone] at hphase
    rw [hfailed.frame.2] at hperm
    exact ⟨hdone, hphase, by rw [State.created, State.created, hfailed.made], hperm⟩

/-- The `k`-th child. -/
def kid (k : ℕ) : Pid := ⟨k + 2, by omega⟩

/-- The first `n` forks have succeeded, and all the children are alive. -/
def forkedState (pc : Pc) (i n : ℕ) (pid : Int) (rest : List (Option Pid)) : State :=
  { self := ⟨pc, i, pid⟩, sig := ⟨true, false, false⟩, frame := none,
    children := (List.range n).map fun k => ⟨kid k, false⟩,
    forks := (List.range n).map (fun k => some (kid k)) ++ rest, reaped := [], out := [] }

theorem forkedState_reachable (n : ℕ) (hn : n ≤ 19) : ∃ pid,
    (reaper .twenty ⟨1, by decide⟩).Reachable (forkedState .loop n n pid []) := by
  induction n with
  | zero =>
      have h₀ : (reaper .twenty ⟨1, by decide⟩).Reachable
          ⟨⟨.block, 0, 0⟩, ⟨false, false, false⟩, none, [], [], [], []⟩ :=
        .init ⟨rfl, rfl, rfl, rfl, rfl, rfl, rfl, rfl⟩
      exact ⟨0, h₀.step (.mains (.next rfl ⟨.loop, 0, 0⟩ ⟨true, false, false⟩ [] rfl))⟩
  | succ n ih =>
      obtain ⟨pid, h₀⟩ := ih (by omega)
      have hlt : n < 20 := by omega
      have h₁ : (reaper .twenty ⟨1, by decide⟩).Reachable (forkedState .fork n n pid []) :=
        h₀.step (.mains (.next rfl ⟨.fork, n, pid⟩ ⟨true, false, false⟩ []
          (by simp [Local.next, forkedState, hlt])))
      have hfresh : kid n ∉ (forkedState .fork n n pid []).unreaped := by
        unfold State.unreaped forkedState
        rw [List.map_map]
        intro hmem
        obtain ⟨k, hk, heq⟩ := List.mem_map.mp hmem
        have hlt := List.mem_range.mp hk
        have hval : ((k : Int) + 2) = n + 2 := congrArg Pid.val heq
        omega
      have h₂ := h₁.step (.mains (.forkOk rfl rfl (kid n) hfresh))
      have hne : forkResult (some (kid n)) ≠ 0 := forkResult_ne_zero _
      have h₃ := h₂.step (.mains (.next rfl ⟨.loop, n + 1, forkResult (some (kid n))⟩
        ⟨true, false, false⟩ [] (by simp [Local.next, Local.forked, forkedState, hne])))
      refine ⟨forkResult (some (kid n)), ?_⟩
      unfold forkedState
      rw [List.range_succ, List.map_append, List.map_append, List.append_nil]
      simpa [forkedState] using h₃

/-- Nineteen forks succeed and the last one fails: the parent returns, and none of
the nineteen is reaped. -/
theorem last_fork_decides_nineteen : ∃ s t : State,
    (reaper .twenty ⟨1, by decide⟩).Reachable s ∧ LastFork s.forks 20 none ∧
    Among (Mains .twenty ⟨1, by decide⟩) (Others .twenty) s 3 0 t ∧
    t.self.pc = .done ∧ t.created.Perm t.unreaped ∧ t.unreaped.length = 19 := by
  obtain ⟨pid, h₀⟩ := forkedState_reachable 19 (le_refl _)
  have h₁ : (reaper .twenty ⟨1, by decide⟩).Reachable (forkedState .fork 19 19 pid []) :=
    h₀.step (.mains (.next rfl ⟨.fork, 19, pid⟩ ⟨true, false, false⟩ [] rfl))
  have h₂ : (reaper .twenty ⟨1, by decide⟩).Reachable (forkedState .test 19 19 (-1) [none]) := by
    have h := h₁.step (.mains (.forkFail rfl rfl))
    unfold forkedState at h ⊢
    rw [List.append_nil] at h
    exact h
  have hlast : LastFork (forkedState .test 19 19 (-1) [none]).forks 20 none := ⟨rfl, rfl⟩
  have hrun : Among (Mains .twenty ⟨1, by decide⟩) (Others .twenty)
      (forkedState .test 19 19 (-1) [none]) 3 0 (forkedState .done 20 19 (-1) [none]) := by
    have r₀ : Among (Mains .twenty ⟨1, by decide⟩) (Others .twenty)
        (forkedState .test 19 19 (-1) [none]) 0 0 _ := .start
    have r₁ := r₀.mine (.next rfl ⟨.loop, 20, -1⟩ ⟨true, false, false⟩ [] rfl)
    have r₂ := r₁.mine (.next rfl ⟨.branch, 20, -1⟩ ⟨true, false, false⟩ [] rfl)
    exact r₂.mine (.next rfl ⟨.done, 20, -1⟩ ⟨true, false, false⟩ [] rfl)
  obtain ⟨-, hdone⟩ := (last_fork_decides h₂).2.2 hlast hrun
  obtain ⟨hpc, -, -, hperm⟩ := hdone fun t' h => by
    cases h with
    | next hframe l g lines h => cases h
    | forkOk hframe hpc | forkFail hframe hpc | listen hframe hpc | accept hframe hpc => cases hpc
  exact ⟨_, _, h₂, hlast, hrun, hpc, hperm, rfl⟩

end LinuxServer.Sigchld
