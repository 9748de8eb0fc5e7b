import LinuxServer.Reap.Sigchld

/-!
# Reaping from a `SIGCHLD` handler: the invariant

What holds along every run of the two programs, whatever the kernel answers and
whenever the signal arrives. A child that is dead is known: the signal is
pending, or the handler will still poll.

- §1 the invariant
- §2 one step, and every run
-/

namespace LinuxServer.Sigchld

open LinuxServer.Framework
open LinuxServer.Reap (Pid forkResult)

/-! ## §1  The invariant -/

/-- The ids in the lines about reaped children, in order. -/
def State.reported (s : State) : List Int := s.out.filterMap Line.reaped

/-- The handler will call `waitpid` again before it returns. -/
def Polls (prog : Program) : Option Frame → Prop
  | none => False
  | some .entry => True
  | some .wait => True
  | some (.check ret) => (prog.handler ret).1 ≠ none

/-- The reaped child whose line is still to be printed. -/
def owedLine : Option Frame → List Int
  | some (.check ret) => if 0 < ret then [ret] else []
  | _ => []

/-- The statements of the program. -/
def Pc.allowed : Program → Pc → Bool
  | .twenty, .listen | .twenty, .accept => false
  | .twenty, _ => true
  | .server, .sigaction | .server, .listen | .server, .accept | .server, .fork
  | .server, .test | .server, .done => true
  | .server, _ => false

/-- What `main` has arranged for `SIGCHLD` at each of its statements. -/
def Signals.Phase (prog : Program) (g : Signals) : Pc → Prop
  | .block => g.caught = false
  | .sigaction =>
      match prog with
      | .twenty => g.blocked = true
      | .server => g.blocked = false
  | .unblock => g.caught = true ∧ g.blocked = true
  | .parentPrint | .sleep | .accept | .listen => g.caught = true ∧ g.blocked = false
  | .fork | .test =>
      match prog with
      | .twenty => g.blocked = true
      | .server => g.caught = true ∧ g.blocked = false
  | .loop | .branch => g.blocked = true
  | .done =>
      match prog with
      | .twenty => g.blocked = true
      | .server => g.caught = true

structure Inv (prog : Program) (s : State) : Prop where
  allowed : s.self.pc.allowed prog = true
  phase : s.sig.Phase prog s.self.pc
  fresh : s.self.pc = prog.entry → s.children = []
  noticed : (∃ c ∈ s.children, c.dead = true) → s.sig.pending = true ∨ Polls prog s.frame
  answer : ∀ ret, s.frame = some (.check ret) → 0 < ret ∨ ret = 0 ∨ ret = -1
  perm : s.created.Perm (s.reaped ++ s.unreaped)
  lines : s.reported ++ owedLine s.frame = s.reaped.map Pid.val

variable {prog : Program} {me : Pid} {s s' : State}

theorem start_inv (h : Start prog s) : Inv prog s := by
  obtain ⟨hpc, -, hsig, hframe, hch, hforks, hreaped, hout⟩ := h
  refine ⟨?_, ?_, fun _ => hch, ?_, ?_, ?_, ?_⟩
  · rw [hpc]
    cases prog <;> rfl
  · rw [hpc, hsig]
    cases prog <;> rfl
  · rw [hch]
    rintro ⟨c, hc, -⟩
    exact absurd hc List.not_mem_nil
  · rw [hframe]
    intro ret h
    cases h
  · unfold State.created State.unreaped
    rw [hforks, hreaped, hch]
    exact .nil
  · unfold State.reported
    rw [hout, hframe, hreaped]
    rfl

/-- As long as there are children, no `SIGCHLD` is dropped. -/
theorem Inv.armed (hi : Inv prog s) (hne : s.children ≠ []) :
    s.sig.blocked = true ∨ s.sig.caught = true := by
  have hphase := hi.phase
  have hallowed := hi.allowed
  have hentry : s.self.pc ≠ prog.entry := fun h => hne (hi.fresh h)
  cases hpc : s.self.pc with
  | block =>
      cases prog with
      | twenty => exact absurd hpc hentry
      | server =>
          rw [hpc] at hallowed
          cases hallowed
  | sigaction =>
      cases prog with
      | twenty =>
          rw [hpc] at hphase
          exact .inl hphase
      | server => exact absurd hpc hentry
  | loop | branch =>
      rw [hpc] at hphase
      exact .inl hphase
  | fork | test =>
      rw [hpc] at hphase
      cases prog with
      | twenty => exact .inl hphase
      | server => exact .inr hphase.1
  | unblock | parentPrint | sleep | listen | accept =>
      rw [hpc] at hphase
      exact .inr hphase.1
  | done =>
      rw [hpc] at hphase
      cases prog with
      | twenty => exact .inl hphase
      | server => exact .inr hphase

theorem Inv.server (hi : Inv prog s) (hpc : s.self.pc = .listen ∨ s.self.pc = .accept) :
    prog = .server := by
  have hallowed := hi.allowed
  cases prog with
  | twenty => rcases hpc with hpc | hpc <;> rw [hpc] at hallowed <;> cases hallowed
  | server => rfl

@[simp] theorem raise_blocked (g : Signals) : g.raise.blocked = g.blocked := by
  unfold Signals.raise
  split <;> rfl

@[simp] theorem raise_caught (g : Signals) : g.raise.caught = g.caught := by
  unfold Signals.raise
  split <;> rfl

theorem raise_pending {g : Signals} (h : g.blocked = true ∨ g.caught = true) :
    g.raise.pending = true := by
  unfold Signals.raise
  rw [if_pos (by simpa using h)]

/-- What was arranged does not depend on the pending bit. -/
theorem Signals.Phase.congr {g g' : Signals} {pc : Pc} (h : g.Phase prog pc)
    (hblocked : g'.blocked = g.blocked) (hcaught : g'.caught = g.caught) :
    g'.Phase prog pc := by
  unfold Signals.Phase at h ⊢
  simp only [hblocked, hcaught]
  exact h

theorem raise_phase {g : Signals} {pc : Pc} (h : g.Phase prog pc) :
    g.raise.Phase prog pc := h.congr (raise_blocked g) (raise_caught g)

/-! ## §2  One step, and every run -/

/-- A `main` statement goes on as the program has it and never loses what it
arranged for the signal. -/
theorem next_phase {l l' : Local} {g g' : Signals} {lines : List Line}
    (h : l.next prog me g = some (l', g', lines)) (hallowed : l.pc.allowed prog = true)
    (hphase : g.Phase prog l.pc) :
    l'.pc.allowed prog = true ∧ g'.Phase prog l'.pc ∧ l'.pc ≠ prog.entry ∧
      g'.pending = g.pending ∧ lines.filterMap Line.reaped = [] := by
  unfold Local.next at h
  cases hpc : l.pc with
  | block =>
      rw [hpc] at h hallowed
      cases h
      cases prog with
      | twenty => exact ⟨rfl, rfl, by simp [Program.entry], rfl, rfl⟩
      | server => cases hallowed
  | loop =>
      rw [hpc] at h hallowed hphase
      cases prog with
      | server => cases hallowed
      | twenty =>
          by_cases hlt : l.i < 20
          · simp only [if_pos hlt] at h
            cases h
            exact ⟨rfl, hphase, by simp [Program.entry], rfl, rfl⟩
          · simp only [if_neg hlt] at h
            cases h
            exact ⟨rfl, hphase, by simp [Program.entry], rfl, rfl⟩
  | test =>
      rw [hpc] at h hphase
      cases prog with
      | twenty =>
          by_cases hpid : l.pid = 0
          · simp only [if_pos hpid] at h
            cases h
            exact ⟨rfl, hphase, by simp [Program.entry], rfl, rfl⟩
          · simp only [if_neg hpid] at h
            cases h
            exact ⟨rfl, hphase, by simp [Program.entry], rfl, rfl⟩
      | server =>
          by_cases hpid : l.pid = 0
          · simp only [if_pos hpid] at h
            cases h
            exact ⟨rfl, hphase.1, by simp [Program.entry], rfl, rfl⟩
          · simp only [if_neg hpid] at h
            cases h
            exact ⟨rfl, hphase, by simp [Program.entry], rfl, rfl⟩
  | branch =>
      rw [hpc] at h hallowed hphase
      cases prog with
      | server => cases hallowed
      | twenty =>
          by_cases hpid : 0 < l.pid
          · simp only [if_pos hpid] at h
            cases h
            exact ⟨rfl, hphase, by simp [Program.entry], rfl, rfl⟩
          · simp only [if_neg hpid] at h
            cases h
            exact ⟨rfl, hphase, by simp [Program.entry], rfl, rfl⟩
  | sigaction =>
      rw [hpc] at h hphase
      cases prog with
      | twenty | server =>
          cases h
          exact ⟨rfl, ⟨rfl, hphase⟩, by simp [Program.entry], rfl, rfl⟩
  | unblock =>
      rw [hpc] at h hallowed hphase
      cases h
      cases prog with
      | twenty => exact ⟨rfl, ⟨hphase.1, rfl⟩, by simp [Program.entry], rfl, rfl⟩
      | server => cases hallowed
  | parentPrint | sleep =>
      rw [hpc] at h hallowed hphase
      cases h
      cases prog with
      | twenty => exact ⟨rfl, hphase, by simp [Program.entry], rfl, rfl⟩
      | server => cases hallowed
  | fork | listen | accept | done =>
      rw [hpc] at h
      cases h

/-- The frame after the tests of `ret` polls again exactly after a child. -/
theorem handler_check (prog : Program) {ret : Int} (h : 0 < ret ∨ ret = 0 ∨ ret = -1) :
    (prog.handler ret).2.filterMap Line.reaped = (if 0 < ret then [ret] else []) ∧
      ((prog.handler ret).1 = none ∨ (prog.handler ret).1 = some .wait) := by
  rcases h with hpos | rfl | rfl
  · have h0 : ret ≠ 0 := ne_of_gt hpos
    have h1 : ret ≠ -1 := by omega
    cases prog <;> simp [Program.handler, myFun, recycleChild, Line.reaped, hpos, h0, h1]
  · cases prog <;> simp [Program.handler, myFun, recycleChild]
  · cases prog <;> simp [Program.handler, myFun, recycleChild]

theorem reaped_enter : prog.enter.filterMap Line.reaped = [] := by
  cases prog <;> rfl

theorem handler_polls (prog : Program) (p : Pid) : (prog.handler p.val).1 ≠ none := by
  have h0 : p.val ≠ 0 := ne_of_gt p.pos
  have h1 : p.val ≠ -1 := by have := p.pos; omega
  cases prog <;> simp [Program.handler, myFun, recycleChild, p.pos, h0, h1]

theorem reap_inv (hi : Inv prog s) (hframe : s.frame = some .wait) {before after : List Child}
    {p : Pid} (hc : s.children = before ++ ⟨p, true⟩ :: after) :
    Inv prog { s with
      frame := some (.check p.val)
      children := before ++ after
      reaped := s.reaped ++ [p] } := by
  refine ⟨hi.allowed, hi.phase, ?_, fun _ => .inr (handler_polls prog p), ?_, ?_, ?_⟩
  · intro hentry
    have := hi.fresh hentry
    rw [hc] at this
    simp at this
  · rintro ret ⟨⟩
    exact .inl p.pos
  · have := hi.perm
    unfold State.unreaped at this ⊢
    rw [hc] at this
    simp only [List.map_append, List.map_cons] at this ⊢
    refine this.trans ?_
    rw [List.append_assoc]
    apply List.Perm.append_left
    rw [List.singleton_append]
    exact List.perm_middle
  · have := hi.lines
    rw [hframe] at this
    show s.reported ++ (if 0 < p.val then [p.val] else []) = (s.reaped ++ [p]).map Pid.val
    rw [if_pos p.pos, List.map_append, ← this]
    simp [owedLine]

/-- `waitpid` finds no child that is dead. -/
theorem nobody_inv (hi : Inv prog s) (hframe : s.frame = some .wait)
    (hc : ∀ c ∈ s.children, c.dead = false) {ret : Int} (hret : ret = 0 ∨ ret = -1) :
    Inv prog { s with frame := some (.check ret) } := by
  refine ⟨hi.allowed, hi.phase, hi.fresh, ?_, ?_, hi.perm, ?_⟩
  · rintro ⟨c, hmem, hdead⟩
    rw [hc c hmem] at hdead
    cases hdead
  · rintro ret ⟨⟩
    exact .inr hret
  · have := hi.lines
    rw [hframe] at this
    show s.reported ++ (if 0 < ret then [ret] else []) = _
    rw [if_neg (by omega)]
    exact this

theorem check_inv (hi : Inv prog s) {ret : Int} (hframe : s.frame = some (.check ret)) :
    Inv prog { s with
      frame := (prog.handler ret).1
      out := s.out ++ (prog.handler ret).2 } := by
  obtain ⟨hlines', hnext⟩ := handler_check prog (hi.answer ret hframe)
  have hnoticed := hi.noticed
  have hlines := hi.lines
  rw [hframe] at hnoticed hlines
  refine ⟨hi.allowed, hi.phase, hi.fresh, fun hdead => ?_, ?_, hi.perm, ?_⟩
  · rcases hnoticed hdead with hp | hpolls
    · exact .inl hp
    · rcases hnext with hn | hn
      · exact absurd hn hpolls
      · right
        show Polls prog (prog.handler ret).1
        rw [hn]
        trivial
  · intro ret' hret'
    have hret' : (prog.handler ret).1 = some (.check ret') := hret'
    rcases hnext with hn | hn <;> rw [hn] at hret' <;> cases hret'
  · show (s.out ++ (prog.handler ret).2).filterMap Line.reaped ++
      owedLine (prog.handler ret).1 = _
    rw [List.filterMap_append, hlines', ← hlines]
    rcases hnext with hn | hn <;> rw [hn] <;> simp [owedLine, State.reported]

theorem handles_inv (hi : Inv prog s) (h : Handles prog s s') : Inv prog s' := by
  cases h with
  | deliver hframe hpending hmask hcaught =>
      refine ⟨hi.allowed, ?_, hi.fresh, fun _ => .inr trivial, ?_, hi.perm, ?_⟩
      · exact hi.phase.congr rfl rfl
      · rintro ret ⟨⟩
      · have := hi.lines
        rw [hframe] at this
        exact this
  | enter hframe =>
      refine ⟨hi.allowed, hi.phase, hi.fresh, fun _ => .inr trivial, ?_, hi.perm, ?_⟩
      · rintro ret ⟨⟩
      · have := hi.lines
        rw [hframe] at this
        show (s.out ++ prog.enter).filterMap Line.reaped ++ [] = _
        rw [List.filterMap_append, reaped_enter, List.append_nil]
        exact this
  | reap hframe before after p hc => exact reap_inv hi hframe hc
  | noneDead hframe hne hc => exact nobody_inv hi hframe hc (.inl rfl)
  | noChild hframe hc =>
      refine nobody_inv hi hframe (fun c hmem => ?_) (.inr rfl)
      rw [hc] at hmem
      cases hmem
  | check ret hframe => exact check_inv hi hframe

theorem mains_inv (hi : Inv prog s) (h : Mains prog me s s') : Inv prog s' := by
  cases h with
  | next hframe l g lines h =>
      obtain ⟨hallowed, hphase, hentry, hpending, hlines⟩ :=
        next_phase h hi.allowed hi.phase
      refine ⟨hallowed, hphase, fun he => absurd he hentry, ?_, hi.answer, hi.perm, ?_⟩
      · rw [show g.pending = s.sig.pending from hpending]
        exact hi.noticed
      · show (s.out ++ lines).filterMap Line.reaped ++ _ = _
        rw [List.filterMap_append, hlines, List.append_nil]
        exact hi.lines
  | forkOk hframe hpc p hfresh =>
      refine ⟨?_, ?_, fun he => ?_, ?_, hi.answer, ?_, hi.lines⟩
      · cases prog <;> rfl
      · have := hi.phase
        rw [hpc] at this
        exact this
      · cases prog <;> cases he
      · rintro ⟨c, hmem, hdead⟩
        rcases List.mem_append.mp hmem with hmem | hmem
        · exact hi.noticed ⟨c, hmem, hdead⟩
        · rw [List.mem_singleton.mp hmem] at hdead
          cases hdead
      · have := hi.perm
        unfold State.created State.unreaped at this ⊢
        simp only [List.filterMap_append, List.map_append, List.map_cons, List.map_nil]
        rw [← List.append_assoc]
        exact this.append_right _
  | forkFail hframe hpc =>
      refine ⟨?_, ?_, fun he => ?_, hi.noticed, hi.answer, ?_, hi.lines⟩
      · cases prog <;> rfl
      · have := hi.phase
        rw [hpc] at this
        exact this
      · cases prog <;> cases he
      · have := hi.perm
        unfold State.created State.unreaped at this ⊢
        simpa [List.filterMap_append] using this
  | listen hframe hpc ok =>
      obtain rfl := hi.server (by rw [hpc]; simp)
      have hphase := hi.phase
      rw [hpc] at hphase
      refine ⟨?_, ?_, fun he => ?_, hi.noticed, hi.answer, hi.perm, hi.lines⟩
      · cases ok <;> rfl
      · cases ok
        · exact hphase.1
        · exact hphase
      · cases ok <;> cases he
  | accept hframe hpc next hnext =>
      obtain rfl := hi.server (by rw [hpc]; simp)
      have hphase := hi.phase
      rw [hpc] at hphase
      refine ⟨?_, ?_, fun he => ?_, hi.noticed, hi.answer, hi.perm, hi.lines⟩
      · rcases hnext with rfl | rfl | rfl <;> rfl
      · rcases hnext with rfl | rfl | rfl
        · exact hphase
        · exact hphase
        · exact hphase.1
      · rcases hnext with rfl | rfl | rfl <;> cases he

theorem kids_inv (hi : Inv prog s) (h : Kids s s') : Inv prog s' := by
  cases h with
  | dies before after p hc =>
      have harmed := hi.armed (by rw [hc]; simp)
      refine ⟨hi.allowed, raise_phase hi.phase, fun he => ?_, fun _ => .inl ?_, hi.answer, ?_,
        hi.lines⟩
      · have := hi.fresh he
        rw [hc] at this
        simp at this
      · exact raise_pending harmed
      · have := hi.perm
        unfold State.created State.unreaped at this ⊢
        rw [hc] at this
        simpa using this
  | stops c hc halive =>
      have harmed := hi.armed (List.ne_nil_of_mem hc)
      exact ⟨hi.allowed, raise_phase hi.phase, hi.fresh, fun _ => .inl (raise_pending harmed),
        hi.answer, hi.perm, hi.lines⟩

theorem step_inv (hi : Inv prog s) (h : Step prog me s s') : Inv prog s' := by
  cases h with
  | handles h => exact handles_inv hi h
  | mains h => exact mains_inv hi h
  | kids h => exact kids_inv hi h

theorem reachable_inv (h : (reaper prog me).Reachable s) : Inv prog s :=
  System.invariant (I := Inv prog) (fun _ h0 => start_inv h0)
    (fun _ _ _ hi hst => step_inv hi hst) h

end LinuxServer.Sigchld
