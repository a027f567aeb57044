import Vexa.PathSimulation

/-!
# Lifting simulates the program

When every path is followed to its end, the lifted function does what the program does: under a
valuation that satisfies the constraints of a path, executing the blocks of this path visits the
program counters the program visits, and leaves the memory that the symbolic memory denotes.

The constraints of the paths cover all inputs, so every execution is that of a path; and what is known
of a path stays true while others are lifted, since finished blocks are kept.

## Main definitions

* `ReturnsWith`, `PathsFollow` — what is known of the paths that ended, and of the others
* `Machine.DecodesFrom` — decoding follows a program

## Main results

* `PathsFollow.explores` — along every run
* `start_entry` — the memory the function is entered in
* `liftedFunction_simulates` — the lifted function simulates the program
-/

namespace Vexa

variable {M : Machine} {program : Program} {s₀ : IrState Name} {p₀ : Addr × Bytes} {ν : Valuation}
  {σ m : Bytes} {c c' c₀ c₁ c₂ : Cpu}

/-! ### Runs -/

/-- What is decoded at an address is the instruction of the program there. -/
def Machine.DecodesFrom (M : Machine) (program : Program) : Prop :=
  ∀ pc bytes inst, M.decodeInstruction pc bytes = some inst → program pc = some inst

theorem Machine.Decodes.decodesFrom (h : M.Decodes program) : M.DecodesFrom program :=
  fun pc bytes _ hinst => (h pc bytes).symm.trans hinst

variable {ended : List PathEnd} {calls : List Cpu} {outcome : Outcome}

section

variable (M program s₀ p₀ ν σ)

/-- The lifted function returns with the memory `m`, after the program counters the program visits until
it stops. -/
def ReturnsWith (f : Function) (m : Bytes) : Prop :=
  ∃ pcs b t t', Visits f (0, s₀) pcs (b, t) ∧ execInsts (f b).insts t = (t', some .ret) ∧
    Executes M program p₀ (pcs ++ (f b).pc.toList) (0, t'.mem) ∧ t'.mem = m

/-- For the paths whose constraints are satisfied: those that go on stand where the program does, and
those that ended have returned. -/
structure PathsFollow (ended : List PathEnd) (c : Cpu) : Prop where
  current : Leaf M program s₀ p₀ ν σ c.function c.pathConstraints c.insertPoint c.pc
    c.symex.context.memory
  pending : ∀ ss ∈ c.unexploredPaths,
    Leaf M program s₀ p₀ ν σ c.function ss.pathConstraints ss.bb ss.pc ss.memory
  ended : ∀ e ∈ ended, Satisfies ν e.state.pathConstraints →
    ReturnsWith M program s₀ p₀ c.function (e.state.symex.context.memory.denote ν σ)

end

theorem ReturnsWith.extends {f g : Function} (h : ReturnsWith M program s₀ p₀ f m)
    (hfg : f.Extends g) : ReturnsWith M program s₀ p₀ g m := by
  obtain ⟨pcs, b, t, t', hvisits, hexec, hexecutes, hmem⟩ := h
  have hb := hfg b (not_straight_of_execInsts hexec)
  rw [← hb] at hexec hexecutes
  exact ⟨pcs, b, t, t', hvisits.extends hfg, hexec, hexecutes, hmem⟩

theorem Leaf.extends {f g : Function} {A : List Term} {b : BlockId} {pc : Addr} {memory : Memory}
    (h : Leaf M program s₀ p₀ ν σ f A b pc memory) (hfg : f.Extends g) (hb : g b = f b) :
    Leaf M program s₀ p₀ ν σ g A b pc memory := fun hν => (h hν).extends hfg hb

/-- What lifting an instruction does to the blocks there are. -/
theorem liftInstruction_extends (hc : c.insertPoint < c.numBlocks) (hfresh : c.Fresh)
    (hstraight : Straight (c.function c.insertPoint).insts) {inst : Instruction}
    (h : liftInstruction M inst c = .ok (outcome, c')) (hstatus : outcome.status = .successful) :
    c.function.Extends c'.function ∧ c'.Fresh ∧
      ∀ b < c.numBlocks, b ≠ c.insertPoint → c'.function b = c.function b := by
  obtain ⟨c₁, hlifts, ⟨rfl, _⟩ | ⟨_, hgoes | hforks⟩⟩ := liftInstruction_builds hc h
  · cases hstatus
  · have hc₁ := hlifts.building
    have hstraight₁ : Straight (c₁.function c₁.insertPoint).insts := by
      rw [hlifts.insertPoint]
      exact hlifts.straight
    refine ⟨(hlifts.extends hfresh hstraight).trans (hgoes.extends hstraight₁),
      hgoes.fresh hc₁.lt (hlifts.fresh hc hfresh), fun b hb hne => ?_⟩
    rw [hgoes.others b (hlifts.insertPoint ▸ hb.ne), hlifts.others b hne hb.ne]
  · have hc₁ := hlifts.building
    have hfresh₁ := hlifts.fresh hc hfresh
    have hstraight₁ : Straight (c₁.function c₁.insertPoint).insts := by
      rw [hlifts.insertPoint]
      exact hlifts.straight
    refine ⟨(hlifts.extends hfresh hstraight).trans (hforks.extends hfresh₁ hstraight₁),
      hforks.fresh hc₁.lt hfresh₁, fun b hb hne => ?_⟩
    have hb₁ : b < c₁.numBlocks := hlifts.numBlocks ▸ Nat.lt_succ_of_lt hb
    rw [hforks.others b (hlifts.insertPoint ▸ hb.ne) hb₁.ne (Nat.lt_succ_of_lt hb₁).ne,
      hlifts.others b hne hb.ne]

/-- **One call** that goes on with the current path. -/
theorem PathsFollow.call (hS : M.solver.Sound) (hA : M.solver.Answers) (hM : M.RegistersFit)
    (hmode : M.mode = .symbolicExploration) (hoff : M.forkAtCmovs = false)
    (hdecode : M.DecodesFrom program)
    (hσ : Unwritten ν σ) (hbuilt : Built c (c.insertPoint :: (c.pendingBlocks ++ leftOpen ended)))
    (hregular : c.Regular) (hfresh : c.Fresh) (h : PathsFollow M program s₀ p₀ ν σ ended c)
    (hcall : processInstruction M c = .ok (outcome, c')) (hstatus : outcome.status = .successful) :
    PathsFollow M program s₀ p₀ ν σ ended c' ∧ c'.Fresh := by
  have hpaths := processInstruction_paths hS hcall
  rcases processInstruction_cases hcall with ⟨rfl, _, _⟩ | ⟨_, _, rfl, _⟩ |
    ⟨hpc, c₁, hnone, ⟨rfl, _⟩ | ⟨inst, hinst, hlift⟩⟩
  · cases hstatus
  · cases hstatus
  · cases hstatus
  have hc₁ : cfgRecovery M c = (none, c) := by simp only [cfgRecovery, hmode]
  obtain rfl := (Prod.mk.inj (hc₁.symm.trans hnone)).2
  have hlt := hbuilt.lt _ (List.mem_cons_self ..)
  have hstraight := hbuilt.straight _ (List.mem_cons_self ..)
  obtain ⟨hextends, hfresh', hothers⟩ := liftInstruction_extends hlt hfresh hstraight hlift hstatus
  -- nothing is known of a path whose constraints are not satisfied
  have hcarries : Satisfies ν c.pathConstraints → Carries M program s₀ p₀ ν σ c c' := fun hν =>
    (h.current hν).liftInstruction hS hA hM hmode hoff hσ hν hlt hfresh hstraight hregular.symex.wf hpc
      (hdecode _ _ _ hinst) hlift hstatus
  have hpending : ∀ ss ∈ c.unexploredPaths,
      Leaf M program s₀ p₀ ν σ c'.function ss.pathConstraints ss.bb ss.pc ss.memory := by
    intro ss hss
    have hmem : ss.bb ∈ c.pendingBlocks ++ leftOpen ended :=
      List.mem_append_left _ (List.mem_map_of_mem hss)
    refine (h.pending ss hss).extends hextends (hothers _ ?_ ?_)
    · exact hbuilt.lt _ (List.mem_cons_of_mem _ hmem)
    · rintro heq
      exact (List.nodup_cons.mp hbuilt.nodup).1 (heq ▸ hmem)
  have hended : ∀ e ∈ ended, Satisfies ν e.state.pathConstraints →
      ReturnsWith M program s₀ p₀ c'.function (e.state.symex.context.memory.denote ν σ) :=
    fun e he hν => (h.ended e he hν).extends hextends
  rcases hpaths with ⟨_, hkeeps | ⟨ss, hsplits⟩⟩ | ⟨_, hon, _⟩
  · refine ⟨⟨fun hν => (hcarries ((hkeeps.satisfies ν).mp hν)).current hν, ?_, hended⟩, hfresh'⟩
    rw [hkeeps.unexploredPaths]
    exact hpending
  · refine ⟨⟨fun hν => (hcarries ((hsplits.satisfies ν).mpr (.inl hν))).current hν, ?_, hended⟩,
      hfresh'⟩
    rw [hsplits.unexploredPaths]
    refine List.forall_mem_cons.mpr ⟨fun hν => ?_, hpending⟩
    exact (hcarries ((hsplits.satisfies ν).mpr (.inr hν))).saved ss hsplits.unexploredPaths hν
  · rw [hoff] at hon
    cases hon

/-- **A path ends** where the program stops: the function returns. -/
theorem PathsFollow.finish (hbuilt : Built c (c.insertPoint :: (c.pendingBlocks ++ leftOpen ended)))
    (h : PathsFollow M program s₀ p₀ ν σ ended c) (hpc : c.pc = 0) :
    (∀ ss ∈ c.unexploredPaths, Leaf M program s₀ p₀ ν σ (c.create .ret).function ss.pathConstraints
      ss.bb ss.pc ss.memory) ∧
    ∀ e ∈ ended ++ [⟨.functionEnded, c.create .ret⟩], Satisfies ν e.state.pathConstraints →
      ReturnsWith M program s₀ p₀ (c.create .ret).function
        (e.state.symex.context.memory.denote ν σ) := by
  have hstraight := hbuilt.straight _ (List.mem_cons_self ..)
  have hextends : c.function.Extends (c.create .ret).function := by
    intro b hb
    refine Cpu.function_create_of_ne c .ret ?_
    rintro rfl
    exact hb hstraight
  refine ⟨fun ss hss => ?_, List.forall_mem_append.mpr ⟨fun e he hν => ?_,
    List.forall_mem_singleton.mpr fun hν => ?_⟩⟩
  · refine (h.pending ss hss).extends hextends (Cpu.function_create_of_ne c .ret ?_)
    rintro heq
    have hmem : ss.bb ∈ c.pendingBlocks ++ leftOpen ended :=
      List.mem_append_left _ (List.mem_map_of_mem hss)
    exact (List.nodup_cons.mp hbuilt.nodup).1 (heq ▸ hmem)
  · exact (h.ended e he hν).extends hextends
  · obtain ⟨t, ⟨pcs, u, hvisits, hexec, hexecutes⟩, hmem⟩ := h.current hν
    have hself := c.function_create_self .ret
    refine ⟨pcs, c.insertPoint, u, t, hvisits.extends hextends, ?_, ?_, hmem⟩
    · rw [hself, execInsts_append hstraight, hexec]
      rfl
    · rw [hself, ← hpc, hmem]
      exact hexecutes

/-- **Along every run** all of whose paths ended at program counter zero. -/
theorem PathsFollow.explores (hS : M.solver.Sound) (hA : M.solver.Answers) (hM : M.RegistersFit)
    (hmode : M.mode = .symbolicExploration) (hoff : M.forkAtCmovs = false)
    (hdecode : M.DecodesFrom program)
    (hσ : Unwritten ν σ) (hbuilt₀ : Built c₀ (c₀.insertPoint :: c₀.pendingBlocks))
    (hmaps₀ : c₀.MapsBuilt) (hregular₀ : c₀.Regular) (hfresh₀ : c₀.Fresh)
    (h₀ : PathsFollow M program s₀ p₀ ν σ [] c₀) (h : Explores M c₀ calls ended c)
    (hended : ∀ e ∈ ended, e.outcome = .functionEnded) :
    PathsFollow M program s₀ p₀ ν σ ended c ∧ c.Fresh := by
  induction h with
  | start => exact ⟨h₀, hfresh₀⟩
  | successful hexplores hcall hstatus ih =>
    obtain ⟨hfollow, hfresh⟩ := ih hended
    exact hfollow.call hS hA hM hmode hoff hdecode hσ (Built.explores hbuilt₀ hmaps₀ hexplores).2
      (hregular₀.explores hS hM hbuilt₀ hmaps₀ hexplores) hfresh hcall hstatus
  | explore hexplores hcall hstatus hpaths ih =>
    rename_i calls ended c c' outcome before after path
    obtain rfl : outcome = .functionEnded :=
      hended _ (List.mem_append_right _ (List.mem_singleton_self _))
    obtain ⟨hfollow, hfresh⟩ := ih fun e he => hended e (List.mem_append_left _ he)
    have hbuilt := (Built.explores hbuilt₀ hmaps₀ hexplores).2
    rcases processInstruction_cases hcall with ⟨_, hpc, rfl⟩ | ⟨_, _, ⟨⟩, _⟩ |
      ⟨_, _, _, ⟨⟨⟩, _⟩ | ⟨inst, _, hlift⟩⟩
    · obtain ⟨hpending, hreturned⟩ := hfollow.finish hbuilt hpc
      rw [hpaths] at hpending
      refine ⟨⟨hpending path (by simp), fun ss hss => hpending ss ?_, hreturned⟩, ?_⟩
      · rcases List.mem_append.mp hss with hss | hss
        · exact List.mem_append_left _ hss
        · exact List.mem_append_right _ (List.mem_cons_of_mem _ hss)
      · intro b hb
        have hlt := hbuilt.lt _ (List.mem_cons_self ..)
        show Straight ((c'.create .ret).function b).insts
        rw [Cpu.function_create_of_ne c' .ret (hlt.trans_le hb).ne']
        exact hfresh b hb
    · obtain ⟨_, _, ⟨⟨⟩, _⟩ | ⟨⟨⟩, _⟩⟩ := liftInstruction_cases hlift

theorem PathsFollow.returns (hS : M.solver.Sound) (hA : M.solver.Answers) (hM : M.RegistersFit)
    (hmode : M.mode = .symbolicExploration) (hoff : M.forkAtCmovs = false)
    (hdecode : M.DecodesFrom program)
    (hσ : Unwritten ν σ) (hbuilt₀ : Built c₀ (c₀.insertPoint :: c₀.pendingBlocks))
    (hmaps₀ : c₀.MapsBuilt) (hregular₀ : c₀.Regular) (hfresh₀ : c₀.Fresh)
    (h₀ : PathsFollow M program s₀ p₀ ν σ [] c₀) (h : Returns M c₀ calls ended c)
    (hended : ∀ e ∈ ended, e.outcome = .functionEnded) :
    ∀ e ∈ ended, Satisfies ν e.state.pathConstraints →
      ReturnsWith M program s₀ p₀ c.function (e.state.symex.context.memory.denote ν σ) := by
  cases h with
  | last hexplores hcall hstatus hpaths =>
    rename_i outcome
    obtain rfl : outcome = .functionEnded :=
      hended _ (List.mem_append_right _ (List.mem_singleton_self _))
    obtain ⟨hfollow, _⟩ := PathsFollow.explores hS hA hM hmode hoff hdecode hσ hbuilt₀ hmaps₀ hregular₀
      hfresh₀ h₀ hexplores fun e he => hended e (List.mem_append_left _ he)
    rcases processInstruction_cases hcall with ⟨_, hpc, rfl⟩ | ⟨_, _, ⟨⟩, _⟩ |
      ⟨_, _, _, ⟨⟨⟩, _⟩ | ⟨inst, _, hlift⟩⟩
    · exact (hfollow.finish (Built.explores hbuilt₀ hmaps₀ hexplores).2 hpc).2
    · obtain ⟨_, _, ⟨⟨⟩, _⟩ | ⟨⟨⟩, _⟩⟩ := liftInstruction_cases hlift

/-! ### Nothing is erased -/

/-- Only conditional moves note instructions down for erasing. -/
theorem controlFlow_toDelete {inst : Instruction} {r : Outcome × Cpu}
    (h : controlFlow M inst c = .ok r) : r.2.toDelete = c.toDelete ∨
      M.forkAtCmovs = true ∧ ∃ c₁, handleConditionalMoves M inst c = .ok c₁ ∧
        r.2 = { c₁ with pc := inst.nextPc } := by
  have hexec : ∀ {c c' : Cpu} {i : Inst Name}, c.exec M i = .ok c' → c'.toDelete = c.toDelete := by
    intro c c' i h
    obtain ⟨s, _, rfl⟩ := Cpu.exec_eq h
    rfl
  have hbranching : ∀ {condition jumpPc fallthroughPc} {c c' : Cpu},
      branching M condition jumpPc fallthroughPc c = .ok c' → c'.toDelete = c.toDelete := by
    intro condition jumpPc fallthroughPc c c' h
    rcases branching_cases h with ⟨v, taken, _, _, rfl⟩ | ⟨v, _, rfl⟩ <;> rfl
  rcases controlFlow_cases h with ⟨_, cond, c', hcond, hbranch, rfl⟩ | ⟨_, rfl⟩ | ⟨_, hjump⟩ |
    ⟨_, hcmov, c₁, hsplit, rfl⟩ | ⟨_, _, rfl⟩
  · obtain ⟨_, _, _, hcast, _⟩ := getCondition_eq hcond
    exact .inl ((hbranching hbranch).trans (hexec hcast))
  · exact .inl rfl
  · left
    obtain ⟨next, _, ⟨target, _, _, rfl⟩ | ⟨_, ⟨_, _, _, _, rfl⟩ |
      ⟨_, _, _, _, _, _, _, _, _, _, hcompare, _, hbranch, rfl⟩ | ⟨_, _, rfl⟩⟩⟩ :=
        indirectJump_cases hjump
    · rfl
    · rfl
    · rw [hbranching hbranch, hexec hcompare]
      rfl
    · rfl
  · exact .inr ⟨hcmov.2, c₁, hsplit, rfl⟩
  · exact .inl rfl

theorem processInstruction_toDelete (hoff : M.forkAtCmovs = false)
    (h : processInstruction M c = .ok (outcome, c')) : c'.toDelete = c.toDelete := by
  rcases processInstruction_cases h with ⟨_, _, rfl⟩ | ⟨_, _, _, hjoin⟩ | ⟨_, c₁, hnone, hrest⟩
  · rfl
  · obtain ⟨_, vjmp, rfl⟩ := cfgRecovery_some hjoin
    rfl
  · obtain ⟨vjmp, rfl⟩ := cfgRecovery_none hnone
    rcases hrest with ⟨_, rfl⟩ | ⟨inst, _, hlift⟩
    · rfl
    obtain ⟨c₁, hexec, ⟨_, heq⟩ | ⟨semantics, c₂, _, hrun, hflow⟩⟩ := liftInstruction_eq hlift
    · obtain ⟨_, rfl⟩ := Prod.mk.inj heq
      obtain ⟨s, _, rfl⟩ := Cpu.exec_eq hexec
      rfl
    · have hdelete : c'.toDelete = (saveBlock M c₂).toDelete := by
        refine (controlFlow_toDelete hflow).resolve_right ?_
        rintro ⟨hon, _⟩
        rw [hoff] at hon
        cases hon
      refine hdelete.trans ?_
      simp only [runLifted, Except.bind_eq_ok, Except.pure_eq_ok] at hrun
      obtain ⟨r, _, rfl⟩ := hrun
      obtain ⟨s, _, rfl⟩ := Cpu.exec_eq hexec
      rw [saveBlock]
      split
      all_goals first | rfl | (split <;> rfl)

theorem Explores.toDelete (hoff : M.forkAtCmovs = false) (h : Explores M c₀ calls ended c) :
    c.toDelete = c₀.toDelete := by
  induction h with
  | start => rfl
  | successful hexplores hcall hstatus ih => exact (processInstruction_toDelete hoff hcall).trans ih
  | explore hexplores hcall hstatus hpaths ih =>
    refine Eq.trans ?_ ((processInstruction_toDelete hoff hcall).trans ih)
    show (finishPath _ _).toDelete = _
    rw [finishPath]
    split <;> rfl

theorem Returns.toDelete (hoff : M.forkAtCmovs = false) (h : Returns M c₀ calls ended c) :
    c.toDelete = c₀.toDelete := by
  cases h with
  | last hexplores hcall hstatus hpaths =>
    refine Eq.trans ?_ ((processInstruction_toDelete hoff hcall).trans (hexplores.toDelete hoff))
    rw [finishPath]
    split <;> rfl

theorem eraseDeletedInstructions_of_nil (h : c.toDelete = []) :
    c.eraseDeletedInstructions.function = c.function := by
  funext b
  have hinsts : (c.eraseDeletedInstructions.function b).insts = (c.function b).insts := by
    rw [eraseDeletedInstructions_insts, h]
    simp
  show { c.function b with insts := (c.eraseDeletedInstructions.function b).insts } = c.function b
  rw [hinsts]

/-! ### The start -/

theorem start_fresh {layout : Layout} {image : MemPage} {opaqueSolving : Bool} {pc : Addr}
    (h : start M layout image opaqueSolving pc = .ok c₀) :
    c₀.Fresh ∧ c₀.toDelete = [] ∧ c₀.insertPoint = 0 ∧ (c₀.function 0).pc = none := by
  simp only [start, Except.bind_eq_ok, Except.pure_eq_ok] at h
  obtain ⟨r, _, rfl⟩ := h
  refine ⟨fun b hb => ?_, rfl, rfl, rfl⟩
  have hb' : b ≠ 0 := Nat.pos_iff_ne_zero.mp hb
  simp only [Function.update_of_ne hb']
  exact Straight.nil

/-- The two registers `cpu::run` sets up are different. -/
def Layout.Apart (layout : Layout) : Prop :=
  ∀ x : Addr, ¬ ((x - layout.sp).toNat < 8 ∧ (x - layout.gsBase).toNat < 8)

/-- What the stores of the entry block do. -/
theorem entryBlock_exec (layout : Layout) (t : IrState Name) :
    (execAll (entryBlock layout) t).mem
      = (t.mem.store statePage layout.sp 8 ((-8 : Addr).toNat % 2 ^ 64)).store stackPage
          (16384 + -8) 8 (0 % 2 ^ 64) := rfl

/-- The process environment is written after the entry block was emulated. -/
theorem initEnvironment_denotes (hS : M.solver.Sound) (layout : Layout) {ctx : Context}
    (h : ctx.Denotes ν σ m) : (initEnvironment M layout ctx).memory.denote ν σ
      = ((m.store statePage layout.gsBase 8 (0x7fffff000000 % 2 ^ 64)).store globalPage
          (0x7fffff000000 + 0x60) 8 (0x7fffff800000 % 2 ^ 64)).store globalPage
          (0x7fffff800000 + 0x10) 8 (0x140000000 % 2 ^ 64) := by
  have hsize : ∀ n, (Value.concrete n 64).size = 8 * 8 := fun _ => rfl
  have heval : ∀ n, (Value.concrete n 64).eval ν = n % 2 ^ 64 := fun n => Value.eval_concrete ν n 64
  have hloadable : (Ptr.state layout.gsBase : Ptr Name).Loadable := trivial
  obtain ⟨_, hgs⟩ := Symex.pointer_place (s := ⟨ctx, fun _ => none⟩) hS hloadable rfl fun _ => 0
  have hgsBase := h.write hS hgs (hsize 0x7fffff000000) (by decide)
  have hteb := hgsBase.write hS
    (Pointer.asUint64_simplify_concrete M.solver (0x7fffff000000 + 0x60) globalPage)
    (hsize 0x7fffff800000) (by decide)
  have hpeb := hteb.write hS
    (Pointer.asUint64_simplify_concrete M.solver (0x7fffff800000 + 0x10) globalPage)
    (hsize 0x140000000) (by decide)
  rw [heval, heval, heval] at hpeb
  exact hpeb.mem

/-- **The initial memory is one the function can be entered in**: the entry block stores what is there. -/
theorem start_entry (hS : M.solver.Sound) (hA : M.solver.Answers) (hM : M.RegistersFit)
    {layout : Layout} (hlayout : layout.Apart) {image : MemPage}
    (himage : ∀ k x cell, image.find x = some cell → cell.WFAt k) {opaqueSolving : Bool} {pc : Addr}
    (h : start M layout image opaqueSolving pc = .ok c₀) (hσ : Unwritten ν σ) (env : Name → ℕ) :
    (execAll (c₀.function 0).insts ⟨env, c₀.symex.context.memory.denote ν σ⟩).mem
      = c₀.symex.context.memory.denote ν σ := by
  simp only [start, Except.bind_eq_ok, Except.pure_eq_ok] at h
  obtain ⟨r, hr, rfl⟩ := h
  set ctx := initRegisters M M.registers ⟨Function.update (fun _ => .empty) globalPage image, 0, 0⟩
  -- the code of the entry block is what it was made from
  have hexec : ∀ t, (execAll r.1.insts t).mem = (execAll (entryBlock layout) t).mem := fun t =>
    ((runBlock_lowers hr).exec (entryBlock_typed layout) (fun _ _ hnone => by cases hnone)
      (entryBlock_lifted layout) ⟨fun _ _ hnone => (by cases hnone), rfl⟩ trivial).mem
  have hctx : Symex.Denotes ν σ (fun _ => none) ⟨ctx, fun _ => none⟩
      ⟨env, ctx.memory.denote ν σ⟩ :=
    ⟨fun _ _ hnone => (by cases hnone), rfl, initRegisters_wf hS M.registers hM (image_wf himage)⟩
  obtain ⟨hden, _⟩ := runBlock_sound hS hA (satisfies_nil ν) hσ (entryBlock_typed layout)
    (fun _ _ hnone => by cases hnone) (entryBlock_lifted layout) hctx hr
  have hmem := initEnvironment_denotes hS layout hden.context
  rw [entryBlock_exec] at hmem
  show (execAll r.1.insts ⟨env, (initEnvironment M layout r.2.context).memory.denote ν σ⟩).mem
    = (initEnvironment M layout r.2.context).memory.denote ν σ
  rw [hexec, entryBlock_exec, hmem]
  -- the stores of the entry block commute with those of the environment
  have hne : ∀ {p q : PageId} {a b : Addr}, p ≠ q → p = q →
      ∀ x : Addr, ¬ ((x - a).toNat < 8 ∧ (x - b).toNat < 8) := fun hpq heq => absurd heq hpq
  have hswap : statePage = statePage →
      ∀ x : Addr, ¬ ((x - layout.gsBase).toNat < 8 ∧ (x - layout.sp).toNat < 8) :=
    fun _ x hx => hlayout x hx.symm
  have hglobal : globalPage ≠ statePage := by decide
  have hstack : globalPage ≠ stackPage := by decide
  have hstate : statePage ≠ stackPage := by decide
  rw [Bytes.store_comm _ (hne hglobal), Bytes.store_comm _ (hne hglobal), Bytes.store_comm _ hswap,
    Bytes.store_comm _ (hne hstate.symm), Bytes.store_store, Bytes.store_comm _ (hne hstack),
    Bytes.store_comm _ (hne hstack), Bytes.store_comm _ (hne hstate), Bytes.store_store]

/-- **Lifting simulates the program.** When all paths are explored and every path ended at program
counter zero, every input follows one of them. For an input that follows a path, the lifted function,
entered in a memory from which the entry block makes the initial one, visits the program counters the
program visits from the initial memory until it reaches zero, returns there, and leaves the memory that
the symbolic memory of the path denotes. Registers are part of the memory. -/
theorem liftedFunction_simulates (hS : M.solver.Sound) (hA : M.solver.Answers) (hM : M.RegistersFit)
    (hmode : M.mode = .symbolicExploration) (hoff : M.forkAtCmovs = false)
    (hdecode : M.DecodesFrom program) {layout : Layout} {image : MemPage}
    (himage : ∀ k x cell, image.find x = some cell → cell.WFAt k) {opaqueSolving : Bool} {pc : Addr}
    {fuel : ℕ} (hstart : start M layout image opaqueSolving pc = .ok c₀)
    (hrun : run M layout image opaqueSolving pc fuel = .ok (some (ended, c)))
    (hended : ∀ e ∈ ended, e.outcome = .functionEnded) (hσ : Unwritten ν σ)
    (hentry : (execAll (c₀.function 0).insts s₀).mem = c₀.symex.context.memory.denote ν σ) :
    (∃ e ∈ ended, Satisfies ν e.state.pathConstraints) ∧
    ∀ e ∈ ended, Satisfies ν e.state.pathConstraints →
      ∃ pcs b t t', Visits c.function (0, s₀) pcs (b, t) ∧
        execInsts (c.function b).insts t = (t', some .ret) ∧
        Executes M program (pc, c₀.symex.context.memory.denote ν σ) (pcs ++ (c.function b).pc.toList)
          (0, t'.mem) ∧
        t'.mem = e.state.symex.context.memory.denote ν σ := by
  obtain ⟨c', hreturns, rfl⟩ := returns_of_run hstart hrun
  obtain ⟨hbuilt, hmaps⟩ := start_built hstart
  obtain ⟨hfresh, hdelete, hinsert, hpc₀⟩ := start_fresh hstart
  obtain ⟨hpc, _, _, _, _, hpaths⟩ := start_eq hstart
  have h₀ : PathsFollow M program s₀ (pc, c₀.symex.context.memory.denote ν σ) ν σ [] c₀ := by
    refine ⟨fun _ => ⟨_, ⟨[], s₀, ?_, rfl, ?_⟩, ?_⟩, ?_, nofun⟩
    · rw [hinsert]
      exact .refl _
    · rw [hinsert, hpc₀, hpc]
      exact .start
    · rw [hinsert]
      exact hentry
    · rw [hpaths]
      exact nofun
  refine ⟨hreturns.covers hS (start_covers hstart) ν, ?_⟩
  rw [eraseDeletedInstructions_of_nil ((hreturns.toDelete hoff).trans hdelete)]
  exact h₀.returns hS hA hM hmode hoff hdecode hσ hbuilt hmaps (start_regular hS hM himage hstart)
    hfresh hreturns hended

/-! ### A branch to the end -/

/-- A branch to zero, by the zero flag, at `0x1000`, and a jump to zero everywhere else. -/
def branchToZero : Program := fun pc =>
  if pc = 0x1000 then some ⟨"JZ_RELBRd", .conditionalBranch, 0, 0x1002, 0x1002⟩
  else some ⟨"JMP_RELBRz", .directJump, 0, pc + 2, pc + 2⟩

/-- What the branch does. -/
def zeroFlagBranch : Semantics where
  insts := [.load 0 8 (.state 2065), .store 8 (.ssa 0) .branchTaken]
  typed := by
    simp [Typed, Inst.OperandsTyped, Inst.extend, Inst.result, Operand.width, ByteWidth, Ptr.Loadable,
      Ptr.Storable, Function.update_apply]

/-- That program, explored with a solver. -/
def exploring (S : Solver) : Machine :=
  { Machine.bare S with
    decodeInstruction := fun pc _ => branchToZero pc
    liftIntoBlock := fun inst =>
      if inst.isConditionalBranch then some zeroFlagBranch else some ⟨[], trivial⟩ }

/-- Both sides of the branch are explored, and end at zero. -/
theorem exploring_run : ∃ c₀ ended c,
    start (exploring .deciding) ⟨0, 8⟩ .empty false 0x1000 = .ok c₀ ∧
    run (exploring .deciding) ⟨0, 8⟩ .empty false 0x1000 4 = .ok (some (ended, c)) ∧
    ended.map PathEnd.outcome = [.functionEnded, .functionEnded] := by
  refine ⟨_, _, _, rfl, rfl, ?_⟩
  rfl

theorem liftedFunction_simulates_branchToZero : ∃ c₀ ended c,
    start (exploring .deciding) ⟨0, 8⟩ .empty false 0x1000 = .ok c₀ ∧
    run (exploring .deciding) ⟨0, 8⟩ .empty false 0x1000 4 = .ok (some (ended, c)) ∧
    let ν := Valuation.withMemory (fun _ => 0) fun _ _ => 0
    let m := c₀.symex.context.memory.denote ν fun _ _ => 0
    (∃ e ∈ ended, Satisfies ν e.state.pathConstraints) ∧
    ∀ e ∈ ended, Satisfies ν e.state.pathConstraints →
      ∃ pcs b t t', Visits c.function (0, ⟨fun _ => 0, m⟩) pcs (b, t) ∧
        execInsts (c.function b).insts t = (t', some .ret) ∧
        Executes (exploring .deciding) branchToZero (0x1000, m) (pcs ++ (c.function b).pc.toList)
          (0, t'.mem) ∧
        t'.mem = e.state.symex.context.memory.denote ν fun _ _ => 0 := by
  obtain ⟨c₀, ended, c, hstart, hrun, houtcomes⟩ := exploring_run
  have hended : ∀ e ∈ ended, e.outcome = .functionEnded := by
    intro e he
    have hmem : e.outcome ∈ ended.map PathEnd.outcome := List.mem_map_of_mem he
    rw [houtcomes] at hmem
    simpa using hmem
  have hdecodes : (exploring .deciding).Decodes branchToZero := fun _ _ => rfl
  have hapart : Layout.Apart ⟨0, 8⟩ := fun x => by bv_omega
  have hM : (exploring .deciding).RegistersFit := fun r hr => absurd hr (List.not_mem_nil (a := r))
  have himage : ∀ k x cell, MemPage.empty.find x = some cell → cell.WFAt k := fun _ _ _ h => by cases h
  have hσ := unwritten_withMemory (fun _ => 0) fun _ _ => 0
  exact ⟨c₀, ended, c, hstart, hrun,
    liftedFunction_simulates Solver.deciding_sound Solver.deciding_answers hM
    rfl rfl hdecodes.decodesFrom himage hstart hrun hended hσ
    (start_entry Solver.deciding_sound Solver.deciding_answers hM hapart himage hstart hσ _)⟩

end Vexa
