import Vexa.Simulation

/-!
# Both sides of a fork

`branching` works on the one state of the lifter: it adds the negated condition, solves the registers
for the side that falls through, saves this state, rolls back, and does the same again for the side
that is taken. Solving a register writes it where its value is settled, so the two sides have
different memories, which denote what the memory before denoted, each under its own constraints.

## Main definitions

* `Cpu.Branches` — the calls of `branching` that `process_instruction` makes
* `KeepsBytes` — two memories that denote the same bytes

## Main results

* `solveRegisters_keeps` — solving the registers, with any answers of the solver
* `Cpu.Branches.wf` — the state in which a run branches
* `branching_keeps_state`
-/

namespace Vexa

variable {M : Machine} {ν : Valuation} {c c' c₀ c₁ c₂ c₃ : Cpu} {ctx ctx' : Context}
  {condition : DualValue} {jumpPc fallthroughPc : Addr} {inst : Instruction}

/-! ### Solving the registers -/

/-- Under `ν` the second memory denotes what the first one does, with symbols numbered from `n` on for
bytes nobody had written. -/
def KeepsBytes (ν : Valuation) (n : ℕ) (m m' : Memory) : Prop :=
  ∃ F, Context.Filling ν n F ∧ ∀ bg, m'.denote ν bg = m.denote ν (F bg)

theorem KeepsBytes.refl (ν : Valuation) (n : ℕ) (m : Memory) : KeepsBytes ν n m m :=
  ⟨_, Context.Filling.id ν n, fun _ => rfl⟩

theorem KeepsBytes.trans {n n' : ℕ} {m m' m'' : Memory} (h : KeepsBytes ν n m m')
    (h' : KeepsBytes ν n' m' m'') (hn : n ≤ n') : KeepsBytes ν n m m'' := by
  obtain ⟨F, hF, hden⟩ := h
  obtain ⟨G, hG, hden'⟩ := h'
  exact ⟨fun bg => F (G bg), hF.comp hG hn, fun bg => (hden' bg).trans (hden (G bg))⟩

/-- A byte that was written denotes the same. -/
theorem KeepsBytes.byte {n : ℕ} {m m' : Memory} (h : KeepsBytes ν n m m') {p : PageId} {a : Addr}
    (hwritten : (m p).find a ≠ none) (bg : Bytes) : m'.denote ν bg p a = m.denote ν bg p a := by
  obtain ⟨F, -, hden⟩ := h
  obtain ⟨cell, hcell⟩ := Option.ne_none_iff_exists'.mp hwritten
  rw [hden bg, Memory.denote, Memory.denote, hcell]

/-- What a context becomes while registers are solved under the constraints `A`. -/
structure Solves (A : List Term) (ctx ctx' : Context) : Prop where
  wf : ctx'.memory.WF
  fresh : ctx.fresh ≤ ctx'.fresh
  keeps : ∀ ν, Satisfies ν A → KeepsBytes ν ctx.fresh ctx.memory ctx'.memory

theorem solveRegister_keeps (hS : M.solver.Sound) (A : List Term) {reg : Register}
    (hreg : reg.size < 256) (hwf : ctx.memory.WF) : Solves A ctx (Cpu.solveRegister M A ctx reg) := by
  rw [Cpu.solveRegister]
  split
  · exact ⟨hwf, Nat.le_refl _, fun _ _ => KeepsBytes.refl ..⟩
  · next hsize =>
    have hpos : 0 < reg.size := by
      have hle : ¬ reg.size < 8 := fun hlt => hsize (.inr hlt)
      omega
    have hbase := Pointer.asUint64_simplify_concrete M.solver reg.offset statePage
    obtain ⟨hgrow, hwidth, heval⟩ := Context.read_sound (hwf reg.size) hbase hpos
    rw [Nat.mul_comm] at hgrow hwidth heval
    set read := Cpu.readRegister M reg ctx
    have hwf' : read.2.memory.WF := hgrow.wf hwf
    have hread : ∀ ν, KeepsBytes ν ctx.fresh ctx.memory read.2.memory := hgrow.exists_filling
    obtain ⟨hsort, hvalue⟩ := Value.simplifyUnder_sound hS A read.2.checks read.1
    set value := read.1.simplifyUnder M.solver A read.2.checks
    simp only
    split
    · -- the register is written with the value it has
      have hsize' : (value.1.simplify M.solver).size = 8 * reg.size := by
        rw [Value.size_simplify hS, Value.size, Term.bits, hsort]
        exact hwidth.trans (Nat.mul_comm ..)
      refine ⟨Memory.WF.write hS hwf' hsize' hreg, hgrow.fresh_le, fun ν hν => ?_⟩
      obtain ⟨F, hF, hden⟩ := hread ν
      refine ⟨F, hF, fun bg => ?_⟩
      rw [← hden bg, Cpu.writeRegister, Context.memory_write, Memory.denote_write hS hbase, hsize',
        Nat.mul_div_cancel_left _ (by decide), Nat.mod_eq_of_lt hreg, Value.eval_simplify hS,
        hvalue ν hν]
      have hload := heval ν bg
      change read.1.eval ν = _ at hload
      rw [hload]
      exact Bytes.store_load_self _ statePage reg.offset (Nat.le_refl _)
    · exact ⟨hwf', hgrow.fresh_le, fun ν _ => hread ν⟩

/-- **The registers are solved**, and the memory denotes what it did. -/
theorem solveRegisters_keeps (hS : M.solver.Sound) (A : List Term) :
    ∀ (regs : List Register) {ctx : Context}, (∀ r ∈ regs, r.size < 256) → ctx.memory.WF →
      Solves A ctx (regs.foldl (Cpu.solveRegister M A) ctx)
  | [], _, _, hwf => ⟨hwf, Nat.le_refl _, fun _ _ => KeepsBytes.refl ..⟩
  | r :: regs, ctx, hregs, hwf => by
    obtain ⟨hr, hregs⟩ := List.forall_mem_cons.mp hregs
    have hfirst := solveRegister_keeps hS A hr hwf
    have hrest := solveRegisters_keeps hS A regs hregs hfirst.wf
    rw [List.foldl_cons]
    exact ⟨hrest.wf, hfirst.fresh.trans hrest.fresh, fun ν hν =>
      (hfirst.keeps ν hν).trans (hrest.keeps ν hν) hfirst.fresh⟩

/-! ### Where a run branches -/

/-- `process_instruction`, called in `c`, has lifted the instruction and gets to its control flow in
`c₃`. -/
def Cpu.Decides (M : Machine) (c : Cpu) (inst : Instruction) (c₃ : Cpu) : Prop :=
  ∃ c₁ c₂ c₂' semantics, c.pc ≠ 0 ∧ cfgRecovery M c = (none, c₁) ∧
    M.decodeInstruction c₁.pc (fetch (c₁.symex.context.memory globalPage) c₁.pc 15) = some inst ∧
    ((openBlock c₁).eventHandler M .instructionLift).exec M
      (.store 64 (.const 64 ((openBlock c₁).eventHandler M .instructionLift).pc.toNat) .nextPc)
        = .ok c₂ ∧
    M.liftIntoBlock inst = some semantics ∧ runLifted M semantics c₂ = .ok c₂' ∧ c₃ = saveBlock M c₂'

/-- `process_instruction`, called in `c`, calls `branching` in the last state, with this condition and
these program counters: at a conditional branch, and at an indirect jump with two targets. -/
inductive Cpu.Branches (M : Machine) (c : Cpu) : DualValue → Addr → Addr → Cpu → Prop
  | conditional {inst : Instruction} {c₃ : Cpu} {cond : DualValue × Cpu} : c.Decides M inst c₃ →
      inst.isControlFlow = true → inst.isConditionalBranch = true → getCondition M c₃ = .ok cond →
      Branches M c cond.1 inst.branchTakenPc inst.branchNotTakenPc cond.2
  | indirect {inst : Instruction} {c₃ c₄ : Cpu} {next : DualValue} {front back : Term}
      {jumpPc fallthroughPc : Addr} {cond : Value} : c.Decides M inst c₃ →
      inst.isControlFlow = true → ¬ inst.isConditionalBranch = true →
      ¬ inst.isDirectControlFlow = true → getNextPc c₃ = .ok next →
      ¬ (next.v.simplify M.solver).isConcrete = true → jumpTargets M next c₃ = [front, back] →
      asUint64? front = .ok jumpPc → asUint64? back = .ok fallthroughPc →
      ((c₃.enumerateTarget M next).setTargets [jumpPc, fallthroughPc]).exec M
        (compareTarget next jumpPc c₃) = .ok c₄ →
      c₄.symex.get (.ssa ⟨c₃.block, 0, (0, 2)⟩) = .ok cond →
      Branches M c ⟨.ssa ⟨c₃.block, 0, (0, 2)⟩, cond⟩ jumpPc fallthroughPc c₄

theorem Cpu.Decides.processInstruction (h : c.Decides M inst c₃) :
    processInstruction M c = controlFlow M inst c₃ := by
  obtain ⟨c₁, c₂, c₂', semantics, hpc, hrec, hdecode, hexec, hlift, hrun, rfl⟩ := h
  simp only [Vexa.processInstruction, if_neg hpc, hrec, hdecode, liftInstruction, hexec,
    Except.ok_bind, hlift, hrun]

/-- **What `process_instruction` returns** is what `branching` returns. -/
theorem Cpu.Branches.processInstruction (h : c.Branches M condition jumpPc fallthroughPc c₁)
    (hbranch : branching M condition jumpPc fallthroughPc c₁ = .ok c') :
    processInstruction M c = .ok (.lifted c₁.block, c') := by
  cases h with
  | conditional hdecides hflow hcond hget =>
    have hblock := (getCondition_extends hget).block
    simp only [hdecides.processInstruction, controlFlow, hflow, hcond, if_true, hget, Except.ok_bind,
      hbranch, hblock]
    rfl
  | indirect hdecides hflow hcond hdirect hnext hconcrete hfound hjump hfall hexec hget =>
    have hblock : c₁.block = _ := (Cpu.exec_extends hexec).block
    simp only [hdecides.processInstruction, controlFlow, hflow, hcond, hdirect, if_true, if_false,
      indirectJump_of_next hnext, hconcrete, Bool.false_eq_true, hfound, hjump, hfall, hexec,
      hget, hbranch, Except.ok_bind]
    rfl

/-- The memory is well formed where the control flow of an instruction starts. -/
theorem Cpu.Decides.regular (hS : M.solver.Sound) (hlt : c.insertPoint < c.numBlocks) (hc : c.Regular)
    (h : c.Decides M inst c₃) : c₃.Regular := by
  obtain ⟨c₁, c₂, c₂', semantics, _, hrec, _, hexec, _, hrun, rfl⟩ := h
  obtain ⟨hsymex, hpaths, hinsert, hblocks⟩ := cfgRecovery_symex hrec
  have hc₁ : c₁.Regular := hc.of_eq hsymex hpaths
  have hopens := openBlock_opens (by rw [hinsert, hblocks]; exact hlt) hexec
  have hemulates := runLifted_emulates hopens hrun
  obtain ⟨hsymex', _, _, hpaths'⟩ := saveBlock_symex (M := M) c₂'
  refine ⟨?_, ?_⟩
  · rw [hsymex']
    exact (hemulates.sized hS hc₁ hopens).forget
  · rw [hpaths', hemulates.unexploredPaths]
    exact hc₁.pending

theorem Cpu.Branches.wf (hS : M.solver.Sound) (hlt : c.insertPoint < c.numBlocks) (hc : c.Regular)
    (h : c.Branches M condition jumpPc fallthroughPc c₁) : c₁.symex.context.memory.WF := by
  cases h with
  | conditional hdecides _ _ hget =>
    exact (getCondition_regular (hdecides.regular hS hlt hc) hget).symex.wf
  | indirect hdecides _ _ _ _ _ _ _ _ hexec _ =>
    obtain ⟨hvisit, _⟩ := Cpu.exec_symex hexec
    simp only [compareTarget, visit, Except.bind_eq_ok, Except.pure_eq_ok] at hvisit
    obtain ⟨_, _, _, _, hset⟩ := hvisit
    rw [← hset, Symex.context_set]
    change (Symex.setOperand _ _ _).context.memory.WF
    rw [Symex.context_setOperand]
    exact (hdecides.regular hS hlt hc).symex.wf

/-! ### Both sides -/

/-- One side of a fork in state `c`: it goes on at `pc`, under one more constraint, with the memory of
`c` in which registers are solved under its own constraints. -/
structure ForkSide (M : Machine) (c : Cpu) (side : Valuation → Prop) (pc : Addr) (ss : Snapshot) :
    Prop where
  pc : ss.pc = pc
  constraint : ∃ t : Term, ss.pathConstraints = c.pathConstraints ++ [t] ∧ ∀ ν, t.eval ν = 1 ↔ side ν
  vpc : ss.vpc = c.vpc
  vjmp : ss.vjmp = c.vjmp
  path : ss.path = c.path
  solved : ∃ ctx : Context, ctx.memory = c.symex.context.memory ∧ ss.memory =
    (M.registers.foldl (Cpu.solveRegister M ss.pathConstraints) ctx).memory
  keeps : ∀ ν, Satisfies ν ss.pathConstraints →
    KeepsBytes ν c.symex.context.fresh c.symex.context.memory ss.memory

/-- **A fork**, with any answers of the solver. -/
theorem forkPath_sides (hS : M.solver.Sound) (hM : M.RegistersFit) (hsilent : M.Silent)
    (condition : DualValue) (jumpPc fallthroughPc : Addr) (hwf : c.symex.context.memory.WF) :
    ∃ ss, (forkPath M condition jumpPc fallthroughPc c).unexploredPaths = ss :: c.unexploredPaths ∧
      ForkSide M c (fun ν => condition.v.holds ν) jumpPc
        ((forkPath M condition jumpPc fallthroughPc c).takeSnapshot
          (forkPath M condition jumpPc fallthroughPc c).pc
          (forkPath M condition jumpPc fallthroughPc c).insertPoint) ∧
      ForkSide M c (fun ν => ¬ condition.v.holds ν) fallthroughPc ss := by
  have hevent : ∀ c' : Cpu, Cpu.eventHandler M .pathForking c' = c' := fun c' => by
    rw [Cpu.eventHandler, hsilent]
  -- both sides solve the registers in the memory before, the taken side with later symbols
  have hsolve : ∀ {A : List Term} {ν : Valuation} {ctx : Context}, Satisfies ν A →
      ctx.memory = c.symex.context.memory → c.symex.context.fresh ≤ ctx.fresh →
      KeepsBytes ν c.symex.context.fresh c.symex.context.memory
        (M.registers.foldl (Cpu.solveRegister M A) ctx).memory := by
    intro A ν ctx hν hmem hfresh
    have hkeeps := (solveRegisters_keeps hS A M.registers hM (hmem ▸ hwf)).keeps ν hν
    exact (KeepsBytes.refl ν _ _).trans (hmem ▸ hkeeps) hfresh
  refine ⟨_, by rw [forkPath, hevent]; rfl, ?_, ?_⟩
  · rw [forkPath, hevent]
    refine ⟨rfl, ⟨_, rfl, fun ν => Iff.rfl⟩, rfl, rfl, rfl, ⟨_, ?_, rfl⟩, fun ν hν => hsolve hν rfl ?_⟩
    · rfl
    · exact (solveRegisters_keeps hS _ M.registers hM hwf).fresh
  · exact ⟨rfl, ⟨_, rfl, fun ν => Value.eval_not ν _⟩, rfl, rfl, rfl, ⟨_, rfl, rfl⟩,
      fun ν hν => hsolve hν rfl (Nat.le_refl _)⟩

/-- **A fork leaves both sides with the machine state of before.** -/
theorem branching_keeps_state (hS : M.solver.Sound) (hM : M.RegistersFit) (hsilent : M.Silent)
    {layout : Layout} {image : MemPage} (himage : ∀ k x cell, image.find x = some cell → cell.WFAt k)
    {opaqueSolving : Bool} {pc : Addr} (hstart : start M layout image opaqueSolving pc = .ok c₀)
    {calls : List Cpu} {ended : List PathEnd} (h : Explores M c₀ calls ended c)
    (hbranches : c.Branches M condition jumpPc fallthroughPc c₁)
    (hsolving : c₁.opaqueSolving = true → ¬ (condition.v.simplify M.solver).isConcrete = true) :
    ∃ c' ss, branching M condition jumpPc fallthroughPc c₁ = .ok c' ∧
      c'.unexploredPaths = ss :: c₁.unexploredPaths ∧
      ForkSide M c₁ (fun ν => condition.v.holds ν) jumpPc (c'.takeSnapshot c'.pc c'.insertPoint) ∧
      ForkSide M c₁ (fun ν => ¬ condition.v.holds ν) fallthroughPc ss := by
  obtain ⟨hbuilt, hmaps⟩ := start_built hstart
  have hlt := (Built.explores hbuilt hmaps h).2.lt _ (List.mem_cons_self ..)
  have hregular := (start_regular hS hM himage hstart).explores hS hM hbuilt hmaps h
  have hwf := hbranches.wf hS hlt hregular
  -- the condition that is pushed may have been rewritten in place
  obtain ⟨v, hv, hbranch⟩ : ∃ v, (∀ ν, Value.holds ν v ↔ condition.v.holds ν) ∧
      branching M condition jumpPc fallthroughPc c₁
        = .ok (forkPath M ⟨condition.l, v⟩ jumpPc fallthroughPc c₁) := by
    rw [branching]
    split
    · next hon =>
      refine ⟨condition.v.simplify M.solver, fun ν => Value.holds_simplify hS ν _, ?_⟩
      simp only [opaqueSolver, if_neg (hsolving hon)]
      rfl
    · exact ⟨condition.v, fun _ => Iff.rfl, rfl⟩
  obtain ⟨ss, hpaths, htaken, hfall⟩ :=
    forkPath_sides hS hM hsilent ⟨condition.l, v⟩ jumpPc fallthroughPc hwf
  simp only [hv] at htaken hfall
  exact ⟨_, ss, hbranch, hpaths, htaken, hfall⟩

/-! ### A comparison -/

def comparedRegister : Register := ⟨"RAX", 16, 8, false⟩

def otherRegister : Register := ⟨"RCX", 24, 8, false⟩

/-- The branch is taken when the register holds five. -/
def compareWithFive : Semantics where
  insts := [.load 0 64 (.state 16), .icmp 1 .eq 64 (.ssa 0) (.const 64 5), .cast 2 .zext 1 8 (.ssa 1),
    .store 8 (.ssa 2) .branchTaken]
  typed := by
    simp [Typed, Inst.OperandsTyped, Inst.extend, Inst.result, Operand.width, ByteWidth, Ptr.Loadable,
      Ptr.Storable, Function.update_apply]

/-- The program that branches to zero, with that branch. -/
noncomputable def comparing : Machine :=
  { exploring .deciding with
    registers := [comparedRegister, otherRegister]
    liftIntoBlock := fun inst =>
      if inst.isConditionalBranch then some compareWithFive else some ⟨[], trivial⟩ }

theorem comparing_registersFit : comparing.RegistersFit := by
  intro r hr
  simp only [comparing, List.mem_cons, List.not_mem_nil, or_false] at hr
  rcases hr with rfl | rfl
  · decide
  · decide

/-- What the register holds at the start. -/
def comparedSymbol : Symbol := ⟨.register comparedRegister, 0, 64⟩

/-- The condition of the branch. -/
def comparedIsFive : Value :=
  ((Value.ofTerm (.ite (.binary .equal (.const comparedSymbol) (.value 64 5)) (.value 1 1)
    (.value 1 0))).zext 7).extract 0 0

/-- The first instruction branches by the comparison. -/
theorem comparing_branches : ∃ c₀ c₁, start comparing ⟨0, 8⟩ .empty false 0x1000 = .ok c₀ ∧
    ∃ condition : DualValue, c₀.Branches comparing condition 0 0x1002 c₁ ∧ c₁.opaqueSolving = false ∧
      c₁.pathConstraints = [] ∧ condition.v = comparedIsFive ∧
      (Cpu.readRegister comparing comparedRegister c₁.symex.context).1.term = .const comparedSymbol := by
  obtain ⟨c₀, hstart⟩ : ∃ c₀, start comparing ⟨0, 8⟩ .empty false 0x1000 = .ok c₀ := ⟨_, rfl⟩
  have hdecides : ∃ c₃ cond, c₀.Decides comparing
      ⟨"JZ_RELBRd", .conditionalBranch, 0, 0x1002, 0x1002⟩ c₃ ∧
      getCondition comparing c₃ = .ok cond ∧ cond.2.opaqueSolving = false ∧ cond.2.pathConstraints = [] ∧
      cond.1.v = comparedIsFive ∧
      (Cpu.readRegister comparing comparedRegister cond.2.symex.context).1.term = .const comparedSymbol := by
    obtain rfl := Except.ok.inj hstart
    exact ⟨_, _, ⟨_, _, _, _, by decide, rfl, rfl, rfl, rfl, rfl, rfl⟩, rfl, rfl, rfl, rfl, rfl⟩
  obtain ⟨c₃, cond, hdecides, hcond, hfacts⟩ := hdecides
  exact ⟨c₀, _, hstart, _, .conditional hdecides rfl rfl hcond, hfacts⟩

/-- Both sides have two registers, and a solver that solves them. -/
theorem branching_keeps_state_comparing : ∃ c₀ condition c₁ c' ss,
    start comparing ⟨0, 8⟩ .empty false 0x1000 = .ok c₀ ∧
    c₀.Branches comparing condition 0 0x1002 c₁ ∧
    branching comparing condition 0 0x1002 c₁ = .ok c' ∧ c'.unexploredPaths = ss :: c₁.unexploredPaths ∧
      ForkSide comparing c₁ (fun ν => condition.v.holds ν) 0 (c'.takeSnapshot c'.pc c'.insertPoint) ∧
      ForkSide comparing c₁ (fun ν => ¬ condition.v.holds ν) 0x1002 ss := by
  obtain ⟨c₀, c₁, hstart, condition, hbranches, hoff, _⟩ := comparing_branches
  have himage : ∀ k x cell, MemPage.empty.find x = some cell → cell.WFAt k := fun _ _ _ h => by cases h
  obtain ⟨c', ss, h⟩ := branching_keeps_state Solver.deciding_sound comparing_registersFit (fun _ _ => rfl)
    himage hstart .start hbranches fun hon => absurd (hoff.symm.trans hon) Bool.false_ne_true
  exact ⟨c₀, condition, c₁, c', ss, hstart, hbranches, h⟩

end Vexa
