import Vexa.Cpu
import Vexa.Lib.ExceptBind

/-!
# What one step of the lifter can do

Each function of the lifter is taken apart once. Instructions the builder makes change the function
and the symbolic state and nothing else; the control flow part of `lift_instruction` keeps the maps of
lifted blocks and saves at most one path.

## Main definitions

* `Cpu.Advances` — what the control flow part keeps

## Main results

* `branching_cases`, `indirectJump_cases`, `handleConditionalMoves_advances`
* `controlFlow_cases` — the ways through the control flow part
* `processInstruction_cases` — how a call returns, for each outcome
-/

namespace Vexa

variable {M : Machine} {c c' : Cpu}

/-! ### Instructions the builder makes -/

theorem Cpu.exec_eq {i : Inst Name} (h : c.exec M i = .ok c') :
    ∃ s, visit M.solver c.pathConstraints i c.symex = .ok s ∧ c' = { c.create i with symex := s } := by
  simp only [Cpu.exec, Except.bind_eq_ok, Except.pure_eq_ok] at h
  obtain ⟨s, hs, rfl⟩ := h
  exact ⟨s, hs, rfl⟩

/-- `c'` is `c` with more instructions and another symbolic state. -/
structure Cpu.Extends (c c' : Cpu) : Prop where
  numBlocks : c'.numBlocks = c.numBlocks
  insertPoint : c'.insertPoint = c.insertPoint
  block : c'.block = c.block
  pc : c'.pc = c.pc
  vpc : c'.vpc = c.vpc
  vjmp : c'.vjmp = c.vjmp
  path : c'.path = c.path
  cfg : c'.cfg = c.cfg
  vcfg : c'.vcfg = c.vcfg
  pathConstraints : c'.pathConstraints = c.pathConstraints
  unexploredPaths : c'.unexploredPaths = c.unexploredPaths
  opaqueSolving : c'.opaqueSolving = c.opaqueSolving
  function : ∀ b, b ≠ c.insertPoint → c'.function b = c.function b

namespace Cpu.Extends

theorem refl (c : Cpu) : c.Extends c :=
  ⟨rfl, rfl, rfl, rfl, rfl, rfl, rfl, rfl, rfl, rfl, rfl, rfl, fun _ _ => rfl⟩

theorem trans {c₁ c₂ c₃ : Cpu} (h : c₁.Extends c₂) (h' : c₂.Extends c₃) : c₁.Extends c₃ where
  numBlocks := h'.numBlocks.trans h.numBlocks
  insertPoint := h'.insertPoint.trans h.insertPoint
  block := h'.block.trans h.block
  pc := h'.pc.trans h.pc
  vpc := h'.vpc.trans h.vpc
  vjmp := h'.vjmp.trans h.vjmp
  path := h'.path.trans h.path
  cfg := h'.cfg.trans h.cfg
  vcfg := h'.vcfg.trans h.vcfg
  pathConstraints := h'.pathConstraints.trans h.pathConstraints
  unexploredPaths := h'.unexploredPaths.trans h.unexploredPaths
  opaqueSolving := h'.opaqueSolving.trans h.opaqueSolving
  function b hb := (h'.function b (h.insertPoint ▸ hb)).trans (h.function b hb)

end Cpu.Extends

theorem Cpu.exec_extends {i : Inst Name} (h : c.exec M i = .ok c') : c.Extends c' := by
  obtain ⟨s, _, rfl⟩ := Cpu.exec_eq h
  exact ⟨rfl, rfl, rfl, rfl, rfl, rfl, rfl, rfl, rfl, rfl, rfl, rfl, fun b hb =>
    Function.update_of_ne hb ..⟩

/-- The condition is the low bit of what was last stored to `BRANCH_TAKEN`. -/
theorem getCondition_eq {r : DualValue × Cpu} (h : getCondition M c = .ok r) :
    ∃ w name, lastStore .branchTaken (c.function c.block).insts = some (w, .ssa name) ∧
      c.exec M (.cast ⟨c.block, 0, (0, 1)⟩ .trunc w 1 (.ssa name)) = .ok r.2 ∧
      r.1.l = .ssa ⟨c.block, 0, (0, 1)⟩ ∧
      r.2.symex.get (.ssa ⟨c.block, 0, (0, 1)⟩) = .ok r.1.v := by
  rw [getCondition] at h
  split at h
  · next w name hlast =>
    simp only [Except.bind_eq_ok, Except.pure_eq_ok] at h
    obtain ⟨c', hexec, v, hv, rfl⟩ := h
    exact ⟨w, name, hlast, hexec, rfl, hv⟩
  · cases h
  · cases h

/-- The jump term is what was last stored to `NEXT_PC`. -/
theorem getNextPc_eq {next : DualValue} (h : getNextPc c = .ok next) :
    ∃ w, lastStore .nextPc (c.function c.block).insts = some (w, next.l) ∧
      c.symex.get next.l = .ok next.v := by
  rw [getNextPc] at h
  split at h
  · next w value hlast =>
    simp only [Except.bind_eq_ok, Except.pure_eq_ok] at h
    obtain ⟨v, hv, rfl⟩ := h
    exact ⟨w, hlast, hv⟩
  · cases h

theorem getCondition_extends {r : DualValue × Cpu} (h : getCondition M c = .ok r) :
    c.Extends r.2 := by
  obtain ⟨_, _, _, hexec, _⟩ := getCondition_eq h
  exact Cpu.exec_extends hexec

theorem materialize_extends {side : ℕ} : ∀ {wrappers : List (Inst Name)} {value : Operand Name}
    {c : Cpu} {r : Operand Name × Cpu}, materialize M side wrappers value c = .ok r → c.Extends r.2
  | [], value, c, r, h => by
    obtain rfl := Except.ok.inj h
    exact Cpu.Extends.refl c
  | wrapper :: wrappers, value, c, r, h => by
    simp only [materialize, Except.bind_eq_ok] at h
    obtain ⟨c', hexec, hrest⟩ := h
    exact (Cpu.exec_extends hexec).trans (materialize_extends hrest)

/-! ### Forks -/

/-- What the control flow part of `lift_instruction` does to the rest of the state: the maps of lifted
blocks stay, and at most one path is saved, with the map of the current one. -/
structure Cpu.Advances (M : Machine) (c c' : Cpu) : Prop where
  block : c'.block = c.block
  path : c'.path = c.path
  cfg : c'.cfg = c.cfg
  vcfg : c'.vcfg = c.vcfg
  vpc : M.Silent → c'.vpc = c.vpc
  unexploredPaths : c'.unexploredPaths = c.unexploredPaths ∨
    ∃ ss, c'.unexploredPaths = ss :: c.unexploredPaths ∧ ss.path = c.path ∧ ss.vpc = c.vpc

namespace Cpu.Advances

theorem refl (M : Machine) (c : Cpu) : c.Advances M c :=
  ⟨rfl, rfl, rfl, rfl, fun _ => rfl, .inl rfl⟩

/-- Instructions in front of the step. -/
theorem of_extends {c₁ c₂ c₃ : Cpu} (h : c₁.Extends c₂) (h' : c₂.Advances M c₃) :
    c₁.Advances M c₃ where
  block := h'.block.trans h.block
  path := h'.path.trans h.path
  cfg := h'.cfg.trans h.cfg
  vcfg := h'.vcfg.trans h.vcfg
  vpc hM := (h'.vpc hM).trans h.vpc
  unexploredPaths := by
    rcases h'.unexploredPaths with heq | ⟨ss, heq, hpath, hvpc⟩
    · exact .inl (heq.trans h.unexploredPaths)
    · exact .inr ⟨ss, by rw [heq, h.unexploredPaths], hpath.trans h.path, hvpc.trans h.vpc⟩

theorem eventHandler (h : c.Advances M c') (k : EventKind) : c.Advances M (c'.eventHandler M k) where
  block := h.block
  path := h.path
  cfg := h.cfg
  vcfg := h.vcfg
  vpc hM := by
    rw [Cpu.eventHandler, hM]
    exact h.vpc hM
  unexploredPaths := h.unexploredPaths

end Cpu.Advances

theorem forkPath_advances (condition : DualValue) (jumpPc fallthroughPc : Addr) (c : Cpu) :
    c.Advances M (forkPath M condition jumpPc fallthroughPc c) := by
  rw [forkPath]
  refine Cpu.Advances.eventHandler ?_ _
  exact ⟨rfl, rfl, rfl, rfl, fun _ => rfl, .inr ⟨_, rfl, rfl, rfl⟩⟩

/-- A branch is solved, and nothing is emitted, or it forks. -/
theorem branching_cases {condition : DualValue} {jumpPc fallthroughPc : Addr}
    (h : branching M condition jumpPc fallthroughPc c = .ok c') :
    (∃ v taken, c.opaqueSolving = true ∧ opaqueSolver M condition.v = .ok (some taken, v) ∧
      c' = Cpu.eventHandler M (if taken then .conditionalTaken else .conditionalFallthrough) { c with
        pc := if taken then jumpPc else fallthroughPc
        pathConstraints := c.pathConstraints ++ [if taken then v.asExprBool else v.not.term] }) ∨
    ∃ v, (v = condition.v ∨ opaqueSolver M condition.v = .ok (none, v)) ∧
      c' = forkPath M ⟨condition.l, v⟩ jumpPc fallthroughPc c := by
  rw [branching] at h
  split at h
  · next hsolving =>
    simp only [Except.bind_eq_ok] at h
    obtain ⟨⟨verdict, v⟩, hverdict, h⟩ := h
    cases verdict with
    | none => exact .inr ⟨v, .inr hverdict, (Except.ok.inj h).symm⟩
    | some taken =>
      refine .inl ⟨v, taken, hsolving, hverdict, ?_⟩
      cases taken with
      | true => exact (Except.ok.inj h).symm
      | false => exact (Except.ok.inj h).symm
  · exact .inr ⟨condition.v, .inl rfl, (Except.ok.inj h).symm⟩

theorem branching_advances {condition : DualValue} {jumpPc fallthroughPc : Addr}
    (h : branching M condition jumpPc fallthroughPc c = .ok c') : c.Advances M c' := by
  rcases branching_cases h with ⟨v, taken, _, _, rfl⟩ | ⟨v, _, rfl⟩
  · refine Cpu.Advances.eventHandler ?_ _
    exact ⟨rfl, rfl, rfl, rfl, fun _ => rfl, .inl rfl⟩
  · exact forkPath_advances _ _ _ _

/-! ### Conditional moves -/

theorem handleConditionalMoves_advances {inst : Instruction}
    (h : handleConditionalMoves M inst c = .ok c') : c.Advances M c' := by
  rw [handleConditionalMoves] at h
  split at h
  · cases h
  simp only [Except.bind_eq_ok] at h
  obtain ⟨cond, _, ⟨trueVal, c₁⟩, htrue, ⟨falseVal, c₂⟩, hfalse, ⟨verdict, v⟩, _, h⟩ := h
  have hmat : c.Extends c₂ := (materialize_extends htrue).trans (materialize_extends hfalse)
  refine Cpu.Advances.of_extends hmat ?_
  cases verdict with
  | some result =>
    obtain ⟨s, _, rfl⟩ := Cpu.exec_eq h
    exact ⟨rfl, rfl, rfl, rfl, fun _ => rfl, .inl rfl⟩
  | none =>
    simp only [forkMove, Except.bind_eq_ok, Except.pure_eq_ok] at h
    obtain ⟨c₃, h₃, c₄, h₄, rfl⟩ := h
    obtain ⟨s₃, _, rfl⟩ := Cpu.exec_eq h₃
    obtain ⟨s₄, _, rfl⟩ := Cpu.exec_eq h₄
    exact ⟨rfl, rfl, rfl, rfl, fun _ => rfl, .inr ⟨_, rfl, rfl, rfl⟩⟩

/-! ### Indirect jumps -/

/-- The state in which an indirect jump chooses its way, with its target rewritten. -/
def Cpu.rewriteTarget (M : Machine) (next : DualValue) (c : Cpu) : Cpu :=
  { c with symex := c.symex.setOperand next.l (next.v.simplify M.solver) }

/-- The values found for the rewritten target of an indirect jump. -/
def jumpTargets (M : Machine) (next : DualValue) (c : Cpu) : List Term :=
  (possibleValues M.solver c.pathConstraints (c.rewriteTarget M next).symex.context.checks
    (next.v.simplify M.solver).term).1

/-- The state after the enumeration of the targets. -/
def Cpu.enumerateTarget (M : Machine) (next : DualValue) (c : Cpu) : Cpu :=
  let c' := c.rewriteTarget M next
  { c' with symex.context.checks := (possibleValues M.solver c.pathConstraints
      c'.symex.context.checks (next.v.simplify M.solver).term).2.2 }

/-- The comparison with the first of two targets. -/
def compareTarget (next : DualValue) (jumpPc : Addr) (c : Cpu) : Inst Name :=
  .icmp ⟨c.block, 0, (0, 2)⟩ .eq 64 next.l (.const 64 jumpPc.toNat)

/-- An indirect jump, once the program counter it stores is known. -/
theorem indirectJump_of_next {next : DualValue} (h : getNextPc c = .ok next) :
    indirectJump M c =
      if (next.v.simplify M.solver).isConcrete then do
        let target ← (next.v.simplify M.solver).asUint64?
        return (.lifted c.block, Cpu.eventHandler M .indirectJump
          { (c.rewriteTarget M next).setTargets [target] with pc := target })
      else match jumpTargets M next c with
        | [addr] => do
          let target ← asUint64? addr
          return (.lifted c.block, { (c.enumerateTarget M next).setTargets [target] with pc := target })
        | [front, back] => do
          let jumpPc ← asUint64? front
          let fallthroughPc ← asUint64? back
          let c₁ ← ((c.enumerateTarget M next).setTargets [jumpPc, fallthroughPc]).exec M
            (compareTarget next jumpPc c)
          let cond ← c₁.symex.get (.ssa ⟨c.block, 0, (0, 2)⟩)
          return (.lifted c₁.block,
            ← branching M ⟨.ssa ⟨c.block, 0, (0, 2)⟩, cond⟩ jumpPc fallthroughPc c₁)
        | _ => return (.unresolved c.block, c.enumerateTarget M next) := by
  rw [indirectJump, h]
  rfl

/-- The ways an indirect jump is resolved: a constant, one value, two values, or not at all. -/
theorem indirectJump_cases {r : Outcome × Cpu} (h : indirectJump M c = .ok r) :
    ∃ next, getNextPc c = .ok next ∧
    ((∃ target, (next.v.simplify M.solver).isConcrete = true ∧
        (next.v.simplify M.solver).asUint64? = .ok target ∧
        r = (.lifted c.block, Cpu.eventHandler M .indirectJump
          { (c.rewriteTarget M next).setTargets [target] with pc := target })) ∨
      (¬ (next.v.simplify M.solver).isConcrete = true ∧
        ((∃ addr target, jumpTargets M next c = [addr] ∧ asUint64? addr = .ok target ∧
            r = (.lifted c.block,
              { (c.enumerateTarget M next).setTargets [target] with pc := target })) ∨
          (∃ front back jumpPc fallthroughPc c₁ cond c₂, jumpTargets M next c = [front, back] ∧
            asUint64? front = .ok jumpPc ∧ asUint64? back = .ok fallthroughPc ∧
            ((c.enumerateTarget M next).setTargets [jumpPc, fallthroughPc]).exec M
              (compareTarget next jumpPc c) = .ok c₁ ∧
            c₁.symex.get (.ssa ⟨c.block, 0, (0, 2)⟩) = .ok cond ∧
            branching M ⟨.ssa ⟨c.block, 0, (0, 2)⟩, cond⟩ jumpPc fallthroughPc c₁ = .ok c₂ ∧
            r = (.lifted c.block, c₂)) ∨
          ((jumpTargets M next c).length ≠ 1 ∧ (jumpTargets M next c).length ≠ 2 ∧
            r = (.unresolved c.block, c.enumerateTarget M next))))) := by
  simp only [indirectJump, Except.bind_eq_ok] at h
  obtain ⟨next, hnext, h⟩ := h
  refine ⟨next, hnext, ?_⟩
  split at h
  · next hconcrete =>
    simp only [Except.bind_eq_ok, Except.pure_eq_ok] at h
    obtain ⟨target, htarget, rfl⟩ := h
    exact .inl ⟨target, hconcrete, htarget, rfl⟩
  · next hconcrete =>
    refine .inr ⟨hconcrete, ?_⟩
    split at h
    · next addr hfound =>
      simp only [Except.bind_eq_ok, Except.pure_eq_ok] at h
      obtain ⟨target, htarget, rfl⟩ := h
      exact .inl ⟨addr, target, hfound, htarget, rfl⟩
    · next front back hfound =>
      simp only [Except.bind_eq_ok, Except.pure_eq_ok] at h
      obtain ⟨jumpPc, hjump, fallthroughPc, hfall, c₁, hexec, cond, hcond, c₂, hbranch, rfl⟩ := h
      have hblock : c₁.block = c.block := (Cpu.exec_extends hexec).block
      refine .inr (.inl ⟨front, back, jumpPc, fallthroughPc, c₁, cond, c₂, hfound, hjump, hfall,
        hexec, hcond, hbranch, ?_⟩)
      rw [hblock]
    · next hone htwo =>
      obtain rfl := Except.ok.inj h
      refine .inr (.inr ⟨fun hlen => ?_, fun hlen => ?_, rfl⟩)
      · obtain ⟨addr, haddr⟩ := List.length_eq_one_iff.mp hlen
        exact hone addr haddr
      · obtain ⟨front, back, hboth⟩ := List.length_eq_two.mp hlen
        exact htwo front back hboth

theorem indirectJump_advances {r : Outcome × Cpu} (h : indirectJump M c = .ok r) :
    c.Advances M r.2 := by
  obtain ⟨next, _, ⟨target, _, _, rfl⟩ | ⟨_, hcases⟩⟩ := indirectJump_cases h
  · refine Cpu.Advances.eventHandler ?_ _
    exact ⟨rfl, rfl, rfl, rfl, fun _ => rfl, .inl rfl⟩
  rcases hcases with ⟨addr, target, _, _, rfl⟩ |
    ⟨front, back, jumpPc, fallthroughPc, c₁, cond, c₂, _, _, _, hexec, _, hbranch, rfl⟩ |
    ⟨_, _, rfl⟩
  · exact ⟨rfl, rfl, rfl, rfl, fun _ => rfl, .inl rfl⟩
  · obtain ⟨s, _, rfl⟩ := Cpu.exec_eq hexec
    have hadv := branching_advances hbranch
    exact ⟨hadv.block, hadv.path, hadv.cfg, hadv.vcfg, hadv.vpc, hadv.unexploredPaths⟩
  · exact ⟨rfl, rfl, rfl, rfl, fun _ => rfl, .inl rfl⟩

/-! ### One call of `process_instruction` -/

/-- The block an instruction was successfully lifted into. -/
def Outcome.liftedBlock : Outcome → Option BlockId
  | lifted block | unresolved block => some block
  | functionEnded | edgeRebuilt _ | decodeFailed | liftFailed _ => none

/-- The ways through the control flow part, one for each category of instruction and one for a
conditional move that forks. -/
theorem controlFlow_cases {inst : Instruction} {r : Outcome × Cpu} (h : controlFlow M inst c = .ok r) :
    (inst.category = .conditionalBranch ∧ ∃ cond c₁, getCondition M c = .ok cond ∧
      branching M cond.1 inst.branchTakenPc inst.branchNotTakenPc cond.2 = .ok c₁ ∧
      r = (.lifted c.block, c₁)) ∨
    (inst.category = .directJump ∧
      r = (.lifted c.block, { c with pc := inst.branchTakenPc }.eventHandler M .directJump)) ∨
    (inst.category = .indirectJump ∧ indirectJump M c = .ok r) ∨
    (inst.category = .normal ∧ (inst.function.startsWith "CMOV" ∧ M.forkAtCmovs) ∧
      ∃ c₁, handleConditionalMoves M inst c = .ok c₁ ∧
        r = (.lifted c₁.block, { c₁ with pc := inst.nextPc })) ∨
    (inst.category = .normal ∧ ¬ (inst.function.startsWith "CMOV" ∧ M.forkAtCmovs) ∧
      r = (.lifted c.block, { c with pc := inst.nextPc })) := by
  rw [controlFlow] at h
  cases hcategory : inst.category with
  | conditionalBranch =>
    rw [if_pos (by simp [Instruction.isControlFlow, hcategory]),
      if_pos (by simp [Instruction.isConditionalBranch, hcategory])] at h
    simp only [Except.bind_eq_ok, Except.pure_eq_ok] at h
    obtain ⟨cond, hcond, c₁, hbranch, rfl⟩ := h
    exact .inl ⟨rfl, cond, c₁, hcond, hbranch, rfl⟩
  | directJump =>
    rw [if_pos (by simp [Instruction.isControlFlow, hcategory]),
      if_neg (by simp [Instruction.isConditionalBranch, hcategory]),
      if_pos (by simp [Instruction.isDirectControlFlow, hcategory])] at h
    exact .inr (.inl ⟨rfl, (Except.ok.inj h).symm⟩)
  | indirectJump =>
    rw [if_pos (by simp [Instruction.isControlFlow, hcategory]),
      if_neg (by simp [Instruction.isConditionalBranch, hcategory]),
      if_neg (by simp [Instruction.isDirectControlFlow, hcategory])] at h
    exact .inr (.inr (.inl ⟨rfl, h⟩))
  | normal =>
    rw [if_neg (by simp [Instruction.isControlFlow, hcategory])] at h
    split at h
    · next hforks =>
      simp only [Except.bind_eq_ok, Except.pure_eq_ok] at h
      obtain ⟨c₁, hmove, rfl⟩ := h
      exact .inr (.inr (.inr (.inl ⟨rfl, hforks, c₁, hmove, rfl⟩)))
    · next hforks => exact .inr (.inr (.inr (.inr ⟨rfl, hforks, (Except.ok.inj h).symm⟩)))

theorem controlFlow_advances {inst : Instruction} {r : Outcome × Cpu}
    (h : controlFlow M inst c = .ok r) : r.1.liftedBlock = some c.block ∧ c.Advances M r.2 := by
  have hjump : ∀ {c₁ : Cpu} (pc : Addr), c.Advances M c₁ → c.Advances M { c₁ with pc := pc } :=
    fun _ h => ⟨h.block, h.path, h.cfg, h.vcfg, h.vpc, h.unexploredPaths⟩
  rcases controlFlow_cases h with ⟨_, ⟨cond, c₁⟩, c₂, hcond, hbranch, rfl⟩ | ⟨_, rfl⟩ | ⟨_, hjumps⟩ |
    ⟨_, _, c₁, hmove, rfl⟩ | ⟨_, _, rfl⟩
  · exact ⟨rfl, Cpu.Advances.of_extends (getCondition_extends hcond) (branching_advances hbranch)⟩
  · exact ⟨rfl, (hjump _ (Cpu.Advances.refl M c)).eventHandler _⟩
  · have hadv := indirectJump_advances hjumps
    obtain ⟨next, _, ⟨target, _, _, rfl⟩ | ⟨_, ⟨_, _, _, _, rfl⟩ |
      ⟨_, _, _, _, _, _, _, _, _, _, _, _, _, rfl⟩ | ⟨_, _, rfl⟩⟩⟩ := indirectJump_cases hjumps <;>
      exact ⟨rfl, hadv⟩
  · have hadv := handleConditionalMoves_advances hmove
    exact ⟨congrArg some hadv.block, hjump _ hadv⟩
  · exact ⟨rfl, hjump _ (Cpu.Advances.refl M c)⟩

/-- `c'` is `c` in a new block made for its program counter. -/
structure Cpu.Enters (M : Machine) (c c' : Cpu) : Prop where
  block : c'.block = c.numBlocks
  pc : c'.pc = c.pc
  vpc : M.Silent → c'.vpc = c.vpc
  path : c'.path = c.path
  cfg : c'.cfg = c.cfg
  vcfg : c'.vcfg = c.vcfg
  unexploredPaths : c'.unexploredPaths = c.unexploredPaths

/-- The steps of `lift_instruction`: the block is opened, filled and emulated, and then left. -/
theorem liftInstruction_eq {inst : Instruction} {r : Outcome × Cpu}
    (h : liftInstruction M inst c = .ok r) :
    ∃ c₁, ((openBlock c).eventHandler M .instructionLift).exec M
        (.store 64 (.const 64 ((openBlock c).eventHandler M .instructionLift).pc.toNat) .nextPc) = .ok c₁ ∧
      ((M.liftIntoBlock inst = none ∧
          r = (.liftFailed c₁.block, { c₁.create .unreachable with pc := -1 })) ∨
        ∃ semantics c₂, M.liftIntoBlock inst = some semantics ∧ runLifted M semantics c₁ = .ok c₂ ∧
          controlFlow M inst (saveBlock M c₂) = .ok r) := by
  simp only [liftInstruction, Except.bind_eq_ok] at h
  obtain ⟨c₁, hexec, h⟩ := h
  refine ⟨c₁, hexec, ?_⟩
  split at h
  · next hnone => exact .inl ⟨hnone, (Except.ok.inj h).symm⟩
  · next semantics hsome =>
    simp only [Except.bind_eq_ok] at h
    obtain ⟨c₂, hrun, h⟩ := h
    exact .inr ⟨semantics, c₂, hsome, hrun, h⟩

theorem openBlock_enters (h : ((openBlock c).eventHandler M .instructionLift).exec M
    (.store 64 (.const 64 ((openBlock c).eventHandler M .instructionLift).pc.toNat) .nextPc) = .ok c') :
    c.Enters M c' := by
  have hext := Cpu.exec_extends h
  refine ⟨hext.block, hext.pc, fun hM => hext.vpc.trans ?_, hext.path, hext.cfg, hext.vcfg,
    hext.unexploredPaths⟩
  rw [Cpu.eventHandler, hM]
  rfl

theorem Cpu.Enters.runLifted {c₁ c₂ : Cpu} {semantics : Semantics} (h : c.Enters M c₁)
    (hrun : runLifted M semantics c₁ = .ok c₂) : c.Enters M c₂ := by
  simp only [Vexa.runLifted, Except.bind_eq_ok, Except.pure_eq_ok] at hrun
  obtain ⟨r, _, rfl⟩ := hrun
  exact ⟨h.block, h.pc, h.vpc, h.path, h.cfg, h.vcfg, h.unexploredPaths⟩

/-- An instruction is lifted, or remill cannot lift it. -/
theorem liftInstruction_cases {inst : Instruction} {outcome : Outcome}
    (h : liftInstruction M inst c = .ok (outcome, c')) :
    ∃ c₁, c.Enters M c₁ ∧
      ((outcome = .liftFailed c.numBlocks ∧ c' = { c₁.create .unreachable with pc := -1 }) ∨
        (outcome.liftedBlock = some c.numBlocks ∧ (saveBlock M c₁).Advances M c')) := by
  obtain ⟨c₁, hexec, hrest⟩ := liftInstruction_eq h
  have henter := openBlock_enters hexec
  rcases hrest with ⟨_, heq⟩ | ⟨semantics, c₂, _, hrun, hflow⟩
  · obtain ⟨rfl, rfl⟩ := Prod.mk.inj heq
    exact ⟨c₁, henter, .inl ⟨congrArg _ henter.block, rfl⟩⟩
  · have henter₂ := henter.runLifted hrun
    obtain ⟨hblock, hadv⟩ := controlFlow_advances hflow
    refine ⟨c₂, henter₂, .inr ⟨hblock.trans ?_, hadv⟩⟩
    rw [← henter₂.block, saveBlock]
    split
    all_goals first | rfl | (split <;> rfl)

/-- How a call of `process_instruction` returns. -/
theorem processInstruction_cases {outcome : Outcome}
    (h : processInstruction M c = .ok (outcome, c')) :
    (outcome = .functionEnded ∧ c.pc = 0 ∧ c' = c) ∨
    (c.pc ≠ 0 ∧ ∃ target, outcome = .edgeRebuilt target ∧ cfgRecovery M c = (some target, c')) ∨
    (c.pc ≠ 0 ∧ ∃ c₁, cfgRecovery M c = (none, c₁) ∧
      ((outcome = .decodeFailed ∧ c' = c₁) ∨
        ∃ inst, M.decodeInstruction c₁.pc (fetch (c₁.symex.context.memory globalPage) c₁.pc 15)
            = some inst ∧ liftInstruction M inst c₁ = .ok (outcome, c'))) := by
  rw [processInstruction] at h
  split at h
  · next hpc =>
    obtain ⟨rfl, rfl⟩ := Prod.mk.inj (Except.ok.inj h)
    exact .inl ⟨rfl, hpc, rfl⟩
  · next hpc =>
    right
    split at h
    · next target c₁ hrec =>
      obtain ⟨rfl, rfl⟩ := Prod.mk.inj (Except.ok.inj h)
      exact .inl ⟨hpc, target, rfl, hrec⟩
    · next c₁ hrec =>
      refine .inr ⟨hpc, c₁, hrec, ?_⟩
      split at h
      · obtain ⟨rfl, rfl⟩ := Prod.mk.inj (Except.ok.inj h)
        exact .inl ⟨rfl, rfl⟩
      · next inst hinst => exact .inr ⟨inst, hinst, h⟩

end Vexa
