import Vexa.BlockExecution
import Vexa.MemoryInvariant
import Vexa.PathConstraints

/-!
# One instruction along a path

Under a valuation that satisfies the constraints of a path, the symbolic state denotes the state in
which the code of the current block ends, and that is where the program is. Lifting the next
instruction goes on where the program goes on: at the one address the jump may go to, at the side of a
solved branch, or at both sides of a fork, whose constraints tell apart the inputs.

## Main definitions

* `Emulated` — the symbolic state denotes the state in which the code of the current block ends
* `Leaf`, `Carries` — a path stands where the program does, and what a step does to this

## Main results

* `Emulated.branching`, `Emulated.indirectJump` — where a jump goes
* `Cpu.Emulates.denotes` — the block of an instruction does what the instruction does
* `Follows.liftInstruction` — one instruction
-/

namespace Vexa

variable {M : Machine} {program : Program} {s₀ : IrState Name} {p₀ : Addr × Bytes} {ν : Valuation}
  {σ m : Bytes} {c c' c₀ c₁ c₂ : Cpu} {types : Types Name} {t : IrState Name} {target : Addr}

/-! ### Solving the registers -/

theorem solveRegister_denotes (hS : M.solver.Sound) (hσ : Unwritten ν σ) {A : List Term}
    (hν : Satisfies ν A) {reg : Register} (hreg : reg.size < 256) {ctx : Context}
    (h : ctx.Denotes ν σ m) : (Cpu.solveRegister M A ctx reg).Denotes ν σ m := by
  rw [Cpu.solveRegister]
  split
  · exact h
  · next hsize =>
    have hpos : 0 < reg.size := by
      have hle : ¬ reg.size < 8 := fun hlt => hsize (.inr hlt)
      omega
    have hbase := Pointer.asUint64_simplify_concrete M.solver reg.offset statePage
    obtain ⟨hden, hsort, heval⟩ := h.read (hσ.unwrittenFrom _) hbase hpos
    rw [Nat.mul_comm] at hden hsort heval
    set read := Cpu.readRegister M reg ctx
    obtain ⟨hsort', heval'⟩ := Value.simplifyUnder_sound hS A read.2.checks read.1
    set value := read.1.simplifyUnder M.solver A read.2.checks
    simp only
    split
    · -- the register is written with the value it has
      have hwidth : (value.1.simplify M.solver).size = 8 * reg.size := by
        rw [Value.size, Term.bits, Value.sort_simplify hS, hsort']
        exact (congrArg TermSort.bits hsort).trans (Nat.mul_comm ..)
      have hstore := (hden.checks value.2).write hS hbase hwidth hreg
      have hload : (value.1.simplify M.solver).eval ν = m.load (statePage, reg.offset) reg.size := by
        rw [Value.eval_simplify hS, heval' ν hν]
        exact heval
      rw [hload] at hstore
      refine ⟨hstore.mem.trans ?_, hstore.wf⟩
      exact Bytes.store_load_self m statePage reg.offset (Nat.le_refl _)
    · exact hden.checks _

theorem solveRegisters_denotes (hS : M.solver.Sound) (hσ : Unwritten ν σ) {A : List Term}
    (hν : Satisfies ν A) : ∀ (regs : List Register) {ctx : Context}, (∀ r ∈ regs, r.size < 256) →
      ctx.Denotes ν σ m → (regs.foldl (Cpu.solveRegister M A) ctx).Denotes ν σ m
  | [], _, _, h => h
  | r :: regs, _, hregs, h => by
    obtain ⟨hr, hregs⟩ := List.forall_mem_cons.mp hregs
    rw [List.foldl_cons]
    exact solveRegisters_denotes hS hσ hν regs hregs (solveRegister_denotes hS hσ hν hr h)

/-! ### The current block -/

section

variable (M program s₀ p₀ ν σ)

/-- The code of the current block ends in `t`, which the symbolic state denotes, when the program is at
`target`. -/
structure Emulated (types : Types Name) (t : IrState Name) (target : Addr) (c : Cpu) : Prop where
  building : c.Building
  straight : Straight (c.function c.insertPoint).insts
  fresh : c.Fresh
  symex : c.symex.Denotes ν σ types t
  reaches : Reaches M program s₀ p₀ c.function c.insertPoint t (target, t.mem)

/-- A path of the lifter stands where the program does, for a valuation that satisfies its
constraints. -/
def Leaf (f : Function) (A : List Term) (b : BlockId) (pc : Addr) (memory : Memory) : Prop :=
  Satisfies ν A → Follows M program s₀ p₀ f b (pc, memory.denote ν σ)

/-- The path that goes on from `c` and the one that was saved stand where the program does. -/
structure Carries (c c' : Cpu) : Prop where
  current : Leaf M program s₀ p₀ ν σ c'.function c'.pathConstraints c'.insertPoint c'.pc
    c'.symex.context.memory
  saved : ∀ ss, c'.unexploredPaths = ss :: c.unexploredPaths →
    Leaf M program s₀ p₀ ν σ c'.function ss.pathConstraints ss.bb ss.pc ss.memory

end

namespace Emulated

/-- More code in the block, with the state it leaves. -/
theorem append (h : Emulated M program s₀ p₀ ν σ types t target c) (hgoes : c.GoesOn c')
    {tail : List (Inst Name)} {types' : Types Name}
    (hinsts : (c'.function c.insertPoint).insts = (c.function c.insertPoint).insts ++ tail)
    (hpc : (c'.function c.insertPoint).pc = (c.function c.insertPoint).pc)
    (hmem : (execAll tail t).mem = t.mem) (hsymex : c'.symex.Denotes ν σ types' (execAll tail t)) :
    Emulated M program s₀ p₀ ν σ types' (execAll tail t) target c' where
  building := hgoes.building h.building
  straight := by
    obtain ⟨tail', htail, hinsts'⟩ := hgoes.insts
    rw [hgoes.insertPoint, hinsts']
    exact straight_append.mpr ⟨h.straight, htail⟩
  fresh := hgoes.fresh h.building.lt h.fresh
  symex := hsymex
  reaches := by
    rw [hgoes.insertPoint, hmem]
    exact h.reaches.append (hgoes.extends h.straight) hpc hinsts

/-- An instruction the builder makes. -/
theorem exec (hS : M.solver.Sound) (hσ : Unwritten ν σ)
    (h : Emulated M program s₀ p₀ ν σ types t target c) {i : Inst Name} (hi : i.OperandsTyped types)
    (haddress : i.address = none) (hmem : (i.exec t).mem = t.mem) (hexec : c.exec M i = .ok c') :
    Emulated M program s₀ p₀ ν σ (i.extend types) (i.exec t) target c' := by
  have hgoes := Cpu.exec_goesOn hexec hi.not_terminator
  obtain ⟨s, hs, rfl⟩ := Cpu.exec_eq hexec
  have hself := c.function_create_self i
  exact h.append hgoes (congrArg BasicBlock.insts hself :) (congrArg BasicBlock.pc hself :) hmem
    (visit_sound hS hσ h.symex hi haddress hs)

/-- The function is the same, and the new symbolic state denotes the same. -/
theorem of_eq (h : Emulated M program s₀ p₀ ν σ types t target c) (c' : Cpu)
    (hfunction : c'.function = c.function) (hblock : c'.block = c.block)
    (hinsert : c'.insertPoint = c.insertPoint) (hnum : c'.numBlocks = c.numBlocks)
    (hsymex : c'.symex.Denotes ν σ types t) : Emulated M program s₀ p₀ ν σ types t target c' where
  building := ⟨by rw [hblock, hinsert, h.building.block], by rw [hinsert, hnum]; exact h.building.lt⟩
  straight := by rw [hfunction, hinsert]; exact h.straight
  fresh := by rw [Cpu.Fresh, hfunction, hnum]; exact h.fresh
  symex := hsymex
  reaches := by rw [hfunction, hinsert]; exact h.reaches

theorem setTargets (h : Emulated M program s₀ p₀ ν σ types t target c) (targets : List Addr) :
    Emulated M program s₀ p₀ ν σ types t target (c.setTargets targets) := by
  have hself := c.function_setTargets_self targets
  rw [h.building.block] at hself
  have hinsts : ((c.setTargets targets).function c.insertPoint).insts
      = (c.function c.insertPoint).insts ++ [] := by
    rw [List.append_nil, hself]
  exact h.append (c.setTargets_goesOn h.building targets) hinsts (congrArg BasicBlock.pc hself :) rfl
    h.symex

/-- The path goes on in the block, and no path is saved. -/
theorem carries (h : Emulated M program s₀ p₀ ν σ types t target c)
    (hfunction : c'.function = c.function) (hinsert : c'.insertPoint = c.insertPoint)
    (hsymex : c'.symex.Denotes ν σ types t) (hpc : c'.pc = target)
    (hpaths : c'.unexploredPaths = c₁.unexploredPaths) : Carries M program s₀ p₀ ν σ c₁ c' where
  current _ := by
    refine ⟨t, ?_, hsymex.context.mem.symm⟩
    rw [hsymex.context.mem, hfunction, hinsert, hpc]
    exact h.reaches
  saved ss hss := absurd (hpaths.symm.trans hss) (List.cons_ne_self ss _).symm

end Emulated

/-! ### Branches -/

/-- A solved condition is one for every valuation, or zero. -/
theorem taken_iff_of_opaqueSolver (hS : M.solver.Sound) {condition v : Value} {taken : Bool}
    (hsort : condition.term.sort = .bv 1) (h : opaqueSolver M condition = .ok (some taken, v))
    (ν : Valuation) : taken = true ↔ condition.eval ν = 1 := by
  have hsort' : (condition.simplify M.solver).term.sort = .bv 1 :=
    (Value.sort_simplify hS condition).trans hsort
  rw [opaqueSolver] at h
  split at h
  · next hconcrete =>
    simp only [Except.bind_eq_ok, Except.pure_eq_ok] at h
    obtain ⟨n, hn, heq⟩ := h
    obtain rfl := Option.some.inj (Prod.mk.inj heq).1
    rw [decide_eq_true_iff, ← Value.holds_of_isConcrete hsort' hconcrete hn ν,
      Value.holds_of_sort hsort', Value.eval_simplify hS]
  · cases h

/-- The condition of a fork is the one of the branch, perhaps rewritten. -/
theorem opaqueSolver_rewritten (hS : M.solver.Sound) {condition v : Value} {verdict : Option Bool}
    (h : v = condition ∨ opaqueSolver M condition = .ok (verdict, v)) :
    v.term.sort = condition.term.sort ∧ v.eval ν = condition.eval ν := by
  rcases h with rfl | h
  · exact ⟨rfl, rfl⟩
  have hv : v = condition.simplify M.solver := by
    rw [opaqueSolver] at h
    split at h
    · simp only [Except.bind_eq_ok, Except.pure_eq_ok] at h
      obtain ⟨_, _, heq⟩ := h
      exact (Prod.mk.inj heq).2.symm
    · exact (Prod.mk.inj (Except.ok.inj h)).2.symm
  rw [hv]
  exact ⟨Value.sort_simplify hS condition, Value.eval_simplify hS ν condition⟩

/-- **A fork** goes on at both sides: an input that satisfies the constraints of one is led there. -/
theorem Emulated.forkPath (hS : M.solver.Sound) (hM : M.RegistersFit) (hσ : Unwritten ν σ)
    (h : Emulated M program s₀ p₀ ν σ types t target c) {condition : DualValue} {dst : Name}
    (hl : condition.l = .ssa dst) (hsort : condition.v.term.sort = .bv 1)
    (heval : condition.v.eval ν = t.env dst) {jumpPc fallthroughPc : Addr}
    (htarget : target = if t.env dst = 1 then jumpPc else fallthroughPc) :
    Carries M program s₀ p₀ ν σ c (Vexa.forkPath M condition jumpPc fallthroughPc c) := by
  have hc := h.building
  have hforks := forkPath_forks (M := M) condition jumpPc fallthroughPc hc
  have hself := forkPath_function_self (M := M) condition jumpPc fallthroughPc hc
  have hnew : ∀ {b}, b ≠ c.insertPoint → b = c.numBlocks + 1 ∨ b = c.numBlocks →
      (Vexa.forkPath M condition jumpPc fallthroughPc c).function b = ⟨none, [], [], []⟩ :=
    fun hb hor => (forkPath_function_of_ne _ _ _ hc hb).trans (if_pos hor)
  have hholds : condition.v.holds ν ↔ t.env dst = 1 := by
    rw [Value.holds_of_sort hsort, heval]
  -- the registers are solved under the new constraints, and denote the same
  have hsolve : ∀ {A : List Term} {ctx : Context}, Satisfies ν A →
      ctx.memory = c.symex.context.memory →
      (M.registers.foldl (Cpu.solveRegister M A) ctx).memory.denote ν σ = t.mem := by
    intro A ctx hA hmem
    have hctx : ctx.Denotes ν σ t.mem := ⟨hmem ▸ h.symex.context.mem, hmem ▸ h.symex.context.wf⟩
    exact (solveRegisters_denotes hS hσ hA M.registers hM hctx).mem
  have hleave : ∀ {b pc memory}, b ≠ c.insertPoint → b = c.numBlocks + 1 ∨ b = c.numBlocks →
      (if t.env dst = 1 then c.numBlocks else c.numBlocks + 1) = b → target = pc →
      Memory.denote ν σ memory = t.mem →
      Follows M program s₀ p₀ (Vexa.forkPath M condition jumpPc fallthroughPc c).function b
        (pc, memory.denote ν σ) := by
    intro b pc memory hb hor hgoto hpc hmem
    refine ⟨t, ?_, hmem.symm⟩
    rw [hmem, ← hpc]
    refine h.reaches.leave_nil (hforks.extends h.fresh h.straight) h.straight
      (congrArg BasicBlock.pc hself :) (congrArg BasicBlock.insts hself) ?_ (hnew hb hor)
    rw [hl, ← hgoto]
    rfl
  constructor
  · intro hν
    have hone := hholds.mp ((satisfies_singleton _ _).mp ((satisfies_append _ _ _).mp hν).2)
    rw [if_pos hone] at htarget hleave
    exact hleave hc.ne.symm (.inr rfl) rfl htarget (hsolve hν rfl)
  · intro ss hss hν
    obtain rfl := (List.cons.inj hss).1
    have hnot := (satisfies_singleton _ _).mp ((satisfies_append _ _ _).mp hν).2
    have hone : ¬ t.env dst = 1 := fun hone => (Value.eval_not ν _).mp hnot (hholds.mpr hone)
    rw [if_neg hone] at htarget hleave
    exact hleave hc.ne_succ.symm (.inl rfl) rfl htarget (hsolve hν rfl)

/-- **A branch** is solved the way the program goes, or forks. -/
theorem Emulated.branching (hS : M.solver.Sound) (hM : M.RegistersFit) (hσ : Unwritten ν σ)
    (h : Emulated M program s₀ p₀ ν σ types t target c) {condition : DualValue} {dst : Name}
    (hl : condition.l = .ssa dst) (hsort : condition.v.term.sort = .bv 1)
    (heval : condition.v.eval ν = t.env dst) {jumpPc fallthroughPc : Addr}
    (htarget : target = if t.env dst = 1 then jumpPc else fallthroughPc)
    (hbranch : branching M condition jumpPc fallthroughPc c = .ok c') :
    Carries M program s₀ p₀ ν σ c c' := by
  rcases branching_cases hbranch with ⟨v, taken, _, hsolving, rfl⟩ | ⟨v, hv, rfl⟩
  · have htaken := taken_iff_of_opaqueSolver hS hsort hsolving ν
    rw [heval] at htaken
    refine h.carries rfl rfl h.symex ?_ rfl
    rw [htarget]
    show (if taken = true then jumpPc else fallthroughPc) = _
    simp only [htaken]
  · obtain ⟨hsort', heval'⟩ := opaqueSolver_rewritten (ν := ν) hS hv
    have hl' : (⟨condition.l, v⟩ : DualValue).l = .ssa dst := hl
    exact h.forkPath hS hM hσ hl' (hsort'.trans hsort) (heval'.trans heval) htarget

/-- What is last stored to the two variables is what they hold. -/
def HoldsVariables (types : Types Name) (t : IrState Name) (insts : List (Inst Name)) : Prop :=
  ∀ ptr stored, ptr.Variable → lastStore ptr insts = some stored → HoldsStored ptr stored types t

/-- The low bit of the value last stored to `BRANCH_TAKEN` is that of the variable. -/
theorem HoldsVariables.branchTaken {insts : List (Inst Name)} (h : HoldsVariables types t insts) {w : ℕ}
    {name : Name} (hlast : lastStore .branchTaken insts = some (w, .ssa name)) :
    w = 8 ∧ types name = some 8 ∧ t.env name % 2 = t.mem.load (branchTakenPage, 0) 1 % 2 := by
  obtain ⟨hstorable, hwidth, hload⟩ := h .branchTaken (w, .ssa name) trivial hlast
  obtain rfl : w = 8 := hstorable
  have hbyte : t.mem.load (branchTakenPage, 0) (8 / 8) = t.env name % 256 ^ (8 / 8) := hload
  rw [Nat.div_self (by decide)] at hbyte
  refine ⟨rfl, hwidth, ?_⟩
  rw [hbyte]
  omega

/-- The value last stored to `NEXT_PC` is that of the variable. -/
theorem HoldsVariables.nextPc {insts : List (Inst Name)} (h : HoldsVariables types t insts) {w : ℕ}
    {value : Operand Name} (hlast : lastStore .nextPc insts = some (w, value)) :
    w = 64 ∧ value.width types = some 64 ∧
      BitVec.ofNat 64 (t.mem.load (nextPcPage, 0) 8) = BitVec.ofNat 64 (value.eval t.env) := by
  obtain ⟨hstorable, hwidth, hload⟩ := h .nextPc (w, value) trivial hlast
  obtain rfl : w = 64 := hstorable
  have hbytes : t.mem.load (nextPcPage, 0) (64 / 8) = value.eval t.env % 256 ^ (64 / 8) := hload
  refine ⟨rfl, hwidth, ?_⟩
  rw [show 8 = 64 / 8 from rfl, hbytes]
  apply BitVec.eq_of_toNat_eq
  rw [BitVec.toNat_ofNat, BitVec.toNat_ofNat]
  omega

/-- **A conditional branch.** -/
theorem Emulated.conditionalBranch (hS : M.solver.Sound) (hM : M.RegistersFit) (hσ : Unwritten ν σ)
    (h : Emulated M program s₀ p₀ ν σ types t target c)
    (hholds : HoldsVariables types t (c.function c.block).insts) {jumpPc fallthroughPc : Addr}
    (htarget : target
      = if t.mem.load (branchTakenPage, 0) 1 % 2 = 1 then jumpPc else fallthroughPc)
    {cond : DualValue × Cpu} (hcond : getCondition M c = .ok cond)
    (hbranch : Vexa.branching M cond.1 jumpPc fallthroughPc cond.2 = .ok c') :
    Carries M program s₀ p₀ ν σ c c' := by
  obtain ⟨w, name, hlast, hexec, hl, hget⟩ := getCondition_eq hcond
  obtain ⟨rfl, hwidth, hlow⟩ := hholds.branchTaken hlast
  set dst : Name := ⟨c.block, 0, (0, 1)⟩
  have hexecuted := h.exec hS hσ (i := .cast dst .trunc 8 1 (.ssa name)) ⟨by decide, hwidth⟩ rfl rfl
    hexec
  set t' : IrState Name := Inst.exec (.cast dst .trunc 8 1 (.ssa name)) t
  have hself : t'.env dst = t.env name % 2 ^ 1 := Function.update_self ..
  have hbit : t'.env dst = t.mem.load (branchTakenPage, 0) 1 % 2 := hself.trans hlow
  have hwidth' : (Operand.ssa dst).width (Inst.extend types (.cast dst .trunc 8 1 (.ssa name))) = some 1 :=
    Function.update_self ..
  obtain ⟨hsort, heval⟩ := hexecuted.symex.operand hwidth' hget
  have hcarries := hexecuted.branching hS hM hσ hl hsort heval (by rw [htarget, hbit]) hbranch
  have hpaths : cond.2.unexploredPaths = c.unexploredPaths := (Cpu.exec_extends hexec).unexploredPaths
  exact ⟨hcarries.current, fun ss hss => hcarries.saved ss (hpaths.symm ▸ hss)⟩

/-- **An indirect jump** goes on where the program does: its target is the constant, or one of the
values found. -/
theorem Emulated.indirectJump (hS : M.solver.Sound) (hA : M.solver.Answers) (hM : M.RegistersFit)
    (hσ : Unwritten ν σ) (hν : Satisfies ν c.pathConstraints)
    (h : Emulated M program s₀ p₀ ν σ types t target c)
    (hholds : HoldsVariables types t (c.function c.block).insts)
    (htarget : target = BitVec.ofNat 64 (t.mem.load (nextPcPage, 0) 8)) {r : Outcome × Cpu}
    (hjump : Vexa.indirectJump M c = .ok r) (hstatus : r.1.status = .successful) :
    Carries M program s₀ p₀ ν σ c r.2 := by
  obtain ⟨next, hnext, hcases⟩ := indirectJump_cases hjump
  obtain ⟨w, hlast, hget⟩ := getNextPc_eq hnext
  obtain ⟨rfl, hwidth, hnextPc⟩ := hholds.nextPc hlast
  obtain ⟨hsort, heval⟩ := h.symex.operand hwidth hget
  have hsort' : (next.v.simplify M.solver).term.sort = .bv 64 :=
    (Value.sort_simplify hS next.v).trans hsort
  have heval' : (next.v.simplify M.solver).eval ν = next.l.eval t.env :=
    (Value.eval_simplify hS ν next.v).trans heval
  -- the target is the value of the jump term
  obtain rfl : target = BitVec.ofNat 64 (next.l.eval t.env) := htarget.trans hnextPc
  have hsymex : (c.rewriteTarget M next).symex.Denotes ν σ types t :=
    h.symex.setOperand hwidth hsort' heval'
  have hsymex' : (c.enumerateTarget M next).symex.Denotes ν σ types t := hsymex.withChecks _
  have hrewritten := h.of_eq (c.rewriteTarget M next) rfl rfl rfl rfl hsymex
  have henumerated := h.of_eq (c.enumerateTarget M next) rfl rfl rfl rfl hsymex'
  rcases hcases with ⟨target, hconcrete, htarget', rfl⟩ | ⟨hsymbolic, hcases⟩
  · have heq := asUint64?_eq hconcrete hsort' htarget' ν
    rw [heval'] at heq
    exact (hrewritten.setTargets [target]).carries rfl rfl hsymex heq rfl
  obtain ⟨ns, hns, _, hfeasible, hcomplete⟩ := exists_targets hS hsort c
  have hmem : (jumpTargets M next c).length < 20 → next.v.eval ν ∈ ns := fun hlen =>
    hcomplete (possibleValues_of_answers hS hA hlen) ν hν
  rcases hcases with ⟨addr, target, hone, htarget', rfl⟩ |
    ⟨front, back, jumpPc, fallthroughPc, c₁, cond, c₂, htwo, hjumpPc, hfall, hexec, hcond, hbranch,
      rfl⟩ | ⟨_, _, rfl⟩
  · -- one value
    have hmem := hmem (by rw [hone, List.length_singleton]; decide)
    obtain ⟨n, rfl, rfl⟩ : ∃ n, ns = [n] ∧ addressTerm n = addr := by
      rw [hone] at hns
      exact List.map_eq_singleton_iff.mp hns.symm
    obtain rfl := Except.ok.inj ((asUint64?_literal n).symm.trans htarget')
    rw [List.mem_singleton, heval] at hmem
    have hpc : BitVec.ofNat 64 n = BitVec.ofNat 64 (next.l.eval t.env) := congrArg _ hmem.symm
    exact (henumerated.setTargets _).carries rfl rfl hsymex' hpc rfl
  · -- two values, told apart by a comparison
    have hmem := hmem (by rw [htwo, List.length_cons, List.length_singleton]; decide)
    obtain ⟨n, m, rfl, rfl, rfl⟩ : ∃ n m, ns = [n, m] ∧ front = addressTerm n ∧ back = addressTerm m := by
      rw [htwo] at hns
      match ns, hns with
      | [n, m], hns =>
        simp only [List.map_cons, List.map_nil, List.cons.injEq, and_true] at hns
        exact ⟨n, m, rfl, hns.1, hns.2⟩
    obtain rfl := Except.ok.inj ((asUint64?_literal n).symm.trans hjumpPc)
    obtain rfl := Except.ok.inj ((asUint64?_literal m).symm.trans hfall)
    have htyped : (compareTarget next (BitVec.ofNat 64 n) c).OperandsTyped types := ⟨hwidth, rfl⟩
    have hcompared := (henumerated.setTargets _).exec hS hσ htyped rfl rfl hexec
    set t' := (compareTarget next (BitVec.ofNat 64 n) c).exec t
    have hbit : t'.env ⟨c.block, 0, (0, 2)⟩
        = (decide (BitVec.ofNat 64 (next.l.eval t.env) = BitVec.ofNat 64 n)).toNat :=
      (Function.update_self ..).trans (congrArg _ (eval_eq_address _ _))
    have hwidth' : (Operand.ssa ⟨c.block, 0, (0, 2)⟩).width
        (Inst.extend types (compareTarget next (BitVec.ofNat 64 n) c)) = some 1 :=
      Function.update_self ..
    obtain ⟨hsort₁, heval₁⟩ := hcompared.symex.operand hwidth' hcond
    have hchoice : BitVec.ofNat 64 (next.l.eval t.env)
        = if t'.env ⟨c.block, 0, (0, 2)⟩ = 1 then BitVec.ofNat 64 n else BitVec.ofNat 64 m := by
      rw [hbit]
      rw [heval, List.mem_cons, List.mem_singleton] at hmem
      by_cases heq : BitVec.ofNat 64 (next.l.eval t.env) = BitVec.ofNat 64 n
      · simp [heq]
      · have hm := hmem.resolve_left fun hn => heq (congrArg _ hn)
        simp [hm]
    have hcarries := hcompared.branching hS hM hσ rfl hsort₁ heval₁ hchoice hbranch
    have hpaths : c₁.unexploredPaths = c.unexploredPaths := (Cpu.exec_extends hexec).unexploredPaths
    exact ⟨hcarries.current, fun ss hss => hcarries.saved ss (hpaths.symm ▸ hss)⟩
  · cases hstatus

/-! ### One instruction -/

/-- **The control flow part** goes on where the program does. -/
theorem Emulated.controlFlow (hS : M.solver.Sound) (hA : M.solver.Answers) (hM : M.RegistersFit)
    (hoff : M.forkAtCmovs = false) (hσ : Unwritten ν σ) (hν : Satisfies ν c.pathConstraints)
    {inst : Instruction} (h : Emulated M program s₀ p₀ ν σ types t (inst.target t.mem) c)
    (hholds : HoldsVariables types t (c.function c.block).insts) {r : Outcome × Cpu}
    (hflow : Vexa.controlFlow M inst c = .ok r) (hstatus : r.1.status = .successful) :
    Carries M program s₀ p₀ ν σ c r.2 := by
  rcases controlFlow_cases hflow with ⟨hcategory, cond, c₁, hcond, hbranch, rfl⟩ | ⟨hcategory, rfl⟩ |
    ⟨hcategory, hjump⟩ | ⟨_, ⟨_, hforks⟩, _⟩ | ⟨hcategory, _, rfl⟩
  · refine h.conditionalBranch hS hM hσ hholds ?_ hcond hbranch
    rw [Instruction.target, hcategory]
  · refine h.carries rfl rfl h.symex ?_ rfl
    rw [Instruction.target, hcategory]
    rfl
  · refine h.indirectJump hS hA hM hσ hν hholds ?_ hjump hstatus
    rw [Instruction.target, hcategory]
  · -- no fork is made at conditional moves
    rw [hoff] at hforks
    cases hforks
  · refine h.carries rfl rfl h.symex ?_ rfl
    rw [Instruction.target, hcategory]

/-- The program counter is stored twice: when the block is made, and when it is emulated. -/
theorem exec_nextPc_twice (x : ℕ) (t : IrState Name) :
    Inst.exec (.store 64 (.const 64 x) .nextPc) (Inst.exec (.store 64 (.const 64 x) .nextPc) t)
      = Inst.exec (.store 64 (.const 64 x) .nextPc) t := by
  simp only [Inst.exec, IrState.store, Bytes.store_store]

/-- **The emulated block** does what the instruction does, wherever its accesses go where it was made
for. -/
theorem Cpu.Emulates.entered {semantics : Semantics} (h : c.Emulates M semantics c₁ c₂)
    (hcovered : Covered semantics.insts (c₂.function c.numBlocks).resolutions
      (Semantics.entry c.pc t.mem)) :
    (execAll (c₂.function c.numBlocks).insts t).mem = semantics.effect c.pc t.mem ∧
      HoldsVariables (semantics.types c.numBlocks c.pc)
        (execAll (c₂.function c.numBlocks).insts t) (c₂.function c.numBlocks).insts := by
  obtain ⟨rs, code, hrun, rfl, rfl⟩ := h.run
  have hlowers := runBlock_lowers hrun
  obtain ⟨-, hmem⟩ := hlowers.effect t hcovered
  refine ⟨hmem, fun ptr stored hptr hlast => ?_⟩
  obtain ⟨hstorable, hwidth, hload⟩ := hlowers.variable t hcovered hptr hlast
  refine ⟨hstorable, hwidth, ?_⟩
  rw [hmem, hptr.place_eq _ t.env, hload]

/-- On the path it is made on, the accesses go where the block was made for, and the symbolic state denotes
the state the semantics end in. -/
theorem Cpu.Emulates.covered (hS : M.solver.Sound) (hA : M.solver.Answers) (hσ : Unwritten ν σ)
    (hν : Satisfies ν c.pathConstraints) {semantics : Semantics} (hopens : c.Opens M c₁)
    (h : c.Emulates M semantics c₁ c₂) (ht : c.symex.context.Denotes ν σ t.mem) :
    c₂.symex.Denotes ν σ (semantics.types c.numBlocks c.pc)
        (execAll (semantics.inBlock c.numBlocks c.pc) t) ∧
      Covered semantics.insts (c₂.function c.numBlocks).resolutions (Semantics.entry c.pc t.mem) := by
  obtain ⟨rs, code, hrun, rfl, rfl⟩ := h.run
  set b := c.numBlocks
  set code := (c₂.function b).insts
  set rs := (c₂.function b).resolutions
  -- the block as it is when the emulator starts
  have hempty : c.symex.Denotes ν σ (fun _ => none) t := ⟨nofun, ht⟩
  have hstore : (Inst.store 64 (.const 64 c.pc.toNat) .nextPc).OperandsTyped fun _ : Name => none :=
    ⟨by decide, rfl, rfl⟩
  have hstored := visit_sound hS hσ hempty hstore rfl hopens.symex
  obtain ⟨hden, hcovered⟩ := runBlock_sound hS hA hν hσ (semantics.inBlock_typed b c.pc)
    (fun _ _ h => nomatch h) (semantics.inBlock_lifted b c.pc) hstored hrun
  have htwice := exec_nextPc_twice c.pc.toNat t
  have hexec : execAll (semantics.inBlock b c.pc)
      (Inst.exec (.store 64 (.const 64 c.pc.toNat) .nextPc) t)
      = execAll (semantics.inBlock b c.pc) t := by
    rw [Semantics.inBlock, execAll_cons, execAll_cons, htwice]
  have hcovered' : Covered (semantics.inBlock b c.pc) rs t := by
    have hrest : Covered (semantics.insts.map (Inst.map (Name.lifted b))) rs _ := hcovered
    rw [htwice] at hrest
    exact hrest
  have hlowers : Lowers (semantics.inBlock b c.pc) rs code := runBlock_lowers hrun
  rw [hexec] at hden
  exact ⟨hden, (hlowers.renamed t).2.mp hcovered'⟩

/-- On this path the symbolic state denotes the state the block ends in. -/
theorem Cpu.Emulates.denotes (hS : M.solver.Sound) (hA : M.solver.Answers) (hσ : Unwritten ν σ)
    (hν : Satisfies ν c.pathConstraints) {semantics : Semantics} (hopens : c.Opens M c₁)
    (h : c.Emulates M semantics c₁ c₂) (ht : c.symex.context.Denotes ν σ t.mem) :
    c₂.symex.Denotes ν σ (semantics.types c.numBlocks c.pc)
        (execAll (c₂.function c.numBlocks).insts t) ∧
      (execAll (c₂.function c.numBlocks).insts t).mem = semantics.effect c.pc t.mem ∧
      HoldsVariables (semantics.types c.numBlocks c.pc)
        (execAll (c₂.function c.numBlocks).insts t) (c₂.function c.numBlocks).insts := by
  obtain ⟨hden, hcovered⟩ := h.covered hS hA hσ hν hopens ht
  refine ⟨?_, h.entered hcovered⟩
  obtain ⟨rs, code, hrun, rfl, rfl⟩ := h.run
  have hagrees := ((runBlock_lowers hrun).effect t hcovered).1
  refine ⟨fun name w hname => ?_, hagrees.mem ▸ hden.context⟩
  obtain ⟨v, hv, hsort, heval⟩ := hden.vars name w hname
  exact ⟨v, hv, hsort, heval.trans (hagrees.env name w hname).symm⟩

/-- **One instruction** is lifted along the path the program takes. -/
theorem Follows.liftInstruction (hS : M.solver.Sound) (hA : M.solver.Answers) (hM : M.RegistersFit)
    (hmode : M.mode = .symbolicExploration) (hoff : M.forkAtCmovs = false) (hσ : Unwritten ν σ)
    (hν : Satisfies ν c.pathConstraints) (hc : c.insertPoint < c.numBlocks) (hfresh : c.Fresh)
    (hstraight : Straight (c.function c.insertPoint).insts) (hwf : c.symex.context.memory.WF)
    (h : Follows M program s₀ p₀ c.function c.insertPoint (c.pc, c.symex.context.memory.denote ν σ))
    (hpc : c.pc ≠ 0) {inst : Instruction} (hprogram : program c.pc = some inst)
    {r : Outcome × Cpu} (hlift : liftInstruction M inst c = .ok r)
    (hstatus : r.1.status = .successful) : Carries M program s₀ p₀ ν σ c r.2 := by
  obtain ⟨c₁, hexec, ⟨_, rfl⟩ | ⟨semantics, c₂, hsome, hrun, hflow⟩⟩ := liftInstruction_eq hlift
  · cases hstatus
  have hopens := openBlock_opens hc hexec
  have hlifts := runLifted_lifts hc (opened_lifts hc hexec) hrun
  have hemulates := runLifted_emulates hopens hrun
  have hextends := hlifts.extends hfresh hstraight
  obtain ⟨t, hreaches, hmem⟩ := h
  -- the block before is left
  have hself := runLifted_self hc hexec hrun
  obtain ⟨pcs, hvisits, hexecutes⟩ := hreaches.leave hextends hstraight (congrArg BasicBlock.pc hself :)
    hlifts.closes rfl
  obtain ⟨hden, heffect, hholds⟩ := hemulates.denotes hS hA hσ hν hopens (t := t) ⟨hmem.symm, hwf⟩
  set u := execAll (c₂.function c.numBlocks).insts t
  have hstep : ProgramStep M program inst semantics (c.pc, c.symex.context.memory.denote ν σ)
      (inst.target u.mem, u.mem) :=
    ⟨hpc, hprogram, hsome, by rw [heffect, hmem], rfl⟩
  have hemulated : Emulated M program s₀ p₀ ν σ (semantics.types c.numBlocks c.pc) u
      (inst.target u.mem) c₂ := by
    refine ⟨hlifts.building, ?_, hlifts.fresh hc hfresh, hden, pcs, t, ?_, ?_, ?_⟩
    · rw [hlifts.insertPoint]
      exact hlifts.straight
    · rw [hlifts.insertPoint]
      exact hvisits
    · rw [hlifts.insertPoint]
    · rw [hlifts.insertPoint, hemulates.pc]
      exact hexecutes.step hstep
  have hsave : saveBlock M c₂ = c₂ := by simp only [saveBlock, hmode]
  rw [hsave] at hflow
  have hcarries := hemulated.controlFlow hS hA hM hoff hσ (hemulates.pathConstraints ▸ hν)
    (by rwa [hlifts.block]) hflow hstatus
  exact ⟨hcarries.current, fun ss hss => hcarries.saved ss (hlifts.unexploredPaths.symm ▸ hss)⟩

end Vexa
