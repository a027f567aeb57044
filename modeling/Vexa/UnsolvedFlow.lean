import Vexa.ReenteredMove
import Vexa.Simulation

/-!
# Control flow without opaque predicates

With the option for opaque predicates turned off, a branch whose condition is known forks as any other
does, so what the control flow part emits does not depend on the constraints of the path. In whatever
state the block is entered, control goes where the program goes, as long as the block was made for it.

## Main definitions

* `Machine.KeepsUnsolved` — no callback turns the option on
* `Cpu.ErasesStore` — what a conditional move notes down for erasing
* `Cpu.KeepsLabels` — the block is still the one of its program counter and its accesses

## Main results

* `controlFlow_erases`, `Cpu.KeepsLabels.controlFlow` — what the control flow part keeps
* `Cpu.Entered.controlFlow` — where it goes
-/

namespace Vexa

variable {M : Machine} {c c' c₁ c₂ : Cpu} {s u : IrState Name} {inst : Instruction}
  {types : Types Name}

/-! ### The option for opaque predicates -/

/-- No callback turns the option on. -/
def Machine.KeepsUnsolved (M : Machine) : Prop :=
  ∀ k c, c.opaqueSolving = false → (M.callback k c).opaqueSolving = false

theorem forkPath_unsolved (hM : M.KeepsUnsolved) (h : c.opaqueSolving = false)
    (condition : DualValue) (jumpPc fallthroughPc : Addr) :
    (forkPath M condition jumpPc fallthroughPc c).opaqueSolving = false := hM _ _ h

theorem branching_unsolved (hM : M.KeepsUnsolved) (h : c.opaqueSolving = false)
    {condition : DualValue} {jumpPc fallthroughPc : Addr}
    (hbranch : branching M condition jumpPc fallthroughPc c = .ok c') : c'.opaqueSolving = false := by
  rcases branching_cases hbranch with ⟨_, _, hsolving, _⟩ | ⟨v, _, rfl⟩
  · rw [h] at hsolving
    cases hsolving
  · exact forkPath_unsolved hM h ..

theorem handleConditionalMoves_unsolved (h : c.opaqueSolving = false)
    (hsplit : handleConditionalMoves M inst c = .ok c') : c'.opaqueSolving = false := by
  rw [handleConditionalMoves] at hsplit
  split at hsplit
  · cases hsplit
  simp only [Except.bind_eq_ok] at hsplit
  obtain ⟨_, _, ⟨trueVal, c₁⟩, htrue, ⟨falseVal, c₂⟩, hfalse, ⟨verdict, v⟩, _, hsplit⟩ := hsplit
  have hc₂ : c₂.opaqueSolving = false :=
    ((materialize_extends htrue).trans (materialize_extends hfalse)).opaqueSolving.trans h
  cases verdict with
  | some result =>
    obtain ⟨_, _, rfl⟩ := Cpu.exec_eq hsplit
    exact hc₂
  | none =>
    simp only [forkMove, Except.bind_eq_ok, Except.pure_eq_ok] at hsplit
    obtain ⟨_, h₃, _, h₄, rfl⟩ := hsplit
    obtain ⟨_, _, rfl⟩ := Cpu.exec_eq h₃
    obtain ⟨_, _, rfl⟩ := Cpu.exec_eq h₄
    exact hc₂

theorem controlFlow_unsolved (hM : M.KeepsUnsolved) (h : c.opaqueSolving = false) {r : Outcome × Cpu}
    (hflow : controlFlow M inst c = .ok r) : r.2.opaqueSolving = false := by
  rcases controlFlow_cases hflow with ⟨_, cond, c₁, hcond, hbranch, rfl⟩ | ⟨_, rfl⟩ | ⟨_, hjump⟩ |
    ⟨_, _, c₁, hsplit, rfl⟩ | ⟨_, _, rfl⟩
  · exact branching_unsolved hM ((getCondition_extends hcond).opaqueSolving.trans h) hbranch
  · exact hM _ _ h
  · obtain ⟨next, _, ⟨_, _, _, rfl⟩ | ⟨_, ⟨_, _, _, _, rfl⟩ |
      ⟨_, _, _, _, _, _, _, _, _, _, hcompare, _, hbranch, rfl⟩ | ⟨_, _, rfl⟩⟩⟩ :=
        indirectJump_cases hjump
    · exact hM _ _ h
    · exact h
    · exact branching_unsolved hM ((Cpu.exec_extends hcompare).opaqueSolving.trans h) hbranch
    · exact h
  · have hc₁ := handleConditionalMoves_unsolved h hsplit
    exact hc₁
  · exact h

/-! ### What is erased -/

theorem Cpu.Extends.building (h : c.Extends c') (hc : c.Building) : c'.Building where
  block := by rw [h.block, h.insertPoint, hc.block]
  lt := by
    rw [h.insertPoint, h.numBlocks]
    exact hc.lt

theorem materialize_toDelete {side : ℕ} : ∀ {wrappers : List (Inst Name)} {value : Operand Name}
    {c : Cpu} {r : Operand Name × Cpu}, materialize M side wrappers value c = .ok r →
      r.2.toDelete = c.toDelete
  | [], value, c, r, h => by
    obtain rfl := Except.ok.inj h
    rfl
  | wrapper :: wrappers, value, c, r, h => by
    simp only [materialize, Except.bind_eq_ok] at h
    obtain ⟨c₁, hexec, hrest⟩ := h
    obtain ⟨_, _, rfl⟩ := Cpu.exec_eq hexec
    exact (materialize_toDelete hrest).trans rfl

/-- `c'` is `c` with a store of the current block noted down for erasing, and this block is closed. -/
def Cpu.ErasesStore (c c' : Cpu) : Prop :=
  ¬ Straight (c'.function c.insertPoint).insts ∧ ∃ n, c'.toDelete = c.toDelete ++ [(c.insertPoint, n)]

theorem handleConditionalMoves_erases (hc : c.Building) (h : c.ForksMoves M)
    (hsplit : handleConditionalMoves M inst c = .ok c') : c.ErasesStore c' := by
  rw [handleConditionalMoves, hc.block] at hsplit
  split at hsplit
  · cases hsplit
  next move _ =>
  simp only [Except.bind_eq_ok] at hsplit
  obtain ⟨_, _, trueVal, htrue, falseVal, hfalse, ⟨verdict, v⟩, hverdict, hsplit⟩ := hsplit
  have hext := (materialize_extends htrue).trans (materialize_extends hfalse)
  rw [h.solveMove hext.opaqueSolving] at hverdict
  obtain ⟨rfl, rfl⟩ := Prod.mk.inj (Except.ok.inj hverdict)
  simp only at hsplit
  rw [← hext.insertPoint] at hsplit
  have hfork := forkMove_eq (hext.building hc) hsplit
  have hself := hfork.self
  rw [hext.insertPoint] at hself
  refine ⟨fun hstraight => ?_, move.position, ?_⟩
  · rw [hself] at hstraight
    cases straight_singleton.mp (straight_append.mp hstraight).2
  · rw [hfork.toDelete, hext.insertPoint, materialize_toDelete hfalse, materialize_toDelete htrue]

theorem controlFlow_erases (hc : c.Building) (h : M.forkAtCmovs = true → c.ForksMoves M)
    {r : Outcome × Cpu} (hflow : controlFlow M inst c = .ok r) :
    r.2.toDelete = c.toDelete ∨ c.ErasesStore r.2 := by
  refine (controlFlow_toDelete hflow).imp_right ?_
  rintro ⟨hon, c₁, hsplit, heq⟩
  have herases := handleConditionalMoves_erases hc (h hon) hsplit
  rw [heq]
  exact herases

/-! ### What a block was made for -/

/-- The current block has other code and perhaps other targets, and is else the same. -/
def Cpu.KeepsLabels (c c' : Cpu) : Prop :=
  ∃ insts targets, c'.function c.insertPoint
    = { c.function c.insertPoint with insts := insts, targets := targets }

namespace Cpu.KeepsLabels

theorem of_eq (h : c'.function = c.function) : c.KeepsLabels c' := ⟨_, _, congrFun h c.insertPoint⟩

theorem trans (h : c.KeepsLabels c₁) (hinsert : c₁.insertPoint = c.insertPoint)
    (h' : c₁.KeepsLabels c₂) : c.KeepsLabels c₂ := by
  obtain ⟨insts, targets, heq⟩ := h
  obtain ⟨insts', targets', heq'⟩ := h'
  rw [hinsert, heq] at heq'
  exact ⟨insts', targets', heq'⟩

theorem exec {i : Inst Name} (h : c.exec M i = .ok c') : c.KeepsLabels c' := by
  obtain ⟨_, _, rfl⟩ := Cpu.exec_eq h
  exact ⟨_, _, c.function_create_self i⟩

theorem setTargets (hc : c.Building) (targets : List Addr) : c.KeepsLabels (c.setTargets targets) := by
  have hself := c.function_setTargets_self targets
  rw [hc.block] at hself
  exact ⟨_, _, hself⟩

theorem branching (hc : c.Building) {condition : DualValue} {jumpPc fallthroughPc : Addr}
    (h : Vexa.branching M condition jumpPc fallthroughPc c = .ok c') : c.KeepsLabels c' := by
  rcases branching_cases h with ⟨_, _, _, _, rfl⟩ | ⟨_, _, rfl⟩
  · exact .of_eq rfl
  · exact ⟨_, _, forkPath_function_self _ _ _ hc⟩

theorem materialize {side : ℕ} : ∀ {wrappers : List (Inst Name)} {value : Operand Name} {c : Cpu}
    {r : Operand Name × Cpu}, Vexa.materialize M side wrappers value c = .ok r → c.KeepsLabels r.2
  | [], value, c, r, h => by
    obtain rfl := Except.ok.inj h
    exact .of_eq rfl
  | wrapper :: wrappers, value, c, r, h => by
    simp only [Vexa.materialize, Except.bind_eq_ok] at h
    obtain ⟨c₁, hexec, hrest⟩ := h
    exact (KeepsLabels.exec hexec).trans (Cpu.exec_extends hexec).insertPoint (materialize hrest)

theorem handleConditionalMoves (hc : c.Building)
    (h : Vexa.handleConditionalMoves M inst c = .ok c') : c.KeepsLabels c' := by
  rw [Vexa.handleConditionalMoves] at h
  split at h
  · cases h
  simp only [Except.bind_eq_ok] at h
  obtain ⟨_, _, trueVal, htrue, falseVal, hfalse, ⟨verdict, v⟩, _, h⟩ := h
  have hext₁ := materialize_extends htrue
  have hext := hext₁.trans (materialize_extends hfalse)
  refine ((materialize htrue).trans hext₁.insertPoint (materialize hfalse)).trans hext.insertPoint ?_
  cases verdict with
  | some result =>
    obtain ⟨_, _, rfl⟩ := Cpu.exec_eq h
    exact ⟨_, _, Cpu.function_create_self falseVal.2 _⟩
  | none =>
    simp only at h
    rw [hc.block, ← hext.insertPoint] at h
    exact ⟨_, _, (forkMove_eq (hext.building hc) h).self⟩

theorem indirectJump (hc : c.Building) {r : Outcome × Cpu} (h : Vexa.indirectJump M c = .ok r) :
    c.KeepsLabels r.2 := by
  obtain ⟨next, _, ⟨target, _, _, rfl⟩ | ⟨_, ⟨_, target, _, _, rfl⟩ |
    ⟨_, _, jumpPc, fallthroughPc, c₁, _, _, _, _, _, hcompare, _, hbranch, rfl⟩ | ⟨_, _, rfl⟩⟩⟩ :=
      indirectJump_cases h
  · exact setTargets (c := c.rewriteTarget M next) ⟨hc.block, hc.lt⟩ _
  · exact setTargets (c := c.enumerateTarget M next) ⟨hc.block, hc.lt⟩ _
  · have hc' : (c.enumerateTarget M next).Building := ⟨hc.block, hc.lt⟩
    have hext := Cpu.exec_extends hcompare
    have hkeeps : (c.enumerateTarget M next).KeepsLabels c₁ :=
      (setTargets hc' [jumpPc, fallthroughPc]).trans rfl (exec hcompare)
    have hc₁ : c₁.Building := hext.building ⟨hc.block, hc.lt⟩
    have hkeeps : c.KeepsLabels c₁ := hkeeps
    exact hkeeps.trans hext.insertPoint (branching hc₁ hbranch)
  · exact .of_eq rfl

theorem controlFlow (hc : c.Building) {r : Outcome × Cpu} (h : Vexa.controlFlow M inst c = .ok r) :
    c.KeepsLabels r.2 := by
  rcases controlFlow_cases h with ⟨_, cond, c₁, hcond, hbranch, rfl⟩ | ⟨_, rfl⟩ | ⟨_, hjump⟩ |
    ⟨_, _, c₁, hsplit, rfl⟩ | ⟨_, _, rfl⟩
  · obtain ⟨_, _, _, hcast, _⟩ := getCondition_eq hcond
    have hext := Cpu.exec_extends hcast
    exact (exec hcast).trans hext.insertPoint (branching (hext.building hc) hbranch)
  · exact .of_eq rfl
  · exact indirectJump hc hjump
  · obtain ⟨insts, targets, heq⟩ := handleConditionalMoves hc hsplit
    exact ⟨insts, targets, heq⟩
  · exact .of_eq rfl

end Cpu.KeepsLabels

/-! ### Where the control flow part goes -/

/-- **The control flow part** goes on where the program goes, if that is where the path went on. -/
theorem Cpu.Entered.controlFlow (h : c.Entered s u) (hforks : M.forkAtCmovs = true → c.ForksMoves M)
    (hholds : HoldsVariables types u (c.function c.block).insts)
    (hmove : inst.category = .normal → inst.function.startsWith "CMOV" → M.forkAtCmovs = true →
      ∃ move value front rest, findConditionalMove c.code = some move ∧
        c.MoveRun move value front rest s)
    {r : Outcome × Cpu} (hflow : Vexa.controlFlow M inst c = .ok r)
    (hstatus : r.1.status = .successful) (hfound : inst.target u.mem ∈ c.exits r.2) :
    c.Leads r.2 s (inst.target u.mem) u.mem := by
  have hsame : ∀ {c' : Cpu}, c'.function = c.function → c'.function c.insertPoint
      = { c.function c.insertPoint with targets := (c.function c.insertPoint).targets } := by
    intro c' hfunction
    rw [hfunction]
  rcases controlFlow_cases hflow with ⟨hcategory, cond, c₁, hcond, hbranch, rfl⟩ | ⟨hcategory, rfl⟩ |
    ⟨hcategory, hjump⟩ | ⟨hcategory, hcmov, c₁, hsplit, rfl⟩ | ⟨hcategory, _, rfl⟩
  · refine h.conditionalBranch hholds ?_ hcond hbranch hfound
    rw [Instruction.target, hcategory]
  · have htarget : inst.target u.mem = inst.branchTakenPc := by rw [Instruction.target, hcategory]
    rw [htarget]
    exact h.goesOn (hsame rfl) rfl rfl rfl rfl rfl
  · refine h.indirectJump hholds ?_ hjump hstatus hfound
    rw [Instruction.target, hcategory]
  · have htarget : inst.target u.mem = inst.nextPc := by rw [Instruction.target, hcategory]
    rw [htarget]
    obtain ⟨move, value, front, rest, hmove, hrun⟩ := hmove hcategory hcmov.1 hcmov.2
    exact h.conditionalMove (hforks hcmov.2) hmove hrun hsplit
  · have htarget : inst.target u.mem = inst.nextPc := by rw [Instruction.target, hcategory]
    rw [htarget]
    exact h.goesOn (hsame rfl) rfl rfl rfl rfl rfl

/-- A branch that is not solved goes on with both sides. -/
theorem branching_exits_unsolved (hsolving : c.opaqueSolving = false) {condition : DualValue}
    {jumpPc fallthroughPc : Addr} (h : branching M condition jumpPc fallthroughPc c = .ok c') :
    c.exits c' = [jumpPc, fallthroughPc] := by
  rcases branching_cases h with ⟨_, _, htrue, _⟩ | ⟨v, _, rfl⟩
  · rw [hsolving] at htrue
    cases htrue
  · exact forkPath_exits ..

/-- The targets of an indirect jump: a literal, or the one or two values found for the jump term. -/
def JumpFinds (M : Machine) (next : DualValue) (c : Cpu) (targets : List Addr) : Prop :=
  (∃ target, (next.v.simplify M.solver).isConcrete = true ∧
      (next.v.simplify M.solver).asUint64? = .ok target ∧ targets = [target]) ∨
    (jumpTargets M next c ≠ [] ∧ (jumpTargets M next c).length < 20 ∧
      (jumpTargets M next c).mapM asUint64? = .ok targets)

/-- Without opaque predicates the targets noted down at an indirect jump are where the path went on. -/
theorem indirectJump_targets (hc : c.Building) (hsolving : c.opaqueSolving = false)
    {r : Outcome × Cpu} (hjump : indirectJump M c = .ok r) (hstatus : r.1.status = .successful) :
    ∃ next, getNextPc c = .ok next ∧ JumpFinds M next c (r.2.function c.insertPoint).targets ∧
      ∀ target ∈ (r.2.function c.insertPoint).targets, target ∈ c.exits r.2 := by
  have htargets : ∀ (c' : Cpu) (targets : List Addr), c'.block = c.block →
      ((c'.setTargets targets).function c.insertPoint).targets = targets := by
    intro c' targets hblock
    have hself := c'.function_setTargets_self targets
    rw [hblock, hc.block] at hself
    exact congrArg BasicBlock.targets hself
  obtain ⟨next, hnext, ⟨target, hconcrete, htarget, hr⟩ | ⟨_, ⟨addr, target, hone, htarget, hr⟩ |
    ⟨front, back, jumpPc, fallthroughPc, c₁, cond, c₂, htwo, hjumpPc, hfall, hexec, _, hbranch, rfl⟩ |
    ⟨_, _, rfl⟩⟩⟩ := indirectJump_cases hjump
  · have hset : (r.2.function c.insertPoint).targets = [target] := by
      rw [hr]
      exact htargets (c.rewriteTarget M next) [target] rfl
    have hexits : target ∈ c.exits r.2 := by
      rw [hr]
      exact List.mem_cons_self ..
    rw [hset]
    exact ⟨next, hnext, .inl ⟨target, hconcrete, htarget, rfl⟩, List.forall_mem_singleton.mpr hexits⟩
  · have hset : (r.2.function c.insertPoint).targets = [target] := by
      rw [hr]
      exact htargets (c.enumerateTarget M next) [target] rfl
    have hexits : target ∈ c.exits r.2 := by
      rw [hr]
      exact List.mem_cons_self ..
    rw [hset]
    refine ⟨next, hnext, .inr ?_, List.forall_mem_singleton.mpr hexits⟩
    rw [hone]
    refine ⟨List.cons_ne_nil _ _, by simp, ?_⟩
    rw [List.mapM_cons, htarget]
    rfl
  · have hset := htargets (c.enumerateTarget M next) [jumpPc, fallthroughPc] rfl
    have hext := Cpu.exec_extends hexec
    have hinsert : c₁.insertPoint = c.insertPoint := hext.insertPoint
    have hc₁ : c₁.Building := hext.building ⟨hc.block, hc.lt⟩
    have hcompared : (c₁.function c.insertPoint).targets = [jumpPc, fallthroughPc] := by
      obtain ⟨s', _, rfl⟩ := Cpu.exec_eq hexec
      have hself := Cpu.function_create_self ((c.enumerateTarget M next).setTargets
        [jumpPc, fallthroughPc]) (compareTarget next jumpPc c)
      exact (congrArg BasicBlock.targets hself).trans hset
    have hsolving₁ : c₁.opaqueSolving = false := hext.opaqueSolving.trans hsolving
    rcases branching_cases hbranch with ⟨_, _, htrue, _⟩ | ⟨v, _, rfl⟩
    · rw [hsolving₁] at htrue
      cases htrue
    · have hself := congrArg BasicBlock.targets
        (forkPath_function_self (M := M) ⟨.ssa ⟨c.block, 0, (0, 2)⟩, v⟩ jumpPc fallthroughPc hc₁)
      rw [hinsert] at hself
      have hforked : _ = [jumpPc, fallthroughPc] := hself.trans hcompared
      have hexits : c.exits (forkPath M ⟨.ssa ⟨c.block, 0, (0, 2)⟩, v⟩ jumpPc fallthroughPc c₁)
          = [jumpPc, fallthroughPc] :=
        (Cpu.exits_congr hext.unexploredPaths).symm.trans (forkPath_exits ..)
      refine ⟨next, hnext, ?_⟩
      simp only [hforked, hexits]
      refine ⟨.inr ?_, fun _ h => h⟩
      rw [htwo]
      refine ⟨List.cons_ne_nil _ _, by simp, ?_⟩
      rw [List.mapM_cons, List.mapM_cons, hjumpPc, hfall]
      rfl
  · cases hstatus

/-- Without opaque predicates a step goes on where the program can go, but for the targets of an indirect
jump that were not found. -/
theorem controlFlow_exits_unsolved (hc : c.Building) (hsolving : c.opaqueSolving = false)
    {r : Outcome × Cpu} (hflow : controlFlow M inst c = .ok r) (hstatus : r.1.status = .successful)
    {m : Bytes} (hfound : inst.category = .indirectJump →
      inst.target m ∈ (r.2.function c.insertPoint).targets) : inst.target m ∈ c.exits r.2 := by
  rcases controlFlow_cases hflow with ⟨hcategory, cond, c₁, hcond, hbranch, rfl⟩ | ⟨hcategory, rfl⟩ |
    ⟨hcategory, hjump⟩ | ⟨hcategory, hcmov, c₁, hsplit, rfl⟩ | ⟨hcategory, _, rfl⟩
  · have hext := getCondition_extends hcond
    have hexits := branching_exits_unsolved (hext.opaqueSolving.trans hsolving) hbranch
    rw [Cpu.exits_congr hext.unexploredPaths] at hexits
    rw [hexits, Instruction.target, hcategory]
    simp only
    split
    · exact List.mem_cons_self ..
    · exact List.mem_cons_of_mem _ (List.mem_singleton_self _)
  · rw [Instruction.target, hcategory]
    exact List.mem_cons_self ..
  · obtain ⟨_, _, _, hexits⟩ := indirectJump_targets hc hsolving hjump hstatus
    exact hexits _ (hfound hcategory)
  · rw [Instruction.target, hcategory]
    exact List.mem_cons_self ..
  · rw [Instruction.target, hcategory]
    exact List.mem_cons_self ..

end Vexa
