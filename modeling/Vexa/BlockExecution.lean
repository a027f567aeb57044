import Vexa.LiftedBlock

/-!
# Executing the function while it is built

A block without a terminator is not left, so executions only pass through blocks that are finished,
and building the rest of the function keeps them. An execution that stands in a block without a
terminator goes on as the lifter goes on: code is put at the end of the block, or the block is closed.

## Main definitions

* `Function.Extends` — finished blocks are kept
* `Reaches`, `Follows` — the lifted function and the program have visited the same program counters

## Main results

* `Reaches.append`, `Reaches.leave` — more code in the block, and a terminator
* `Cpu.Lifts.extends`, `Cpu.GoesOn.extends`, `Cpu.Forks.extends` — the lifter keeps finished blocks
-/

namespace Vexa

/-! ### Blocks -/

variable {insts insts' : List (Inst Name)} {s t t' : IrState Name} {f g : Function} {b d : BlockId}

theorem execInsts_cons {i : Inst Name} (hi : i.isTerminator = false) (insts : List (Inst Name))
    (t : IrState Name) : execInsts (i :: insts) t = execInsts insts (i.exec t) := by
  cases i <;> first | rfl | cases hi

/-- Code without terminators is executed to its end. -/
theorem execInsts_append : ∀ {insts : List (Inst Name)} {t : IrState Name}, Straight insts →
    execInsts (insts ++ insts') t = execInsts insts' (execAll insts t)
  | [], _, _ => rfl
  | i :: insts, t, h => by
    obtain ⟨hi, hinsts⟩ := straight_cons.mp h
    rw [List.cons_append, execInsts_cons hi, execInsts_append hinsts, execAll_cons]

theorem execInsts_of_straight (h : Straight insts) : execInsts insts t = (execAll insts t, none) := by
  have happend : execInsts (insts ++ []) t = execInsts [] (execAll insts t) := execInsts_append h
  rwa [List.append_nil] at happend

theorem not_straight_of_execInsts {exit : Exit} (h : execInsts insts t = (t', some exit)) :
    ¬ Straight insts := by
  intro hstraight
  rw [execInsts_of_straight hstraight] at h
  cases (Prod.mk.inj h).2

/-- The blocks of `f` with a terminator are blocks of `g`. -/
def Function.Extends (f g : Function) : Prop := ∀ b, ¬ Straight (f b).insts → g b = f b

theorem Function.Extends.refl (f : Function) : f.Extends f := fun _ _ => rfl

theorem Function.Extends.trans {f g h : Function} (hfg : f.Extends g) (hgh : g.Extends h) :
    f.Extends h := fun b hb => by
  have heq := hfg b hb
  rw [hgh b (heq ▸ hb), heq]

/-- Executions only pass through blocks with a terminator. -/
theorem Visits.extends (hfg : f.Extends g) {x y : BlockId × IrState Name} {pcs : List Addr}
    (h : Visits f x pcs y) : Visits g x pcs y := by
  induction h with
  | refl => exact .refl _
  | step hvisits hexec ih =>
    rename_i b c d s s' t pcs
    have heq := hfg c (not_straight_of_execInsts hexec)
    rw [← heq] at hexec ⊢
    exact ih.step hexec

/-! ### The function and the program -/

section

variable (M : Machine) (program : Program) (s₀ : IrState Name) (p₀ : Addr × Bytes)

/-- The lifted function, entered in `s₀`, has come to the end of the code in block `b`, with `t`; the
program, started in `p₀`, has visited the same program counters and is at `p`. -/
def Reaches (f : Function) (b : BlockId) (t : IrState Name) (p : Addr × Bytes) : Prop :=
  ∃ pcs u, Visits f (0, s₀) pcs (b, u) ∧ execAll (f b).insts u = t ∧
    Executes M program p₀ (pcs ++ (f b).pc.toList) p

/-- They have the same memory. -/
def Follows (f : Function) (b : BlockId) (p : Addr × Bytes) : Prop :=
  ∃ t, Reaches M program s₀ p₀ f b t p ∧ t.mem = p.2

variable {M program s₀ p₀} {p : Addr × Bytes}

theorem Reaches.extends (h : Reaches M program s₀ p₀ f b t p) (hfg : f.Extends g)
    (hb : g b = f b) : Reaches M program s₀ p₀ g b t p := by
  obtain ⟨pcs, u, hvisits, hexec, hexecutes⟩ := h
  refine ⟨pcs, u, hvisits.extends hfg, ?_, ?_⟩
  · rwa [hb]
  · rwa [hb]

theorem Follows.extends (h : Follows M program s₀ p₀ f b p) (hfg : f.Extends g) (hb : g b = f b) :
    Follows M program s₀ p₀ g b p := by
  obtain ⟨t, hreaches, hmem⟩ := h
  exact ⟨t, hreaches.extends hfg hb, hmem⟩

/-- More code at the end of the block. -/
theorem Reaches.append (h : Reaches M program s₀ p₀ f b t p) (hfg : f.Extends g)
    (hpc : (g b).pc = (f b).pc) {tail : List (Inst Name)} (hinsts : (g b).insts = (f b).insts ++ tail) :
    Reaches M program s₀ p₀ g b (execAll tail t) p := by
  obtain ⟨pcs, u, hvisits, rfl, hexecutes⟩ := h
  refine ⟨pcs, u, hvisits.extends hfg, ?_, ?_⟩
  · rw [hinsts, execAll_append]
  · rwa [hpc]

/-- A terminator at the end of the block. -/
theorem Reaches.leave (h : Reaches M program s₀ p₀ f b t p) (hfg : f.Extends g)
    (hstraight : Straight (f b).insts) (hpc : (g b).pc = (f b).pc) {last : Inst Name}
    (hinsts : (g b).insts = (f b).insts ++ [last]) (hlast : execInsts [last] t = (t, some (.goto d))) :
    ∃ pcs, Visits g (0, s₀) pcs (d, t) ∧ Executes M program p₀ pcs p := by
  obtain ⟨pcs, u, hvisits, rfl, hexecutes⟩ := h
  refine ⟨pcs ++ (g b).pc.toList, (hvisits.extends hfg).step ?_, hpc ▸ hexecutes⟩
  rw [hinsts, execInsts_append hstraight, hlast]

/-- A terminator that goes to a block without code. -/
theorem Reaches.leave_nil (h : Reaches M program s₀ p₀ f b t p) (hfg : f.Extends g)
    (hstraight : Straight (f b).insts) (hpc : (g b).pc = (f b).pc) {last : Inst Name}
    (hinsts : (g b).insts = (f b).insts ++ [last]) (hlast : execInsts [last] t = (t, some (.goto d)))
    (hd : g d = ⟨none, [], [], []⟩) : Reaches M program s₀ p₀ g d t p := by
  obtain ⟨pcs, hvisits, hexecutes⟩ := h.leave hfg hstraight hpc hinsts hlast
  refine ⟨pcs, t, hvisits, ?_, ?_⟩
  · rw [hd]
    rfl
  · rwa [hd, Option.toList_none, List.append_nil]

end

/-! ### What the lifter keeps -/

variable {M : Machine} {c c' c₁ c₂ : Cpu}

/-- The blocks there are not yet have no terminators. -/
def Cpu.Fresh (c : Cpu) : Prop := ∀ b, c.numBlocks ≤ b → Straight (c.function b).insts

/-- The block before an instruction is closed by the edge to the new block. -/
theorem runLifted_self {semantics : Semantics} (hc : c.insertPoint < c.numBlocks)
    (hexec : ((openBlock c).eventHandler M .instructionLift).exec M
      (.store 64 (.const 64 ((openBlock c).eventHandler M .instructionLift).pc.toNat) .nextPc)
        = .ok c₁) (hrun : runLifted M semantics c₁ = .ok c₂) :
    c₂.function c.insertPoint = { c.function c.insertPoint with
      insts := (c.function c.insertPoint).insts ++ [.br c.numBlocks] } := by
  have hbefore : (c.basicBlock (some c.pc)).function c.insertPoint = c.function c.insertPoint :=
    Function.update_of_ne hc.ne ..
  have hopen : (openBlock c).function c.insertPoint = { c.function c.insertPoint with
      insts := (c.function c.insertPoint).insts ++ [.br c.numBlocks] } := by
    refine (Cpu.function_create_self (c.basicBlock (some c.pc)) _).trans ?_
    show ({ (c.basicBlock (some c.pc)).function c.insertPoint with
      insts := ((c.basicBlock (some c.pc)).function c.insertPoint).insts ++ _ } : BasicBlock) = _
    rw [hbefore]
  have hblock := (opened_lifts hc hexec).block
  obtain ⟨s, _, rfl⟩ := Cpu.exec_eq hexec
  simp only [runLifted, Except.bind_eq_ok, Except.pure_eq_ok] at hrun
  obtain ⟨r, _, rfl⟩ := hrun
  refine (Function.update_of_ne (hblock ▸ hc.ne) _ _).trans ?_
  exact (Cpu.function_create_of_ne _ _ hc.ne).trans hopen

theorem Cpu.Lifts.fresh (hc : c.insertPoint < c.numBlocks) (h : c.Lifts c') (hfresh : c.Fresh) :
    c'.Fresh := by
  intro b hb
  have hlt : c.numBlocks < b := (h.numBlocks ▸ hb :)
  rw [h.others b (hc.trans hlt).ne' hlt.ne']
  exact hfresh b hlt.le

theorem Cpu.Lifts.extends (h : c.Lifts c') (hfresh : c.Fresh)
    (hstraight : Straight (c.function c.insertPoint).insts) : c.function.Extends c'.function := by
  intro b hb
  refine h.others b ?_ ?_
  · rintro rfl
    exact hb hstraight
  · rintro rfl
    exact hb (hfresh _ (Nat.le_refl _))

theorem Cpu.GoesOn.fresh (hc : c.insertPoint < c.numBlocks) (h : c.GoesOn c') (hfresh : c.Fresh) :
    c'.Fresh := by
  intro b hb
  rw [h.numBlocks] at hb
  rw [h.others b (hc.trans_le hb).ne']
  exact hfresh b hb

theorem Cpu.GoesOn.extends (h : c.GoesOn c') (hstraight : Straight (c.function c.insertPoint).insts) :
    c.function.Extends c'.function := by
  intro b hb
  refine h.others b ?_
  rintro rfl
  exact hb hstraight

theorem Cpu.Forks.fresh (hc : c.insertPoint < c.numBlocks) (h : c.Forks c') (hfresh : c.Fresh) :
    c'.Fresh := by
  intro b hb
  have hlt : c.numBlocks + 1 < b := (h.numBlocks ▸ hb :)
  have hlt' : c.numBlocks < b := (Nat.lt_succ_self _).trans hlt
  rw [h.others b (hc.trans hlt').ne' hlt'.ne' hlt.ne']
  exact hfresh b hlt'.le

theorem Cpu.Forks.extends (h : c.Forks c') (hfresh : c.Fresh)
    (hstraight : Straight (c.function c.insertPoint).insts) : c.function.Extends c'.function := by
  intro b hb
  refine h.others b ?_ ?_ ?_
  · rintro rfl
    exact hb hstraight
  · rintro rfl
    exact hb (hfresh _ (Nat.le_refl _))
  · rintro rfl
    exact hb (hfresh _ (Nat.le_succ _))

end Vexa
