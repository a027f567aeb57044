import Vexa.ConditionalMove

/-!
# Conditional moves that are entered again

A block with a conditional move may be entered in states other than those of the path it was lifted on,
so what the symbolic state denotes is no help. But the split is one of the code: the clones compute what
was stored on their side, and the store of the choice could as well come last.

## What is asked of remill

The store of the choice is searched for from the end of the block. `Machine.StoresMovesLast` says that
remill puts the choice into a register, and that nothing behind this store accesses memory.

## Main definitions

* `cloneAll` — the clones that `materialize` makes
* `Cpu.MoveRun` — a run of a block whose store of a choice could come last
* `Cpu.TwoSides` — the lifter with the clones for both sides
* `Machine.StoresMovesLast`

## Main results

* `cloneAll_eval` — the clones compute the wrapped value of one side
* `Lowers.findConditionalMove` — the emulator leaves a conditional move in its place
* `Cpu.MoveRun.forked` — the fork goes on at both sides
-/

namespace Vexa

/-! ### Clones -/

/-- A cast, or an `and` whose second operand is no clone. -/
def Inst.IsWrapper (side : ℕ) : Inst Name → Prop
  | .cast .. => True
  | .binary _ .and _ _ b => b.Outside side
  | _ => False

/-- The clones for a side, and the value they end in. -/
def cloneAll (side : ℕ) : List (Inst Name) → Operand Name → List (Inst Name) × Operand Name
  | [], value => ([], value)
  | wrapper :: wrappers, value =>
    let cloned := cloneWrapper side value wrapper
    let rest := cloneAll side wrappers (.ssa cloned.1)
    (cloned.2 :: rest.1, rest.2)

section

variable {side : ℕ} {wrapper : Inst Name} {wrappers : List (Inst Name)} {value : Operand Name}
  {s : IrState Name} {env : Name → ℕ}

theorem cloneWrapper_part (side : ℕ) (value : Operand Name) (wrapper : Inst Name) :
    (cloneWrapper side value wrapper).1.part = (0, side) := by
  cases wrapper <;> rfl

namespace Inst.IsWrapper

theorem not_terminator (h : wrapper.IsWrapper side) : wrapper.isTerminator = false := by
  cases wrapper <;> first | rfl | exact h.elim

theorem computes (h : wrapper.IsWrapper side) (value : Operand Name) :
    (cloneWrapper side value wrapper).2.Computes := by
  cases wrapper with
  | cast | binary => trivial
  | _ => exact h.elim

theorem exec_clone (h : wrapper.IsWrapper side) (value : Operand Name) (s : IrState Name) :
    (cloneWrapper side value wrapper).2.exec s
      = s.set (cloneWrapper side value wrapper).1 (wrapper.rewrap s.env (value.eval s.env)) := by
  cases wrapper with
  | cast | binary => rfl
  | _ => exact h.elim

theorem rewrap_congr (h : wrapper.IsWrapper side)
    (henv : ∀ a : Operand Name, a.Outside side → a.eval s.env = a.eval env) (x : ℕ) :
    wrapper.rewrap s.env x = wrapper.rewrap env x := by
  cases wrapper with
  | cast => rfl
  | binary dst op w a b =>
    cases op with
    | and => exact congrArg (Opcode.eval .and w x) (henv b h)
    | _ => exact h.elim
  | _ => exact h.elim

/-- Other names keep their value. -/
theorem eval_clone (h : wrapper.IsWrapper side) (value : Operand Name) {a : Operand Name}
    (ha : a.Outside side) :
    a.eval ((cloneWrapper side value wrapper).2.exec s).env = a.eval s.env := by
  rw [h.exec_clone]
  cases a with
  | const => rfl
  | ssa name =>
    refine Function.update_of_ne ?_ ..
    rintro rfl
    exact ha (cloneWrapper_part side value wrapper)

end Inst.IsWrapper

theorem cloneAll_computes : ∀ {wrappers : List (Inst Name)} (value : Operand Name),
    (∀ i ∈ wrappers, i.IsWrapper side) → ∀ i ∈ (cloneAll side wrappers value).1, i.Computes
  | [], _, _ => nofun
  | _ :: _, value, h => by
    obtain ⟨hwrapper, hwrappers⟩ := List.forall_mem_cons.mp h
    exact List.forall_mem_cons.mpr ⟨hwrapper.computes value, cloneAll_computes _ hwrappers⟩

theorem cloneAll_from (side : ℕ) : ∀ (wrappers : List (Inst Name)) (value : Operand Name),
    (cloneAll side wrappers value).2 = value ∨ ¬ (cloneAll side wrappers value).2.Outside side
  | [], _ => .inl rfl
  | wrapper :: wrappers, value => by
    rcases cloneAll_from side wrappers (.ssa (cloneWrapper side value wrapper).1) with h | h
    · refine .inr fun hout => ?_
      have hout : (cloneAll side wrappers (.ssa (cloneWrapper side value wrapper).1)).2.Outside side := hout
      rw [h] at hout
      exact hout (cloneWrapper_part side value wrapper)
    · exact .inr h

/-- The clones only define names of their side. -/
theorem cloneAll_frame : ∀ {wrappers : List (Inst Name)} {value : Operand Name} {s : IrState Name},
    (∀ i ∈ wrappers, i.IsWrapper side) → ∀ a : Operand Name, a.Outside side →
      a.eval (execAll (cloneAll side wrappers value).1 s).env = a.eval s.env
  | [], _, _, _, _, _ => rfl
  | _ :: _, value, s, h, a, ha => by
    obtain ⟨hwrapper, hwrappers⟩ := List.forall_mem_cons.mp h
    exact (cloneAll_frame hwrappers a ha).trans (hwrapper.eval_clone value ha)

/-- **The clones for a side** compute the value of that side, wrapped. -/
theorem cloneAll_eval : ∀ {wrappers : List (Inst Name)} {value : Operand Name} {s : IrState Name},
    (∀ i ∈ wrappers, i.IsWrapper side) →
    (∀ a : Operand Name, a.Outside side → a.eval s.env = a.eval env) →
      (cloneAll side wrappers value).2.eval (execAll (cloneAll side wrappers value).1 s).env
        = wrappers.foldl (Inst.rewrap env) (value.eval s.env)
  | [], _, _, _, _ => rfl
  | wrapper :: wrappers, value, s, h, henv => by
    obtain ⟨hwrapper, hwrappers⟩ := List.forall_mem_cons.mp h
    let clone := cloneWrapper side value wrapper
    have henv' : ∀ a : Operand Name, a.Outside side → a.eval (clone.2.exec s).env = a.eval env :=
      fun a ha => (hwrapper.eval_clone value ha).trans (henv a ha)
    have hclone : (Operand.ssa clone.1).eval (clone.2.exec s).env
        = wrapper.rewrap env (value.eval s.env) := by
      rw [hwrapper.exec_clone, ← hwrapper.rewrap_congr henv]
      exact Function.update_self ..
    calc (cloneAll side wrappers (.ssa clone.1)).2.eval
          (execAll (cloneAll side wrappers (.ssa clone.1)).1 (clone.2.exec s)).env
      _ = wrappers.foldl (Inst.rewrap env) ((Operand.ssa clone.1).eval (clone.2.exec s).env) :=
        cloneAll_eval hwrappers henv'
      _ = _ := by rw [hclone, List.foldl_cons]

end

variable {M : Machine} {c c' c₂ : Cpu} {side : ℕ}

/-- `materialize` puts the clones at the end of the current block. -/
theorem materialize_eq : ∀ {wrappers : List (Inst Name)} {value : Operand Name} {c : Cpu}
    {r : Operand Name × Cpu}, (∀ i ∈ wrappers, i.IsWrapper side) →
      materialize M side wrappers value c = .ok r →
      r.1 = (cloneAll side wrappers value).2 ∧ c.GoesOn r.2 ∧ r.2.toDelete = c.toDelete ∧
      r.2.function c.insertPoint = { c.function c.insertPoint with
        insts := (c.function c.insertPoint).insts ++ (cloneAll side wrappers value).1 }
  | [], value, c, r, _, hrun => by
    obtain rfl := Except.ok.inj hrun
    exact ⟨rfl, .refl c, rfl, by rw [cloneAll, List.append_nil]⟩
  | wrapper :: wrappers, value, c, r, h, hrun => by
    obtain ⟨hwrapper, hwrappers⟩ := List.forall_mem_cons.mp h
    simp only [materialize, Except.bind_eq_ok] at hrun
    obtain ⟨c₁, hexec, hrun⟩ := hrun
    have hgoes := Cpu.exec_goesOn hexec (hwrapper.computes value).not_terminator
    obtain ⟨hresult, hgoes', hdelete, hfunction⟩ := materialize_eq hwrappers hrun
    obtain ⟨x, -, rfl⟩ := Cpu.exec_eq hexec
    refine ⟨hresult, hgoes.trans hgoes', hdelete, hfunction.trans ?_⟩
    show ({ (c.create _).function c.insertPoint with
      insts := ((c.create _).function c.insertPoint).insts ++ _ } : BasicBlock) = _
    rw [Cpu.function_create_self, cloneAll, List.append_assoc]
    rfl

/-! ### A run of the block -/

/-- What is stored is a choice, wrapped, and no part of it is a clone. -/
structure ConditionalMove.Chooses (move : ConditionalMove) (stored : ℕ) (t : IrState Name) : Prop where
  operands : ∀ a ∈ [move.condition, move.trueValue, move.falseValue], a.Outside 3 ∧ a.Outside 4
  wrappers : ∀ i ∈ move.wrappers.reverse, i.IsWrapper 3 ∧ i.IsWrapper 4
  stored : stored = move.wrappers.reverse.foldl (Inst.rewrap t.env)
    (if move.condition.eval t.env = 1 then move.trueValue.eval t.env else move.falseValue.eval t.env)

/-- A run of the current block from `t₀`: it stores a choice to a register, and the store could as well
come last. -/
structure Cpu.MoveRun (c : Cpu) (move : ConditionalMove) (value : Operand Name)
    (front rest : List (Inst Name)) (t₀ : IrState Name) : Prop where
  code : c.code = front ++ .store move.width value move.ptr :: rest
  position : front.length = move.position
  register : move.ptr.Loadable
  chooses : move.Chooses (value.eval (execAll c.code t₀).env) (execAll c.code t₀)
  last : execAll c.code t₀ = (execAll (front ++ rest) t₀).store (move.ptr.place t₀.env)
    (move.width / 8) (value.eval (execAll c.code t₀).env)

/-- `c'` is `c` with the clones for both sides, `trueVal` and `falseVal`: on its side each is what was
stored. -/
structure Cpu.TwoSides (c c' : Cpu) (move : ConditionalMove) (stored : ℕ)
    (trueVal falseVal : Operand Name) (t : IrState Name) (clones : List (Inst Name)) : Prop where
  computes : ∀ i ∈ clones, i.Computes
  goesOn : c.GoesOn c'
  toDelete : c'.toDelete = c.toDelete
  function : c'.function c.insertPoint = { c.function c.insertPoint with insts := c.code ++ clones }
  condition : move.condition.eval (execAll clones t).env = move.condition.eval t.env
  ifTrue : move.condition.eval t.env = 1 → trueVal.eval (execAll clones t).env = stored
  ifFalse : move.condition.eval t.env ≠ 1 → falseVal.eval (execAll clones t).env = stored

variable {move : ConditionalMove} {value trueVal falseVal : Operand Name} {stored : ℕ}
  {front rest clones : List (Inst Name)} {s t t₀ u : IrState Name}

theorem ConditionalMove.Chooses.sides (h : move.Chooses stored t)
    {trueVal falseVal : Operand Name × Cpu}
    (htrue : materialize M 3 move.wrappers.reverse move.trueValue c = .ok trueVal)
    (hfalse : materialize M 4 move.wrappers.reverse move.falseValue trueVal.2 = .ok falseVal) :
    c.TwoSides falseVal.2 move stored trueVal.1 falseVal.1 t
      ((cloneAll 3 move.wrappers.reverse move.trueValue).1 ++
        (cloneAll 4 move.wrappers.reverse move.falseValue).1) := by
  have hwrappers₃ : ∀ i ∈ move.wrappers.reverse, i.IsWrapper 3 := fun i hi => (h.wrappers i hi).1
  have hwrappers₄ : ∀ i ∈ move.wrappers.reverse, i.IsWrapper 4 := fun i hi => (h.wrappers i hi).2
  obtain ⟨hcond, htrueValue, hfalseValue⟩ : (move.condition.Outside 3 ∧ move.condition.Outside 4) ∧
      (move.trueValue.Outside 3 ∧ move.trueValue.Outside 4) ∧
      move.falseValue.Outside 3 ∧ move.falseValue.Outside 4 := by simpa using h.operands
  obtain ⟨htrueVal, hgoes₃, hdelete₃, hfunction₃⟩ := materialize_eq hwrappers₃ htrue
  obtain ⟨hfalseVal, hgoes₄, hdelete₄, hfunction₄⟩ := materialize_eq hwrappers₄ hfalse
  set clones₃ := (cloneAll 3 move.wrappers.reverse move.trueValue).1
  set clones₄ := (cloneAll 4 move.wrappers.reverse move.falseValue).1
  -- the clones of one side are no clones of the other
  have houtside : trueVal.1.Outside 4 := by
    rw [htrueVal]
    rcases cloneAll_from 3 move.wrappers.reverse move.trueValue with hfrom | hfrom
    · rw [hfrom]
      exact htrueValue.2
    · cases hval : (cloneAll 3 move.wrappers.reverse move.trueValue).2 with
      | const => trivial
      | ssa name =>
        rw [hval] at hfrom
        have hpart : name.part = (0, 3) := not_not.mp hfrom
        show name.part ≠ (0, 4)
        rw [hpart]
        decide
  have hframe₄ : ∀ a : Operand Name, a.Outside 4 →
      a.eval (execAll (clones₃ ++ clones₄) t).env = a.eval (execAll clones₃ t).env := by
    intro a ha
    rw [execAll_append]
    exact cloneAll_frame hwrappers₄ a ha
  refine ⟨fun i hi => ?_, hgoes₃.trans hgoes₄, hdelete₄.trans hdelete₃, ?_, ?_, fun hone => ?_,
    fun hone => ?_⟩
  · exact (List.mem_append.mp hi).elim (cloneAll_computes _ hwrappers₃ i) (cloneAll_computes _ hwrappers₄ i)
  · rw [hgoes₃.insertPoint] at hfunction₄
    rw [hfunction₄, hfunction₃, List.append_assoc, Cpu.code]
  · rw [hframe₄ _ hcond.2]
    exact cloneAll_frame hwrappers₃ _ hcond.1
  · rw [hframe₄ _ houtside, htrueVal, h.stored, if_pos hone]
    exact cloneAll_eval hwrappers₃ fun _ _ => rfl
  · have hsame : ∀ a : Operand Name, a.Outside 3 → a.eval (execAll clones₃ t).env = a.eval t.env :=
      fun a ha => cloneAll_frame hwrappers₃ a ha
    have hfold : (cloneAll 4 move.wrappers.reverse move.falseValue).2.eval
        (execAll clones₄ (execAll clones₃ t)).env
        = move.wrappers.reverse.foldl (Inst.rewrap (execAll clones₃ t).env)
          (move.falseValue.eval (execAll clones₃ t).env) :=
      cloneAll_eval hwrappers₄ fun _ _ => rfl
    rw [execAll_append, hfalseVal, h.stored, if_neg hone, ← hsame _ hfalseValue.1, hfold]
    exact List.foldl_ext _ _ _ fun x i hi => (hwrappers₃ i hi).rewrap_congr hsame x

/-! ### The fork -/

/-- A store of what was stored, behind the clones: the store of the choice is not needed. -/
theorem Cpu.MoveRun.store_last (h : c.MoveRun move value front rest s)
    (hclones : ∀ i ∈ clones, i.Computes) {val : Operand Name}
    (hval : val.eval (execAll clones (execAll c.code s)).env = value.eval (execAll c.code s).env) :
    ((Inst.store move.width val move.ptr).exec (execAll (front ++ rest ++ clones) s)).mem
      = (execAll c.code s).mem := by
  have henv : (execAll (front ++ rest) s).env = (execAll c.code s).env := by
    rw [h.last]
    rfl
  have hsame := (execAll_computes hclones henv).1
  have hmem := (execAll_computes hclones (s := execAll (front ++ rest) s) rfl).2
  rw [execAll_append, Inst.exec, IrState.mem_store, hmem, hsame, hval,
    h.register.place_congr _ s.env]
  conv_rhs => rw [h.last]
  rfl

/-- **A forked move** goes on at both sides, each with its own store. -/
theorem Cpu.MoveRun.forked (h : c.Entered s u) (hrun : c.MoveRun move value front rest s)
    (hsides : c.TwoSides c₂ move (value.eval u.env) trueVal falseVal u clones) {inst : Instruction}
    (hfork : ForkedMove M inst move trueVal falseVal c₂ c') :
    c.Leads { c' with pc := inst.nextPc } s inst.nextPc u.mem := by
  obtain rfl : execAll c.code s = u := h.exec
  obtain ⟨x, -, -, hpaths⟩ := hfork.symex
  have hc₂ := hsides.goesOn.building h.building
  have hinsert := hsides.goesOn.insertPoint
  have hself : c'.function c.insertPoint = { c.function c.insertPoint with
      insts := c.code ++ clones ++ [.condBr move.condition c₂.numBlocks (c₂.numBlocks + 1)] } := by
    have hfunction := hfork.self
    rw [hinsert, hsides.function] at hfunction
    exact hfunction
  have hdelete : c'.toDelete = c.toDelete ++ [(c.insertPoint, move.position)] := by
    rw [hfork.toDelete, hsides.toDelete, hinsert]
  -- the block branches to the side of the condition
  have hemitted : (c'.emitted c.insertPoint).insts = front ++ rest ++ clones ++
      [.condBr move.condition c₂.numBlocks (c₂.numBlocks + 1)] := by
    have hinsts : (c'.function c.insertPoint).insts = front ++ .store move.width value move.ptr ::
        (rest ++ clones ++ [.condBr move.condition c₂.numBlocks (c₂.numBlocks + 1)]) := by
      rw [hself, hrun.code]
      simp only [List.append_assoc, List.cons_append]
    rw [emitted_erase h.kept hdelete hinsts hrun.position]
    simp only [List.append_assoc]
  have hstraight : Straight (front ++ rest ++ clones) := by
    have hcode : Straight c.code := h.straight
    rw [hrun.code] at hcode
    obtain ⟨hfront, hrest⟩ := straight_append.mp hcode
    have hboth : Straight (front ++ rest) := straight_append.mpr ⟨hfront, (straight_cons.mp hrest).2⟩
    exact straight_append.mpr ⟨hboth, fun i hi => (hsides.computes i hi).not_terminator⟩
  set v := execAll (front ++ rest ++ clones) s
  have hcondition : move.condition.eval v.env = move.condition.eval (execAll c.code s).env := by
    have henv : (execAll (front ++ rest) s).env = (execAll c.code s).env := by
      rw [hrun.last]
      rfl
    rw [← hsides.condition, show v = execAll clones (execAll (front ++ rest) s) from execAll_append ..,
      (execAll_computes hsides.computes henv).1]
  have hbranch : execInsts (c'.emitted c.insertPoint).insts s = (v, some (.goto
      (if move.condition.eval (execAll c.code s).env = 1 then c₂.numBlocks else c₂.numBlocks + 1))) := by
    rw [hemitted, execInsts_append hstraight, ← hcondition]
    rfl
  -- the code of either side is its store, and its end is open
  have hside : ∀ {b : BlockId} {val : Operand Name}, c₂.insertPoint < b →
      c'.function b = ⟨none, [.store move.width val move.ptr], [], []⟩ →
      val.eval (execAll clones (execAll c.code s)).env = value.eval (execAll c.code s).env →
      (b, inst.nextPc) ∈ Cpu.leaves { c' with pc := inst.nextPc } →
      Arrives c'.emitted (Cpu.leaves { c' with pc := inst.nextPc }) c'.cfg inst.nextPc
        (execAll c.code s).mem (b, v) [] := by
    intro b val hlt hb hval hleaf
    have hkept : ∀ n, (b, n) ∉ c'.toDelete := by
      intro n hn
      rw [hdelete] at hn
      rcases List.mem_append.mp hn with hn | hn
      · exact absurd (h.kept _ hn) (Nat.not_lt.mpr (hinsert ▸ hlt.le))
      · exact hlt.ne' ((Prod.mk.inj (List.mem_singleton.mp hn)).1.trans hinsert.symm)
    have hblock : c'.emitted b = ⟨none, [.store move.width val move.ptr], [], []⟩ :=
      (Cpu.emitted_eq hkept).trans hb
    have hexec : execInsts (c'.emitted b).insts v = ((Inst.store move.width val move.ptr).exec v, none) := by
      rw [hblock]
      rfl
    have harrives : Arrives c'.emitted (Cpu.leaves { c' with pc := inst.nextPc }) c'.cfg inst.nextPc
        (execAll c.code s).mem (b, v) (c'.emitted b).pc.toList :=
      .leaf hleaf hexec (hrun.store_last hsides.computes hval)
    rwa [hblock] at harrives
  have hpcs : (c'.emitted c.insertPoint).pc.toList = (c.function c.insertPoint).pc.toList := by
    show (c'.function c.insertPoint).pc.toList = _
    rw [hself]
  show Arrives _ _ _ _ _ _ (c.function c.insertPoint).pc.toList
  rw [← hpcs, ← List.append_nil (c'.emitted c.insertPoint).pc.toList]
  refine .through hbranch ?_
  by_cases hone : move.condition.eval (execAll c.code s).env = 1
  · rw [if_pos hone]
    refine hside hc₂.lt hfork.ifTrue (hsides.ifTrue hone) ?_
    rw [← hfork.insertPoint]
    exact List.mem_cons_self ..
  · rw [if_neg hone]
    refine hside (Nat.lt_succ_of_lt hc₂.lt) hfork.ifFalse (hsides.ifFalse hone) ?_
    rw [Cpu.leaves, hpaths, List.map_cons]
    exact List.mem_cons_of_mem _ (List.mem_cons_self ..)

/-- No condition of a move is solved: the option is off, or the mode keeps both sides. -/
def Cpu.ForksMoves (M : Machine) (c : Cpu) : Prop := c.opaqueSolving = true → M.mode = .vcfgRecovery

theorem Cpu.ForksMoves.of_unsolved (h : c.opaqueSolving = false) : c.ForksMoves M := by
  intro hsolving
  rw [h] at hsolving
  cases hsolving

theorem Cpu.ForksMoves.solveMove {cond : Value} (h : c.ForksMoves M) (hsolving : c'.opaqueSolving
    = c.opaqueSolving) : Vexa.solveMove M cond c' = .ok (none, cond) := by
  rw [Vexa.solveMove, if_neg]
  · rfl
  · rw [hsolving]
    exact fun hboth => hboth.2 (h hboth.1)

/-- **A conditional move** whose condition is not solved. -/
theorem Cpu.Entered.conditionalMove (h : c.Entered s u) (hforks : c.ForksMoves M)
    (hfound : findConditionalMove c.code = some move) (hrun : c.MoveRun move value front rest s)
    {inst : Instruction} (hsplit : handleConditionalMoves M inst c = .ok c') :
    c.Leads { c' with pc := inst.nextPc } s inst.nextPc u.mem := by
  have hfound' : findConditionalMove (c.function c.insertPoint).insts = some move := hfound
  rw [handleConditionalMoves, h.building.block, hfound'] at hsplit
  simp only [Except.bind_eq_ok] at hsplit
  obtain ⟨cond, -, trueVal, htrue, falseVal, hfalse, ⟨verdict, v⟩, hverdict, hsplit⟩ := hsplit
  have hsides := hrun.chooses.sides htrue hfalse
  rw [hforks.solveMove ((materialize_extends htrue).trans (materialize_extends hfalse)).opaqueSolving]
    at hverdict
  obtain ⟨rfl, rfl⟩ := Prod.mk.inj (Except.ok.inj hverdict)
  have hinsert := hsides.goesOn.insertPoint
  simp only at hsplit
  rw [← hinsert] at hsplit
  obtain rfl : execAll c.code s = u := h.exec
  exact Cpu.MoveRun.forked h hrun hsides (forkMove_eq (hsides.goesOn.building h.building) hsplit)

/-! ### The move after lowering -/

section

variable {insts code tail : List (Inst Name)} {rs : List Resolution} {i : Inst Name}
  {name dst : Name} {size : ℕ} {addr : Operand Name} {r : Resolution}

theorem definition_cons (j : Inst Name) (insts : List (Inst Name)) (name : Name) :
    definition (j :: insts) name
      = if j.result.map Prod.fst = some name then some j else definition insts name := by
  rw [definition, List.find?_cons]
  split <;> simp_all [definition]

theorem definition_append_of_ne (insts : List (Inst Name))
    (h : ∀ i ∈ front, i.result.map Prod.fst ≠ some name) :
    definition (front ++ insts) name = definition insts name := by
  rw [definition, definition, List.find?_append, List.find?_eq_none.mpr, Option.none_or]
  intro i hi
  simpa using h i hi

/-- Loads that replace a read define its result and names made on the way. -/
theorem emitReads_result : ∀ {as : List Addr} {j : ℕ} {final : Operand Name},
    ∀ i ∈ emitReads dst size addr j final as, ∀ name w, i.result = some (name, w) →
      name = dst ∨ ∃ j k, name = dst.temp j k
  | a :: as, j, final, i, hi, name, w, hres => by
    rw [emitReads] at hi
    rcases List.mem_append.mp hi with hi | hi
    · simp only [List.mem_cons, List.not_mem_nil, or_false] at hi
      rcases hi with rfl | rfl | rfl
      · exact .inr ⟨j, 1, (Prod.mk.inj (Option.some.inj hres)).1.symm⟩
      · exact .inr ⟨j, 2, (Prod.mk.inj (Option.some.inj hres)).1.symm⟩
      · have hname := (Prod.mk.inj (Option.some.inj hres)).1
        split at hname
        · exact .inl hname.symm
        · exact .inr ⟨j, 3, hname.symm⟩
    · exact emitReads_result i hi name w hres

theorem Resolution.lowerRead_result : ∀ i ∈ r.lowerRead dst size addr, ∀ name w,
    i.result = some (name, w) → name = dst ∨ ∃ j k, name = dst.temp j k := by
  intro i hi name w hres
  cases r with
  | literal a | unresolved =>
    obtain rfl := List.mem_singleton.mp hi
    exact .inl (Prod.mk.inj (Option.some.inj hres)).1.symm
  | among as =>
    cases as with
    | nil => cases hi
    | cons a as =>
      rcases List.mem_cons.mp hi with rfl | hi
      · exact .inr ⟨0, 1, (Prod.mk.inj (Option.some.inj hres)).1.symm⟩
      · exact emitReads_result i hi name w hres

/-- Stores that replace a write define names made on the way. -/
theorem emitWrites_result : ∀ {as : List Addr} {j : ℕ},
    ∀ i ∈ emitWrites dst size addr value j as, ∀ name w, i.result = some (name, w) →
      ∃ j k, name = dst.temp j k
  | a :: as, j, i, hi, name, w, hres => by
    rw [emitWrites] at hi
    rcases List.mem_append.mp hi with hi | hi
    · simp only [List.mem_cons, List.not_mem_nil, or_false] at hi
      rcases hi with rfl | rfl | rfl | rfl
      · exact ⟨j, 1, (Prod.mk.inj (Option.some.inj hres)).1.symm⟩
      · exact ⟨j, 2, (Prod.mk.inj (Option.some.inj hres)).1.symm⟩
      · exact ⟨j, 3, (Prod.mk.inj (Option.some.inj hres)).1.symm⟩
      · cases hres
    · exact emitWrites_result i hi name w hres

theorem Resolution.lowerWrite_result : ∀ i ∈ r.lowerWrite dst size addr value, ∀ name w,
    i.result = some (name, w) → ∃ j k, name = dst.temp j k := by
  intro i hi name w hres
  cases r with
  | literal a | unresolved =>
    obtain rfl := List.mem_singleton.mp hi
    cases hres
  | among as => exact emitWrites_result i hi name w hres

/-- The definition of a lifted name is kept, unless it is an access. -/
theorem Lowers.definition (h : Lowers insts rs code) (hname : name.Lifted) (hi : i.address = none)
    (hdef : definition insts name = some i) : Vexa.definition code name = some i := by
  induction h with
  | nil => cases hdef
  | plain _ _ _ ih =>
    rw [definition_cons] at hdef ⊢
    split at hdef
    · next heq => rw [if_pos heq, hdef]
    · next hne => rw [if_neg hne, ih hdef]
  | read _ _ ih =>
    rw [definition_cons] at hdef
    split at hdef
    · obtain rfl := Option.some.inj hdef
      cases hi
    · next hne =>
      rw [definition_append_of_ne _ fun j hj heq => ?_]
      · exact ih hdef
      · obtain ⟨⟨name', w⟩, hres, rfl⟩ := Option.map_eq_some_iff.mp heq
        rcases Resolution.lowerRead_result j hj _ w hres with rfl | ⟨j', k, rfl⟩
        · exact hne rfl
        · exact absurd rfl (hname.ne_temp j' k)
  | write _ ih =>
    rw [definition_cons, if_neg nofun] at hdef
    rw [definition_append_of_ne _ fun j hj heq => ?_]
    · exact ih hdef
    · obtain ⟨⟨name', w⟩, hres, rfl⟩ := Option.map_eq_some_iff.mp heq
      obtain ⟨j', k, rfl⟩ := Resolution.lowerWrite_result j hj _ w hres
      exact absurd rfl (hname.ne_temp j' k)

theorem LiftedCode.definition (h : LiftedCode insts) (hdef : definition insts name = some i) :
    name.Lifted := by
  obtain ⟨hmem, hres⟩ := definition_mem hdef
  obtain ⟨⟨name', w⟩, hres', rfl⟩ := Option.map_eq_some_iff.mp hres
  exact h i hmem name' w hres'

/-- The choice behind casts is kept. -/
theorem Lowers.peelSelect (h : Lowers insts rs code) (hinsts : LiftedCode insts) :
    ∀ {fuel fuel' : ℕ} {value : Operand Name} {r : Inst Name × List (Inst Name)}, fuel ≤ fuel' →
      peelSelect insts fuel value = some r → Vexa.peelSelect code fuel' value = some r
  | 0, _, _, _, _, hpeel => by simp [Vexa.peelSelect] at hpeel
  | fuel + 1, _, .const .., _, _, hpeel => by simp [Vexa.peelSelect] at hpeel
  | fuel + 1, 0, .ssa name, r, hle, _ => absurd hle (Nat.not_succ_le_zero fuel)
  | fuel + 1, fuel' + 1, .ssa name, r, hle, hpeel => by
    rw [Vexa.peelSelect] at hpeel ⊢
    split at hpeel
    · next hdef => rw [h.definition (hinsts.definition hdef) rfl hdef, ← hpeel]
    · next hdef =>
      obtain ⟨r', hr', rfl⟩ := Option.map_eq_some_iff.mp hpeel
      simp only [h.definition (hinsts.definition hdef) rfl hdef,
        h.peelSelect hinsts (Nat.le_of_succ_le_succ hle) hr', Option.map_some]
    · next hdef =>
      obtain ⟨r', hr', rfl⟩ := Option.map_eq_some_iff.mp hpeel
      simp only [h.definition (hinsts.definition hdef) rfl hdef,
        h.peelSelect hinsts (Nat.le_of_succ_le_succ hle) hr', Option.map_some]
    · cases hpeel

theorem Lowers.of_computes (h : Lowers insts rs code) (hinsts : ∀ i ∈ insts, i.Computes) :
    code = insts := by
  induction h with
  | nil => rfl
  | plain _ _ _ ih => rw [ih fun i hi => hinsts i (List.mem_cons_of_mem _ hi)]
  | read _ _ _ => exact (hinsts _ (List.mem_cons_self ..)).elim
  | write _ _ => exact (hinsts _ (List.mem_cons_self ..)).elim

/-- An instruction behind which nothing is lowered. -/
theorem Lowers.split : ∀ {front : List (Inst Name)} {rs : List Resolution} {code : List (Inst Name)},
    Lowers (front ++ i :: tail) rs code → i.address = none → (∀ j ∈ tail, j.Computes) →
      ∃ front', code = front' ++ i :: tail
  | [], rs, code, h, hi, htail => by
    cases h with
    | plain _ _ hrest => exact ⟨[], by rw [hrest.of_computes htail]; rfl⟩
    | read _ _ => cases hi
    | write _ => cases hi
  | j :: front, rs, code, h, hi, htail => by
    cases h with
    | plain _ _ hrest =>
      obtain ⟨front', rfl⟩ := hrest.split hi htail
      exact ⟨j :: front', rfl⟩
    | read _ hrest =>
      obtain ⟨front', rfl⟩ := hrest.split hi htail
      exact ⟨_, (List.append_assoc ..).symm⟩
    | write hrest =>
      obtain ⟨front', rfl⟩ := hrest.split hi htail
      exact ⟨_, (List.append_assoc ..).symm⟩

/-- An access is replaced by one instruction at least. -/
theorem Resolution.Proper.length_pos (h : r.Proper) :
    0 < (r.lowerRead dst size addr).length ∧ 0 < (r.lowerWrite dst size addr value).length := by
  cases r with
  | literal a | unresolved => exact ⟨Nat.one_pos, Nat.one_pos⟩
  | among as =>
    cases as with
    | nil => exact absurd h (Nat.not_lt_zero _)
    | cons a as => exact ⟨Nat.succ_pos _, Nat.succ_pos _⟩

/-- The emulator does not shorten a block. -/
theorem runBlock_length {S : Solver} {A : List Term} : ∀ {insts : List (Inst Name)} {s : Symex}
    {r : Emitted × Symex}, runBlock S A insts s = .ok r → insts.length ≤ r.1.insts.length
  | [], _, _, _ => Nat.zero_le _
  | i :: insts, s, r, h => by
    rw [runBlock] at h
    have happend : ∀ {first rest : Emitted}, 0 < first.insts.length →
        insts.length ≤ rest.insts.length → (i :: insts).length ≤ (first.append rest).insts.length := by
      intro first rest hfirst hrest
      rw [Emitted.append, List.length_append, List.length_cons]
      omega
    split at h
    · simp only [Except.bind_eq_ok, Except.pure_eq_ok] at h
      obtain ⟨rest, hrest, rfl⟩ := h
      exact happend Nat.one_pos (runBlock_length hrest)
    · simp only [Except.bind_eq_ok, Except.pure_eq_ok] at h
      obtain ⟨first, hfirst, rest, hrest, rfl⟩ := h
      refine happend ?_ (runBlock_length hrest)
      cases i with
      | readMemory dst size a =>
        simp only [Emulator.run, Except.bind_eq_ok, Except.pure_eq_ok] at hfirst
        obtain ⟨read, hread, rfl⟩ := hfirst
        have hlength : ∀ value, 0 < (Resolution.lowerRead dst size a read.1).length ∧
            0 < (Resolution.lowerWrite dst size a value read.1).length := fun _ =>
          (readMemoryIntrinsic_proper hread).length_pos
        exact (hlength a).1
      | writeMemory dst size a v =>
        simp only [Emulator.run, Except.bind_eq_ok, Except.pure_eq_ok] at hfirst
        obtain ⟨write, hwrite, rfl⟩ := hfirst
        exact (writeMemoryIntrinsic_proper hwrite).length_pos.2
      | _ =>
        simp only [Emulator.run, Except.bind_eq_ok, Except.pure_eq_ok] at hfirst
        obtain ⟨_, _, rfl⟩ := hfirst
        exact Nat.one_pos

/-- A store of a choice with only computations behind it is the move that is found. -/
theorem findConditionalMove_of_last {w w' : ℕ} {ptr : Ptr Name} {c a b : Operand Name}
    {wrappers : List (Inst Name)} (hcode : code = front ++ .store w value ptr :: tail)
    (htail : ∀ i ∈ tail, i.Computes)
    (hpeel : peelSelect code code.length value = some (.select dst w' c a b, wrappers)) :
    findConditionalMove code = some ⟨front.length, w, ptr, c, a, b, wrappers⟩ := by
  have hzip : code.zipIdx.reverse = (tail.zipIdx (front.length + 1)).reverse ++
      ((.store w value ptr, front.length) :: front.zipIdx.reverse) := by
    rw [hcode, List.zipIdx_append, List.reverse_append, List.zipIdx_cons, List.reverse_cons,
      List.append_assoc, Nat.zero_add]
    rfl
  rw [findConditionalMove, hzip, List.findSome?_append, List.findSome?_eq_none_iff.mpr,
    Option.none_or, List.findSome?_cons]
  · simp only [hpeel]
  · rintro ⟨i, n⟩ hmem
    have hi := htail i (List.fst_mem_of_mem_zipIdx (List.mem_reverse.mp hmem))
    cases i <;> first | rfl | exact hi.elim

/-- Remill stores the result of a conditional move last: nothing behind the store of a choice accesses
memory. -/
def Machine.StoresMovesLast (M : Machine) : Prop := ∀ inst semantics,
  M.liftIntoBlock inst = some semantics → inst.category = .normal → inst.function.startsWith "CMOV" →
    ∀ b pc, ∃ move, findConditionalMove (semantics.inBlock b pc) = some move ∧
      ∀ i ∈ (semantics.inBlock b pc).drop (move.position + 1), i.Computes

/-- **The emulator leaves a conditional move in its place.** -/
theorem Lowers.findConditionalMove (h : Lowers insts rs code) (hinsts : LiftedCode insts)
    (hlen : insts.length ≤ code.length) {move : ConditionalMove}
    (hmove : Vexa.findConditionalMove insts = some move)
    (htail : ∀ i ∈ insts.drop (move.position + 1), i.Computes) :
    ∃ front front' value dst w,
      insts = front ++ .store move.width value move.ptr :: insts.drop (move.position + 1) ∧
      code = front' ++ .store move.width value move.ptr :: insts.drop (move.position + 1) ∧
      Vexa.peelSelect insts insts.length value
        = some (.select dst w move.condition move.trueValue move.falseValue, move.wrappers) ∧
      Vexa.findConditionalMove code = some { move with position := front'.length } := by
  obtain ⟨value, dst, w, hget, hpeel⟩ := findConditionalMove_eq hmove
  have hsplit : insts = insts.take move.position ++
      .store move.width value move.ptr :: insts.drop (move.position + 1) := by
    obtain ⟨hlt, heq⟩ := List.getElem?_eq_some_iff.mp hget
    rw [← heq, List.cons_getElem_drop_succ, List.take_append_drop]
  obtain ⟨front', hcode⟩ := (hsplit ▸ h : Lowers (insts.take move.position ++
    .store move.width value move.ptr :: insts.drop (move.position + 1)) rs code).split rfl htail
  exact ⟨_, front', value, dst, w, hsplit, hcode, hpeel,
    findConditionalMove_of_last hcode htail (h.peelSelect hinsts hlen hpeel)⟩

end

section

variable {types : Types Name} {env env' : Name → ℕ} {x w w₀ : ℕ}

/-- What is around a choice is made of casts and `and`s, with operands of the block. -/
theorem Wraps.isWrapper (hside : ∀ (a : Operand Name) w, a.width types = some w → a.Outside side) :
    ∀ {is : List (Inst Name)} {w : ℕ}, Wraps types is w w₀ → ∀ i ∈ is, i.IsWrapper side
  | [], _, _ => nofun
  | .cast .. :: _, _, h => List.forall_mem_cons.mpr ⟨trivial, Wraps.isWrapper hside h.2.2⟩
  | .binary _ .and _ _ b :: _, _, h =>
    List.forall_mem_cons.mpr ⟨hside b _ h.2.2.1, Wraps.isWrapper hside h.2.2.2⟩

theorem Wraps.foldl_congr
    (henv : ∀ (a : Operand Name) w, a.width types = some w → a.eval env = a.eval env') :
    ∀ {is : List (Inst Name)} {w x : ℕ}, Wraps types is w w₀ →
      is.foldl (Inst.rewrap env) x = is.foldl (Inst.rewrap env') x
  | [], _, _, _ => rfl
  | .cast _ op src v _ :: is, _, x, h => by
    rw [List.foldl_cons, List.foldl_cons]
    exact Wraps.foldl_congr (x := op.eval src v x) henv h.2.2
  | .binary _ .and v _ b :: is, _, x, h => by
    have hfirst : Opcode.eval .and v x (b.eval env) = Opcode.eval .and v x (b.eval env') := by
      rw [henv b _ h.2.2.1]
    rw [List.foldl_cons, List.foldl_cons]
    show is.foldl (Inst.rewrap env) (Opcode.eval .and v x (b.eval env)) = _
    rw [hfirst]
    exact Wraps.foldl_congr henv h.2.2.2

end

/-- Behind a store there are only computations. -/
theorem execAll_store_computes {place : PageId × Addr} {k n : ℕ} : ∀ {insts : List (Inst Name)}
    {s : IrState Name}, (∀ i ∈ insts, i.Computes) →
    execAll insts (s.store place k n) = (execAll insts s).store place k n
  | [], _, _ => rfl
  | i :: insts, s, h => by
    obtain ⟨hi, hinsts⟩ := List.forall_mem_cons.mp h
    have hstep : i.exec (s.store place k n) = (i.exec s).store place k n := by
      cases i with
      | binary | icmp | cast | select | freeze => rfl
      | _ => exact hi.elim
    rw [execAll_cons, execAll_cons, hstep]
    exact execAll_store_computes hinsts

/-- **A run of the emitted code** in which every access goes where it was made for. -/
theorem Lowers.moveRun {semantics : Semantics} {b : BlockId} {pc : Addr} {rs : List Resolution}
    (h : Lowers (semantics.inBlock b pc) rs c.code)
    (hlen : (semantics.inBlock b pc).length ≤ c.code.length)
    (hcovered : Covered semantics.insts rs (Semantics.entry pc s.mem))
    (hmove : Vexa.findConditionalMove (semantics.inBlock b pc) = some move)
    (htail : ∀ i ∈ (semantics.inBlock b pc).drop (move.position + 1), i.Computes) :
    ∃ move' value front rest, Vexa.findConditionalMove c.code = some move' ∧
      c.MoveRun move' value front rest s := by
  obtain ⟨front, front', value, dst, w, hinsts, hcode, hpeel, hfound⟩ :=
    h.findConditionalMove (semantics.inBlock_lifted b pc) hlen hmove htail
  set insts := semantics.inBlock b pc
  set rest := insts.drop (move.position + 1)
  have htyped : Scoped (fun _ => none) insts := (semantics.inBlock_typed b pc).scoped
  set types := finalTypes (fun _ => none) insts
  have hmem : Inst.store move.width value move.ptr ∈ insts := by
    rw [hinsts]
    exact List.mem_append_right _ (List.mem_cons_self ..)
  obtain ⟨-, hvalue, hptr⟩ := ((semantics.inBlock_typed b pc).final _ hmem).1
  obtain ⟨dst', w', cond, x, y, hselect, hc, hx, hy, hwraps, heval⟩ :=
    peelSelect_wraps s htyped rfl hvalue hpeel
  obtain ⟨rfl, rfl, rfl, rfl, rfl⟩ : dst = dst' ∧ w = w' ∧ move.condition = cond ∧
      move.trueValue = x ∧ move.falseValue = y := by simpa using hselect
  -- the names of the lifted code have the same values in the emitted code
  have hagrees := (h.effect s hcovered).1
  have hsame : ∀ (a : Operand Name) w, a.width types = some w →
      a.eval (execAll insts s).env = a.eval (execAll c.code s).env :=
    fun a w ha => (hagrees.operand ha).symm
  have houtside : ∀ {side : ℕ}, side ≠ 0 → ∀ (a : Operand Name) w, a.width types = some w →
      a.Outside side := by
    intro side hside a w ha
    cases a with
    | const => trivial
    | ssa name =>
      have hname : semantics.types b pc name = some w := ha
      obtain ⟨n, rfl⟩ := Semantics.types_lifted hname
      exact fun heq => hside (Prod.mk.inj heq).2.symm
  refine ⟨_, value, front', rest, hfound, hcode, rfl, (Renamed.loadable_of_storable hptr), ?_, ?_⟩
  · refine ⟨fun a ha => ?_, fun i hi => ?_, ?_⟩
    · have hwidth : ∃ w, a.width types = some w := by
        simp only [List.mem_cons, List.not_mem_nil, or_false] at ha
        rcases ha with rfl | rfl | rfl
        · exact ⟨_, hc⟩
        · exact ⟨_, hx⟩
        · exact ⟨_, hy⟩
      obtain ⟨w, hw⟩ := hwidth
      exact ⟨houtside (by decide) a w hw, houtside (by decide) a w hw⟩
    · exact ⟨hwraps.isWrapper (houtside (by decide)) i hi, hwraps.isWrapper (houtside (by decide)) i hi⟩
    · rw [← hsame value _ hvalue, heval, hsame _ _ hc, hsame _ _ hx, hsame _ _ hy]
      exact hwraps.foldl_congr hsame
  · -- behind the store nothing accesses memory
    set s₁ := execAll front' s
    have hstored : execAll c.code s
        = (execAll rest s₁).store (move.ptr.place s₁.env) (move.width / 8) (value.eval s₁.env) := by
      rw [hcode, execAll_append, execAll_cons]
      exact execAll_store_computes htail
    have hbehind : Scoped (finalTypes (fun _ => none) front) (.store move.width value move.ptr :: rest) := by
      have hsplit := htyped
      rw [hinsts] at hsplit
      exact hsplit.append.2
    have hkept : value.eval (execAll c.code s).env = value.eval s₁.env := by
      rw [hstored]
      exact hbehind.2.2.eval_execAll hbehind.1.2.1
    rw [hkept, hstored, execAll_append,
      (Renamed.loadable_of_storable hptr).place_congr s₁.env s.env]

end Vexa
