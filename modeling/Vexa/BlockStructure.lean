import Vexa.ControlFlow
import Vexa.Lowering

/-!
# The blocks one step builds

An instruction is lifted into a block of its own, which the block before it branches to. Until the next
step closes it the new block has no terminator; a fork closes it at once and opens two blocks.

## Main definitions

* `Straight`, `BasicBlock.Terminated` — code without terminators, and with one, at its end
* `Cpu.GoesOn`, `Cpu.Forks` — what the control flow part of `lift_instruction` does to the blocks

## Main results

* `runBlock_straight` — the emulator adds no terminators
* `controlFlow_builds`, `liftInstruction_builds`
-/

namespace Vexa

/-! ### Terminators -/

/-- Code without terminators. -/
def Straight {N : Type} (insts : List (Inst N)) : Prop := ∀ i ∈ insts, i.isTerminator = false

/-- The block ends in a terminator and has no other. -/
def BasicBlock.Terminated (b : BasicBlock) : Prop :=
  ∃ body last, b.insts = body ++ [last] ∧ Straight body ∧ last.isTerminator = true

/-- Stores are the only instructions that are erased later. -/
def Inst.IsStore {N : Type} : Inst N → Prop
  | store .. => True
  | _ => False

section

variable {N N' : Type} {f : N → N'} {insts insts' : List (Inst N)} {i : Inst N}

theorem Straight.nil : Straight ([] : List (Inst N)) := nofun

theorem straight_append : Straight (insts ++ insts') ↔ Straight insts ∧ Straight insts' :=
  List.forall_mem_append

theorem straight_cons : Straight (i :: insts) ↔ i.isTerminator = false ∧ Straight insts :=
  List.forall_mem_cons

theorem straight_singleton : Straight [i] ↔ i.isTerminator = false := List.forall_mem_singleton

theorem Inst.IsStore.not_terminator (h : i.IsStore) : i.isTerminator = false := by
  cases i <;> first | rfl | exact h.elim

@[simp] theorem Inst.isTerminator_map (f : N → N') (i : Inst N) :
    (i.map f).isTerminator = i.isTerminator := by
  cases i <;> rfl

theorem Inst.OperandsTyped.not_terminator {types : Types N} (h : i.OperandsTyped types) :
    i.isTerminator = false := by
  cases i <;> first | rfl | exact h.elim

/-- Remill's semantics have no terminators. -/
theorem Typed.straight [DecidableEq N] : ∀ {insts : List (Inst N)} {types : Types N},
    Typed types insts → Straight insts
  | [], _, _ => Straight.nil
  | _ :: _, _, ⟨hop, _, hrest⟩ => straight_cons.mpr ⟨hop.not_terminator, hrest.straight⟩

theorem Straight.map (h : Straight insts) (f : N → N') : Straight (insts.map (Inst.map f)) := by
  intro i hi
  obtain ⟨j, hj, rfl⟩ := List.mem_map.mp hi
  rw [Inst.isTerminator_map]
  exact h j hj

end

/-! ### The code of the emulator -/

theorem emitReads_straight {dst : Name} {size : ℕ} {address : Operand Name} :
    ∀ {addresses : List Addr} {j : ℕ} {final : Operand Name},
      Straight (emitReads dst size address j final addresses)
  | [], _, _ => Straight.nil
  | a :: as, j, final => by
    rw [emitReads, straight_append]
    refine ⟨?_, emitReads_straight⟩
    intro i hi
    simp only [List.mem_cons, List.not_mem_nil, or_false] at hi
    rcases hi with rfl | rfl | rfl <;> rfl

theorem emitWrites_straight {dst : Name} {size : ℕ} {address value : Operand Name} :
    ∀ {addresses : List Addr} {j : ℕ},
      Straight (emitWrites dst size address value j addresses)
  | [], _ => Straight.nil
  | a :: as, j => by
    rw [emitWrites, straight_append]
    refine ⟨?_, emitWrites_straight⟩
    intro i hi
    simp only [List.mem_cons, List.not_mem_nil, or_false] at hi
    rcases hi with rfl | rfl | rfl | rfl <;> rfl

theorem Resolution.lowerRead_straight (r : Resolution) (dst : Name) (size : ℕ)
    (address : Operand Name) : Straight (r.lowerRead dst size address) := by
  cases r with
  | literal a => exact straight_singleton.mpr rfl
  | among as =>
    cases as with
    | nil => exact Straight.nil
    | cons a as => exact straight_cons.mpr ⟨rfl, emitReads_straight⟩
  | unresolved => exact straight_singleton.mpr rfl

theorem Resolution.lowerWrite_straight (r : Resolution) (dst : Name) (size : ℕ)
    (address value : Operand Name) : Straight (r.lowerWrite dst size address value) := by
  cases r with
  | literal a => exact straight_singleton.mpr rfl
  | among as => exact emitWrites_straight
  | unresolved => exact straight_singleton.mpr rfl

theorem Lowers.straight {insts code : List (Inst Name)} {rs : List Resolution}
    (h : Lowers insts rs code) (hinsts : Straight insts) : Straight code := by
  induction h with
  | nil => exact Straight.nil
  | read _ _ ih =>
    have hrest := ih (straight_cons.mp hinsts).2
    exact straight_append.mpr ⟨Resolution.lowerRead_straight _ _ _ _, hrest⟩
  | write _ ih =>
    have hrest := ih (straight_cons.mp hinsts).2
    exact straight_append.mpr ⟨Resolution.lowerWrite_straight _ _ _ _ _, hrest⟩
  | plain _ _ _ ih =>
    obtain ⟨hi, his⟩ := straight_cons.mp hinsts
    exact straight_cons.mpr ⟨hi, ih his⟩

/-- **The emulator adds no terminators.** -/
theorem runBlock_straight {S : Solver} {A : List Term} {insts : List (Inst Name)} {s : Symex}
    {r : Emitted × Symex} (h : runBlock S A insts s = .ok r) (hinsts : Straight insts) :
    Straight r.1.insts := (runBlock_lowers h).straight hinsts

/-! ### Going on and forking -/

variable {M : Machine} {c c' c₁ c₂ : Cpu}

/-- The positions noted down for erasing are those noted before and stores of one block. -/
def Deletes (c c' : Cpu) (b : BlockId) : Prop :=
  ∀ d ∈ c'.toDelete, d ∈ c.toDelete ∨ d.1 = b ∧ ∃ i, (c'.function b).insts[d.2]? = some i ∧ i.IsStore

/-- `c'` is `c` with more code in the current block and no new block. -/
structure Cpu.GoesOn (c c' : Cpu) : Prop where
  block : c'.block = c.block
  numBlocks : c'.numBlocks = c.numBlocks
  insertPoint : c'.insertPoint = c.insertPoint
  unexploredPaths : c'.unexploredPaths = c.unexploredPaths
  insts : ∃ tail, Straight tail ∧
    (c'.function c.insertPoint).insts = (c.function c.insertPoint).insts ++ tail
  others : ∀ b, b ≠ c.insertPoint → c'.function b = c.function b
  deletes : Deletes c c' c.insertPoint

/-- `c'` is `c` with the current block closed by a conditional branch to two new ones: one where the
path goes on, and one where a saved path does. -/
structure Cpu.Forks (c c' : Cpu) : Prop where
  numBlocks : c'.numBlocks = c.numBlocks + 2
  insertPoint : c'.insertPoint = c.numBlocks
  unexploredPaths : ∃ ss, c'.unexploredPaths = ss :: c.unexploredPaths ∧ ss.bb = c.numBlocks + 1
  insts : ∃ tail condition, Straight tail ∧ (c'.function c.insertPoint).insts =
    (c.function c.insertPoint).insts ++ tail ++ [.condBr condition c.numBlocks (c.numBlocks + 1)]
  ifTrue : Straight (c'.function c.numBlocks).insts
  ifFalse : Straight (c'.function (c.numBlocks + 1)).insts
  others : ∀ b, b ≠ c.insertPoint → b ≠ c.numBlocks → b ≠ c.numBlocks + 1 →
    c'.function b = c.function b
  deletes : Deletes c c' c.insertPoint

namespace Cpu.GoesOn

/-- The same blocks. -/
theorem of_same (hblock : c'.block = c.block) (hnum : c'.numBlocks = c.numBlocks)
    (hinsert : c'.insertPoint = c.insertPoint) (hpaths : c'.unexploredPaths = c.unexploredPaths)
    (hfun : ∀ b, (c'.function b).insts = (c.function b).insts)
    (hothers : ∀ b, b ≠ c.insertPoint → c'.function b = c.function b)
    (hdelete : c'.toDelete = c.toDelete) : c.GoesOn c' where
  block := hblock
  numBlocks := hnum
  insertPoint := hinsert
  unexploredPaths := hpaths
  insts := ⟨[], Straight.nil, by rw [hfun, List.append_nil]⟩
  others := hothers
  deletes := fun d hd => .inl (hdelete ▸ hd)

theorem refl (c : Cpu) : c.GoesOn c := of_same rfl rfl rfl rfl (fun _ => rfl) (fun _ _ => rfl) rfl

/-- Stores noted down for erasing stay where they are when code is put behind them. -/
theorem deletes_append {b : BlockId} {tail : List (Inst Name)} (h : Deletes c c₁ b)
    (htail : (c'.function b).insts = (c₁.function b).insts ++ tail) :
    ∀ d ∈ c₁.toDelete, d ∈ c.toDelete ∨ d.1 = b ∧
      ∃ i, (c'.function b).insts[d.2]? = some i ∧ i.IsStore := by
  intro d hd
  refine (h d hd).imp_right ?_
  rintro ⟨hb, i, hi, hstore⟩
  refine ⟨hb, i, ?_, hstore⟩
  rw [htail, List.getElem?_append_left (List.getElem?_eq_some_iff.mp hi).1]
  exact hi

theorem trans (h : c.GoesOn c₁) (h' : c₁.GoesOn c₂) : c.GoesOn c₂ where
  block := h'.block.trans h.block
  numBlocks := h'.numBlocks.trans h.numBlocks
  insertPoint := h'.insertPoint.trans h.insertPoint
  unexploredPaths := h'.unexploredPaths.trans h.unexploredPaths
  insts := by
    obtain ⟨tail, htail, hinsts⟩ := h.insts
    obtain ⟨tail', htail', hinsts'⟩ := h'.insts
    rw [h.insertPoint] at hinsts'
    refine ⟨tail ++ tail', straight_append.mpr ⟨htail, htail'⟩, ?_⟩
    rw [hinsts', hinsts, List.append_assoc]
  others b hb := (h'.others b (h.insertPoint ▸ hb)).trans (h.others b hb)
  deletes d hd := by
    obtain ⟨tail', _, hinsts'⟩ := h'.insts
    rw [h.insertPoint] at hinsts'
    rcases h'.deletes d hd with hd | hd
    · exact deletes_append h.deletes hinsts' d hd
    · exact .inr (h.insertPoint ▸ hd)

/-- Going on before a fork. -/
theorem forks (h : c.GoesOn c₁) (h' : c₁.Forks c₂) : c.Forks c₂ where
  numBlocks := h'.numBlocks.trans (congrArg (· + 2) h.numBlocks)
  insertPoint := h'.insertPoint.trans h.numBlocks
  unexploredPaths := by
    obtain ⟨ss, hss, hbb⟩ := h'.unexploredPaths
    exact ⟨ss, by rw [hss, h.unexploredPaths], by rw [hbb, h.numBlocks]⟩
  insts := by
    obtain ⟨tail, htail, hinsts⟩ := h.insts
    obtain ⟨tail', condition, htail', hinsts'⟩ := h'.insts
    rw [h.insertPoint, h.numBlocks] at hinsts'
    refine ⟨tail ++ tail', condition, straight_append.mpr ⟨htail, htail'⟩, ?_⟩
    rw [hinsts', hinsts, List.append_assoc (c.function c.insertPoint).insts]
  ifTrue := h.numBlocks ▸ h'.ifTrue
  ifFalse := h.numBlocks ▸ h'.ifFalse
  others b hb hnum hnum' :=
    (h'.others b (h.insertPoint ▸ hb) (h.numBlocks ▸ hnum) (h.numBlocks ▸ hnum')).trans
      (h.others b hb)
  deletes d hd := by
    obtain ⟨tail', condition, _, hinsts'⟩ := h'.insts
    rw [h.insertPoint, List.append_assoc] at hinsts'
    rcases h'.deletes d hd with hd | hd
    · exact deletes_append h.deletes hinsts' d hd
    · exact .inr (h.insertPoint ▸ hd)

end Cpu.GoesOn

@[simp] theorem Cpu.function_create_self (c : Cpu) (i : Inst Name) :
    (c.create i).function c.insertPoint = { c.function c.insertPoint with
      insts := (c.function c.insertPoint).insts ++ [i] } := Function.update_self ..

theorem Cpu.function_create_of_ne (c : Cpu) (i : Inst Name) {b : BlockId} (h : b ≠ c.insertPoint) :
    (c.create i).function b = c.function b := Function.update_of_ne h ..

@[simp] theorem Cpu.function_setTargets_self (c : Cpu) (targets : List Addr) :
    (c.setTargets targets).function c.block = { c.function c.block with targets := targets } :=
  Function.update_self ..

theorem Cpu.exec_goesOn {i : Inst Name} (h : c.exec M i = .ok c') (hi : i.isTerminator = false) :
    c.GoesOn c' := by
  obtain ⟨s, _, rfl⟩ := Cpu.exec_eq h
  exact ⟨rfl, rfl, rfl, rfl,
    ⟨[i], straight_singleton.mpr hi, congrArg BasicBlock.insts (c.function_create_self i)⟩,
    fun b hb => c.function_create_of_ne i hb, fun d hd => .inl hd⟩

theorem materialize_goesOn {side : ℕ} : ∀ {wrappers : List (Inst Name)} {value : Operand Name}
    {c : Cpu} {r : Operand Name × Cpu}, (∀ w ∈ wrappers, w.isTerminator = false) →
      materialize M side wrappers value c = .ok r → c.GoesOn r.2
  | [], value, c, r, _, h => by
    obtain rfl := Except.ok.inj h
    exact Cpu.GoesOn.refl c
  | wrapper :: wrappers, value, c, r, hwrappers, h => by
    simp only [materialize, Except.bind_eq_ok] at h
    obtain ⟨c', hexec, hrest⟩ := h
    obtain ⟨hwrapper, hwrappers⟩ := straight_cons.mp hwrappers
    have hclone : (cloneWrapper side value wrapper).2.isTerminator = false := by
      cases wrapper <;> first | rfl | exact hwrapper
    exact (Cpu.exec_goesOn hexec hclone).trans (materialize_goesOn hwrappers hrest)

theorem getCondition_goesOn {r : DualValue × Cpu} (h : getCondition M c = .ok r) :
    c.GoesOn r.2 := by
  obtain ⟨_, _, _, hexec, _⟩ := getCondition_eq h
  exact Cpu.exec_goesOn hexec rfl

/-- The builder is at the end of the current block. -/
structure Cpu.Building (c : Cpu) : Prop where
  block : c.block = c.insertPoint
  lt : c.insertPoint < c.numBlocks

theorem Cpu.GoesOn.building (h : c.GoesOn c') (hc : c.Building) : c'.Building :=
  ⟨by rw [h.block, h.insertPoint, hc.block], by rw [h.insertPoint, h.numBlocks]; exact hc.lt⟩

theorem Cpu.setTargets_goesOn (hc : c.Building) (targets : List Addr) :
    c.GoesOn (c.setTargets targets) := by
  refine .of_same rfl rfl rfl rfl (fun b => ?_) (fun b hb => ?_) rfl
  · by_cases hb : b = c.block
    · rw [hb, Cpu.function_setTargets_self]
    · exact congrArg BasicBlock.insts (Function.update_of_ne hb _ _)
  · exact Function.update_of_ne (hc.block ▸ hb) ..

theorem Cpu.Building.ne (h : c.Building) : c.insertPoint ≠ c.numBlocks := h.lt.ne

theorem Cpu.Building.ne_succ (h : c.Building) : c.insertPoint ≠ c.numBlocks + 1 :=
  (Nat.lt_succ_of_lt h.lt).ne

/-- The two blocks of a fork. -/
def Cpu.forkBlocks (c : Cpu) : Cpu := (c.basicBlock none).basicBlock none

theorem Cpu.function_forkBlocks (c : Cpu) (b : BlockId) : c.forkBlocks.function b =
    if b = c.numBlocks + 1 ∨ b = c.numBlocks then ⟨none, [], [], []⟩ else c.function b := by
  show Function.update (Function.update c.function c.numBlocks ⟨none, [], [], []⟩)
    (c.numBlocks + 1) ⟨none, [], [], []⟩ b = _
  by_cases hb : b = c.numBlocks + 1
  · rw [hb, Function.update_self, if_pos (.inl rfl)]
  by_cases hb' : b = c.numBlocks
  · rw [if_pos (.inr hb'), Function.update_of_ne hb, hb', Function.update_self]
  · rw [if_neg (not_or.mpr ⟨hb, hb'⟩), Function.update_of_ne hb, Function.update_of_ne hb']

/-- A fork closes the current block. -/
theorem forkPath_function (condition : DualValue) (jumpPc fallthroughPc : Addr) (c : Cpu) :
    (forkPath M condition jumpPc fallthroughPc c).function =
      (({ c.forkBlocks with insertPoint := c.block }).create
        (.condBr condition.l c.numBlocks (c.numBlocks + 1))).function := rfl

/-- The closed block. -/
theorem forkPath_function_self (condition : DualValue) (jumpPc fallthroughPc : Addr)
    (hc : c.Building) : (forkPath M condition jumpPc fallthroughPc c).function c.insertPoint =
      { c.function c.insertPoint with insts := (c.function c.insertPoint).insts ++
        [.condBr condition.l c.numBlocks (c.numBlocks + 1)] } := by
  rw [forkPath_function, ← hc.block]
  refine (Cpu.function_create_self ..).trans ?_
  rw [Cpu.function_forkBlocks, hc.block, if_neg (not_or.mpr ⟨hc.ne_succ, hc.ne⟩)]

/-- The other blocks: two new ones without code. -/
theorem forkPath_function_of_ne (condition : DualValue) (jumpPc fallthroughPc : Addr)
    (hc : c.Building) {b : BlockId} (hb : b ≠ c.insertPoint) :
    (forkPath M condition jumpPc fallthroughPc c).function b =
      if b = c.numBlocks + 1 ∨ b = c.numBlocks then ⟨none, [], [], []⟩ else c.function b := by
  rw [forkPath_function, ← Cpu.function_forkBlocks]
  exact Cpu.function_create_of_ne _ _ (hc.block ▸ hb)

theorem forkPath_forks (condition : DualValue) (jumpPc fallthroughPc : Addr) (hc : c.Building) :
    c.Forks (forkPath M condition jumpPc fallthroughPc c) := by
  have hothers := fun {b : BlockId} =>
    forkPath_function_of_ne (M := M) condition jumpPc fallthroughPc hc (b := b)
  refine ⟨rfl, rfl, ⟨_, rfl, rfl⟩, ⟨[], condition.l, Straight.nil, ?_⟩, ?_, ?_, fun b hb hn hn' => ?_,
    fun d hd => .inl hd⟩
  · rw [forkPath_function_self _ _ _ hc, List.append_nil]
  · rw [hothers hc.ne.symm, if_pos (.inr rfl)]
    exact Straight.nil
  · rw [hothers hc.ne_succ.symm, if_pos (.inl rfl)]
    exact Straight.nil
  · rw [hothers hb, if_neg (not_or.mpr ⟨hn', hn⟩)]

theorem branching_builds {condition : DualValue} {jumpPc fallthroughPc : Addr} (hc : c.Building)
    (h : branching M condition jumpPc fallthroughPc c = .ok c') : c.GoesOn c' ∨ c.Forks c' := by
  rcases branching_cases h with ⟨v, taken, _, _, rfl⟩ | ⟨v, _, rfl⟩
  · exact .inl (.of_same rfl rfl rfl rfl (fun _ => rfl) (fun _ _ => rfl) rfl)
  · exact .inr (forkPath_forks _ _ _ hc)

/-! ### Conditional moves -/

theorem peelSelect_straight {insts : List (Inst Name)} : ∀ {fuel : ℕ} {value : Operand Name}
    {r : Inst Name × List (Inst Name)}, peelSelect insts fuel value = some r → Straight r.2
  | 0, _, _, h => by simp [peelSelect] at h
  | fuel + 1, .const .., _, h => by simp [peelSelect] at h
  | fuel + 1, .ssa name, r, h => by
    rw [peelSelect] at h
    split at h
    · obtain rfl := Option.some.inj h
      exact Straight.nil
    · obtain ⟨r', hr', rfl⟩ := Option.map_eq_some_iff.mp h
      exact straight_cons.mpr ⟨rfl, peelSelect_straight hr'⟩
    · obtain ⟨r', hr', rfl⟩ := Option.map_eq_some_iff.mp h
      exact straight_cons.mpr ⟨rfl, peelSelect_straight hr'⟩
    · cases h

/-- What is found is a store of the block, of a value with a choice behind it. -/
theorem findConditionalMove_eq {insts : List (Inst Name)} {move : ConditionalMove}
    (h : findConditionalMove insts = some move) :
    ∃ value dst w, insts[move.position]? = some (.store move.width value move.ptr) ∧
      peelSelect insts insts.length value
        = some (.select dst w move.condition move.trueValue move.falseValue, move.wrappers) := by
  obtain ⟨⟨i, position⟩, hmem, hfound⟩ := List.exists_of_findSome?_eq_some h
  have hget := List.mk_mem_zipIdx_iff_getElem?.mp (List.mem_reverse.mp hmem)
  split at hfound
  · next w value ptr position' heq =>
    obtain ⟨rfl, rfl⟩ := Prod.mk.inj heq
    split at hfound
    · next hpeel =>
      obtain rfl := Option.some.inj hfound
      exact ⟨value, _, _, hget, hpeel⟩
    · cases hfound
  · cases hfound

theorem Cpu.deleteLater_goesOn {position : ℕ}
    (h : ∃ i, (c.function c.insertPoint).insts[position]? = some i ∧ i.IsStore) :
    c.GoesOn (c.deleteLater c.insertPoint position) where
  block := rfl
  numBlocks := rfl
  insertPoint := rfl
  unexploredPaths := rfl
  insts := ⟨[], Straight.nil, (List.append_nil _).symm⟩
  others _ _ := rfl
  deletes d hd := by
    rcases List.mem_append.mp hd with hd | hd
    · exact .inl hd
    · obtain rfl := List.mem_singleton.mp hd
      exact .inr ⟨rfl, h⟩

/-- A fork at a conditional move: the store of either value is the code of a block of its own, and the
memory of the side that is saved is set back for the other. -/
structure ForkedMove (M : Machine) (inst : Instruction) (move : ConditionalMove)
    (trueVal falseVal : Operand Name) (c c' : Cpu) : Prop where
  numBlocks : c'.numBlocks = c.numBlocks + 2
  insertPoint : c'.insertPoint = c.numBlocks
  toDelete : c'.toDelete = c.toDelete ++ [(c.insertPoint, move.position)]
  self : c'.function c.insertPoint = { c.function c.insertPoint with
    insts := (c.function c.insertPoint).insts ++
      [.condBr move.condition c.numBlocks (c.numBlocks + 1)] }
  ifTrue : c'.function c.numBlocks = ⟨none, [.store move.width trueVal move.ptr], [], []⟩
  ifFalse : c'.function (c.numBlocks + 1) = ⟨none, [.store move.width falseVal move.ptr], [], []⟩
  others : ∀ b, b ≠ c.insertPoint → b ≠ c.numBlocks → b ≠ c.numBlocks + 1 →
    c'.function b = c.function b
  symex : ∃ s : Symex,
    visit M.solver c.pathConstraints (.store move.width falseVal move.ptr) c.symex = .ok s ∧
    visit M.solver c.pathConstraints (.store move.width trueVal move.ptr)
      { s with context.memory := c.symex.context.memory } = .ok c'.symex ∧
    c'.unexploredPaths = ⟨s.context.memory, inst.nextPc, c.vpc, c.numBlocks + 1, c.vjmp, c.path,
      c.pathConstraints⟩ :: c.unexploredPaths

theorem forkMove_eq {inst : Instruction} {move : ConditionalMove} {trueVal falseVal : Operand Name}
    (hc : c.Building) (h : forkMove M inst c.insertPoint move trueVal falseVal c = .ok c') :
    ForkedMove M inst move trueVal falseVal c c' := by
  simp only [forkMove, Except.bind_eq_ok, Except.pure_eq_ok] at h
  obtain ⟨c₃, h₃, c₄, h₄, rfl⟩ := h
  obtain ⟨s₃, hfalse, rfl⟩ := Cpu.exec_eq h₃
  obtain ⟨s₄, htrue, rfl⟩ := Cpu.exec_eq h₄
  -- the two stores go into the new blocks
  let storeTrue : Inst Name := .store move.width trueVal move.ptr
  let storeFalse : Inst Name := .store move.width falseVal move.ptr
  let closed := c.forkBlocks.create (.condBr move.condition c.numBlocks (c.numBlocks + 1))
  let stored := ({ closed with insertPoint := c.numBlocks + 1 }).create storeFalse
  let final := ({ stored with insertPoint := c.numBlocks }).create storeTrue
  have hclosed : ∀ b, b ≠ c.insertPoint → closed.function b = c.forkBlocks.function b :=
    fun b hb => Cpu.function_create_of_ne _ _ hb
  have hne : c.numBlocks ≠ c.numBlocks + 1 := (Nat.lt_succ_self _).ne
  have hself : final.function c.insertPoint = { c.function c.insertPoint with
      insts := (c.function c.insertPoint).insts ++
        [.condBr move.condition c.numBlocks (c.numBlocks + 1)] } := by
    refine (Cpu.function_create_of_ne _ _ hc.ne).trans ?_
    refine (Cpu.function_create_of_ne _ _ hc.ne_succ).trans ?_
    refine (Cpu.function_create_self c.forkBlocks _).trans ?_
    show ({ c.forkBlocks.function c.insertPoint with
      insts := (c.forkBlocks.function c.insertPoint).insts ++ _ } : BasicBlock) = _
    rw [Cpu.function_forkBlocks, if_neg (not_or.mpr ⟨hc.ne_succ, hc.ne⟩)]
  have hnew : ∀ {b}, b ≠ c.insertPoint → b = c.numBlocks + 1 ∨ b = c.numBlocks →
      closed.function b = ⟨none, [], [], []⟩ := by
    intro b hb hor
    rw [hclosed b hb, Cpu.function_forkBlocks, if_pos hor]
  have htrueBlock : final.function c.numBlocks = ⟨none, [storeTrue], [], []⟩ := by
    have hempty : stored.function c.numBlocks = ⟨none, [], [], []⟩ :=
      (Cpu.function_create_of_ne _ _ hne).trans (hnew hc.ne.symm (.inr rfl))
    refine (Cpu.function_create_self { stored with insertPoint := c.numBlocks } storeTrue).trans ?_
    show ({ stored.function c.numBlocks with
      insts := (stored.function c.numBlocks).insts ++ [storeTrue] } : BasicBlock) = _
    rw [hempty]
    rfl
  have hfalseBlock : final.function (c.numBlocks + 1) = ⟨none, [storeFalse], [], []⟩ := by
    refine (Cpu.function_create_of_ne _ _ hne.symm).trans ?_
    refine (Cpu.function_create_self { closed with insertPoint := c.numBlocks + 1 } storeFalse).trans ?_
    show ({ closed.function (c.numBlocks + 1) with
      insts := (closed.function (c.numBlocks + 1)).insts ++ [storeFalse] } : BasicBlock) = _
    rw [hnew hc.ne_succ.symm (.inl rfl)]
    rfl
  refine ⟨rfl, rfl, rfl, hself, htrueBlock, hfalseBlock, fun b hb hn hn' => ?_, s₃, hfalse, htrue, rfl⟩
  refine (Cpu.function_create_of_ne _ _ hn).trans ?_
  refine (Cpu.function_create_of_ne _ _ hn').trans ?_
  refine (hclosed b hb).trans ?_
  rw [Cpu.function_forkBlocks, if_neg (not_or.mpr ⟨hn', hn⟩)]

theorem ForkedMove.forks {inst : Instruction} {move : ConditionalMove} {trueVal falseVal : Operand Name}
    (h : ForkedMove M inst move trueVal falseVal c c')
    (hstore : ∃ i, (c.function c.insertPoint).insts[move.position]? = some i ∧ i.IsStore) :
    c.Forks c' where
  numBlocks := h.numBlocks
  insertPoint := h.insertPoint
  unexploredPaths := by
    obtain ⟨s, _, _, hpaths⟩ := h.symex
    exact ⟨_, hpaths, rfl⟩
  insts := ⟨[], move.condition, Straight.nil, by rw [h.self, List.append_nil]⟩
  ifTrue := by
    rw [h.ifTrue]
    exact straight_singleton.mpr rfl
  ifFalse := by
    rw [h.ifFalse]
    exact straight_singleton.mpr rfl
  others := h.others
  deletes d hd := by
    rw [h.toDelete] at hd
    rcases List.mem_append.mp hd with hd | hd
    · exact .inl hd
    · obtain rfl := List.mem_singleton.mp hd
      obtain ⟨i, hi, histore⟩ := hstore
      refine .inr ⟨rfl, i, ?_, histore⟩
      rw [h.self, List.getElem?_append_left (List.getElem?_eq_some_iff.mp hi).1]
      exact hi

theorem handleConditionalMoves_builds {inst : Instruction} (hc : c.Building)
    (h : handleConditionalMoves M inst c = .ok c') : c.GoesOn c' ∨ c.Forks c' := by
  rw [handleConditionalMoves] at h
  split at h
  · cases h
  next move hmove =>
  simp only [Except.bind_eq_ok] at h
  obtain ⟨cond, _, ⟨trueVal, c₁⟩, htrue, ⟨falseVal, c₂⟩, hfalse, ⟨verdict, v⟩, _, h⟩ := h
  rw [hc.block] at hmove h
  obtain ⟨value, _, _, hfound, hpeel⟩ := findConditionalMove_eq hmove
  have hwrappers : Straight move.wrappers := (peelSelect_straight hpeel :)
  have hreverse : ∀ w ∈ move.wrappers.reverse, w.isTerminator = false :=
    fun w hw => hwrappers w (List.mem_reverse.mp hw)
  have hmat : c.GoesOn c₂ :=
    (materialize_goesOn hreverse htrue).trans (materialize_goesOn hreverse hfalse)
  have hc₂ : c₂.Building := hmat.building hc
  rw [← hmat.insertPoint] at h
  -- the store that was found is still there
  have hstore₂ : ∃ i, (c₂.function c₂.insertPoint).insts[move.position]? = some i ∧ i.IsStore := by
    obtain ⟨tail, _, htail⟩ := hmat.insts
    refine ⟨.store move.width value move.ptr, ?_, trivial⟩
    rw [hmat.insertPoint, htail, List.getElem?_append_left (List.getElem?_eq_some_iff.mp hfound).1]
    exact hfound
  cases verdict with
  | some result =>
    exact .inl (hmat.trans ((Cpu.deleteLater_goesOn hstore₂).trans (Cpu.exec_goesOn h rfl)))
  | none => exact .inr (hmat.forks ((forkMove_eq hc₂ h).forks hstore₂))

/-! ### The control flow part -/

theorem indirectJump_builds {r : Outcome × Cpu} (hc : c.Building) (h : indirectJump M c = .ok r) :
    c.GoesOn r.2 ∨ c.Forks r.2 := by
  have hsame : ∀ next, c.GoesOn (c.rewriteTarget M next) := fun next =>
    .of_same rfl rfl rfl rfl (fun _ => rfl) (fun _ _ => rfl) rfl
  have henum : ∀ next, c.GoesOn (c.enumerateTarget M next) := fun next =>
    .of_same rfl rfl rfl rfl (fun _ => rfl) (fun _ _ => rfl) rfl
  obtain ⟨next, _, ⟨target, _, _, rfl⟩ | ⟨_, hcases⟩⟩ := indirectJump_cases h
  · have htargets := Cpu.setTargets_goesOn ((hsame next).building hc) [target]
    refine .inl (((hsame next).trans htargets).trans ?_)
    exact .of_same rfl rfl rfl rfl (fun _ => rfl) (fun _ _ => rfl) rfl
  rcases hcases with ⟨addr, target, _, _, rfl⟩ |
    ⟨front, back, jumpPc, fallthroughPc, c₁, cond, c₂, _, _, _, hexec, _, hbranch, rfl⟩ |
    ⟨_, _, rfl⟩
  · have htargets := Cpu.setTargets_goesOn ((henum next).building hc) [target]
    refine .inl (((henum next).trans htargets).trans ?_)
    exact .of_same rfl rfl rfl rfl (fun _ => rfl) (fun _ _ => rfl) rfl
  · have htargets := Cpu.setTargets_goesOn ((henum next).building hc) [jumpPc, fallthroughPc]
    have hcompare := ((henum next).trans htargets).trans (Cpu.exec_goesOn hexec rfl)
    rcases branching_builds (hcompare.building hc) hbranch with hgoes | hforks
    · exact .inl (hcompare.trans hgoes)
    · exact .inr (hcompare.forks hforks)
  · exact .inl (henum next)

/-- **The control flow part** goes on in the block or closes it with a fork. -/
theorem controlFlow_builds {inst : Instruction} {r : Outcome × Cpu} (hc : c.Building)
    (h : controlFlow M inst c = .ok r) : c.GoesOn r.2 ∨ c.Forks r.2 := by
  have hjump : ∀ {c₁ : Cpu} (pc : Addr), c₁.GoesOn { c₁ with pc := pc } := fun _ =>
    .of_same rfl rfl rfl rfl (fun _ => rfl) (fun _ _ => rfl) rfl
  rcases controlFlow_cases h with ⟨_, ⟨cond, c₁⟩, c₂, hcond, hbranch, rfl⟩ | ⟨_, rfl⟩ | ⟨_, hjumps⟩ |
    ⟨_, _, c₁, hmove, rfl⟩ | ⟨_, _, rfl⟩
  · have hgoes : c.GoesOn c₁ := getCondition_goesOn hcond
    rcases branching_builds (hgoes.building hc) hbranch with hgoes' | hforks
    · exact .inl (hgoes.trans hgoes')
    · exact .inr (hgoes.forks hforks)
  · exact .inl (.of_same rfl rfl rfl rfl (fun _ => rfl) (fun _ _ => rfl) rfl)
  · exact indirectJump_builds hc hjumps
  · rcases handleConditionalMoves_builds hc hmove with hgoes | hforks
    · exact .inl (hgoes.trans (hjump _))
    · exact .inr ⟨hforks.numBlocks, hforks.insertPoint, hforks.unexploredPaths, hforks.insts,
        hforks.ifTrue, hforks.ifFalse, hforks.others, hforks.deletes⟩
  · exact .inl (hjump _)

/-! ### One instruction -/

/-- The state in which an instruction has been put into its block and emulated. -/
structure Cpu.Lifts (c c' : Cpu) : Prop where
  numBlocks : c'.numBlocks = c.numBlocks + 1
  block : c'.block = c.numBlocks
  insertPoint : c'.insertPoint = c.numBlocks
  unexploredPaths : c'.unexploredPaths = c.unexploredPaths
  toDelete : c'.toDelete = c.toDelete
  closes : (c'.function c.insertPoint).insts = (c.function c.insertPoint).insts ++ [.br c.numBlocks]
  others : ∀ b, b ≠ c.insertPoint → b ≠ c.numBlocks → c'.function b = c.function b
  straight : Straight (c'.function c.numBlocks).insts

theorem Cpu.Lifts.building (h : c.Lifts c') : c'.Building :=
  ⟨h.block.trans h.insertPoint.symm, by rw [h.insertPoint, h.numBlocks]; exact Nat.lt_succ_self _⟩

/-- The block of an instruction before remill fills it. -/
theorem openBlock_lifts (hc : c.insertPoint < c.numBlocks) : c.Lifts (openBlock c) := by
  have hne : c.insertPoint ≠ c.numBlocks := hc.ne
  refine ⟨rfl, rfl, rfl, rfl, rfl, ?_, fun b hb hn => ?_, ?_⟩
  · refine (congrArg BasicBlock.insts (Cpu.function_create_self (c.basicBlock (some c.pc)) _)).trans ?_
    show (Function.update c.function c.numBlocks _ c.insertPoint).insts ++ _ = _
    rw [Function.update_of_ne hne]
  · refine (Cpu.function_create_of_ne (c.basicBlock (some c.pc)) _ hb).trans ?_
    exact Function.update_of_ne hn ..
  · show Straight (((c.basicBlock (some c.pc)).create _).function c.numBlocks).insts
    rw [Cpu.function_create_of_ne (c.basicBlock (some c.pc)) _ hne.symm]
    show Straight (Function.update c.function c.numBlocks _ c.numBlocks).insts
    rw [Function.update_self]
    exact Straight.nil

/-- More code in the new block. -/
theorem Cpu.Lifts.of_block {insts : List (Inst Name)} (hc : c.insertPoint < c.numBlocks)
    (h : c.Lifts c₁) (hinsts : Straight insts) (resolutions : List Resolution) (s : Symex) :
    c.Lifts { c₁ with
      symex := s
      function := Function.update c₁.function c₁.block
        { c₁.function c₁.block with insts := insts, resolutions := resolutions } } := by
  have hne : c.insertPoint ≠ c₁.block := h.block ▸ hc.ne
  refine ⟨h.numBlocks, h.block, h.insertPoint, h.unexploredPaths, h.toDelete, ?_, fun b hb hn => ?_, ?_⟩
  · refine (congrArg BasicBlock.insts (Function.update_of_ne hne _ _)).trans h.closes
  · refine (Function.update_of_ne (h.block ▸ hn) _ _).trans (h.others b hb hn)
  · rw [← h.block]
    show Straight (Function.update c₁.function c₁.block _ c₁.block).insts
    rw [Function.update_self]
    exact hinsts

theorem Cpu.Lifts.goesOn (hc : c.insertPoint < c.numBlocks) (h : c.Lifts c₁) (h' : c₁.GoesOn c₂)
    (hdelete : c₂.toDelete = c₁.toDelete) : c.Lifts c₂ where
  numBlocks := h'.numBlocks.trans h.numBlocks
  block := h'.block.trans h.block
  insertPoint := h'.insertPoint.trans h.insertPoint
  unexploredPaths := h'.unexploredPaths.trans h.unexploredPaths
  toDelete := hdelete.trans h.toDelete
  closes := by
    rw [h'.others _ (h.insertPoint ▸ hc.ne)]
    exact h.closes
  others b hb hn := (h'.others b (h.insertPoint ▸ hn)).trans (h.others b hb hn)
  straight := by
    obtain ⟨tail, htail, hinsts⟩ := h'.insts
    rw [h.insertPoint] at hinsts
    rw [hinsts]
    exact straight_append.mpr ⟨h.straight, htail⟩

theorem saveBlock_goesOn (c : Cpu) : c.GoesOn (saveBlock M c) := by
  rw [saveBlock]
  split
  · exact .of_same rfl rfl rfl rfl (fun _ => rfl) (fun _ _ => rfl) rfl
  · exact .of_same rfl rfl rfl rfl (fun _ => rfl) (fun _ _ => rfl) rfl
  · split <;> exact .of_same rfl rfl rfl rfl (fun _ => rfl) (fun _ _ => rfl) rfl
  · split <;> exact .of_same rfl rfl rfl rfl (fun _ => rfl) (fun _ _ => rfl) rfl
  · exact Cpu.GoesOn.refl c

/-- The block of an instruction with the store of the program counter. -/
theorem opened_lifts (hc : c.insertPoint < c.numBlocks)
    (h : ((openBlock c).eventHandler M .instructionLift).exec M
      (.store 64 (.const 64 ((openBlock c).eventHandler M .instructionLift).pc.toNat) .nextPc)
        = .ok c₁) : c.Lifts c₁ := by
  have hopen : c.Lifts ((openBlock c).eventHandler M .instructionLift) :=
    let hopen := openBlock_lifts hc
    ⟨hopen.numBlocks, hopen.block, hopen.insertPoint, hopen.unexploredPaths, hopen.toDelete,
      hopen.closes, hopen.others, hopen.straight⟩
  have hgoes := Cpu.exec_goesOn h rfl
  obtain ⟨s, _, rfl⟩ := Cpu.exec_eq h
  exact hopen.goesOn hc hgoes rfl

/-- The block of an instruction once it is filled and emulated. -/
theorem runLifted_lifts {semantics : Semantics} (hc : c.insertPoint < c.numBlocks)
    (hlifts : c.Lifts c₁) (h : runLifted M semantics c₁ = .ok c₂) : c.Lifts c₂ := by
  simp only [runLifted, Except.bind_eq_ok, Except.pure_eq_ok] at h
  obtain ⟨r, hr, rfl⟩ := h
  refine hlifts.of_block hc (runBlock_straight hr (straight_append.mpr ⟨?_, ?_⟩)) r.1.resolutions r.2
  · rw [hlifts.block]
    exact hlifts.straight
  · exact semantics.typed.straight.map _

/-- **One instruction** closes the block before it and is lifted into a new one, which the control
flow part may close. -/
theorem liftInstruction_builds {inst : Instruction} {outcome : Outcome}
    (hc : c.insertPoint < c.numBlocks) (h : liftInstruction M inst c = .ok (outcome, c')) :
    ∃ c₁, c.Lifts c₁ ∧
      ((outcome = .liftFailed c.numBlocks ∧ c' = { c₁.create .unreachable with pc := -1 }) ∨
        (outcome.liftedBlock = some c.numBlocks ∧ (c₁.GoesOn c' ∨ c₁.Forks c'))) := by
  obtain ⟨c₁, hexec, hrest⟩ := liftInstruction_eq h
  have hlifts := opened_lifts hc hexec
  rcases hrest with ⟨_, heq⟩ | ⟨semantics, c₂, _, hrun, hflow⟩
  · obtain ⟨rfl, rfl⟩ := Prod.mk.inj heq
    exact ⟨c₁, hlifts, .inl ⟨congrArg _ hlifts.block, rfl⟩⟩
  · have hlifts₂ := runLifted_lifts hc hlifts hrun
    have hsave : c₂.GoesOn (saveBlock M c₂) := saveBlock_goesOn c₂
    refine ⟨c₂, hlifts₂, .inr ⟨?_, ?_⟩⟩
    · exact (controlFlow_advances hflow).1.trans
        (congrArg some (hsave.block.trans hlifts₂.block))
    · rcases controlFlow_builds (hsave.building hlifts₂.building) hflow with hgoes | hforks
      · exact .inl (hsave.trans hgoes)
      · exact .inr (hsave.forks hforks)

end Vexa
