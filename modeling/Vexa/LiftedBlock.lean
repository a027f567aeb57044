import Vexa.BlockStructure
import Vexa.Widths

/-!
# The block of a lifted instruction

`lift_instruction` stores the program counter, puts remill's semantics behind it and emulates the
block. What the builder emits later, at a fork or for a conditional move, uses names of this block;
here is which widths they have.

## Main definitions

* `Semantics.types` — the widths of the results of a block
* `Inst.Fits` — the widths in the code the emulator leaves behind

## Main results

* `liftInstruction_block` — the block an instruction is lifted into
* `Lowers.fits` — every instruction of it fits
* `peelSelect_fits` — a choice behind casts
-/

namespace Vexa

/-! ### Names keep their widths -/

section

variable {N : Type} [DecidableEq N] {types : Types N}

theorem Inst.extend_le {i : Inst N} (hnew : ∀ dst w, i.result = some (dst, w) → types dst = none)
    {name : N} {w : ℕ} (h : types name = some w) : i.extend types name = some w := by
  rw [Inst.extend]
  cases hr : i.result with
  | none => exact h
  | some r =>
    have hne : name ≠ r.1 := by
      rintro rfl
      rw [hnew r.1 r.2 hr] at h
      cases h
    exact (Function.update_of_ne hne ..).trans h

theorem Typed.final_le : ∀ {insts : List (Inst N)} {types : Types N}, Typed types insts →
    ∀ {name : N} {w : ℕ}, types name = some w → finalTypes types insts name = some w
  | [], _, _, _, _, h => h
  | _ :: _, _, ⟨_, hnew, hrest⟩, _, _, h => hrest.final_le (Inst.extend_le hnew h)

omit [DecidableEq N] in
theorem Operand.width_le {types' : Types N}
    (hle : ∀ {name : N} {w : ℕ}, types name = some w → types' name = some w) {a : Operand N} {w : ℕ}
    (h : a.width types = some w) : a.width types' = some w := by
  cases a with
  | const w' n => exact h
  | ssa name => exact hle h

omit [DecidableEq N] in
theorem Inst.OperandsTyped.mono {types' : Types N}
    (hle : ∀ {name : N} {w : ℕ}, types name = some w → types' name = some w) {i : Inst N}
    (h : i.OperandsTyped types) : i.OperandsTyped types' := by
  have hop : ∀ {a : Operand N} {w : ℕ}, a.width types = some w → a.width types' = some w :=
    Operand.width_le hle
  cases i with
  | binary dst op w a b => exact ⟨h.1, hop h.2.1, hop h.2.2⟩
  | icmp dst p w a b => exact ⟨hop h.1, hop h.2⟩
  | cast dst op src w a => cases op <;> exact ⟨h.1, hop h.2⟩
  | select dst w c a b => exact ⟨hop h.1, hop h.2.1, hop h.2.2⟩
  | freeze dst w a => exact hop h
  | load dst w ptr => exact h
  | store w a ptr => exact ⟨h.1, hop h.2.1, h.2.2⟩
  | readMemory dst size a => exact ⟨h.1, hop h.2⟩
  | writeMemory dst size a v => exact ⟨h.1, hop h.2.1, hop h.2.2⟩
  | unsupported dst w opcode => trivial
  | br target => exact h.elim
  | condBr c ifTrue ifFalse => exact h.elim
  | ret => exact h.elim
  | unreachable => exact h.elim

/-- Every instruction is typed in the names of the whole code. -/
theorem Typed.final : ∀ {insts : List (Inst N)} {types : Types N}, Typed types insts →
    ∀ i ∈ insts, i.OperandsTyped (finalTypes types insts) ∧
      ∀ dst w, i.result = some (dst, w) → finalTypes types insts dst = some w
  | i :: insts, types, ⟨hi, hnew, hrest⟩, j, hj => by
    rcases List.mem_cons.mp hj with rfl | hj
    · refine ⟨hi.mono fun h => hrest.final_le (Inst.extend_le hnew h), fun dst w hdst => ?_⟩
      refine hrest.final_le ?_
      rw [Inst.extend, hdst]
      exact Function.update_self ..
    · exact hrest.final j hj

/-- The names of the code are those of its results. -/
theorem exists_result_of_finalTypes : ∀ {insts : List (Inst N)} {types : Types N} {name : N} {w : ℕ},
    finalTypes types insts name = some w →
      types name = some w ∨ ∃ i ∈ insts, i.result = some (name, w)
  | [], _, _, _, h => .inl h
  | i :: insts, types, name, w, h => by
    have htail : finalTypes (i.extend types) insts name = some w := h
    rcases exists_result_of_finalTypes htail with h | ⟨j, hj, hres⟩
    · rw [Inst.extend] at h
      cases hr : i.result with
      | none =>
        rw [hr] at h
        exact .inl h
      | some r =>
        rw [hr] at h
        by_cases hname : name = r.1
        · subst hname
          simp only [Function.update_self, Option.some.injEq] at h
          exact .inr ⟨i, List.mem_cons_self .., hr.trans (by rw [← h])⟩
        · exact .inl ((Function.update_of_ne hname ..).symm.trans h)
    · exact .inr ⟨j, List.mem_cons_of_mem _ hj, hres⟩

end

/-- The widths of the results of a block. -/
def Semantics.types (semantics : Semantics) (b : BlockId) (pc : Addr) : Types Name :=
  finalTypes (fun _ => none) (semantics.inBlock b pc)

theorem Semantics.types_lifted {semantics : Semantics} {b : BlockId} {pc : Addr} {name : Name}
    {w : ℕ} (h : semantics.types b pc name = some w) : ∃ n, name = Name.lifted b n := by
  obtain h | ⟨i, hi, hres⟩ := exists_result_of_finalTypes h
  · cases h
  rcases List.mem_cons.mp hi with rfl | hi
  · cases hres
  obtain ⟨i, _, rfl⟩ := List.mem_map.mp hi
  rw [Inst.result_map] at hres
  obtain ⟨r, _, hr⟩ := Option.map_eq_some_iff.mp hres
  exact ⟨r.1, (Prod.mk.inj hr).1.symm⟩

theorem Semantics.liftedTypes (semantics : Semantics) (b : BlockId) (pc : Addr) :
    LiftedTypes (semantics.types b pc) := by
  intro name w h
  obtain ⟨n, rfl⟩ := Semantics.types_lifted h
  rfl

/-! ### Entering a block -/

variable {M : Machine} {c c' c₁ c₂ : Cpu}

/-- The state in which remill's semantics are put into the new block. -/
structure Cpu.Opens (M : Machine) (c c₁ : Cpu) : Prop where
  block : c₁.block = c.numBlocks
  insertPoint : c₁.insertPoint = c.numBlocks
  numBlocks : c₁.numBlocks = c.numBlocks + 1
  pathConstraints : c₁.pathConstraints = c.pathConstraints
  unexploredPaths : c₁.unexploredPaths = c.unexploredPaths
  pc : (c₁.function c.numBlocks).pc = some c.pc
  insts : (c₁.function c.numBlocks).insts = [.store 64 (.const 64 c.pc.toNat) .nextPc]
  symex : visit M.solver c.pathConstraints (.store 64 (.const 64 c.pc.toNat) .nextPc) c.symex
    = .ok c₁.symex

/-- The same state after the block is emulated. -/
structure Cpu.Emulates (M : Machine) (semantics : Semantics) (c c₁ c₂ : Cpu) : Prop where
  run : ∃ rs code, runBlock M.solver c.pathConstraints (semantics.inBlock c.numBlocks c.pc) c₁.symex
      = .ok (⟨code, rs⟩, c₂.symex) ∧ (c₂.function c.numBlocks).insts = code ∧
      (c₂.function c.numBlocks).resolutions = rs
  pc : (c₂.function c.numBlocks).pc = some c.pc
  block : c₂.block = c.numBlocks
  insertPoint : c₂.insertPoint = c.numBlocks
  numBlocks : c₂.numBlocks = c.numBlocks + 1
  pathConstraints : c₂.pathConstraints = c.pathConstraints
  unexploredPaths : c₂.unexploredPaths = c.unexploredPaths

theorem openBlock_opens (hc : c.insertPoint < c.numBlocks)
    (h : ((openBlock c).eventHandler M .instructionLift).exec M
      (.store 64 (.const 64 ((openBlock c).eventHandler M .instructionLift).pc.toNat) .nextPc)
        = .ok c₁) : c.Opens M c₁ := by
  obtain ⟨s, hs, rfl⟩ := Cpu.exec_eq h
  have hempty : (openBlock c).function c.numBlocks = ⟨some c.pc, [], [], []⟩ := by
    show ((c.basicBlock (some c.pc)).create _).function c.numBlocks = _
    rw [Cpu.function_create_of_ne (c.basicBlock (some c.pc)) _ hc.ne']
    exact Function.update_self ..
  refine ⟨rfl, rfl, rfl, rfl, rfl, ?_, ?_, hs⟩
  · refine (congrArg BasicBlock.pc (Function.update_self c.numBlocks _ (openBlock c).function)).trans ?_
    exact congrArg BasicBlock.pc hempty
  · refine (congrArg BasicBlock.insts (Function.update_self c.numBlocks _ (openBlock c).function)).trans ?_
    exact congrArg (fun b : BasicBlock => b.insts ++ [_]) hempty

theorem runLifted_emulates {semantics : Semantics} (h : c.Opens M c₁)
    (hrun : runLifted M semantics c₁ = .ok c₂) : c.Emulates M semantics c₁ c₂ := by
  simp only [runLifted, Except.bind_eq_ok, Except.pure_eq_ok] at hrun
  obtain ⟨⟨⟨code, rs⟩, s⟩, hr, rfl⟩ := hrun
  rw [h.block, h.insts, h.pathConstraints] at hr
  have hblock : Function.update c₁.function c₁.block
      { c₁.function c₁.block with insts := code, resolutions := rs } c.numBlocks
      = { c₁.function c.numBlocks with insts := code, resolutions := rs } := by
    rw [h.block, Function.update_self]
  exact ⟨⟨rs, code, hr, congrArg BasicBlock.insts hblock, congrArg BasicBlock.resolutions hblock⟩,
    (congrArg BasicBlock.pc hblock).trans h.pc, h.block, h.insertPoint, h.numBlocks,
    h.pathConstraints, h.unexploredPaths⟩

/-- **The block an instruction is lifted into.** -/
theorem liftInstruction_block {inst : Instruction} {r : Outcome × Cpu}
    (hc : c.insertPoint < c.numBlocks) (h : liftInstruction M inst c = .ok r) :
    ∃ c₁, c.Opens M c₁ ∧
      ((M.liftIntoBlock inst = none ∧
          r = (.liftFailed c.numBlocks, { c₁.create .unreachable with pc := -1 })) ∨
        ∃ semantics c₂, M.liftIntoBlock inst = some semantics ∧ c.Emulates M semantics c₁ c₂ ∧
          controlFlow M inst (saveBlock M c₂) = .ok r) := by
  obtain ⟨c₁, hexec, hrest⟩ := liftInstruction_eq h
  have hopens := openBlock_opens hc hexec
  refine ⟨c₁, hopens, ?_⟩
  rcases hrest with ⟨hnone, rfl⟩ | ⟨semantics, c₂, hsome, hrun, hflow⟩
  · exact .inl ⟨hnone, by rw [hopens.block]⟩
  · exact .inr ⟨semantics, c₂, hsome, runLifted_emulates hopens hrun, hflow⟩

/-! ### The code the emulator leaves behind -/

/-- A name without a symbolic value: a comparison or a choice made on the way to a result. -/
def Operand.Dead (a : Operand Name) : Prop := ∃ dst j k, a = .ssa (Name.temp dst j k) ∧ k ≠ 1

/-- The operand has `w` bits, or no value. -/
def Operand.Fits (types : Types Name) (w : ℕ) (a : Operand Name) : Prop :=
  a.width types = some w ∨ a.Dead

/-- The widths in lowered code: what is stored has whole bytes, and what a choice or a cast is made
of has the width it says, unless it cannot have a value. -/
def Inst.Fits (types : Types Name) : Inst Name → Prop
  | .store w a ptr =>
    ByteWidth w ∧ ptr.Addressed types ∧ (a.width types = some w ∨ ∃ dst j, a = .ssa (Name.temp dst j 3))
  | .select dst w c a b =>
    (types dst = some w ∨ ¬ dst.Lifted ∧ ByteWidth w) ∧
      (c.Dead ∨ a.width types = some w ∧ b.Fits types w)
  | .cast dst op src w a => types dst = some w ∧ op.Between src w ∧ a.width types = some src
  | .binary dst .and w a _ => types dst = some w ∧ a.width types = some w
  | _ => True

variable {types : Types Name}

theorem emitReads_fits {dst : Name} {size : ℕ} {address : Operand Name} (hdst : types dst = some size)
    (hsize : ByteWidth size) : ∀ (as : List Addr) {j : ℕ} {final : Operand Name},
      ∀ i ∈ emitReads dst size address j final as, i.Fits types
  | [], _, _, i, hi => nomatch hi
  | a :: as, j, final, i, hi => by
    rcases List.mem_append.mp hi with hi | hi
    · simp only [List.mem_cons, List.not_mem_nil, or_false] at hi
      rcases hi with rfl | rfl | rfl
      · trivial
      · trivial
      · refine ⟨?_, .inl ⟨dst, j, 2, rfl, by decide⟩⟩
        split
        · exact .inl hdst
        · exact .inr ⟨Nat.succ_ne_zero j, hsize⟩
    · exact emitReads_fits hdst hsize as i hi

theorem emitWrites_fits {dst : Name} {size : ℕ} {address value : Operand Name}
    (hvalue : value.width types = some size) (hsize : ByteWidth size) : ∀ (as : List Addr) {j : ℕ},
      ∀ i ∈ emitWrites dst size address value j as, i.Fits types
  | [], _, i, hi => nomatch hi
  | a :: as, j, i, hi => by
    rcases List.mem_append.mp hi with hi | hi
    · simp only [List.mem_cons, List.not_mem_nil, or_false] at hi
      rcases hi with rfl | rfl | rfl | rfl
      · trivial
      · trivial
      · exact ⟨.inr ⟨Nat.succ_ne_zero j, hsize⟩, .inr ⟨hvalue, .inr ⟨dst, j, 2, rfl, by decide⟩⟩⟩
      · exact ⟨hsize, (pagePtr_loadable a).addressed, .inr ⟨dst, j, rfl⟩⟩
    · exact emitWrites_fits hvalue hsize as i hi

theorem Resolution.lowerRead_fits {dst : Name} {size : ℕ} (address : Operand Name)
    (hdst : types dst = some size) (hsize : ByteWidth size) (r : Resolution) :
    ∀ i ∈ r.lowerRead dst size address, i.Fits types := by
  cases r with
  | literal a => exact List.forall_mem_singleton.mpr trivial
  | unresolved => exact List.forall_mem_singleton.mpr trivial
  | among as =>
    cases as with
    | nil => exact nofun
    | cons a as => exact List.forall_mem_cons.mpr ⟨trivial, emitReads_fits hdst hsize as⟩

theorem Resolution.lowerWrite_fits (dst : Name) {size : ℕ} {address value : Operand Name}
    (haddress : address.width types = some 64) (hvalue : value.width types = some size)
    (hsize : ByteWidth size) (r : Resolution) :
    ∀ i ∈ r.lowerWrite dst size address value, i.Fits types := by
  cases r with
  | literal a =>
    exact List.forall_mem_singleton.mpr ⟨hsize, (pagePtr_loadable a).addressed, .inl hvalue⟩
  | unresolved => exact List.forall_mem_singleton.mpr ⟨hsize, haddress, .inl hvalue⟩
  | among as => exact emitWrites_fits hvalue hsize as

/-- A lifted instruction that stays. -/
theorem Inst.OperandsTyped.fits {i : Inst Name} (h : i.OperandsTyped types)
    (hres : ∀ dst w, i.result = some (dst, w) → types dst = some w) : i.Fits types := by
  cases i with
  | store w a ptr =>
    exact ⟨h.1, (Renamed.loadable_of_storable h.2.2).addressed, .inl h.2.1⟩
  | select dst w c a b => exact ⟨.inl (hres dst w rfl), .inr ⟨h.2.1, .inl h.2.2⟩⟩
  | cast dst op src w a =>
    cases op with
    | zext | sext => exact ⟨hres dst w rfl, h.1, h.2⟩
    | trunc => exact ⟨hres dst w rfl, h.1.1, h.2⟩
  | binary dst op w a b =>
    cases op with
    | and => exact ⟨hres dst w rfl, h.2.1⟩
    | _ => trivial
  | _ => trivial

/-- **Every instruction of the lowered code fits.** -/
theorem Lowers.fits {insts code : List (Inst Name)} {rs : List Resolution} (h : Lowers insts rs code)
    (htyped : ∀ i ∈ insts, i.OperandsTyped types ∧
      ∀ dst w, i.result = some (dst, w) → types dst = some w) :
    ∀ i ∈ code, i.Fits types := by
  induction h with
  | nil => exact nofun
  | plain _ _ _ ih =>
    obtain ⟨⟨hi, hres⟩, htyped⟩ := List.forall_mem_cons.mp htyped
    exact List.forall_mem_cons.mpr ⟨hi.fits hres, ih htyped⟩
  | read _ _ ih =>
    obtain ⟨⟨hi, hres⟩, htyped⟩ := List.forall_mem_cons.mp htyped
    refine List.forall_mem_append.mpr ⟨?_, ih htyped⟩
    exact Resolution.lowerRead_fits _ (hres _ _ rfl) (byteWidth_of_mem hi.1) _
  | write _ ih =>
    obtain ⟨⟨hi, _⟩, htyped⟩ := List.forall_mem_cons.mp htyped
    refine List.forall_mem_append.mpr ⟨?_, ih htyped⟩
    exact Resolution.lowerWrite_fits _ hi.2.1 hi.2.2 (byteWidth_of_mem hi.1) _

theorem Cpu.Emulates.fits {semantics : Semantics} (h : c.Emulates M semantics c₁ c₂) :
    ∀ i ∈ (c₂.function c.numBlocks).insts, i.Fits (semantics.types c.numBlocks c.pc) := by
  obtain ⟨rs, code, hrun, rfl, _⟩ := h.run
  exact (runBlock_lowers hrun).fits (semantics.inBlock_typed c.numBlocks c.pc).final

end Vexa
