import Vexa.Value
import Vexa.Lib.Saturation

/-!
# Folding values to constants

`constant_propagation::propagate_ssa_values` replaces instructions by constants. An instruction is
replaced when all its operands are defined constants and the symbolic value recorded for it is a literal;
its users are looked at again afterwards, as one of their operands has become a constant.

## Instructions as a graph

Of an instruction we keep what `is_ssa_fold_candidate` asks about it, and its operands, which change as
instructions are replaced. The list of the users of an instruction is a parameter: LLVM keeps it in an
order that depends on how the function was built, and lists a user once for every use.

## What LLVM and the rewriter decide

`SsaAnalyses` collects the questions put to LLVM. `canCreateUndefOrPoison` and
`isSafeToSpeculativelyExecute` look at the instruction and its operands, and are asked when these are
constants. `symex` keeps its values in a `ValueMap`, which moves the value of a replaced instruction to
the constant; here it is dropped, as no constant is looked up.

## Main definitions

* `SsaFunction`, `SsaAnalyses`, `SsaState`
* `isSsaFoldCandidate`, `foldConstant`, `propagateSsaValues`
* `operandsAfter` — operands after some instructions were replaced
* `UseLists` — users in the order of LLVM

## Main results

* `propagateSsaValues_closure` — folding ends, folds all it can, and in no order of its own
-/

namespace Vexa

open Saturation

variable {N B : Type}

/-! ### Functions -/

structure ConstantInt where
  width : ℕ
  value : ℕ
deriving DecidableEq, Repr

/-- An operand: an instruction, an integer, another defined constant, `undef` or `poison`, or a value
that is neither a constant nor an instruction. -/
inductive SsaOperand (N : Type)
  | inst (name : N)
  | int (c : ConstantInt)
  | constant (id : ℕ)
  | undef
  | argument (id : ℕ)
deriving DecidableEq, Repr

/-- A constant that is not `undef` or `poison`. -/
def SsaOperand.isDefinedConstant : SsaOperand N → Bool
  | int _ | constant _ => true
  | inst _ | undef | argument _ => false

/-- The kinds of instructions `is_ssa_fold_candidate` tells apart. -/
inductive SsaKind
  | load | store | phi | terminator | operation
deriving DecidableEq, Repr

/-- An instruction. `type` is the width of its type, if that is an integer type. -/
structure SsaInst (N B : Type) where
  parent : Option B
  kind : SsaKind
  mayHaveSideEffects : Bool
  type : Option ℕ
  operands : List (SsaOperand N)

/-- A function. Every instruction with an instruction among its operands is in `insts`. -/
structure SsaFunction (N B : Type) where
  blocks : List B
  predSize : B → ℕ
  insts : List N
  inst : N → SsaInst N B
  mem_insts : ∀ x i, .inst i ∈ (inst x).operands → x ∈ insts

/-- What LLVM is asked: whether a block is in a loop, and the two tests of an instruction with its
operands. -/
structure SsaAnalyses (N B : Type) where
  loopFor : B → Bool
  canCreateUndefOrPoison : N → List (SsaOperand N) → Bool
  isSafeToSpeculativelyExecute : N → List (SsaOperand N) → Bool

/-- What `symex` has for an instruction. -/
inductive SsaSymbolic
  | value (v : Value)
  | pointer (p : Pointer)

/-- The state of the loop. `deadValues` also notes down the constants. -/
structure SsaState (N : Type) where
  operands : N → List (SsaOperand N)
  vars : N → Option SsaSymbolic
  worklist : List N
  queued : Finset N
  folded : Finset N
  deadValues : List (N × ConstantInt)

/-! ### The tests -/

/-- `has_only_defined_constant_operands`. -/
def hasOnlyDefinedConstantOperands (operands : List (SsaOperand N)) : Bool :=
  operands.all SsaOperand.isDefinedConstant

section

variable [DecidableEq N] [DecidableEq B] (F : SsaFunction N B) (A : SsaAnalyses N B)

/-- `joined_blocks`. -/
def joinedBlocks : List B := F.blocks.filter fun block => F.predSize block > 1

/-- `is_ssa_fold_candidate`, of an instruction with its operands; `sync` says whether `symex` knows it.
Every instruction is an `Operator`. -/
def isFoldCandidate (i : N) (operands : List (SsaOperand N)) (sync : Bool) : Bool :=
  match (F.inst i).parent with
  | none => false
  | some block =>
    if (F.inst i).kind ≠ .operation ∨ (F.inst i).mayHaveSideEffects = true ∨ (F.inst i).type = none ∨
        A.loopFor block = true ∨ block ∈ joinedBlocks F ∨
        hasOnlyDefinedConstantOperands operands = false then false
    else !A.canCreateUndefOrPoison i operands && A.isSafeToSpeculativelyExecute i operands && sync

def isSsaFoldCandidate (s : SsaState N) (i : N) : Bool :=
  isFoldCandidate F A i (s.operands i) (s.vars i).isSome

/-- The constant for a symbolic value, if the value is to be replaced: it is no pointer, and is rewritten
to a literal of the width of the type. `as_uint64` keeps 64 bits of it. The values recorded are
bit-vectors; a boolean has no size. -/
def foldConstant (S : Solver) (type : Option ℕ) : SsaSymbolic → Option ConstantInt
  | .pointer _ => none
  | .value v =>
    let v := v.simplify S
    if v.isConcrete = false ∨ type ≠ some v.size then none
    else v.asUint64.map fun n => ⟨v.size, n.toNat % 2 ^ v.size⟩

/-! ### The loop -/

/-- One use of a replaced instruction. -/
def replaceUse (i : N) (c : ConstantInt) (v : SsaOperand N) : SsaOperand N :=
  if v = .inst i then .int c else v

/-- `replaceAllUsesWith`. -/
def SsaState.replaceAllUsesWith (s : SsaState N) (i : N) (c : ConstantInt) : SsaState N :=
  { s with
    operands := fun x => (s.operands x).map (replaceUse i c)
    vars := Function.update s.vars i none }

/-- `enqueue`. -/
def SsaState.enqueue (s : SsaState N) (i : N) : SsaState N :=
  if i ∉ s.folded ∧ i ∉ s.queued then
    { s with worklist := s.worklist ++ [i], queued := insert i s.queued }
  else s

variable (S : Solver) (users : List (N × ConstantInt) → N → List N)

/-- The body of the loop, for an instruction taken from the worklist. -/
def SsaState.visit (s : SsaState N) (i : N) : SsaState N :=
  if i ∈ s.folded ∨ isSsaFoldCandidate F A s i = false then s
  else match (s.vars i).bind (foldConstant S (F.inst i).type) with
    | none => s
    | some constant =>
      let s' := { s with folded := insert i s.folded }.replaceAllUsesWith i constant
      (users s.deadValues i).foldl SsaState.enqueue
        { s' with deadValues := s.deadValues ++ [(i, constant)] }

def propagateLoop : ℕ → SsaState N → Option (SsaState N)
  | 0, _ => none
  | fuel + 1, s =>
    match s.worklist with
    | [] => some s
    | i :: rest => propagateLoop fuel
        (SsaState.visit F A S users { s with worklist := rest, queued := s.queued.erase i } i)

/-- The state before the loop. -/
def SsaState.start (vars : N → Option SsaSymbolic) (seeds : List N) : SsaState N :=
  seeds.foldl SsaState.enqueue ⟨fun i => (F.inst i).operands, vars, [], ∅, ∅, []⟩

/-- `propagate_ssa_values`, with the number of rounds after which it is given up. -/
def propagateSsaValues (vars : N → Option SsaSymbolic) (seeds : List N) (fuel : ℕ) :
    Option (SsaState N) :=
  propagateLoop F A S users fuel (.start F vars seeds)

end

/-! ### Operands after replacements -/

section

variable [DecidableEq N]

/-- An operand after some instructions were replaced, in this order. -/
def substitute (log : List (N × ConstantInt)) (v : SsaOperand N) : SsaOperand N :=
  log.foldl (fun v r => replaceUse r.1 r.2 v) v

def operandsAfter (log : List (N × ConstantInt)) (operands : List (SsaOperand N)) :
    List (SsaOperand N) :=
  operands.map (substitute log)

theorem substitute_append (log log' : List (N × ConstantInt)) (v : SsaOperand N) :
    substitute (log ++ log') v = substitute log' (substitute log v) := List.foldl_append

theorem substitute_concat (log : List (N × ConstantInt)) (i : N) (c : ConstantInt)
    (v : SsaOperand N) : substitute (log ++ [(i, c)]) v = replaceUse i c (substitute log v) :=
  substitute_append log [(i, c)] v

theorem operandsAfter_concat (log : List (N × ConstantInt)) (i : N) (c : ConstantInt)
    (operands : List (SsaOperand N)) : operandsAfter (log ++ [(i, c)]) operands =
      (operandsAfter log operands).map (replaceUse i c) := by
  rw [operandsAfter, operandsAfter, List.map_map]
  exact List.map_congr_left fun v _ => substitute_concat log i c v

/-- Only instructions are replaced. -/
theorem substitute_of_ne {v : SsaOperand N} (h : ∀ i, v ≠ .inst i) :
    ∀ log : List (N × ConstantInt), substitute log v = v
  | [] => rfl
  | (i, c) :: log => by
    rw [substitute, List.foldl_cons, replaceUse, if_neg (h i)]
    exact substitute_of_ne h log

/-- An instruction stays an operand until it is replaced, and becomes a constant then. -/
theorem substitute_inst (i : N) : ∀ log : List (N × ConstantInt),
    (i ∉ keys log ∧ substitute log (.inst i) = .inst i) ∨
      ∃ c, (i, c) ∈ log ∧ substitute log (.inst i) = .int c
  | [] => .inl ⟨List.not_mem_nil, rfl⟩
  | (j, c) :: log => by
    by_cases hij : i = j
    · subst hij
      right
      refine ⟨c, List.mem_cons_self, ?_⟩
      rw [substitute, List.foldl_cons, replaceUse, if_pos rfl]
      exact substitute_of_ne (fun j hj => by cases hj) log
    · have hstep : substitute ((j, c) :: log) (.inst i) = substitute log (.inst i) := by
        rw [substitute, List.foldl_cons, replaceUse, if_neg fun heq => hij (SsaOperand.inst.inj heq)]
        rfl
      rw [hstep]
      rcases substitute_inst i log with ⟨hnew, hsub⟩ | ⟨c', hmem, hsub⟩
      · exact .inl ⟨fun hmem => (List.mem_cons.mp hmem).elim hij hnew, hsub⟩
      · exact .inr ⟨c', List.mem_cons_of_mem _ hmem, hsub⟩

/-- Replacements do not make new uses. -/
theorem inst_mem_of_operandsAfter {log : List (N × ConstantInt)} {i : N}
    {operands : List (SsaOperand N)} (h : .inst i ∈ operandsAfter log operands) :
    .inst i ∈ operands := by
  obtain ⟨v, hv, hsub⟩ := List.mem_map.mp h
  by_cases hinst : ∃ j, v = .inst j
  · obtain ⟨j, rfl⟩ := hinst
    rcases substitute_inst j log with ⟨-, hj⟩ | ⟨c, -, hj⟩
    · rw [hj] at hsub
      rwa [← SsaOperand.inst.inj hsub]
    · rw [hj] at hsub
      cases hsub
  · rw [substitute_of_ne (fun j hj => hinst ⟨j, hj⟩)] at hsub
    exact absurd ⟨i, hsub⟩ hinst

/-- Until an instruction is replaced, its uses are there. -/
theorem inst_mem_operandsAfter {log : List (N × ConstantInt)} {i : N} (hnew : i ∉ keys log)
    (operands : List (SsaOperand N)) :
    .inst i ∈ operandsAfter log operands ↔ .inst i ∈ operands := by
  refine ⟨inst_mem_of_operandsAfter, fun hmem => ?_⟩
  rcases substitute_inst i log with ⟨-, hi⟩ | ⟨c, hc, -⟩
  · exact List.mem_map.mpr ⟨.inst i, hmem, hi⟩
  · exact absurd (mem_keys_of_mem hc) hnew

/-- A use that is not there is not replaced. -/
theorem map_replaceUse_of_not_mem {i : N} {c : ConstantInt} {operands : List (SsaOperand N)}
    (h : .inst i ∉ operands) : operands.map (replaceUse i c) = operands := by
  have hkeep : ∀ v ∈ operands, replaceUse i c v = id v := by
    intro v hv
    refine if_neg fun heq => h ?_
    rwa [← heq]
  rw [List.map_congr_left hkeep, List.map_id]

/-- **Constants stay**: an operand that was replaced, or is a constant anyway, is not changed by further
replacements, in whatever order they are made. -/
theorem substitute_mono {log log' : List (N × ConstantInt)} (hsub : log ⊆ log')
    (hnodup : (keys log').Nodup) {v : SsaOperand N}
    (h : (substitute log v).isDefinedConstant = true) : substitute log' v = substitute log v := by
  by_cases hinst : ∃ i, v = .inst i
  · obtain ⟨i, rfl⟩ := hinst
    rcases substitute_inst i log with ⟨-, hi⟩ | ⟨c, hc, hi⟩
    · rw [hi] at h
      cases h
    · rcases substitute_inst i log' with ⟨hnew, -⟩ | ⟨c', hc', hi'⟩
      · exact absurd (mem_keys_of_mem (hsub hc)) hnew
      · have heq := List.inj_on_of_nodup_map hnodup (hsub hc) hc' rfl
        rw [hi, hi', (Prod.mk.inj heq).2]
  · have hne : ∀ i, v ≠ .inst i := fun i hi => hinst ⟨i, hi⟩
    rw [substitute_of_ne hne, substitute_of_ne hne]

/-- The operands of an instruction that can be folded stay as they are. -/
theorem operandsAfter_mono {log log' : List (N × ConstantInt)} (hsub : log ⊆ log')
    (hnodup : (keys log').Nodup) {operands : List (SsaOperand N)}
    (h : hasOnlyDefinedConstantOperands (operandsAfter log operands) = true) :
    operandsAfter log' operands = operandsAfter log operands := by
  rw [hasOnlyDefinedConstantOperands, List.all_eq_true] at h
  exact List.map_congr_left fun v hv => substitute_mono hsub hnodup (h _ (List.mem_map_of_mem hv))

end

/-! ### What can be folded -/

section

variable [DecidableEq N] [DecidableEq B] (F : SsaFunction N B) (A : SsaAnalyses N B) (S : Solver)
  (vars : N → Option SsaSymbolic)

/-- The constant of an instruction that can be folded, after those of the log. -/
def foldableTo (log : List (N × ConstantInt)) (i : N) : Option ConstantInt :=
  if isFoldCandidate F A i (operandsAfter log (F.inst i).operands) (vars i).isSome = true then
    (vars i).bind (foldConstant S (F.inst i).type)
  else none

/-- `x` has `i` among its operands. -/
def SsaFunction.Uses (i x : N) : Prop := .inst i ∈ (F.inst x).operands

/-- The users of an instruction, in the order LLVM lists them. -/
structure UseLists where
  users : List (N × ConstantInt) → N → List N
  mem_users : ∀ log i x, x ∈ users log i ↔ .inst i ∈ operandsAfter log (F.inst x).operands

/-- The users in the order of the function. -/
def UseLists.ofInsts : UseLists F where
  users log i := F.insts.filter fun x => .inst i ∈ operandsAfter log (F.inst x).operands
  mem_users log i x := by
    rw [List.mem_filter, decide_eq_true_iff]
    exact ⟨And.right, fun h => ⟨F.mem_insts x i (inst_mem_of_operandsAfter h), h⟩⟩

/-- The value is no pointer, and is simplified to a literal of the width of the type. -/
def FoldsToLiteral (type : Option ℕ) (x : SsaSymbolic) : Prop :=
  ∃ v w n, x = .value v ∧ (v.simplify S).term = .value w n ∧ type = some w

variable {F A S vars}

omit [DecidableEq B] in
theorem UseLists.mem_users_iff (U : UseLists F) (log : List (N × ConstantInt)) (i : N)
    (hnew : i ∉ keys log) (x : N) : x ∈ U.users log i ↔ F.Uses i x :=
  (U.mem_users log i x).trans (inst_mem_operandsAfter hnew _)

theorem foldConstant_eq_none {type : Option ℕ} {x : SsaSymbolic}
    (h : foldConstant S type x = none) : ¬ FoldsToLiteral S type x := by
  rintro ⟨v, w, n, rfl, hterm, rfl⟩
  simp [foldConstant, Value.isConcrete, Value.size, Value.asUint64, hterm, Term.isValue, Term.bits,
    Term.sort, TermSort.bits, Term.asUint64] at h

omit [DecidableEq N] in
theorem hasOnlyDefined_of_isFoldCandidate {i : N} {operands : List (SsaOperand N)} {sync : Bool}
    (h : isFoldCandidate F A i operands sync = true) :
    hasOnlyDefinedConstantOperands operands = true := by
  rw [isFoldCandidate] at h
  split at h
  · cases h
  · split at h
    · cases h
    · next hnot =>
      rw [← Bool.not_eq_false]
      exact fun hop => hnot (.inr (.inr (.inr (.inr (.inr hop)))))

theorem isFoldCandidate_of_foldableTo {log : List (N × ConstantInt)} {i : N} {c : ConstantInt}
    (h : foldableTo F A S vars log i = some c) :
    isFoldCandidate F A i (operandsAfter log (F.inst i).operands) (vars i).isSome = true := by
  by_contra hnot
  rw [foldableTo, if_neg hnot] at h
  cases h

/-- **What can be folded stays so**, and looks at the operands only. -/
theorem foldableTo_stable : Stable (foldableTo F A S vars) F.Uses where
  mono := by
    intro log log' i c hsub hnodup h
    have hcandidate := isFoldCandidate_of_foldableTo h
    have hoperands := operandsAfter_mono hsub hnodup (hasOnlyDefined_of_isFoldCandidate hcandidate)
    rw [foldableTo, hoperands]
    exact h
  frame := by
    intro log i x c hfree
    have hkeep : .inst i ∉ operandsAfter log (F.inst x).operands :=
      fun h => hfree (inst_mem_of_operandsAfter h)
    rw [foldableTo, operandsAfter_concat, map_replaceUse_of_not_mem hkeep]
    rfl

end

/-! ### The loop as a worklist -/

section

variable [DecidableEq N] [DecidableEq B] {F : SsaFunction N B} {A : SsaAnalyses N B} {S : Solver}
  {vars : N → Option SsaSymbolic} {users : List (N × ConstantInt) → N → List N}

/-- What the loop works on, without the function. -/
def SsaState.work (s : SsaState N) : Work N ConstantInt := ⟨s.worklist, s.queued, s.deadValues⟩

/-- The operands and the symbolic values are those left by the replacements made. -/
structure SsaState.Current (F : SsaFunction N B) (vars : N → Option SsaSymbolic) (s : SsaState N) :
    Prop where
  operands : ∀ x, s.operands x = operandsAfter s.deadValues (F.inst x).operands
  vars : ∀ i, s.vars i = if i ∈ keys s.deadValues then none else vars i
  folded : ∀ i, i ∈ s.folded ↔ i ∈ keys s.deadValues

namespace SsaState.Current

variable {s : SsaState N}

omit [DecidableEq B] in
theorem enqueue (h : s.Current F vars) (i : N) :
    (s.enqueue i).Current F vars ∧ (s.enqueue i).work = s.work.enqueue i := by
  rw [SsaState.enqueue, Work.enqueue]
  by_cases hnew : i ∉ s.folded ∧ i ∉ s.queued
  · have hnew' : i ∉ keys s.work.log ∧ i ∉ s.work.queued :=
      ⟨fun hmem => hnew.1 ((h.folded i).mpr hmem), hnew.2⟩
    rw [if_pos hnew, if_pos hnew']
    exact ⟨⟨h.operands, h.vars, h.folded⟩, rfl⟩
  · have hold : ¬ (i ∉ keys s.work.log ∧ i ∉ s.work.queued) :=
      fun hboth => hnew ⟨fun hmem => hboth.1 ((h.folded i).mp hmem), hboth.2⟩
    rw [if_neg hnew, if_neg hold]
    exact ⟨h, rfl⟩

omit [DecidableEq B] in
theorem foldl_enqueue : ∀ (l : List N) {s : SsaState N}, s.Current F vars →
    (l.foldl SsaState.enqueue s).Current F vars ∧
      (l.foldl SsaState.enqueue s).work = l.foldl Work.enqueue s.work
  | [], _, h => ⟨h, rfl⟩
  | i :: l, s, h => by
    obtain ⟨hnext, hwork⟩ := h.enqueue i
    rw [List.foldl_cons, List.foldl_cons, ← hwork]
    exact foldl_enqueue l hnext

/-- The test made by the loop, of an instruction not replaced yet. -/
theorem isSsaFoldCandidate_eq (h : s.Current F vars) {i : N} (hnew : i ∉ keys s.deadValues) :
    isSsaFoldCandidate F A s i =
      isFoldCandidate F A i (operandsAfter s.deadValues (F.inst i).operands) (vars i).isSome := by
  rw [isSsaFoldCandidate, h.operands, h.vars, if_neg hnew]

omit [DecidableEq B] in
/-- **One replacement.** -/
theorem replaceAllUsesWith (h : s.Current F vars) (i : N) (c : ConstantInt) :
    { ({ s with folded := insert i s.folded }.replaceAllUsesWith i c) with
      deadValues := s.deadValues ++ [(i, c)] }.Current F vars where
  operands x := by
    simp only [SsaState.replaceAllUsesWith, operandsAfter_concat, h.operands]
  vars x := by
    simp only [SsaState.replaceAllUsesWith, keys_append, keys_singleton, List.mem_append,
      List.mem_singleton, Function.update_apply, h.vars]
    by_cases hx : x = i
    · rw [if_pos hx, if_pos (.inr hx)]
    · simp [hx]
  folded x := by
    simp only [SsaState.replaceAllUsesWith, keys_append, keys_singleton, List.mem_append,
      List.mem_singleton, Finset.mem_insert, h.folded]
    exact or_comm

/-- **The body of the loop** is a round of the worklist. -/
theorem visit (h : s.Current F vars) (i : N) :
    (s.visit F A S users i).Current F vars ∧
      (s.visit F A S users i).work = Work.visit (foldableTo F A S vars) users s.work i := by
  rw [SsaState.visit, Work.visit]
  by_cases hold : i ∈ keys s.deadValues
  · rw [if_pos (.inl ((h.folded i).mpr hold)), if_pos (show i ∈ keys s.work.log from hold)]
    exact ⟨h, rfl⟩
  · rw [if_neg (show i ∉ keys s.work.log from hold)]
    have hlog : foldableTo F A S vars s.work.log i = foldableTo F A S vars s.deadValues i := rfl
    rw [hlog, foldableTo, ← h.isSsaFoldCandidate_eq hold]
    cases hcandidate : isSsaFoldCandidate F A s i with
    | false => exact ⟨by simpa using h, by simp⟩
    | true =>
      have hnot : ¬ (i ∈ s.folded ∨ true = false) := by
        rintro (hmem | hfalse)
        · exact hold ((h.folded i).mp hmem)
        · cases hfalse
      rw [if_neg hnot, if_pos rfl, h.vars, if_neg hold]
      cases (vars i).bind (foldConstant S (F.inst i).type) with
      | none => exact ⟨h, rfl⟩
      | some c => exact foldl_enqueue (users s.deadValues i) (h.replaceAllUsesWith i c)

end SsaState.Current

/-- **The loop is the loop of the worklist.** -/
theorem propagateLoop_eq : ∀ (fuel : ℕ) {s : SsaState N}, s.Current F vars →
    (propagateLoop F A S users fuel s).map SsaState.deadValues =
      saturate (foldableTo F A S vars) users fuel s.work
  | 0, _, _ => rfl
  | fuel + 1, s, h => by
    rw [propagateLoop, saturate]
    cases hlist : s.worklist with
    | nil => simp [SsaState.work, hlist]
    | cons i rest =>
      have hpop : (⟨s.operands, s.vars, rest, s.queued.erase i, s.folded, s.deadValues⟩ :
          SsaState N).Current F vars := ⟨h.operands, h.vars, h.folded⟩
      have hlist' : s.work.worklist = i :: rest := hlist
      rw [propagateLoop_eq fuel (hpop.visit i).1, (hpop.visit i).2, hlist']
      rfl

theorem current_of_propagateLoop : ∀ {fuel : ℕ} {s s' : SsaState N}, s.Current F vars →
    propagateLoop F A S users fuel s = some s' → s'.Current F vars
  | 0, _, _, _, h => nomatch h
  | fuel + 1, s, s', hs, h => by
    rw [propagateLoop] at h
    split at h
    · exact Option.some.inj h ▸ hs
    · next i rest _ =>
      have hpop : (⟨s.operands, s.vars, rest, s.queued.erase i, s.folded, s.deadValues⟩ :
          SsaState N).Current F vars := ⟨hs.operands, hs.vars, hs.folded⟩
      exact current_of_propagateLoop (hpop.visit i).1 h

/-! ### The closure -/

variable (F vars) in
omit [DecidableEq B] in
/-- The state before the loop. -/
theorem start_current (seeds : List N) : (SsaState.start F vars seeds).Current F vars ∧
    (SsaState.start F vars seeds).work = seeds.foldl Work.enqueue ⟨[], ∅, []⟩ := by
  have hempty : (⟨fun i => (F.inst i).operands, vars, [], ∅, ∅, []⟩ : SsaState N).Current F vars :=
    ⟨fun x => (List.map_id' _).symm, fun i => rfl, fun i => by simp⟩
  exact hempty.foldl_enqueue seeds

/-- What the loop leaves cannot be continued. -/
theorem saturated_of_propagateSsaValues (U : UseLists F) {seeds : List N} {fuel : ℕ}
    {s : SsaState N} (h : propagateSsaValues F A S U.users vars seeds fuel = some s) :
    s.Current F vars ∧ Saturated (foldableTo F A S vars) F.Uses seeds s.deadValues := by
  obtain ⟨hcurrent, hwork⟩ := start_current F vars seeds
  refine ⟨current_of_propagateLoop hcurrent h, ?_⟩
  have hrun : (propagateLoop F A S U.users fuel (.start F vars seeds)).map SsaState.deadValues = _ :=
    propagateLoop_eq fuel hcurrent
  rw [propagateSsaValues] at h
  rw [h, hwork] at hrun
  exact saturated_of_saturate foldableTo_stable U.mem_users_iff (Work.Inv.start _ _ seeds) hrun.symm

variable (A S vars) in
/-- The loop ends: an instruction is queued at most once for every instruction replaced. -/
theorem exists_propagateSsaValues (U : UseLists F) (seeds : List N) :
    ∃ fuel s, propagateSsaValues F A S U.users vars seeds fuel = some s := by
  obtain ⟨hcurrent, hwork⟩ := start_current F vars seeds
  have hinv := Work.Inv.start (foldableTo F A S vars) F.Uses seeds
  obtain ⟨log, hlog⟩ := exists_saturate (P := seeds.toFinset ∪ F.insts.toFinset) foldableTo_stable
    U.mem_users_iff (fun a ha => by simp [ha])
    (fun a x hx => by simp [F.mem_insts x a hx]) hinv (Nat.lt_succ_self _)
  rw [← hwork, ← propagateLoop_eq _ hcurrent] at hlog
  obtain ⟨s, hs, -⟩ := Option.map_eq_some_iff.mp hlog
  exact ⟨_, s, hs⟩

end

/-- **Folding reaches the full closure.** The loop ends. An instruction was replaced when its operands
were defined constants; no seed and no user of a replaced instruction is left that could be folded; and
whatever the order of the seeds and of the users, the same instructions are replaced by the same
constants. -/
theorem propagateSsaValues_closure [DecidableEq N] [DecidableEq B] (F : SsaFunction N B)
    (A : SsaAnalyses N B) (S : Solver) (vars : N → Option SsaSymbolic) (U : UseLists F)
    (seeds : List N) :
    ∃ fuel s, propagateSsaValues F A S U.users vars seeds fuel = some s ∧
      (∀ pre i c post, s.deadValues = pre ++ (i, c) :: post →
        hasOnlyDefinedConstantOperands (operandsAfter pre (F.inst i).operands) = true) ∧
      (∀ i, (i ∈ seeds ∨ ∃ r ∈ s.deadValues, F.Uses r.1 i) → isSsaFoldCandidate F A s i = true →
        ∀ x, s.vars i = some x → ¬ FoldsToLiteral S (F.inst i).type x) ∧
      ∀ (U' : UseLists F) seeds' fuel' s', (∀ i, i ∈ seeds' ↔ i ∈ seeds) →
        propagateSsaValues F A S U'.users vars seeds' fuel' = some s' →
        ∀ r, r ∈ s'.deadValues ↔ r ∈ s.deadValues := by
  obtain ⟨fuel, s, hrun⟩ := exists_propagateSsaValues A S vars U seeds
  obtain ⟨hcurrent, hsat⟩ := saturated_of_propagateSsaValues U hrun
  refine ⟨fuel, s, hrun, ?_, ?_, ?_⟩
  · intro pre i c post hsplit
    obtain ⟨-, hfold, -⟩ := hsat.fired pre i c post hsplit
    exact hasOnlyDefined_of_isFoldCandidate (isFoldCandidate_of_foldableTo hfold)
  · intro i hreached hcandidate x hx
    -- the value of a replaced instruction is gone
    have hnew : i ∉ keys s.deadValues := by
      intro hmem
      rw [hcurrent.vars, if_pos hmem] at hx
      cases hx
    have hnone := hsat.rest i hreached hnew
    rw [hcurrent.isSsaFoldCandidate_eq hnew] at hcandidate
    rw [hcurrent.vars, if_neg hnew] at hx
    rw [foldableTo, if_pos hcandidate, hx, Option.bind_some] at hnone
    exact foldConstant_eq_none hnone
  · intro U' seeds' fuel' s' hseeds hrun' r
    obtain ⟨-, hsat'⟩ := saturated_of_propagateSsaValues U' hrun'
    exact Saturated.mem_iff foldableTo_stable hseeds hsat' hsat r

/-- `%0 = 3 + 4` and `%1 = %0 + 1`, with `%1` looked at first. -/
example :
    let inst : ℕ → SsaInst ℕ Unit := fun i =>
      { parent := some (), kind := .operation, mayHaveSideEffects := false, type := some 8
        operands := if i = 1 then [.inst 0, .int ⟨8, 1⟩] else [.int ⟨8, 3⟩, .int ⟨8, 4⟩] }
    let F : SsaFunction ℕ Unit :=
      { blocks := [()], predSize := fun _ => 0, insts := [0, 1], inst := inst
        mem_insts := fun x i h => by
          by_cases hx : x = 1
          · simp [hx]
          · simp [inst, hx] at h }
    let A : SsaAnalyses ℕ Unit := ⟨fun _ => false, fun _ _ => false, fun _ _ => true⟩
    let vars : ℕ → Option SsaSymbolic := fun i => some (.value (.concrete (7 + i) 8))
    (propagateSsaValues F A .folding (UseLists.ofInsts F).users vars [1, 0] 8).map
      SsaState.deadValues = some [(0, ⟨8, 7⟩), (1, ⟨8, 8⟩)] := by
  decide +kernel

end Vexa
