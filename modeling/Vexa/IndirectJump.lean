import Vexa.ControlFlow
import Mathlib.Data.Set.Card

/-!
# Resolving indirect jumps

An indirect jump whose target is not a constant goes on at one address, or forks between two, when
the solver finds one or two values for the target. The number of values is all it looks at: that the
solver gave up after one or two values is not told apart from there being no more. So a jump with one
value is complete, one with two values if the solver finds the second, and one with more values never.

## Main definitions

* `Continues` — the addresses at which the lifter goes on
* `JumpComplete` — every value of the target is one of them
* `JumpSettled` — the target has one value, or two of which the solver finds the second

## Main results

* `jumpSettled_of_unsat` — so it is when the enumeration ended with `unsat`
* `indirectJump_complete_iff` — when a resolution is complete
-/

namespace Vexa

variable {M : Machine} {c c' : Cpu} {next : DualValue} {ν : Valuation}

/-- The lifter goes on at `target` in `c'`: now, or from the path just saved. -/
def Continues (c c' : Cpu) (target : Addr) : Prop :=
  target = c'.pc ∨ ∃ ss, c'.unexploredPaths = ss :: c.unexploredPaths ∧ target = ss.pc

/-- Every value of the jump term under the path constraints is an address the lifter goes on at. -/
def JumpComplete (c c' : Cpu) (next : Value) : Prop :=
  ∀ ν, Satisfies ν c.pathConstraints → Continues c c' (BitVec.ofNat 64 (next.eval ν))

/-- The solver answers the first check and the one for another value with a model. -/
def FindsSecond (S : Solver) (A : List Term) (checks : ℕ) (t : Term) : Prop :=
  ∃ m₁ m₂, S.checkSat checks A = .sat m₁ ∧
    S.checkSat (checks + 1) (A ++ [differs t (.literal t.sort (t.eval m₁))]) = .sat m₂

/-- Under the path constraints the jump term has one value, or two and the solver finds the second. -/
def JumpSettled (M : Machine) (next : DualValue) (c : Cpu) : Prop :=
  {x | Feasible c.pathConstraints next.v.term x}.encard = 1 ∨
    ({x | Feasible c.pathConstraints next.v.term x}.encard = 2 ∧
      FindsSecond M.solver c.pathConstraints (c.rewriteTarget M next).symex.context.checks
        (next.v.simplify M.solver).term)

/-! ### The values of the target -/

/-- The values found, as numbers. -/
theorem exists_targets (hS : M.solver.Sound) (hsort : next.v.term.sort = .bv 64) (c : Cpu) :
    ∃ ns : List ℕ, jumpTargets M next c = ns.map addressTerm ∧ ns.Nodup ∧
      (∀ n ∈ ns, n < 2 ^ 64 ∧ ∃ μ, Satisfies μ c.pathConstraints ∧ next.v.eval μ = n) ∧
      ((possibleValues M.solver c.pathConstraints (c.rewriteTarget M next).symex.context.checks
          (next.v.simplify M.solver).term).2.1 = .unsat →
        ∀ ν, Satisfies ν c.pathConstraints → next.v.eval ν ∈ ns) := by
  have hsort' : (next.v.simplify M.solver).term.sort = .bv 64 :=
    (Value.sort_simplify hS next.v).trans hsort
  obtain ⟨ns, hns, hnodup, hfeasible, hcomplete⟩ := exists_addresses hS hsort' c.pathConstraints
    (c.rewriteTarget M next).symex.context.checks
  refine ⟨ns, hns, hnodup, fun n hn => ?_, fun hunsat ν hν => ?_⟩
  · obtain ⟨hlt, μ, hμ, heq⟩ := hfeasible n hn
    exact ⟨hlt, μ, hμ, (Value.eval_simplify hS μ next.v).symm.trans heq⟩
  · rw [← Value.eval_simplify hS ν next.v]
    exact hcomplete hunsat ν hν

/-- As many values as were found: every value was found. -/
theorem encard_eq_length_iff {ns : List ℕ} (hnodup : ns.Nodup)
    (hfeasible : ∀ n ∈ ns, ∃ μ, Satisfies μ c.pathConstraints ∧ next.v.eval μ = n) :
    {x | Feasible c.pathConstraints next.v.term x}.encard = ns.length ↔
      ∀ ν, Satisfies ν c.pathConstraints → next.v.eval ν ∈ ns := by
  have hcard : ((ns.toFinset : Set ℕ)).encard = ns.length := by
    rw [Set.encard_coe_eq_coe_finsetCard, List.toFinset_card_of_nodup hnodup]
  have hsub : (ns.toFinset : Set ℕ) ⊆ {x | Feasible c.pathConstraints next.v.term x} := by
    intro n hn
    exact hfeasible n (List.mem_toFinset.mp hn)
  rw [← hcard]
  constructor
  · intro heq ν hν
    have hsame := (ns.toFinset.finite_toSet).eq_of_subset_of_encard_le hsub heq.le
    have hmem : next.v.eval ν ∈ (ns.toFinset : Set ℕ) := hsame ▸ ⟨ν, hν, rfl⟩
    exact List.mem_toFinset.mp hmem
  · intro hall
    refine le_antisymm (Set.encard_le_encard ?_) (Set.encard_le_encard hsub)
    rintro x ⟨ν, hν, rfl⟩
    exact List.mem_toFinset.mpr (hall ν hν)

/-- The values found so far stay. -/
theorem length_le_possibleLoop (S : Solver) (t : Term) : ∀ (room checks : ℕ) (A solved : List Term),
    solved.length ≤ (possibleLoop S t room checks A solved).1.length := by
  intro room
  induction room with
  | zero => exact fun _ _ _ => le_rfl
  | succ room ih =>
    intro checks A solved
    rw [possibleLoop]
    split
    · refine le_trans ?_ (ih _ _ _)
      rw [List.length_append]
      omega
    · exact le_rfl

/-- Two values are found when the second check is answered with a model, too. -/
theorem findsSecond_iff (S : Solver) (A : List Term) (checks : ℕ) (t : Term) :
    FindsSecond S A checks t ↔ 2 ≤ (possibleValues S A checks t).1.length := by
  rw [possibleValues, possibleLoop]
  cases h₁ : S.checkSat checks A with
  | sat m₁ =>
    simp only
    rw [possibleLoop]
    cases h₂ : S.checkSat (checks + 1) (A ++ [differs t (.literal t.sort (t.eval m₁))]) with
    | sat m₂ =>
      refine iff_of_true ⟨m₁, m₂, h₁, h₂⟩ ?_
      exact length_le_possibleLoop S t 18 _ _ ([_] ++ [_])
    | unsat | unknown =>
      refine iff_of_false ?_ (by simp)
      rintro ⟨m, m', hm, hm'⟩
      obtain rfl := Answer.sat.inj (h₁.symm.trans hm)
      cases h₂.symm.trans hm'
  | unsat | unknown =>
    refine iff_of_false ?_ (by simp)
    rintro ⟨m, m', hm, _⟩
    cases h₁.symm.trans hm

/-- **When the lifter goes on**, with one value or with two, the jump is settled exactly if they are all
there are. -/
theorem jumpSettled_iff {ns : List ℕ} (hns : jumpTargets M next c = ns.map addressTerm)
    (hnodup : ns.Nodup)
    (hfeasible : ∀ n ∈ ns, ∃ μ, Satisfies μ c.pathConstraints ∧ next.v.eval μ = n)
    (hlen : ns.length = 1 ∨ ns.length = 2) :
    JumpSettled M next c ↔ ∀ ν, Satisfies ν c.pathConstraints → next.v.eval ν ∈ ns := by
  have hfound : (jumpTargets M next c).length = ns.length := by rw [hns, List.length_map]
  have hall := encard_eq_length_iff hnodup hfeasible
  have hle : (ns.length : ℕ∞) ≤ {x | Feasible c.pathConstraints next.v.term x}.encard := by
    rw [← List.toFinset_card_of_nodup hnodup, ← Set.encard_coe_eq_coe_finsetCard]
    exact Set.encard_le_encard fun n hn => hfeasible n (List.mem_toFinset.mp hn)
  rw [JumpSettled, findsSecond_iff]
  change _ ∨ _ ∧ 2 ≤ (jumpTargets M next c).length ↔ _
  rw [hfound, ← hall]
  rcases hlen with hone | htwo
  · rw [hone]
    exact ⟨fun h => h.resolve_right fun h => absurd h.2 (by decide), .inl⟩
  · rw [htwo] at hle ⊢
    refine ⟨fun h => h.elim (fun hone => ?_) And.left, fun h => .inr ⟨h, le_rfl⟩⟩
    rw [hone] at hle
    exact absurd hle (by decide)

/-- **An enumeration that ended with `unsat` found every value**, so asking for the answer of the last
check, as `write_memory` and `read_memory` do for several addresses, would be enough. -/
theorem jumpSettled_of_unsat (hS : M.solver.Sound) (hsort : next.v.term.sort = .bv 64)
    (hlen : (jumpTargets M next c).length = 1 ∨ (jumpTargets M next c).length = 2)
    (hunsat : (possibleValues M.solver c.pathConstraints
      (c.rewriteTarget M next).symex.context.checks (next.v.simplify M.solver).term).2.1 = .unsat) :
    JumpSettled M next c := by
  obtain ⟨ns, hns, hnodup, hfeasible, hcomplete⟩ := exists_targets hS hsort c
  rw [hns, List.length_map] at hlen
  exact (jumpSettled_iff hns hnodup (fun n hn => (hfeasible n hn).2) hlen).mpr (hcomplete hunsat)

/-- Equal addresses are equal numbers. -/
theorem ofNat_eval_eq_iff {v : Value} (hsort : v.term.sort = .bv 64) {n : ℕ} (hn : n < 2 ^ 64) :
    BitVec.ofNat 64 (v.eval ν) = BitVec.ofNat 64 n ↔ v.eval ν = n := by
  have hlt : v.eval ν < 2 ^ 64 := by
    have hlt := Value.eval_lt ν v
    rwa [Value.size, Term.bits, hsort] at hlt
  constructor
  · intro h
    have hnat := congrArg BitVec.toNat h
    rwa [BitVec.toNat_ofNat, BitVec.toNat_ofNat, Nat.mod_eq_of_lt hlt, Nat.mod_eq_of_lt hn] at hnat
  · rintro rfl
    rfl

theorem asUint64?_eq {v : Value} (hv : v.isConcrete = true) (hsort : v.term.sort = .bv 64)
    {target : Addr} (h : v.asUint64? = .ok target) (ν : Valuation) :
    target = BitVec.ofNat 64 (v.eval ν) := by
  have hsome : v.asUint64 = some (BitVec.ofNat 64 (v.eval ν)) :=
    Term.asUint64_of_isValue hv hsort ν
  rw [Value.asUint64?, hsome] at h
  exact (Except.ok.inj h).symm

/-! ### Two targets fork -/

/-- A condition that is solved has one value. -/
theorem eval_of_opaqueSolver (hS : M.solver.Sound) {condition v : Value} {taken : Bool}
    (h : opaqueSolver M condition = .ok (some taken, v)) (ν μ : Valuation) :
    condition.eval ν = condition.eval μ := by
  rw [opaqueSolver] at h
  split at h
  · next hconcrete =>
    rw [← Value.eval_simplify hS ν, ← Value.eval_simplify hS μ]
    exact Value.eval_of_isConcrete hconcrete ν μ
  · cases h

/-- The jump term is a name, and its rewritten value is what later instructions see. -/
theorem get_rewriteTarget (hnext : getNextPc c = .ok next)
    (hconcrete : ¬ (next.v.simplify M.solver).isConcrete = true) :
    (c.rewriteTarget M next).symex.get next.l = .ok (next.v.simplify M.solver) := by
  obtain ⟨_, _, hget⟩ := getNextPc_eq hnext
  cases hl : next.l with
  | const w n =>
    rw [hl] at hget
    obtain hv := Except.ok.inj hget
    exact absurd (by rw [← hv]; rfl) hconcrete
  | ssa name =>
    rw [Cpu.rewriteTarget, hl]
    exact Symex.get_set_self _ _ _

/-- The comparison with the first target denotes whether the jump goes there. -/
theorem eval_compareTarget {l : Operand Name} {dst : Name} {target : Addr} {v cond : Value}
    {s s' : Symex} {pathConstraints : List Term} {w : ℕ} (hl : s.get l = .ok v)
    (h : visit M.solver pathConstraints (.icmp dst .eq w l (.const 64 target.toNat)) s = .ok s')
    (hcond : s'.get (.ssa dst) = .ok cond) (ν : Valuation) :
    cond.eval ν = if v.eval ν = target.toNat then 1 else 0 := by
  simp only [visit, Except.bind_eq_ok, Except.pure_eq_ok] at h
  obtain ⟨v', hv', t, ht, rfl⟩ := h
  obtain rfl := Except.ok.inj (hl.symm.trans hv')
  obtain rfl := Except.ok.inj ht
  obtain rfl := Except.ok.inj ((Symex.get_set_self _ _ _).symm.trans hcond)
  have hconst : (Value.concrete target.toNat 64).eval ν = target.toNat := by
    rw [Value.eval_concrete, Nat.mod_eq_of_lt target.isLt]
  change (if (decide (v.eval ν = (Value.concrete target.toNat 64).eval ν)).toNat = 0 then
    0 % 2 ^ 1 % 2 ^ 1 else 1 % 2 ^ 1) = _
  rw [hconst]
  by_cases heq : v.eval ν = target.toNat <;> simp [heq]

/-- Both targets are values of the jump term, so the comparison is not solved and the path forks. -/
theorem branching_forks (hS : M.solver.Sound) {condition : DualValue} {jumpPc fallthroughPc : Addr}
    {μ₁ μ₂ : Valuation} (hne : condition.v.eval μ₁ ≠ condition.v.eval μ₂)
    (h : branching M condition jumpPc fallthroughPc c = .ok c') :
    c'.pc = jumpPc ∧ ∃ ss, c'.unexploredPaths = ss :: c.unexploredPaths ∧ ss.pc = fallthroughPc := by
  rcases branching_cases h with ⟨v, taken, _, hsolving, _⟩ | ⟨v, _, rfl⟩
  · exact absurd (eval_of_opaqueSolver hS hsolving μ₁ μ₂) hne
  · exact ⟨rfl, _, rfl, rfl⟩

/-! ### A jump through an unknown register -/

/-- The value of a register nothing is known about. -/
def unknownTarget : DualValue where
  l := .ssa ⟨1, 0, (0, 0)⟩
  v := ⟨.const ⟨.register ⟨"RAX", 0, 8, false⟩, 0, 64⟩, true⟩

/-- The state after the block of a jump through that register was emulated. -/
def unknownJump : Cpu where
  symex := ⟨⟨fun _ => .empty, 1, 0⟩, fun _ => some unknownTarget.v⟩
  function _ := ⟨some 0x400000, [.store 64 unknownTarget.l .nextPc], [], []⟩
  numBlocks := 2
  insertPoint := 1
  block := 1
  pc := 0x400000
  vpc := 0
  vjmp := false
  path _ := none
  cfg _ := none
  vcfg _ := none
  pathConstraints := []
  unexploredPaths := []
  toDelete := []
  opaqueSolving := true

/-- The first check is answered with `0x1000` and no other is answered: the lifter goes on at `0x1000`
only, and the register may as well be `0x2000`. -/
theorem indirectJump_one_of_many :
    (Solver.replaying [fun _ => 0x1000]).Sound ∧
    getNextPc unknownJump = .ok unknownTarget ∧ unknownTarget.v.term.sort = .bv 64 ∧
    ∃ c', indirectJump (.bare (.replaying [fun _ => 0x1000])) unknownJump = .ok (.lifted 1, c') ∧
      ¬ JumpComplete unknownJump c' unknownTarget.v := by
  refine ⟨Solver.replaying_sound _, rfl, rfl, _, rfl, fun h => ?_⟩
  rcases h (fun _ => 0x2000) (satisfies_nil _) with hpc | ⟨ss, hss, _⟩
  · revert hpc
    decide
  · cases hss

/-! ### When a resolution is complete -/

/-- **When the resolution of an indirect jump is complete.** The addresses at which an indirect jump
goes on contain every value of its target if and only if the target is rewritten to a constant, or
it has one value under the path constraints, or two and the solver finds the second. -/
theorem indirectJump_complete_iff (hS : M.solver.Sound) (hnext : getNextPc c = .ok next)
    (hsort : next.v.term.sort = .bv 64) {b : BlockId}
    (h : indirectJump M c = .ok (.lifted b, c')) :
    JumpComplete c c' next.v ↔
      (next.v.simplify M.solver).isConcrete = true ∨ JumpSettled M next c := by
  have hsort' : (next.v.simplify M.solver).term.sort = .bv 64 :=
    (Value.sort_simplify hS next.v).trans hsort
  obtain ⟨ns, hns, hnodup, hfeasible, _⟩ := exists_targets hS hsort c
  have hsettled := jumpSettled_iff hns hnodup fun n hn => (hfeasible n hn).2
  obtain ⟨next', hnext', hcases⟩ := indirectJump_cases h
  obtain rfl := Except.ok.inj (hnext.symm.trans hnext')
  rcases hcases with ⟨target, hconcrete, htarget, heq⟩ | ⟨hconcrete, hcases⟩
  · obtain ⟨_, rfl⟩ := Prod.mk.inj heq
    refine ⟨fun _ => .inl hconcrete, fun _ ν _ => .inl ?_⟩
    rw [← Value.eval_simplify hS ν next.v]
    exact (asUint64?_eq hconcrete hsort' htarget ν).symm
  rw [or_iff_right hconcrete]
  rcases hcases with ⟨addr, target, hone, htarget, heq⟩ |
    ⟨front, back, jumpPc, fallthroughPc, c₁, cond, c₂, htwo, hjump, hfall, hexec, hcond, hbranch,
      heq⟩ | ⟨_, _, heq⟩
  · -- one target, and no path is saved
    obtain ⟨_, rfl⟩ := Prod.mk.inj heq
    obtain ⟨n, rfl, rfl⟩ : ∃ n, ns = [n] ∧ addr = addressTerm n := by
      rw [hone] at hns
      exact List.map_eq_singleton_iff.mp hns.symm |>.imp fun n hn => ⟨hn.1, hn.2.symm⟩
    obtain rfl := Except.ok.inj ((asUint64?_literal n).symm.trans htarget)
    rw [hsettled (.inl rfl)]
    refine forall₂_congr fun ν _ => ?_
    rw [List.mem_singleton, ← ofNat_eval_eq_iff hsort (hfeasible n (List.mem_singleton_self n)).1]
    refine or_iff_left ?_
    rintro ⟨ss, hss, _⟩
    exact absurd hss (List.cons_ne_self ss c.unexploredPaths).symm
  · -- two targets: the second is saved
    obtain ⟨_, rfl⟩ := Prod.mk.inj heq
    obtain ⟨n, m, rfl, rfl, rfl⟩ : ∃ n m, ns = [n, m] ∧ front = addressTerm n ∧ back = addressTerm m := by
      rw [htwo] at hns
      match ns, hns with
      | [n, m], hns =>
        simp only [List.map_cons, List.map_nil, List.cons.injEq, and_true] at hns
        exact ⟨n, m, rfl, hns.1, hns.2⟩
    obtain rfl := Except.ok.inj ((asUint64?_literal n).symm.trans hjump)
    obtain rfl := Except.ok.inj ((asUint64?_literal m).symm.trans hfall)
    obtain ⟨hn, μ₁, _, h₁⟩ := hfeasible n (List.mem_cons_self ..)
    obtain ⟨hm, μ₂, _, h₂⟩ := hfeasible m (List.mem_cons_of_mem _ (List.mem_singleton_self m))
    obtain ⟨s, hvisit, rfl⟩ := Cpu.exec_eq hexec
    have hget : ((c.enumerateTarget M next).setTargets
        [BitVec.ofNat 64 n, BitVec.ofNat 64 m]).symex.get next.l = .ok _ :=
      get_rewriteTarget hnext hconcrete
    have heval := eval_compareTarget hget hvisit hcond
    have hnat : (BitVec.ofNat 64 n).toNat = n := by
      rw [BitVec.toNat_ofNat, Nat.mod_eq_of_lt hn]
    have hne : cond.eval μ₁ ≠ cond.eval μ₂ := by
      rw [heval, heval, hnat, Value.eval_simplify hS, Value.eval_simplify hS, h₁, h₂, if_pos rfl,
        if_neg]
      · decide
      · rintro rfl
        exact absurd hnodup (by simp)
    obtain ⟨hpc, ss, hss, hpc'⟩ := branching_forks hS hne hbranch
    rw [hsettled (.inr rfl)]
    refine forall₂_congr fun ν _ => ?_
    have hsaved : (∃ ss', c'.unexploredPaths = ss' :: c.unexploredPaths ∧
        BitVec.ofNat 64 (next.v.eval ν) = ss'.pc) ↔
        BitVec.ofNat 64 (next.v.eval ν) = BitVec.ofNat 64 m := by
      rw [hss]
      constructor
      · rintro ⟨ss', heq, hpc''⟩
        rw [hpc'', ← (List.cons.inj heq).1, hpc']
      · intro heq
        exact ⟨ss, rfl, heq.trans hpc'.symm⟩
    rw [Continues, hpc, hsaved, ofNat_eval_eq_iff hsort hn, ofNat_eval_eq_iff hsort hm, List.mem_cons,
      List.mem_singleton]
  · cases (Prod.mk.inj heq).1

theorem indirectJump_complete_iff_unknown :
    ∃ c', indirectJump (.bare (.replaying [fun _ => 0x1000])) unknownJump = .ok (.lifted 1, c') ∧
      (JumpComplete unknownJump c' unknownTarget.v ↔
        (unknownTarget.v.simplify (.replaying [fun _ => 0x1000])).isConcrete = true ∨
          JumpSettled (.bare (.replaying [fun _ => 0x1000])) unknownTarget unknownJump) :=
  ⟨_, rfl, indirectJump_complete_iff (Solver.replaying_sound _) rfl rfl rfl⟩

end Vexa
