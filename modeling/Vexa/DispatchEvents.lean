import Vexa.IndirectJump

/-!
# The events of an indirect jump

`lift_instruction` resolves an indirect jump with one target in two ways. Where the rewriter makes the
target a literal, the program counter is set and the `INDIRECT_JUMP` callback is called. Where the one
value of the target is found by enumeration, the program counter is set and nobody is told. A callback
that watches for dispatches misses those found this way.

## Main definitions

* `indirectJumpEvents` — the events an indirect jump delivers
* `JumpsAsLiteral` — the resolution of a target that is a literal

## Main results

* `indirectJump_congr` — no other callback is called
* `indirectJump_found` — a target found by enumeration
* `singleTarget_alike_iff`
-/

namespace Vexa

variable {M : Machine} {c c' : Cpu} {inst : Instruction} {next : DualValue} {t : Addr}

/-! ### Events -/

/-- The events of `branching`. -/
def branchingEvents (M : Machine) (condition : DualValue) (c : Cpu) : Except String (List EventKind) :=
  if c.opaqueSolving then do
    match (← opaqueSolver M condition.v).1 with
    | some true => return [.conditionalTaken]
    | some false => return [.conditionalFallthrough]
    | none => return [.pathForking]
  else return [.pathForking]

/-- The events of the indirect jumps of `lift_instruction`. -/
def indirectJumpEvents (M : Machine) (c : Cpu) : Except String (List EventKind) := do
  let nextDual ← getNextPc c
  let next := nextDual.v.simplify M.solver
  let c := { c with symex := c.symex.setOperand nextDual.l next }
  if next.isConcrete then return [.indirectJump]
  else do
    let found := possibleValues M.solver c.pathConstraints c.symex.context.checks next.term
    let c := { c with symex.context.checks := found.2.2 }
    match found.1 with
    -- one path
    | [_] => return []
    -- two paths
    | [front, back] => do
      let jumpPc ← asUint64? front
      let fallthroughPc ← asUint64? back
      let dst : Name := ⟨c.block, 0, (0, 2)⟩
      let c ← (c.setTargets [jumpPc, fallthroughPc]).exec M
        (.icmp dst .eq 64 nextDual.l (.const 64 jumpPc.toNat))
      let cond ← c.symex.get (.ssa dst)
      branchingEvents M ⟨.ssa dst, cond⟩ c
    | _ => return []

/-- The events of an indirect jump, once the program counter it stores is known. -/
theorem indirectJumpEvents_of_next (h : getNextPc c = .ok next) :
    indirectJumpEvents M c =
      if (next.v.simplify M.solver).isConcrete then .ok [.indirectJump]
      else match jumpTargets M next c with
        | [_] => .ok []
        | [front, back] => do
          let jumpPc ← asUint64? front
          let fallthroughPc ← asUint64? back
          let c₁ ← ((c.enumerateTarget M next).setTargets [jumpPc, fallthroughPc]).exec M
            (compareTarget next jumpPc c)
          let cond ← c₁.symex.get (.ssa ⟨c.block, 0, (0, 2)⟩)
          branchingEvents M ⟨.ssa ⟨c.block, 0, (0, 2)⟩, cond⟩ c₁
        | _ => .ok [] := by
  rw [indirectJumpEvents, h]
  rfl

/-- Another callback. -/
def Machine.withCallback (M : Machine) (callback : EventKind → Cpu → Virtual) : Machine :=
  { M with callback := callback }

section

variable {callback : EventKind → Cpu → Virtual} {events : List EventKind}

theorem eventHandler_congr {k : EventKind} (hsame : ∀ c, callback k c = M.callback k c) (c : Cpu) :
    c.eventHandler (M.withCallback callback) k = c.eventHandler M k := by
  show (let v := callback k c
    ({ c with vpc := v.vpc, vjmp := v.vjmp, opaqueSolving := v.opaqueSolving } : Cpu)) = _
  rw [hsame]
  rfl

theorem forkPath_congr (condition : DualValue) (jumpPc fallthroughPc : Addr)
    (hsame : ∀ c, callback .pathForking c = M.callback .pathForking c) :
    forkPath (M.withCallback callback) condition jumpPc fallthroughPc c =
      forkPath M condition jumpPc fallthroughPc c :=
  eventHandler_congr hsame _

theorem branching_congr {condition : DualValue} {jumpPc fallthroughPc : Addr}
    (h : branchingEvents M condition c = .ok events)
    (hsame : ∀ k ∈ events, ∀ c, callback k c = M.callback k c) :
    branching (M.withCallback callback) condition jumpPc fallthroughPc c =
      branching M condition jumpPc fallthroughPc c := by
  rw [branchingEvents] at h
  rw [branching, branching]
  split at h
  · next hsolving =>
    rw [if_pos hsolving, if_pos hsolving]
    simp only [Except.bind_eq_ok] at h
    obtain ⟨⟨verdict, v⟩, hverdict, h⟩ := h
    have hverdict' : opaqueSolver (M.withCallback callback) condition.v = .ok (verdict, v) := hverdict
    simp only [hverdict, hverdict', Except.ok_bind]
    cases verdict with
    | none =>
      obtain rfl := Except.ok.inj h
      exact congrArg Except.ok (forkPath_congr _ _ _ (hsame _ (List.mem_singleton_self _)))
    | some taken =>
      cases taken with
      | true =>
        obtain rfl := Except.ok.inj h
        exact congrArg Except.ok (eventHandler_congr (hsame _ (List.mem_singleton_self _)) _)
      | false =>
        obtain rfl := Except.ok.inj h
        exact congrArg Except.ok (eventHandler_congr (hsame _ (List.mem_singleton_self _)) _)
  · next hsolving =>
    obtain rfl := Except.ok.inj h
    rw [if_neg hsolving, if_neg hsolving]
    exact congrArg Except.ok (forkPath_congr _ _ _ (hsame _ (List.mem_singleton_self _)))

/-- **Nobody else is told.** What an indirect jump does depends on the callbacks of its events only. -/
theorem indirectJump_congr (h : indirectJumpEvents M c = .ok events)
    (hsame : ∀ k ∈ events, ∀ c, callback k c = M.callback k c) :
    indirectJump (M.withCallback callback) c = indirectJump M c := by
  obtain ⟨next, hnext⟩ : ∃ next, getNextPc c = .ok next := by
    rw [indirectJumpEvents] at h
    exact (Except.bind_eq_ok.mp h).imp fun _ hnext => hnext.1
  rw [indirectJumpEvents_of_next hnext] at h
  rw [indirectJump_of_next hnext, indirectJump_of_next hnext]
  have hsolver : (M.withCallback callback).solver = M.solver := rfl
  simp only [hsolver]
  split at h
  · next hconcrete =>
    obtain rfl := Except.ok.inj h
    rw [if_pos hconcrete, if_pos hconcrete]
    congr 1
    funext target
    exact congrArg (fun c' => Except.ok (Outcome.lifted c.block, c'))
      (eventHandler_congr (hsame _ (List.mem_singleton_self _)) _)
  · next hconcrete =>
    rw [if_neg hconcrete, if_neg hconcrete]
    have htargets : jumpTargets (M.withCallback callback) next c = jumpTargets M next c := rfl
    rw [htargets]
    match jumpTargets M next c, h with
    | [], _ | [_], _ | _ :: _ :: _ :: _, _ => rfl
    | [front, back], h =>
      simp only [Except.bind_eq_ok] at h
      obtain ⟨jumpPc, hjump, fallthroughPc, hfall, c₁, hexec, cond, hcond, hevents⟩ := h
      have hexec' : ((c.enumerateTarget (M.withCallback callback) next).setTargets
          [jumpPc, fallthroughPc]).exec (M.withCallback callback) (compareTarget next jumpPc c)
          = .ok c₁ := hexec
      simp only [hjump, hfall, hexec, hexec', hcond, Except.ok_bind, branching_congr hevents hsame]

/-! ### A target found by enumeration -/

/-- **A target found by enumeration**: the program counter is set, and nothing is delivered. -/
theorem indirectJump_found (hS : M.solver.Sound) (hnext : getNextPc c = .ok next)
    (hsort : next.v.term.sort = .bv 64)
    (hone : ∀ ν, Satisfies ν c.pathConstraints → BitVec.ofNat 64 (next.v.eval ν) = t)
    (hconcrete : ¬ (next.v.simplify M.solver).isConcrete = true) {b : BlockId}
    (h : indirectJump M c = .ok (.lifted b, c')) :
    indirectJumpEvents M c = .ok [] ∧ c'.pc = t ∧ c'.pathConstraints = c.pathConstraints ∧
      c'.vpc = c.vpc ∧ c'.vjmp = c.vjmp ∧ c'.opaqueSolving = c.opaqueSolving := by
  obtain ⟨ns, hns, hnodup, hfeasible, _⟩ := exists_targets hS hsort c
  have hvalue : ∀ n ∈ ns, BitVec.ofNat 64 n = t := fun n hn => by
    obtain ⟨-, μ, hμ, rfl⟩ := hfeasible n hn
    exact hone μ hμ
  rw [indirectJump_of_next hnext, if_neg hconcrete, hns] at h
  rw [indirectJumpEvents_of_next hnext, if_neg hconcrete, hns]
  match ns, hnodup, hfeasible, hvalue with
  | [], _, _, _ => cases (Prod.mk.inj (Except.ok.inj h)).1
  | [n], _, _, hvalue =>
    simp only [List.map_cons, List.map_nil, Except.bind_eq_ok, Except.pure_eq_ok] at h
    obtain ⟨target, htarget, heq⟩ := h
    obtain rfl := Except.ok.inj ((asUint64?_literal n).symm.trans htarget)
    obtain ⟨_, rfl⟩ := Prod.mk.inj heq
    exact ⟨rfl, hvalue n (List.mem_singleton_self n), rfl, rfl, rfl, rfl⟩
  | n :: m :: ns, hnodup, hfeasible, hvalue =>
    -- two values found are different
    have hn := hfeasible n (List.mem_cons_self ..)
    have hm := hfeasible m (List.mem_cons_of_mem _ (List.mem_cons_self ..))
    have heq := (hvalue n (List.mem_cons_self ..)).trans
      (hvalue m (List.mem_cons_of_mem _ (List.mem_cons_self ..))).symm
    have hnat := congrArg BitVec.toNat heq
    rw [BitVec.toNat_ofNat, BitVec.toNat_ofNat, Nat.mod_eq_of_lt hn.1, Nat.mod_eq_of_lt hm.1] at hnat
    exact absurd hnodup (by simp [hnat])

/-! ### Both ways -/

/-- No callback is called but those that are registered. -/
def Machine.CallsOnly (M : Machine) (registered : EventKind → Bool) : Prop :=
  ∀ k c, registered k = false → M.callback k c = ⟨c.vpc, c.vjmp, c.opaqueSolving⟩

/-- What `lift_instruction` does to a state when the target is the literal `t`: it goes on at `t` under
the constraints of before, and the callback of `INDIRECT_JUMP`, if there is one, is called there. -/
structure JumpsAsLiteral (M : Machine) (registered : EventKind → Bool) (t : Addr) (c c' : Cpu)
    (events : List EventKind) : Prop where
  pc : c'.pc = t
  pathConstraints : c'.pathConstraints = c.pathConstraints
  delivered : events.filter registered = [.indirectJump].filter registered
  called : ∃ seen : Cpu, seen.pc = t ∧ seen.vpc = c.vpc ∧ seen.vjmp = c.vjmp ∧
    c'.vpc = (M.callback .indirectJump seen).vpc ∧ c'.vjmp = (M.callback .indirectJump seen).vjmp

/-- **When the two ways agree.** The resolution of an indirect jump with one target is that of a literal
if and only if the target is rewritten to a literal or no callback for `INDIRECT_JUMP` is registered. -/
theorem singleTarget_alike_iff (hS : M.solver.Sound) {registered : EventKind → Bool}
    (hM : M.CallsOnly registered) (hflow : inst.isControlFlow = true)
    (hbranch : ¬ inst.isConditionalBranch = true) (hdirect : ¬ inst.isDirectControlFlow = true)
    (hnext : getNextPc c = .ok next) (hsort : next.v.term.sort = .bv 64)
    (hone : ∀ ν, Satisfies ν c.pathConstraints → BitVec.ofNat 64 (next.v.eval ν) = t)
    (hsat : ∃ ν, Satisfies ν c.pathConstraints) {b : BlockId} {events : List EventKind}
    (hevents : indirectJumpEvents M c = .ok events)
    (h : controlFlow M inst c = .ok (.lifted b, c')) :
    JumpsAsLiteral M registered t c c' events ↔
      (next.v.simplify M.solver).isConcrete = true ∨ registered .indirectJump = false := by
  rw [controlFlow, if_pos hflow, if_neg hbranch, if_neg hdirect] at h
  by_cases hconcrete : (next.v.simplify M.solver).isConcrete = true
  · refine iff_of_true ?_ (.inl hconcrete)
    rw [indirectJumpEvents_of_next hnext, if_pos hconcrete] at hevents
    rw [indirectJump_of_next hnext, if_pos hconcrete] at h
    simp only [Except.bind_eq_ok, Except.pure_eq_ok] at h
    obtain ⟨target, htarget, heq⟩ := h
    obtain ⟨_, rfl⟩ := Prod.mk.inj heq
    obtain ⟨ν, hν⟩ := hsat
    have hvalue : target = t := by
      rw [← hone ν hν, ← Value.eval_simplify hS ν next.v]
      exact asUint64?_eq hconcrete ((Value.sort_simplify hS next.v).trans hsort) htarget ν
    exact ⟨hvalue, rfl, by rw [← Except.ok.inj hevents],
      { (c.rewriteTarget M next).setTargets [target] with pc := target }, hvalue, rfl, rfl, rfl, rfl⟩
  · rw [or_iff_right hconcrete]
    obtain ⟨hnone, hpc, hconstraints, hvpc, hvjmp, hsolving⟩ :=
      indirectJump_found hS hnext hsort hone hconcrete h
    obtain rfl := Except.ok.inj (hnone.symm.trans hevents)
    constructor
    · intro halike
      have hdelivered := halike.delivered
      cases hreg : registered .indirectJump with
      | false => rfl
      | true =>
        rw [List.filter_nil, List.filter_cons_of_pos hreg] at hdelivered
        cases hdelivered
    · intro hreg
      have hquiet := hM .indirectJump { c with pc := t } hreg
      refine ⟨hpc, hconstraints, ?_, { c with pc := t }, rfl, rfl, rfl, ?_, ?_⟩
      · rw [List.filter_nil, List.filter_cons_of_neg (by simp [hreg]), List.filter_nil]
      · rw [hquiet, hvpc]
      · rw [hquiet, hvjmp]

end

/-! ### A dispatcher that is not told -/

/-- A callback that reports every indirect jump as a dispatch to `0x77`. -/
def dispatching : Machine :=
  { Machine.bare (.replaying [fun _ => 0x1000]) with
    mode := .vcfgRecovery
    callback := fun k c =>
      if k = .indirectJump then ⟨0x77, true, c.opaqueSolving⟩ else ⟨c.vpc, c.vjmp, c.opaqueSolving⟩ }

/-- The jump through an unknown register, on a path where the register is `0x1000`. Block 0 was lifted
after a dispatch to `0x77`. -/
def pinnedJump : Cpu :=
  { unknownJump with
    pathConstraints := [.binary .equal unknownTarget.v.term (.value 64 0x1000)]
    vcfg := fun v => if v = 0x77 then some 0 else none }

def jumpRegister : Instruction := ⟨"JMP_GPRv_64", .indirectJump, 0, 0, 0x400002⟩

theorem pinnedJump_target {ν : Valuation} (hν : Satisfies ν pinnedJump.pathConstraints) :
    BitVec.ofNat 64 (unknownTarget.v.eval ν) = 0x1000 := by
  have hequal := (satisfies_singleton _ _).mp hν
  rw [Term.eval_equal, Term.eval_value] at hequal
  have hvalue : unknownTarget.v.term.eval ν = 0x1000 % 2 ^ 64 := by
    by_contra hne
    rw [decide_eq_false hne] at hequal
    cases hequal
  rw [Value.eval, hvalue]
  rfl

/-- The jump goes to `0x1000`, the callback is not called, and the path is not joined to block 0. -/
theorem singleTarget_missed :
    dispatching.solver.Sound ∧ dispatching.CallsOnly (· = .indirectJump) ∧
    getNextPc pinnedJump = .ok unknownTarget ∧ unknownTarget.v.term.sort = .bv 64 ∧
    (∀ ν, Satisfies ν pinnedJump.pathConstraints → BitVec.ofNat 64 (unknownTarget.v.eval ν) = 0x1000) ∧
    (∃ ν, Satisfies ν pinnedJump.pathConstraints) ∧
    ∃ c', controlFlow dispatching jumpRegister pinnedJump = .ok (.lifted 1, c') ∧
      indirectJumpEvents dispatching pinnedJump = .ok [] ∧
      ¬ JumpsAsLiteral dispatching (· = .indirectJump) 0x1000 pinnedJump c' [] ∧
      (cfgRecovery dispatching c').1 = none ∧
      (cfgRecovery dispatching (c'.eventHandler dispatching .indirectJump)).1 = some 0 := by
  refine ⟨Solver.replaying_sound _, fun k c hk => ?_, rfl, rfl, fun ν => pinnedJump_target,
    ⟨fun _ => 0x1000, by decide⟩, _, rfl, rfl, fun h => ?_, rfl, rfl⟩
  · exact if_neg (of_decide_eq_false hk)
  · exact absurd h.delivered (by decide)

theorem singleTarget_alike_iff_pinned :
    ∃ c', controlFlow dispatching jumpRegister pinnedJump = .ok (.lifted 1, c') ∧
      (JumpsAsLiteral dispatching (· = .indirectJump) 0x1000 pinnedJump c' [] ↔
        (unknownTarget.v.simplify dispatching.solver).isConcrete = true ∨
          decide (EventKind.indirectJump = .indirectJump) = false) :=
  ⟨_, rfl, singleTarget_alike_iff (Solver.replaying_sound _)
    (fun _ _ hk => if_neg (of_decide_eq_false hk)) (rfl : jumpRegister.isControlFlow = true)
    nofun nofun rfl rfl (fun _ => pinnedJump_target) ⟨fun _ => 0x1000, by decide⟩ rfl rfl⟩

end Vexa
