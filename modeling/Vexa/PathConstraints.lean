import Vexa.IndirectJump
import Vexa.WellFormed

/-!
# The paths and the inputs

A conditional branch splits the path constraints: the taken side adds the condition, the saved side its
negation, and a solved condition adds a constraint that always holds. So the constraints of the paths
keep covering all inputs, and those of different paths exclude each other. A conditional move saves a
path as well, but neither side adds its condition; when it forks, both paths have the constraints they
had before.

## Main definitions

* `Cpu.paths`, `Cpu.PathsDisjoint`, `Covers`
* `Cpu.Keeps`, `Cpu.Splits`, `Cpu.Duplicates` — what a step does to the constraints
* `Cpu.ForksMove` — a step forks at a conditional move

## Main results

* `processInstruction_paths` — each step does one of the three
* `explores_partition_iff` — when the paths partition the inputs
-/

namespace Vexa

variable {M : Machine} {c c' c₀ c₁ c₂ : Cpu} {outcome : Outcome} {calls : List Cpu}
  {ended : List PathEnd}

/-- The constraints of the current path and of the pending ones. -/
def Cpu.paths (c : Cpu) : List (List Term) :=
  c.pathConstraints :: c.unexploredPaths.map Snapshot.pathConstraints

/-- No valuation satisfies both. -/
def Excludes (A B : List Term) : Prop := ∀ ν, ¬ (Satisfies ν A ∧ Satisfies ν B)

/-- The constraints of any two paths are jointly unsatisfiable. -/
def Cpu.PathsDisjoint (c : Cpu) : Prop := c.paths.Pairwise Excludes

/-- Every valuation satisfies the constraints of the current path, of a pending one or of one that
ended. -/
def Covers (ended : List PathEnd) (c : Cpu) : Prop :=
  ∀ ν, (∃ A ∈ c.paths, Satisfies ν A) ∨ ∃ e ∈ ended, Satisfies ν e.state.pathConstraints

/-! ### One step -/

/-- No path is saved, and the constraints of the current one are satisfied by the same valuations. -/
structure Cpu.Keeps (c c' : Cpu) : Prop where
  unexploredPaths : c'.unexploredPaths = c.unexploredPaths
  satisfies : ∀ ν, Satisfies ν c'.pathConstraints ↔ Satisfies ν c.pathConstraints

/-- A path is saved, and the valuations are split between it and the current one. -/
structure Cpu.Splits (c c' : Cpu) (ss : Snapshot) : Prop where
  unexploredPaths : c'.unexploredPaths = ss :: c.unexploredPaths
  satisfies : ∀ ν, Satisfies ν c.pathConstraints ↔
    Satisfies ν c'.pathConstraints ∨ Satisfies ν ss.pathConstraints
  excludes : Excludes c'.pathConstraints ss.pathConstraints

/-- A path is saved with the constraints of the current one. -/
structure Cpu.Duplicates (c c' : Cpu) (ss : Snapshot) : Prop where
  unexploredPaths : c'.unexploredPaths = ss :: c.unexploredPaths
  current : c'.pathConstraints = c.pathConstraints
  saved : ss.pathConstraints = c.pathConstraints

namespace Cpu.Keeps

theorem of_eq (hpaths : c'.unexploredPaths = c.unexploredPaths)
    (hconstraints : c'.pathConstraints = c.pathConstraints) : c.Keeps c' :=
  ⟨hpaths, fun _ => by rw [hconstraints]⟩

theorem of_extends (h : c.Extends c') : c.Keeps c' := of_eq h.unexploredPaths h.pathConstraints

theorem trans (h : c.Keeps c₁) (h' : c₁.Keeps c₂) : c.Keeps c₂ :=
  ⟨h'.unexploredPaths.trans h.unexploredPaths, fun ν => (h'.satisfies ν).trans (h.satisfies ν)⟩

theorem splits {ss : Snapshot} (h : c.Keeps c₁) (h' : c₁.Splits c₂ ss) : c.Splits c₂ ss where
  unexploredPaths := by rw [h'.unexploredPaths, h.unexploredPaths]
  satisfies ν := (h.satisfies ν).symm.trans (h'.satisfies ν)
  excludes := h'.excludes

end Cpu.Keeps

/-- A literal bit that is not zero is the true condition, and zero the false one. -/
theorem Value.holds_of_isConcrete {v : Value} (hsort : v.term.sort = .bv 1)
    (hconcrete : v.isConcrete = true) {n : Addr} (h : v.asUint64? = .ok n) (ν : Valuation) :
    v.holds ν ↔ n ≠ 0 := by
  have hsome : v.asUint64 = some (BitVec.ofNat 64 (v.eval ν)) :=
    Term.asUint64_of_isValue hconcrete hsort ν
  rw [Value.asUint64?, hsome] at h
  obtain rfl := Except.ok.inj h
  have hlt := v.eval_lt ν
  rw [Value.size, Term.bits, hsort] at hlt
  simp only [TermSort.bits] at hlt
  have hholds : v.holds ν ↔ v.eval ν = 1 := by
    rw [Value.holds, Value.asExprBool, hsort]
    simp only [Term.eval_equal, Term.eval_value]
    rw [Value.eval]
    by_cases heq : v.term.eval ν = 1 <;> simp [heq]
  rw [hholds]
  have hcases : v.eval ν = 0 ∨ v.eval ν = 1 := by omega
  rcases hcases with heq | heq <;> rw [heq] <;> decide

/-- **A solved condition** adds a constraint every valuation satisfies. -/
theorem satisfies_of_opaqueSolver (hS : M.solver.Sound) {condition v : Value} {taken : Bool}
    (hsort : condition.term.sort = .bv 1)
    (h : opaqueSolver M condition = .ok (some taken, v)) (ν : Valuation) (A : List Term) :
    Satisfies ν (A ++ [if taken then v.asExprBool else v.not.term]) ↔ Satisfies ν A := by
  rw [satisfies_append, satisfies_singleton]
  refine and_iff_left ?_
  rw [opaqueSolver] at h
  split at h
  · next hconcrete =>
    simp only [Except.bind_eq_ok, Except.pure_eq_ok] at h
    obtain ⟨n, hn, heq⟩ := h
    obtain ⟨htaken, rfl⟩ := Prod.mk.inj heq
    obtain rfl := Option.some.inj htaken
    have hholds := Value.holds_of_isConcrete ((Value.sort_simplify hS condition).trans hsort)
      hconcrete hn ν
    by_cases hzero : n ≠ 0
    · rw [if_pos (decide_eq_true hzero)]
      exact hholds.mpr hzero
    · rw [if_neg (by simpa using hzero)]
      exact (Value.eval_not ν _).mpr fun hv => hzero (hholds.mp hv)
  · cases h

/-- **A fork splits the valuations** by its condition. -/
theorem forkPath_splits (condition : DualValue) (jumpPc fallthroughPc : Addr) (c : Cpu) :
    ∃ ss, c.Splits (forkPath M condition jumpPc fallthroughPc c) ss := by
  refine ⟨_, rfl, fun ν => ?_, fun ν => ?_⟩
  · show _ ↔ Satisfies ν (c.pathConstraints ++ [condition.v.asExprBool]) ∨
      Satisfies ν (c.pathConstraints ++ [condition.v.not.term])
    rw [satisfies_append, satisfies_append, satisfies_singleton, satisfies_singleton,
      Value.eval_not, ← and_or_left]
    exact (and_iff_left (Classical.em _)).symm
  · show ¬ (Satisfies ν (c.pathConstraints ++ [condition.v.asExprBool]) ∧
      Satisfies ν (c.pathConstraints ++ [condition.v.not.term]))
    rw [satisfies_append, satisfies_append, satisfies_singleton, satisfies_singleton, Value.eval_not]
    rintro ⟨⟨_, hholds⟩, _, hnot⟩
    exact hnot hholds

theorem branching_paths (hS : M.solver.Sound) {condition : DualValue} {jumpPc fallthroughPc : Addr}
    (hsort : condition.v.term.sort = .bv 1)
    (h : branching M condition jumpPc fallthroughPc c = .ok c') :
    c.Keeps c' ∨ ∃ ss, c.Splits c' ss := by
  rcases branching_cases h with ⟨v, taken, _, hsolving, rfl⟩ | ⟨v, _, rfl⟩
  · exact .inl ⟨rfl, fun ν => satisfies_of_opaqueSolver hS hsort hsolving ν c.pathConstraints⟩
  · exact .inr (forkPath_splits _ _ _ _)

/-- The condition of a branch is one bit. -/
theorem getCondition_sort {r : DualValue × Cpu} (h : getCondition M c = .ok r) :
    r.1.v.term.sort = .bv 1 := by
  obtain ⟨_, _, _, hexec, _, hv⟩ := getCondition_eq h
  obtain ⟨s, hs, heq⟩ := Cpu.exec_eq hexec
  simp only [visit, Except.bind_eq_ok, Except.pure_eq_ok] at hs
  obtain ⟨x, _, _, _, rfl⟩ := hs
  rw [heq] at hv
  rw [← Except.ok.inj ((Symex.get_set_self _ _ _).symm.trans hv)]
  rfl

/-- The comparison of a target is one bit. -/
theorem compareTarget_sort {next : DualValue} {jumpPc : Addr} {cond : Value}
    (h : c.exec M (compareTarget next jumpPc c₂) = .ok c₁)
    (hcond : c₁.symex.get (.ssa ⟨c₂.block, 0, (0, 2)⟩) = .ok cond) : cond.term.sort = .bv 1 := by
  obtain ⟨s, hs, rfl⟩ := Cpu.exec_eq h
  simp only [compareTarget, visit, Except.bind_eq_ok, Except.pure_eq_ok] at hs
  obtain ⟨_, _, _, _, rfl⟩ := hs
  obtain rfl := Except.ok.inj ((Symex.get_set_self _ _ _).symm.trans hcond)
  rfl

theorem indirectJump_paths (hS : M.solver.Sound) {r : Outcome × Cpu}
    (h : indirectJump M c = .ok r) : c.Keeps r.2 ∨ ∃ ss, c.Splits r.2 ss := by
  obtain ⟨next, _, ⟨target, _, _, rfl⟩ | ⟨_, hcases⟩⟩ := indirectJump_cases h
  · exact .inl (.of_eq rfl rfl)
  rcases hcases with ⟨addr, target, _, _, rfl⟩ |
    ⟨front, back, jumpPc, fallthroughPc, c₁, cond, c₂, _, _, _, hexec, hcond, hbranch, rfl⟩ |
    ⟨_, _, rfl⟩
  · exact .inl (.of_eq rfl rfl)
  · have hkeeps : c.Keeps c₁ := by
      have hext := Cpu.exec_extends hexec
      exact .of_eq hext.unexploredPaths hext.pathConstraints
    rcases branching_paths hS (compareTarget_sort hexec hcond) hbranch with hkeeps' | ⟨ss, hsplits⟩
    · exact .inl (hkeeps.trans hkeeps')
    · exact .inr ⟨ss, hkeeps.splits hsplits⟩
  · exact .inl (.of_eq rfl rfl)

/-- **A conditional move that forks** leaves both sides with the constraints there were. -/
theorem handleConditionalMoves_paths {inst : Instruction}
    (h : handleConditionalMoves M inst c = .ok c') :
    c.Keeps c' ∨ ∃ ss, c.Duplicates c' ss := by
  rw [handleConditionalMoves] at h
  split at h
  · cases h
  simp only [Except.bind_eq_ok] at h
  obtain ⟨cond, _, ⟨trueVal, c₁⟩, htrue, ⟨falseVal, c₂⟩, hfalse, ⟨verdict, v⟩, _, h⟩ := h
  have hmat : c.Extends c₂ := (materialize_extends htrue).trans (materialize_extends hfalse)
  cases verdict with
  | some result =>
    obtain ⟨s, _, rfl⟩ := Cpu.exec_eq h
    exact .inl (.of_eq hmat.unexploredPaths hmat.pathConstraints)
  | none =>
    simp only [forkMove, Except.bind_eq_ok, Except.pure_eq_ok] at h
    obtain ⟨c₃, h₃, c₄, h₄, rfl⟩ := h
    obtain ⟨s₃, _, rfl⟩ := Cpu.exec_eq h₃
    obtain ⟨s₄, _, rfl⟩ := Cpu.exec_eq h₄
    refine .inr ⟨_, congrArg (_ :: ·) hmat.unexploredPaths, hmat.pathConstraints, hmat.pathConstraints⟩

/-- What the control flow part does, for a jump and for any other instruction. -/
theorem controlFlow_paths (hS : M.solver.Sound) {inst : Instruction} {r : Outcome × Cpu}
    (h : controlFlow M inst c = .ok r) :
    c.Keeps r.2 ∨ (inst.isControlFlow = true ∧ ∃ ss, c.Splits r.2 ss) ∨
      (inst.isControlFlow = false ∧ M.forkAtCmovs = true ∧ r.1.status = .successful ∧
        ∃ ss, c.Duplicates r.2 ss) := by
  rcases controlFlow_cases h with ⟨hcategory, ⟨cond, c₁⟩, c₂, hcond, hbranch, rfl⟩ | ⟨_, rfl⟩ |
    ⟨hcategory, hjump⟩ | ⟨hcategory, hfork, c₁, hmove, rfl⟩ | ⟨_, _, rfl⟩
  · have hkeeps : c.Keeps c₁ := .of_extends (getCondition_extends hcond)
    rcases branching_paths hS (getCondition_sort hcond) hbranch with hkeeps' | ⟨ss, hsplits⟩
    · exact .inl (hkeeps.trans hkeeps')
    · exact .inr (.inl ⟨by simp [Instruction.isControlFlow, hcategory], ss, hkeeps.splits hsplits⟩)
  · exact .inl (.of_eq rfl rfl)
  · exact (indirectJump_paths hS hjump).imp_right fun hsplits =>
      .inl ⟨by simp [Instruction.isControlFlow, hcategory], hsplits⟩
  · rcases handleConditionalMoves_paths hmove with hkeeps | ⟨ss, hdup⟩
    · exact .inl ⟨hkeeps.unexploredPaths, hkeeps.satisfies⟩
    · exact .inr (.inr ⟨by simp [Instruction.isControlFlow, hcategory], hfork.2, rfl, ss,
        hdup.unexploredPaths, hdup.current, hdup.saved⟩)
  · exact .inl (.of_eq rfl rfl)

@[simp] theorem saveBlock_unexploredPaths (c : Cpu) :
    (saveBlock M c).unexploredPaths = c.unexploredPaths := by
  rw [saveBlock]
  split
  all_goals first | rfl | (split <;> rfl)

@[simp] theorem saveBlock_pathConstraints (c : Cpu) :
    (saveBlock M c).pathConstraints = c.pathConstraints := by
  rw [saveBlock]
  split
  all_goals first | rfl | (split <;> rfl)

theorem liftInstruction_paths (hS : M.solver.Sound) {inst : Instruction}
    (h : liftInstruction M inst c = .ok (outcome, c')) :
    c.Keeps c' ∨ (inst.isControlFlow = true ∧ ∃ ss, c.Splits c' ss) ∨
      (inst.isControlFlow = false ∧ M.forkAtCmovs = true ∧ outcome.status = .successful ∧
        ∃ ss, c.Duplicates c' ss) := by
  obtain ⟨c₁, hexec, hrest⟩ := liftInstruction_eq h
  have hext := Cpu.exec_extends hexec
  have hpaths : c₁.unexploredPaths = c.unexploredPaths := hext.unexploredPaths
  have hconstraints : c₁.pathConstraints = c.pathConstraints := hext.pathConstraints
  rcases hrest with ⟨_, heq⟩ | ⟨semantics, c₂, _, hrun, hflow⟩
  · obtain ⟨_, rfl⟩ := Prod.mk.inj heq
    exact .inl (.of_eq hpaths hconstraints)
  · -- the control flow part starts with the constraints there were
    have hrun₂ : c₂.unexploredPaths = c₁.unexploredPaths ∧
        c₂.pathConstraints = c₁.pathConstraints := by
      simp only [runLifted, Except.bind_eq_ok, Except.pure_eq_ok] at hrun
      obtain ⟨r, _, rfl⟩ := hrun
      exact ⟨rfl, rfl⟩
    have hpaths₂ : (saveBlock M c₂).unexploredPaths = c.unexploredPaths := by
      rw [saveBlock_unexploredPaths, hrun₂.1, hpaths]
    have hconstraints₂ : (saveBlock M c₂).pathConstraints = c.pathConstraints := by
      rw [saveBlock_pathConstraints, hrun₂.2, hconstraints]
    rcases controlFlow_paths hS hflow with hkeeps | ⟨hjump, ss, hsplits⟩ |
      ⟨hmove, hfork, hstatus, ss, hdup⟩
    · exact .inl ⟨hkeeps.unexploredPaths.trans hpaths₂,
        fun ν => (hkeeps.satisfies ν).trans (by rw [hconstraints₂])⟩
    · exact .inr (.inl ⟨hjump, ss, by rw [hsplits.unexploredPaths, hpaths₂],
        fun ν => by rw [← hsplits.satisfies, hconstraints₂], hsplits.excludes⟩)
    · exact .inr (.inr ⟨hmove, hfork, hstatus, ss, by rw [hdup.unexploredPaths, hpaths₂],
        hdup.current.trans hconstraints₂, hdup.saved.trans hconstraints₂⟩)

/-- The step lifts an instruction that is no jump and saves a path: it forks at a conditional move. -/
def Cpu.ForksMove (M : Machine) (c : Cpu) : Prop :=
  ∃ outcome c' inst ss, processInstruction M c = .ok (outcome, c') ∧
    M.decodeInstruction c.pc (fetch (c.symex.context.memory globalPage) c.pc 15) = some inst ∧
    inst.isControlFlow = false ∧ c'.unexploredPaths = ss :: c.unexploredPaths

/-- **What a step does to the constraints.** -/
theorem processInstruction_paths (hS : M.solver.Sound)
    (h : processInstruction M c = .ok (outcome, c')) :
    (¬ c.ForksMove M ∧ (c.Keeps c' ∨ ∃ ss, c.Splits c' ss)) ∨
      (c.ForksMove M ∧ M.forkAtCmovs = true ∧ outcome.status = .successful ∧
        ∃ ss, c.Duplicates c' ss) := by
  -- a step that keeps the pending paths does not fork
  have hkeeps : c'.unexploredPaths = c.unexploredPaths → ¬ c.ForksMove M := by
    rintro hpaths ⟨outcome', c'', inst, ss, hcall, _, _, hss⟩
    rw [h] at hcall
    obtain ⟨_, rfl⟩ := Prod.mk.inj (Except.ok.inj hcall)
    rw [hpaths] at hss
    exact absurd (congrArg List.length hss) (by simp)
  rcases processInstruction_cases h with ⟨rfl, _, rfl⟩ | ⟨_, target, rfl, hjoin⟩ |
    ⟨_, c₁, hnone, ⟨rfl, rfl⟩ | ⟨inst, hinst, hlift⟩⟩
  · exact .inl ⟨hkeeps rfl, .inl (.of_eq rfl rfl)⟩
  · obtain ⟨_, vjmp, rfl⟩ := cfgRecovery_some hjoin
    exact .inl ⟨hkeeps rfl, .inl (.of_eq rfl rfl)⟩
  · obtain ⟨vjmp, rfl⟩ := cfgRecovery_none hnone
    exact .inl ⟨hkeeps rfl, .inl (.of_eq rfl rfl)⟩
  · obtain ⟨vjmp, rfl⟩ := cfgRecovery_none hnone
    rcases liftInstruction_paths hS hlift with hkeep | ⟨hjump, ss, hsplits⟩ |
      ⟨hmove, hfork, hstatus, ss, hdup⟩
    · exact .inl ⟨hkeeps hkeep.unexploredPaths, .inl ⟨hkeep.unexploredPaths, hkeep.satisfies⟩⟩
    · refine .inl ⟨?_, .inr ⟨ss, hsplits.unexploredPaths, hsplits.satisfies, hsplits.excludes⟩⟩
      rintro ⟨_, _, inst', _, _, hinst', hnot, _⟩
      obtain rfl := Option.some.inj (hinst.symm.trans hinst')
      rw [hjump] at hnot
      cases hnot
    · exact .inr ⟨⟨outcome, c', inst, ss, h, hinst, hmove, hdup.unexploredPaths⟩, hfork, hstatus, ss,
        hdup.unexploredPaths, hdup.current, hdup.saved⟩

/-- Without the option no step forks at a conditional move. -/
theorem not_forksMove (hS : M.solver.Sound) (hoff : M.forkAtCmovs = false) (c : Cpu) :
    ¬ c.ForksMove M := by
  intro hmove
  obtain ⟨outcome, c', _, _, hcall, _⟩ := id hmove
  rcases processInstruction_paths hS hcall with ⟨hnot, _⟩ | ⟨_, hon, _⟩
  · exact hnot hmove
  · rw [hoff] at hon
    cases hon

/-! ### Runs -/

theorem Excludes.symm {A B : List Term} (h : Excludes A B) : Excludes B A :=
  fun ν hν => h ν hν.symm

theorem Excludes.mono {A A' B : List Term} (h : Excludes A B)
    (hsub : ∀ ν, Satisfies ν A' → Satisfies ν A) : Excludes A' B :=
  fun ν hν => h ν ⟨hsub ν hν.1, hν.2⟩

theorem Cpu.paths_cons {ss : Snapshot} (h : c'.unexploredPaths = ss :: c.unexploredPaths) :
    c'.paths = c'.pathConstraints :: ss.pathConstraints :: c.paths.tail := by
  rw [Cpu.paths, h]
  rfl

theorem Cpu.Keeps.disjoint (h : c.Keeps c') (hc : c.PathsDisjoint) : c'.PathsDisjoint := by
  obtain ⟨hcurrent, hpending⟩ := List.pairwise_cons.mp hc
  rw [Cpu.PathsDisjoint, Cpu.paths, h.unexploredPaths]
  exact List.pairwise_cons.mpr
    ⟨fun B hB => (hcurrent B hB).mono fun ν => (h.satisfies ν).mp, hpending⟩

theorem Cpu.Keeps.covers (h : c.Keeps c') (hc : Covers ended c) : Covers ended c' := by
  intro ν
  refine (hc ν).imp_left ?_
  rintro ⟨A, hA, hν⟩
  rcases List.mem_cons.mp hA with rfl | hA
  · exact ⟨_, List.mem_cons_self .., (h.satisfies ν).mpr hν⟩
  · exact ⟨A, List.mem_cons_of_mem _ (h.unexploredPaths ▸ hA), hν⟩

theorem Cpu.Splits.disjoint {ss : Snapshot} (h : c.Splits c' ss) (hc : c.PathsDisjoint) :
    c'.PathsDisjoint := by
  obtain ⟨hcurrent, hpending⟩ := List.pairwise_cons.mp hc
  rw [Cpu.PathsDisjoint, Cpu.paths_cons h.unexploredPaths]
  refine List.pairwise_cons.mpr ⟨fun B hB => ?_, List.pairwise_cons.mpr ⟨fun B hB => ?_, hpending⟩⟩
  · rcases List.mem_cons.mp hB with rfl | hB
    · exact h.excludes
    · exact (hcurrent B hB).mono fun ν hν => (h.satisfies ν).mpr (.inl hν)
  · exact (hcurrent B hB).mono fun ν hν => (h.satisfies ν).mpr (.inr hν)

theorem Cpu.Splits.covers {ss : Snapshot} (h : c.Splits c' ss) (hc : Covers ended c) :
    Covers ended c' := by
  intro ν
  refine (hc ν).imp_left ?_
  rw [Cpu.paths_cons h.unexploredPaths]
  rintro ⟨A, hA, hν⟩
  rcases List.mem_cons.mp hA with rfl | hA
  · rcases (h.satisfies ν).mp hν with hν | hν
    · exact ⟨_, List.mem_cons_self .., hν⟩
    · exact ⟨_, List.mem_cons_of_mem _ (List.mem_cons_self ..), hν⟩
  · exact ⟨A, List.mem_cons_of_mem _ (List.mem_cons_of_mem _ hA), hν⟩

/-- Two paths with the same constraints exclude each other only when nothing satisfies them. -/
theorem Cpu.Duplicates.disjoint_iff {ss : Snapshot} (h : c.Duplicates c' ss) (hc : c.PathsDisjoint) :
    c'.PathsDisjoint ↔ ∀ ν, ¬ Satisfies ν c.pathConstraints := by
  rw [Cpu.PathsDisjoint, Cpu.paths_cons h.unexploredPaths, h.current, h.saved]
  constructor
  · intro hpair ν hν
    exact (List.pairwise_cons.mp hpair).1 _ (List.mem_cons_self ..) ν ⟨hν, hν⟩
  · intro hnone
    refine List.pairwise_cons.mpr ⟨fun B hB ν hν => hnone ν hν.1, hc⟩

theorem Cpu.Duplicates.covers {ss : Snapshot} (h : c.Duplicates c' ss) (hc : Covers ended c) :
    Covers ended c' := by
  intro ν
  refine (hc ν).imp_left ?_
  rw [Cpu.paths_cons h.unexploredPaths, h.current]
  rintro ⟨A, hA, hν⟩
  rcases List.mem_cons.mp hA with rfl | hA
  · exact ⟨_, List.mem_cons_self .., hν⟩
  · exact ⟨A, List.mem_cons_of_mem _ (List.mem_cons_of_mem _ hA), hν⟩

theorem finishPath_pathConstraints (outcome : Outcome) (c : Cpu) :
    (finishPath outcome c).pathConstraints = c.pathConstraints := by
  rw [finishPath]
  split <;> rfl

/-- Going on from a saved path: the constraints of the path that ended are dropped. -/
theorem resumePath_paths (outcome : Outcome) {path : Snapshot} {before after : List Snapshot}
    (hpaths : c.unexploredPaths = before ++ path :: after) :
    c.paths.Perm (c.pathConstraints ::
      (resumePath (finishPath outcome c) path (before ++ after)).paths) := by
  rw [Cpu.paths, hpaths]
  refine List.Perm.cons _ ?_
  show (List.map Snapshot.pathConstraints (before ++ path :: after)).Perm
    (path.pathConstraints :: List.map Snapshot.pathConstraints (before ++ after))
  rw [List.map_append, List.map_cons, List.map_append]
  exact List.perm_middle

theorem Cpu.PathsDisjoint.resumePath {path : Snapshot} {before after : List Snapshot}
    (h : c.PathsDisjoint) (hpaths : c.unexploredPaths = before ++ path :: after) :
    (Vexa.resumePath (finishPath outcome c) path (before ++ after)).PathsDisjoint := by
  have hperm : c.paths.Pairwise Excludes ↔ _ :=
    (resumePath_paths outcome hpaths).pairwise_iff fun h => Excludes.symm h
  exact (List.pairwise_cons.mp (hperm.mp h)).2

theorem Covers.resumePath {path : Snapshot} {before after : List Snapshot} (h : Covers ended c)
    (hpaths : c.unexploredPaths = before ++ path :: after) :
    Covers (ended ++ [⟨outcome, finishPath outcome c⟩])
      (Vexa.resumePath (finishPath outcome c) path (before ++ after)) := by
  intro ν
  rcases h ν with ⟨A, hA, hν⟩ | ⟨e, he, hν⟩
  · rw [(resumePath_paths outcome hpaths).mem_iff] at hA
    rcases List.mem_cons.mp hA with rfl | hA
    · refine .inr ⟨_, List.mem_append_right _ (List.mem_singleton_self _), ?_⟩
      rw [finishPath_pathConstraints]
      exact hν
    · exact .inl ⟨A, hA, hν⟩
  · exact .inr ⟨e, List.mem_append_left _ he, hν⟩

theorem Covers.call (hS : M.solver.Sound) (h : Covers ended c)
    (hcall : processInstruction M c = .ok (outcome, c')) : Covers ended c' := by
  rcases processInstruction_paths hS hcall with ⟨_, hkeeps | ⟨ss, hsplits⟩⟩ | ⟨_, _, _, ss, hdup⟩
  · exact hkeeps.covers h
  · exact hsplits.covers h
  · exact hdup.covers h

/-- The paths cover all inputs, in every run. -/
theorem Explores.covers (hS : M.solver.Sound) (h₀ : Covers [] c₀)
    (h : Explores M c₀ calls ended c) : Covers ended c := by
  induction h with
  | start => exact h₀
  | successful hexplores hprocess hstatus ih => exact ih.call hS hprocess
  | explore hexplores hprocess hstatus hpaths ih => exact (ih.call hS hprocess).resumePath hpaths

/-- When the loop is left, every input is that of a path that ended. -/
theorem Returns.covers (hS : M.solver.Sound) (h₀ : Covers [] c₀) (h : Returns M c₀ calls ended c)
    (ν : Valuation) : ∃ e ∈ ended, Satisfies ν e.state.pathConstraints := by
  cases h with
  | last hexplores hprocess hstatus hpaths =>
    rename_i calls ended c c' outcome
    rcases (hexplores.covers hS h₀).call hS hprocess ν with ⟨A, hA, hν⟩ | ⟨e, he, hν⟩
    · rw [Cpu.paths, hpaths, List.map_nil, List.mem_singleton] at hA
      refine ⟨_, List.mem_append_right _ (List.mem_singleton_self _), ?_⟩
      rw [finishPath_pathConstraints, ← hA]
      exact hν
    · exact ⟨e, List.mem_append_left _ he, hν⟩

/-- The paths exclude each other in all states of a run exactly when no step of it doubles a path
that some input follows. -/
theorem Explores.disjoint_iff (hS : M.solver.Sound) (h₀ : c₀.PathsDisjoint)
    (h : Explores M c₀ calls ended c) :
    (∀ s ∈ calls ++ [c], s.PathsDisjoint) ↔
      ∀ s ∈ calls, s.ForksMove M → ∀ ν, ¬ Satisfies ν s.pathConstraints := by
  induction h with
  | start => exact iff_of_true (List.forall_mem_singleton.mpr h₀) nofun
  | successful hexplores hprocess hstatus ih =>
    rename_i calls ended c c' outcome
    rw [List.forall_mem_append, List.forall_mem_singleton, ih, List.forall_mem_append,
      List.forall_mem_singleton]
    refine and_congr_right fun hcalls => ?_
    have hc : c.PathsDisjoint := ih.mpr hcalls c (List.mem_append_right _ (List.mem_singleton_self _))
    rcases processInstruction_paths hS hprocess with ⟨hnot, hkeeps | ⟨ss, hsplits⟩⟩ |
      ⟨hmove, _, _, ss, hdup⟩
    · exact iff_of_true (hkeeps.disjoint hc) fun hmove => absurd hmove hnot
    · exact iff_of_true (hsplits.disjoint hc) fun hmove => absurd hmove hnot
    · rw [hdup.disjoint_iff hc]
      exact ⟨fun hnone _ => hnone, fun hnone => hnone hmove⟩
  | explore hexplores hprocess hstatus hpaths ih =>
    rename_i calls ended c c' outcome before after path
    rw [List.forall_mem_append, List.forall_mem_singleton, ih, List.forall_mem_append,
      List.forall_mem_singleton]
    refine and_congr_right fun hcalls => ?_
    have hc : c.PathsDisjoint := ih.mpr hcalls c (List.mem_append_right _ (List.mem_singleton_self _))
    rcases processInstruction_paths hS hprocess with ⟨hnot, hkeeps | ⟨ss, hsplits⟩⟩ |
      ⟨_, _, hsuccess, _⟩
    · exact iff_of_true ((hkeeps.disjoint hc).resumePath hpaths) fun hmove => absurd hmove hnot
    · exact iff_of_true ((hsplits.disjoint hc).resumePath hpaths) fun hmove => absurd hmove hnot
    · exact absurd hsuccess hstatus

/-- At the start there is one path, and nothing constrains it. -/
theorem start_paths {layout : Layout} {image : MemPage} {opaqueSolving : Bool} {pc : Addr}
    (h : start M layout image opaqueSolving pc = .ok c₀) : c₀.paths = [[]] := by
  simp only [start, Except.bind_eq_ok, Except.pure_eq_ok] at h
  obtain ⟨r, _, rfl⟩ := h
  rfl

theorem start_covers {layout : Layout} {image : MemPage} {opaqueSolving : Bool} {pc : Addr}
    (h : start M layout image opaqueSolving pc = .ok c₀) : Covers [] c₀ := fun ν =>
  .inl ⟨[], start_paths h ▸ List.mem_singleton_self _, satisfies_nil ν⟩

/-- **When the explored paths partition the inputs.** For every program, every callback and every
choice of the pending path: along a run the constraints of the current and the pending paths exclude
each other in every state, and together with those of the paths that ended they cover all inputs, if
and only if no step of the run forks at a conditional move while its constraints are satisfiable. -/
theorem explores_partition_iff (hS : M.solver.Sound) {layout : Layout} {image : MemPage}
    {opaqueSolving : Bool} {pc : Addr} (hstart : start M layout image opaqueSolving pc = .ok c₀)
    (h : Explores M c₀ calls ended c) :
    (∀ s ∈ calls ++ [c], s.PathsDisjoint) ∧ Covers ended c ↔
      ∀ s ∈ calls, s.ForksMove M → ∀ ν, ¬ Satisfies ν s.pathConstraints := by
  have hpaths := start_paths hstart
  have hdisjoint : c₀.PathsDisjoint := by
    rw [Cpu.PathsDisjoint, hpaths]
    exact List.pairwise_singleton _ _
  rw [← h.disjoint_iff hS hdisjoint]
  exact and_iff_left (h.covers hS (start_covers hstart))

/-! ### A conditional move -/

/-- A conditional move from `RBX` to `RAX`, by the zero flag. -/
def cmovSemantics : Semantics where
  insts := [.load 0 8 (.state 2065), .cast 1 .trunc 8 1 (.ssa 0), .load 2 64 (.state 2232),
    .load 3 64 (.state 2216), .select 4 64 (.ssa 1) (.ssa 2) (.ssa 3), .store 64 (.ssa 4) (.state 2216)]
  typed := by
    simp [Typed, Inst.OperandsTyped, Inst.extend, Inst.result, Operand.width, ByteWidth, Ptr.Loadable,
      Ptr.Storable, Function.update_apply]

def cmovInstruction : Instruction := ⟨"CMOVZ_GPRv_GPRv_64", .normal, 0, 0, 0x1004⟩

/-- That instruction at every address, with forking at conditional moves. -/
def cmov : Machine :=
  { Machine.bare .folding with
    forkAtCmovs := true
    decodeInstruction := fun _ _ => some cmovInstruction
    liftIntoBlock := fun _ => some cmovSemantics }

theorem cmov_controlFlow (c : Cpu) : controlFlow cmov cmovInstruction c =
    (handleConditionalMoves cmov cmovInstruction c >>= fun c =>
      pure (.lifted c.block, { c with pc := 0x1004 })) := by
  have hname : cmovInstruction.function.startsWith "CMOV" = true := by simp [cmovInstruction]
  rw [controlFlow, if_neg (by decide), if_pos ⟨hname, rfl⟩]
  rfl

theorem cmov_processInstruction {c : Cpu} (hpc : c.pc ≠ 0) : processInstruction cmov c =
    (((openBlock c).eventHandler cmov .instructionLift).exec cmov
        (.store 64 (.const 64 c.pc.toNat) .nextPc) >>= fun c =>
      runLifted cmov cmovSemantics c >>= fun c =>
      handleConditionalMoves cmov cmovInstruction c >>= fun c =>
      pure (.lifted c.block, { c with pc := 0x1004 })) := by
  rw [processInstruction, if_neg hpc]
  show liftInstruction cmov cmovInstruction c = _
  rw [liftInstruction]
  refine congrArg (_ >>= ·) (funext fun c₁ => ?_)
  exact congrArg (_ >>= ·) (funext fun c₂ => cmov_controlFlow c₂)

theorem cmov_call :
    ∃ c₀ b c, start cmov ⟨0, 8⟩ .empty false 0x1000 = .ok c₀ ∧
      processInstruction cmov c₀ = .ok (.lifted b, c) ∧ c.paths = [[], []] := by
  refine ⟨_, 1, _, rfl, (cmov_processInstruction (by decide)).trans rfl, ?_⟩
  rfl

/-- The move is executed once: no condition is added on either side, and any input follows both. -/
theorem cmov_doubles :
    ∃ c₀ c, start cmov ⟨0, 8⟩ .empty false 0x1000 = .ok c₀ ∧ Explores cmov c₀ [c₀] [] c ∧
      ¬ c.PathsDisjoint := by
  obtain ⟨c₀, b, c, hstart, hcall, hpaths⟩ := cmov_call
  refine ⟨c₀, c, hstart, .successful .start hcall rfl, fun h => ?_⟩
  rw [Cpu.PathsDisjoint, hpaths] at h
  exact (List.pairwise_cons.mp h).1 [] (List.mem_singleton_self _) (fun _ => 0)
    ⟨satisfies_nil _, satisfies_nil _⟩

theorem explores_partition_iff_cmov :
    ∃ c₀ c, start cmov ⟨0, 8⟩ .empty false 0x1000 = .ok c₀ ∧ Explores cmov c₀ [c₀] [] c ∧
      ((∀ s ∈ [c₀] ++ [c], s.PathsDisjoint) ∧ Covers [] c ↔
        ∀ s ∈ [c₀], s.ForksMove cmov → ∀ ν, ¬ Satisfies ν s.pathConstraints) := by
  obtain ⟨c₀, b, c, hstart, hcall, _⟩ := cmov_call
  have hexplores : Explores cmov c₀ ([] ++ [c₀]) [] c := .successful .start hcall rfl
  exact ⟨c₀, c, hstart, hexplores, explores_partition_iff Solver.folding_sound hstart hexplores⟩

end Vexa
