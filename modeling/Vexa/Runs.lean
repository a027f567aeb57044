import Vexa.ControlFlow

/-!
# Runs of the exploration loop

A run is a sequence of calls of `process_instruction` together with the choice of a pending path after
each path that ended. The trace of a run lists the program counter and the outcome of every call.

## Main results

* `exists_runs_of_runLoop` — a loop that uses up its fuel has made that many calls
* `returns_of_runLoop`, `returns_of_run` — a loop that is left is a run of the calls it makes
* `start_eq` — the state in which the loop is entered
-/

namespace Vexa

variable {M : Machine} {c₀ c c' c'' : Cpu} {outcome : Outcome} {trace trace' : List (Addr × Outcome)}

/-- The states reached from `c₀`, with the calls made on the way. -/
inductive Runs (M : Machine) (c₀ : Cpu) : List (Addr × Outcome) → Cpu → Prop
  | start : Runs M c₀ [] c₀
  | step {trace : List (Addr × Outcome)} {c c' : Cpu} {outcome : Outcome} :
      Runs M c₀ trace c → Step M c outcome c' → Runs M c₀ (trace ++ [(c.pc, outcome)]) c'

/-- The program counters at which a run calls `process_instruction`. -/
def reachablePcs (M : Machine) (c₀ : Cpu) : Set Addr :=
  {pc | ∃ trace c, Runs M c₀ trace c ∧ c.pc = pc}

/-- The program counters of the calls that lifted an instruction. -/
def liftedPcs (trace : List (Addr × Outcome)) : List Addr :=
  trace.filterMap fun call => call.2.liftedBlock.map fun _ => call.1

/-- Program counters have 64 bits. -/
theorem reachablePcs_finite (M : Machine) (c₀ : Cpu) : (reachablePcs M c₀).Finite :=
  have : Finite Addr := Finite.of_injective BitVec.toFin fun _ _ => BitVec.eq_of_toFin_eq
  Set.toFinite _

theorem Runs.pc_mem (h : Runs M c₀ trace c) : c.pc ∈ reachablePcs M c₀ := ⟨trace, c, h, rfl⟩

/-- A run with one more call in front. -/
theorem Runs.cons (hstep : Step M c₀ outcome c) (h : Runs M c trace c') :
    Runs M c₀ ((c₀.pc, outcome) :: trace) c' := by
  induction h with
  | start => exact Runs.step (.start (M := M)) hstep
  | step _ hstep' ih => exact ih.step hstep'

theorem mem_liftedPcs {pc : Addr} :
    pc ∈ liftedPcs trace ↔ ∃ outcome b, (pc, outcome) ∈ trace ∧ outcome.liftedBlock = some b := by
  simp only [liftedPcs, List.mem_filterMap, Option.map_eq_some_iff, Prod.exists]
  constructor
  · rintro ⟨pc', outcome, hmem, b, hb, rfl⟩
    exact ⟨outcome, b, hmem, hb⟩
  · rintro ⟨outcome, b, hmem, hb⟩
    exact ⟨pc, outcome, hmem, b, hb, rfl⟩

theorem liftedPcs_append_of_some {pc : Addr} {b : BlockId} (h : outcome.liftedBlock = some b) :
    liftedPcs (trace ++ [(pc, outcome)]) = liftedPcs trace ++ [pc] := by
  simp [liftedPcs, h]

theorem liftedPcs_append_of_none {pc : Addr} (h : outcome.liftedBlock = none) :
    liftedPcs (trace ++ [(pc, outcome)]) = liftedPcs trace := by
  simp [liftedPcs, h]

/-! ### The loop of the source -/

/-- A loop that uses up its fuel has made that many calls. -/
theorem exists_runs_of_runLoop : ∀ {fuel : ℕ} {c : Cpu} {ended : List PathEnd},
    runLoop M fuel c ended = .ok none → ∃ trace c', Runs M c trace c' ∧ trace.length = fuel
  | 0, c, _, _ => ⟨[], c, .start, rfl⟩
  | fuel + 1, c, ended, h => by
    rw [runLoop] at h
    split at h
    · cases h
    · next outcome c' hcall =>
      split at h
      · next hstatus =>
        obtain ⟨trace, c'', hruns, hlen⟩ := exists_runs_of_runLoop h
        exact ⟨_, c'', hruns.cons (.successful hcall hstatus), by rw [List.length_cons, hlen]⟩
      · next hstatus =>
        simp only at h
        split at h
        · cases h
        · next path rest hpaths =>
          obtain ⟨trace, c'', hruns, hlen⟩ := exists_runs_of_runLoop h
          have hpaths' : c'.unexploredPaths = [] ++ path :: rest := by
            rw [finishPath] at hpaths
            split at hpaths <;> exact hpaths
          exact ⟨_, c'', hruns.cons (.explore hcall hstatus hpaths'), by rw [List.length_cons, hlen]⟩

/-! ### Runs with the paths that ended -/

/-- The states reached from `c₀`, with the states in which the calls were made and the paths that
ended on the way. -/
inductive Explores (M : Machine) (c₀ : Cpu) : List Cpu → List PathEnd → Cpu → Prop
  | start : Explores M c₀ [] [] c₀
  | successful {calls : List Cpu} {ended : List PathEnd} {c c' : Cpu} {outcome : Outcome} :
      Explores M c₀ calls ended c → processInstruction M c = .ok (outcome, c') →
      outcome.status = .successful → Explores M c₀ (calls ++ [c]) ended c'
  | explore {calls : List Cpu} {ended : List PathEnd} {c c' : Cpu} {outcome : Outcome}
      {before after : List Snapshot} {path : Snapshot} :
      Explores M c₀ calls ended c → processInstruction M c = .ok (outcome, c') →
      outcome.status ≠ .successful → c'.unexploredPaths = before ++ path :: after →
      Explores M c₀ (calls ++ [c]) (ended ++ [⟨outcome, finishPath outcome c'⟩])
        (resumePath (finishPath outcome c') path (before ++ after))

/-- The loop is left when a path ends and no other is pending. -/
inductive Returns (M : Machine) (c₀ : Cpu) : List Cpu → List PathEnd → Cpu → Prop
  | last {calls : List Cpu} {ended : List PathEnd} {c c' : Cpu} {outcome : Outcome} :
      Explores M c₀ calls ended c → processInstruction M c = .ok (outcome, c') →
      outcome.status ≠ .successful → c'.unexploredPaths = [] →
      Returns M c₀ (calls ++ [c]) (ended ++ [⟨outcome, finishPath outcome c'⟩]) (finishPath outcome c')

section

variable {calls : List Cpu} {ended : List PathEnd}

@[simp] theorem finishPath_unexploredPaths (outcome : Outcome) (c : Cpu) :
    (finishPath outcome c).unexploredPaths = c.unexploredPaths := by
  rw [finishPath]
  split <;> rfl

theorem Explores.cons_successful (hcall : processInstruction M c₀ = .ok (outcome, c))
    (hstatus : outcome.status = .successful) (h : Explores M c calls ended c') :
    Explores M c₀ (c₀ :: calls) ended c' := by
  induction h with
  | start => exact Explores.successful (.start (M := M)) hcall hstatus
  | successful _ hcall' hstatus' ih => exact ih.successful hcall' hstatus'
  | explore _ hcall' hstatus' hpaths ih => exact ih.explore hcall' hstatus' hpaths

theorem Explores.cons_explore {before after : List Snapshot} {path : Snapshot}
    (hcall : processInstruction M c₀ = .ok (outcome, c)) (hstatus : outcome.status ≠ .successful)
    (hpaths : c.unexploredPaths = before ++ path :: after)
    (h : Explores M (resumePath (finishPath outcome c) path (before ++ after)) calls ended c') :
    Explores M c₀ (c₀ :: calls) (⟨outcome, finishPath outcome c⟩ :: ended) c' := by
  induction h with
  | start => exact Explores.explore (.start (M := M)) hcall hstatus hpaths
  | successful _ hcall' hstatus' ih => exact ih.successful hcall' hstatus'
  | explore _ hcall' hstatus' hpaths' ih => exact ih.explore hcall' hstatus' hpaths'

/-- The states in which the loop calls `process_instruction`. -/
def loopCalls (M : Machine) : ℕ → Cpu → List Cpu
  | 0, _ => []
  | fuel + 1, c =>
    c :: match processInstruction M c with
      | .error _ => []
      | .ok (outcome, c') =>
        if outcome.status = .successful then loopCalls M fuel c'
        else
          let final := finishPath outcome c'
          match final.unexploredPaths with
          | [] => []
          | path :: rest => loopCalls M fuel (resumePath final path rest)

section

variable {c₁ : Cpu} {fuel : ℕ} (hcall : processInstruction M c = .ok (outcome, c₁))
include hcall

theorem loopCalls_successful (hstatus : outcome.status = .successful) :
    loopCalls M (fuel + 1) c = c :: loopCalls M fuel c₁ := by
  simp only [loopCalls, hcall, hstatus, if_true]

theorem loopCalls_last (hstatus : outcome.status ≠ .successful) (hpaths : c₁.unexploredPaths = []) :
    loopCalls M (fuel + 1) c = [c] := by
  simp only [loopCalls, hcall, hstatus, if_false, finishPath_unexploredPaths, hpaths]

theorem loopCalls_explore (hstatus : outcome.status ≠ .successful) {path : Snapshot}
    {rest : List Snapshot} (hpaths : c₁.unexploredPaths = path :: rest) :
    loopCalls M (fuel + 1) c = c :: loopCalls M fuel (resumePath (finishPath outcome c₁) path rest) := by
  simp only [loopCalls, hcall, hstatus, if_false, finishPath_unexploredPaths, hpaths]

end

/-- A loop that is left is such a run, with the paths pending last taken first. -/
theorem returns_of_runLoop : ∀ {fuel : ℕ} {c : Cpu} {before : List PathEnd},
    runLoop M fuel c before = .ok (some (ended, c')) →
      ∃ ended', ended = before ++ ended' ∧ Returns M c (loopCalls M fuel c) ended' c'
  | 0, _, _, h => by
    have hnone := Except.ok.inj h
    cases hnone
  | fuel + 1, c, before, h => by
    rw [runLoop] at h
    split at h
    · cases h
    · next outcome c₁ hcall =>
      split at h
      · next hstatus =>
        obtain ⟨ended', hended, hreturns⟩ := returns_of_runLoop h
        rw [loopCalls_successful hcall hstatus]
        generalize loopCalls M fuel c₁ = calls at hreturns
        cases hreturns with
        | last hexplores hcall' hstatus' hpaths =>
          exact ⟨_, hended, .last (hexplores.cons_successful hcall hstatus) hcall' hstatus' hpaths⟩
      · next hstatus =>
        simp only [finishPath_unexploredPaths] at h
        split at h
        · next hpaths =>
          obtain ⟨rfl, rfl⟩ := Prod.mk.inj (Option.some.inj (Except.ok.inj h))
          rw [loopCalls_last hcall hstatus hpaths]
          exact ⟨_, rfl, .last .start hcall hstatus hpaths⟩
        · next path rest hpaths =>
          obtain ⟨ended', hended, hreturns⟩ := returns_of_runLoop h
          have hpaths' : c₁.unexploredPaths = [] ++ path :: rest := hpaths
          rw [loopCalls_explore hcall hstatus hpaths]
          generalize loopCalls M fuel (resumePath (finishPath outcome c₁) path rest) = calls at hreturns
          cases hreturns with
          | last hexplores hcall' hstatus' hlast =>
            rw [List.append_assoc] at hended
            exact ⟨_, hended,
              .last (hexplores.cons_explore hcall hstatus hpaths') hcall' hstatus' hlast⟩

/-- `cpu::run` erases what was noted down when the loop is left. -/
theorem returns_of_run {layout : Layout} {image : MemPage} {opaqueSolving : Bool} {pc : Addr}
    {fuel : ℕ} (hstart : start M layout image opaqueSolving pc = .ok c₀)
    (h : run M layout image opaqueSolving pc fuel = .ok (some (ended, c'))) :
    ∃ c, Returns M c₀ (loopCalls M fuel c₀) ended c ∧ c' = c.eraseDeletedInstructions := by
  simp only [run, hstart, Except.ok_bind, Except.bind_eq_ok] at h
  obtain ⟨result, hloop, h⟩ := h
  cases result with
  | none => cases Except.ok.inj h
  | some result =>
    obtain ⟨rfl, rfl⟩ := Prod.mk.inj (Option.some.inj (Except.ok.inj h))
    obtain ⟨ended', hended, hreturns⟩ := returns_of_runLoop hloop
    exact ⟨_, by rw [hended]; exact hreturns, rfl⟩

end

/-- The state in which the loop is entered: no map has an entry and no path is pending. -/
theorem start_eq {layout : Layout} {image : MemPage} {opaqueSolving : Bool} {pc : Addr}
    (h : start M layout image opaqueSolving pc = .ok c₀) :
    c₀.pc = pc ∧ c₀.vpc = 0 ∧ c₀.vjmp = false ∧ (∀ a, c₀.path a = none) ∧ (∀ a, c₀.cfg a = none) ∧
      c₀.unexploredPaths = [] := by
  simp only [start, Except.bind_eq_ok, Except.pure_eq_ok] at h
  obtain ⟨r, _, rfl⟩ := h
  exact ⟨rfl, rfl, rfl, fun _ => rfl, fun _ => rfl, rfl⟩

/-! ### A program that jumps to itself -/

/-- The jump at every address to itself, under CFG recovery. -/
def selfLoop (policy : CfgJoinPolicy) : Machine :=
  { Machine.bare .folding with
    mode := .cfgRecovery
    joinPolicy := policy
    decodeInstruction := fun pc _ => some ⟨"JMP_RELBRz", .directJump, pc, pc + 2, pc + 2⟩
    liftIntoBlock := fun _ => some ⟨[], trivial⟩ }

end Vexa
