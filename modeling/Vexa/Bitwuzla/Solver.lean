import Vexa.Bitwuzla.Term
import Mathlib.Data.Set.Card

/-!
# The solver as a parameter

Bitwuzla is outside the repository, so everything the lifter asks it is a parameter. `checkSat`
takes the number of checks made before, so that the same assumptions may be answered differently
at different times: a solver with a time limit is one such function, and a statement about every
`Solver` is a statement about every sequence of answers.

`Sound` collects the documented behaviour the code relies on. It says nothing about `unknown`;
`Answers` is the extra assumption that the time limit is never hit.

## Main definitions

* `Solver`, `Solver.Sound`, `Solver.Answers`
* `Solver.replaying` — sound solvers that replay a list of models
* `possibleValues` — the enumeration of `value::possible_values`

## Main results

* `possibleValues_sound` — what is listed, and when the list is complete
* `possibleValues_exact` — the same of every solver whose definite answers are right, and what is
  reported when it never gives up
-/

namespace Vexa

/-- The answer of one `check_sat`; a satisfiable answer comes with its model. -/
inductive Answer
  | sat (model : Valuation)
  | unsat
  | unknown

/-- `bw::Result`. -/
inductive CheckResult
  | sat | unsat | unknown
deriving DecidableEq, Repr

@[simp] def Answer.result : Answer → CheckResult
  | .sat _ => .sat
  | .unsat => .unsat
  | .unknown => .unknown

/-- A solver: its rewriter, and its answer to the `n`-th check under the given assumptions. -/
structure Solver where
  simplify : Term → Term
  checkSat : ℕ → List Term → Answer

/-- What the lifter relies on: rewriting keeps sort and meaning and folds terms without symbols,
and neither definite answer is wrong. -/
structure Solver.Sound (S : Solver) : Prop where
  eval_simplify : ∀ (t : Term) (ν : Valuation), (S.simplify t).eval ν = t.eval ν
  sort_simplify : ∀ t : Term, (S.simplify t).sort = t.sort
  isValue_simplify : ∀ t : Term, t.symbols = [] → (S.simplify t).isValue = true
  sat : ∀ {n : ℕ} {A : List Term} {m : Valuation}, S.checkSat n A = .sat m → Satisfies m A
  unsat : ∀ {n : ℕ} {A : List Term}, S.checkSat n A = .unsat → ∀ ν, ¬ Satisfies ν A

/-- The solver never gives up. -/
def Solver.Answers (S : Solver) : Prop := ∀ n A, S.checkSat n A ≠ .unknown

/-- A value the term takes in some model of the constraints. -/
def Feasible (A : List Term) (t : Term) (x : ℕ) : Prop := ∃ ν, Satisfies ν A ∧ t.eval ν = x

/-- `DISTINCT` with a literal value of the term. -/
def differs (t : Term) (value : Term) : Term := .binary .distinct t value

theorem eval_differs {ν μ : Valuation} (t : Term) :
    (differs t (.literal t.sort (t.eval μ))).eval ν = 1 ↔ t.eval ν ≠ t.eval μ := by
  rw [differs, Term.eval_distinct, Term.eval_literal_eval]
  by_cases h : t.eval ν = t.eval μ <;> simp [h]

/-! ### Solvers that replay answers -/

/-- The rewriter that folds terms without symbols and leaves every other term alone. -/
def Term.fold (t : Term) : Term :=
  if t.symbols = [] then .literal t.sort (t.eval fun _ => 0) else t

instance (ν : Valuation) (A : List Term) : Decidable (Satisfies ν A) :=
  inferInstanceAs (Decidable (∀ a ∈ A, a.eval ν = 1))

/-- The solver that answers its `n`-th check with the `n`-th of the given models when it is one,
and gives up on every other check. -/
def Solver.replaying (models : List Valuation) : Solver where
  simplify := Term.fold
  checkSat n A := match models[n]? with
    | some m => if Satisfies m A then .sat m else .unknown
    | none => .unknown

/-- The solver that gives up on every check. -/
def Solver.folding : Solver := .replaying []

theorem Solver.replaying_sound (models : List Valuation) : (Solver.replaying models).Sound where
  eval_simplify t ν := by
    show t.fold.eval ν = _
    rw [Term.fold]
    split
    · next h => rw [Term.eval_literal_eval, Term.eval_ground h]
    · rfl
  sort_simplify t := by
    show t.fold.sort = _
    rw [Term.fold]
    split
    · exact Term.sort_literal _ _
    · rfl
  isValue_simplify t h := by
    show t.fold.isValue = _
    rw [Term.fold, if_pos h]
    exact Term.isValue_literal _ _
  sat {n A m} h := by
    simp only [replaying] at h
    split at h
    · split at h
      · next hm => cases h; exact hm
      · cases h
    · cases h
  unsat {n A} h := by
    simp only [replaying] at h
    split at h
    · split at h <;> cases h
    · cases h

theorem Solver.folding_sound : Solver.folding.Sound := replaying_sound []

/-! ### A solver without a time limit -/

open Classical in
/-- The solver that decides every check. -/
noncomputable def Solver.deciding : Solver where
  simplify := Term.fold
  checkSat _ A := if h : ∃ m, Satisfies m A then .sat h.choose else .unsat

theorem Solver.deciding_sound : Solver.deciding.Sound where
  eval_simplify := folding_sound.eval_simplify
  sort_simplify := folding_sound.sort_simplify
  isValue_simplify := folding_sound.isValue_simplify
  sat {n A m} h := by
    simp only [deciding] at h
    split at h
    · next hsat =>
      cases h
      exact hsat.choose_spec
    · cases h
  unsat {n A} h := by
    simp only [deciding] at h
    split at h
    · cases h
    · next hunsat => exact fun ν hν => hunsat ⟨ν, hν⟩

theorem Solver.deciding_answers : Solver.deciding.Answers := by
  intro n A
  simp only [deciding]
  split <;> exact nofun

/-! ### Enumerating the values of a term

The loop of `value::possible_values`: `room` counts down from the cap of twenty, `checks` is the
number of checks made so far. -/

/-- The loop: the values found, the assumptions that block them, and the checks made. -/
def possibleLoop (S : Solver) (t : Term) :
    (room checks : ℕ) → (assumptions solved : List Term) → List Term × List Term × ℕ
  | 0, checks, A, solved => (solved, A, checks)
  | room + 1, checks, A, solved =>
    match S.checkSat checks A with
    | .sat m =>
      let evaluated := Term.literal t.sort (t.eval m)
      possibleLoop S t room (checks + 1) (A ++ [differs t evaluated]) (solved ++ [evaluated])
    | _ => (solved, A, checks + 1)

/-- `value::possible_values`: the values, the answer to the check after the loop, and the number
of checks made. -/
def possibleValues (S : Solver) (A : List Term) (checks : ℕ) (t : Term) :
    List Term × CheckResult × ℕ :=
  let loop := possibleLoop S t 20 checks A []
  (loop.1, (S.checkSat loop.2.2 loop.2.1).result, loop.2.2 + 1)

/-- What holds of the values found so far: they are distinct feasible literals of the term, and
the assumptions are the constraints with exactly these values blocked. -/
structure Enumerated (A₀ : List Term) (t : Term) (A solved : List Term) : Prop where
  literal : ∀ e ∈ solved, ∃ μ, Satisfies μ A₀ ∧ e = .literal t.sort (t.eval μ)
  nodup : solved.Nodup
  blocks : ∀ ν, Satisfies ν A ↔
    Satisfies ν A₀ ∧ ∀ e ∈ solved, t.eval ν ≠ e.eval ν

namespace Enumerated

variable {A₀ A solved : List Term} {t : Term}

theorem nil (A₀ : List Term) (t : Term) : Enumerated A₀ t A₀ [] :=
  ⟨by simp, List.nodup_nil, by simp⟩

/-- One more model: its value is new, because every old one is blocked. -/
theorem step (h : Enumerated A₀ t A solved) {m : Valuation} (hm : Satisfies m A) :
    Enumerated A₀ t (A ++ [differs t (.literal t.sort (t.eval m))])
      (solved ++ [.literal t.sort (t.eval m)]) := by
  obtain ⟨hm₀, hne⟩ := (h.blocks m).mp hm
  refine ⟨?_, ?_, fun ν => ?_⟩
  · intro e he
    rcases List.mem_append.mp he with he | he
    · exact h.literal e he
    · exact ⟨m, hm₀, List.mem_singleton.mp he⟩
  · refine List.nodup_append.mpr ⟨h.nodup, List.nodup_singleton _, ?_⟩
    rintro a ha b hb rfl
    have hlast := hne a ha
    rw [List.mem_singleton.mp hb, Term.eval_literal_eval] at hlast
    exact hlast rfl
  · rw [satisfies_append, satisfies_singleton, eval_differs, h.blocks ν, and_assoc]
    refine and_congr_right fun _ => ?_
    simp only [List.mem_append, List.mem_singleton]
    constructor
    · rintro ⟨hold, hnew⟩ e (he | rfl)
      · exact hold e he
      · rwa [Term.eval_literal_eval]
    · intro hall
      refine ⟨fun e he => hall e (.inl he), ?_⟩
      have := hall _ (.inr rfl)
      rwa [Term.eval_literal_eval] at this

/-- When nothing satisfies the remaining assumptions, every feasible value is listed. -/
theorem complete (h : Enumerated A₀ t A solved) (hA : ∀ ν, ¬ Satisfies ν A) {ν : Valuation}
    (hν : Satisfies ν A₀) : ∃ e ∈ solved, t.eval ν = e.eval ν := by
  by_contra hcon
  push Not at hcon
  exact hA ν ((h.blocks ν).mpr ⟨hν, hcon⟩)

end Enumerated

theorem possibleLoop_enumerated {S : Solver} (hS : S.Sound) {A₀ : List Term} {t : Term} :
    ∀ (room checks : ℕ) {A solved : List Term}, Enumerated A₀ t A solved →
      Enumerated A₀ t (possibleLoop S t room checks A solved).2.1
        (possibleLoop S t room checks A solved).1 := by
  intro room
  induction room with
  | zero => intro checks A solved h; exact h
  | succ room ih =>
    intro checks A solved h
    rw [possibleLoop]
    cases hc : S.checkSat checks A with
    | sat m => exact ih _ (h.step (hS.sat hc))
    | unsat | unknown => exact h

theorem possibleLoop_length (S : Solver) (t : Term) :
    ∀ (room checks : ℕ) (A solved : List Term),
      (possibleLoop S t room checks A solved).1.length ≤ solved.length + room := by
  intro room
  induction room with
  | zero => intro checks A solved; exact Nat.le_refl _
  | succ room ih =>
    intro checks A solved
    rw [possibleLoop]
    cases S.checkSat checks A with
    | sat m =>
      refine (ih _ _ _).trans ?_
      rw [List.length_append, List.length_singleton]
      omega
    | unsat | unknown => exact Nat.le_add_right _ _

/-- **The enumeration.** At most twenty distinct literals, each the value of the term in a model
of the constraints; and all of them, when the last check is answered `unsat`. -/
theorem possibleValues_sound {S : Solver} (hS : S.Sound) (A : List Term) (checks : ℕ) (t : Term) :
    (possibleValues S A checks t).1.length ≤ 20 ∧
    (possibleValues S A checks t).1.Nodup ∧
    (∀ e ∈ (possibleValues S A checks t).1,
      ∃ μ, Satisfies μ A ∧ e = .literal t.sort (t.eval μ)) ∧
    ((possibleValues S A checks t).2.1 = .unsat →
      ∀ ν, Satisfies ν A → ∃ e ∈ (possibleValues S A checks t).1, t.eval ν = e.eval ν) := by
  have henum := possibleLoop_enumerated hS 20 checks (Enumerated.nil A t)
  have hlen := possibleLoop_length S t 20 checks A []
  refine ⟨(Nat.zero_add 20 ▸ hlen :), henum.nodup, henum.literal, fun hlast ν hν => ?_⟩
  refine henum.complete (fun μ hμ => ?_) hν
  cases hc : S.checkSat (possibleLoop S t 20 checks A []).2.2
      (possibleLoop S t 20 checks A []).2.1 with
  | unsat => exact hS.unsat hc μ hμ
  | sat m => simp [possibleValues, hc] at hlast
  | unknown => simp [possibleValues, hc] at hlast

/-! ### Solvers that never give up -/

/-- Values found are kept, and the loop makes another round only for a model. -/
theorem possibleLoop_answers {S : Solver} (hA : S.Answers) {t : Term} :
    ∀ (room checks : ℕ) (A solved : List Term),
      (possibleLoop S t room checks A solved).1.length = solved.length + room ∨
        ∃ n, S.checkSat n (possibleLoop S t room checks A solved).2.1 = .unsat := by
  intro room
  induction room with
  | zero => intro checks A solved; exact .inl rfl
  | succ room ih =>
    intro checks A solved
    rw [possibleLoop]
    cases hc : S.checkSat checks A with
    | sat m =>
      refine (ih _ _ _).imp_left fun hlen => hlen.trans ?_
      rw [List.length_append, List.length_singleton]
      omega
    | unsat => exact .inr ⟨checks, hc⟩
    | unknown => exact absurd hc (hA checks A)

/-- **An enumeration below the cap is complete**, when the solver never gives up. -/
theorem possibleValues_of_answers {S : Solver} (hS : S.Sound) (hA : S.Answers) {A : List Term}
    {checks : ℕ} {t : Term} (hlen : (possibleValues S A checks t).1.length < 20) :
    (possibleValues S A checks t).2.1 = .unsat := by
  set loop := possibleLoop S t 20 checks A [] with hloop
  rcases possibleLoop_answers hA (t := t) 20 checks A [] with hfull | ⟨n, hunsat⟩
  · have heq : (possibleValues S A checks t).1.length = 0 + 20 := hfull
    omega
  · cases hc : S.checkSat loop.2.2 loop.2.1 with
    | sat m => exact absurd (hS.sat hc) (hS.unsat hunsat m)
    | unsat => exact congrArg Answer.result hc
    | unknown => exact absurd hc (hA _ _)

/-- With satisfiable constraints something is found. -/
theorem possibleValues_ne_nil {S : Solver} (hS : S.Sound) (hA : S.Answers) {A : List Term}
    {checks : ℕ} {t : Term} {ν : Valuation} (hν : Satisfies ν A) :
    (possibleValues S A checks t).1 ≠ [] := by
  intro hnil
  have hunsat := possibleValues_of_answers hS hA (A := A) (t := t)
    (by rw [hnil]; decide)
  obtain ⟨e, he, _⟩ := (possibleValues_sound hS A checks t).2.2.2 hunsat ν hν
  rw [hnil] at he
  cases he

/-! ### What is reported

`possible_values` only checks, so nothing is asked of the rewriter here. -/

/-- The enumeration does not rewrite. -/
theorem possibleLoop_checkSat {S T : Solver} (h : S.checkSat = T.checkSat) (t : Term) :
    ∀ (room checks : ℕ) (A solved : List Term),
      possibleLoop S t room checks A solved = possibleLoop T t room checks A solved := by
  intro room
  induction room with
  | zero => intro checks A solved; rfl
  | succ room ih =>
    intro checks A solved
    rw [possibleLoop, possibleLoop, h]
    cases T.checkSat checks A with
    | sat m => exact ih _ _ _
    | unsat | unknown => rfl

theorem possibleValues_checkSat {S T : Solver} (h : S.checkSat = T.checkSat) (A : List Term)
    (checks : ℕ) (t : Term) : possibleValues S A checks t = possibleValues T A checks t := by
  simp only [possibleValues, possibleLoop_checkSat h, h]

namespace Enumerated

variable {A₀ A solved : List Term} {t : Term}

/-- The values of the literals found are feasible, and as many as there are literals. -/
theorem length_le_encard (h : Enumerated A₀ t A solved) :
    (solved.length : ℕ∞) ≤ {x | Feasible A₀ t x}.encard := by
  -- a literal found is the literal of its value
  have hback : ∀ e ∈ solved, e = .literal t.sort (e.eval fun _ => 0) := by
    intro e he
    obtain ⟨μ, -, rfl⟩ := h.literal e he
    rw [Term.eval_literal_eval]
  have hnodup : (solved.map (Term.eval fun _ => 0)).Nodup := by
    refine h.nodup.map_on fun a ha b hb hab => ?_
    rw [hback a ha, hback b hb, hab]
  have hfeasible : ∀ x ∈ solved.map (Term.eval fun _ => 0), Feasible A₀ t x := by
    intro x hx
    obtain ⟨e, he, rfl⟩ := List.mem_map.mp hx
    obtain ⟨μ, hμ, rfl⟩ := h.literal e he
    exact ⟨μ, hμ, (Term.eval_literal_eval _ μ t).symm⟩
  have hsub : ((solved.map (Term.eval fun _ => 0)).toFinset : Set ℕ) ⊆ {x | Feasible A₀ t x} :=
    fun x hx => hfeasible x (List.mem_toFinset.mp (Finset.mem_coe.mp hx))
  have hcard : (solved.map (Term.eval fun _ => 0)).toFinset.card = solved.length := by
    rw [List.toFinset_card_of_nodup hnodup, List.length_map]
  rw [← hcard, ← Set.encard_coe_eq_coe_finsetCard]
  exact Set.encard_le_encard hsub

/-- A list that has every feasible value is at least as long as there are such values. -/
theorem encard_le_length (h : ∀ ν, Satisfies ν A₀ → ∃ e ∈ solved, t.eval ν = e.eval ν)
    (hlit : ∀ e ∈ solved, ∃ μ, Satisfies μ A₀ ∧ e = .literal t.sort (t.eval μ)) :
    {x | Feasible A₀ t x}.encard ≤ solved.length := by
  have hsub : {x | Feasible A₀ t x} ⊆
      ((solved.map (Term.eval fun _ => 0)).toFinset : Set ℕ) := by
    rintro x ⟨ν, hν, rfl⟩
    obtain ⟨e, he, heq⟩ := h ν hν
    obtain ⟨μ, -, rfl⟩ := hlit e he
    refine Finset.mem_coe.mpr (List.mem_toFinset.mpr (List.mem_map.mpr ⟨_, he, ?_⟩))
    rw [heq, Term.eval_literal_eval, Term.eval_literal_eval]
  refine (Set.encard_le_encard hsub).trans ?_
  rw [Set.encard_coe_eq_coe_finsetCard]
  exact_mod_cast (List.toFinset_card_le _).trans_eq (List.length_map _)

end Enumerated

/-- With twenty values or fewer the last check is unsatisfiable: after a shorter loop because the
loop's last check was, after a full one because a model would be a twenty-first value. -/
theorem possibleValues_of_encard_le {S : Solver} (hS : S.Sound) (hA : S.Answers) {A : List Term}
    {checks : ℕ} {t : Term} (hle : {x | Feasible A t x}.encard ≤ 20) :
    (possibleValues S A checks t).2.1 = .unsat := by
  by_cases hlen : (possibleValues S A checks t).1.length < 20
  · exact possibleValues_of_answers hS hA hlen
  have henum := possibleLoop_enumerated hS 20 checks (Enumerated.nil A t)
  cases hc : S.checkSat (possibleLoop S t 20 checks A []).2.2
      (possibleLoop S t 20 checks A []).2.1 with
  | unsat => exact congrArg Answer.result hc
  | unknown => exact absurd hc (hA _ _)
  | sat m =>
    have hmore := (henum.step (hS.sat hc)).length_le_encard.trans hle
    rw [List.length_append, List.length_singleton] at hmore
    have : (possibleValues S A checks t).1.length + 1 ≤ 20 := by exact_mod_cast hmore
    omega

/-- **The enumeration is exact**, for every solver whose definite answers are right and whatever it
gives up on. -/
theorem possibleValues_exact {S : Solver}
    (hsat : ∀ n A m, S.checkSat n A = .sat m → Satisfies m A)
    (hunsat : ∀ n A, S.checkSat n A = .unsat → ∀ ν, ¬ Satisfies ν A)
    (A : List Term) (checks : ℕ) (t : Term) :
    (possibleValues S A checks t).1.length ≤ 20 ∧
    (possibleValues S A checks t).1.Nodup ∧
    (∀ e ∈ (possibleValues S A checks t).1,
      ∃ μ, Satisfies μ A ∧ e = .literal t.sort (t.eval μ)) ∧
    ((possibleValues S A checks t).2.1 = .unsat →
      ∀ ν, Satisfies ν A → ∃ e ∈ (possibleValues S A checks t).1, t.eval ν = e.eval ν) ∧
    (S.Answers →
      ((possibleValues S A checks t).2.1 = .unsat ↔ {x | Feasible A t x}.encard ≤ 20)) := by
  have hS : Solver.Sound ⟨Term.fold, S.checkSat⟩ :=
    { Solver.folding_sound with
      sat := fun h => hsat _ _ _ h
      unsat := fun h => hunsat _ _ h }
  rw [possibleValues_checkSat (S := S) (T := ⟨Term.fold, S.checkSat⟩) rfl]
  obtain ⟨hlen, hnodup, hlit, hall⟩ := possibleValues_sound hS A checks t
  refine ⟨hlen, hnodup, hlit, hall, fun hA => ⟨fun hres => ?_, possibleValues_of_encard_le hS hA⟩⟩
  calc {x | Feasible A t x}.encard
      ≤ (possibleValues ⟨Term.fold, S.checkSat⟩ A checks t).1.length :=
        Enumerated.encard_le_length (hall hres) hlit
    _ ≤ 20 := by exact_mod_cast hlen

/-- A bit has two values, so the enumeration of an unconstrained bit is complete. -/
theorem possibleValues_bit :
    (possibleValues Solver.deciding [] 0 (.const ⟨.tsc, 0, 1⟩)).2.1 = .unsat := by
  have hexact := possibleValues_exact (S := Solver.deciding)
    (fun _ _ _ => Solver.deciding_sound.sat) (fun _ _ => Solver.deciding_sound.unsat)
    [] 0 (.const ⟨.tsc, 0, 1⟩)
  refine (hexact.2.2.2.2 Solver.deciding_answers).mpr ?_
  have hsub : {x | Feasible [] (.const ⟨.tsc, 0, 1⟩) x} ⊆ ((Finset.range 2 : Finset ℕ) : Set ℕ) := by
    rintro x ⟨ν, -, rfl⟩
    exact Finset.mem_coe.mpr (Finset.mem_range.mpr (Nat.mod_lt _ (by decide)))
  refine (Set.encard_le_encard hsub).trans ?_
  rw [Set.encard_coe_eq_coe_finsetCard, Finset.card_range]
  decide

end Vexa
