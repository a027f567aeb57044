import Mathlib.Data.List.Basic

/-!
# Runs of block machines

A machine executes one block at a time: from a state a block puts something out, and either goes to
another block, returns or gets stuck. `run` executes a number of blocks. Two machines over the same
blocks are compared block by block, and the comparison may ask something of the states the first of
them reaches.

## Main results

* `run_related` — machines whose blocks are related have related runs
-/

namespace BlockRun

variable {β σ τ ω ω' : Type*}

/-- How a block ends. -/
inductive Exit (β σ : Type*)
  | goto (b : β) (s : σ)
  | ret (s : σ)
  | stuck
deriving DecidableEq, Repr

/-- The same end with another state. -/
def Exit.map (f : σ → τ) : Exit β σ → Exit β τ
  | goto b s => goto b (f s)
  | ret s => ret (f s)
  | stuck => stuck

/-- The two ends go to one block with states related there, or return related states, or are stuck. -/
inductive Exit.Related (R : β → σ → τ → Prop) (Q : σ → τ → Prop) : Exit β σ → Exit β τ → Prop
  | goto {b : β} {s : σ} {t : τ} : R b s t → Related R Q (.goto b s) (.goto b t)
  | ret {s : σ} {t : τ} : Q s t → Related R Q (.ret s) (.ret t)
  | stuck : Related R Q .stuck .stuck

theorem Exit.Related.mono {R R' : β → σ → τ → Prop} {Q Q' : σ → τ → Prop} {e : Exit β σ}
    {e' : Exit β τ} (h : e.Related R Q e') (hR : ∀ b s t, R b s t → R' b s t)
    (hQ : ∀ s t, Q s t → Q' s t) : e.Related R' Q' e' := by
  cases h with
  | goto hst => exact .goto (hR _ _ _ hst)
  | ret hst => exact .ret (hQ _ _ hst)
  | stuck => exact .stuck

theorem Exit.Related.of_map {ρ : Type*} {f : σ → ρ} {R : β → ρ → τ → Prop} {Q : ρ → τ → Prop}
    {e : Exit β σ} {e' : Exit β τ} (h : e.Related (fun b s t => R b (f s) t) (fun s t => Q (f s) t) e') :
    (e.map f).Related R Q e' := by
  cases h with
  | goto hst => exact .goto hst
  | ret hst => exact .ret hst
  | stuck => exact .stuck

/-- At most `n` blocks, from block `b` on: what is put out, and how the last of them ends. -/
def run (step : β → σ → List ω × Exit β σ) : ℕ → β → σ → List ω × Exit β σ
  | 0, b, s => ([], .goto b s)
  | n + 1, b, s =>
    match step b s with
    | (out, .goto b' s') => (out ++ (run step n b' s').1, (run step n b' s').2)
    | (out, .ret s') => (out, .ret s')
    | (out, .stuck) => (out, .stuck)

section

variable {step : β → σ → List ω × Exit β σ} {step' : β → τ → List ω' × Exit β τ}
  {n : ℕ} {b b' : β} {s s' : σ} {out : List ω}

@[simp] theorem run_zero (b : β) (s : σ) : run step 0 b s = ([], .goto b s) := rfl

theorem run_succ_goto (h : step b s = (out, .goto b' s')) :
    run step (n + 1) b s = (out ++ (run step n b' s').1, (run step n b' s').2) := by
  rw [run, h]

theorem run_succ_ret (h : step b s = (out, .ret s')) : run step (n + 1) b s = (out, .ret s') := by
  rw [run, h]

theorem run_succ_stuck (h : step b s = (out, .stuck)) : run step (n + 1) b s = (out, .stuck) := by
  rw [run, h]

/-- The run reaches the block with this state. -/
def Reaches (step : β → σ → List ω × Exit β σ) (b : β) (s : σ) (b' : β) (s' : σ) : Prop :=
  ∃ n, (run step n b s).2 = .goto b' s'

theorem Reaches.refl (b : β) (s : σ) : Reaches step b s b s := ⟨0, rfl⟩

theorem Reaches.head {b₂ : β} {s₂ : σ} (h : step b s = (out, .goto b' s'))
    (hreach : Reaches step b' s' b₂ s₂) : Reaches step b s b₂ s₂ := by
  obtain ⟨n, hn⟩ := hreach
  exact ⟨n + 1, by rw [run_succ_goto h, hn]⟩

/-- **Comparing two machines.** Blocks entered in related states put out related lists and end related,
wherever `P` holds; then so do all runs whose blocks are entered in states with `P`. -/
theorem run_related {R : β → σ → τ → Prop} {Q : σ → τ → Prop} {O : List ω → List ω' → Prop}
    {P : β → σ → Prop} (hnil : O [] [])
    (happend : ∀ {x x' y y'}, O x x' → O y y' → O (x ++ y) (x' ++ y'))
    (hstep : ∀ b s t, R b s t → P b s →
      O (step b s).1 (step' b t).1 ∧ Exit.Related R Q (step b s).2 (step' b t).2)
    (n : ℕ) : ∀ {b : β} {s : σ} {t : τ}, R b s t →
      (∀ b' s', Reaches step b s b' s' → P b' s') →
      O (run step n b s).1 (run step' n b t).1 ∧
        Exit.Related R Q (run step n b s).2 (run step' n b t).2 := by
  induction n with
  | zero => exact fun h _ => ⟨hnil, .goto h⟩
  | succ n ih =>
    intro b s t h hP
    obtain ⟨hout, hend⟩ := hstep b s t h (hP b s (.refl b s))
    rcases hfirst : step b s with ⟨out, e⟩
    rcases hsecond : step' b t with ⟨out', e'⟩
    rw [hfirst, hsecond] at hout hend
    cases hend with
    | goto hst =>
      obtain ⟨hout', hend'⟩ := ih hst fun b' s' hreach => hP b' s' (hreach.head hfirst)
      rw [run_succ_goto hfirst, run_succ_goto hsecond]
      exact ⟨happend hout hout', hend'⟩
    | ret hst =>
      rw [run_succ_ret hfirst, run_succ_ret hsecond]
      exact ⟨hout, .ret hst⟩
    | stuck =>
      rw [run_succ_stuck hfirst, run_succ_stuck hsecond]
      exact ⟨hout, .stuck⟩

/-- A machine that keeps more in its states runs as the one that does not. -/
theorem run_map {step : β → σ → List ω × Exit β σ} {step' : β → τ → List ω × Exit β τ} {f : σ → τ}
    (h : ∀ b s, step' b (f s) = ((step b s).1, (step b s).2.map f)) (n : ℕ) : ∀ (b : β) (s : σ),
    run step' n b (f s) = ((run step n b s).1, (run step n b s).2.map f) := by
  induction n with
  | zero => exact fun _ _ => rfl
  | succ n ih =>
    intro b s
    rcases hstep : step b s with ⟨out, e⟩
    have hstep' := h b s
    rw [hstep] at hstep'
    cases e with
    | goto b' s' =>
      rw [run_succ_goto hstep, run_succ_goto hstep', ih]
    | ret s' =>
      rw [run_succ_ret hstep, run_succ_ret hstep']
      rfl
    | stuck =>
      rw [run_succ_stuck hstep, run_succ_stuck hstep']
      rfl

end

end BlockRun
