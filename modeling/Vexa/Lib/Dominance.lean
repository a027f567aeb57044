import Mathlib.Data.Set.Basic
import Mathlib.Logic.Relation

/-!
# Dominance

In a graph whose steps define names, a name dominates a point if every path to the point defines it. What
holds of values at the points a name dominates is stated with the paths that avoid the name: a point is
on one of them, or the value is there.

## Main results

* `Dominates.trans` — what dominates the definitions of a name dominates what the name dominates
* `isSome_step` — a name has a value wherever it dominates
* `copies_step` — a name that is given the value of an expression keeps the expression's value
  wherever it dominates, also in loops that compute the expression again
-/

open Relation

/-- Points and steps between them. What a step defines depends on both its ends. -/
structure FlowGraph (P N : Type*) where
  entry : P
  Step : P → P → Prop
  Defines : P → P → N → Prop

namespace FlowGraph

variable {P N V : Type*} (G : FlowGraph P N)

def Reaches : P → Prop := ReflTransGen G.Step G.entry

/-- There is a path to the point that does not define the name. -/
def Avoids (i : N) : P → Prop := ReflTransGen (fun p q => G.Step p q ∧ ¬ G.Defines p q i) G.entry

/-- Every path to the point defines the name. -/
def Dominates (i : N) (p : P) : Prop := ¬ G.Avoids i p

variable {G} {p q : P} {i : N}

theorem Avoids.reaches (h : G.Avoids i p) : G.Reaches p :=
  ReflTransGen.mono (fun _ _ hstep => hstep.1) _ _ h

/-- The first definition on a path, of steps of one kind. -/
theorem avoids_or_defines {R : P → P → Prop} (hR : ∀ p q, R p q → G.Step p q)
    (h : ReflTransGen R G.entry p) (i : N) : G.Avoids i p ∨
      ∃ r r', ReflTransGen R G.entry r ∧ G.Avoids i r ∧ R r r' ∧ G.Defines r r' i := by
  induction h with
  | refl => exact .inl .refl
  | @tail p q hpath hstep ih =>
    rcases ih with havoids | hdefined
    · by_cases hdef : G.Defines p q i
      · exact .inr ⟨p, q, hpath, havoids, hstep, hdef⟩
      · exact .inl (havoids.tail ⟨hR p q hstep, hdef⟩)
    · exact .inr hdefined

theorem Dominates.trans {j : N} (h : G.Dominates i p)
    (hdef : ∀ r r', G.Step r r' → G.Defines r r' i → G.Dominates j r) : G.Dominates j p := by
  have havoids : ∀ p, G.Avoids j p → G.Avoids i p := by
    intro p hp
    induction hp with
    | refl => exact .refl
    | tail hpath hstep ih => exact ih.tail ⟨hstep.1, fun hi => hdef _ _ hstep.1 hi hpath⟩
  exact fun hp => h (havoids p hp)

/-! ### Values -/

variable (G) in
/-- A step gives values to the names it defines, and leaves the others as they are. -/
structure Executes (p q : P) (e e' : N → Option V) : Prop where
  step : G.Step p q
  keep : ∀ n, ¬ G.Defines p q n → e' n = e n
  isSome : ∀ n, G.Defines p q n → (e' n).isSome = true

variable {e e' : N → Option V}

theorem isSome_step (hexec : G.Executes p q e e') (h : G.Avoids i p ∨ (e i).isSome = true) :
    G.Avoids i q ∨ (e' i).isSome = true := by
  by_cases hdef : G.Defines p q i
  · exact .inr (hexec.isSome i hdef)
  · rcases h with havoids | hsome
    · exact .inl (havoids.tail ⟨hexec.step, hdef⟩)
    · exact .inr (by rw [hexec.keep i hdef, hsome])

variable (G) in
/-- A name can hold the value of an expression that reads the names `S`: they dominate its definitions,
and each of them is defined in front of one point only. -/
structure Copies (i : N) (S : Set N) : Prop where
  dominates : ∀ a ∈ S, ∀ r r', G.Step r r' → G.Defines r r' i → G.Dominates a r
  unique : ∀ a ∈ S, ∀ r r' q q', G.Reaches r → G.Step r r' → G.Defines r r' a →
    G.Reaches q → G.Step q q' → G.Defines q q' a → r' = q'
  separate : ∀ a ∈ S, ∀ r r', G.Defines r r' a → ¬ G.Defines r r' i

/-- Where a name that is read was just defined, a path from the entry does not get to the copy: cut off at
its first definition of the copy, the path to here has already defined the name. -/
theorem Copies.avoids {S : Set N} (h : G.Copies i S) {a : N} (ha : a ∈ S) (hreach : G.Reaches p)
    (hstep : G.Step p q) (hdef : G.Defines p q a) : G.Avoids i q := by
  rcases avoids_or_defines (fun _ _ => id) hreach i with havoids | ⟨r, r', -, havoids, hstep', hdef'⟩
  · exact havoids.tail ⟨hstep, h.separate a ha p q hdef⟩
  · have hdom := h.dominates a ha r r' hstep' hdef'
    rcases avoids_or_defines (fun _ _ => And.left) havoids a with havoids' | ⟨s, s', hs, -, hstep'', hdef''⟩
    · exact absurd havoids' hdom
    · have hsame := h.unique a ha s s' p q (Avoids.reaches hs) hstep''.1 hdef'' hreach hstep hdef
      exact hsame ▸ hs.tail hstep''

/-- **A copy and its original** stay equal, or there is a path to here that avoids the copy: what the
original reads was defined again, and its first definition is reached without the copy. -/
theorem copies_step {S : Set N} {value : (N → Option V) → Option V}
    (hvalue : ∀ e e' : N → Option V, (∀ n ∈ S, e' n = e n) → value e' = value e)
    (hcopies : G.Copies i S) (hreach : G.Reaches p) (hexec : G.Executes p q e e')
    (hset : G.Defines p q i → e' i = value e) (h : G.Avoids i p ∨ e i = value e) :
    G.Avoids i q ∨ e' i = value e' := by
  by_cases hi : G.Defines p q i
  · refine .inr ((hset hi).trans (hvalue e e' fun a ha => ?_).symm)
    exact hexec.keep a fun hdef => hcopies.separate a ha p q hdef hi
  · by_cases hS : ∃ a ∈ S, G.Defines p q a
    · obtain ⟨a, ha, hdef⟩ := hS
      exact .inl (hcopies.avoids ha hreach hexec.step hdef)
    · rcases h with havoids | hsame
      · exact .inl (havoids.tail ⟨hexec.step, hi⟩)
      · have hkeep := hvalue e e' fun a ha => hexec.keep a fun hdef => hS ⟨a, ha, hdef⟩
        exact .inr ((hexec.keep i hi).trans (hsame.trans hkeep.symm))

end FlowGraph
