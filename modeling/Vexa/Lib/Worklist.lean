import Mathlib.Algebra.BigOperators.Fin
import Mathlib.Data.Finset.Basic
import Mathlib.Logic.Relation

/-!
# Breadth-first search with a list of visited points

The search takes the first point of a queue. A point that was visited before is dropped; any other one
is marked, and its successors are added to the end of the queue. It answers whether some point it
marked is one that is looked for.

The points marked at the start are not looked at. When whatever follows them is marked or waits in
the queue, the search still finds all that can be reached from the queue without being marked.

## Main results

* `search_iff` — what a search with enough fuel finds
-/

namespace Worklist

open Relation

variable {α : Type*} [DecidableEq α] {succ : α → List α} {found : α → Bool} {P : Finset α}

/-- The search: whether a point is marked that is looked for. -/
def search (succ : α → List α) (found : α → Bool) : ℕ → List α → List α → Bool
  | 0, _, _ => false
  | _ + 1, [], _ => false
  | n + 1, x :: queue, visited =>
    if x ∈ visited then search succ found n queue visited
    else found x || search succ found n (queue ++ succ x) (x :: visited)

/-- `y` is a successor of `x`. -/
def Edge (succ : α → List α) (x y : α) : Prop := y ∈ succ x

omit [DecidableEq α] in
/-- A path from a marked point to one that is not marked leaves the marked points through the queue. -/
theorem exists_mem_queue {queue visited : List α}
    (hclosed : ∀ x ∈ visited, ∀ y ∈ succ x, y ∈ visited ∨ y ∈ queue)
    {x y : α} (hx : x ∈ visited) (hreach : ReflTransGen (Edge succ) x y) (hy : y ∉ visited) :
    ∃ q ∈ queue, ReflTransGen (Edge succ) q y := by
  induction hreach using ReflTransGen.head_induction_on with
  | refl => exact absurd hx hy
  | head hstep hrest ih =>
    rcases hclosed _ hx _ hstep with hmarked | hqueue
    · exact ih hmarked
    · exact ⟨_, hqueue, hrest⟩

/-- What is left to do: the queue, and what the points that are not marked will add to it. -/
def remaining (succ : α → List α) (P : Finset α) (queue visited : List α) : ℕ :=
  queue.length + ∑ x ∈ P \ visited.toFinset, (succ x).length

theorem remaining_visit {x : α} {queue visited : List α} (hx : x ∈ P) (hnew : x ∉ visited) :
    remaining succ P (queue ++ succ x) (x :: visited) + 1 = remaining succ P (x :: queue) visited := by
  have hmem : x ∈ P \ visited.toFinset :=
    Finset.mem_sdiff.mpr ⟨hx, fun h => hnew (List.mem_toFinset.mp h)⟩
  have herase : P \ (x :: visited).toFinset = (P \ visited.toFinset).erase x := by
    ext y
    simp only [List.toFinset_cons, Finset.mem_sdiff, Finset.mem_insert, Finset.mem_erase, not_or]
    tauto
  have hsum := Finset.add_sum_erase (P \ visited.toFinset) (fun y => (succ y).length) hmem
  rw [remaining, remaining, herase, List.length_append, List.length_cons]
  omega

/-- **The search**, with fuel for all that is left: it finds what can be reached from the queue and is
not marked. -/
theorem search_iff (hP : ∀ x ∈ P, ∀ y ∈ succ x, y ∈ P) (n : ℕ) : ∀ {queue visited : List α},
    (∀ x ∈ queue, x ∈ P) → (∀ x ∈ visited, ∀ y ∈ succ x, y ∈ visited ∨ y ∈ queue) →
    remaining succ P queue visited < n →
    (search succ found n queue visited = true ↔
      ∃ y ∉ visited, found y = true ∧ ∃ q ∈ queue, ReflTransGen (Edge succ) q y) := by
  induction n with
  | zero => exact fun _ _ h => absurd h (Nat.not_lt_zero _)
  | succ n ih =>
    intro queue visited hqueue hclosed hfuel
    cases queue with
    | nil => simp [search]
    | cons x queue =>
      obtain ⟨hx, hqueue⟩ := List.forall_mem_cons.mp hqueue
      rw [search]
      split
      · next hmarked =>
        have hclosed' : ∀ z ∈ visited, ∀ y ∈ succ z, y ∈ visited ∨ y ∈ queue := by
          intro z hz y hy
          rcases hclosed z hz y hy with h | h
          · exact .inl h
          · rcases List.mem_cons.mp h with rfl | h
            · exact .inl hmarked
            · exact .inr h
        rw [ih hqueue hclosed' (by rw [remaining, List.length_cons] at hfuel; rw [remaining]; omega)]
        constructor
        · rintro ⟨y, hy, hfound, q, hq, hreach⟩
          exact ⟨y, hy, hfound, q, List.mem_cons_of_mem _ hq, hreach⟩
        · rintro ⟨y, hy, hfound, q, hq, hreach⟩
          rcases List.mem_cons.mp hq with rfl | hq
          · exact ⟨y, hy, hfound, exists_mem_queue hclosed' hmarked hreach hy⟩
          · exact ⟨y, hy, hfound, q, hq, hreach⟩
      · next hnew =>
        have hqueue' : ∀ y ∈ queue ++ succ x, y ∈ P := fun y hy =>
          (List.mem_append.mp hy).elim (hqueue y) (hP x hx y)
        have hclosed' : ∀ z ∈ x :: visited, ∀ y ∈ succ z, y ∈ x :: visited ∨ y ∈ queue ++ succ x := by
          intro z hz y hy
          rcases List.mem_cons.mp hz with rfl | hz
          · exact .inr (List.mem_append_right _ hy)
          · rcases hclosed z hz y hy with h | h
            · exact .inl (List.mem_cons_of_mem _ h)
            · rcases List.mem_cons.mp h with rfl | h
              · exact .inl (List.mem_cons_self ..)
              · exact .inr (List.mem_append_left _ h)
        have hleft : remaining succ P (queue ++ succ x) (x :: visited) + 1
            = remaining succ P (x :: queue) visited := remaining_visit hx hnew
        rw [Bool.or_eq_true, ih hqueue' hclosed' (by omega)]
        constructor
        · rintro (hfound | ⟨y, hy, hfound, q, hq, hreach⟩)
          · exact ⟨x, hnew, hfound, x, List.mem_cons_self .., .refl⟩
          · refine ⟨y, fun h => hy (List.mem_cons_of_mem _ h), hfound, ?_⟩
            rcases List.mem_append.mp hq with hq | hq
            · exact ⟨q, List.mem_cons_of_mem _ hq, hreach⟩
            · exact ⟨x, List.mem_cons_self .., .head hq hreach⟩
        · rintro ⟨y, hy, hfound, q, hq, hreach⟩
          by_cases hyx : y = x
          · exact .inl (hyx ▸ hfound)
          · refine .inr ⟨y, fun h => (List.mem_cons.mp h).elim hyx hy, hfound, ?_⟩
            rcases List.mem_cons.mp hq with rfl | hq
            · rcases ReflTransGen.cases_head hreach with heq | ⟨z, hstep, hrest⟩
              · exact absurd heq.symm hyx
              · exact ⟨z, List.mem_append_right _ hstep, hrest⟩
            · exact ⟨q, List.mem_append_left _ hq, hreach⟩

end Worklist
