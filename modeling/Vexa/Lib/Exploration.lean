import Mathlib.Data.Finset.Card
import Mathlib.Algebra.Order.BigOperators.Group.List
import Mathlib.Tactic.Ring

/-!
# Counting the steps of an exploration

An exploration follows one path at a time through a finite set of points and keeps a list of pending
paths. Visiting a point that was not visited before may leave one more pending path behind; ending a
path takes one off the list. Three bounds on the number of steps follow, by ranks that every step
lowers.

* When the visited points are shared by all paths, the number of steps is linear in the number of
  points (`sharedRank`).
* When every path only knows the points it visited itself, and a fork inherits those of its parent,
  the paths form a binary tree and the number of steps is exponential (`treeRank`).
* When every path has a depth left that its steps and forks lower, the same bound holds of the
  depths (`forestRank`).

Nothing is assumed about which pending path is taken next.
-/

namespace Exploration

variable {α : Type*} [DecidableEq α] {P V : Finset α} {x : α} {m n : ℕ}

/-! ### One set of visited points -/

/-- The steps left: two for every point not visited, and one for every pending path. -/
def sharedRank (P V : Finset α) (pending : ℕ) : ℕ := 2 * (P \ V).card + pending

/-- Visiting one of the points makes the rest smaller. -/
theorem card_sdiff_insert (hx : x ∈ P) (hV : x ∉ V) :
    (P \ insert x V).card + 1 = (P \ V).card := by
  have herase : P \ insert x V = (P \ V).erase x := by
    ext y
    simp only [Finset.mem_sdiff, Finset.mem_insert, Finset.mem_erase, not_or]
    tauto
  rw [herase]
  exact Finset.card_erase_add_one (Finset.mem_sdiff.mpr ⟨hx, hV⟩)

/-- A visit may leave one more path behind. -/
theorem sharedRank_visit (hx : x ∈ P) (hV : x ∉ V) (hm : m ≤ n + 1) :
    sharedRank P (insert x V) m < sharedRank P V n := by
  have hcard := card_sdiff_insert hx hV
  rw [sharedRank, sharedRank]
  omega

theorem sharedRank_finish (P V : Finset α) (n : ℕ) :
    sharedRank P V n < sharedRank P V (n + 1) := by
  rw [sharedRank, sharedRank]
  omega

/-! ### Visited points along each path -/

/-- The steps a path needs that has `k` points left, with all its forks. -/
def budget (k : ℕ) : ℕ := 2 ^ (k + 1) - 1

theorem budget_pos (k : ℕ) : 0 < budget k := by
  have h := Nat.one_lt_two_pow (Nat.succ_ne_zero k)
  rw [budget]
  omega

theorem budget_succ (k : ℕ) : budget (k + 1) = budget k + budget k + 1 := by
  have h := Nat.one_le_two_pow (n := k + 1)
  rw [budget, budget, pow_succ 2 (k + 1)]
  omega

/-- The steps left: the budget of the current path and of every pending one. -/
def treeRank (P V : Finset α) (pending : List (Finset α)) : ℕ :=
  budget (P \ V).card + (pending.map fun W => budget (P \ W).card).sum

/-- A visit may leave one path behind, which has visited the same points. -/
theorem treeRank_visit {pending pending' : List (Finset α)} (hx : x ∈ P) (hV : x ∉ V)
    (h : pending' = pending ∨ pending' = insert x V :: pending) :
    treeRank P (insert x V) pending' < treeRank P V pending := by
  have hbudget := budget_succ (P \ insert x V).card
  rw [card_sdiff_insert hx hV] at hbudget
  rcases h with rfl | rfl
  · rw [treeRank, treeRank]
    omega
  · rw [treeRank, treeRank, List.map_cons, List.sum_cons]
    omega

theorem treeRank_finish (P V W : Finset α) (before after : List (Finset α)) :
    treeRank P W (before ++ after) < treeRank P V (before ++ W :: after) := by
  have hpos := budget_pos (P \ V).card
  rw [treeRank, treeRank, List.map_append, List.sum_append, List.map_append, List.sum_append,
    List.map_cons, List.sum_cons]
  omega

/-- The budget only shrinks with the points left. -/
theorem treeRank_nil_le {n : ℕ} (h : P.card ≤ n) : treeRank P ∅ [] ≤ budget n := by
  rw [treeRank, Finset.sdiff_empty, List.map_nil, List.sum_nil, Nat.add_zero, budget, budget]
  have hpow : 2 ^ (P.card + 1) ≤ 2 ^ (n + 1) := Nat.pow_le_pow_right (by decide) (by omega)
  omega

/-! ### Paths of bounded depth -/

theorem budget_le (h : m ≤ n) : budget m ≤ budget n := by
  have hpow : 2 ^ (m + 1) ≤ 2 ^ (n + 1) := Nat.pow_le_pow_right (by decide) (by omega)
  rw [budget, budget]
  omega

/-- A fork into two paths that are less deep. -/
theorem budget_fork {k : ℕ} (hm : m < k) (hn : n < k) : budget m + budget n < budget k := by
  obtain ⟨k, rfl⟩ := Nat.exists_eq_succ_of_ne_zero (Nat.ne_zero_of_lt hm)
  have hm' := budget_le (Nat.le_of_lt_succ hm)
  have hn' := budget_le (Nat.le_of_lt_succ hn)
  rw [Nat.succ_eq_add_one, budget_succ]
  omega

section

variable {β : Type*} {d d' : ℕ} {depth depth' : β → ℕ} {pending before after : List β} {p : β}

/-- The steps left when the current path can go `d` deep and the pending ones `depth`. -/
def forestRank (d : ℕ) (depth : β → ℕ) (pending : List β) : ℕ :=
  budget d + (pending.map fun p => budget (depth p)).sum

theorem sum_budget_le (h : ∀ p ∈ pending, depth' p ≤ depth p) :
    (pending.map fun p => budget (depth' p)).sum ≤ (pending.map fun p => budget (depth p)).sum :=
  List.sum_le_sum fun p hp => budget_le (h p hp)

/-- The current path goes on. -/
theorem forestRank_visit (hd : d' < d) (h : ∀ p ∈ pending, depth' p ≤ depth p) :
    forestRank d' depth' pending < forestRank d depth pending := by
  have hpending := sum_budget_le h
  have hbudget := budget_fork hd hd
  have hpos := budget_pos d'
  rw [forestRank, forestRank]
  omega

/-- The current path forks. -/
theorem forestRank_fork (hd : d' < d) (hp : depth' p < d) (h : ∀ p ∈ pending, depth' p ≤ depth p) :
    forestRank d' depth' (p :: pending) < forestRank d depth pending := by
  have hpending := sum_budget_le h
  have hbudget := budget_fork hd hp
  rw [forestRank, forestRank, List.map_cons, List.sum_cons]
  omega

/-- The current path ends. -/
theorem forestRank_finish (d : ℕ) (h : ∀ q ∈ before ++ p :: after, depth' q ≤ depth q) :
    forestRank (depth' p) depth' (before ++ after) < forestRank d depth (before ++ p :: after) := by
  have hpending := sum_budget_le h
  have hpos := budget_pos d
  rw [List.map_append, List.sum_append, List.map_cons, List.sum_cons] at hpending
  rw [forestRank, forestRank, List.map_append, List.sum_append]
  omega

theorem forestRank_nil (d : ℕ) (depth : β → ℕ) : forestRank d depth [] = budget d := by
  rw [forestRank, List.map_nil, List.sum_nil, Nat.add_zero]

end

end Exploration
