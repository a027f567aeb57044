import Mathlib.Algebra.BigOperators.Group.Finset.Basic
import Mathlib.Algebra.Order.BigOperators.Group.Multiset
import Mathlib.Data.Multiset.Basic

/-!
# Reference-counted heaps

Objects at numbered locations, each with a use count. `make` creates an object with one holder,
`retain` adds a holder, `release` takes one away and destroys the object with the last one, and
`unique` asks whether there is exactly one. Locations are never reused.

## Holders

Nothing in a heap says who its holders are. A client keeps their multiset and relates it to the
heap by `Counted`; each operation has one lemma that moves `Counted` to the multiset after it. When
the objects of one heap hold objects of another, `held` collects what they hold.

## Main results

* `Counted.make`, `.retain`, `.release`, `.set` — the holders after each operation
* `Counted.unique_iff` — a unique location has no other holder
* `Counted.cells_release_of_mem` — releasing never destroys an object that is still held
-/

/-- Objects with use counts; a destroyed or future location has no object. -/
structure RefHeap (α : Type*) where
  cells : ℕ → Option α
  count : ℕ → ℕ
  next : ℕ

namespace RefHeap

variable {α : Type*}

def empty : RefHeap α := ⟨fun _ => none, fun _ => 0, 0⟩

/-- The location of the object `make` creates next is `next`. -/
def make (h : RefHeap α) (x : α) : RefHeap α :=
  ⟨Function.update h.cells h.next (some x), Function.update h.count h.next 1, h.next + 1⟩

def retain (h : RefHeap α) (l : ℕ) : RefHeap α :=
  { h with count := Function.update h.count l (h.count l + 1) }

def release (h : RefHeap α) (l : ℕ) : RefHeap α :=
  if h.count l ≤ 1 then
    { h with cells := Function.update h.cells l none, count := Function.update h.count l 0 }
  else { h with count := Function.update h.count l (h.count l - 1) }

def unique (h : RefHeap α) (l : ℕ) : Bool := h.count l = 1

/-- Overwrite an object in place. -/
def set (h : RefHeap α) (l : ℕ) (x : α) : RefHeap α :=
  { h with cells := Function.update h.cells l (some x) }

@[simp] theorem cells_retain (h : RefHeap α) (l : ℕ) : (h.retain l).cells = h.cells := rfl

theorem count_make (h : RefHeap α) (x : α) :
    (h.make x).count = Function.update h.count h.next 1 := rfl

theorem count_retain (h : RefHeap α) (l : ℕ) :
    (h.retain l).count = Function.update h.count l (h.count l + 1) := rfl

theorem cells_release (h : RefHeap α) (l : ℕ) :
    (h.release l).cells = if h.count l ≤ 1 then Function.update h.cells l none else h.cells := by
  rw [release]
  split <;> rfl

@[simp] theorem next_retain (h : RefHeap α) (l : ℕ) : (h.retain l).next = h.next := rfl

@[simp] theorem next_set (h : RefHeap α) (l : ℕ) (x : α) : (h.set l x).next = h.next := rfl

@[simp] theorem next_release (h : RefHeap α) (l : ℕ) : (h.release l).next = h.next := by
  rw [release]
  split <;> rfl

@[simp] theorem cells_set_self (h : RefHeap α) (l : ℕ) (x : α) : (h.set l x).cells l = some x :=
  Function.update_self ..

theorem cells_set_of_ne (h : RefHeap α) {l k : ℕ} (hne : k ≠ l) (x : α) :
    (h.set l x).cells k = h.cells k := Function.update_of_ne hne ..

@[simp] theorem cells_make_self (h : RefHeap α) (x : α) : (h.make x).cells h.next = some x :=
  Function.update_self ..

theorem cells_make_of_ne (h : RefHeap α) {k : ℕ} (hne : k ≠ h.next) (x : α) :
    (h.make x).cells k = h.cells k := Function.update_of_ne hne ..

theorem unique_make_self (h : RefHeap α) (x : α) : (h.make x).unique h.next = true := by
  rw [unique, count_make, Function.update_self, decide_eq_true rfl]

theorem unique_release_of_ne (h : RefHeap α) {l k : ℕ} (hne : k ≠ l) :
    (h.release l).unique k = h.unique k := by
  rw [unique, unique, release]
  split <;> simp only [Function.update_of_ne hne]

/-! ### Holders -/

/-- `H` is the multiset of holders: use counts are its multiplicities, and exactly the held
locations have an object. -/
structure Counted (h : RefHeap α) (H : Multiset ℕ) : Prop where
  count_eq : ∀ l, h.count l = H.count l
  live : ∀ l, l ∈ H ↔ (h.cells l).isSome
  bound : ∀ l ∈ H, l < h.next

namespace Counted

variable {h : RefHeap α} {H : Multiset ℕ} {l k : ℕ}

theorem empty : Counted (RefHeap.empty : RefHeap α) 0 :=
  ⟨fun _ => by simp [RefHeap.empty], fun _ => by simp [RefHeap.empty], by simp⟩

theorem exists_cell (hH : Counted h H) (hl : l ∈ H) : ∃ x, h.cells l = some x :=
  Option.isSome_iff_exists.mp ((hH.live l).mp hl)

theorem mem_of_cell (hH : Counted h H) {x : α} (hx : h.cells l = some x) : l ∈ H :=
  (hH.live l).mpr (by rw [hx]; rfl)

theorem next_notMem (hH : Counted h H) : h.next ∉ H := fun hn => lt_irrefl _ (hH.bound _ hn)

theorem make (hH : Counted h H) (x : α) : Counted (h.make x) (h.next ::ₘ H) := by
  refine ⟨fun l => ?_, fun l => ?_, fun l hl => ?_⟩
  · by_cases hne : l = h.next
    · subst hne
      rw [count_make, Function.update_self, Multiset.count_cons_self,
        Multiset.count_eq_zero_of_notMem hH.next_notMem]
    · rw [count_make, Function.update_of_ne hne, Multiset.count_cons_of_ne hne, hH.count_eq]
  · by_cases hne : l = h.next
    · subst hne; simp
    · rw [cells_make_of_ne h hne, Multiset.mem_cons, or_iff_right hne]
      exact hH.live l
  · rcases Multiset.mem_cons.mp hl with rfl | hl
    · exact Nat.lt_succ_self _
    · exact Nat.lt_succ_of_lt (hH.bound l hl)

/-- Objects that are held keep their place when another one is made. -/
theorem cells_make_of_mem (hH : Counted h H) (hk : k ∈ H) (x : α) :
    (h.make x).cells k = h.cells k :=
  cells_make_of_ne h (hH.bound k hk).ne x

theorem retain (hH : Counted h H) (hl : l ∈ H) : Counted (h.retain l) (l ::ₘ H) := by
  have hcons : ∀ k, k ∈ l ::ₘ H ↔ k ∈ H := by
    intro k
    rw [Multiset.mem_cons, or_iff_right_of_imp]
    rintro rfl
    exact hl
  refine ⟨fun k => ?_, fun k => (hcons k).trans (hH.live k), fun k hk =>
    hH.bound k ((hcons k).mp hk)⟩
  by_cases hne : k = l
  · subst hne
    rw [count_retain, Function.update_self, Multiset.count_cons_self, hH.count_eq]
  · rw [count_retain, Function.update_of_ne hne, Multiset.count_cons_of_ne hne, hH.count_eq]

/-- Releasing never destroys an object that is still held. -/
theorem cells_release_of_mem (hH : Counted h (l ::ₘ H)) (hk : k ∈ H) :
    (h.release l).cells k = h.cells k := by
  rw [cells_release]
  split
  · next hle =>
    refine Function.update_of_ne ?_ _ _
    rintro rfl
    have hpos := Multiset.count_pos.mpr hk
    rw [hH.count_eq, Multiset.count_cons_self] at hle
    omega
  · rfl

theorem release (hH : Counted h (l ::ₘ H)) : Counted (h.release l) H := by
  have hcount : ∀ k, (h.release l).count k = H.count k := by
    intro k
    have hl := hH.count_eq l
    rw [Multiset.count_cons_self] at hl
    by_cases hne : k = l
    · subst hne
      rw [RefHeap.release]
      split <;> simp only [Function.update_self] <;> omega
    · have hk := hH.count_eq k
      rw [Multiset.count_cons_of_ne hne] at hk
      rw [RefHeap.release]
      split <;> simp only [Function.update_of_ne hne, hk]
  refine ⟨hcount, fun k => ?_, fun k hk => ?_⟩
  · by_cases hmem : k ∈ H
    · rw [hH.cells_release_of_mem hmem, ← hH.live k]
      exact iff_of_true hmem (Multiset.mem_cons_of_mem hmem)
    · refine iff_of_false hmem ?_
      by_cases hne : k = l
      · subst hne
        have hle : h.count k ≤ 1 := by
          rw [hH.count_eq, Multiset.count_cons_self, Multiset.count_eq_zero_of_notMem hmem]
        rw [cells_release, if_pos hle, Function.update_self]
        exact Bool.false_ne_true
      · have hdead : ¬ (h.cells k).isSome := fun hk =>
          (Multiset.mem_cons.mp ((hH.live k).mpr hk)).elim hne hmem
        rw [cells_release]
        split
        · rwa [Function.update_of_ne hne]
        · exact hdead
  · rw [next_release]
    exact hH.bound k (Multiset.mem_cons_of_mem hk)

theorem set (hH : Counted h H) (hl : l ∈ H) (x : α) : Counted (h.set l x) H := by
  refine ⟨hH.count_eq, fun k => ?_, hH.bound⟩
  by_cases hne : k = l
  · subst hne; simp [hl]
  · rw [cells_set_of_ne h hne]; exact hH.live k

/-- **A unique location has no other holder.** -/
theorem unique_iff (hH : Counted h (l ::ₘ H)) : h.unique l = true ↔ l ∉ H := by
  rw [unique, decide_eq_true_iff, hH.count_eq, Multiset.count_cons_self, ← Multiset.count_eq_zero]
  omega

end Counted

/-! ### Objects that hold objects -/

/-- What the objects of a heap hold in another heap, when `x` holds the locations `R x`. -/
def held (R : α → Multiset ℕ) (h : RefHeap α) : Multiset ℕ :=
  ∑ i ∈ Finset.range h.next, ((h.cells i).map R).getD 0

variable {R : α → Multiset ℕ} {h : RefHeap α} {l : ℕ} {x : α}

theorem held_congr {h' : RefHeap α} (hc : h'.cells = h.cells) (hn : h'.next = h.next) :
    h'.held R = h.held R := by
  rw [held, held, hc, hn]

@[simp] theorem held_retain : (h.retain l).held R = h.held R := held_congr rfl rfl

theorem held_make (x : α) : (h.make x).held R = R x + h.held R := by
  rw [held, held, show (h.make x).next = h.next + 1 from rfl, Finset.sum_range_succ, cells_make_self,
    add_comm]
  congr 1
  refine Finset.sum_congr rfl fun i hi => ?_
  rw [cells_make_of_ne h (Finset.mem_range.mp hi).ne]

/-- Splitting off what one object holds. -/
theorem held_eq_add (hl : l < h.next) (hx : h.cells l = some x) :
    h.held R = R x + ∑ i ∈ (Finset.range h.next).erase l, ((h.cells i).map R).getD 0 := by
  rw [held, ← Finset.add_sum_erase _ _ (Finset.mem_range.mpr hl), hx]
  rfl

theorem held_set (hl : l < h.next) (hx : h.cells l = some x) (y : α) :
    (h.set l y).held R + R x = h.held R + R y := by
  have hrest : ∑ i ∈ (Finset.range h.next).erase l, (((h.set l y).cells i).map R).getD 0
      = ∑ i ∈ (Finset.range h.next).erase l, ((h.cells i).map R).getD 0 :=
    Finset.sum_congr rfl fun i hi => by rw [cells_set_of_ne h (Finset.ne_of_mem_erase hi)]
  rw [held_eq_add (h := h.set l y) hl (cells_set_self h l y), held_eq_add hl hx, next_set, hrest,
    add_right_comm, add_comm (R y) (R x), ← add_right_comm]

theorem held_release_of_shared (hs : ¬ h.count l ≤ 1) : (h.release l).held R = h.held R := by
  rw [release, if_neg hs]
  exact held_congr rfl rfl

theorem held_release_of_last (hl : l < h.next) (hx : h.cells l = some x) (hs : h.count l ≤ 1) :
    R x + (h.release l).held R = h.held R := by
  have hcells : (h.release l).cells = Function.update h.cells l none := by
    rw [cells_release, if_pos hs]
  have hrest : ∑ i ∈ (Finset.range h.next).erase l, (((h.release l).cells i).map R).getD 0
      = ∑ i ∈ (Finset.range h.next).erase l, ((h.cells i).map R).getD 0 :=
    Finset.sum_congr rfl fun i hi => by
      rw [hcells, Function.update_of_ne (Finset.ne_of_mem_erase hi)]
  rw [held_eq_add hl hx, held, next_release, ← Finset.add_sum_erase _ _ (Finset.mem_range.mpr hl),
    hrest, hcells, Function.update_self]
  simp

theorem refs_le_held (hl : l < h.next) (hx : h.cells l = some x) : R x ≤ h.held R := by
  rw [held_eq_add hl hx]
  exact Multiset.le_add_right _ _

/-- Two objects hold what each of them holds. -/
theorem refs_add_refs_le_held {k : ℕ} {y : α} (hne : k ≠ l) (hl : l < h.next)
    (hx : h.cells l = some x) (hk : k < h.next) (hy : h.cells k = some y) :
    R x + R y ≤ h.held R := by
  rw [held_eq_add hl hx]
  refine Multiset.add_le_add_iff_left.mpr ?_
  have hmem : k ∈ (Finset.range h.next).erase l :=
    Finset.mem_erase.mpr ⟨hne, Finset.mem_range.mpr hk⟩
  rw [← Finset.add_sum_erase _ _ hmem, hy]
  exact Multiset.le_add_right _ _

theorem mem_held (hl : l < h.next) (hx : h.cells l = some x) {k : ℕ} (hk : k ∈ R x) :
    k ∈ h.held R := Multiset.mem_of_le (refs_le_held hl hx) hk

end RefHeap
