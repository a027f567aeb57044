import Mathlib.Algebra.Order.Group.Nat
import Mathlib.Logic.Relation

/-!
# Depth-first walks that undo what they do

A walk over a forest with an explicit stack. Going down to a node changes a state; what is needed to
undo the change is saved in the frame of the node, and undone when its frame is left. The state then
depends only on the path from the root to the node whose frame is on top, whatever was visited before.

## Main definitions

* `Walk` — the children, the change at a node, and how it is undone
* `Walk.step` — one iteration of the loop
* `Walk.Follows` — the state is that of the path on the stack

## Main results

* `Walk.reaches_induction` — what holds at the root and of a node when of its parent holds of every
  frame on top
* `Walk.leaves` — a frame is left with the state there was before it
* `Walk.enters` — the walk comes to every node
-/

namespace DepthFirst

open Relation

/-- A forest, a change of the state at each node, and its undoing. -/
structure Walk (N σ R : Type*) where
  children : N → List N
  enter : N → σ → σ
  save : σ → R
  restore : R → σ → σ
  restore_enter : ∀ x s, restore (save s) (enter x s) = s

/-- A node on the stack, how many of its children were visited, and what was saved. -/
structure Frame (N R : Type*) where
  node : N
  nextChild : ℕ
  saved : R
  entered : Bool

/-- The stack, its top first, and the state. -/
structure WalkState (N σ R : Type*) where
  stack : List (Frame N R)
  state : σ

variable {N σ R : Type*}

/-- The frame of a node that was just pushed. -/
def Frame.new (x : N) (saved : R) : Frame N R := ⟨x, 0, saved, false⟩

/-- The frame with some of its children visited. -/
def Frame.visited (f : Frame N R) (k : ℕ) : Frame N R := { f with nextChild := k, entered := true }

/-- The node whose frame is on top. -/
def WalkState.top (c : WalkState N σ R) : Option N := c.stack.head?.map Frame.node

/-- The frame of the node is on top and was not looked at. -/
def WalkState.Enters (c : WalkState N σ R) (x : N) : Prop :=
  ∃ saved rest, c.stack = Frame.new x saved :: rest

namespace Walk

variable (w : Walk N σ R)

/-- One iteration: the next child is pushed, or the frame is popped and its change undone. -/
def step (c : WalkState N σ R) : Option (WalkState N σ R) :=
  match c.stack with
  | [] => none
  | f :: rest =>
    match (w.children f.node)[f.nextChild]? with
    | some x =>
      some ⟨Frame.new x (w.save c.state) :: f.visited (f.nextChild + 1) :: rest, w.enter x c.state⟩
    | none => some ⟨rest, w.restore f.saved c.state⟩

/-- A run of the loop. -/
def Reaches : WalkState N σ R → WalkState N σ R → Prop := ReflTransGen fun c d => w.step c = some d

/-- A run of the loop in which every step starts with more than `n` frames on the stack. -/
def Above (n : ℕ) : WalkState N σ R → WalkState N σ R → Prop :=
  ReflTransGen fun c d => w.step c = some d ∧ n < c.stack.length

/-- The state is the one of the path on the stack, and every frame saved what its change needs. -/
def Follows (root : N) (s₀ : σ) : List (Frame N R) → σ → Prop
  | [], _ => True
  | [f], s => f.node = root ∧ s = s₀
  | f :: g :: rest, s =>
    ∃ s', Follows root s₀ (g :: rest) s' ∧ f.node ∈ w.children g.node ∧ f.saved = w.save s' ∧
      s = w.enter f.node s'

variable {w} {root : N} {s₀ : σ}

theorem step_push {f : Frame N R} {rest : List (Frame N R)} {s : σ} {x : N}
    (hx : (w.children f.node)[f.nextChild]? = some x) :
    w.step ⟨f :: rest, s⟩ =
      some ⟨Frame.new x (w.save s) :: f.visited (f.nextChild + 1) :: rest, w.enter x s⟩ := by
  simp only [step, hx]

theorem step_pop {f : Frame N R} {rest : List (Frame N R)} {s : σ}
    (hnone : (w.children f.node)[f.nextChild]? = none) :
    w.step ⟨f :: rest, s⟩ = some ⟨rest, w.restore f.saved s⟩ := by
  simp only [step, hnone]

/-- How far a frame got does not matter for the path. -/
theorem Follows.visited {f : Frame N R} {rest : List (Frame N R)} {s : σ} (k : ℕ)
    (h : w.Follows root s₀ (f :: rest) s) : w.Follows root s₀ (f.visited k :: rest) s := by
  cases rest with
  | nil => exact h
  | cons g rest => exact h

/-- One iteration keeps to the path. -/
theorem Follows.step {c d : WalkState N σ R} (h : w.Follows root s₀ c.stack c.state)
    (hstep : w.step c = some d) : w.Follows root s₀ d.stack d.state := by
  obtain ⟨stack, s⟩ := c
  cases stack with
  | nil => exact absurd hstep (by simp [Walk.step])
  | cons f rest =>
    cases hchild : (w.children f.node)[f.nextChild]? with
    | some x =>
      rw [step_push hchild] at hstep
      obtain rfl := Option.some.inj hstep
      exact ⟨s, h.visited _, List.mem_of_getElem? hchild, rfl, rfl⟩
    | none =>
      rw [step_pop hchild] at hstep
      obtain rfl := Option.some.inj hstep
      cases rest with
      | nil => exact trivial
      | cons g rest =>
        obtain ⟨s', hrest, -, hsaved, rfl⟩ := h
        rw [hsaved, w.restore_enter]
        exact hrest

theorem Reaches.follows {c d : WalkState N σ R} (h : w.Reaches c d)
    (hc : w.Follows root s₀ c.stack c.state) : w.Follows root s₀ d.stack d.state := by
  induction h with
  | refl => exact hc
  | tail _ hstep ih => exact ih.step hstep

/-- **Every state of the walk.** What holds of the root and its state, and of a node when it holds of
its parent, holds of the node on top. -/
theorem reaches_induction {P : N → σ → Prop} {saved : R} (hroot : P root s₀)
    (henter : ∀ x s, P x s → ∀ y ∈ w.children x, P y (w.enter y s)) {d : WalkState N σ R}
    (h : w.Reaches ⟨[Frame.new root saved], s₀⟩ d) {x : N} (hx : d.top = some x) : P x d.state := by
  have hpath : ∀ (stack : List (Frame N R)) (s : σ), w.Follows root s₀ stack s →
      ∀ f ∈ stack.head?, P f.node s := by
    intro stack
    induction stack with
    | nil => exact fun _ _ f hf => nomatch hf
    | cons f rest ih =>
      intro s hs f' hf'
      obtain rfl : f = f' := Option.some.inj hf'
      cases rest with
      | nil =>
        obtain ⟨hnode, rfl⟩ := hs
        rw [hnode]
        exact hroot
      | cons g rest =>
        obtain ⟨s', hrest, hchild, -, rfl⟩ := hs
        exact henter _ _ (ih s' hrest g rfl) _ hchild
  obtain ⟨f, hf, rfl⟩ := Option.map_eq_some_iff.mp hx
  exact hpath _ _ (h.follows ⟨rfl, rfl⟩) f hf

theorem Above.reaches {n : ℕ} {c d : WalkState N σ R} (h : w.Above n c d) : w.Reaches c d :=
  ReflTransGen.mono (fun _ _ hstep => hstep.1) c d h

theorem Above.mono {m n : ℕ} {c d : WalkState N σ R} (hmn : m ≤ n) (h : w.Above n c d) :
    w.Above m c d :=
  ReflTransGen.mono (fun _ _ hstep => ⟨hstep.1, hmn.trans_lt hstep.2⟩) c d h

section Forest

variable (hwf : WellFounded fun x y => x ∈ w.children y)
include hwf

/-- **Leaving a frame.** The walk comes back to the stack below a frame that was pushed, having undone
the change made for it. -/
theorem leaves (x : N) : ∀ (f : Frame N R) (rest : List (Frame N R)) (s : σ), f.node = x →
    f.nextChild ≤ (w.children x).length →
    w.Above rest.length ⟨f :: rest, s⟩ ⟨rest, w.restore f.saved s⟩ := by
  induction x using hwf.induction with
  | _ x ih =>
    intro f rest s hnode hnext
    obtain ⟨left, hleft⟩ := Nat.exists_eq_add_of_le hnext
    induction left generalizing f with
    | zero =>
      have hnone : (w.children f.node)[f.nextChild]? = none :=
        List.getElem?_eq_none (by rw [hnode]; omega)
      exact .single ⟨step_pop hnone, Nat.lt_succ_self _⟩
    | succ left ihleft =>
      obtain ⟨y, hy⟩ : ∃ y, (w.children f.node)[f.nextChild]? = some y :=
        ⟨_, List.getElem?_eq_getElem (by rw [hnode]; omega)⟩
      have hmem : y ∈ w.children x := hnode ▸ List.mem_of_getElem? hy
      have hvisit := ih y hmem (Frame.new y (w.save s)) (f.visited (f.nextChild + 1) :: rest)
        (w.enter y s) rfl (Nat.zero_le _)
      have hback : w.restore (Frame.new y (w.save s)).saved (w.enter y s) = s := w.restore_enter y s
      rw [hback] at hvisit
      have hothers := ihleft (f.visited (f.nextChild + 1)) hnode
        (show f.nextChild + 1 ≤ _ by omega) (show _ = f.nextChild + 1 + left by omega)
      exact .head ⟨step_push hy, Nat.lt_succ_self _⟩ ((hvisit.mono (Nat.le_succ _)).trans hothers)

/-- A child that was pushed is left with the state its parent had. -/
theorem leaves_child {f : Frame N R} {x : N} (rest : List (Frame N R)) (s : σ)
    (hx : (w.children f.node)[f.nextChild]? = some x) :
    ∃ d, w.step ⟨f :: rest, s⟩ = some d ∧ d.Enters x ∧
      w.Above (rest.length + 1) d ⟨f.visited (f.nextChild + 1) :: rest, s⟩ := by
  refine ⟨_, step_push hx, ⟨_, _, rfl⟩, ?_⟩
  have hleft := leaves hwf x (Frame.new x (w.save s)) (f.visited (f.nextChild + 1) :: rest) (w.enter x s)
    rfl (Nat.zero_le _)
  have hback : w.restore (Frame.new x (w.save s)).saved (w.enter x s) = s := w.restore_enter x s
  rwa [hback] at hleft

/-- From a frame that was pushed the walk comes to all of its children. -/
theorem enters_child {c : WalkState N σ R} {x y : N} (hc : c.Enters x) (hy : y ∈ w.children x) :
    ∃ d, w.Reaches c d ∧ d.Enters y := by
  obtain ⟨stack, s⟩ := c
  obtain ⟨saved, rest, rfl⟩ := hc
  have hvisit : ∀ k ≤ (w.children x).length, ∃ f : Frame N R, f.node = x ∧ f.nextChild = k ∧
      w.Reaches ⟨Frame.new x saved :: rest, s⟩ ⟨f :: rest, s⟩ := by
    intro k
    induction k with
    | zero => exact fun _ => ⟨_, rfl, rfl, .refl⟩
    | succ k ih =>
      intro hk
      obtain ⟨f, rfl, rfl, hreach⟩ := ih (Nat.le_of_succ_le hk)
      obtain ⟨d, hstep, -, hleft⟩ := leaves_child hwf rest s
        (List.getElem?_eq_getElem (Nat.lt_of_succ_le hk))
      exact ⟨f.visited (f.nextChild + 1), rfl, rfl, hreach.trans (.head hstep hleft.reaches)⟩
  obtain ⟨k, hk, rfl⟩ := List.getElem_of_mem hy
  obtain ⟨f, rfl, rfl, hreach⟩ := hvisit k hk.le
  obtain ⟨d, hstep, henters, -⟩ := leaves_child hwf rest s (List.getElem?_eq_getElem hk)
  exact ⟨d, hreach.tail hstep, henters⟩

/-- **The walk comes to every node** of the tree. -/
theorem enters {c : WalkState N σ R} {x y : N} (hc : c.Enters x)
    (hy : ReflTransGen (fun x y => y ∈ w.children x) x y) : ∃ d, w.Reaches c d ∧ d.Enters y := by
  induction hy with
  | refl => exact ⟨c, .refl, hc⟩
  | tail _ hchild ih =>
    obtain ⟨d, hreach, henters⟩ := ih
    obtain ⟨e, hreach', henters'⟩ := enters_child hwf henters hchild
    exact ⟨e, hreach.trans hreach', henters'⟩

end Forest

end Walk

end DepthFirst
