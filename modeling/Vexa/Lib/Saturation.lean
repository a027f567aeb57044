import Mathlib.Data.Finset.Card
import Mathlib.Data.Finset.Dedup
import Mathlib.Data.List.Nodup
import Mathlib.Order.Lattice

/-!
# Saturation by a worklist

Items fire one after the other. Whether an item can fire, and with what result, depends on what has fired
before; once it can, it always can, and with the same result. When an item fires, the items that depend on
it are looked at again: nothing else can have become able to fire.

The worklist holds every item once at most. An item that cannot fire is dropped, and comes back when one
of the items it depends on fires.

## What comes out

The items fired are the same for every order in which the worklist is filled: whatever fires in one run
was enabled by what fired before it, so another run must have fired it as well before it could stop.

## Main definitions

* `Work`, `saturate` — the loop
* `Stable` — what is asked of the condition
* `Saturated` — a sequence of firings that cannot be continued

## Main results

* `saturated_of_saturate`, `exists_saturate` — the loop ends, with such a sequence
* `Saturated.mem_iff` — all such sequences fire the same items, with the same results
-/

namespace Saturation

variable {α β : Type*}

/-- The items waiting, in a queue and as a set, and the items that fired, with their results. -/
structure Work (α β : Type*) where
  worklist : List α
  queued : Finset α
  log : List (α × β)

/-- The items that fired. -/
def keys (log : List (α × β)) : List α := log.map Prod.fst

@[simp] theorem keys_nil : keys ([] : List (α × β)) = [] := rfl

@[simp] theorem keys_append (log log' : List (α × β)) : keys (log ++ log') = keys log ++ keys log' :=
  List.map_append

@[simp] theorem keys_singleton (p : α × β) : keys [p] = [p.1] := rfl

theorem mem_keys_of_mem {log : List (α × β)} {p : α × β} (h : p ∈ log) : p.1 ∈ keys log :=
  List.mem_map_of_mem h

section

variable [DecidableEq α] (eligible : List (α × β) → α → Option β)
  (dependents : List (α × β) → α → List α)

def Work.enqueue (w : Work α β) (a : α) : Work α β :=
  if a ∉ keys w.log ∧ a ∉ w.queued then
    { w with worklist := w.worklist ++ [a], queued := insert a w.queued }
  else w

/-- An item taken from the worklist. -/
def Work.visit (w : Work α β) (a : α) : Work α β :=
  if a ∈ keys w.log then w
  else match eligible w.log a with
    | none => w
    | some b => (dependents w.log a).foldl enqueue { w with log := w.log ++ [(a, b)] }

/-- The loop. -/
def saturate : ℕ → Work α β → Option (List (α × β))
  | 0, _ => none
  | fuel + 1, w =>
    match w.worklist with
    | [] => some w.log
    | a :: rest =>
      saturate fuel (Work.visit eligible dependents
        { w with worklist := rest, queued := w.queued.erase a } a)

end

/-! ### What the condition looks at -/

/-- An item that can fire can fire with the same result later on, and whether it can depends on the items
it depends on. -/
structure Stable (eligible : List (α × β) → α → Option β) (Dep : α → α → Prop) : Prop where
  mono : ∀ {log log' : List (α × β)} {a : α} {b : β}, log ⊆ log' → (keys log').Nodup →
    eligible log a = some b → eligible log' a = some b
  frame : ∀ {log : List (α × β)} {a x : α} {b : β}, ¬ Dep a x →
    eligible (log ++ [(a, b)]) x = eligible log x

/-- An item the loop has to look at. -/
def Reached (Dep : α → α → Prop) (seeds : List α) (log : List (α × β)) (a : α) : Prop :=
  a ∈ seeds ∨ ∃ p ∈ log, Dep p.1 a

/-- The firings so far: each item once, when it was reached and could fire. -/
def Fired (eligible : List (α × β) → α → Option β) (Dep : α → α → Prop) (seeds : List α)
    (log : List (α × β)) : Prop :=
  ∀ pre a b post, log = pre ++ (a, b) :: post →
    a ∉ keys pre ∧ eligible pre a = some b ∧ Reached Dep seeds pre a

/-- A sequence of firings that cannot be continued. -/
structure Saturated (eligible : List (α × β) → α → Option β) (Dep : α → α → Prop) (seeds : List α)
    (log : List (α × β)) : Prop where
  fired : Fired eligible Dep seeds log
  rest : ∀ a, Reached Dep seeds log a → a ∉ keys log → eligible log a = none

section

variable {eligible : List (α × β) → α → Option β} {Dep : α → α → Prop} {seeds : List α}
  {log log' : List (α × β)}

theorem Reached.mono (hsub : log ⊆ log') {a : α} (h : Reached Dep seeds log a) :
    Reached Dep seeds log' a :=
  h.imp_right fun ⟨p, hp, hdep⟩ => ⟨p, hsub hp, hdep⟩

/-- Every reached item lies in a finite set that the dependencies do not leave. -/
theorem Reached.mem {P : Finset α} (hseeds : ∀ a ∈ seeds, a ∈ P) (hP : ∀ a x, Dep a x → x ∈ P)
    {a : α} (h : Reached Dep seeds log a) : a ∈ P := by
  rcases h with h | ⟨p, -, h⟩
  · exact hseeds a h
  · exact hP p.1 a h

theorem Fired.nil : Fired eligible Dep seeds [] := fun pre a b post h => by
  have := congrArg List.length h
  simp at this

theorem Fired.concat (h : Fired eligible Dep seeds log) {a : α} {b : β} (hnew : a ∉ keys log)
    (helig : eligible log a = some b) (hreached : Reached Dep seeds log a) :
    Fired eligible Dep seeds (log ++ [(a, b)]) := by
  intro pre x y post heq
  rcases List.eq_nil_or_concat post with rfl | ⟨post, last, rfl⟩
  · obtain ⟨rfl, hlast⟩ := List.append_inj' heq rfl
    cases hlast
    exact ⟨hnew, helig, hreached⟩
  · rw [List.concat_eq_append, ← List.cons_append, ← List.append_assoc] at heq
    exact h pre x y post (List.append_inj' heq rfl).1

theorem Fired.front {pre post : List (α × β)} (h : Fired eligible Dep seeds (pre ++ post)) :
    Fired eligible Dep seeds pre := by
  intro pre' a b post' heq
  exact h pre' a b (post' ++ post) (by rw [heq, List.append_assoc, List.cons_append])

theorem Fired.nodup (h : Fired eligible Dep seeds log) : (keys log).Nodup := by
  induction log using List.reverseRecOn with
  | nil => exact List.nodup_nil
  | append_singleton log p ih =>
    rw [keys_append, keys_singleton]
    refine List.nodup_append.mpr ⟨ih h.front, List.nodup_singleton _, ?_⟩
    rintro a ha b hb rfl
    rw [List.mem_singleton.mp hb] at ha
    exact (h log p.1 p.2 [] rfl).1 ha

/-- **One run fires what another one fires.** -/
theorem Saturated.subset (hstable : Stable eligible Dep) {seeds' : List α}
    (hseeds : ∀ a ∈ seeds, a ∈ seeds') (h : Fired eligible Dep seeds log)
    (h' : Saturated eligible Dep seeds' log') : log ⊆ log' := by
  induction log using List.reverseRecOn with
  | nil => exact List.nil_subset _
  | append_singleton log p ih =>
    obtain ⟨a, b⟩ := p
    have hsub := ih h.front
    obtain ⟨-, helig, hreached⟩ := h log a b [] rfl
    have helig' : eligible log' a = some b := hstable.mono hsub h'.fired.nodup helig
    have hreached' : Reached Dep seeds' log' a :=
      (Reached.mono hsub hreached).imp_left (hseeds a)
    -- the other run fired the item as well, when it could with the same result
    have hmem : a ∈ keys log' := by
      by_contra hnot
      rw [h'.rest a hreached' hnot] at helig'
      cases helig'
    obtain ⟨⟨_, b'⟩, hp, rfl⟩ := List.mem_map.mp hmem
    obtain ⟨pre, post, hsplit⟩ := List.append_of_mem hp
    have hthen := (h'.fired pre _ b' post hsplit).2.1
    have hlater := hstable.mono (hsplit ▸ List.subset_append_left ..) h'.fired.nodup hthen
    obtain rfl := Option.some.inj (helig'.symm.trans hlater)
    intro q hq
    rcases List.mem_append.mp hq with hq | hq
    · exact hsub hq
    · rw [List.mem_singleton.mp hq]
      exact hp

/-- **All runs fire the same items with the same results.** -/
theorem Saturated.mem_iff (hstable : Stable eligible Dep) {seeds' : List α}
    (hseeds : ∀ a, a ∈ seeds ↔ a ∈ seeds') (h : Saturated eligible Dep seeds log)
    (h' : Saturated eligible Dep seeds' log') (p : α × β) : p ∈ log ↔ p ∈ log' :=
  ⟨fun hp => Saturated.subset hstable (fun a => (hseeds a).mp) h.fired h' hp,
    fun hp => Saturated.subset hstable (fun a => (hseeds a).mpr) h'.fired h hp⟩

end

/-! ### The loop -/

section

variable [DecidableEq α] {eligible : List (α × β) → α → Option β}
  {dependents : List (α × β) → α → List α} {Dep : α → α → Prop} {seeds : List α}

/-- The set of the items waiting is that of the queue, which holds each of them once. -/
structure Work.Queued (w : Work α β) : Prop where
  mem : ∀ a, a ∈ w.queued ↔ a ∈ w.worklist
  nodup : w.worklist.Nodup

/-- Between two rounds: the firings so far, why an item waits, and that an item that does not wait cannot
fire. -/
structure Work.Inv (eligible : List (α × β) → α → Option β) (Dep : α → α → Prop) (seeds : List α)
    (w : Work α β) : Prop where
  queue : w.Queued
  reached : ∀ a ∈ w.worklist, Reached Dep seeds w.log a
  fired : Fired eligible Dep seeds w.log
  pending : ∀ a, Reached Dep seeds w.log a → a ∉ keys w.log → a ∉ w.worklist →
    eligible w.log a = none

theorem log_enqueue (w : Work α β) (a : α) : (w.enqueue a).log = w.log := by
  rw [Work.enqueue]
  split
  · rfl
  · rfl

theorem Work.Queued.enqueue {w : Work α β} (h : w.Queued) (a : α) : (w.enqueue a).Queued := by
  rw [Work.enqueue]
  split
  · next hnew =>
    refine ⟨fun x => ?_, ?_⟩
    · rw [Finset.mem_insert, List.mem_append, List.mem_singleton, h.mem x, or_comm]
    · refine List.nodup_append.mpr ⟨h.nodup, List.nodup_singleton a, ?_⟩
      rintro x hx y hy rfl
      rw [List.mem_singleton.mp hy] at hx
      exact hnew.2 ((h.mem a).mpr hx)
  · exact h

theorem Work.Queued.mem_enqueue {w : Work α β} (h : w.Queued) (a x : α) :
    x ∈ (w.enqueue a).worklist ↔ x ∈ w.worklist ∨ (x = a ∧ a ∉ keys w.log) := by
  rw [Work.enqueue]
  split
  · next hnew => simp [hnew.1]
  · next hold =>
    constructor
    · exact .inl
    · rintro (hx | ⟨rfl, hx⟩)
      · exact hx
      · by_contra hnot
        exact hold ⟨hx, fun hq => hnot ((h.mem x).mp hq)⟩

/-- Items put into the worklist one after the other. -/
theorem Work.Queued.foldl_enqueue : ∀ (l : List α) {w : Work α β}, w.Queued →
    (l.foldl Work.enqueue w).Queued ∧ (l.foldl Work.enqueue w).log = w.log ∧
    ∀ x, x ∈ (l.foldl Work.enqueue w).worklist ↔ x ∈ w.worklist ∨ (x ∈ l ∧ x ∉ keys w.log)
  | [], w, h => ⟨h, rfl, fun x => by simp⟩
  | a :: l, w, h => by
    obtain ⟨hqueue, hlog, hmem⟩ := Work.Queued.foldl_enqueue l (h.enqueue a)
    refine ⟨hqueue, hlog.trans (log_enqueue w a), fun x => ?_⟩
    rw [List.foldl_cons, hmem x, h.mem_enqueue, log_enqueue, List.mem_cons]
    constructor
    · rintro ((hx | ⟨rfl, hx⟩) | ⟨hx, hnot⟩)
      · exact .inl hx
      · exact .inr ⟨.inl rfl, hx⟩
      · exact .inr ⟨.inr hx, hnot⟩
    · rintro (hx | ⟨rfl | hx, hnot⟩)
      · exact .inl (.inl hx)
      · exact .inl (.inr ⟨rfl, hnot⟩)
      · exact .inr ⟨hx, hnot⟩

/-- The worklist filled with the seeds. -/
theorem Work.Inv.start (eligible : List (α × β) → α → Option β) (Dep : α → α → Prop) (seeds : List α) :
    (seeds.foldl Work.enqueue (⟨[], ∅, []⟩ : Work α β)).Inv eligible Dep seeds := by
  have hempty : (⟨[], ∅, []⟩ : Work α β).Queued := ⟨fun a => by simp, List.nodup_nil⟩
  obtain ⟨hqueue, hlog, hmem⟩ := hempty.foldl_enqueue seeds
  refine ⟨hqueue, fun a ha => ?_, hlog ▸ Fired.nil, fun a hreached hnew hnot => ?_⟩
  · rcases (hmem a).mp ha with h | ⟨h, -⟩
    · cases h
    · exact .inl h
  · rw [hlog] at hreached hnew
    rcases hreached with hseed | ⟨p, hp, -⟩
    · exact absurd ((hmem a).mpr (.inr ⟨hseed, hnew⟩)) hnot
    · cases hp

/-- **One round**: the item taken is dropped, or fires and brings back the items that depend on it. -/
theorem Work.Inv.visit (hstable : Stable eligible Dep)
    (hdep : ∀ log a, a ∉ keys log → ∀ x, x ∈ dependents log a ↔ Dep a x) {w : Work α β} {a : α}
    {rest : List α} (h : w.Inv eligible Dep seeds) (hw : w.worklist = a :: rest) :
    (Work.visit eligible dependents { w with worklist := rest, queued := w.queued.erase a } a).Inv
      eligible Dep seeds := by
  obtain ⟨hqueue, hreached, hfired, hpending⟩ := h
  have hnodup := hqueue.nodup
  rw [hw] at hnodup hreached hpending
  obtain ⟨hnot, hrest⟩ := List.nodup_cons.mp hnodup
  have hpop : (⟨rest, w.queued.erase a, w.log⟩ : Work α β).Queued := by
    refine ⟨fun x => ?_, hrest⟩
    rw [Finset.mem_erase, hqueue.mem x, hw, List.mem_cons]
    constructor
    · rintro ⟨hne, rfl | hx⟩
      · exact absurd rfl hne
      · exact hx
    · intro hx
      exact ⟨fun heq => hnot (heq ▸ hx), .inr hx⟩
  -- an item dropped because it fired before, or cannot fire
  have hdrop : (a ∈ keys w.log ∨ eligible w.log a = none) →
      (⟨rest, w.queued.erase a, w.log⟩ : Work α β).Inv eligible Dep seeds := by
    intro hcase
    refine ⟨hpop, fun x hx => hreached x (List.mem_cons_of_mem _ hx), hfired, fun x hx hnew hout => ?_⟩
    by_cases hxa : x = a
    · subst hxa
      exact hcase.resolve_left hnew
    · exact hpending x hx hnew fun hmem => (List.mem_cons.mp hmem).elim hxa hout
  rw [Work.visit]
  split
  · next hold => exact hdrop (.inl hold)
  · next hnew =>
    simp only at hnew
    split
    · next hnone => exact hdrop (.inr hnone)
    · next b helig =>
      simp only at helig
      have hfire : (⟨rest, w.queued.erase a, w.log ++ [(a, b)]⟩ : Work α β).Queued := ⟨hpop.mem, hrest⟩
      obtain ⟨hqueue', hlog, hmem⟩ := hfire.foldl_enqueue (dependents w.log a)
      have hsub : w.log ⊆ w.log ++ [(a, b)] := List.subset_append_left ..
      refine ⟨hqueue', fun x hx => ?_, ?_, fun x hx hxnew hout => ?_⟩
      · rw [hlog]
        rcases (hmem x).mp hx with hx | ⟨hx, -⟩
        · exact (hreached x (List.mem_cons_of_mem _ hx)).mono hsub
        · exact .inr ⟨(a, b), List.mem_append_right _ (List.mem_singleton_self _),
            (hdep w.log a hnew x).mp hx⟩
      · rw [hlog]
        exact hfired.concat hnew helig (hreached a List.mem_cons_self)
      · rw [hlog] at hx hxnew ⊢
        have hind : ¬ Dep a x := fun hd =>
          hout ((hmem x).mpr (.inr ⟨(hdep w.log a hnew x).mpr hd, hxnew⟩))
        rw [hstable.frame hind]
        rw [keys_append, keys_singleton, List.mem_append, List.mem_singleton, not_or] at hxnew
        refine hpending x ?_ hxnew.1 fun hwait => ?_
        · rcases hx with hseed | ⟨p, hp, hd⟩
          · exact .inl hseed
          · rcases List.mem_append.mp hp with hp | hp
            · exact .inr ⟨p, hp, hd⟩
            · rw [List.mem_singleton.mp hp] at hd
              exact absurd hd hind
        · rcases List.mem_cons.mp hwait with hxa | hwait
          · exact hxnew.2 hxa
          · exact hout ((hmem x).mpr (.inl hwait))

/-- **The loop ends with a saturated sequence.** -/
theorem saturated_of_saturate (hstable : Stable eligible Dep)
    (hdep : ∀ log a, a ∉ keys log → ∀ x, x ∈ dependents log a ↔ Dep a x) :
    ∀ {fuel : ℕ} {w : Work α β} {log : List (α × β)}, w.Inv eligible Dep seeds →
      saturate eligible dependents fuel w = some log → Saturated eligible Dep seeds log
  | 0, _, _, _, h => nomatch h
  | fuel + 1, w, log, hinv, h => by
    rw [saturate] at h
    split at h
    · next hw =>
      obtain rfl := Option.some.inj h
      exact ⟨hinv.fired, fun a ha hnew => hinv.pending a ha hnew (by rw [hw]; exact List.not_mem_nil)⟩
    · next a rest hw => exact saturated_of_saturate hstable hdep (hinv.visit hstable hdep hw) h

/-! ### Termination -/

/-- What is left to do: the items waiting, and a full worklist for every item that has not fired. -/
def Work.remaining (P : Finset α) (w : Work α β) : ℕ :=
  (P.card - w.log.length) * (P.card + 1) + w.worklist.length

theorem Work.Inv.length_le {P : Finset α} (hseeds : ∀ a ∈ seeds, a ∈ P) (hP : ∀ a x, Dep a x → x ∈ P)
    {w : Work α β} (h : w.Inv eligible Dep seeds) :
    w.log.length ≤ P.card ∧ w.worklist.length ≤ P.card := by
  constructor
  · have hkeys : (keys w.log).toFinset ⊆ P := by
      intro a ha
      obtain ⟨⟨x, b⟩, hp, rfl⟩ := List.mem_map.mp (List.mem_toFinset.mp ha)
      obtain ⟨pre, post, hsplit⟩ := List.append_of_mem hp
      exact (h.fired pre x b post hsplit).2.2.mem hseeds hP
    have hcard := Finset.card_le_card hkeys
    rwa [List.toFinset_card_of_nodup h.fired.nodup, keys, List.length_map] at hcard
  · have hwait : w.worklist.toFinset ⊆ P := fun a ha =>
      (h.reached a (List.mem_toFinset.mp ha)).mem hseeds hP
    have hcard := Finset.card_le_card hwait
    rwa [List.toFinset_card_of_nodup h.queue.nodup] at hcard

variable (eligible dependents) in
/-- A round drops an item, or a further item has fired. -/
theorem Work.visit_or (w : Work α β) (a : α) :
    Work.visit eligible dependents w a = w ∨
      (Work.visit eligible dependents w a).log.length = w.log.length + 1 := by
  rw [Work.visit]
  split
  · exact .inl rfl
  · split
    · exact .inl rfl
    · next b _ =>
      right
      have hlog : ∀ (l : List α) (w : Work α β), (l.foldl Work.enqueue w).log = w.log := by
        intro l
        induction l with
        | nil => exact fun _ => rfl
        | cons x l ih => exact fun w => (ih _).trans (log_enqueue w x)
      rw [hlog, List.length_append]
      rfl

/-- **The loop ends.** -/
theorem exists_saturate (hstable : Stable eligible Dep)
    (hdep : ∀ log a, a ∉ keys log → ∀ x, x ∈ dependents log a ↔ Dep a x) {P : Finset α}
    (hseeds : ∀ a ∈ seeds, a ∈ P) (hP : ∀ a x, Dep a x → x ∈ P) : ∀ {fuel : ℕ} {w : Work α β},
    w.Inv eligible Dep seeds → w.remaining P < fuel →
      ∃ log, saturate eligible dependents fuel w = some log
  | 0, _, _, h => absurd h (Nat.not_lt_zero _)
  | fuel + 1, w, hinv, hfuel => by
    rw [saturate]
    split
    · exact ⟨w.log, rfl⟩
    · next a rest hw =>
      have hinv' := hinv.visit hstable hdep hw
      refine exists_saturate hstable hdep hseeds hP hinv' ?_
      have hlen := (hinv'.length_le hseeds hP)
      rw [Work.remaining, hw, List.length_cons] at hfuel
      rcases Work.visit_or eligible dependents
        ⟨rest, w.queued.erase a, w.log⟩ a with hsame | hmore
      · rw [hsame, Work.remaining]
        simp only
        omega
      · rw [Work.remaining]
        simp only at hmore
        rw [hmore] at hlen ⊢
        -- one item more has fired, which pays for a full worklist
        have hstep : P.card - w.log.length = (P.card - (w.log.length + 1)) + 1 := by omega
        rw [hstep, Nat.add_mul, Nat.one_mul] at hfuel
        omega

end

end Saturation
