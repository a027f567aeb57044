import Mathlib.Algebra.BigOperators.Group.Finset.Piecewise
import Mathlib.Algebra.Order.BigOperators.Group.Finset
import Mathlib.Data.List.DropRight
import Mathlib.Data.Nat.Basic

/-!
# The pass manager

`pass_manager::run` goes through its pipeline from the front. When a pass says that it changed the
function, the sweep ends there and a new one starts; a sweep without a change is the last. A pass that
is not recursive runs only once.

## Passes as functions

A pass reads and writes the function and the context. Here it is a function on a state of any type, so
that its answer may depend on everything that happened before. A pass that throws ends the run and is not
considered.

## The runs made

`events` notes down every run of a pass, by its position in the pipeline, with its answer. The source has
no such list; it is what the statements about a run speak of. `PassRuns` says that it is a list of runs:
each answer is that of the pass on the state it was given, and the next pass is given the state it left.

## Main definitions

* `Pass`, `sweep`, `passLoop`, `passManagerRun`
* `PassRuns` — a list of runs with their answers, from one state to another
* `sinceChange`, `PassQuiet` — the runs after the last change, and the passes in front that had nothing
  to do

## Main results

* `passManagerRun_settles` — the run ends, and in which order passes run
* `optimize_settles` — what the scalarizer sees in the pipeline of `engine::optimize`
-/

namespace Vexa

variable {σ : Type}

/-- `ir::pass`. -/
structure Pass (σ : Type) where
  isRecursive : Bool
  run : σ → Bool × σ

/-- What the passes work on, `did_run` of each pass, and the runs made so far. -/
structure ManagerState (σ : Type) where
  world : σ
  didRun : ℕ → Bool
  events : List (ℕ × Bool)

/-- Before the first run. -/
def ManagerState.start (world : σ) : ManagerState σ := ⟨world, fun _ => false, []⟩

/-- `pass->run(func)` and `pass->did_run = true`. -/
def runPass (p : Pass σ) (i : ℕ) (s : ManagerState σ) : Bool × ManagerState σ :=
  let r := p.run s.world
  (r.1, ⟨r.2, Function.update s.didRun i true, s.events ++ [(i, r.1)]⟩)

/-- The `for` loop from position `i` on: whether it was left for a new sweep. -/
def sweep : List (Pass σ) → ℕ → ManagerState σ → Bool × ManagerState σ
  | [], _, s => (false, s)
  | p :: rest, i, s =>
    if p.isRecursive = false ∧ s.didRun i = true then sweep rest (i + 1) s
    else
      let r := runPass p i s
      if r.1 then r else sweep rest (i + 1) r.2

/-- The `do` loop, with a number of sweeps after which it is given up: whether it would go on. -/
def passLoop (pipeline : List (Pass σ)) : ℕ → ManagerState σ → Bool × ManagerState σ
  | 0, s => (true, s)
  | fuel + 1, s =>
    let r := sweep pipeline 0 s
    if r.1 then passLoop pipeline fuel r.2 else r

/-- `pass_manager::run`. `verifyFunction` is true of a broken function; `reorder` stands for what is done
to the blocks and names at the end. -/
def passManagerRun (verifyFunction : σ → Bool) (reorder : σ → σ) (pipeline : List (Pass σ))
    (fuel : ℕ) (func : σ) : Except String (Bool × ManagerState σ) := do
  if verifyFunction func then throw "invalid IR before optimization!"
  let r := passLoop pipeline fuel (.start func)
  return (r.1, { r.2 with world := reorder r.2.world })

/-! ### Orders of runs -/

/-- The passes were run in this order with these answers, each on what the one before it left. -/
def PassRuns (pipeline : List (Pass σ)) : List (ℕ × Bool) → σ → σ → Prop
  | [], w, w' => w = w'
  | (i, changed) :: events, w, w' => ∃ p, pipeline[i]? = some p ∧ (p.run w).1 = changed ∧
      PassRuns pipeline events (p.run w).2 w'

theorem PassRuns.concat {pipeline : List (Pass σ)} {i : ℕ} {p : Pass σ} (hp : pipeline[i]? = some p) :
    ∀ {events : List (ℕ × Bool)} {w w' : σ}, PassRuns pipeline events w w' →
      PassRuns pipeline (events ++ [(i, (p.run w').1)]) w (p.run w').2
  | [], w, w', h => by
    obtain rfl : w = w' := h
    exact ⟨p, hp, rfl, rfl⟩
  | (_, _) :: _, _, _, ⟨q, hq, hanswer, hrest⟩ => ⟨q, hq, hanswer, hrest.concat hp⟩

theorem PassRuns.answer {pipeline : List (Pass σ)} : ∀ {events : List (ℕ × Bool)} {w w' : σ},
    PassRuns pipeline events w w' →
      ∀ e ∈ events, ∃ p w, pipeline[e.1]? = some p ∧ (p.run w).1 = e.2
  | (_, _) :: _, w, _, ⟨q, hq, hanswer, hrest⟩, e, he => by
    rcases List.mem_cons.mp he with rfl | he
    · exact ⟨q, w, hq, hanswer⟩
    · exact hrest.answer e he

/-- The runs after the last change. -/
def sinceChange (events : List (ℕ × Bool)) : List (ℕ × Bool) := events.rtakeWhile fun e => !e.2

/-- Since the last change every recursive pass in front of position `i` ran and had nothing to do. -/
def PassQuiet (pipeline : List (Pass σ)) (i : ℕ) (events : List (ℕ × Bool)) : Prop :=
  ∀ j < i, ∀ p, pipeline[j]? = some p → p.isRecursive = true → (j, false) ∈ sinceChange events

/-- What holds between any two runs. -/
structure PassInv (pipeline : List (Pass σ)) (func : σ) (s : ManagerState σ) : Prop where
  runs : PassRuns pipeline s.events func s.world
  didRun : ∀ i, s.didRun i = true ↔ ∃ e ∈ s.events, e.1 = i
  once : ∀ i p, pipeline[i]? = some p → p.isRecursive = false →
    s.events.countP (fun e => e.1 = i) ≤ 1
  ordered : ∀ pre e post, s.events = pre ++ e :: post → PassQuiet pipeline e.1 pre

theorem PassInv.start (pipeline : List (Pass σ)) (func : σ) : PassInv pipeline func (.start func) := by
  refine ⟨rfl, fun i => ⟨nofun, fun ⟨e, he, _⟩ => absurd he List.not_mem_nil⟩,
    fun _ _ _ _ => Nat.zero_le 1, fun pre e post h => ?_⟩
  have := congrArg List.length h
  simp [ManagerState.start] at this

theorem PassInv.index {pipeline : List (Pass σ)} {func : σ} {s : ManagerState σ}
    (h : PassInv pipeline func s) :
    ∀ e ∈ s.events, e.1 < pipeline.length := by
  intro e he
  obtain ⟨p, _, hp, _⟩ := h.runs.answer e he
  exact (List.getElem?_eq_some_iff.mp hp).1

/-- **One run of a pass**: it must not be a second run of a pass that is not recursive, and the passes in
front must have had nothing to do. -/
theorem PassInv.runPass {pipeline : List (Pass σ)} {func : σ} {s : ManagerState σ}
    (h : PassInv pipeline func s) {i : ℕ} {p : Pass σ} (hp : pipeline[i]? = some p)
    (hrun : ¬ (p.isRecursive = false ∧ s.didRun i = true)) (hquiet : PassQuiet pipeline i s.events) :
    PassInv pipeline func (runPass p i s).2 := by
  have hevents : (Vexa.runPass p i s).2.events = s.events ++ [(i, (p.run s.world).1)] := rfl
  refine ⟨h.runs.concat hp, fun j => ?_, fun j q hq hrec => ?_, fun pre e post heq => ?_⟩
  · rw [hevents]
    show Function.update s.didRun i true j = true ↔ _
    by_cases hj : j = i
    · subst hj
      rw [Function.update_self]
      exact ⟨fun _ => ⟨_, List.mem_append_right _ (List.mem_singleton_self _), rfl⟩, fun _ => rfl⟩
    · rw [Function.update_of_ne hj, h.didRun j]
      simp only [List.mem_append, List.mem_singleton]
      constructor
      · rintro ⟨e, he, hej⟩
        exact ⟨e, .inl he, hej⟩
      · rintro ⟨e, he | rfl, hej⟩
        · exact ⟨e, he, hej⟩
        · exact absurd hej.symm hj
  · rw [hevents, List.countP_append, List.countP_singleton]
    by_cases hj : i = j
    · subst hj
      obtain rfl := Option.some.inj (hp.symm.trans hq)
      -- the pass has not run before
      have hnone : s.events.countP (fun e => e.1 = i) = 0 := by
        rw [List.countP_eq_zero]
        intro e he hei
        exact hrun ⟨hrec, (h.didRun i).mpr ⟨e, he, of_decide_eq_true hei⟩⟩
      rw [hnone]
      simp
    · rw [if_neg (by simpa using hj), Nat.add_zero]
      exact h.once j q hq hrec
  · rw [hevents] at heq
    rcases List.eq_nil_or_concat post with rfl | ⟨post, last, rfl⟩
    · obtain ⟨rfl, hlast⟩ := List.append_inj' heq rfl
      rw [← (List.cons.inj hlast).1]
      exact hquiet
    · rw [List.concat_eq_append, ← List.cons_append, ← List.append_assoc] at heq
      exact h.ordered pre e post (List.append_inj' heq rfl).1

/-- A pass that had nothing to do is added to those in front of the next one. -/
theorem PassQuiet.succ {pipeline : List (Pass σ)} {i : ℕ} {events : List (ℕ × Bool)}
    (h : PassQuiet pipeline i events) : PassQuiet pipeline (i + 1) (events ++ [(i, false)]) := by
  intro j hj q hq hrec
  rw [sinceChange, List.rtakeWhile_concat_pos _ _ _ rfl]
  rcases Nat.lt_succ_iff_lt_or_eq.mp hj with hlt | rfl
  · exact List.mem_append_left _ (h j hlt q hq hrec)
  · exact List.mem_append_right _ (List.mem_singleton_self _)

/-- A pass that is passed over is not recursive. -/
theorem PassQuiet.skip {pipeline : List (Pass σ)} {i : ℕ} {events : List (ℕ × Bool)} {p : Pass σ}
    (h : PassQuiet pipeline i events) (hp : pipeline[i]? = some p) (hrec : p.isRecursive = false) :
    PassQuiet pipeline (i + 1) events := by
  intro j hj q hq hq'
  rcases Nat.lt_succ_iff_lt_or_eq.mp hj with hlt | rfl
  · exact h j hlt q hq hq'
  · obtain rfl := Option.some.inj (hp.symm.trans hq)
    rw [hrec] at hq'
    cases hq'

/-! ### A sweep -/

/-- What a sweep from position `i` on leaves: the invariant, one change if it was left and none if not,
and in this case an answer of every recursive pass and of every pass that had not run. -/
structure Swept (pipeline : List (Pass σ)) (func : σ) (i : ℕ) (s : ManagerState σ)
    (r : Bool × ManagerState σ) (last : List (ℕ × Bool)) : Prop where
  inv : PassInv pipeline func r.2
  events : r.2.events = s.events ++ last
  changes : last.countP (fun e => e.2) = r.1.toNat
  all : r.1 = false → ∀ j p, i ≤ j → pipeline[j]? = some p →
    (p.isRecursive = true ∨ s.didRun j = false) → (j, false) ∈ last

theorem sweep_swept {pipeline : List (Pass σ)} {func : σ} :
    ∀ {rest : List (Pass σ)} {i : ℕ} {s : ManagerState σ}, pipeline.drop i = rest →
    PassInv pipeline func s → PassQuiet pipeline i s.events →
    ∃ last, Swept pipeline func i s (sweep rest i s) last
  | [], i, s, hrest, hinv, _ => by
    refine ⟨[], hinv, (List.append_nil _).symm, rfl, fun _ j p hj hp _ => ?_⟩
    have hlt := (List.getElem?_eq_some_iff.mp hp).1
    have hle := List.drop_eq_nil_iff.mp hrest
    omega
  | p :: rest, i, s, hrest, hinv, hquiet => by
    have hp : pipeline[i]? = some p := by
      rw [← List.head?_drop, hrest]
      rfl
    have htail : pipeline.drop (i + 1) = rest := by
      rw [← List.tail_drop, hrest]
      rfl
    rw [sweep]
    split
    · next hskip =>
      obtain ⟨last, hlast⟩ := sweep_swept htail hinv (hquiet.skip hp hskip.1)
      refine ⟨last, hlast.inv, hlast.events, hlast.changes, fun hr j q hj hq hcase => ?_⟩
      rcases Nat.lt_or_eq_of_le hj with hlt | rfl
      · exact hlast.all hr j q hlt hq hcase
      · obtain rfl := Option.some.inj (hp.symm.trans hq)
        rcases hcase with hrec | hnot
        · exact absurd (hskip.1.symm.trans hrec) Bool.false_ne_true
        · exact absurd (hnot.symm.trans hskip.2) Bool.false_ne_true
    · next hrun =>
      have hinv' := hinv.runPass hp hrun hquiet
      have hevents : (runPass p i s).2.events = s.events ++ [(i, (runPass p i s).1)] := rfl
      cases hr : (runPass p i s).1 with
      | true =>
        rw [hr] at hevents
        simp only [hr, if_true]
        exact ⟨[(i, true)], hinv', hevents, by rw [hr]; rfl,
          fun hfalse => absurd (hr.symm.trans hfalse) (by decide)⟩
      | false =>
        rw [hr] at hevents
        simp only [hr, Bool.false_eq_true, if_false]
        obtain ⟨last, hlast⟩ := sweep_swept htail hinv' (hevents ▸ hquiet.succ)
        refine ⟨(i, false) :: last, hlast.inv, ?_, ?_, fun hr j q hj hq hcase => ?_⟩
        · rw [hlast.events, hevents, List.append_assoc]
          rfl
        · rw [List.countP_cons, hlast.changes]
          rfl
        · rcases Nat.lt_or_eq_of_le hj with hlt | rfl
          · refine List.mem_cons_of_mem _ (hlast.all hr j q hlt hq (hcase.imp_right fun hnot => ?_))
            exact (Function.update_of_ne (Nat.ne_of_gt hlt) ..).trans hnot
          · exact List.mem_cons_self

/-! ### The loop -/

theorem passQuiet_zero (pipeline : List (Pass σ)) (events : List (ℕ × Bool)) :
    PassQuiet pipeline 0 events := fun _ hj => absurd hj (Nat.not_lt_zero _)

/-- **Every state of the loop** satisfies the invariant. A loop given up has seen a change in every
sweep; one that ended has ended with a sweep without a change. -/
theorem passLoop_spec {pipeline : List (Pass σ)} {func : σ} : ∀ {fuel : ℕ} {s : ManagerState σ},
    PassInv pipeline func s → PassInv pipeline func (passLoop pipeline fuel s).2 ∧
    ((passLoop pipeline fuel s).1 = true →
      (passLoop pipeline fuel s).2.events.countP (fun e => e.2) =
        s.events.countP (fun e => e.2) + fuel) ∧
    ((passLoop pipeline fuel s).1 = false → ∃ n s₀ last, PassInv pipeline func s₀ ∧
      passLoop pipeline n s = (true, s₀) ∧
      sweep pipeline 0 s₀ = (false, (passLoop pipeline fuel s).2) ∧
      Swept pipeline func 0 s₀ (false, (passLoop pipeline fuel s).2) last)
  | 0, s, hinv => ⟨hinv, fun _ => rfl, nofun⟩
  | fuel + 1, s, hinv => by
    obtain ⟨last, hlast⟩ := sweep_swept List.drop_zero hinv (passQuiet_zero _ _)
    rw [passLoop]
    cases hr : (sweep pipeline 0 s).1 with
    | true =>
      simp only [if_true]
      obtain ⟨hinv', hcount, hend⟩ := @passLoop_spec pipeline func fuel _ hlast.inv
      refine ⟨hinv', fun hgo => ?_, fun hstop => ?_⟩
      · rw [hcount hgo, hlast.events, List.countP_append, hlast.changes, hr, Bool.toNat_true]
        omega
      · obtain ⟨n, s₀, last, hinv₀, hn, hsweep⟩ := hend hstop
        refine ⟨n + 1, s₀, last, hinv₀, ?_, hsweep⟩
        rw [passLoop, hr]
        exact hn
    | false =>
      simp only [Bool.false_eq_true, if_false]
      refine ⟨hlast.inv, fun hgo => ?_, fun _ => ?_⟩
      · rw [hr] at hgo
        cases hgo
      · have heq : sweep pipeline 0 s = (false, (sweep pipeline 0 s).2) := Prod.ext hr rfl
        exact ⟨0, s, last, hinv, rfl, heq, heq ▸ hlast⟩

/-! ### Termination -/

/-- The changes, counted for each pass. -/
theorem countP_changed_eq_sum {n : ℕ} : ∀ {events : List (ℕ × Bool)}, (∀ e ∈ events, e.1 < n) →
    events.countP (fun e => e.2) = ∑ i ∈ Finset.range n, events.count (i, true)
  | [], _ => by simp
  | (j, changed) :: events, h => by
    have ih := countP_changed_eq_sum fun e he => h e (List.mem_cons_of_mem _ he)
    have hj : j < n := h (j, changed) List.mem_cons_self
    rw [List.countP_cons, ih]
    simp only [List.count_cons, Finset.sum_add_distrib]
    cases changed with
    | false => simp
    | true => simp [Finset.sum_ite_eq, hj]

/-- A pass that is not recursive has changed something at most once. -/
theorem PassInv.count_changed_le {pipeline : List (Pass σ)} {func : σ} {s : ManagerState σ}
    (h : PassInv pipeline func s) {i : ℕ} {p : Pass σ} (hp : pipeline[i]? = some p)
    (hrec : p.isRecursive = false) : s.events.count (i, true) ≤ 1 := by
  refine le_trans ?_ (h.once i p hp hrec)
  rw [List.count]
  refine List.countP_mono_left fun e _ he => ?_
  rw [eq_of_beq he]
  exact decide_eq_true rfl

/-- A pass that never says it changed something is not noted down with a change. -/
theorem PassInv.count_changed_eq_zero {pipeline : List (Pass σ)} {func : σ} {s : ManagerState σ}
    (h : PassInv pipeline func s) {i : ℕ} {p : Pass σ} (hp : pipeline[i]? = some p)
    (hnever : ∀ w, (p.run w).1 = false) : s.events.count (i, true) = 0 := by
  refine List.count_eq_zero.mpr fun hmem => ?_
  obtain ⟨q, w, hq, hanswer⟩ := h.runs.answer _ hmem
  obtain rfl := Option.some.inj (hp.symm.trans hq)
  exact absurd ((hnever w).symm.trans hanswer) Bool.false_ne_true

/-- **The loop ends** when each recursive pass changes something only finitely often. -/
theorem passLoop_terminates {pipeline : List (Pass σ)} {func : σ} {s : ManagerState σ}
    (hinv : PassInv pipeline func s)
    (hfinite : ∀ i p, pipeline[i]? = some p → p.isRecursive = true →
      ∃ N, ∀ fuel, (passLoop pipeline fuel s).2.events.count (i, true) ≤ N) :
    ∃ fuel, (passLoop pipeline fuel s).1 = false := by
  have hbound : ∀ i, ∃ N, i < pipeline.length →
      ∀ fuel, (passLoop pipeline fuel s).2.events.count (i, true) ≤ N := by
    intro i
    by_cases hi : i < pipeline.length
    · have hp := List.getElem?_eq_getElem hi
      cases hrec : pipeline[i].isRecursive with
      | true =>
        obtain ⟨N, hN⟩ := hfinite i _ hp hrec
        exact ⟨N, fun _ => hN⟩
      | false => exact ⟨1, fun _ fuel => (passLoop_spec hinv).1.count_changed_le hp hrec⟩
    · exact ⟨0, fun hlt => absurd hlt hi⟩
  choose N hN using hbound
  by_contra hforever
  have hgo : ∀ fuel, (passLoop pipeline fuel s).1 = true := fun fuel =>
    Bool.eq_true_of_not_eq_false fun hend => hforever ⟨fuel, hend⟩
  -- one sweep more than all changes that can happen
  set fuel := (∑ i ∈ Finset.range pipeline.length, N i) + 1 with hfuel
  obtain ⟨hinv', hcount, _⟩ := @passLoop_spec _ _ _ fuel _ hinv
  have hchanges := hcount (hgo fuel)
  rw [countP_changed_eq_sum hinv'.index] at hchanges
  have hle : ∑ i ∈ Finset.range pipeline.length, (passLoop pipeline fuel s).2.events.count (i, true) ≤
      ∑ i ∈ Finset.range pipeline.length, N i :=
    Finset.sum_le_sum fun i hi => hN i (Finset.mem_range.mp hi) fuel
  omega

/-- The loop ends with a sweep without a change, and every pass ran. -/
theorem passLoop_settles {pipeline : List (Pass σ)} {func : σ}
    (hfinite : ∀ i p, pipeline[i]? = some p → p.isRecursive = true →
      ∃ N, ∀ fuel, (passLoop pipeline fuel (.start func)).2.events.count (i, true) ≤ N) :
    ∃ fuel s, passLoop pipeline fuel (.start func) = (false, s) ∧ PassInv pipeline func s ∧
      (∀ i < pipeline.length, ∃ e ∈ s.events, e.1 = i) ∧
      ∃ n s₀ last, passLoop pipeline n (.start func) = (true, s₀) ∧ sweep pipeline 0 s₀ = (false, s) ∧
        Swept pipeline func 0 s₀ (false, s) last := by
  obtain ⟨fuel, hend⟩ := passLoop_terminates (.start pipeline func) hfinite
  obtain ⟨hinv, _, hlast⟩ := @passLoop_spec _ _ _ fuel _ (.start pipeline func)
  obtain ⟨n, s₀, last, hinv₀, hn, hsweep, hswept⟩ := hlast hend
  refine ⟨fuel, _, Prod.ext hend rfl, hinv, fun i hi => ?_, n, s₀, last, hn, hsweep, hswept⟩
  have hp := List.getElem?_eq_getElem hi
  rw [hswept.events]
  cases hdid : s₀.didRun i with
  | true =>
    obtain ⟨e, he, hei⟩ := (hinv₀.didRun i).mp hdid
    exact ⟨e, List.mem_append_left _ he, hei⟩
  | false =>
    exact ⟨(i, false), List.mem_append_right _
      (hswept.all rfl i _ (Nat.zero_le i) hp (.inr hdid)), rfl⟩

theorem passManagerRun_eq {verifyFunction : σ → Bool} {reorder : σ → σ} {pipeline : List (Pass σ)}
    {fuel : ℕ} {func : σ} {s : ManagerState σ} (hvalid : verifyFunction func = false)
    (hend : passLoop pipeline fuel (.start func) = (false, s)) :
    passManagerRun verifyFunction reorder pipeline fuel func =
      .ok (false, { s with world := reorder s.world }) := by
  rw [passManagerRun, hvalid]
  show Except.ok _ = _
  rw [hend]

/-- **The pass manager settles**: it ends; the runs are those of the passes, each on what the one before it
left; every pass ran, the ones that are not recursive once; whenever a pass ran, the recursive passes in
front of it had had nothing to do since the last change; and in the last sweep every recursive pass had
nothing to do. -/
theorem passManagerRun_settles {verifyFunction : σ → Bool} {reorder : σ → σ} {pipeline : List (Pass σ)}
    {func : σ} (hvalid : verifyFunction func = false)
    (hfinite : ∀ i p, pipeline[i]? = some p → p.isRecursive = true →
      ∃ N, ∀ fuel, (passLoop pipeline fuel (.start func)).2.events.count (i, true) ≤ N) :
    ∃ fuel s, passManagerRun verifyFunction reorder pipeline fuel func = .ok (false, s) ∧
      (∀ i < pipeline.length, ∃ e ∈ s.events, e.1 = i) ∧
      (∀ i p, pipeline[i]? = some p → p.isRecursive = false →
        s.events.countP (fun e => e.1 = i) = 1) ∧
      (∀ pre e post, s.events = pre ++ e :: post → PassQuiet pipeline e.1 pre) ∧
      ∃ n s₀ s₁ last, passLoop pipeline n (.start func) = (true, s₀) ∧
        sweep pipeline 0 s₀ = (false, s₁) ∧ s = { s₁ with world := reorder s₁.world } ∧
        PassRuns pipeline s.events func s₁.world ∧
        s.events = s₀.events ++ last ∧ (∀ e ∈ last, e.2 = false) ∧
        ∀ i p, pipeline[i]? = some p → p.isRecursive = true → (i, false) ∈ last := by
  obtain ⟨fuel, s, hend, hinv, hran, n, s₀, last, hn, hsweep, hswept⟩ := passLoop_settles hfinite
  refine ⟨fuel, { s with world := reorder s.world }, passManagerRun_eq hvalid hend, hran,
    fun i p hp hrec => ?_, hinv.ordered, n, s₀, s, last, hn, hsweep, rfl, hinv.runs, hswept.events,
    fun e he => ?_, fun i p hp hrec => ?_⟩
  · obtain ⟨e, he, hei⟩ := hran i (List.getElem?_eq_some_iff.mp hp).1
    have hpos : 0 < s.events.countP (fun e => e.1 = i) :=
      List.countP_pos_iff.mpr ⟨e, he, decide_eq_true hei⟩
    have hle := hinv.once i p hp hrec
    exact le_antisymm hle hpos
  · exact Bool.eq_false_of_not_eq_true (List.countP_eq_zero.mp hswept.changes e he)
  · exact hswept.all rfl i p (Nat.zero_le i) hp (.inl hrec)

/-! ### The pipeline of `engine::optimize` -/

/-- The passes `engine::optimize` may add. -/
inductive OptimizePass
  | simplifyCfgAndDce | loopReroll | constantPropagation | state2alloca | oz | stateCleanup
  | memoryScalarizer
deriving DecidableEq, Repr

/-- `is_recursive` of each pass. -/
def OptimizePass.isRecursive : OptimizePass → Bool
  | simplifyCfgAndDce | loopReroll | oz | stateCleanup => true
  | constantPropagation | state2alloca | memoryScalarizer => false

/-- The pipeline, from the options `LOOP_REROLL`, `CONSTANT_PROPAGATION` and `STATE_CLEANUP`. -/
def optimizePasses (loopReroll constantPropagation stateCleanup : Bool) : List OptimizePass :=
  [.simplifyCfgAndDce] ++ (if loopReroll then [.loopReroll] else []) ++
    (if constantPropagation then [.constantPropagation] else []) ++ [.state2alloca, .oz] ++
    (if stateCleanup then [.stateCleanup] else []) ++ [.memoryScalarizer]

def optimizePipeline (run : OptimizePass → σ → Bool × σ) (names : List OptimizePass) : List (Pass σ) :=
  names.map fun name => ⟨name.isRecursive, run name⟩

theorem getElem?_optimizePipeline {run : OptimizePass → σ → Bool × σ} {names : List OptimizePass} {i : ℕ}
    {p : Pass σ} (hp : (optimizePipeline run names)[i]? = some p) :
    ∃ name, names[i]? = some name ∧ p = ⟨name.isRecursive, run name⟩ := by
  rw [optimizePipeline, List.getElem?_map, Option.map_eq_some_iff] at hp
  obtain ⟨name, hname, rfl⟩ := hp
  exact ⟨name, hname, rfl⟩

/-- **The optimizer settles** when rerolling loops and cleaning up the state do: the two passes of LLVM
never say that they changed something. The scalarizer is run on a function in which no recursive pass
finds anything to do. -/
theorem optimize_settles {verifyFunction : σ → Bool} {reorder : σ → σ} {run : OptimizePass → σ → Bool × σ}
    {func : σ} (loopReroll constantPropagation stateCleanup : Bool) {names : List OptimizePass}
    (hnames : names = optimizePasses loopReroll constantPropagation stateCleanup)
    (hvalid : verifyFunction func = false)
    (hllvm : ∀ w, (run .simplifyCfgAndDce w).1 = false ∧ (run .oz w).1 = false)
    (hfinite : ∀ i, names[i]? = some .loopReroll ∨ names[i]? = some .stateCleanup →
      ∃ N, ∀ fuel,
        (passLoop (optimizePipeline run names) fuel (.start func)).2.events.count (i, true) ≤ N) :
    ∃ fuel s, passManagerRun verifyFunction reorder (optimizePipeline run names) fuel func =
        .ok (false, s) ∧
      ∃ pre changed post, s.events = pre ++ (names.length - 1, changed) :: post ∧
        ∀ i name, names[i]? = some name → name.isRecursive = true → (i, false) ∈ sinceChange pre := by
  have hlast : names[names.length - 1]? = some .memoryScalarizer := by
    rw [hnames, ← List.getLast?_eq_getElem?, optimizePasses, List.getLast?_append]
    rfl
  obtain ⟨fuel, s, hend, hinv, hran, -⟩ := @passLoop_settles _ (optimizePipeline run names) func
    fun i p hp hrec => by
      obtain ⟨name, hname, rfl⟩ := getElem?_optimizePipeline hp
      have hnever := fun h fuel => ((@passLoop_spec _ _ _ fuel _
        (.start _ func)).1.count_changed_eq_zero hp h).le
      cases name with
      | simplifyCfgAndDce => exact ⟨0, hnever fun w => (hllvm w).1⟩
      | oz => exact ⟨0, hnever fun w => (hllvm w).2⟩
      | loopReroll => exact hfinite i (.inl hname)
      | stateCleanup => exact hfinite i (.inr hname)
      | constantPropagation | state2alloca | memoryScalarizer => cases hrec
  have hlt := (List.getElem?_eq_some_iff.mp hlast).1
  obtain ⟨⟨j, changed⟩, he, rfl⟩ := hran (names.length - 1) (by rwa [optimizePipeline, List.length_map])
  obtain ⟨pre, post, hsplit⟩ := List.append_of_mem he
  refine ⟨fuel, _, passManagerRun_eq hvalid hend, pre, changed, post, hsplit,
    fun i name hname hrec => ?_⟩
  refine hinv.ordered pre _ post hsplit i ?_ ⟨name.isRecursive, run name⟩ ?_ hrec
  · -- every recursive pass stands in front of the scalarizer
    have hi := (List.getElem?_eq_some_iff.mp hname).1
    have hne : i ≠ names.length - 1 := by
      rintro rfl
      obtain rfl := Option.some.inj (hlast.symm.trans hname)
      cases hrec
    show i < names.length - 1
    omega
  · rw [optimizePipeline, List.getElem?_map, hname]
    rfl

/-- The passes as far as the loop is concerned when the recursive ones find nothing: each of the others
says that it changed something. -/
def eagerRun (name : OptimizePass) (_ : Unit) : Bool × Unit := (!name.isRecursive, ())

theorem passManagerRun_settles_optimize :
    ∃ fuel s w, passManagerRun (fun _ => false) id
        (optimizePipeline eagerRun (optimizePasses true true true)) fuel () = .ok (false, s) ∧
      PassRuns (optimizePipeline eagerRun (optimizePasses true true true)) s.events () w ∧
      (∀ i < 7, ∃ e ∈ s.events, e.1 = i) ∧ s.events.countP (fun e => e.1 = 6) = 1 := by
  obtain ⟨fuel, s, hrun, hran, honce, -, -, -, s₁, -, -, -, -, hruns, -⟩ :=
    @passManagerRun_settles Unit (fun _ => false) id
    (optimizePipeline eagerRun (optimizePasses true true true)) () rfl fun i p hp hrec => by
      refine ⟨0, fun fuel => ((passLoop_spec (.start _ ())).1.count_changed_eq_zero hp fun w => ?_).le⟩
      obtain ⟨name, -, rfl⟩ := List.mem_map.mp (List.mem_of_getElem? hp)
      exact congrArg not hrec
  exact ⟨fuel, s, s₁.world, hrun, hruns, hran, honce 6 _ rfl rfl⟩

end Vexa
