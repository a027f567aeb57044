import Vexa.Runs
import Vexa.Lib.Exploration
import Mathlib.Data.Set.Card

/-!
# Path-sensitive CFG recovery

With the policy that specializes by path, `lift_instruction` saves the block in `cpu::PATH` under the
program counter, but `CFG_recovery` looks it up under the virtual program counter. Without callbacks
that stays zero, and at program counter zero nothing is lifted, so the lookup never succeeds: no edge
is made, and a path that comes back to a program counter is lifted again. A run is as claimed exactly
when this does not happen; then the paths form a binary tree of bounded depth.

## Main definitions

* `Explored`, `PathRuns` — runs with what was lifted along each path
* `Unreturning` — no path comes back to a program counter lifted on it
* `RebuildsLoops` — what path-sensitive recovery promises about a run

## Main results

* `processInstruction_specialize` — no edge is made
* `pathRecovery_rebuilds_iff` — when the promise is kept
-/

namespace Vexa

open Exploration

/-! ### Runs with the history of each path -/

/-- A state of the exploration, with the program counters lifted along the current path and along
each pending one, and their blocks, from the root of the tree of forks. -/
structure Explored where
  cpu : Cpu
  path : List (Addr × BlockId)
  pending : List (List (Addr × BlockId))

namespace Explored

/-- The current path after a call. -/
def lifted (e : Explored) (outcome : Outcome) : List (Addr × BlockId) :=
  match outcome.liftedBlock with
  | some b => e.path ++ [(e.cpu.pc, b)]
  | none => e.path

/-- The pending paths after a call: a path that was saved has the history of the current one. -/
def forked (e : Explored) (outcome : Outcome) (c' : Cpu) : List (List (Addr × BlockId)) :=
  if e.cpu.unexploredPaths.length < c'.unexploredPaths.length then e.lifted outcome :: e.pending
  else e.pending

/-- The current path has come back to a program counter lifted on it. -/
def Returns (e : Explored) : Prop := ∃ b, (e.cpu.pc, b) ∈ e.path

end Explored

/-- `Step` with the histories. -/
inductive PathStep (M : Machine) : Explored → Outcome → Explored → Prop
  | successful {e : Explored} {outcome : Outcome} {c' : Cpu} :
      processInstruction M e.cpu = .ok (outcome, c') → outcome.status = .successful →
      PathStep M e outcome ⟨c', e.lifted outcome, e.forked outcome c'⟩
  | explore {e : Explored} {outcome : Outcome} {c' : Cpu} {before after : List Snapshot}
      {ss : Snapshot} {before' after' : List (List (Addr × BlockId))}
      {path : List (Addr × BlockId)} :
      processInstruction M e.cpu = .ok (outcome, c') → outcome.status ≠ .successful →
      c'.unexploredPaths = before ++ ss :: after → e.forked outcome c' = before' ++ path :: after' →
      before'.length = before.length →
      PathStep M e outcome
        ⟨resumePath (finishPath outcome c') ss (before ++ after), path, before' ++ after'⟩

/-- Runs, with the states in which the calls were made. -/
inductive PathRuns (M : Machine) (e₀ : Explored) : List (Explored × Outcome) → Explored → Prop
  | start : PathRuns M e₀ [] e₀
  | step {trace : List (Explored × Outcome)} {e e' : Explored} {outcome : Outcome} :
      PathRuns M e₀ trace e → PathStep M e outcome e' → PathRuns M e₀ (trace ++ [(e, outcome)]) e'

/-- No call of the run was made at a program counter already lifted on its path. -/
def Unreturning (trace : List (Explored × Outcome)) : Prop := ∀ call ∈ trace, ¬ call.1.Returns

/-- What path-sensitive recovery promises about a run through at most `n` program counters: along no
path a program counter is lifted twice, a path that comes back is joined to the block lifted for its
program counter on this path, and the number of calls is bounded. -/
structure RebuildsLoops (n : ℕ) (trace : List (Explored × Outcome)) (e : Explored) : Prop where
  nodup : ∀ e' ∈ trace.map Prod.fst ++ [e], (e'.path.map Prod.fst).Nodup
  joins : ∀ call ∈ trace, call.1.Returns →
    ∃ b, (call.1.cpu.pc, b) ∈ call.1.path ∧ call.2 = .edgeRebuilt b
  bounded : trace.length < 2 ^ (n + 1)

variable {M : Machine} {c c' c₀ : Cpu} {outcome : Outcome} {e e' e₀ : Explored}
  {trace : List (Explored × Outcome)}

theorem PathStep.step (h : PathStep M e outcome e') : Step M e.cpu outcome e'.cpu := by
  cases h with
  | successful hcall hstatus => exact .successful hcall hstatus
  | explore hcall hstatus hpaths _ _ => exact .explore hcall hstatus hpaths

theorem PathRuns.runs (h : PathRuns M e₀ trace e) :
    Runs M e₀.cpu (trace.map fun call => (call.1.cpu.pc, call.2)) e.cpu := by
  induction h with
  | start => exact .start
  | step _ hstep ih =>
    rw [List.map_append]
    exact ih.step hstep.step

theorem PathRuns.cons (hstep : PathStep M e₀ outcome e) (h : PathRuns M e trace e') :
    PathRuns M e₀ ((e₀, outcome) :: trace) e' := by
  induction h with
  | start => exact PathRuns.step (.start (M := M)) hstep
  | step _ hstep' ih => exact ih.step hstep'

/-! ### No edge is made -/

/-- The lookup fails at the current path and at every pending one. -/
structure Unjoined (c : Cpu) : Prop where
  vpc : c.vpc = 0
  path : c.path 0 = none
  pending : ∀ ss ∈ c.unexploredPaths, ss.vpc = 0 ∧ ss.path 0 = none

/-- **No edge is made**: the lookup uses the virtual program counter, which stays zero, and nothing is
lifted at program counter zero. Only a call that lifts an instruction saves a path. -/
theorem processInstruction_specialize (hmode : M.mode = .cfgRecovery)
    (hpolicy : M.joinPolicy = .specializeByPath) (hsilent : M.Silent) (hc : Unjoined c)
    (h : processInstruction M c = .ok (outcome, c')) :
    (∀ target, outcome ≠ .edgeRebuilt target) ∧ Unjoined c' ∧
      (c'.unexploredPaths = c.unexploredPaths ∨
        outcome.liftedBlock ≠ none ∧ ∃ ss, c'.unexploredPaths = ss :: c.unexploredPaths) := by
  have hrec : cfgRecovery M c = (none, c) := by
    rw [cfgRecovery, hmode, hpolicy]
    simp only [hc.vpc, hc.path]
  rcases processInstruction_cases h with ⟨rfl, _, rfl⟩ | ⟨_, target, _, hjoin⟩ | ⟨hpc, c₁, hnone, hrest⟩
  · exact ⟨fun _ heq => (by cases heq), hc, .inl rfl⟩
  · rw [hrec] at hjoin
    cases hjoin
  · rw [hrec] at hnone
    obtain ⟨_, rfl⟩ := Prod.mk.inj hnone
    rcases hrest with ⟨rfl, rfl⟩ | ⟨inst, _, hlift⟩
    · exact ⟨fun _ heq => (by cases heq), hc, .inl rfl⟩
    obtain ⟨c₁, henter, ⟨rfl, rfl⟩ | ⟨hblock, hadv⟩⟩ := liftInstruction_cases hlift
    · refine ⟨fun _ heq => (by cases heq), ⟨(henter.vpc hsilent).trans hc.vpc, ?_, ?_⟩,
        .inl henter.unexploredPaths⟩
      · exact (congrFun henter.path 0).trans hc.path
      · intro ss hss
        exact hc.pending ss (henter.unexploredPaths ▸ hss)
    · have hsave : saveBlock M c₁
          = { c₁ with path := Function.update c₁.path c₁.pc (some c₁.block) } := by
        rw [saveBlock, hmode, hpolicy]
      rw [hsave] at hadv
      have hvpc : c₁.vpc = 0 := (henter.vpc hsilent).trans hc.vpc
      have hpath : Function.update c₁.path c₁.pc (some c₁.block) 0 = none := by
        rw [Function.update_of_ne (henter.pc ▸ hpc.symm), henter.path]
        exact hc.path
      refine ⟨fun target htarget => ?_, ⟨(hadv.vpc hsilent).trans hvpc, ?_, fun ss hss => ?_⟩, ?_⟩
      · rw [htarget] at hblock
        cases hblock
      · rw [hadv.path]
        exact hpath
      · rcases hadv.unexploredPaths with heq | ⟨ss', heq, hss', hvpc'⟩
        · exact hc.pending ss (henter.unexploredPaths ▸ heq ▸ hss)
        · rw [heq] at hss
          rcases List.mem_cons.mp hss with rfl | hss
          · exact ⟨hvpc'.trans hvpc, hss' ▸ hpath⟩
          · exact hc.pending ss (henter.unexploredPaths ▸ hss)
      · rw [← henter.unexploredPaths]
        refine hadv.unexploredPaths.imp_right ?_
        rintro ⟨ss, hss, _⟩
        exact ⟨by rw [hblock]; exact Option.some_ne_none _, ss, hss⟩

theorem Unjoined.step (hmode : M.mode = .cfgRecovery) (hpolicy : M.joinPolicy = .specializeByPath)
    (hsilent : M.Silent) (hc : Unjoined c) (h : Step M c outcome c') : Unjoined c' := by
  cases h with
  | successful hcall _ => exact (processInstruction_specialize hmode hpolicy hsilent hc hcall).2.1
  | explore hcall hstatus hpaths =>
    rename_i before after ss
    obtain ⟨_, hc₁, _⟩ := processInstruction_specialize hmode hpolicy hsilent hc hcall
    have hpending := hc₁.pending
    rw [hpaths] at hpending
    obtain ⟨hvpc, hpath⟩ := hpending ss (by simp)
    refine ⟨hvpc, hpath, fun ss' hss' => hpending ss' ?_⟩
    rcases List.mem_append.mp hss' with hmem | hmem
    · exact List.mem_append_left _ hmem
    · exact List.mem_append_right _ (List.mem_cons_of_mem _ hmem)

/-! ### Counting the calls -/

/-- The program counters of a history. -/
def visited (path : List (Addr × BlockId)) : Finset Addr := (path.map Prod.fst).toFinset

theorem not_mem_visited (h : ¬ e.Returns) : e.cpu.pc ∉ visited e.path := by
  intro hmem
  obtain ⟨⟨pc, b⟩, hmem, rfl⟩ := List.mem_map.mp (List.mem_toFinset.mp hmem)
  exact h ⟨b, hmem⟩

theorem visited_lifted {b : BlockId} (h : outcome.liftedBlock = some b) :
    visited (e.lifted outcome) = insert e.cpu.pc (visited e.path) := by
  rw [Explored.lifted, h, visited, visited]
  ext pc
  simp

/-- The histories are kept along with the pending paths. -/
theorem length_forked (hlen : e.pending.length = e.cpu.unexploredPaths.length)
    (h : c'.unexploredPaths = e.cpu.unexploredPaths ∨
      ∃ ss, c'.unexploredPaths = ss :: e.cpu.unexploredPaths) :
    (e.forked outcome c').length = c'.unexploredPaths.length := by
  rcases h with h | ⟨ss, h⟩ <;> simp [Explored.forked, h, hlen]

/-- What holds along every run: the lookup fails, and every pending path has its history. -/
structure Tracked (e : Explored) : Prop where
  unjoined : Unjoined e.cpu
  length : e.pending.length = e.cpu.unexploredPaths.length

/-- What holds along the runs whose paths do not come back. -/
structure PathInvariant (e : Explored) : Prop extends Tracked e where
  nodup : ∀ path ∈ e.path :: e.pending, (path.map Prod.fst).Nodup

section

variable (hmode : M.mode = .cfgRecovery) (hpolicy : M.joinPolicy = .specializeByPath)
  (hsilent : M.Silent)

include hmode hpolicy hsilent

theorem Tracked.call (he : Tracked e) (h : processInstruction M e.cpu = .ok (outcome, c')) :
    Tracked ⟨c', e.lifted outcome, e.forked outcome c'⟩ := by
  obtain ⟨_, hc', hpaths⟩ := processInstruction_specialize hmode hpolicy hsilent he.unjoined h
  exact ⟨hc', length_forked he.length (hpaths.imp_right And.right)⟩

theorem Tracked.step (he : Tracked e) (h : PathStep M e outcome e') : Tracked e' := by
  have hunjoined := he.unjoined.step hmode hpolicy hsilent h.step
  cases h with
  | successful hcall _ => exact he.call hmode hpolicy hsilent hcall
  | explore hcall hstatus hpaths hforked hlen =>
    rename_i c' before after ss before' after' path
    have hlength := (he.call hmode hpolicy hsilent hcall).length
    simp only [hforked, hpaths, List.length_append, List.length_cons] at hlength
    refine ⟨hunjoined, ?_⟩
    change (before' ++ after').length = (before ++ after).length
    rw [List.length_append, List.length_append]
    omega

/-- The histories after a call that is no return. -/
theorem PathInvariant.call (he : PathInvariant e) (hreturn : ¬ e.Returns)
    (h : processInstruction M e.cpu = .ok (outcome, c')) :
    PathInvariant ⟨c', e.lifted outcome, e.forked outcome c'⟩ := by
  have hlifted : ((e.lifted outcome).map Prod.fst).Nodup := by
    have hpath := he.nodup e.path (List.mem_cons_self ..)
    rw [Explored.lifted]
    split
    · rw [List.map_append]
      refine List.nodup_append.mpr ⟨hpath, List.nodup_singleton _, ?_⟩
      rintro pc hpc _ hmem rfl
      have hpc' : pc = e.cpu.pc := List.mem_singleton.mp hmem
      exact not_mem_visited hreturn (List.mem_toFinset.mpr (hpc' ▸ hpc))
    · exact hpath
  refine ⟨he.toTracked.call hmode hpolicy hsilent h, ?_⟩
  intro path hmem
  rcases List.mem_cons.mp hmem with rfl | hmem
  · exact hlifted
  · rw [Explored.forked] at hmem
    split at hmem
    · rcases List.mem_cons.mp hmem with rfl | hmem
      · exact hlifted
      · exact he.nodup path (List.mem_cons_of_mem _ hmem)
    · exact he.nodup path (List.mem_cons_of_mem _ hmem)

theorem PathInvariant.step (he : PathInvariant e) (hreturn : ¬ e.Returns)
    (h : PathStep M e outcome e') : PathInvariant e' := by
  refine ⟨he.toTracked.step hmode hpolicy hsilent h, ?_⟩
  cases h with
  | successful hcall _ => exact (he.call hmode hpolicy hsilent hreturn hcall).nodup
  | explore hcall _ _ hforked _ =>
    have hnodup := (he.call hmode hpolicy hsilent hreturn hcall).nodup
    intro path hmem
    refine hnodup path ?_
    simp only [hforked, List.mem_cons, List.mem_append] at hmem ⊢
    tauto

/-- **Every step that is no return lowers the rank.** -/
theorem treeRank_step {P : Finset Addr} (hP : e.cpu.pc ∈ P) (he : PathInvariant e)
    (hreturn : ¬ e.Returns) (h : PathStep M e outcome e') :
    treeRank P (visited e'.path) (e'.pending.map visited)
      < treeRank P (visited e.path) (e.pending.map visited) := by
  -- the call itself
  have hcall : ∀ {c'}, processInstruction M e.cpu = .ok (outcome, c') →
      (outcome.liftedBlock = none ∧ e.lifted outcome = e.path ∧ e.forked outcome c' = e.pending) ∨
      treeRank P (visited (e.lifted outcome)) ((e.forked outcome c').map visited)
        < treeRank P (visited e.path) (e.pending.map visited) := by
    intro c' hcall
    obtain ⟨_, _, hpaths⟩ := processInstruction_specialize hmode hpolicy hsilent he.unjoined hcall
    cases hb : outcome.liftedBlock with
    | none =>
      refine .inl ⟨rfl, by rw [Explored.lifted, hb], ?_⟩
      rcases hpaths with hpaths | ⟨hne, _⟩
      · rw [Explored.forked, hpaths, if_neg (lt_irrefl _)]
      · exact absurd hb hne
    | some b =>
      refine .inr ?_
      rw [visited_lifted hb]
      refine treeRank_visit hP (not_mem_visited hreturn) ?_
      rcases hpaths with hpaths | ⟨_, ss, hpaths⟩
      · rw [Explored.forked, hpaths, if_neg (lt_irrefl _)]
        exact .inl rfl
      · rw [Explored.forked, hpaths, List.length_cons, if_pos (Nat.lt_succ_self _), List.map_cons,
          visited_lifted hb]
        exact .inr rfl
  cases h with
  | successful h hstatus =>
    rcases hcall h with ⟨hnone, _, _⟩ | hless
    · cases outcome <;> cases hnone <;> cases hstatus
    · exact hless
  | explore h hstatus hpaths hforked hlen =>
    rename_i c₁ before after ss before' after' path
    have hfinish := treeRank_finish P (visited (e.lifted outcome)) (visited path)
      (before'.map visited) (after'.map visited)
    rw [← List.map_append, ← List.map_cons, ← List.map_append, ← hforked] at hfinish
    rcases hcall h with ⟨_, hlifted, hforked'⟩ | hless
    · rw [hlifted, hforked'] at hfinish
      exact hfinish
    · exact hfinish.trans hless

/-- What holds along an unreturning run. -/
theorem PathRuns.invariant {P : Finset Addr} (hP : ∀ pc ∈ reachablePcs M e₀.cpu, pc ∈ P)
    (he₀ : PathInvariant e₀) (h : PathRuns M e₀ trace e) (hreturn : Unreturning trace) :
    PathInvariant e ∧ (∀ call ∈ trace, PathInvariant call.1) ∧
      trace.length + treeRank P (visited e.path) (e.pending.map visited)
        ≤ treeRank P (visited e₀.path) (e₀.pending.map visited) := by
  induction h with
  | start => exact ⟨he₀, nofun, Nat.le_of_eq (Nat.zero_add _)⟩
  | step hruns hstep ih =>
    rename_i trace e e' outcome
    obtain ⟨he, htrace, hrank⟩ := ih fun call hcall => hreturn call (List.mem_append_left _ hcall)
    have hnot := hreturn (e, outcome) (List.mem_append_right _ (List.mem_singleton_self _))
    have hless := treeRank_step hmode hpolicy hsilent (hP _ hruns.runs.pc_mem) he hnot hstep
    refine ⟨he.step hmode hpolicy hsilent hnot hstep, fun call hcall => ?_, ?_⟩
    · rcases List.mem_append.mp hcall with hcall | hcall
      · exact htrace call hcall
      · obtain rfl := List.mem_singleton.mp hcall
        exact he
    · rw [List.length_append, List.length_singleton]
      omega

theorem PathRuns.tracked (he₀ : Tracked e₀) (h : PathRuns M e₀ trace e) :
    Tracked e ∧ ∀ call ∈ trace, Tracked call.1 ∧
      ∃ c', processInstruction M call.1.cpu = .ok (call.2, c') := by
  induction h with
  | start => exact ⟨he₀, nofun⟩
  | step _ hstep ih =>
    obtain ⟨he, htrace⟩ := ih
    refine ⟨he.step hmode hpolicy hsilent hstep, fun call hcall => ?_⟩
    rcases List.mem_append.mp hcall with hcall | hcall
    · exact htrace call hcall
    · obtain rfl := List.mem_singleton.mp hcall
      refine ⟨he, ?_⟩
      cases hstep with
      | successful hcall _ => exact ⟨_, hcall⟩
      | explore hcall _ _ _ _ => exact ⟨_, hcall⟩

/-- A loop that uses up its fuel has made that many calls, and their histories are known. -/
theorem exists_pathRuns_of_runLoop : ∀ {fuel : ℕ} {e : Explored} {ended : List PathEnd},
    Tracked e → runLoop M fuel e.cpu ended = .ok none →
    ∃ trace e', PathRuns M e trace e' ∧ trace.length = fuel
  | 0, e, _, _, _ => ⟨[], e, .start, rfl⟩
  | fuel + 1, e, ended, he, h => by
    rw [runLoop] at h
    split at h
    · cases h
    · next outcome c' hcall =>
      have hcalled := he.call hmode hpolicy hsilent hcall
      split at h
      · next hstatus =>
        obtain ⟨trace, e', hruns, hlen⟩ := exists_pathRuns_of_runLoop hcalled h
        exact ⟨_, e', hruns.cons (.successful hcall hstatus), by rw [List.length_cons, hlen]⟩
      · next hstatus =>
        simp only at h
        split at h
        · cases h
        · next ss rest hpaths =>
          have hpaths' : c'.unexploredPaths = [] ++ ss :: rest := by
            rw [finishPath] at hpaths
            split at hpaths <;> exact hpaths
          have hlength := hcalled.length
          simp only [hpaths', List.nil_append, List.length_cons] at hlength
          obtain ⟨path, pending, hforked⟩ := List.exists_cons_of_length_eq_add_one hlength
          have hforked' : e.forked outcome c' = [] ++ path :: pending := hforked
          have hstep : PathStep M e outcome ⟨resumePath (finishPath outcome c') ss rest, path, pending⟩ :=
            .explore hcall hstatus hpaths' hforked' rfl
          obtain ⟨trace, e', hruns, hlen⟩ :=
            exists_pathRuns_of_runLoop (he.step hmode hpolicy hsilent hstep) h
          exact ⟨_, e', hruns.cons hstep, by rw [List.length_cons, hlen]⟩

end

/-- **Path-sensitive recovery rebuilds the loops of a run exactly when there is none.** For every
program, every behaviour of the decoder, the lifter and the solver and every choice of pending paths:
the promise is kept along a run if and only if none of its calls was made at a program counter
already lifted on its path. If no run comes back, the loop of the source ends. -/
theorem pathRecovery_rebuilds_iff (hmode : M.mode = .cfgRecovery)
    (hpolicy : M.joinPolicy = .specializeByPath) (hsilent : M.Silent) {layout : Layout}
    {image : MemPage} {opaqueSolving : Bool} {pc : Addr}
    (hstart : start M layout image opaqueSolving pc = .ok c₀) :
    (∀ trace e, PathRuns M ⟨c₀, [], []⟩ trace e →
      (RebuildsLoops (reachablePcs M c₀).ncard trace e ↔ Unreturning trace)) ∧
    ((∀ trace e, PathRuns M ⟨c₀, [], []⟩ trace e → Unreturning trace) →
      runLoop M (2 ^ ((reachablePcs M c₀).ncard + 1)) c₀ [] ≠ .ok none) := by
  obtain ⟨_, hvpc, _, hpath, _, hpaths⟩ := start_eq hstart
  have htracked : Tracked ⟨c₀, [], []⟩ :=
    ⟨⟨hvpc, hpath 0, fun ss hss => by simp [hpaths] at hss⟩, by rw [hpaths]; rfl⟩
  have hinvariant : PathInvariant ⟨c₀, [], []⟩ := by
    refine ⟨htracked, fun path hmem => ?_⟩
    obtain rfl := List.mem_singleton.mp hmem
    exact List.nodup_nil
  have hfinite : (reachablePcs M c₀).Finite := reachablePcs_finite M c₀
  have hcard : hfinite.toFinset.card = (reachablePcs M c₀).ncard :=
    (Set.ncard_eq_toFinset_card _ hfinite).symm
  -- a run without returns is paid for by the rank of the start
  have hbound : ∀ {trace e}, PathRuns M ⟨c₀, [], []⟩ trace e → Unreturning trace →
      PathInvariant e ∧ (∀ call ∈ trace, PathInvariant call.1) ∧
        trace.length < 2 ^ ((reachablePcs M c₀).ncard + 1) := by
    intro trace e h hreturn
    obtain ⟨he, hcalls, hrank⟩ := h.invariant hmode hpolicy hsilent (P := hfinite.toFinset)
      (fun pc hpc => hfinite.mem_toFinset.mpr hpc) hinvariant hreturn
    have hle : treeRank hfinite.toFinset ∅ [] ≤ budget (reachablePcs M c₀).ncard :=
      treeRank_nil_le hcard.le
    have hpow := Nat.one_le_two_pow (n := (reachablePcs M c₀).ncard + 1)
    have hstart : treeRank hfinite.toFinset (visited []) (([] : List (List _)).map visited)
        = treeRank hfinite.toFinset ∅ [] := rfl
    rw [hstart] at hrank
    rw [budget] at hle
    exact ⟨he, hcalls, by omega⟩
  refine ⟨fun trace e h => ⟨fun hrebuilds call hcall hreturn => ?_, fun hreturn => ?_⟩,
    fun hall hnone => ?_⟩
  · obtain ⟨_, htrace⟩ := h.tracked hmode hpolicy hsilent htracked
    obtain ⟨he, c', hprocess⟩ := htrace call hcall
    obtain ⟨hedge, _⟩ := processInstruction_specialize hmode hpolicy hsilent he.unjoined hprocess
    obtain ⟨b, _, hjoin⟩ := hrebuilds.joins call hcall hreturn
    exact hedge b hjoin
  · obtain ⟨he, hcalls, hlen⟩ := hbound h hreturn
    refine ⟨fun e' hmem => ?_, fun call hcall hback => absurd hback (hreturn call hcall), hlen⟩
    rcases List.mem_append.mp hmem with hmem | hmem
    · obtain ⟨call, hcall, rfl⟩ := List.mem_map.mp hmem
      exact (hcalls call hcall).nodup _ (List.mem_cons_self ..)
    · obtain rfl := List.mem_singleton.mp hmem
      exact he.nodup _ (List.mem_cons_self ..)
  · obtain ⟨trace, e, h, hlen⟩ := exists_pathRuns_of_runLoop hmode hpolicy hsilent htracked hnone
    have hless := (hbound h (hall trace e h)).2.2
    omega

theorem pathRecovery_rebuilds_iff_selfLoop :
    ∃ c₀, start (selfLoop .specializeByPath) ⟨0, 8⟩ .empty false 0x1000 = .ok c₀ ∧
      (∀ trace e, PathRuns (selfLoop .specializeByPath) ⟨c₀, [], []⟩ trace e →
        (RebuildsLoops (reachablePcs (selfLoop .specializeByPath) c₀).ncard trace e ↔
          Unreturning trace)) ∧
      ((∀ trace e, PathRuns (selfLoop .specializeByPath) ⟨c₀, [], []⟩ trace e → Unreturning trace) →
        runLoop (selfLoop .specializeByPath)
          (2 ^ ((reachablePcs (selfLoop .specializeByPath) c₀).ncard + 1)) c₀ [] ≠ .ok none) :=
  ⟨_, rfl, pathRecovery_rebuilds_iff rfl rfl (fun _ _ => rfl) rfl⟩

/-! ### A program that jumps to itself -/

/-- The jump is lifted whatever the state. -/
theorem selfLoop_lifted (c : Cpu) (inst : Instruction) (hinst : inst.category = .directJump) :
    ∃ c', liftInstruction (selfLoop .specializeByPath) inst c = .ok (.lifted c.numBlocks, c') ∧
      c'.pc = inst.branchTakenPc := by
  let M := selfLoop .specializeByPath
  let storePc : Inst Name := .store 64 (.const 64 c.pc.toNat) .nextPc
  let c₁ := (openBlock c).create storePc
  obtain ⟨s, hs⟩ : ∃ s, visit M.solver c.pathConstraints storePc c.symex = .ok s := ⟨_, rfl⟩
  have hexec : ((openBlock c).eventHandler M .instructionLift).exec M storePc
      = .ok { c₁ with symex := s } := congrArg (· >>= _) hs
  obtain ⟨r, hr⟩ : ∃ r, runBlock M.solver c.pathConstraints ((c₁.function c.numBlocks).insts ++ []) s
      = .ok r := by
    by_cases h : c.insertPoint = c.numBlocks
    · simp only [c₁, openBlock, Cpu.setInsertPoint, Cpu.create, Cpu.append, Cpu.basicBlock, h,
        Function.update_self]
      exact ⟨_, rfl⟩
    · simp only [c₁, openBlock, Cpu.setInsertPoint, Cpu.create, Cpu.append, Cpu.basicBlock,
        Function.update_of_ne (Ne.symm h), Function.update_self]
      exact ⟨_, rfl⟩
  have hrun : runLifted M ⟨[], trivial⟩ { c₁ with symex := s } = .ok _ := congrArg (· >>= _) hr
  have hjump (c₂ : Cpu) : controlFlow M inst c₂ = .ok (.lifted c₂.block,
      { c₂ with pc := inst.branchTakenPc }.eventHandler M .directJump) := by
    rw [controlFlow]
    simp [Instruction.isControlFlow, Instruction.isConditionalBranch,
      Instruction.isDirectControlFlow, hinst]
  have hrest : (runLifted M ⟨[], trivial⟩ { c₁ with symex := s } >>= fun c₂ =>
      controlFlow M inst (saveBlock M c₂)) = .ok _ :=
    (congrArg (· >>= fun c₂ => controlFlow M inst (saveBlock M c₂)) hrun).trans (hjump _)
  have hlift : liftInstruction M inst c = .ok _ := (congrArg (· >>= _) hexec).trans hrest
  exact ⟨_, hlift, rfl⟩

/-- The path comes back to the jump for ever. -/
theorem selfLoop_runLoop : ∀ (fuel : ℕ) {c : Cpu}, c.pc = 0x1000 → Unjoined c →
    runLoop (selfLoop .specializeByPath) fuel c [] = .ok none ∧
    ∃ c', processInstruction (selfLoop .specializeByPath) c = .ok (.lifted c.numBlocks, c') ∧
      c'.pc = 0x1000 ∧ Unjoined c'
  | fuel, c, hpc, hc => by
    have hrec : cfgRecovery (selfLoop .specializeByPath) c = (none, c) := by
      simp only [cfgRecovery, selfLoop, hc.vpc, hc.path]
    obtain ⟨c', hlift, hpc'⟩ := selfLoop_lifted c ⟨"JMP_RELBRz", .directJump, c.pc, c.pc + 2, c.pc + 2⟩ rfl
    have hcall : processInstruction (selfLoop .specializeByPath) c = .ok (.lifted c.numBlocks, c') := by
      rw [processInstruction, if_neg (hpc ▸ by decide), hrec]
      exact hlift
    have hc' := (processInstruction_specialize rfl rfl (fun _ _ => rfl) hc hcall).2.1
    refine ⟨?_, c', hcall, hpc'.trans hpc, hc'⟩
    cases fuel with
    | zero => rfl
    | succ fuel =>
      rw [runLoop, hcall]
      exact (selfLoop_runLoop fuel (hpc'.trans hpc) hc').1

/-- The jump at 0x1000 to itself is lifted again whenever the path comes back: no edge is made, and
the loop of the source does not end. -/
theorem pathRecovery_lifts_again :
    ∃ c₀, start (selfLoop .specializeByPath) ⟨0, 8⟩ .empty false 0x1000 = .ok c₀ ∧
      (∃ trace e, PathRuns (selfLoop .specializeByPath) ⟨c₀, [], []⟩ trace e ∧
        e.path.map Prod.fst = [0x1000, 0x1000] ∧ ∀ n, ¬ RebuildsLoops n trace e) ∧
      ∀ fuel, runLoop (selfLoop .specializeByPath) fuel c₀ [] = .ok none := by
  obtain ⟨c₀, hstart⟩ : ∃ c₀, start (selfLoop .specializeByPath) ⟨0, 8⟩ .empty false 0x1000 = .ok c₀ :=
    ⟨_, rfl⟩
  obtain ⟨hpc, hvpc, _, hpath, _, hpaths⟩ := start_eq hstart
  have hc : Unjoined c₀ := ⟨hvpc, hpath 0, fun ss hss => by simp [hpaths] at hss⟩
  obtain ⟨_, c₁, hcall₁, hpc₁, hc₁⟩ := selfLoop_runLoop 0 hpc hc
  obtain ⟨_, c₂, hcall₂, _, _⟩ := selfLoop_runLoop 0 hpc₁ hc₁
  refine ⟨c₀, hstart, ?_, fun fuel => (selfLoop_runLoop fuel hpc hc).1⟩
  have hpcs : [c₀.pc, c₁.pc] = [0x1000, 0x1000] := by rw [hpc, hpc₁]
  have hruns : PathRuns (selfLoop .specializeByPath) ⟨c₀, [], []⟩ _ _ :=
    (PathRuns.start.step (.successful hcall₁ rfl)).step (.successful hcall₂ rfl)
  refine ⟨_, _, hruns, hpcs, fun n h => ?_⟩
  have hnodup := h.nodup _ (List.mem_append_right _ (List.mem_singleton_self _))
  change [c₀.pc, c₁.pc].Nodup at hnodup
  rw [hpcs] at hnodup
  exact absurd hnodup (by decide)

end Vexa
