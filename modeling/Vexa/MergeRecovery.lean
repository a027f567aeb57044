import Vexa.Runs
import Vexa.Lib.Exploration
import Mathlib.Data.Set.Card

/-!
# CFG recovery by merging

With the policy that merges every visit to a program counter, `cpu::CFG` maps the program counters
lifted so far to their blocks. It is never restored, so it knows the blocks of all paths: a path
that arrives at one of them ends there with an edge. Hence every program counter is lifted once,
and the exploration is a visit of the reachable program counters with at most one pending path left
behind by each visit.

## Main definitions

* `Merged` — the map is the record of the calls that lifted an instruction

## Main results

* `processInstruction_merge` — what a call does to the map and to the pending paths
* `mergeRecovery_bounded` — every program counter is lifted once, and the loop ends
-/

namespace Vexa

open Exploration

variable {M : Machine} {c₀ c c' : Cpu} {outcome : Outcome} {trace : List (Addr × Outcome)}

/-- What a call does: it lifts the instruction at a program counter that is not in the map and adds it,
leaving at most one path behind, or it changes neither the map nor the pending paths. -/
theorem processInstruction_merge (hmode : M.mode = .cfgRecovery) (hpolicy : M.joinPolicy = .mergeByPc)
    (h : processInstruction M c = .ok (outcome, c')) :
    (outcome.liftedBlock = none ∧ c'.cfg = c.cfg ∧ c'.unexploredPaths = c.unexploredPaths ∧
      ∀ target, outcome = .edgeRebuilt target →
        c.cfg c.pc = some target ∧ c' = c.create (.br target)) ∨
    ∃ b, outcome.liftedBlock = some b ∧ c.cfg c.pc = none ∧
      c'.cfg = Function.update c.cfg c.pc (some b) ∧
      (c'.unexploredPaths = c.unexploredPaths ∨
        ∃ ss, c'.unexploredPaths = ss :: c.unexploredPaths) := by
  rcases processInstruction_cases h with ⟨rfl, _, rfl⟩ | ⟨_, target, rfl, hrec⟩ | ⟨_, c₁, hrec, hrest⟩
  · exact .inl ⟨rfl, rfl, rfl, fun _ heq => by cases heq⟩
  · rw [cfgRecovery, hmode, hpolicy] at hrec
    simp only at hrec
    split at hrec
    · next lifted hlifted =>
      obtain ⟨htarget, rfl⟩ := Prod.mk.inj hrec
      obtain rfl := Option.some.inj htarget
      refine .inl ⟨rfl, rfl, rfl, ?_⟩
      rintro _ ⟨⟩
      exact ⟨hlifted, rfl⟩
    · cases hrec
  · rw [cfgRecovery, hmode, hpolicy] at hrec
    simp only at hrec
    split at hrec
    · cases hrec
    next hnone =>
    obtain ⟨_, rfl⟩ := Prod.mk.inj hrec
    rcases hrest with ⟨rfl, rfl⟩ | ⟨inst, _, hlift⟩
    · exact .inl ⟨rfl, rfl, rfl, fun _ heq => by cases heq⟩
    obtain ⟨c₁, henter, ⟨rfl, rfl⟩ | ⟨hblock, hadv⟩⟩ := liftInstruction_cases hlift
    · exact .inl ⟨rfl, henter.cfg, henter.unexploredPaths, fun _ heq => by cases heq⟩
    · have hsave : saveBlock M c₁
          = { c₁ with cfg := Function.update c₁.cfg c₁.pc (some c₁.block) } := by
        rw [saveBlock, hmode, hpolicy]
      rw [hsave] at hadv
      refine .inr ⟨_, hblock, hnone, ?_, ?_⟩
      · rw [hadv.cfg, henter.cfg, henter.pc, henter.block]
      · rw [← henter.unexploredPaths]
        refine hadv.unexploredPaths.imp_right ?_
        rintro ⟨ss, hss, _⟩
        exact ⟨ss, hss⟩

/-- The map is the record of the calls that lifted an instruction, and no program counter was lifted
twice. -/
structure Merged (trace : List (Addr × Outcome)) (c : Cpu) : Prop where
  saved : ∀ pc b, c.cfg pc = some b ↔
    ∃ outcome, (pc, outcome) ∈ trace ∧ outcome.liftedBlock = some b
  nodup : (liftedPcs trace).Nodup

theorem Merged.not_mem (h : Merged trace c) {pc : Addr} (hpc : c.cfg pc = none) :
    pc ∉ liftedPcs trace := by
  intro hmem
  obtain ⟨outcome, b, hcall, hb⟩ := mem_liftedPcs.mp hmem
  rw [(h.saved pc b).mpr ⟨outcome, hcall, hb⟩] at hpc
  cases hpc

/-- **A call keeps the record.** -/
theorem Merged.call (hmode : M.mode = .cfgRecovery) (hpolicy : M.joinPolicy = .mergeByPc)
    (hc : Merged trace c) (h : processInstruction M c = .ok (outcome, c')) :
    Merged (trace ++ [(c.pc, outcome)]) c' := by
  rcases processInstruction_merge hmode hpolicy h with ⟨hnone, hcfg, _, _⟩ | ⟨b, hb, hnew, hcfg, _⟩
  · refine ⟨fun pc b => ?_, by rw [liftedPcs_append_of_none hnone]; exact hc.nodup⟩
    rw [hcfg, hc.saved]
    refine exists_congr fun outcome' => and_congr_left fun hb => ?_
    rw [List.mem_append, List.mem_singleton]
    constructor
    · intro hmem
      exact .inl hmem
    · rintro (hmem | heq)
      · exact hmem
      · obtain ⟨_, rfl⟩ := Prod.mk.inj heq
        rw [hnone] at hb
        cases hb
  · constructor
    · intro pc b'
      rw [hcfg]
      by_cases hpc : pc = c.pc
      · subst hpc
        rw [Function.update_self]
        constructor
        · rintro ⟨⟩
          exact ⟨outcome, List.mem_append_right _ (List.mem_singleton_self _), hb⟩
        · rintro ⟨outcome', hmem, hb'⟩
          rcases List.mem_append.mp hmem with hmem | hmem
          · exact absurd (mem_liftedPcs.mpr ⟨outcome', b', hmem, hb'⟩) (hc.not_mem hnew)
          · obtain ⟨_, rfl⟩ := Prod.mk.inj (List.mem_singleton.mp hmem)
            rw [← hb, hb']
      · rw [Function.update_of_ne hpc, hc.saved]
        refine exists_congr fun outcome' => and_congr_left fun _ => ?_
        rw [List.mem_append, List.mem_singleton, Prod.mk.injEq]
        exact ⟨.inl, fun hmem => hmem.resolve_right fun heq => hpc heq.1⟩
    · rw [liftedPcs_append_of_some hb]
      refine List.nodup_append.mpr ⟨hc.nodup, List.nodup_singleton _, ?_⟩
      rintro pc hpc _ hmem rfl
      exact hc.not_mem hnew (List.mem_singleton.mp hmem ▸ hpc)

/-- Going on from another path keeps the record. -/
theorem Merged.step (hmode : M.mode = .cfgRecovery) (hpolicy : M.joinPolicy = .mergeByPc)
    (hc : Merged trace c) (h : Step M c outcome c') : Merged (trace ++ [(c.pc, outcome)]) c' := by
  cases h with
  | successful hcall _ => exact hc.call hmode hpolicy hcall
  | explore hcall _ _ =>
    obtain ⟨hsaved, hnodup⟩ := hc.call hmode hpolicy hcall
    refine ⟨?_, hnodup⟩
    rw [finishPath]
    split <;> exact hsaved

/-- **Every step lowers the rank.** -/
theorem sharedRank_step (hmode : M.mode = .cfgRecovery) (hpolicy : M.joinPolicy = .mergeByPc)
    {P : Finset Addr} (hP : c.pc ∈ P) (hc : Merged trace c) (h : Step M c outcome c') :
    sharedRank P (liftedPcs (trace ++ [(c.pc, outcome)])).toFinset c'.unexploredPaths.length
      < sharedRank P (liftedPcs trace).toFinset c.unexploredPaths.length := by
  -- what the call does, and then one path less if it ended
  have hcall : ∀ {c'}, processInstruction M c = .ok (outcome, c') →
      ((liftedPcs (trace ++ [(c.pc, outcome)])).toFinset = (liftedPcs trace).toFinset ∧
        c'.unexploredPaths.length = c.unexploredPaths.length ∧ outcome.status ≠ .successful) ∨
      (c.pc ∉ (liftedPcs trace).toFinset ∧
        (liftedPcs (trace ++ [(c.pc, outcome)])).toFinset
          = insert c.pc (liftedPcs trace).toFinset ∧
        c'.unexploredPaths.length ≤ c.unexploredPaths.length + 1) := by
    intro c' hcall
    rcases processInstruction_merge hmode hpolicy hcall with
      ⟨hnone, _, hpaths, _⟩ | ⟨b, hb, hnew, _, hpaths⟩
    · refine .inl ⟨by rw [liftedPcs_append_of_none hnone], by rw [hpaths], fun hstatus => ?_⟩
      cases outcome <;> cases hnone <;> cases hstatus
    · refine .inr ⟨fun hmem => hc.not_mem hnew (List.mem_toFinset.mp hmem), ?_, ?_⟩
      · rw [liftedPcs_append_of_some hb]
        ext pc
        simp
      · rcases hpaths with hpaths | ⟨ss, hpaths⟩
        · rw [hpaths]
          exact Nat.le_succ _
        · rw [hpaths, List.length_cons]
  cases h with
  | successful h hstatus =>
    rcases hcall h with ⟨_, _, hne⟩ | ⟨hnew, hvisited, hlen⟩
    · exact absurd hstatus hne
    · rw [hvisited]
      exact sharedRank_visit hP hnew hlen
  | explore h hstatus hpaths =>
    rename_i c₁ before after path
    have hlen : c₁.unexploredPaths.length = (before ++ after).length + 1 := by
      rw [hpaths, List.length_append, List.length_append, List.length_cons]
      omega
    change sharedRank P _ (before ++ after).length < _
    rcases hcall h with ⟨hvisited, hpending, _⟩ | ⟨hnew, hvisited, hpending⟩
    · rw [hvisited, ← hpending, hlen]
      exact sharedRank_finish _ _ _
    · rw [hvisited]
      exact sharedRank_visit hP hnew (by omega)

/-- What holds after every run: the record is right, and the calls made are paid for by the rank. -/
theorem Runs.merged (hmode : M.mode = .cfgRecovery) (hpolicy : M.joinPolicy = .mergeByPc)
    (hcfg : ∀ a, c₀.cfg a = none) (hpaths : c₀.unexploredPaths = []) {P : Finset Addr}
    (hP : ∀ pc ∈ reachablePcs M c₀, pc ∈ P) (h : Runs M c₀ trace c) :
    Merged trace c ∧ trace.length
      + sharedRank P (liftedPcs trace).toFinset c.unexploredPaths.length ≤ 2 * P.card := by
  induction h with
  | start =>
    refine ⟨⟨fun pc b => by simp [hcfg pc], List.nodup_nil⟩, ?_⟩
    simp [sharedRank, hpaths, liftedPcs]
  | step hruns hstep ih =>
    obtain ⟨hmerged, hrank⟩ := ih
    refine ⟨hmerged.step hmode hpolicy hstep, ?_⟩
    have hless := sharedRank_step hmode hpolicy (hP _ hruns.pc_mem) hmerged hstep
    rw [List.length_append, List.length_singleton]
    omega

/-- **CFG recovery by merging terminates.** For every program, every behaviour of the decoder, the lifter
and the solver, and every choice of pending paths: with `N` program counters reached, no run is
longer than `2 N` calls, so that at most `2 N + 1` calls are made and the loop of the source ends;
no program counter is lifted twice; and an edge is made to a block that was lifted before at the
program counter at which the path arrived. -/
theorem mergeRecovery_bounded (hmode : M.mode = .cfgRecovery) (hpolicy : M.joinPolicy = .mergeByPc)
    {layout : Layout} {image : MemPage} {opaqueSolving : Bool} {pc : Addr}
    (hstart : start M layout image opaqueSolving pc = .ok c₀) :
    (∀ trace c, Runs M c₀ trace c →
      trace.length ≤ 2 * (reachablePcs M c₀).ncard ∧
      ∀ outcome c', processInstruction M c = .ok (outcome, c') →
        (liftedPcs (trace ++ [(c.pc, outcome)])).Nodup ∧
        ∀ target, outcome = .edgeRebuilt target → c' = c.create (.br target) ∧
          ∃ call ∈ trace, call.1 = c.pc ∧ call.2.liftedBlock = some target) ∧
    runLoop M (2 * (reachablePcs M c₀).ncard + 1) c₀ [] ≠ .ok none := by
  obtain ⟨_, _, _, _, hcfg, hpaths⟩ := start_eq hstart
  have hfinite : (reachablePcs M c₀).Finite := reachablePcs_finite M c₀
  have hcard : hfinite.toFinset.card = (reachablePcs M c₀).ncard :=
    (Set.ncard_eq_toFinset_card _ hfinite).symm
  have hruns : ∀ {trace c}, Runs M c₀ trace c → Merged trace c ∧
      trace.length ≤ 2 * (reachablePcs M c₀).ncard := by
    intro trace c h
    obtain ⟨hmerged, hrank⟩ := h.merged hmode hpolicy hcfg hpaths (P := hfinite.toFinset)
      fun pc hpc => hfinite.mem_toFinset.mpr hpc
    rw [hcard] at hrank
    exact ⟨hmerged, by omega⟩
  refine ⟨fun trace c h => ⟨(hruns h).2, fun outcome c' hcall => ?_⟩, fun hnone => ?_⟩
  · refine ⟨((hruns h).1.call hmode hpolicy hcall).nodup, ?_⟩
    rintro target rfl
    rcases processInstruction_merge hmode hpolicy hcall with ⟨_, _, _, hedge⟩ | ⟨b, hb, _⟩
    · obtain ⟨hsaved, hc'⟩ := hedge target rfl
      obtain ⟨outcome, hmem, hb⟩ := ((hruns h).1.saved _ _).mp hsaved
      exact ⟨hc', (c.pc, outcome), hmem, rfl, hb⟩
    · cases hb
  · obtain ⟨trace, c, h, hlen⟩ := exists_runs_of_runLoop hnone
    have hle := (hruns h).2
    omega

theorem mergeRecovery_bounded_selfLoop :
    ∃ c₀, start (selfLoop .mergeByPc) ⟨0, 8⟩ .empty false 0x1000 = .ok c₀ ∧
      (∀ trace c, Runs (selfLoop .mergeByPc) c₀ trace c →
        trace.length ≤ 2 * (reachablePcs (selfLoop .mergeByPc) c₀).ncard ∧
        ∀ outcome c', processInstruction (selfLoop .mergeByPc) c = .ok (outcome, c') →
          (liftedPcs (trace ++ [(c.pc, outcome)])).Nodup ∧
          ∀ target, outcome = .edgeRebuilt target → c' = c.create (.br target) ∧
            ∃ call ∈ trace, call.1 = c.pc ∧ call.2.liftedBlock = some target) ∧
      runLoop (selfLoop .mergeByPc)
        (2 * (reachablePcs (selfLoop .mergeByPc) c₀).ncard + 1) c₀ [] ≠ .ok none :=
  ⟨_, rfl, mergeRecovery_bounded rfl rfl rfl⟩

end Vexa
