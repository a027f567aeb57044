import Vexa.PathRecovery
import Vexa.WellFormed

/-!
# What a path remembers

`cpu::PATH` is one map that every lifted instruction may extend; forks copy it into the saved path, and
it is replaced when a saved path is taken up. Along every run, whatever the mode and the callbacks, each
block in it was lifted on the current path, and each block in the map of a pending path was lifted on
that one. So a lookup in it never finds a block of another branch of a fork.

## Main results

* `Ancestral.run` — the invariant along every run
* `edge_to_ancestor` — the edges of virtual recovery by paths
-/

namespace Vexa

variable {M : Machine} {c c' c₀ : Cpu} {e e' e₀ : Explored} {outcome : Outcome}
  {trace : List (Explored × Outcome)}

/-- Every block of the map was lifted along the history. -/
def Recorded (map : Addr → Option BlockId) (path : List (Addr × BlockId)) : Prop :=
  ∀ a b, map a = some b → ∃ pc, (pc, b) ∈ path

/-- The map of the current path and those of the pending paths hold blocks of these paths. -/
structure Ancestral (e : Explored) : Prop where
  current : Recorded e.cpu.path e.path
  pending : List.Forall₂ (fun (ss : Snapshot) path => Recorded ss.path path)
    e.cpu.unexploredPaths e.pending

/-! ### One step -/

/-- Two lists related pointwise, with one pair taken out. -/
theorem forall₂_middle {α β : Type} {R : α → β → Prop} {x : α} {y : β} {after : List α}
    {after' : List β} : ∀ {before : List α} {before' : List β},
      List.Forall₂ R (before ++ x :: after) (before' ++ y :: after') →
      before'.length = before.length → R x y ∧ List.Forall₂ R (before ++ after) (before' ++ after')
  | [], [], h, _ => List.forall₂_cons.mp h
  | _ :: _, _ :: _, h, hlen => by
    obtain ⟨hhead, htail⟩ := List.forall₂_cons.mp h
    obtain ⟨hxy, hrest⟩ := forall₂_middle htail (Nat.succ.inj hlen)
    exact ⟨hxy, List.forall₂_cons.mpr ⟨hhead, hrest⟩⟩

theorem saveBlock_path {a : Addr} {b : BlockId} (h : (saveBlock M c).path a = some b) :
    c.path a = some b ∨ b = c.block := by
  have hupdate : ∀ {x : Addr}, Function.update c.path x (some c.block) a = some b →
      c.path a = some b ∨ b = c.block := by
    intro x hmap
    by_cases ha : a = x
    · rw [ha, Function.update_self] at hmap
      exact .inr (Option.some.inj hmap).symm
    · rw [Function.update_of_ne ha] at hmap
      exact .inl hmap
  rw [saveBlock] at h
  split at h
  · exact hupdate h
  · exact .inl h
  · split at h
    · exact .inl h
    · exact hupdate h
  · split at h <;> exact .inl h
  · exact .inl h

/-- A step adds at most the block it lifted to the map, and a path it saves has the same map. -/
theorem processInstruction_path (h : processInstruction M c = .ok (outcome, c')) :
    (∀ a b, c'.path a = some b → c.path a = some b ∨ outcome.liftedBlock = some b) ∧
      (c'.unexploredPaths = c.unexploredPaths ∨
        ∃ ss, c'.unexploredPaths = ss :: c.unexploredPaths ∧ ss.path = c'.path) := by
  rcases processInstruction_cases h with ⟨rfl, _, rfl⟩ | ⟨_, target, rfl, hjoin⟩ |
    ⟨_, c₁, hnone, ⟨rfl, rfl⟩ | ⟨inst, _, hlift⟩⟩
  · exact ⟨fun _ _ => .inl, .inl rfl⟩
  · obtain ⟨_, vjmp, rfl⟩ := cfgRecovery_some hjoin
    exact ⟨fun _ _ => .inl, .inl rfl⟩
  · obtain ⟨vjmp, rfl⟩ := cfgRecovery_none hnone
    exact ⟨fun _ _ => .inl, .inl rfl⟩
  · obtain ⟨vjmp, rfl⟩ := cfgRecovery_none hnone
    obtain ⟨c₂, henter, ⟨rfl, rfl⟩ | ⟨hblock, hadv⟩⟩ := liftInstruction_cases hlift
    · exact ⟨fun a b hb => .inl ((congrFun henter.path a).symm.trans hb), .inl henter.unexploredPaths⟩
    · refine ⟨fun a b hb => ?_, ?_⟩
      · rw [hadv.path] at hb
        rcases saveBlock_path hb with hb | rfl
        · exact .inl ((congrFun henter.path a).symm.trans hb)
        · exact .inr (by rw [hblock, henter.block])
      · have hpaths : (saveBlock M c₂).unexploredPaths = c.unexploredPaths :=
          (saveBlock_goesOn c₂).unexploredPaths.trans henter.unexploredPaths
        rw [← hpaths]
        refine hadv.unexploredPaths.imp_right ?_
        rintro ⟨ss, hss, hpath, _⟩
        exact ⟨ss, hss, hpath.trans hadv.path.symm⟩

theorem mem_lifted_of_mem {pc : Addr} {b : BlockId} (h : (pc, b) ∈ e.path) :
    (pc, b) ∈ e.lifted outcome := by
  rw [Explored.lifted]
  split
  · exact List.mem_append_left _ h
  · exact h

theorem mem_lifted_self {b : BlockId} (h : outcome.liftedBlock = some b) :
    (e.cpu.pc, b) ∈ e.lifted outcome := by
  rw [Explored.lifted, h]
  exact List.mem_append_right _ (List.mem_singleton_self _)

/-- The histories of the pending paths after a call. -/
theorem forked_of_same (h : c'.unexploredPaths = e.cpu.unexploredPaths) :
    e.forked outcome c' = e.pending := by
  rw [Explored.forked, h, if_neg (lt_irrefl _)]

theorem forked_of_cons {ss : Snapshot} (h : c'.unexploredPaths = ss :: e.cpu.unexploredPaths) :
    e.forked outcome c' = e.lifted outcome :: e.pending := by
  rw [Explored.forked, h, List.length_cons, if_pos (Nat.lt_succ_self _)]

theorem Ancestral.call (he : Ancestral e) (h : processInstruction M e.cpu = .ok (outcome, c')) :
    Ancestral ⟨c', e.lifted outcome, e.forked outcome c'⟩ := by
  obtain ⟨hpath, hpaths⟩ := processInstruction_path h
  have hcurrent : Recorded c'.path (e.lifted outcome) := by
    intro a b hb
    rcases hpath a b hb with hold | hnew
    · obtain ⟨pc, hmem⟩ := he.current a b hold
      exact ⟨pc, mem_lifted_of_mem hmem⟩
    · exact ⟨_, mem_lifted_self hnew⟩
  refine ⟨hcurrent, ?_⟩
  rcases hpaths with hsame | ⟨ss, hss, hmap⟩
  · show List.Forall₂ _ c'.unexploredPaths (e.forked outcome c')
    rw [forked_of_same hsame, hsame]
    exact he.pending
  · show List.Forall₂ _ c'.unexploredPaths (e.forked outcome c')
    rw [forked_of_cons hss, hss]
    exact .cons (hmap ▸ hcurrent) he.pending

theorem Ancestral.step (he : Ancestral e) (h : PathStep M e outcome e') : Ancestral e' := by
  cases h with
  | successful hcall hstatus => exact he.call hcall
  | explore hcall hstatus hpaths hforked hlen =>
    have hpending := (he.call hcall).pending
    simp only [hpaths, hforked] at hpending
    obtain ⟨hcurrent, hrest⟩ := forall₂_middle hpending hlen
    exact ⟨hcurrent, hrest⟩

/-- **Along every run** the maps hold blocks of their own path only. -/
theorem Ancestral.run (he₀ : Ancestral e₀) (h : PathRuns M e₀ trace e) : Ancestral e := by
  induction h with
  | start => exact he₀
  | step _ hstep ih => exact ih.step hstep

theorem start_ancestral {layout : Layout} {image : MemPage} {opaqueSolving : Bool} {pc : Addr}
    (h : start M layout image opaqueSolving pc = .ok c₀) : Ancestral ⟨c₀, [], []⟩ := by
  obtain ⟨_, _, _, hpath, _, hpaths⟩ := start_eq h
  refine ⟨fun a b hb => ?_, ?_⟩
  · rw [show c₀.path a = none from hpath a] at hb
    cases hb
  · show List.Forall₂ _ c₀.unexploredPaths []
    rw [hpaths]
    exact .nil

/-! ### The tree of forks -/

/-- Lifting an instruction makes a block. -/
theorem liftInstruction_numBlocks {inst : Instruction}
    (h : liftInstruction M inst c = .ok (outcome, c')) : c.numBlocks < c'.numBlocks := by
  obtain ⟨c₁, hexec, hrest⟩ := liftInstruction_eq h
  have hopen : ((openBlock c).eventHandler M .instructionLift).Building := ⟨rfl, Nat.lt_succ_self _⟩
  have hgoes := Cpu.exec_goesOn hexec rfl
  have hc₁ := hgoes.building hopen
  have hnum : c₁.numBlocks = c.numBlocks + 1 := hgoes.numBlocks
  rcases hrest with ⟨_, heq⟩ | ⟨semantics, c₂, _, hrun, hflow⟩
  · obtain ⟨_, rfl⟩ := Prod.mk.inj heq
    exact hnum ▸ Nat.lt_succ_self _
  · simp only [runLifted, Except.bind_eq_ok, Except.pure_eq_ok] at hrun
    obtain ⟨r, _, rfl⟩ := hrun
    have hsave : Cpu.GoesOn _ (saveBlock M _) := saveBlock_goesOn { c₁ with
      symex := r.2
      function := Function.update c₁.function c₁.block
        { c₁.function c₁.block with insts := r.1.insts, resolutions := r.1.resolutions } }
    have hnum₂ := hsave.numBlocks.trans hnum
    rcases controlFlow_builds (hsave.building ⟨hc₁.block, hc₁.lt⟩) hflow with hgoes' | hforks
    · rw [hgoes'.numBlocks, hnum₂]
      exact Nat.lt_succ_self _
    · rw [hforks.numBlocks, hnum₂]
      exact Nat.lt_add_right 2 (Nat.lt_succ_self _)

/-- The block a step lifts is a new one. -/
theorem processInstruction_numBlocks (h : processInstruction M c = .ok (outcome, c')) :
    c.numBlocks ≤ c'.numBlocks ∧
      ∀ b, outcome.liftedBlock = some b → b = c.numBlocks ∧ c.numBlocks < c'.numBlocks := by
  rcases processInstruction_cases h with ⟨rfl, _, rfl⟩ | ⟨_, target, rfl, hjoin⟩ |
    ⟨_, c₁, hnone, ⟨rfl, rfl⟩ | ⟨inst, _, hlift⟩⟩
  · exact ⟨Nat.le_refl _, nofun⟩
  · obtain ⟨_, vjmp, rfl⟩ := cfgRecovery_some hjoin
    exact ⟨Nat.le_refl _, nofun⟩
  · obtain ⟨vjmp, rfl⟩ := cfgRecovery_none hnone
    exact ⟨Nat.le_refl _, nofun⟩
  · obtain ⟨vjmp, rfl⟩ := cfgRecovery_none hnone
    have hlt : c.numBlocks < c'.numBlocks :=
      liftInstruction_numBlocks (c := { c with vjmp := vjmp }) hlift
    refine ⟨hlt.le, fun b hb => ?_⟩
    obtain ⟨c₂, _, ⟨rfl, _⟩ | ⟨hblock, _⟩⟩ := liftInstruction_cases hlift
    · cases hb
    · exact ⟨Option.some.inj (hb.symm.trans hblock), hlt⟩

/-- The histories are paths of one tree: each block on them was lifted by the one call made with the
history up to it. -/
structure Tree (trace : List (Explored × Outcome)) (e : Explored) : Prop where
  nodes : ∀ path ∈ e.path :: e.pending, ∀ before pc b after, path = before ++ (pc, b) :: after →
    ∃ call ∈ trace, call.2.liftedBlock = some b ∧ call.1.path = before ∧ call.1.cpu.pc = pc
  lt : ∀ call ∈ trace, ∀ b, call.2.liftedBlock = some b → b < e.cpu.numBlocks
  nodup : (trace.filterMap fun call => call.2.liftedBlock).Nodup

/-- Where the values of a partial function on a list differ, a value has one preimage. -/
theorem eq_of_nodup_filterMap {α β : Type} {f : α → Option β} {x y : α} {b : β} :
    ∀ {l : List α}, (l.filterMap f).Nodup → x ∈ l → y ∈ l → f x = some b → f y = some b → x = y
  | [], _, hx, _, _, _ => by cases hx
  | head :: l, hnodup, hx, hy, hfx, hfy => by
    have hmem : ∀ {z}, z ∈ l → f z = some b → b ∈ l.filterMap f :=
      fun hz hfz => List.mem_filterMap.mpr ⟨_, hz, hfz⟩
    rcases List.mem_cons.mp hx with rfl | hx'
    · rcases List.mem_cons.mp hy with rfl | hy'
      · rfl
      · rw [List.filterMap_cons_some hfx] at hnodup
        exact absurd (hmem hy' hfy) (List.nodup_cons.mp hnodup).1
    · rcases List.mem_cons.mp hy with rfl | hy'
      · rw [List.filterMap_cons_some hfy] at hnodup
        exact absurd (hmem hx' hfx) (List.nodup_cons.mp hnodup).1
      · refine eq_of_nodup_filterMap ?_ hx' hy' hfx hfy
        cases hhead : f head with
        | none => rwa [List.filterMap_cons_none hhead] at hnodup
        | some b' =>
          rw [List.filterMap_cons_some hhead] at hnodup
          exact (List.nodup_cons.mp hnodup).2

/-- Two calls do not lift the same block. -/
theorem Tree.unique (h : Tree trace e) {call call' : Explored × Outcome} {b : BlockId}
    (hcall : call ∈ trace) (hcall' : call' ∈ trace) (hb : call.2.liftedBlock = some b)
    (hb' : call'.2.liftedBlock = some b) : call = call' :=
  eq_of_nodup_filterMap h.nodup hcall hcall' hb hb'

/-- A call adds a node to the tree, below the current path. -/
theorem Tree.call (h : Tree trace e) (hcall : processInstruction M e.cpu = .ok (outcome, c')) :
    Tree (trace ++ [(e, outcome)]) ⟨c', e.lifted outcome, e.forked outcome c'⟩ := by
  obtain ⟨hle, hnew⟩ := processInstruction_numBlocks hcall
  have hold : ∀ path ∈ e.path :: e.pending, ∀ before pc b after, path = before ++ (pc, b) :: after →
      ∃ call ∈ trace ++ [(e, outcome)], call.2.liftedBlock = some b ∧ call.1.path = before ∧
        call.1.cpu.pc = pc := by
    intro path hpath before pc b after heq
    obtain ⟨call, hmem, hrest⟩ := h.nodes path hpath before pc b after heq
    exact ⟨call, List.mem_append_left _ hmem, hrest⟩
  have hlifted : ∀ before pc b after, e.lifted outcome = before ++ (pc, b) :: after →
      ∃ call ∈ trace ++ [(e, outcome)], call.2.liftedBlock = some b ∧ call.1.path = before ∧
        call.1.cpu.pc = pc := by
    intro before pc b after heq
    rw [Explored.lifted] at heq
    split at heq
    · next b' hb' =>
      -- the node is the new one, or one of the old path
      rcases List.eq_nil_or_concat after with rfl | ⟨after', last, rfl⟩
      · obtain ⟨rfl, hlast⟩ := List.append_inj' heq rfl
        obtain ⟨hpair, _⟩ := List.cons.inj hlast
        obtain ⟨rfl, rfl⟩ := Prod.mk.inj hpair
        exact ⟨(e, outcome), List.mem_append_right _ (List.mem_singleton_self _), hb', rfl, rfl⟩
      · have hassoc : e.path ++ [(e.cpu.pc, b')] = (before ++ (pc, b) :: after') ++ [last] := by
          rw [heq]
          simp
        obtain ⟨hpath, _⟩ := List.append_inj' hassoc rfl
        exact hold e.path (List.mem_cons_self ..) before pc b after' hpath
    · exact hold e.path (List.mem_cons_self ..) before pc b after heq
  refine ⟨fun path hpath => ?_, fun call hmem b hb => ?_, ?_⟩
  · rcases List.mem_cons.mp hpath with rfl | hpath
    · exact hlifted
    · rw [Explored.forked] at hpath
      split at hpath
      · rcases List.mem_cons.mp hpath with rfl | hpath
        · exact hlifted
        · exact hold path (List.mem_cons_of_mem _ hpath)
      · exact hold path (List.mem_cons_of_mem _ hpath)
  · rcases List.mem_append.mp hmem with hmem | hmem
    · exact (h.lt call hmem b hb).trans_le hle
    · obtain rfl := List.mem_singleton.mp hmem
      obtain ⟨rfl, hlt⟩ := hnew b hb
      exact hlt
  · rw [List.filterMap_append]
    refine List.nodup_append.mpr ⟨h.nodup, ?_, fun b hb b' hb' heq => ?_⟩
    · cases hb : outcome.liftedBlock <;> simp [hb]
    · obtain ⟨call, hmem, hcall⟩ := List.mem_filterMap.mp hb
      obtain ⟨call', hmem', hcall'⟩ := List.mem_filterMap.mp hb'
      obtain rfl := List.mem_singleton.mp hmem'
      have hlt := h.lt call hmem b hcall
      rw [heq, (hnew b' hcall').1] at hlt
      exact lt_irrefl _ hlt

theorem Tree.step (h : Tree trace e) (hstep : PathStep M e outcome e') :
    Tree (trace ++ [(e, outcome)]) e' := by
  cases hstep with
  | successful hcall hstatus => exact h.call hcall
  | explore hcall hstatus hpaths hforked hlen =>
    rename_i c' before after ss before' after' path
    obtain ⟨hnodes, hlt, hnodup⟩ := h.call hcall
    have hnum : (finishPath outcome c').numBlocks = c'.numBlocks := by
      rw [finishPath]
      split <;> rfl
    refine ⟨fun path' hpath' => hnodes path' ?_, fun call hmem b hb => ?_, hnodup⟩
    · simp only [hforked, List.mem_cons, List.mem_append] at hpath' ⊢
      tauto
    · show b < (finishPath outcome c').numBlocks
      rw [hnum]
      exact hlt call hmem b hb

theorem Tree.run (h₀ : Tree [] e₀)
    (h : PathRuns M e₀ trace e) : Tree trace e := by
  induction h with
  | start => exact h₀
  | step _ hstep ih => exact ih.step hstep

theorem start_tree (c₀ : Cpu) : Tree [] ⟨c₀, [], []⟩ := by
  refine ⟨fun path hpath before pc b after heq => ?_, nofun, List.nodup_nil⟩
  obtain rfl := List.mem_singleton.mp hpath
  exact absurd heq (by simp)

/-! ### Edges -/

/-- **Path specialisation never joins siblings.** For every program and every callback: in virtual
recovery by paths, each edge that is made goes from the block the builder is at to a block lifted
earlier on the same path: the one call that lifted it was made with a history that the current one
extends, so it is an ancestor in the tree of forks. -/
theorem edge_to_ancestor (hmode : M.mode = .vcfgRecovery) (hpolicy : M.joinPolicy = .specializeByPath)
    {layout : Layout} {image : MemPage} {opaqueSolving : Bool} {pc : Addr}
    (hstart : start M layout image opaqueSolving pc = .ok c₀) :
    ∀ trace e, PathRuns M ⟨c₀, [], []⟩ trace e →
      ∀ target c', processInstruction M e.cpu = .ok (.edgeRebuilt target, c') →
        c'.function = (e.cpu.create (.br target)).function ∧
        ∃ call ∈ trace, call.2.liftedBlock = some target ∧
          (call.1.path ++ [(call.1.cpu.pc, target)]) <+: e.path ∧
          ∀ call' ∈ trace, call'.2.liftedBlock = some target → call' = call := by
  intro trace e h target c' hcall
  have he := (start_ancestral hstart).run h
  have htree := (start_tree c₀).run h
  rcases processInstruction_cases hcall with ⟨hne, _⟩ | ⟨_, target', heq, hjoin⟩ |
    ⟨_, c₁, _, ⟨hne, _⟩ | ⟨inst, _, hlift⟩⟩
  · cases hne
  · obtain rfl := Outcome.edgeRebuilt.inj heq
    obtain ⟨_, vjmp, rfl⟩ := cfgRecovery_some hjoin
    refine ⟨rfl, ?_⟩
    rw [cfgRecovery, hmode, hpolicy] at hjoin
    simp only at hjoin
    split at hjoin
    · cases hjoin
    · split at hjoin
      · next lifted hlifted =>
        obtain rfl := Option.some.inj (Prod.mk.inj hjoin).1
        obtain ⟨pc', hrecorded⟩ := he.current _ _ hlifted
        obtain ⟨before, after, hpath⟩ := List.append_of_mem hrecorded
        obtain ⟨call, hmem, hblock, rfl, rfl⟩ :=
          htree.nodes e.path (List.mem_cons_self ..) before pc' _ after hpath
        refine ⟨call, hmem, hblock, ⟨after, ?_⟩, fun call' hmem' hblock' =>
          htree.unique hmem' hmem hblock' hblock⟩
        rw [hpath, List.append_assoc]
        rfl
      · cases hjoin
  · cases hne
  · obtain ⟨_, _, ⟨hne, _⟩ | ⟨hblock, _⟩⟩ := liftInstruction_cases hlift
    · cases hne
    · cases hblock

/-! ### A dispatcher -/

def jumpSemantics : Semantics where
  insts := [.store 64 (.const 64 0x1000) .nextPc]
  typed := ⟨⟨by decide, rfl, rfl⟩, nofun, trivial⟩

/-- An indirect jump to 0x1000 at every address, and a callback that reports every indirect jump as a
dispatch to the same virtual program counter. -/
def dispatcher (policy : CfgJoinPolicy) (v : Addr) : Machine :=
  { Machine.bare .folding with
    mode := .vcfgRecovery
    joinPolicy := policy
    decodeInstruction := fun _ _ => some ⟨"JMP_GPRv_64", .indirectJump, 0, 0, 0⟩
    liftIntoBlock := fun _ => some jumpSemantics
    callback := fun k c =>
      if k = .indirectJump then ⟨v, true, c.opaqueSolving⟩ else ⟨c.vpc, c.vjmp, c.opaqueSolving⟩ }

theorem edge_to_ancestor_dispatcher :
    ∃ c₀, start (dispatcher .specializeByPath 7) ⟨0, 8⟩ .empty false 0x1000 = .ok c₀ ∧
      ∀ trace e, PathRuns (dispatcher .specializeByPath 7) ⟨c₀, [], []⟩ trace e →
        ∀ target c', processInstruction (dispatcher .specializeByPath 7) e.cpu
            = .ok (.edgeRebuilt target, c') →
          c'.function = (e.cpu.create (.br target)).function ∧
          ∃ call ∈ trace, call.2.liftedBlock = some target ∧
            (call.1.path ++ [(call.1.cpu.pc, target)]) <+: e.path ∧
            ∀ call' ∈ trace, call'.2.liftedBlock = some target → call' = call :=
  ⟨_, rfl, edge_to_ancestor rfl rfl rfl⟩

end Vexa
