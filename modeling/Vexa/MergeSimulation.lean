import Vexa.FirstVisit
import Vexa.MergeRecovery

/-!
# Merging simulates the program

With the policy that merges every visit to a program counter, a path that arrives at a program counter
lifted before ends there with an edge. Wherever the visit in which the block behind the edge was lifted
admits what the program does there, the lifted function goes on as the program does, however often the
block is entered again and on whatever path.

The block of a program counter keeps the addresses and the targets that were found on the path that
came first, so a program that goes elsewhere later is not followed.

## Main definitions

* `ExecutesWithin` — runs of a program whose steps start in states with a property
* `Cpu.Foresees` — a block was made for what the program does from a state
* `Admitted` — the call that lifts the program counter admits what the program does from a state
* `Replays` — the function has visited the program counters the program has
* `Merges`, `Merging` — what is known of the blocks, and of the lifter while the function is built
* `Recalls` — every block was made for what the call it was lifted in admits

## Main results

* `Cpu.Fills.continues`, `Cpu.Fills.foresees` — one instruction
* `Merging.explores`, `Merging.returns`, `Recalls.explores`, `Recalls.returns` — along every run of the
  lifter
* `mergedFunction_simulates` — the lifted function simulates the program wherever it was admitted
* `twoStacks_not_replayed` — a program that is not followed
-/

namespace Vexa

variable {M : Machine} {program : Program} {s₀ s t u : IrState Name} {p₀ p : Addr × Bytes} {m : Bytes}
  {c c' c₀ c₁ c₂ : Cpu} {outcome : Outcome} {b : BlockId} {pc target : Addr} {pcs : List Addr}
  {inst : Instruction} {semantics : Semantics} {types : Types Name}

/-! ### What is emitted -/

theorem Cpu.emitted_congr (hfunction : c'.function b = c.function b)
    (hdelete : ∀ n, (b, n) ∈ c'.toDelete ↔ (b, n) ∈ c.toDelete) : c'.emitted b = c.emitted b := by
  have hinsts : (c'.emitted b).insts = (c.emitted b).insts := by
    refine (eraseDeletedInstructions_insts c' b).trans (.trans ?_ (eraseDeletedInstructions_insts c b).symm)
    simp only [hfunction, hdelete]
  show { c'.function b with insts := (c'.emitted b).insts } =
    { c.function b with insts := (c.emitted b).insts }
  rw [hinsts, hfunction]

/-- Only finished blocks have instructions that are to be erased. -/
def Cpu.ErasesFinished (c : Cpu) : Prop := ∀ d ∈ c.toDelete, ¬ Straight (c.function d.1).insts

theorem Cpu.ErasesFinished.emitted_eq (h : c.ErasesFinished) (hb : Straight (c.function b).insts) :
    c.emitted b = c.function b :=
  Cpu.emitted_eq fun _ hmem => h _ hmem hb

/-! ### What is built later -/

/-- `c'` is `c` with the current block closed by `last`, and perhaps with new blocks. -/
structure Cpu.Closes (c c' : Cpu) (last : Inst Name) : Prop where
  self : c'.function c.insertPoint = { c.function c.insertPoint with
    insts := (c.function c.insertPoint).insts ++ [last] }
  others : ∀ b, b < c.numBlocks → b ≠ c.insertPoint → c'.function b = c.function b
  toDelete : ∀ b, b < c.numBlocks → ∀ n, (b, n) ∈ c'.toDelete ↔ (b, n) ∈ c.toDelete

/-- `c'` has the finished blocks of `c`, its blocks were made for the same, and the blocks that were open
stay open or lead on. -/
structure Cpu.Builds (c c' : Cpu) (opened' : List (BlockId × Addr)) : Prop where
  finished : c.emitted.Extends c'.emitted
  cfg : ∀ pc b, c.cfg pc = some b → c'.cfg pc = some b
  opened : ∀ b pc, (b, pc) ∈ c.leaves → LeafKept c.emitted c'.emitted opened' c'.cfg b pc
  notes : ∀ pc b, c.cfg pc = some b → ∃ insts, c'.function b = { c.function b with insts := insts }

variable {last : Inst Name} {rest : List BlockId} {opened' : List (BlockId × Addr)}

namespace Cpu.Closes

theorem create (c : Cpu) (last : Inst Name) : c.Closes (c.create last) last where
  self := c.function_create_self last
  others _ _ hne := c.function_create_of_ne last hne
  toDelete _ _ _ := Iff.rfl

theorem emitted_of_ne (h : c.Closes c' last) (hb : b < c.numBlocks) (hne : b ≠ c.insertPoint) :
    c'.emitted b = c.emitted b := Cpu.emitted_congr (h.others b hb hne) (h.toDelete b hb)

theorem emitted_self (h : c.Closes c' last) (hc : c.insertPoint < c.numBlocks)
    (hstraight : Straight (c.function c.insertPoint).insts) (herases : c.ErasesFinished) :
    c'.emitted c.insertPoint = { c.emitted c.insertPoint with
      insts := (c.emitted c.insertPoint).insts ++ [last] } := by
  have hkept : ∀ n, (c.insertPoint, n) ∉ c'.toDelete := fun n hn =>
    herases _ ((h.toDelete _ hc n).mp hn) hstraight
  rw [Cpu.emitted_eq hkept, herases.emitted_eq hstraight, h.self]

theorem builds (hbuilt : Built c (c.insertPoint :: (c.pendingBlocks ++ rest))) (hmaps : c.MapsBuilt)
    (hfresh : c.Fresh) (herases : c.ErasesFinished) (h : c.Closes c' last)
    (hcfg : ∀ pc b, c.cfg pc = some b → c'.cfg pc = some b)
    (hlast : (last = .ret ∧ c.pc = 0) ∨ ∃ d, last = .br d ∧ c'.cfg c.pc = some d)
    (hopened : ∀ ss ∈ c.unexploredPaths, (ss.bb, ss.pc) ∈ opened') : c.Builds c' opened' where
  finished b hb := by
    have hstraight : ¬ Straight (c.function b).insts := fun hstraight => hb hstraight.erase
    refine h.emitted_of_ne (Nat.lt_of_not_le fun hle => hstraight (hfresh b hle)) ?_
    rintro rfl
    exact hstraight (hbuilt.straight _ (List.mem_cons_self ..))
  cfg := hcfg
  opened b pc hleaf := by
    rcases List.mem_cons.mp hleaf with heq | hpending
    · -- the current block is closed
      obtain ⟨rfl, rfl⟩ := Prod.mk.inj heq
      have hself := h.emitted_self (hbuilt.lt _ (List.mem_cons_self ..))
        (hbuilt.straight _ (List.mem_cons_self ..)) herases
      rcases hlast with ⟨rfl, hpc⟩ | ⟨d, rfl, hd⟩
      · exact .ret hself hpc
      · exact .edge hself hd
    · obtain ⟨ss, hss, heq⟩ := List.mem_map.mp hpending
      obtain ⟨rfl, rfl⟩ := Prod.mk.inj heq
      have hmem : ss.bb ∈ c.pendingBlocks ++ rest := List.mem_append_left _ (List.mem_map_of_mem hss)
      refine .stays (hopened ss hss) (h.emitted_of_ne (hbuilt.lt _ (List.mem_cons_of_mem _ hmem)) ?_)
      intro heq
      exact (List.nodup_cons.mp hbuilt.nodup).1 (heq ▸ hmem)
  notes pc b hb := by
    by_cases heq : b = c.insertPoint
    · exact ⟨_, heq ▸ h.self⟩
    · exact ⟨_, h.others b (hmaps b ⟨pc, .inr (.inl hb)⟩) heq⟩

theorem erases (hstraight : Straight (c.function c.insertPoint).insts)
    (herases : c.ErasesFinished) (h : c.Closes c' last)
    (hnew : ∀ d ∈ c'.toDelete, c.numBlocks ≤ d.1 → ¬ Straight (c'.function d.1).insts) :
    c'.ErasesFinished := by
  rintro ⟨b, n⟩ hd
  by_cases hb : b < c.numBlocks
  · have hfinished := herases _ ((h.toDelete b hb n).mp hd)
    rw [h.others b hb]
    · exact hfinished
    · rintro rfl
      exact hfinished hstraight
  · exact hnew _ hd (Nat.le_of_not_lt hb)

end Cpu.Closes

/-! ### Blocks that are merged -/

section

variable (M program)

/-- The block lifted for a program counter goes on as the program does, wherever it was made for what
the program does there. -/
structure Cpu.Continues (c : Cpu) (opened : List (BlockId × Addr)) (pc : Addr) (b : BlockId) : Prop where
  pc_ne : pc ≠ 0
  arrives : ∃ inst semantics, program pc = some inst ∧ M.liftIntoBlock inst = some semantics ∧
    ∀ s, (c.function b).Foresees inst semantics pc s.mem →
      Arrives c.emitted opened c.cfg (inst.target (semantics.effect pc s.mem))
        (semantics.effect pc s.mem) (b, s) [pc]
  pc : (c.function b).pc = some pc

variable (s₀ p₀)

/-- Control comes from the entry to where the program starts, and from every block of the map to where
the program goes. -/
structure Merges (opened : List (BlockId × Addr)) (c : Cpu) : Prop where
  entry : Arrives c.emitted opened c.cfg p₀.1 p₀.2 (0, s₀) []
  saved : ∀ pc b, c.cfg pc = some b → c.Continues M program opened pc b

end

theorem Cpu.Builds.continues (h : c.Builds c' opened') (hb : c.cfg pc = some b)
    (hcontinues : c.Continues M program c.leaves pc b) : c'.Continues M program opened' pc b := by
  obtain ⟨inst, semantics, hprogram, hsome, harrives⟩ := hcontinues.arrives
  obtain ⟨insts, hnotes⟩ := h.notes pc b hb
  refine ⟨hcontinues.pc_ne, ⟨inst, semantics, hprogram, hsome, fun s hforesees => ?_⟩, ?_⟩
  · rw [hnotes] at hforesees
    exact (harrives s ⟨hforesees.accesses, hforesees.target⟩).mono h.finished h.cfg h.opened
  · rw [hnotes]
    exact hcontinues.pc

theorem Merges.of_eq (h : Merges M program s₀ p₀ opened' c) (hfunction : c'.function = c.function)
    (hcfg : c'.cfg = c.cfg) (hdelete : c'.toDelete = c.toDelete) :
    Merges M program s₀ p₀ opened' c' := by
  have hemitted : c'.emitted = c.emitted :=
    funext fun b => Cpu.emitted_congr (congrFun hfunction b) fun n => by rw [hdelete]
  refine ⟨?_, fun pc b hb => ?_⟩
  · rw [hemitted, hcfg]
    exact h.entry
  · rw [hcfg] at hb
    obtain ⟨hpc, harrives, hself⟩ := h.saved pc b hb
    refine ⟨hpc, ?_, ?_⟩
    · rw [hemitted, hcfg, hfunction]
      exact harrives
    · rw [hfunction]
      exact hself

theorem Merges.of_builds (h : Merges M program s₀ p₀ c.leaves c) (hbuilds : c.Builds c' opened')
    (hnew : ∀ pc b, c'.cfg pc = some b → c.cfg pc = some b ∨ c'.Continues M program opened' pc b) :
    Merges M program s₀ p₀ opened' c' where
  entry := h.entry.mono hbuilds.finished hbuilds.cfg hbuilds.opened
  saved pc b hb := by
    rcases hnew pc b hb with hold | hcontinues
    · exact hbuilds.continues hold (h.saved pc b hold)
    · exact hcontinues

/-! ### One instruction -/

/-- `c₂` is `c` when the block of an instruction is filled and emulated. -/
structure Cpu.Fills (M : Machine) (semantics : Semantics) (c c₁ c₂ : Cpu) : Prop where
  opens : c.Opens M c₁
  emulates : c.Emulates M semantics c₁ c₂
  lifts : c.Lifts c₂
  enters : c.Enters M c₂
  self : c₂.function c.insertPoint = { c.function c.insertPoint with
    insts := (c.function c.insertPoint).insts ++ [.br c.numBlocks] }
  unsolved : c.opaqueSolving = false → M.KeepsUnsolved → c₂.opaqueSolving = false

/-- The block is saved under the program counter. -/
def Cpu.saved (c : Cpu) : Cpu := { c with cfg := Function.update c.cfg c.pc (some c.block) }

/-- The block is saved in the maps, in whatever way. -/
def Cpu.SavedAs (c c' : Cpu) : Prop :=
  ∃ path cfg vcfg, c' = { c with path := path, cfg := cfg, vcfg := vcfg }

theorem Cpu.saved_savedAs (c : Cpu) : c.SavedAs c.saved := ⟨c.path, _, c.vcfg, rfl⟩

/-- In every mode the maps are what is written. -/
theorem saveBlock_savedAs (c : Cpu) : c.SavedAs (saveBlock M c) := by
  rw [saveBlock]
  split
  · exact ⟨_, c.cfg, c.vcfg, rfl⟩
  · exact ⟨c.path, _, c.vcfg, rfl⟩
  · split
    · exact ⟨c.path, c.cfg, c.vcfg, rfl⟩
    · exact ⟨_, c.cfg, c.vcfg, rfl⟩
  · split
    · exact ⟨c.path, c.cfg, c.vcfg, rfl⟩
    · exact ⟨c.path, c.cfg, _, rfl⟩
  · exact ⟨c.path, c.cfg, c.vcfg, rfl⟩

/-- An instruction is lifted into a block of its own, whatever the mode. -/
theorem liftInstruction_filled (hc : c.insertPoint < c.numBlocks)
    (hlift : liftInstruction M inst c = .ok (outcome, c')) (hstatus : outcome.status = .successful) :
    ∃ semantics c₁ c₂, M.liftIntoBlock inst = some semantics ∧ c.Fills M semantics c₁ c₂ ∧
      controlFlow M inst (saveBlock M c₂) = .ok (outcome, c') := by
  obtain ⟨c₁, hexec, ⟨_, heq⟩ | ⟨semantics, c₂, hsome, hrun, hflow⟩⟩ := liftInstruction_eq hlift
  · obtain ⟨rfl, _⟩ := Prod.mk.inj heq
    cases hstatus
  have hopens := openBlock_opens hc hexec
  refine ⟨semantics, c₁, c₂, hsome, ⟨hopens, runLifted_emulates hopens hrun,
    runLifted_lifts hc (opened_lifts hc hexec) hrun, (openBlock_enters hexec).runLifted hrun,
    runLifted_self hc hexec hrun, fun hunsolved hM => ?_⟩, hflow⟩
  have hunsolved₁ : c₁.opaqueSolving = false :=
    (Cpu.exec_extends hexec).opaqueSolving.trans (hM _ _ hunsolved)
  simp only [runLifted, Except.bind_eq_ok, Except.pure_eq_ok] at hrun
  obtain ⟨_, _, rfl⟩ := hrun
  exact hunsolved₁

theorem liftInstruction_fills (hmode : M.mode = .cfgRecovery) (hpolicy : M.joinPolicy = .mergeByPc)
    (hc : c.insertPoint < c.numBlocks) (hlift : liftInstruction M inst c = .ok (outcome, c'))
    (hstatus : outcome.status = .successful) :
    ∃ semantics c₁ c₂, M.liftIntoBlock inst = some semantics ∧ c.Fills M semantics c₁ c₂ ∧
      controlFlow M inst c₂.saved = .ok (outcome, c') := by
  obtain ⟨semantics, c₁, c₂, hsome, hfills, hflow⟩ := liftInstruction_filled hc hlift hstatus
  have hsave : saveBlock M c₂ = c₂.saved := by
    rw [saveBlock, hmode, hpolicy]
    rfl
  exact ⟨semantics, c₁, c₂, hsome, hfills, hsave ▸ hflow⟩

/-- What lifting an instruction does to the state of the exploration. -/
structure Cpu.LiftedTo (c c' : Cpu) : Prop where
  closes : c.Closes c' (.br c.numBlocks)
  cfg : c'.cfg = Function.update c.cfg c.pc (some c.numBlocks)
  fresh : c'.Fresh
  erases : c'.ErasesFinished
  unsolved : c'.opaqueSolving = false
  pending : ∀ ss ∈ c.unexploredPaths, ss ∈ c'.unexploredPaths

namespace Cpu.Fills

variable {c₃ : Cpu}

theorem building (h : c.Fills M semantics c₁ c₂) (h₃ : c₂.SavedAs c₃) : c₃.Building := by
  obtain ⟨path, cfg, vcfg, rfl⟩ := h₃
  exact ⟨h.lifts.building.block, h.lifts.building.lt⟩

theorem insertPoint (h : c.Fills M semantics c₁ c₂) (h₃ : c₂.SavedAs c₃) :
    c₃.insertPoint = c.numBlocks := by
  obtain ⟨path, cfg, vcfg, rfl⟩ := h₃
  exact h.lifts.insertPoint

theorem toDelete (h : c.Fills M semantics c₁ c₂) (h₃ : c₂.SavedAs c₃) : c₃.toDelete = c.toDelete := by
  obtain ⟨path, cfg, vcfg, rfl⟩ := h₃
  exact h.lifts.toDelete

theorem numBlocks (h : c.Fills M semantics c₁ c₂) (h₃ : c₂.SavedAs c₃) :
    c₃.numBlocks = c.numBlocks + 1 := by
  obtain ⟨path, cfg, vcfg, rfl⟩ := h₃
  exact h.lifts.numBlocks

theorem function (h₃ : c₂.SavedAs c₃) : c₃.function = c₂.function := by
  obtain ⟨path, cfg, vcfg, rfl⟩ := h₃
  rfl

theorem others (h : c.Fills M semantics c₁ c₂) (h₃ : c₂.SavedAs c₃) {r : Outcome × Cpu}
    (hflow : controlFlow M inst c₃ = .ok r) (hb : b < c.numBlocks) :
    r.2.function b = c₂.function b := by
  have hnum := h.numBlocks h₃
  rw [← function h₃]
  rcases controlFlow_builds (h.building h₃) hflow with hgoes | hforks
  · refine hgoes.others b ?_
    rw [h.insertPoint h₃]
    exact hb.ne
  · refine hforks.others b ?_ ?_ ?_
    · rw [h.insertPoint h₃]
      exact hb.ne
    · rw [hnum]
      exact (Nat.lt_succ_of_lt hb).ne
    · rw [hnum]
      exact (Nat.lt_succ_of_lt (Nat.lt_succ_of_lt hb)).ne

theorem closes (h : c.Fills M semantics c₁ c₂) (h₃ : c₂.SavedAs c₃) (hc : c.insertPoint < c.numBlocks)
    (hforks : M.forkAtCmovs = true → c₃.ForksMoves M) {r : Outcome × Cpu}
    (hflow : controlFlow M inst c₃ = .ok r) : c.Closes r.2 (.br c.numBlocks) where
  self := (h.others h₃ hflow hc).trans h.self
  others b hb hne := (h.others h₃ hflow hb).trans (h.lifts.others b hne hb.ne)
  toDelete b hb n := by
    rcases controlFlow_erases (h.building h₃) hforks hflow with heq | ⟨_, k, heq⟩
    · rw [heq, h.toDelete h₃]
    · have hne : (b, n) ≠ (c₃.insertPoint, k) := fun hsame =>
        hb.ne ((Prod.mk.inj hsame).1.trans (h.insertPoint h₃))
      rw [heq, h.toDelete h₃, List.mem_append, List.mem_singleton]
      exact or_iff_left hne

theorem erases (h : c.Fills M semantics c₁ c₂) (h₃ : c₂.SavedAs c₃) (hc : c.insertPoint < c.numBlocks)
    (hstraight : Straight (c.function c.insertPoint).insts) (hfresh : c.Fresh)
    (herases : c.ErasesFinished) (hforks : M.forkAtCmovs = true → c₃.ForksMoves M) {r : Outcome × Cpu}
    (hflow : controlFlow M inst c₃ = .ok r) : r.2.ErasesFinished := by
  have hold : ∀ d ∈ c.toDelete, ¬ c.numBlocks ≤ d.1 := fun d hd hle => herases d hd (hfresh _ hle)
  refine (h.closes h₃ hc hforks hflow).erases hstraight herases fun d hd hle => ?_
  rcases controlFlow_erases (h.building h₃) hforks hflow with heq | ⟨hclosed, k, heq⟩
  · rw [heq, h.toDelete h₃] at hd
    exact absurd hle (hold d hd)
  · rw [heq, h.toDelete h₃, List.mem_append, List.mem_singleton] at hd
    rcases hd with hd | rfl
    · exact absurd hle (hold d hd)
    · exact hclosed

theorem fresh (h : c.Fills M semantics c₁ c₂) (h₃ : c₂.SavedAs c₃) (hc : c.insertPoint < c.numBlocks)
    (hfresh : c.Fresh) {r : Outcome × Cpu} (hflow : controlFlow M inst c₃ = .ok r) : r.2.Fresh := by
  have hfresh₂ : c₂.Fresh := h.lifts.fresh hc hfresh
  have hfresh₃ : c₃.Fresh := by
    obtain ⟨path, cfg, vcfg, rfl⟩ := h₃
    exact hfresh₂
  rcases controlFlow_builds (h.building h₃) hflow with hgoes | hforks
  · exact hgoes.fresh (h.building h₃).lt hfresh₃
  · exact hforks.fresh (h.building h₃).lt hfresh₃

/-- The paths that were pending stay pending. -/
theorem pending (h : c.Fills M semantics c₁ c₂) (h₃ : c₂.SavedAs c₃) {r : Outcome × Cpu}
    (hflow : controlFlow M inst c₃ = .ok r) : ∀ ss ∈ c.unexploredPaths, ss ∈ r.2.unexploredPaths := by
  intro ss hss
  have hpaths : c₃.unexploredPaths = c.unexploredPaths := by
    obtain ⟨path, cfg, vcfg, rfl⟩ := h₃
    exact h.enters.unexploredPaths
  rcases (controlFlow_advances hflow).2.unexploredPaths with heq | ⟨ss', heq, _⟩
  · rwa [heq, hpaths]
  · rw [heq, hpaths]
    exact List.mem_cons_of_mem _ hss

theorem liftedTo (h : c.Fills M semantics c₁ c₂) (hM : M.KeepsUnsolved)
    (hc : c.insertPoint < c.numBlocks) (hstraight : Straight (c.function c.insertPoint).insts)
    (hfresh : c.Fresh) (herases : c.ErasesFinished) (hunsolved : c.opaqueSolving = false)
    {r : Outcome × Cpu} (hflow : controlFlow M inst c₂.saved = .ok r) : c.LiftedTo r.2 := by
  have hunsolved₂ := h.unsolved hunsolved hM
  have h₃ := c₂.saved_savedAs
  have hforks : M.forkAtCmovs = true → c₂.saved.ForksMoves M := fun _ => .of_unsolved hunsolved₂
  refine ⟨h.closes h₃ hc hforks hflow, ?_, h.fresh h₃ hc hfresh hflow,
    h.erases h₃ hc hstraight hfresh herases hforks hflow,
    controlFlow_unsolved hM (c := c₂.saved) hunsolved₂ hflow, h.pending h₃ hflow⟩
  rw [(controlFlow_advances hflow).2.cfg]
  show Function.update c₂.cfg c₂.pc (some c₂.block) = _
  rw [h.enters.cfg, h.enters.pc, h.enters.block]

theorem exits (h : c.Fills M semantics c₁ c₂) (h₃ : c₂.SavedAs c₃) : c₃.exits c' = c.exits c' := by
  obtain ⟨path, cfg, vcfg, rfl⟩ := h₃
  exact Cpu.exits_congr h.enters.unexploredPaths

/-- The block keeps its program counter and its accesses. -/
theorem keepsLabels (h : c.Fills M semantics c₁ c₂) (h₃ : c₂.SavedAs c₃) {r : Outcome × Cpu}
    (hflow : controlFlow M inst c₃ = .ok r) : ∃ insts targets, r.2.function c.numBlocks
      = { c₂.function c.numBlocks with insts := insts, targets := targets } := by
  obtain ⟨insts, targets, hlabels⟩ := Cpu.KeepsLabels.controlFlow (h.building h₃) hflow
  rw [h.insertPoint h₃, function h₃] at hlabels
  exact ⟨insts, targets, hlabels⟩

theorem keepsPc (h : c.Fills M semantics c₁ c₂) (h₃ : c₂.SavedAs c₃) {r : Outcome × Cpu}
    (hflow : controlFlow M inst c₃ = .ok r) : (r.2.function c.numBlocks).pc = some c.pc := by
  obtain ⟨insts, targets, hlabels⟩ := h.keepsLabels h₃ hflow
  rw [hlabels]
  exact h.emulates.pc

/-- **The block of an instruction** leads where the program goes, whenever every access goes to an address
its code was made for, and the program where the path went on. -/
theorem leads (h : c.Fills M semantics c₁ c₂) (h₃ : c₂.SavedAs c₃)
    (hmoves : M.forkAtCmovs = true → M.StoresMovesLast) (hfresh : c.Fresh) (herases : c.ErasesFinished)
    (hforks : M.forkAtCmovs = true → c₃.ForksMoves M) (hsome : M.liftIntoBlock inst = some semantics)
    {r : Outcome × Cpu} (hflow : controlFlow M inst c₃ = .ok r) (hstatus : r.1.status = .successful)
    {s : IrState Name} (haccesses : Covered semantics.insts (r.2.function c.numBlocks).resolutions
      (Semantics.entry c.pc s.mem))
    (htarget : inst.target (semantics.effect c.pc s.mem) ∈ c.exits r.2) :
    Arrives r.2.emitted r.2.leaves r.2.cfg (inst.target (semantics.effect c.pc s.mem))
      (semantics.effect c.pc s.mem) (c.numBlocks, s) [c.pc] := by
  have hinsert := h.insertPoint h₃
  have hfunction := function h₃
  obtain ⟨insts, targets, hlabels⟩ := h.keepsLabels h₃ hflow
  have hcovered : Covered semantics.insts (c₂.function c.numBlocks).resolutions
      (Semantics.entry c.pc s.mem) := by
    have hresolutions := congrArg BasicBlock.resolutions hlabels
    rw [← show _ = (c₂.function c.numBlocks).resolutions from hresolutions]
    exact haccesses
  obtain ⟨hmem, hholds⟩ := h.emulates.entered hcovered
  set u := execAll (c₂.function c.numBlocks).insts s
  have hentered : c₃.Entered s u := by
    refine ⟨h.building h₃, ?_, fun d hd => ?_, ?_⟩
    · rw [hinsert, hfunction]
      exact h.lifts.straight
    · rw [hinsert]
      exact Nat.lt_of_not_le fun hle => herases d (h.toDelete h₃ ▸ hd) (hfresh _ hle)
    · rw [hinsert, hfunction]
  have hblock : c₃.block = c.numBlocks := by
    obtain ⟨path, cfg, vcfg, rfl⟩ := h₃
    exact h.lifts.block
  have hholds₂ : HoldsVariables (semantics.types c.numBlocks c.pc) u
      (c₃.function c₃.block).insts := by
    rw [hblock, hfunction]
    exact hholds
  have hleads := hentered.controlFlow hforks hholds₂ ?_ hflow hstatus ?_
  · rw [hmem] at hleads
    have hpcs : (c₃.function c₃.insertPoint).pc.toList = [c.pc] := by
      rw [hinsert, hfunction, h.emulates.pc]
      rfl
    rw [Cpu.Leads, hpcs, hinsert] at hleads
    exact hleads
  · intro hcategory hcmov hon
    obtain ⟨move, hmove, htail⟩ := hmoves hon inst semantics hsome hcategory hcmov c.numBlocks c.pc
    obtain ⟨rs, code, hrun, rfl, rfl⟩ := h.emulates.run
    have hcode : c₃.code = (c₂.function c.numBlocks).insts := by
      rw [Cpu.code, hinsert, hfunction]
    have hlowers := runBlock_lowers hrun
    have hlength := runBlock_length hrun
    rw [← hcode] at hlowers hlength
    exact hlowers.moveRun hlength hcovered hmove htail
  · rw [hmem, h.exits h₃]
    exact htarget

/-- **The block of an instruction** goes on where the program goes, whenever it was made for what the
program does. -/
theorem continues (h : c.Fills M semantics c₁ c₂) (h₃ : c₂.SavedAs c₃)
    (hmoves : M.forkAtCmovs = true → M.StoresMovesLast)
    (hfresh : c.Fresh) (herases : c.ErasesFinished) (hunsolved : c₃.opaqueSolving = false)
    (hpc : c.pc ≠ 0) (hprogram : program c.pc = some inst) (hsome : M.liftIntoBlock inst = some semantics)
    {r : Outcome × Cpu} (hflow : controlFlow M inst c₃ = .ok r)
    (hstatus : r.1.status = .successful) : r.2.Continues M program r.2.leaves c.pc c.numBlocks := by
  refine ⟨hpc, ⟨inst, semantics, hprogram, hsome, fun s hforesees => ?_⟩, h.keepsPc h₃ hflow⟩
  have hexits : inst.target (semantics.effect c.pc s.mem) ∈ c₃.exits r.2 := by
    refine controlFlow_exits_unsolved (h.building h₃) hunsolved hflow hstatus fun hcategory => ?_
    rw [h.insertPoint h₃]
    exact hforesees.target hcategory
  rw [h.exits h₃] at hexits
  exact h.leads h₃ hmoves hfresh herases (fun _ => .of_unsolved hunsolved) hsome hflow hstatus
    hforesees.accesses hexits

/-- **The accesses** of the block go where it was made for, wherever the visit it is lifted in admits what
the program does. -/
theorem covered (hS : M.solver.Sound) (hA : M.solver.Answers) (h : c.Fills M semantics c₁ c₂)
    (h₃ : c₂.SavedAs c₃) (hwf : c.symex.context.memory.WF) {r : Outcome × Cpu}
    (hflow : controlFlow M inst c₃ = .ok r) (hadmits : c.Admits M inst semantics m) :
    Covered semantics.insts (r.2.function c.numBlocks).resolutions (Semantics.entry c.pc m) := by
  obtain ⟨insts, targets, hlabels⟩ := h.keepsLabels h₃ hflow
  rw [hlabels]
  by_cases hsat : ∃ ν, Satisfies ν c.pathConstraints
  · exact h.emulates.covered_of_shares hS hA hwf h.opens (hadmits.shares hsat)
  · exact h.emulates.covered_of_literals hS hsat h.opens (hadmits.literals hsat)

/-- **The target** of an indirect jump is one the block has, wherever the visit admits it. -/
theorem target_mem (hS : M.solver.Sound) (hA : M.solver.Answers) (h : c.Fills M semantics c₁ c₂)
    (h₃ : c₂.SavedAs c₃) (hwf : c.symex.context.memory.WF) (hcategory : inst.category = .indirectJump)
    {next : DualValue} (hnext : getNextPc c₃ = .ok next) {targets : List Addr}
    (hfinds : JumpFinds M next c₃ targets) (hadmits : c.Admits M inst semantics m) :
    inst.target (semantics.effect c.pc m) ∈ targets := by
  have hfunction := function h₃
  have hblock : c₃.block = c.numBlocks := (h.building h₃).block.trans (h.insertPoint h₃)
  have hsymex : c₃.symex = c₂.symex := by
    obtain ⟨path, cfg, vcfg, rfl⟩ := h₃
    rfl
  have hconstraints : c₃.pathConstraints = c.pathConstraints := by
    obtain ⟨path, cfg, vcfg, rfl⟩ := h₃
    exact h.emulates.pathConstraints
  by_cases hsat : ∃ ν, Satisfies ν c.pathConstraints
  · -- the target is one of the path
    obtain ⟨m', ⟨ν, σ, hσ, hν, hm'⟩, htarget⟩ := (hadmits.shares hsat).target hcategory
    obtain ⟨hden, hmem, hholds⟩ := h.emulates.denotes hS hA hσ hν h.opens (t := ⟨fun _ => 0, m'⟩)
      ⟨hm', hwf⟩
    have hfound := hfinds.mem_of_satisfies hS hA (hconstraints ▸ hν) (hsymex ▸ hden)
      (by rw [hblock, hfunction]; exact hholds) hnext
    rw [hmem] at hfound
    rw [← htarget, Instruction.target, hcategory]
    exact hfound
  · have hliterals := hadmits.literals hsat
    obtain ⟨rs, code, hrun, hcode, _⟩ := h.emulates.run
    refine hfinds.mem_of_literals hS (hconstraints ▸ hsat) hnext fun w value hlast => ?_
    have hstored : lastStore .nextPc code = lastStore .nextPc (semantics.inBlock c.numBlocks c.pc) :=
      (runBlock_lowers hrun).lastStore_eq trivial
    rw [hblock, hfunction, hcode, hstored] at hlast
    rw [hsymex]
    exact hliterals.target hcategory _ _ h.opens.symex hrun w value hlast

/-- **The block of an instruction** was made for what the program does wherever the visit it is lifted in
admits this. -/
theorem foresees (hS : M.solver.Sound) (hA : M.solver.Answers) (h : c.Fills M semantics c₁ c₂)
    (h₃ : c₂.SavedAs c₃) (hwf : c.symex.context.memory.WF) (hunsolved : c₃.opaqueSolving = false)
    {r : Outcome × Cpu} (hflow : controlFlow M inst c₃ = .ok r) (hstatus : r.1.status = .successful)
    (hadmits : c.Admits M inst semantics m) :
    (r.2.function c.numBlocks).Foresees inst semantics c.pc m := by
  refine ⟨h.covered hS hA h₃ hwf hflow hadmits, fun hcategory => ?_⟩
  have hjump : indirectJump M c₃ = .ok r := by
    rcases controlFlow_cases hflow with ⟨hbranch, _⟩ | ⟨hdirect, _⟩ | ⟨_, hjump⟩ | ⟨hnormal, _⟩ |
      ⟨hnormal, _⟩
    · cases hbranch.symm.trans hcategory
    · cases hdirect.symm.trans hcategory
    · exact hjump
    · cases hnormal.symm.trans hcategory
    · cases hnormal.symm.trans hcategory
  obtain ⟨next, hnext, hfinds, _⟩ := indirectJump_targets (h.building h₃) hunsolved hjump hstatus
  rw [h.insertPoint h₃] at hfinds
  exact h.target_mem hS hA h₃ hwf hcategory hnext hfinds hadmits

end Cpu.Fills

/-! ### Runs -/

section

variable (M program s₀ p₀)

/-- What is known while the loop of `cpu::run` goes on. -/
structure Merging (c : Cpu) : Prop where
  fresh : c.Fresh
  erases : c.ErasesFinished
  unsolved : c.opaqueSolving = false
  merges : Merges M program s₀ p₀ c.leaves c

/-- The block was lifted for the program counter in one of these calls, before which there was none, and was
made for what the program does from every memory the call admits. -/
def Recalled (calls : List Cpu) (pc : Addr) (block : BasicBlock) : Prop :=
  ∃ call ∈ calls, call.pc = pc ∧ call.cfg pc = none ∧
    ∀ inst semantics m, program pc = some inst → M.liftIntoBlock inst = some semantics →
      call.Admits M inst semantics m → block.Foresees inst semantics pc m

/-- So was every block of the map. -/
def Recalls (calls : List Cpu) (c : Cpu) : Prop :=
  ∀ pc b, c.cfg pc = some b → Recalled M program calls pc (c.function b)

end

theorem Recalled.mono {calls calls' : List Cpu} {block : BasicBlock} (h : Recalled M program calls pc block)
    (hcalls : ∀ call ∈ calls, call ∈ calls') (insts : List (Inst Name)) :
    Recalled M program calls' pc { block with insts := insts } := by
  obtain ⟨call, hmem, hpc, hnone, hforesees⟩ := h
  refine ⟨call, hcalls call hmem, hpc, hnone, fun inst semantics m hprogram hsome hadmits => ?_⟩
  have h := hforesees inst semantics m hprogram hsome hadmits
  exact ⟨h.accesses, h.target⟩

namespace Cpu.LiftedTo

theorem cfg_cases (h : c.LiftedTo c') (hb : c'.cfg pc = some b) :
    (pc = c.pc ∧ b = c.numBlocks) ∨ c.cfg pc = some b := by
  rw [h.cfg] at hb
  by_cases heq : pc = c.pc
  · subst heq
    rw [Function.update_self] at hb
    exact .inl ⟨rfl, (Option.some.inj hb).symm⟩
  · rw [Function.update_of_ne heq] at hb
    exact .inr hb

theorem builds (h : c.LiftedTo c') (hbuilt : Built c (c.insertPoint :: (c.pendingBlocks ++ rest)))
    (hmaps : c.MapsBuilt) (hfresh : c.Fresh) (herases : c.ErasesFinished) (hnew : c.cfg c.pc = none) :
    c.Builds c' c'.leaves := by
  have hself : c'.cfg c.pc = some c.numBlocks := by
    rw [h.cfg, Function.update_self]
  refine h.closes.builds hbuilt hmaps hfresh herases (fun pc b hb => ?_) (.inr ⟨_, rfl, hself⟩)
    fun ss hss => ?_
  · rw [h.cfg, Function.update_of_ne, hb]
    rintro rfl
    rw [hnew] at hb
    cases hb
  · exact List.mem_cons_of_mem _ (List.mem_map_of_mem (h.pending ss hss))

end Cpu.LiftedTo

/-- A call that goes on with the current path lifts an instruction at a program counter that was not lifted
before. -/
theorem processInstruction_fills (hmode : M.mode = .cfgRecovery) (hpolicy : M.joinPolicy = .mergeByPc)
    (hdecode : M.DecodesFrom program) (hc : c.insertPoint < c.numBlocks)
    (hcall : processInstruction M c = .ok (outcome, c')) (hstatus : outcome.status = .successful) :
    c.pc ≠ 0 ∧ c.cfg c.pc = none ∧ ∃ inst semantics c₁ c₂, program c.pc = some inst ∧
      M.liftIntoBlock inst = some semantics ∧ c.Fills M semantics c₁ c₂ ∧
      controlFlow M inst c₂.saved = .ok (outcome, c') := by
  rcases processInstruction_cases hcall with ⟨rfl, _, _⟩ | ⟨_, _, rfl, _⟩ |
    ⟨hpc, c₁, hnone, ⟨rfl, _⟩ | ⟨inst, hinst, hlift⟩⟩
  · cases hstatus
  · cases hstatus
  · cases hstatus
  rw [cfgRecovery, hmode, hpolicy] at hnone
  simp only at hnone
  split at hnone
  · cases hnone
  next hnew =>
  obtain ⟨_, rfl⟩ := Prod.mk.inj hnone
  obtain ⟨semantics, c₁, c₂, hsome, hfills, hflow⟩ := liftInstruction_fills hmode hpolicy hc hlift hstatus
  exact ⟨hpc, hnew, inst, semantics, c₁, c₂, hdecode _ _ _ hinst, hsome, hfills, hflow⟩

/-- **One call** that goes on with the current path. -/
theorem Merging.call (hmode : M.mode = .cfgRecovery) (hpolicy : M.joinPolicy = .mergeByPc)
    (hM : M.KeepsUnsolved) (hmoves : M.forkAtCmovs = true → M.StoresMovesLast)
    (hdecode : M.DecodesFrom program)
    (hbuilt : Built c (c.insertPoint :: (c.pendingBlocks ++ rest))) (hmaps : c.MapsBuilt)
    (h : Merging M program s₀ p₀ c) (hcall : processInstruction M c = .ok (outcome, c'))
    (hstatus : outcome.status = .successful) : Merging M program s₀ p₀ c' := by
  have hc := hbuilt.lt _ (List.mem_cons_self ..)
  have hstraight := hbuilt.straight _ (List.mem_cons_self ..)
  obtain ⟨hpc, hnew, inst, semantics, c₁, c₂, hprogram, hsome, hfills, hflow⟩ :=
    processInstruction_fills hmode hpolicy hdecode hc hcall hstatus
  have hlifted := hfills.liftedTo hM hc hstraight h.fresh h.erases h.unsolved hflow
  have hcontinues := hfills.continues c₂.saved_savedAs hmoves h.fresh h.erases
    (hfills.unsolved h.unsolved hM) hpc hprogram hsome hflow hstatus
  have hbuilds := hlifted.builds hbuilt hmaps h.fresh h.erases hnew
  refine ⟨hlifted.fresh, hlifted.erases, hlifted.unsolved, h.merges.of_builds hbuilds fun pc b hb => ?_⟩
  rcases hlifted.cfg_cases hb with ⟨rfl, rfl⟩ | hold
  · exact .inr hcontinues
  · exact .inl hold

/-- The call is what its block is recalled by. -/
theorem Recalls.call (hS : M.solver.Sound) (hA : M.solver.Answers) (hmode : M.mode = .cfgRecovery)
    (hpolicy : M.joinPolicy = .mergeByPc) (hM : M.KeepsUnsolved) (hdecode : M.DecodesFrom program)
    (hbuilt : Built c (c.insertPoint :: (c.pendingBlocks ++ rest))) (hmaps : c.MapsBuilt)
    (hwf : c.symex.context.memory.WF) (hmerging : Merging M program s₀ p₀ c) {calls : List Cpu}
    (h : Recalls M program calls c) (hcall : processInstruction M c = .ok (outcome, c'))
    (hstatus : outcome.status = .successful) : Recalls M program (calls ++ [c]) c' := by
  have hc := hbuilt.lt _ (List.mem_cons_self ..)
  have hstraight := hbuilt.straight _ (List.mem_cons_self ..)
  obtain ⟨_, hnew, inst, semantics, c₁, c₂, hprogram, hsome, hfills, hflow⟩ :=
    processInstruction_fills hmode hpolicy hdecode hc hcall hstatus
  have hlifted := hfills.liftedTo hM hc hstraight hmerging.fresh hmerging.erases hmerging.unsolved hflow
  intro pc b hb
  rcases hlifted.cfg_cases hb with ⟨rfl, rfl⟩ | hold
  · refine ⟨c, List.mem_append_right _ (List.mem_singleton_self c), rfl, hnew,
      fun inst' semantics' m hprogram' hsome' hadmits => ?_⟩
    obtain rfl := Option.some.inj (hprogram.symm.trans hprogram')
    obtain rfl := Option.some.inj (hsome.symm.trans hsome')
    exact hfills.foresees hS hA c₂.saved_savedAs hwf (hfills.unsolved hmerging.unsolved hM) hflow hstatus
      hadmits
  · have hbuilds := hlifted.builds hbuilt hmaps hmerging.fresh hmerging.erases hnew
    obtain ⟨insts, hnotes⟩ := hbuilds.notes pc b hold
    rw [hnotes]
    exact (h pc b hold).mono (fun call hmem => List.mem_append_left _ hmem) insts

/-- A path ends at zero with a return, and at a program counter lifted before with an edge. -/
theorem finishPath_merge (hmode : M.mode = .cfgRecovery) (hpolicy : M.joinPolicy = .mergeByPc)
    (hcall : processInstruction M c = .ok (outcome, c'))
    (hended : outcome = .functionEnded ∨ ∃ target, outcome = .edgeRebuilt target) :
    ∃ last, finishPath outcome c' = c.create last ∧
      ((last = .ret ∧ c.pc = 0) ∨ ∃ d, last = .br d ∧ c.cfg c.pc = some d) := by
  rcases hended with rfl | ⟨target, rfl⟩
  · rcases processInstruction_cases hcall with ⟨_, hpc, rfl⟩ | ⟨_, _, heq, _⟩ |
      ⟨_, _, _, ⟨heq, _⟩ | ⟨inst, _, hlift⟩⟩
    · exact ⟨.ret, rfl, .inl ⟨rfl, hpc⟩⟩
    · cases heq
    · cases heq
    · obtain ⟨_, _, ⟨heq, _⟩ | ⟨heq, _⟩⟩ := liftInstruction_cases hlift <;> cases heq
  · rcases processInstruction_merge hmode hpolicy hcall with ⟨_, _, _, hedge⟩ | ⟨b, hb, _⟩
    · obtain ⟨hd, rfl⟩ := hedge target rfl
      exact ⟨_, rfl, .inr ⟨target, rfl, hd⟩⟩
    · cases hb

theorem Merging.builds (hbuilt : Built c (c.insertPoint :: (c.pendingBlocks ++ rest)))
    (hmaps : c.MapsBuilt) (h : Merging M program s₀ p₀ c)
    (hlast : (last = .ret ∧ c.pc = 0) ∨ ∃ d, last = .br d ∧ c.cfg c.pc = some d)
    (hopened : ∀ ss ∈ c.unexploredPaths, (ss.bb, ss.pc) ∈ opened') :
    Merges M program s₀ p₀ opened' (c.create last) :=
  h.merges.of_builds ((Cpu.Closes.create c last).builds hbuilt hmaps h.fresh h.erases
    (fun _ _ hb => hb) hlast hopened) fun _ _ hb => .inl hb

variable {calls : List Cpu} {ended : List PathEnd}

section

variable (hmode : M.mode = .cfgRecovery) (hpolicy : M.joinPolicy = .mergeByPc) (hM : M.KeepsUnsolved)
  (hmoves : M.forkAtCmovs = true → M.StoresMovesLast) (hdecode : M.DecodesFrom program)
  (hbuilt₀ : Built c₀ (c₀.insertPoint :: c₀.pendingBlocks)) (hmaps₀ : c₀.MapsBuilt)
  (h₀ : Merging M program s₀ p₀ c₀)
include hmode hpolicy hM hmoves hdecode hbuilt₀ hmaps₀ h₀

/-- **Along every run** all of whose paths ended at program counter zero or at an edge. -/
theorem Merging.explores (h : Explores M c₀ calls ended c)
    (hended : ∀ e ∈ ended, e.outcome = .functionEnded ∨ ∃ target, e.outcome = .edgeRebuilt target) :
    Merging M program s₀ p₀ c := by
  induction h with
  | start => exact h₀
  | successful hexplores hcall hstatus ih =>
    obtain ⟨hmaps, hbuilt⟩ := Built.explores hbuilt₀ hmaps₀ hexplores
    exact (ih hended).call hmode hpolicy hM hmoves hdecode hbuilt hmaps hcall hstatus
  | explore hexplores hcall hstatus hpaths ih =>
    rename_i calls ended c c' outcome before after path
    have hmerging := ih fun e he => hended e (List.mem_append_left _ he)
    obtain ⟨hmaps, hbuilt⟩ := Built.explores hbuilt₀ hmaps₀ hexplores
    obtain ⟨last, hfinish, hlast⟩ := finishPath_merge hmode hpolicy hcall
      (hended _ (List.mem_append_right _ (List.mem_singleton_self _)))
    have hc := hbuilt.lt _ (List.mem_cons_self ..)
    have hpending : c.unexploredPaths = before ++ path :: after := by
      rw [← hpaths, ← finishPath_unexploredPaths outcome c', hfinish]
      rfl
    rw [hfinish]
    have herases : (c.create last).ErasesFinished := by
      refine (Cpu.Closes.create c last).erases (hbuilt.straight _ (List.mem_cons_self ..))
        hmerging.erases fun d hd hle => ?_
      exact absurd (hmerging.fresh _ hle) (hmerging.erases d hd)
    refine ⟨fun b hb => ?_, herases, hmerging.unsolved,
      Merges.of_eq (c := c.create last) ?_ rfl rfl rfl⟩
    · show Straight ((c.create last).function b).insts
      rw [Cpu.function_create_of_ne c last (hc.trans_le hb).ne']
      exact hmerging.fresh b hb
    · refine hmerging.builds hbuilt hmaps hlast fun ss hss => ?_
      -- the path that goes on, or one that is still pending
      rw [hpending] at hss
      rcases List.mem_append.mp hss with hss | hss
      · exact List.mem_cons_of_mem _ (List.mem_map_of_mem (List.mem_append_left _ hss))
      · rcases List.mem_cons.mp hss with rfl | hss
        · exact List.mem_cons_self ..
        · exact List.mem_cons_of_mem _ (List.mem_map_of_mem (List.mem_append_right _ hss))

/-- **In the function that is left** no block is open. -/
theorem Merging.returns (h : Returns M c₀ calls ended c)
    (hended : ∀ e ∈ ended, e.outcome = .functionEnded ∨ ∃ target, e.outcome = .edgeRebuilt target) :
    Merges M program s₀ p₀ [] c := by
  cases h with
  | last hexplores hcall hstatus hpaths =>
    rename_i calls ended c c' outcome
    have hmerging := Merging.explores hmode hpolicy hM hmoves hdecode hbuilt₀ hmaps₀ h₀ hexplores
      fun e he => hended e (List.mem_append_left _ he)
    obtain ⟨hmaps, hbuilt⟩ := Built.explores hbuilt₀ hmaps₀ hexplores
    obtain ⟨last, hfinish, hlast⟩ := finishPath_merge hmode hpolicy hcall
      (hended _ (List.mem_append_right _ (List.mem_singleton_self _)))
    have hpending : c.unexploredPaths = [] := by
      rw [← hpaths, ← finishPath_unexploredPaths outcome c', hfinish]
      rfl
    rw [hfinish]
    refine hmerging.builds hbuilt hmaps hlast fun ss hss => ?_
    rw [hpending] at hss
    cases hss

end

/-- A terminator is put at the end of the current block, and nothing else changes. -/
theorem Cpu.create_notes (c : Cpu) (last : Inst Name) (b : BlockId) :
    ∃ insts, (c.create last).function b = { c.function b with insts := insts } := by
  by_cases hb : b = c.insertPoint
  · exact ⟨_, hb ▸ c.function_create_self last⟩
  · exact ⟨_, c.function_create_of_ne last hb⟩

theorem Recalls.create (h : Recalls M program calls c) (last : Inst Name) {calls' : List Cpu}
    (hcalls : ∀ call ∈ calls, call ∈ calls') : Recalls M program calls' (c.create last) := by
  intro pc b hb
  obtain ⟨insts, hnotes⟩ := c.create_notes last b
  rw [hnotes]
  exact (h pc b hb).mono hcalls insts

section

variable (hS : M.solver.Sound) (hA : M.solver.Answers) (hR : M.RegistersFit)
  (hmode : M.mode = .cfgRecovery) (hpolicy : M.joinPolicy = .mergeByPc) (hM : M.KeepsUnsolved)
  (hmoves : M.forkAtCmovs = true → M.StoresMovesLast) (hdecode : M.DecodesFrom program)
  (hbuilt₀ : Built c₀ (c₀.insertPoint :: c₀.pendingBlocks)) (hmaps₀ : c₀.MapsBuilt)
  (hregular₀ : c₀.Regular) (hmerging₀ : Merging M program s₀ p₀ c₀) (h₀ : Recalls M program [] c₀)
include hS hA hR hmode hpolicy hM hmoves hdecode hbuilt₀ hmaps₀ hregular₀ hmerging₀ h₀

/-- **Along every run** each block is recalled by the call it was lifted in. -/
theorem Recalls.explores (h : Explores M c₀ calls ended c)
    (hended : ∀ e ∈ ended, e.outcome = .functionEnded ∨ ∃ target, e.outcome = .edgeRebuilt target) :
    Recalls M program calls c := by
  induction h with
  | start => exact h₀
  | successful hexplores hcall hstatus ih =>
    obtain ⟨hmaps, hbuilt⟩ := Built.explores hbuilt₀ hmaps₀ hexplores
    have hmerging := Merging.explores hmode hpolicy hM hmoves hdecode hbuilt₀ hmaps₀ hmerging₀ hexplores
      hended
    have hwf := (Cpu.Regular.explores hS hR hregular₀ hbuilt₀ hmaps₀ hexplores).symex.wf
    exact (ih hended).call hS hA hmode hpolicy hM hdecode hbuilt hmaps hwf hmerging hcall hstatus
  | explore hexplores hcall hstatus hpaths ih =>
    obtain ⟨last, hfinish, _⟩ := finishPath_merge hmode hpolicy hcall
      (hended _ (List.mem_append_right _ (List.mem_singleton_self _)))
    rw [hfinish]
    exact (ih fun e he => hended e (List.mem_append_left _ he)).create last fun call hmem =>
      List.mem_append_left _ hmem

theorem Recalls.returns (h : Returns M c₀ calls ended c)
    (hended : ∀ e ∈ ended, e.outcome = .functionEnded ∨ ∃ target, e.outcome = .edgeRebuilt target) :
    Recalls M program calls c := by
  cases h with
  | last hexplores hcall hstatus hpaths =>
    obtain ⟨last, hfinish, _⟩ := finishPath_merge hmode hpolicy hcall
      (hended _ (List.mem_append_right _ (List.mem_singleton_self _)))
    rw [hfinish]
    exact (Recalls.explores hS hA hR hmode hpolicy hM hmoves hdecode hbuilt₀ hmaps₀ hregular₀ hmerging₀ h₀
      hexplores fun e he => hended e (List.mem_append_left _ he)).create last fun call hmem =>
        List.mem_append_left _ hmem

end

/-! ### The program -/

section

variable (M program)

/-- A run of a program whose steps start in states with `P`. -/
inductive ExecutesWithin (P : Addr × Bytes → Prop) (p₀ : Addr × Bytes) :
    List Addr → Addr × Bytes → Prop
  | start : ExecutesWithin P p₀ [] p₀
  | step {pcs : List Addr} {p p' : Addr × Bytes} {inst : Instruction} {semantics : Semantics} :
      ExecutesWithin P p₀ pcs p → P p → ProgramStep M program inst semantics p p' →
      ExecutesWithin P p₀ (pcs ++ [p.1]) p'

/-- The block lifted for the program counter was made for what the program does from here: every access
goes to an address, and an indirect jump to a target, that was found for it then. -/
def Cpu.Foresees (c : Cpu) (p : Addr × Bytes) : Prop :=
  ∀ b inst semantics, c.cfg p.1 = some b → program p.1 = some inst →
    M.liftIntoBlock inst = some semantics → (c.function b).Foresees inst semantics p.1 p.2

/-- The call that lifts the program counter of `p` admits what the program does from `p`: it is the one
before which there is no block for it. -/
def Admitted (calls : List Cpu) (p : Addr × Bytes) : Prop :=
  ∀ call ∈ calls, call.pc = p.1 → call.cfg p.1 = none → ∀ inst semantics, program p.1 = some inst →
    M.liftIntoBlock inst = some semantics → call.Admits M inst semantics p.2

end

/-- **What was admitted was foreseen.** -/
theorem Recalls.foresees {calls : List Cpu} (h : Recalls M program calls c)
    (hadmitted : Admitted M program calls p) : c.Foresees M program p := by
  intro b inst semantics hb hprogram hsome
  obtain ⟨call, hmem, hpc, hnone, hforesees⟩ := h p.1 b hb
  exact hforesees inst semantics p.2 hprogram hsome
    (hadmitted call hmem hpc hnone inst semantics hprogram hsome)

/-- The function, entered in `s₀`, has visited the program counters the program has, and has its memory:
it stands at a block for the program counter of the program, or it returns where the program stops. -/
def Replays (f : Function) (s₀ : IrState Name) (pcs : List Addr) (p : Addr × Bytes) : Prop :=
  (p.1 ≠ 0 → ∃ b t, Visits f (0, s₀) pcs (b, t) ∧ (f b).pc = some p.1 ∧ t.mem = p.2) ∧
  (p.1 = 0 → ∃ pcs' b t t', Visits f (0, s₀) pcs' (b, t) ∧ execInsts (f b).insts t = (t', some .ret) ∧
    pcs' ++ (f b).pc.toList = pcs ∧ t'.mem = p.2)

theorem Visits.trans {f : Function} {x y z : BlockId × IrState Name} {pcs' : List Addr}
    (h : Visits f x pcs y) (h' : Visits f y pcs' z) : Visits f x (pcs ++ pcs') z := by
  induction h' with
  | refl => rwa [List.append_nil]
  | step _ hexec ih =>
    rw [← List.append_assoc]
    exact (ih h).step hexec

/-- Control is on the way from a block to where the program is. -/
def Comes (f : Function) (cfg : Addr → Option BlockId) (s₀ : IrState Name) (pcs : List Addr)
    (p : Addr × Bytes) : Prop :=
  ∃ x pcs₁ pcs₂, Visits f (0, s₀) pcs₁ x ∧ Arrives f [] cfg p.1 p.2 x pcs₂ ∧ pcs₁ ++ pcs₂ = pcs

theorem Comes.replays {f : Function} {cfg : Addr → Option BlockId} (h : Comes f cfg s₀ pcs p)
    (hsaved : ∀ pc b, cfg pc = some b → pc ≠ 0 ∧ (f b).pc = some pc) : Replays f s₀ pcs p := by
  obtain ⟨x, pcs₁, pcs₂, hvisits, harrives, rfl⟩ := h
  rcases harrives.closed with ⟨d, t, hvisits', hd, hmem⟩ | ⟨hzero, pcs', d, t, t', hvisits', hret, rfl, hmem⟩
  · obtain ⟨hne, hpc⟩ := hsaved _ d hd
    exact ⟨fun _ => ⟨d, t, hvisits.trans hvisits', hpc, hmem⟩, fun hzero => absurd hzero hne⟩
  · refine ⟨fun hne => absurd hzero hne, fun _ => ⟨_, d, t, t', hvisits.trans hvisits', hret, ?_, hmem⟩⟩
    rw [List.append_assoc]

/-- **One step of the program** from a state that was foreseen. -/
theorem Merges.step (h : Merges M program s₀ p₀ [] c) (hcomes : Comes c.emitted c.cfg s₀ pcs p)
    (hforesees : c.Foresees M program p) {p' : Addr × Bytes}
    (hstep : ProgramStep M program inst semantics p p') :
    Comes c.emitted c.cfg s₀ (pcs ++ [p.1]) p' := by
  obtain ⟨x, pcs₁, pcs₂, hvisits, harrives, rfl⟩ := hcomes
  rcases harrives.closed with ⟨d, t, hvisits', hd, hmem⟩ | ⟨hzero, _⟩
  · obtain ⟨inst', semantics', hprogram, hsome, hnext⟩ := (h.saved _ d hd).arrives
    obtain rfl : inst = inst' := Option.some.inj (hstep.decoded.symm.trans hprogram)
    obtain rfl : semantics = semantics' := Option.some.inj (hstep.lifted.symm.trans hsome)
    have harrives' := hnext t (hmem.symm ▸ hforesees d inst semantics hd hprogram hsome)
    rw [hmem, ← hstep.mem, ← hstep.pc] at harrives'
    exact ⟨(d, t), _, [p.1], hvisits.trans hvisits', harrives', rfl⟩
  · exact absurd hzero hstep.pc_ne

/-- **Along every run of the program.** -/
theorem Merges.comes (h : Merges M program s₀ p₀ [] c)
    (hexecutes : ExecutesWithin M program (c.Foresees M program) p₀ pcs p) :
    Comes c.emitted c.cfg s₀ pcs p := by
  induction hexecutes with
  | start => exact ⟨(0, s₀), [], [], .refl _, h.entry, rfl⟩
  | step _ hforesees hstep ih => exact h.step ih hforesees hstep

/-- Nothing is to be erased at the start. -/
theorem start_erases {layout : Layout} {image : MemPage} {opaqueSolving : Bool}
    (hstart : start M layout image opaqueSolving pc = .ok c₀) : c₀.ErasesFinished := by
  intro d hd
  rw [(start_fresh hstart).2.1] at hd
  cases hd

/-- The entry block comes to where the program starts. -/
theorem start_arrives {layout : Layout} {image : MemPage} {opaqueSolving : Bool}
    (hstart : start M layout image opaqueSolving pc = .ok c₀) (s₀ : IrState Name) :
    Arrives c₀.emitted c₀.leaves c₀.cfg pc (execAll (c₀.function 0).insts s₀).mem (0, s₀) [] := by
  obtain ⟨_, _, hinsert, hentry⟩ := start_fresh hstart
  obtain ⟨hpc, _⟩ := start_eq hstart
  have hstraight : Straight (c₀.function 0).insts := by
    have hbuilt := (start_built hstart).1
    rw [hinsert] at hbuilt
    exact hbuilt.straight 0 (List.mem_cons_self ..)
  have hblock : c₀.emitted 0 = c₀.function 0 := (start_erases hstart).emitted_eq hstraight
  have harrives : Arrives c₀.emitted c₀.leaves c₀.cfg pc (execAll (c₀.function 0).insts s₀).mem
      (0, s₀) (c₀.emitted 0).pc.toList := by
    refine .leaf ?_ ?_ rfl
    · rw [Cpu.leaves, hinsert, hpc]
      exact List.mem_cons_self ..
    · rw [hblock, execInsts_of_straight hstraight]
  rwa [hblock, hentry] at harrives

theorem start_merging {layout : Layout} {image : MemPage} (hstart : start M layout image false pc = .ok c₀)
    (s₀ : IrState Name) :
    Merging M program s₀ (pc, (execAll (c₀.function 0).insts s₀).mem) c₀ := by
  obtain ⟨_, _, _, _, hcfg, _⟩ := start_eq hstart
  have hunsolved : c₀.opaqueSolving = false := by
    simp only [start, Except.bind_eq_ok, Except.pure_eq_ok] at hstart
    obtain ⟨_, _, rfl⟩ := hstart
    rfl
  refine ⟨(start_fresh hstart).1, start_erases hstart, hunsolved, start_arrives hstart s₀,
    fun pc b hb => ?_⟩
  rw [hcfg] at hb
  cases hb

/-- No block is saved at the start. -/
theorem start_recalls {layout : Layout} {image : MemPage} {opaqueSolving : Bool}
    (hstart : start M layout image opaqueSolving pc = .ok c₀) : Recalls M program [] c₀ := by
  obtain ⟨_, _, _, _, hcfg, _⟩ := start_eq hstart
  intro pc b hb
  rw [hcfg] at hb
  cases hb

theorem ExecutesWithin.mono {P Q : Addr × Bytes → Prop} (h : ExecutesWithin M program P p₀ pcs p)
    (hPQ : ∀ p, P p → Q p) : ExecutesWithin M program Q p₀ pcs p := by
  induction h with
  | start => exact .start
  | step _ hp hstep ih => exact ih.step (hPQ _ hp) hstep

/-- `SUB RSP, 8`, with the stack pointer at the start of the registers. -/
def lowerStack : Semantics where
  insts := [.load 0 64 (.state 0), .binary 1 .sub 64 (.ssa 0) (.const 64 8), .store 64 (.ssa 1) (.state 0)]
  typed := by
    simp [Typed, Inst.OperandsTyped, Inst.extend, Inst.result, Operand.width, ByteWidth, Ptr.Loadable,
      Ptr.Storable, Function.update_apply]

/-- `MOV BYTE PTR [RSP], 1`. -/
def writeTop : Semantics where
  insts := [.load 0 64 (.state 0), .writeMemory 1 8 (.ssa 0) (.const 8 1)]
  typed := by
    simp [Typed, Inst.OperandsTyped, Inst.extend, Inst.result, Operand.width, ByteWidth, Ptr.Loadable,
      Function.update_apply]

/-- A program of such instructions, merged with a solver. -/
def merging (program : Program) (S : Solver) : Machine :=
  { Machine.bare S with
    mode := .cfgRecovery
    decodeInstruction := fun pc _ => program pc
    liftIntoBlock := fun inst =>
      if inst.function = "JZ" then some zeroFlagBranch
      else if inst.function = "SUB" then some lowerStack
      else if inst.function = "MOV" then some writeTop
      else some ⟨[], trivial⟩ }

theorem merging_registersFit (program : Program) (S : Solver) : (merging program S).RegistersFit :=
  fun r hr => absurd hr (List.not_mem_nil (a := r))

theorem merging_decodesFrom (program : Program) (S : Solver) :
    (merging program S).DecodesFrom program := fun _ _ _ h => h

theorem empty_image : ∀ k x cell, MemPage.empty.find x = some cell → cell.WFAt k := fun _ _ _ h => by
  cases h

theorem ProgramStep.of_effect (hpc : pc ≠ 0) (hprogram : program pc = some inst)
    (hsome : M.liftIntoBlock inst = some semantics)
    (htarget : inst.target (semantics.effect pc m) = target) :
    ProgramStep M program inst semantics (pc, m) (target, semantics.effect pc m) :=
  ⟨hpc, hprogram, hsome, rfl, htarget.symm⟩

theorem merging_ended {ended : List PathEnd} {outcomes : List Outcome}
    (h : ended.map PathEnd.outcome = outcomes)
    (houtcomes : ∀ o ∈ outcomes, o = .functionEnded ∨ ∃ target, o = .edgeRebuilt target) :
    ∀ e ∈ ended, e.outcome = .functionEnded ∨ ∃ target, e.outcome = .edgeRebuilt target :=
  fun _ he => houtcomes _ (h ▸ List.mem_map_of_mem he)

/-- A store to the top of the stack, repeated while the zero flag is set. -/
def storeLoop : Program := fun pc =>
  if pc = 0x1000 then some ⟨"MOV", .normal, 0, 0, 0x1004⟩
  else if pc = 0x1004 then some ⟨"JZ", .conditionalBranch, 0x1000, 0x1006, 0x1006⟩
  else some ⟨"JMP", .directJump, 0, pc + 5, pc + 5⟩

/-- A state with the flag set. -/
def setFlag : IrState Name := ⟨fun _ => 0, fun _ _ => 1⟩

/-- Memory after the store and the branch behind it. -/
def storeLoopEffect (m : Bytes) : Bytes := zeroFlagBranch.effect 0x1004 (writeTop.effect 0x1000 m)

/-- While the flag is set the program stores again. -/
theorem storeLoop_executes {S : Solver} {P : Addr × Bytes → Prop}
    (hm : Instruction.target ⟨"JZ", .conditionalBranch, 0x1000, 0x1006, 0x1006⟩ (storeLoopEffect m) = 0x1000)
    (hfirst : P (0x1000, m)) (hbranch : P (0x1004, writeTop.effect 0x1000 m))
    (hsecond : P (0x1000, storeLoopEffect m)) :
    ExecutesWithin (merging storeLoop S) storeLoop P (0x1000, m) [0x1000, 0x1004, 0x1000]
      (0x1004, writeTop.effect 0x1000 (storeLoopEffect m)) := by
  have hstores : ∀ m, ProgramStep (merging storeLoop S) storeLoop _ writeTop (0x1000, m)
      (0x1004, writeTop.effect 0x1000 m) := fun m => .of_effect (ne_of_beq_false rfl) rfl rfl rfl
  have hbranches : ProgramStep (merging storeLoop S) storeLoop _ zeroFlagBranch
      (0x1004, writeTop.effect 0x1000 m) (0x1000, storeLoopEffect m) :=
    .of_effect (ne_of_beq_false rfl) rfl rfl hm
  exact ((ExecutesWithin.start.step hfirst (hstores m)).step hbranch hbranches).step hsecond (hstores _)

/-- The call that lifts the store is the first one: later there is a block for it. -/
theorem storeLoop_admitted {S : Solver} {calls : List Cpu} (hpc : c₀.pc = 0x1000)
    (hconstraints : c₀.pathConstraints = []) {m' : Bytes} (hm' : c₀.ComesWith m')
    (hlater : (calls.all fun call => (call.cfg 0x1000).isSome) = true)
    (hsame : writeTop.accesses 0x1000 m = writeTop.accesses 0x1000 m') :
    Admitted (merging storeLoop S) storeLoop (c₀ :: calls) (0x1000, m) := by
  intro call hcall _ hnone inst semantics hprogram hsome
  obtain rfl : (⟨"MOV", .normal, 0, 0, 0x1004⟩ : Instruction) = inst := Option.some.inj hprogram
  obtain rfl : writeTop = semantics := Option.some.inj hsome
  rcases List.mem_cons.mp hcall with rfl | hcall
  · refine ⟨fun _ => .of_accesses hm' ?_ nofun, fun hno => absurd ⟨fun _ => 0, ?_⟩ hno⟩
    · rw [hpc, hsame]
    · rw [hconstraints]
      exact satisfies_nil _
  · have hsome := List.all_eq_true.mp hlater call hcall
    rw [hnone] at hsome
    cases hsome

theorem storeLoop_admitted_branch {S : Solver} {calls : List Cpu} :
    Admitted (merging storeLoop S) storeLoop calls (0x1004, m) := by
  intro call _ _ _ inst semantics hprogram hsome
  obtain rfl : (⟨"JZ", .conditionalBranch, 0x1000, 0x1006, 0x1006⟩ : Instruction) = inst :=
    Option.some.inj hprogram
  obtain rfl : zeroFlagBranch = semantics := Option.some.inj hsome
  exact .of_direct (by decide) (by decide)

/-- The loop is merged. From the memory the entry block leaves, the store goes to the same address both
times, as from a memory of the path. -/
theorem storeLoop_run : ∃ c₀ ended c m,
    start (merging storeLoop .deciding) ⟨0, 8⟩ .empty false 0x1000 = .ok c₀ ∧
    run (merging storeLoop .deciding) ⟨0, 8⟩ .empty false 0x1000 5 = .ok (some (ended, c)) ∧
    ended.map PathEnd.outcome = [.edgeRebuilt 1, .functionEnded] ∧
    c₀.pc = 0x1000 ∧ c₀.pathConstraints = [] ∧
    ((loopCalls (merging storeLoop .deciding) 5 c₀).tail.all fun call => (call.cfg 0x1000).isSome) = true ∧
    (execAll (c₀.function 0).insts setFlag).mem = m ∧
    Instruction.target ⟨"JZ", .conditionalBranch, 0x1000, 0x1006, 0x1006⟩ (storeLoopEffect m) = 0x1000 ∧
    writeTop.accesses 0x1000 m = [-8] ∧ writeTop.accesses 0x1000 (storeLoopEffect m) = [-8] ∧
    writeTop.accesses 0x1000 (c₀.symex.context.memory.denote
      (Valuation.withMemory (fun _ => 0) fun _ _ => 0) (fun _ _ => 0)) = [-8] :=
  ⟨_, _, _, _, rfl, rfl, rfl, rfl, rfl, rfl, rfl, rfl, rfl, rfl, rfl⟩

/-- A branch by the zero flag around a push of the stack pointer, and a store to the top of the stack. -/
def twoStacks : Program := fun pc =>
  if pc = 0x1000 then some ⟨"JZ", .conditionalBranch, 0x1006, 0x1002, 0x1002⟩
  else if pc = 0x1002 then some ⟨"SUB", .normal, 0, 0, 0x1006⟩
  else if pc = 0x1006 then some ⟨"MOV", .normal, 0, 0, 0x100a⟩
  else some ⟨"JMP", .directJump, 0, pc + 5, pc + 5⟩

/-- Where the branch of this program goes. -/
def branchTarget (m : Bytes) : Addr :=
  Instruction.target ⟨"JZ", .conditionalBranch, 0x1006, 0x1002, 0x1002⟩ (zeroFlagBranch.effect 0x1000 m)

/-- With the flag clear the program lowers the stack pointer, stores and stops. -/
theorem twoStacks_executes {S : Solver} (hm : branchTarget m = 0x1002) :
    ∃ pcs m', Executes (merging twoStacks S) twoStacks (0x1000, m) pcs (0, m') ∧ m' stackPage
      = writeTop.effect 0x1006 (lowerStack.effect 0x1002 (zeroFlagBranch.effect 0x1000 m)) stackPage := by
  have hbranches : ProgramStep (merging twoStacks S) twoStacks _ zeroFlagBranch (0x1000, m)
      (0x1002, zeroFlagBranch.effect 0x1000 m) := .of_effect (ne_of_beq_false rfl) rfl rfl hm
  have hlowers := (Executes.start.step hbranches).step (.of_effect (ne_of_beq_false rfl) rfl rfl rfl)
  have hstores := hlowers.step (.of_effect (ne_of_beq_false rfl) rfl rfl rfl)
  have hstops := hstores.step (.of_effect (ne_of_beq_false rfl) rfl rfl rfl)
  have hnext : stackPage ≠ nextPcPage := by decide
  have hkeeps : ∀ m : Bytes, Semantics.effect ⟨[], trivial⟩ 0x100a m stackPage = m stackPage := fun m =>
    Bytes.store_of_ne m hnext 0 8 (0x100a : Addr).toNat
  exact ⟨_, _, hstops, hkeeps _⟩

/-- The state a function returns in, within a number of blocks. -/
def Function.returned (f : Function) : ℕ → BlockId × IrState Name → Option (IrState Name)
  | 0, _ => none
  | n + 1, (b, s) =>
    match execInsts (f b).insts s with
    | (t, some (.goto d)) => f.returned n (d, t)
    | (t, some .ret) => some t
    | _ => none

theorem Visits.returned {f : Function} {x y : BlockId × IrState Name} (h : Visits f x pcs y) {n : ℕ}
    {r : IrState Name} (hr : f.returned n x = some r) : ∃ n, f.returned n y = some r := by
  induction h with
  | refl => exact ⟨n, hr⟩
  | step _ hexec ih =>
    obtain ⟨k, hk⟩ := ih hr
    cases k with
    | zero => cases hk
    | succ k =>
      rw [Function.returned, hexec] at hk
      exact ⟨k, hk⟩

/-- A function returns in one state. -/
theorem Replays.mem_returned {f : Function} (h : Replays f s₀ pcs p) (hp : p.1 = 0) {n : ℕ}
    {r : IrState Name} (hr : f.returned n (0, s₀) = some r) : r.mem = p.2 := by
  obtain ⟨pcs', b, t, t', hvisits, hret, _, hmem⟩ := h.2 hp
  obtain ⟨k, hk⟩ := hvisits.returned hr
  cases k with
  | zero => cases hk
  | succ k =>
    rw [Function.returned, hret] at hk
    rw [← Option.some.inj hk, hmem]

end Vexa
