import Vexa.MergeSimulation
import Vexa.PathHistory

/-!
# Recovery simulates the program

Whatever the mode and the policy, a recovered function is made of one block for each instruction that
was lifted, and a path is joined by an edge to one of them. A block may be entered on other paths than
the one it was lifted on, and a program counter may have several blocks. As long as a path is only
joined to a block of its own program counter, the function goes where the program goes from every block
that was made for what the program does there.

## Main definitions

* `Heads` — where control comes to from the start of a block
* `Cpu.Pursues` — a block goes on as the program does, wherever it was made for it
* `Recovering` — what is known of the lifter while the function is built
* `Foreseen` — every block the function comes to was made for what the program does there

## Main results

* `Recovering.explores`, `Recovering.returns` — along every run of the lifter
* `recoveredFunction_simulates` — the recovered function simulates the program
-/

namespace Vexa

variable {M : Machine} {program : Program} {f g : Function} {s₀ s t u : IrState Name}
  {p₀ p : Addr × Bytes} {m : Bytes} {c c' c₀ c₁ c₂ c₃ : Cpu} {outcome : Outcome} {b d : BlockId}
  {pc target : Addr} {pcs : List Addr} {inst : Instruction} {semantics : Semantics}
  {opened opened' : List (BlockId × Addr)}

/-! ### Where control comes to -/

/-- How control leaves a block with memory `m`: at its end, open for `pc`, by an edge to a block of `pc`,
or by a return with `pc` zero. -/
inductive Function.Leaves (f : Function) (opened : List (BlockId × Addr)) (pc : Addr) (m : Bytes)
    (b : BlockId) (s : IrState Name) : Prop
  | leaf {t : IrState Name} : (b, pc) ∈ opened → execInsts (f b).insts s = (t, none) → t.mem = m →
      Function.Leaves f opened pc m b s
  | edge {d : BlockId} {t : IrState Name} : execInsts (f b).insts s = (t, some (.goto d)) →
      (f d).pc = some pc → t.mem = m → Function.Leaves f opened pc m b s
  | ret {t : IrState Name} : execInsts (f b).insts s = (t, some .ret) → pc = 0 → t.mem = m →
      Function.Leaves f opened pc m b s

/-- From a point control comes, after the program counters listed, to where it leaves a block for `pc`. -/
def Heads (f : Function) (opened : List (BlockId × Addr)) (pc : Addr) (m : Bytes)
    (x : BlockId × IrState Name) (pcs : List Addr) : Prop :=
  ∃ pcs' b s, Visits f x pcs' (b, s) ∧ f.Leaves opened pc m b s ∧ pcs' ++ (f b).pc.toList = pcs

/-- A map whose entries are blocks of their program counters. -/
theorem Arrives.heads {cfg : Addr → Option BlockId} (hcfg : ∀ pc d, cfg pc = some d → (f d).pc = some pc)
    {x : BlockId × IrState Name} (h : Arrives f opened cfg pc m x pcs) : Heads f opened pc m x pcs := by
  induction h with
  | leaf hleaf hexec hmem => exact ⟨[], _, _, .refl _, .leaf hleaf hexec hmem, rfl⟩
  | edge hexec hd hmem => exact ⟨[], _, _, .refl _, .edge hexec (hcfg _ _ hd) hmem, rfl⟩
  | ret hexec hpc hmem => exact ⟨[], _, _, .refl _, .ret hexec hpc hmem, rfl⟩
  | through hexec _ ih =>
    obtain ⟨pcs', b, s, hvisits, hleaves, rfl⟩ := ih
    exact ⟨_, b, s, hvisits.cons hexec, hleaves, List.append_assoc ..⟩

/-- What becomes of a block that is open for `pc`: it stays, or it is closed by an edge to a block of
`pc`, or by a return at zero. -/
inductive LeafJoined (f g : Function) (opened : List (BlockId × Addr)) (b : BlockId) (pc : Addr) : Prop
  | stays : (b, pc) ∈ opened → g b = f b → LeafJoined f g opened b pc
  | edge {d : BlockId} : g b = { f b with insts := (f b).insts ++ [.br d] } → (g d).pc = some pc →
      LeafJoined f g opened b pc
  | ret : g b = { f b with insts := (f b).insts ++ [.ret] } → pc = 0 → LeafJoined f g opened b pc

/-- The block that is left for `pc` is still left for it. -/
theorem Function.Leaves.mono (hext : f.Extends g)
    (hlabels : ∀ d pc, (f d).pc = some pc → (g d).pc = some pc)
    (hopened : ∀ b pc, (b, pc) ∈ opened → LeafJoined f g opened' b pc)
    (h : f.Leaves opened pc m b s) : g.Leaves opened' pc m b s ∧ (g b).pc = (f b).pc := by
  cases h with
  | leaf hleaf hexec hmem =>
    obtain ⟨hstraight, rfl⟩ := straight_of_execInsts hexec
    cases hopened b pc hleaf with
    | stays hleaf' hb =>
      refine ⟨.leaf hleaf' ?_ hmem, by rw [hb]⟩
      rw [hb]
      exact hexec
    | edge hb hd =>
      refine ⟨.edge ?_ hd hmem, by rw [hb]⟩
      rw [hb, execInsts_append hstraight]
      rfl
    | ret hb hpc =>
      refine ⟨.ret ?_ hpc hmem, by rw [hb]⟩
      rw [hb, execInsts_append hstraight]
      rfl
  | edge hexec hd hmem =>
    have hb := hext b (not_straight_of_execInsts hexec)
    refine ⟨.edge ?_ (hlabels _ _ hd) hmem, by rw [hb]⟩
    rw [hb]
    exact hexec
  | ret hexec hpc hmem =>
    have hb := hext b (not_straight_of_execInsts hexec)
    refine ⟨.ret ?_ hpc hmem, by rw [hb]⟩
    rw [hb]
    exact hexec

/-- **What is built later keeps where control comes to.** -/
theorem Heads.mono (hext : f.Extends g) (hlabels : ∀ d pc, (f d).pc = some pc → (g d).pc = some pc)
    (hopened : ∀ b pc, (b, pc) ∈ opened → LeafJoined f g opened' b pc) {x : BlockId × IrState Name}
    (h : Heads f opened pc m x pcs) : Heads g opened' pc m x pcs := by
  obtain ⟨pcs', b, s, hvisits, hleaves, rfl⟩ := h
  obtain ⟨hleaves', hlabel⟩ := hleaves.mono hext hlabels hopened
  exact ⟨pcs', b, s, hvisits.extends hext, hleaves', by rw [hlabel]⟩

/-- **In a finished function** control comes to a block of the program counter, or returns at zero. -/
theorem Heads.closed {x : BlockId × IrState Name} (h : Heads f [] pc m x pcs) :
    (∃ d t, Visits f x pcs (d, t) ∧ (f d).pc = some pc ∧ t.mem = m) ∨
    (pc = 0 ∧ ∃ pcs' d t t', Visits f x pcs' (d, t) ∧ execInsts (f d).insts t = (t', some .ret) ∧
      pcs' ++ (f d).pc.toList = pcs ∧ t'.mem = m) := by
  obtain ⟨pcs', b, s, hvisits, hleaves, rfl⟩ := h
  cases hleaves with
  | leaf hleaf _ _ => cases hleaf
  | edge hexec hd hmem => exact .inl ⟨_, _, hvisits.step hexec, hd, hmem⟩
  | ret hexec hpc hmem => exact .inr ⟨hpc, pcs', b, s, _, hvisits, hexec, rfl, hmem⟩

/-! ### The program counters of blocks -/

@[simp] theorem Cpu.create_pc (c : Cpu) (i : Inst Name) (b : BlockId) :
    ((c.create i).function b).pc = (c.function b).pc := by
  by_cases hb : b = c.insertPoint
  · rw [hb, Cpu.function_create_self]
  · rw [Cpu.function_create_of_ne _ _ hb]

/-- No block got a program counter. -/
def Cpu.Unlabels (c c' : Cpu) : Prop :=
  ∀ b, (c'.function b).pc = (c.function b).pc ∨ (c'.function b).pc = none

namespace Cpu.Unlabels

theorem of_eq (h : ∀ b, (c'.function b).pc = (c.function b).pc) : c.Unlabels c' := fun b => .inl (h b)

theorem trans (h : c.Unlabels c₁) (h' : c₁.Unlabels c₂) : c.Unlabels c₂ := by
  intro b
  rcases h' b with heq | hnone
  · rw [heq]
    exact h b
  · exact .inr hnone

theorem create (c : Cpu) (i : Inst Name) : c.Unlabels (c.create i) := of_eq (c.create_pc i)

theorem exec {i : Inst Name} (h : c.exec M i = .ok c') : c.Unlabels c' := by
  obtain ⟨_, _, rfl⟩ := Cpu.exec_eq h
  exact create c i

theorem setTargets (c : Cpu) (targets : List Addr) : c.Unlabels (c.setTargets targets) := by
  refine of_eq fun b => ?_
  by_cases hb : b = c.block
  · rw [hb, Cpu.function_setTargets_self]
  · exact congrArg BasicBlock.pc (Function.update_of_ne hb ..)

/-- The two blocks of a fork have none. -/
theorem forkBlocks (c : Cpu) : c.Unlabels c.forkBlocks := by
  intro b
  rw [Cpu.function_forkBlocks]
  split
  · exact .inr rfl
  · exact .inl rfl

theorem forkPath (condition : DualValue) (jumpPc fallthroughPc : Addr) (c : Cpu) :
    c.Unlabels (Vexa.forkPath M condition jumpPc fallthroughPc c) := by
  intro b
  rw [forkPath_function]
  exact (forkBlocks c).trans (create { c.forkBlocks with insertPoint := c.block } _) b

theorem branching {condition : DualValue} {jumpPc fallthroughPc : Addr}
    (h : Vexa.branching M condition jumpPc fallthroughPc c = .ok c') : c.Unlabels c' := by
  rcases branching_cases h with ⟨_, _, _, _, rfl⟩ | ⟨_, _, rfl⟩
  · exact of_eq fun _ => rfl
  · exact forkPath _ _ _ c

theorem materialize {side : ℕ} : ∀ {wrappers : List (Inst Name)} {value : Operand Name} {c : Cpu}
    {r : Operand Name × Cpu}, Vexa.materialize M side wrappers value c = .ok r → c.Unlabels r.2
  | [], value, c, r, h => by
    obtain rfl := Except.ok.inj h
    exact of_eq fun _ => rfl
  | wrapper :: wrappers, value, c, r, h => by
    simp only [Vexa.materialize, Except.bind_eq_ok] at h
    obtain ⟨c₁, hexec, hrest⟩ := h
    exact (exec hexec).trans (materialize hrest)

theorem handleConditionalMoves (h : Vexa.handleConditionalMoves M inst c = .ok c') : c.Unlabels c' := by
  rw [Vexa.handleConditionalMoves] at h
  split at h
  · cases h
  next move _ =>
  simp only [Except.bind_eq_ok] at h
  obtain ⟨_, _, ⟨trueVal, c₁⟩, htrue, ⟨falseVal, c₂⟩, hfalse, ⟨verdict, v⟩, _, h⟩ := h
  have hmaterialized : c.Unlabels c₂ := (materialize htrue).trans (materialize hfalse)
  refine hmaterialized.trans ?_
  cases verdict with
  | some result =>
    obtain ⟨_, _, rfl⟩ := Cpu.exec_eq h
    exact create c₂ _
  | none =>
    simp only [forkMove, Except.bind_eq_ok, Except.pure_eq_ok] at h
    obtain ⟨c₃, h₃, c₄, h₄, rfl⟩ := h
    have hclosed := (forkBlocks c₂).trans (create c₂.forkBlocks
      (.condBr move.condition c₂.numBlocks (c₂.numBlocks + 1)))
    have hfalse := exec h₃
    have htrue := exec h₄
    have hstored : c₂.Unlabels c₃ := hclosed.trans hfalse
    exact hstored.trans htrue

theorem indirectJump {r : Outcome × Cpu} (h : Vexa.indirectJump M c = .ok r) : c.Unlabels r.2 := by
  obtain ⟨next, _, ⟨target, _, _, rfl⟩ | ⟨_, ⟨_, target, _, _, rfl⟩ |
    ⟨_, _, jumpPc, fallthroughPc, c₁, _, _, _, _, _, hcompare, _, hbranch, rfl⟩ | ⟨_, _, rfl⟩⟩⟩ :=
      indirectJump_cases h
  · exact setTargets (c.rewriteTarget M next) _
  · exact setTargets (c.enumerateTarget M next) _
  · have hset := setTargets (c.enumerateTarget M next) [jumpPc, fallthroughPc]
    exact (hset.trans (exec hcompare)).trans (branching hbranch)
  · exact of_eq fun _ => rfl

/-- The control flow part labels no block. -/
theorem controlFlow {r : Outcome × Cpu} (h : Vexa.controlFlow M inst c = .ok r) : c.Unlabels r.2 := by
  rcases controlFlow_cases h with ⟨_, cond, c₁, hcond, hbranch, rfl⟩ | ⟨_, rfl⟩ | ⟨_, hjump⟩ |
    ⟨_, _, c₁, hsplit, rfl⟩ | ⟨_, _, rfl⟩
  · obtain ⟨_, _, _, hcast, _⟩ := getCondition_eq hcond
    exact (exec hcast).trans (branching hbranch)
  · exact of_eq fun _ => rfl
  · exact indirectJump hjump
  · have hkeeps : c.Unlabels c₁ := handleConditionalMoves hsplit
    exact hkeeps
  · exact of_eq fun _ => rfl

end Cpu.Unlabels

/-! ### Blocks that are joined -/

section

variable (M program)

/-- A block of a program counter goes on as the program does, wherever its accesses go to addresses its
code was made for, and the program to one of the exits. -/
structure Cpu.Pursues (c : Cpu) (opened : List (BlockId × Addr)) (exits : List Addr) (pc : Addr)
    (b : BlockId) : Prop where
  pc_ne : pc ≠ 0
  heads : ∃ inst semantics, program pc = some inst ∧ M.liftIntoBlock inst = some semantics ∧
    ∀ s, Covered semantics.insts (c.function b).resolutions (Semantics.entry pc s.mem) →
      inst.target (semantics.effect pc s.mem) ∈ exits →
      Heads c.emitted opened (inst.target (semantics.effect pc s.mem)) (semantics.effect pc s.mem)
        (b, s) [pc]

variable (s₀ p₀) (calls : List Cpu)

/-- Control comes from the entry to where the program starts, and from every block of a program counter
to where the program goes, if that is where the call that lifted the block went on. -/
structure Recovers (opened : List (BlockId × Addr)) (c : Cpu) : Prop where
  entry : Heads c.emitted opened p₀.1 p₀.2 (0, s₀) []
  blocks : ∀ pc b, (c.function b).pc = some pc → ∃ call ∈ calls, ∃ c',
    processInstruction M call = .ok (.lifted b, c') ∧ c.Pursues M program opened (call.exits c') pc b

/-- What is known while the loop of `cpu::run` goes on. -/
structure Recovering (c : Cpu) : Prop where
  fresh : c.Fresh
  unlabelled : ∀ b, c.numBlocks ≤ b → (c.function b).pc = none
  erases : c.ErasesFinished
  forks : M.forkAtCmovs = true → c.ForksMoves M
  cfg : ∀ pc b, c.cfg pc = some b → (c.function b).pc = some pc
  recovers : Recovers M program s₀ p₀ calls c.leaves c

end

variable {calls : List Cpu} {exits : List Addr}

/-- `c'` has the finished blocks of `c`, its blocks were made for the same, and the blocks that were open
stay open or lead on. -/
structure Cpu.Rebuilds (c c' : Cpu) (opened' : List (BlockId × Addr)) : Prop where
  finished : c.emitted.Extends c'.emitted
  notes : ∀ pc b, (c.function b).pc = some pc → ∃ insts, c'.function b = { c.function b with insts := insts }
  opened : ∀ b pc, (b, pc) ∈ c.leaves → LeafJoined c.emitted c'.emitted opened' b pc

theorem Cpu.Rebuilds.labels (h : c.Rebuilds c' opened') (d : BlockId) (pc : Addr)
    (hd : (c.emitted d).pc = some pc) : (c'.emitted d).pc = some pc := by
  obtain ⟨insts, hnotes⟩ := h.notes pc d hd
  exact (congrArg BasicBlock.pc hnotes).trans hd

theorem Cpu.Rebuilds.pursues (h : c.Rebuilds c' opened') (hb : (c.function b).pc = some pc)
    (hpursues : c.Pursues M program c.leaves exits pc b) : c'.Pursues M program opened' exits pc b := by
  obtain ⟨inst, semantics, hprogram, hsome, hheads⟩ := hpursues.heads
  obtain ⟨insts, hnotes⟩ := h.notes pc b hb
  refine ⟨hpursues.pc_ne, inst, semantics, hprogram, hsome, fun s haccesses htarget => ?_⟩
  rw [hnotes] at haccesses
  exact (hheads s haccesses htarget).mono h.finished h.labels h.opened

theorem Recovers.of_eq (h : Recovers M program s₀ p₀ calls opened c) (hfunction : c'.function = c.function)
    (hdelete : c'.toDelete = c.toDelete) : Recovers M program s₀ p₀ calls opened c' := by
  have hemitted : c'.emitted = c.emitted :=
    funext fun b => Cpu.emitted_congr (congrFun hfunction b) fun n => by rw [hdelete]
  refine ⟨?_, fun pc b hb => ?_⟩
  · rw [hemitted]
    exact h.entry
  · rw [hfunction] at hb
    obtain ⟨call, hmem, c₁, hcall, hpc, hheads⟩ := h.blocks pc b hb
    refine ⟨call, hmem, c₁, hcall, hpc, ?_⟩
    rw [hemitted, hfunction]
    exact hheads

/-- More calls, and more blocks. -/
theorem Recovers.of_rebuilds {calls' : List Cpu} (h : Recovers M program s₀ p₀ calls c.leaves c)
    (hcalls : calls ⊆ calls') (hbuilds : c.Rebuilds c' opened')
    (hnew : ∀ pc b, (c'.function b).pc = some pc → (c.function b).pc = some pc ∨ ∃ call ∈ calls', ∃ c₁,
      processInstruction M call = .ok (.lifted b, c₁) ∧
        c'.Pursues M program opened' (call.exits c₁) pc b) :
    Recovers M program s₀ p₀ calls' opened' c' where
  entry := h.entry.mono hbuilds.finished hbuilds.labels hbuilds.opened
  blocks pc b hb := by
    rcases hnew pc b hb with hold | hpursues
    · obtain ⟨call, hmem, c₁, hcall, hpursues⟩ := h.blocks pc b hold
      exact ⟨call, hcalls hmem, c₁, hcall, hbuilds.pursues hold hpursues⟩
    · exact hpursues

/-- The current block is closed by an edge to a block of its program counter, or by a return at zero. -/
theorem Cpu.Closes.rebuilds {last : Inst Name} {rest : List BlockId}
    (hbuilt : Built c (c.insertPoint :: (c.pendingBlocks ++ rest)))
    (hunlabelled : ∀ b, c.numBlocks ≤ b → (c.function b).pc = none) (hfresh : c.Fresh)
    (herases : c.ErasesFinished) (h : c.Closes c' last)
    (hlast : (last = .ret ∧ c.pc = 0) ∨ ∃ d, last = .br d ∧ (c'.function d).pc = some c.pc)
    (hopened : ∀ ss ∈ c.unexploredPaths, (ss.bb, ss.pc) ∈ opened') : c.Rebuilds c' opened' where
  finished b hb := by
    have hstraight : ¬ Straight (c.function b).insts := fun hstraight => hb hstraight.erase
    refine h.emitted_of_ne (Nat.lt_of_not_le fun hle => hstraight (hfresh b hle)) ?_
    rintro rfl
    exact hstraight (hbuilt.straight _ (List.mem_cons_self ..))
  notes pc b hb := by
    by_cases heq : b = c.insertPoint
    · exact ⟨_, heq ▸ h.self⟩
    · refine ⟨_, h.others b (Nat.lt_of_not_le fun hle => ?_) heq⟩
      rw [hunlabelled b hle] at hb
      cases hb
  opened b pc hleaf := by
    rcases List.mem_cons.mp hleaf with heq | hpending
    · -- the current block is closed
      obtain ⟨rfl, rfl⟩ := Prod.mk.inj heq
      have hself := h.emitted_self (hbuilt.lt _ (List.mem_cons_self ..))
        (hbuilt.straight _ (List.mem_cons_self ..)) herases
      rcases hlast with ⟨rfl, hpc⟩ | ⟨d, rfl, hd⟩
      · exact .ret hself hpc
      · exact .edge hself hd
    · obtain ⟨ss, hss, heq⟩ := List.mem_map.mp hpending
      obtain ⟨rfl, rfl⟩ := Prod.mk.inj heq
      have hmem : ss.bb ∈ c.pendingBlocks ++ rest := List.mem_append_left _ (List.mem_map_of_mem hss)
      refine .stays (hopened ss hss) (h.emitted_of_ne (hbuilt.lt _ (List.mem_cons_of_mem _ hmem)) ?_)
      intro heq
      exact (List.nodup_cons.mp hbuilt.nodup).1 (heq ▸ hmem)

/-! ### One instruction -/

/-- In every mode the map of program counters gets the block of this one or nothing. -/
theorem saveBlock_cfg (c : Cpu) :
    (saveBlock M c).cfg = c.cfg ∨ (saveBlock M c).cfg = Function.update c.cfg c.pc (some c.block) := by
  rw [saveBlock]
  split
  · exact .inl rfl
  · exact .inr rfl
  · split <;> exact .inl rfl
  · split <;> exact .inl rfl
  · exact .inl rfl

/-- Lifting gives the new block the program counter, and no other block gets one. -/
theorem Cpu.Fills.labels (h : c.Fills M semantics c₁ c₂) (h₃ : c₂.SavedAs c₃) {r : Outcome × Cpu}
    (hflow : controlFlow M inst c₃ = .ok r) (hb : (r.2.function b).pc = some pc) :
    (c.function b).pc = some pc ∨ (b = c.numBlocks ∧ pc = c.pc) := by
  have hfill : (c₂.function b).pc = some pc := by
    rcases Cpu.Unlabels.controlFlow hflow b with heq | hnone
    · rw [← Fills.function h₃, ← heq]
      exact hb
    · rw [hnone] at hb
      cases hb
  by_cases hnew : b = c.numBlocks
  · subst hnew
    rw [h.emulates.pc] at hfill
    exact .inr ⟨rfl, (Option.some.inj hfill).symm⟩
  left
  by_cases hself : b = c.insertPoint
  · rw [hself, h.self] at hfill
    rw [hself]
    exact hfill
  · rw [← h.lifts.others b hself hnew]
    exact hfill

theorem Cpu.ForksMoves.lift (hforks : M.mode = .vcfgRecovery ∨ M.KeepsUnsolved) (h : c.ForksMoves M)
    (hkeeps : M.KeepsUnsolved → c.opaqueSolving = false → c'.opaqueSolving = false) : c'.ForksMoves M := by
  rcases hforks with hmode | hM
  · exact fun _ => hmode
  · by_cases hsolving : c.opaqueSolving = true
    · exact fun _ => h hsolving
    · exact .of_unsolved (hkeeps hM (Bool.eq_false_iff.mpr hsolving))

/-- What the loop goes on with is the block that was lifted. -/
theorem Outcome.eq_lifted (hstatus : outcome.status = .successful) (hb : outcome.liftedBlock = some b) :
    outcome = .lifted b := by
  cases outcome with
  | lifted d =>
    obtain rfl : d = b := Option.some.inj hb
    rfl
  | _ => cases hstatus

/-- **One instruction** that goes on with the current path. -/
theorem Recovering.lift {rest : List BlockId} {call : Cpu}
    (hforks : M.forkAtCmovs = true → M.mode = .vcfgRecovery ∨ M.KeepsUnsolved)
    (hmoves : M.forkAtCmovs = true → M.StoresMovesLast) (hprogram : program c.pc = some inst)
    (hpc : c.pc ≠ 0) (hbuilt : Built c (c.insertPoint :: (c.pendingBlocks ++ rest)))
    (h : Recovering M program s₀ p₀ calls c) (hlift : liftInstruction M inst c = .ok (outcome, c'))
    (hcall : processInstruction M call = .ok (outcome, c')) (hexits : call.exits c' = c.exits c')
    (hstatus : outcome.status = .successful) : Recovering M program s₀ p₀ (calls ++ [call]) c' := by
  have hc := hbuilt.lt _ (List.mem_cons_self ..)
  have hstraight := hbuilt.straight _ (List.mem_cons_self ..)
  obtain ⟨semantics, c₁, c₂, hsome, hfills, hflow⟩ := liftInstruction_filled hc hlift hstatus
  have h₃ := saveBlock_savedAs (M := M) c₂
  have hforks₃ : M.forkAtCmovs = true → (saveBlock M c₂).ForksMoves M := by
    intro hon
    refine (h.forks hon).lift (hforks hon) fun hM hunsolved => ?_
    obtain ⟨_, _, _, heq⟩ := h₃
    rw [heq]
    exact hfills.unsolved hunsolved hM
  have hself : (c'.function c.numBlocks).pc = some c.pc := hfills.keepsPc h₃ hflow
  have hcloses : c.Closes c' (.br c.numBlocks) := hfills.closes h₃ hc hforks₃ hflow
  have hbuilds : c.Rebuilds c' c'.leaves := by
    refine hcloses.rebuilds hbuilt h.unlabelled h.fresh h.erases (.inr ⟨_, rfl, hself⟩)
      fun ss hss => ?_
    exact List.mem_cons_of_mem _ (List.mem_map_of_mem (hfills.pending h₃ hflow ss hss))
  have hlabels : ∀ pc b, (c'.function b).pc = some pc →
      (c.function b).pc = some pc ∨ (b = c.numBlocks ∧ pc = c.pc) := fun _ _ hb => hfills.labels h₃ hflow hb
  have hnum : c.numBlocks < c'.numBlocks := liftInstruction_numBlocks hlift
  have hcfg : ∀ pc b, c'.cfg pc = some b → (c'.function b).pc = some pc := by
    intro pc b hb
    have hold : c.cfg pc = some b → (c'.function b).pc = some pc := by
      intro hb
      obtain ⟨_, hnotes⟩ := hbuilds.notes pc b (h.cfg pc b hb)
      rw [hnotes]
      exact h.cfg pc b hb
    have hsaved : c'.cfg = (saveBlock M c₂).cfg := (controlFlow_advances hflow).2.cfg
    rw [hsaved] at hb
    rcases saveBlock_cfg (M := M) c₂ with heq | heq
    · rw [heq, hfills.enters.cfg] at hb
      exact hold hb
    · rw [heq, hfills.enters.cfg, hfills.enters.pc, hfills.enters.block] at hb
      by_cases hsame : pc = c.pc
      · subst hsame
        rw [Function.update_self] at hb
        exact Option.some.inj hb ▸ hself
      · rw [Function.update_of_ne hsame] at hb
        exact hold hb
  have hlifted : outcome = .lifted c.numBlocks := by
    have hblock : (saveBlock M c₂).block = c.numBlocks := by
      obtain ⟨_, _, _, heq⟩ := h₃
      rw [heq]
      exact hfills.lifts.block
    exact Outcome.eq_lifted hstatus ((controlFlow_advances hflow).1.trans (congrArg some hblock))
  refine ⟨hfills.fresh h₃ hc h.fresh hflow, fun b hle => ?_,
    hfills.erases h₃ hc hstraight h.fresh h.erases hforks₃ hflow, fun hon => ?_, hcfg,
    h.recovers.of_rebuilds (List.subset_append_left ..) hbuilds fun pc b hb => ?_⟩
  · by_contra hne
    obtain ⟨pc, hb⟩ := Option.ne_none_iff_exists'.mp hne
    rcases hlabels pc b hb with hold | ⟨rfl, _⟩
    · rw [h.unlabelled b (hnum.le.trans hle)] at hold
      cases hold
    · exact absurd hnum (Nat.not_lt.mpr hle)
  · exact (hforks₃ hon).lift (hforks hon) fun hM hunsolved => controlFlow_unsolved hM hunsolved hflow
  · rcases hlabels pc b hb with hold | ⟨rfl, rfl⟩
    · exact .inl hold
    · right
      refine ⟨call, List.mem_append_right _ (List.mem_singleton_self _), c', hlifted ▸ hcall,
        hpc, inst, semantics, hprogram, hsome, fun s haccesses htarget => ?_⟩
      rw [hexits] at htarget
      exact Arrives.heads (f := c'.emitted) hcfg (hfills.leads h₃ hmoves h.fresh h.erases hforks₃ hsome
        hflow hstatus haccesses htarget)

/-- **One call** that goes on with the current path. A dispatch that was not served is forgotten. -/
theorem Recovering.call {rest : List BlockId}
    (hforks : M.forkAtCmovs = true → M.mode = .vcfgRecovery ∨ M.KeepsUnsolved)
    (hmoves : M.forkAtCmovs = true → M.StoresMovesLast) (hdecode : M.DecodesFrom program)
    (hbuilt : Built c (c.insertPoint :: (c.pendingBlocks ++ rest)))
    (h : Recovering M program s₀ p₀ calls c) (hcall : processInstruction M c = .ok (outcome, c'))
    (hstatus : outcome.status = .successful) : Recovering M program s₀ p₀ (calls ++ [c]) c' := by
  rcases processInstruction_cases hcall with ⟨rfl, _, _⟩ | ⟨_, _, rfl, _⟩ |
    ⟨hpc, c₁, hnone, ⟨rfl, _⟩ | ⟨inst, hinst, hlift⟩⟩
  · cases hstatus
  · cases hstatus
  · cases hstatus
  obtain ⟨vjmp, rfl⟩ := cfgRecovery_none hnone
  have hforget : Recovering M program s₀ p₀ calls { c with vjmp := vjmp } :=
    ⟨h.fresh, h.unlabelled, h.erases, h.forks, h.cfg, h.recovers.of_eq rfl rfl⟩
  exact hforget.lift hforks hmoves (hdecode _ _ _ hinst) hpc (hbuilt.of_eq rfl rfl rfl) hlift hcall
    rfl hstatus

/-! ### Runs -/

/-- The path ended at program counter zero, or was joined to a block of its program counter. -/
def PathEnd.Joined (e : PathEnd) : Prop :=
  e.outcome = .functionEnded ∨
    ∃ target, e.outcome = .edgeRebuilt target ∧ (e.state.function target).pc = some e.state.pc

/-- Such a path ends with a return or with that edge. -/
theorem finishPath_joined (hcall : processInstruction M c = .ok (outcome, c'))
    (hended : PathEnd.Joined ⟨outcome, finishPath outcome c'⟩) :
    ∃ last vjmp, finishPath outcome c' = { c.create last with vjmp := vjmp } ∧
      ((last = .ret ∧ c.pc = 0) ∨ ∃ d, last = .br d ∧ ((c.create last).function d).pc = some c.pc) := by
  rcases hended with hzero | ⟨target, hjoined, hlabel⟩
  · obtain rfl : outcome = .functionEnded := hzero
    rcases processInstruction_cases hcall with ⟨_, hpc, rfl⟩ | ⟨_, _, heq, _⟩ |
      ⟨_, _, _, ⟨heq, _⟩ | ⟨inst, _, hlift⟩⟩
    · exact ⟨.ret, _, rfl, .inl ⟨rfl, hpc⟩⟩
    · cases heq
    · cases heq
    · obtain ⟨_, _, ⟨heq, _⟩ | ⟨heq, _⟩⟩ := liftInstruction_cases hlift <;> cases heq
  · obtain rfl : outcome = .edgeRebuilt target := hjoined
    rcases processInstruction_cases hcall with ⟨heq, _⟩ | ⟨_, d, heq, hjoin⟩ |
      ⟨_, _, _, ⟨heq, _⟩ | ⟨inst, _, hlift⟩⟩
    · cases heq
    · obtain rfl : target = d := Outcome.edgeRebuilt.inj heq
      obtain ⟨_, vjmp, rfl⟩ := cfgRecovery_some hjoin
      exact ⟨_, vjmp, rfl, .inr ⟨target, rfl, hlabel⟩⟩
    · cases heq
    · obtain ⟨_, _, ⟨heq, _⟩ | ⟨heq, _⟩⟩ := liftInstruction_cases hlift <;> cases heq

/-- The path that ended leaves the blocks of the others. -/
theorem Recovering.ends {calls' : List Cpu} {last : Inst Name} {rest : List BlockId}
    (hbuilt : Built c (c.insertPoint :: (c.pendingBlocks ++ rest)))
    (h : Recovering M program s₀ p₀ calls c) (hcalls : calls ⊆ calls')
    (hlast : (last = .ret ∧ c.pc = 0) ∨ ∃ d, last = .br d ∧ ((c.create last).function d).pc = some c.pc)
    (hopened : ∀ ss ∈ c.unexploredPaths, (ss.bb, ss.pc) ∈ opened') :
    Recovers M program s₀ p₀ calls' opened' (c.create last) := by
  refine h.recovers.of_rebuilds hcalls ((Cpu.Closes.create c last).rebuilds hbuilt h.unlabelled h.fresh
    h.erases hlast hopened) fun pc b hb => .inl ?_
  rw [Cpu.create_pc] at hb
  exact hb

variable {ended : List PathEnd}

/-- **Along every run** whose paths were joined to blocks of their program counters. -/
theorem Recovering.explores (hforks : M.forkAtCmovs = true → M.mode = .vcfgRecovery ∨ M.KeepsUnsolved)
    (hmoves : M.forkAtCmovs = true → M.StoresMovesLast) (hdecode : M.DecodesFrom program)
    (hbuilt₀ : Built c₀ (c₀.insertPoint :: c₀.pendingBlocks)) (hmaps₀ : c₀.MapsBuilt)
    (h₀ : Recovering M program s₀ p₀ [] c₀) (h : Explores M c₀ calls ended c)
    (hended : ∀ e ∈ ended, e.Joined) : Recovering M program s₀ p₀ calls c := by
  induction h with
  | start => exact h₀
  | successful hexplores hcall hstatus ih =>
    obtain ⟨_, hbuilt⟩ := Built.explores hbuilt₀ hmaps₀ hexplores
    exact (ih hended).call hforks hmoves hdecode hbuilt hcall hstatus
  | explore hexplores hcall hstatus hpaths ih =>
    rename_i calls ended c c' outcome before after path
    have hrecovering := ih fun e he => hended e (List.mem_append_left _ he)
    obtain ⟨_, hbuilt⟩ := Built.explores hbuilt₀ hmaps₀ hexplores
    obtain ⟨last, vjmp, hfinish, hlast⟩ := finishPath_joined hcall
      (hended _ (List.mem_append_right _ (List.mem_singleton_self _)))
    have hc := hbuilt.lt _ (List.mem_cons_self ..)
    have hpending : c.unexploredPaths = before ++ path :: after := by
      rw [← hpaths, ← finishPath_unexploredPaths outcome c', hfinish]
      rfl
    rw [hfinish]
    have herases : (c.create last).ErasesFinished := by
      refine (Cpu.Closes.create c last).erases (hbuilt.straight _ (List.mem_cons_self ..))
        hrecovering.erases fun d hd hle => ?_
      exact absurd (hrecovering.fresh _ hle) (hrecovering.erases d hd)
    have hothers : ∀ b, c.numBlocks ≤ b → (c.create last).function b = c.function b := fun b hb =>
      Cpu.function_create_of_ne c last (hc.trans_le hb).ne'
    refine ⟨fun b hb => ?_, fun b hb => ?_, herases, hrecovering.forks, fun pc b hb => ?_,
      Recovers.of_eq (c := c.create last) ?_ rfl rfl⟩
    · show Straight ((c.create last).function b).insts
      rw [hothers b hb]
      exact hrecovering.fresh b hb
    · show ((c.create last).function b).pc = none
      rw [hothers b hb]
      exact hrecovering.unlabelled b hb
    · show ((c.create last).function b).pc = some pc
      rw [Cpu.create_pc]
      exact hrecovering.cfg pc b hb
    · refine hrecovering.ends hbuilt (List.subset_append_left ..) hlast fun ss hss => ?_
      -- the path that goes on, or one that is still pending
      rw [hpending] at hss
      rcases List.mem_append.mp hss with hss | hss
      · exact List.mem_cons_of_mem _ (List.mem_map_of_mem (List.mem_append_left _ hss))
      · rcases List.mem_cons.mp hss with rfl | hss
        · exact List.mem_cons_self ..
        · exact List.mem_cons_of_mem _ (List.mem_map_of_mem (List.mem_append_right _ hss))

/-- **In the function that is left** no block is open. -/
theorem Recovering.returns (hforks : M.forkAtCmovs = true → M.mode = .vcfgRecovery ∨ M.KeepsUnsolved)
    (hmoves : M.forkAtCmovs = true → M.StoresMovesLast) (hdecode : M.DecodesFrom program)
    (hbuilt₀ : Built c₀ (c₀.insertPoint :: c₀.pendingBlocks)) (hmaps₀ : c₀.MapsBuilt)
    (h₀ : Recovering M program s₀ p₀ [] c₀) (h : Returns M c₀ calls ended c)
    (hended : ∀ e ∈ ended, e.Joined) : Recovers M program s₀ p₀ calls [] c := by
  cases h with
  | last hexplores hcall hstatus hpaths =>
    rename_i calls ended c c' outcome
    have hrecovering := Recovering.explores hforks hmoves hdecode hbuilt₀ hmaps₀ h₀ hexplores
      fun e he => hended e (List.mem_append_left _ he)
    obtain ⟨_, hbuilt⟩ := Built.explores hbuilt₀ hmaps₀ hexplores
    obtain ⟨last, vjmp, hfinish, hlast⟩ := finishPath_joined hcall
      (hended _ (List.mem_append_right _ (List.mem_singleton_self _)))
    have hpending : c.unexploredPaths = [] := by
      rw [← hpaths, ← finishPath_unexploredPaths outcome c', hfinish]
      rfl
    rw [hfinish]
    refine Recovers.of_eq (c := c.create last) ?_ rfl rfl
    refine hrecovering.ends hbuilt (List.subset_append_left ..) hlast fun ss hss => ?_
    rw [hpending] at hss
    cases hss

/-- The entry block comes to where the program starts. -/
theorem start_recovering {layout : Layout} {image : MemPage} {opaqueSolving : Bool}
    (hstart : start M layout image opaqueSolving pc = .ok c₀)
    (hforks : M.forkAtCmovs = true → M.mode = .vcfgRecovery ∨ opaqueSolving = false) (s₀ : IrState Name) :
    Recovering M program s₀ (pc, (execAll (c₀.function 0).insts s₀).mem) [] c₀ := by
  obtain ⟨_, _, _, _, hcfg, _⟩ := start_eq hstart
  obtain ⟨hlabels, hsolving⟩ : (∀ b, (c₀.function b).pc = none) ∧ c₀.opaqueSolving = opaqueSolving := by
    simp only [start, Except.bind_eq_ok, Except.pure_eq_ok] at hstart
    obtain ⟨r, _, rfl⟩ := hstart
    refine ⟨fun b => ?_, rfl⟩
    by_cases hb : b = 0
    · subst hb
      rfl
    · simp only [Function.update_of_ne hb]
  refine ⟨(start_fresh hstart).1, fun b _ => hlabels b, start_erases hstart, fun hon => ?_,
    fun pc b hb => ?_, Arrives.heads (fun pc b hb => ?_) (start_arrives hstart s₀), fun pc b hb => ?_⟩
  · rcases hforks hon with hmode | hoff
    · exact fun _ => hmode
    · exact .of_unsolved (hsolving.trans hoff)
  · rw [hcfg] at hb
    cases hb
  · rw [hcfg] at hb
    cases hb
  · rw [hlabels] at hb
    cases hb

/-! ### The program -/

section

variable (M program)

/-- The block was made for what the program does from memory `m`: every access goes to an address its
code was made for, and the program goes where the call that lifted the block went on. -/
structure MadeFor (calls : List Cpu) (f : Function) (b : BlockId) (inst : Instruction)
    (semantics : Semantics) (pc : Addr) (m : Bytes) : Prop where
  accesses : Covered semantics.insts (f b).resolutions (Semantics.entry pc m)
  target : ∀ call ∈ calls, ∀ c', processInstruction M call = .ok (.lifted b, c') →
    inst.target (semantics.effect pc m) ∈ call.exits c'

/-- Every block the function comes to within `n` steps of the program was made for what the program does
there. -/
def Foreseen (calls : List Cpu) (f : Function) (s₀ : IrState Name) (p₀ : Addr × Bytes) (n : ℕ) : Prop :=
  ∀ pcs p b t inst semantics, Executes M program p₀ pcs p → pcs.length < n →
    Visits f (0, s₀) pcs (b, t) → (f b).pc = some p.1 → t.mem = p.2 → program p.1 = some inst →
    M.liftIntoBlock inst = some semantics → MadeFor M calls f b inst semantics p.1 p.2

end

theorem Foreseen.mono {n k : ℕ} (h : Foreseen M program calls f s₀ p₀ n) (hk : k ≤ n) :
    Foreseen M program calls f s₀ p₀ k :=
  fun pcs p b t inst semantics hexecutes hlt => h pcs p b t inst semantics hexecutes (hlt.trans_le hk)

/-- **Along every run of the program** control comes to where the program is. -/
theorem Recovers.heads (h : Recovers M program s₀ p₀ calls [] c) (hexecutes : Executes M program p₀ pcs p)
    (hforeseen : Foreseen M program calls c.emitted s₀ p₀ pcs.length) :
    Heads c.emitted [] p.1 p.2 (0, s₀) pcs := by
  induction hexecutes with
  | start => exact h.entry
  | step hexecutes hstep ih =>
    rename_i pcs p p' inst semantics
    have hshorter : pcs.length < (pcs ++ [p.1]).length := by
      rw [List.length_append, List.length_singleton]
      omega
    rcases (ih (hforeseen.mono hshorter.le)).closed with ⟨d, t, hvisits, hd, hmem⟩ | ⟨hzero, _⟩
    · obtain ⟨call, hcall, c', hlifted, _, inst', semantics', hprogram, hsome, hnext⟩ := h.blocks _ d hd
      obtain rfl : inst = inst' := Option.some.inj (hstep.decoded.symm.trans hprogram)
      obtain rfl : semantics = semantics' := Option.some.inj (hstep.lifted.symm.trans hsome)
      have hmade := hforeseen pcs p d t inst semantics hexecutes hshorter hvisits hd hmem hprogram hsome
      have hheads := hnext t (hmem.symm ▸ hmade.accesses) (hmem.symm ▸ hmade.target call hcall c' hlifted)
      rw [hmem, ← hstep.mem, ← hstep.pc] at hheads
      obtain ⟨pcs', b, s, hvisits', hleaves, heq⟩ := hheads
      exact ⟨pcs ++ pcs', b, s, hvisits.trans hvisits', hleaves, by rw [List.append_assoc, heq]⟩
    · exact absurd hzero hstep.pc_ne

theorem Recovers.replays (h : Recovers M program s₀ p₀ calls [] c)
    (hheads : Heads c.emitted [] p.1 p.2 (0, s₀) pcs) : Replays c.emitted s₀ pcs p := by
  rcases hheads.closed with ⟨d, t, hvisits, hd, hmem⟩ | ⟨hzero, hreturns⟩
  · obtain ⟨_, _, _, _, hne, _⟩ := h.blocks _ d hd
    exact ⟨fun _ => ⟨d, t, hvisits, hd, hmem⟩, fun hzero => absurd hzero hne⟩
  · exact ⟨fun hne => absurd hzero hne, fun _ => hreturns⟩

/-- **Recovery simulates the program**, in every mode, with every policy and whatever callbacks do to the
option for opaque predicates. When every path ended at program counter zero or was joined to a block of
its program counter, the function that is left, entered in any state, visits the program counters the
program visits and has its registers and its memory, along every run of the program, as long as the
blocks it comes to were made for what the program does there. Both go to memory through the translation
of `get_page`. Moves that fork need a mode in which their conditions are not solved, or the option turned
off, and store their results behind their accesses (`StoresMovesLast`). -/
theorem recoveredFunction_simulates {opaqueSolving : Bool}
    (hforks : M.forkAtCmovs = true →
      M.mode = .vcfgRecovery ∨ (opaqueSolving = false ∧ M.KeepsUnsolved))
    (hmoves : M.forkAtCmovs = true → M.StoresMovesLast) (hdecode : M.DecodesFrom program)
    {layout : Layout} {image : MemPage} {pc : Addr}
    (hstart : start M layout image opaqueSolving pc = .ok c₀) (hreturns : Returns M c₀ calls ended c)
    (hended : ∀ e ∈ ended, e.Joined) (s₀ : IrState Name) (pcs : List Addr) (p : Addr × Bytes)
    (hexecutes : Executes M program (pc, (execAll (c₀.function 0).insts s₀).mem) pcs p)
    (hforeseen : Foreseen M program calls c.eraseDeletedInstructions.function s₀
      (pc, (execAll (c₀.function 0).insts s₀).mem) pcs.length) :
    Replays c.eraseDeletedInstructions.function s₀ pcs p := by
  obtain ⟨hbuilt, hmaps⟩ := start_built hstart
  have hentered : Recovering M program s₀ (pc, (execAll (c₀.function 0).insts s₀).mem) [] c₀ :=
    start_recovering hstart (fun hon => (hforks hon).imp_right And.left) s₀
  have hrecovers := hentered.returns (fun hon => (hforks hon).imp_right And.right) hmoves hdecode hbuilt
    hmaps hreturns hended
  exact hrecovers.replays (hrecovers.heads hexecutes hforeseen)

/-! ### A virtual loop -/

/-- `JMP` to an address. -/
def jumpTo (a : Addr) : Semantics where
  insts := [.store 64 (.const 64 a.toNat) .nextPc]
  typed := ⟨⟨by decide, rfl, rfl⟩, nofun, trivial⟩

/-- A dispatch to the handler at `0x1010`, which branches by the zero flag back to the dispatch or to the
end. -/
def virtualLoop : Program := fun pc =>
  if pc = 0x1000 then some ⟨"JMP", .indirectJump, 0, 0, 0x1002⟩
  else some ⟨"JZ", .conditionalBranch, 0x1000, 0, 0x1012⟩

/-- That program, under virtual recovery. -/
def recoveringLoop : Machine :=
  { Machine.bare .folding with
    mode := .vcfgRecovery
    decodeInstruction := fun pc _ => virtualLoop pc
    liftIntoBlock := fun inst =>
      if inst.isConditionalBranch then some zeroFlagBranch else some (jumpTo 0x1010)
    callback := fun k c =>
      if k = .indirectJump ∧ c.pc = 0x1010 then ⟨7, true, c.opaqueSolving⟩
      else ⟨c.vpc, c.vjmp, c.opaqueSolving⟩ }

/-- The dispatch is lifted, the handler, and the dispatch again behind the branch, where the path is joined
to the handler. The path that was saved ends at once. -/
theorem recoveringLoop_run : ∃ c₀ c₁ c₂ c₃ c₄ path c₅,
    start recoveringLoop ⟨0, 8⟩ .empty true 0x1000 = .ok c₀ ∧
    processInstruction recoveringLoop c₀ = .ok (.lifted 1, c₁) ∧
    processInstruction recoveringLoop c₁ = .ok (.lifted 2, c₂) ∧
    processInstruction recoveringLoop c₂ = .ok (.lifted 5, c₃) ∧
    processInstruction recoveringLoop c₃ = .ok (.edgeRebuilt 2, c₄) ∧ c₄.unexploredPaths = [path] ∧
    processInstruction recoveringLoop (resumePath (finishPath (.edgeRebuilt 2) c₄) path [])
      = .ok (.functionEnded, c₅) ∧ c₅.unexploredPaths = [] ∧
    PathEnd.Joined ⟨.edgeRebuilt 2, finishPath (.edgeRebuilt 2) c₄⟩ ∧
    c₀.exits c₁ = [0x1010] ∧ c₁.exits c₂ = [0x1000, 0] ∧ c₂.exits c₃ = [0x1010] ∧
    (c₅.function 1).pc = some 0x1000 ∧ (c₅.function 2).pc = some 0x1010 ∧
    (c₅.function 5).pc = some 0x1000 ∧ c₁.vjmp = true ∧ c₃.vjmp = true :=
  ⟨_, _, _, _, _, _, _, rfl, rfl, rfl, rfl, rfl, rfl, rfl, rfl, .inr ⟨_, rfl, rfl⟩, rfl, rfl, rfl, rfl, rfl,
    rfl, rfl, rfl⟩

theorem target_jumpTo (hcategory : inst.category = .indirectJump) (a : Addr) (pc : Addr) (m : Bytes) :
    inst.target ((jumpTo a).effect pc m) = a := by
  have heffect : (jumpTo a).effect pc m
      = (Semantics.entry pc m).mem.store nextPcPage 0 8 (a.toNat % 2 ^ 64) := rfl
  have hload : ((jumpTo a).effect pc m).load (nextPcPage, 0) 8 = a.toNat := by
    rw [heffect, Nat.mod_eq_of_lt a.isLt, Bytes.load, Bytes.store_self,
      ByteMemory.load_store_self (by decide)]
    exact Nat.mod_eq_of_lt a.isLt
  rw [Instruction.target, hcategory]
  show BitVec.ofNat 64 (((jumpTo a).effect pc m).load (nextPcPage, 0) 8) = a
  rw [hload, BitVec.ofNat_toNat, BitVec.setWidth_eq]

/-- Every block of it was made for what the program does. -/
theorem virtualLoop_madeFor {calls : List Cpu} {f : Function} {b : BlockId} {semantics : Semantics}
    (hb : ∀ call ∈ calls, ∀ c', processInstruction recoveringLoop call = .ok (.lifted b, c') →
      (pc = 0x1000 ∧ call.exits c' = [0x1010]) ∨ (pc ≠ 0x1000 ∧ call.exits c' = [0x1000, 0]))
    (hprogram : virtualLoop pc = some inst) (hsome : recoveringLoop.liftIntoBlock inst = some semantics)
    (m : Bytes) : MadeFor recoveringLoop calls f b inst semantics pc m := by
  rw [virtualLoop] at hprogram
  split at hprogram
  · next hpc =>
    obtain rfl := Option.some.inj hprogram
    obtain rfl : jumpTo 0x1010 = semantics := Option.some.inj hsome
    refine ⟨covered_of_direct (by decide), fun call hcall c' hlifted => ?_⟩
    rcases hb call hcall c' hlifted with ⟨_, hexits⟩ | ⟨hne, _⟩
    · rw [hexits, target_jumpTo rfl]
      exact List.mem_singleton_self _
    · exact absurd hpc hne
  · next hpc =>
    obtain rfl := Option.some.inj hprogram
    obtain rfl : zeroFlagBranch = semantics := Option.some.inj hsome
    refine ⟨covered_of_direct (by decide), fun call hcall c' hlifted => ?_⟩
    rcases hb call hcall c' hlifted with ⟨heq, _⟩ | ⟨_, hexits⟩
    · exact absurd heq hpc
    · rw [hexits, Instruction.target]
      simp only
      split
      · exact List.mem_cons_self ..
      · exact List.mem_cons_of_mem _ (List.mem_singleton_self _)

/-- What recovery leaves of it was made for every run. -/
theorem recoveringLoop_returns : ∃ c₀ calls ended c,
    start recoveringLoop ⟨0, 8⟩ .empty true 0x1000 = .ok c₀ ∧ Returns recoveringLoop c₀ calls ended c ∧
    (∀ e ∈ ended, e.Joined) ∧
    ∀ s₀ p₀ n, Foreseen recoveringLoop virtualLoop calls c.eraseDeletedInstructions.function s₀ p₀ n := by
  obtain ⟨c₀, c₁, c₂, c₃, c₄, path, c₅, hstart, h₀, h₁, h₂, h₃, hpath, h₄, hlast, hjoined, hexits₀, hexits₁,
    hexits₂, hpc₁, hpc₂, hpc₅, _⟩ := recoveringLoop_run
  have hlifts := ((Explores.start.successful h₀ rfl).successful h₁ rfl).successful h₂ rfl
  have hpaths : c₄.unexploredPaths = [] ++ path :: [] := hpath
  have hjoins := hlifts.explore h₃ (fun heq => by cases heq) hpaths
  refine ⟨c₀, _, _, _, hstart, .last hjoins h₄ (fun heq => by cases heq) hlast, ?_, ?_⟩
  · intro e he
    rcases List.mem_append.mp he with he | he
    · obtain rfl := List.mem_singleton.mp he
      exact hjoined
    · obtain rfl := List.mem_singleton.mp he
      exact .inl rfl
  · intro s₀ p₀ n pcs p b t inst semantics _ _ _ hb _ hprogram hsome
    have hlabel : (c₅.function b).pc = some p.1 := (c₅.create_pc .ret b).symm.trans hb
    refine virtualLoop_madeFor (fun call hcall c' hlifted => ?_) hprogram hsome p.2
    have hcases : call = c₀ ∨ call = c₁ ∨ call = c₂ ∨ call = c₃ ∨
        call = resumePath (finishPath (.edgeRebuilt 2) c₄) path [] := by
      simpa [or_assoc] using hcall
    rcases hcases with rfl | rfl | rfl | rfl | rfl
    · cases h₀.symm.trans hlifted
      exact .inl ⟨Option.some.inj (hlabel.symm.trans hpc₁), hexits₀⟩
    · cases h₁.symm.trans hlifted
      have hpc := Option.some.inj (hlabel.symm.trans hpc₂)
      exact .inr ⟨by rw [hpc]; decide, hexits₁⟩
    · cases h₂.symm.trans hlifted
      exact .inl ⟨Option.some.inj (hlabel.symm.trans hpc₅), hexits₂⟩
    · cases h₃.symm.trans hlifted
    · cases h₄.symm.trans hlifted

/-- The handler branches back. -/
theorem virtualLoop_executes
    (hm : Instruction.target ⟨"JZ", .conditionalBranch, 0x1000, 0, 0x1012⟩
      (zeroFlagBranch.effect 0x1010 ((jumpTo 0x1010).effect 0x1000 m)) = 0x1000) :
    ∃ m', Executes recoveringLoop virtualLoop (0x1000, m) [0x1000, 0x1010, 0x1000] (0x1010, m') := by
  have hdispatches : ∀ m, ProgramStep recoveringLoop virtualLoop ⟨"JMP", .indirectJump, 0, 0, 0x1002⟩
      (jumpTo 0x1010) (0x1000, m) (0x1010, (jumpTo 0x1010).effect 0x1000 m) := fun m =>
    .of_effect (ne_of_beq_false rfl) rfl rfl (target_jumpTo rfl 0x1010 0x1000 m)
  have hbranches := Executes.start.step (hdispatches m) |>.step
    (.of_effect (ne_of_beq_false rfl) rfl rfl hm)
  exact ⟨_, hbranches.step (hdispatches _)⟩

theorem recoveringLoop_runs : ∃ c₀ calls ended c,
    start recoveringLoop ⟨0, 8⟩ .empty true 0x1000 = .ok c₀ ∧ Returns recoveringLoop c₀ calls ended c ∧
    (∀ e ∈ ended, e.Joined) ∧
    (∀ s₀ p₀ n, Foreseen recoveringLoop virtualLoop calls c.eraseDeletedInstructions.function s₀ p₀ n) ∧
    ∃ m, Executes recoveringLoop virtualLoop (0x1000, (execAll (c₀.function 0).insts setFlag).mem)
      [0x1000, 0x1010, 0x1000] (0x1010, m) := by
  obtain ⟨c₀, calls, ended, c, hstart, hreturns, hended, hforeseen⟩ := recoveringLoop_returns
  obtain ⟨c₀', hstart', hflag⟩ : ∃ c₀, start recoveringLoop ⟨0, 8⟩ .empty true 0x1000 = .ok c₀ ∧
      Instruction.target ⟨"JZ", .conditionalBranch, 0x1000, 0, 0x1012⟩ (zeroFlagBranch.effect 0x1010
        ((jumpTo 0x1010).effect 0x1000 (execAll (c₀.function 0).insts setFlag).mem)) = 0x1000 :=
    ⟨_, rfl, rfl⟩
  obtain rfl := Except.ok.inj (hstart'.symm.trans hstart)
  exact ⟨c₀', calls, ended, c, hstart, hreturns, hended, hforeseen, virtualLoop_executes hflag⟩

theorem recoveredFunction_simulates_virtualLoop : ∃ c₀ calls ended c,
    start recoveringLoop ⟨0, 8⟩ .empty true 0x1000 = .ok c₀ ∧ Returns recoveringLoop c₀ calls ended c ∧
    ∃ m, Replays c.eraseDeletedInstructions.function setFlag [0x1000, 0x1010, 0x1000] (0x1010, m) := by
  obtain ⟨c₀, calls, ended, c, hstart, hreturns, hended, hforeseen, m, hexecutes⟩ := recoveringLoop_runs
  have hdecode : recoveringLoop.DecodesFrom virtualLoop := fun _ _ _ h => h
  exact ⟨c₀, calls, ended, c, hstart, hreturns, m, recoveredFunction_simulates (fun hon => by cases hon)
    (fun hon => by cases hon) hdecode hstart hreturns hended setFlag _ _ hexecutes (hforeseen _ _ _)⟩

end Vexa
