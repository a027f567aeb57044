import Vexa.PathSimulation

/-!
# Blocks that are entered again

A block is lifted once, for the addresses and the targets that were found on the path that came first.
Whenever it is entered in a state whose accesses and whose jump stay within these, it does what its
instruction does, and control comes to where the program goes: to the end of a block that is still open
for that program counter, to the block lifted for it, or, at zero, to a return.

## Main definitions

* `BasicBlock.Foresees` — what is done from a memory is what the block was made for
* `Arrives` — where control comes to from the start of a block
* `Cpu.exits` — where a step went on

## Main results

* `Arrives.mono` — what is built later keeps it
* `Arrives.closed` — in a finished function control comes to the next block, or to a return
* `Cpu.Entered.conditionalBranch`, `Cpu.Entered.indirectJump` — where control goes behind an instruction
-/

namespace Vexa

variable {M : Machine} {f g : Function} {b d : BlockId} {s t u : IrState Name} {m : Bytes} {pc : Addr}
  {pcs : List Addr} {opened opened' : List (BlockId × Addr)} {cfg cfg' : Addr → Option BlockId}

/-! ### What a block was made for -/

/-- From memory `m`, every access of the instruction goes to an address its code was made for, and an
indirect jump goes to a target that was found for it. -/
structure BasicBlock.Foresees (block : BasicBlock) (inst : Instruction) (semantics : Semantics)
    (pc : Addr) (m : Bytes) : Prop where
  accesses : Covered semantics.insts block.resolutions (Semantics.entry pc m)
  target : inst.category = .indirectJump → inst.target (semantics.effect pc m) ∈ block.targets

/-! ### Where control comes to -/

/-- From the start of a block control comes, after the program counters listed and with memory `m`, to
the end of a block that is open for `pc`, to the block lifted for `pc`, or to a return, with `pc` zero. -/
inductive Arrives (f : Function) (opened : List (BlockId × Addr)) (cfg : Addr → Option BlockId)
    (pc : Addr) (m : Bytes) : BlockId × IrState Name → List Addr → Prop
  | leaf {b : BlockId} {s t : IrState Name} : (b, pc) ∈ opened →
      execInsts (f b).insts s = (t, none) → t.mem = m →
      Arrives f opened cfg pc m (b, s) (f b).pc.toList
  | edge {b d : BlockId} {s t : IrState Name} :
      execInsts (f b).insts s = (t, some (.goto d)) → cfg pc = some d → t.mem = m →
      Arrives f opened cfg pc m (b, s) (f b).pc.toList
  | ret {b : BlockId} {s t : IrState Name} :
      execInsts (f b).insts s = (t, some .ret) → pc = 0 → t.mem = m →
      Arrives f opened cfg pc m (b, s) (f b).pc.toList
  | through {b d : BlockId} {s t : IrState Name} {pcs : List Addr} :
      execInsts (f b).insts s = (t, some (.goto d)) → Arrives f opened cfg pc m (d, t) pcs →
      Arrives f opened cfg pc m (b, s) ((f b).pc.toList ++ pcs)

theorem straight_of_execInsts : ∀ {insts : List (Inst Name)} {s t : IrState Name},
    execInsts insts s = (t, none) → Straight insts ∧ t = execAll insts s
  | [], _, _, h => ⟨Straight.nil, (Prod.mk.inj h).1.symm⟩
  | i :: insts, s, t, h => by
    cases hi : i.isTerminator with
    | false =>
      rw [execInsts_cons hi] at h
      obtain ⟨hstraight, ht⟩ := straight_of_execInsts h
      exact ⟨straight_cons.mpr ⟨hi, hstraight⟩, ht⟩
    | true =>
      cases i with
      | br | condBr | ret | unreachable => cases (Prod.mk.inj h).2
      | _ => cases hi

/-- What becomes of a block that is open for `pc`: it stays, or it is closed by an edge to the block
lifted for `pc`, or by a return at zero. -/
inductive LeafKept (f g : Function) (opened : List (BlockId × Addr)) (cfg : Addr → Option BlockId)
    (b : BlockId) (pc : Addr) : Prop
  | stays : (b, pc) ∈ opened → g b = f b → LeafKept f g opened cfg b pc
  | edge {d : BlockId} : g b = { f b with insts := (f b).insts ++ [.br d] } → cfg pc = some d →
      LeafKept f g opened cfg b pc
  | ret : g b = { f b with insts := (f b).insts ++ [.ret] } → pc = 0 →
      LeafKept f g opened cfg b pc

/-- **What is built later keeps where control comes to.** -/
theorem Arrives.mono (hext : f.Extends g) (hcfg : ∀ pc b, cfg pc = some b → cfg' pc = some b)
    (hopened : ∀ b pc, (b, pc) ∈ opened → LeafKept f g opened' cfg' b pc)
    {x : BlockId × IrState Name} (h : Arrives f opened cfg pc m x pcs) :
    Arrives g opened' cfg' pc m x pcs := by
  induction h with
  | leaf hleaf hexec hmem =>
    rename_i b s t
    obtain ⟨hstraight, ht⟩ := straight_of_execInsts hexec
    cases hopened b pc hleaf with
    | stays hleaf' hb =>
      rw [← hb] at hexec ⊢
      exact .leaf hleaf' hexec hmem
    | edge hb hd =>
      have hpcs : (g b).pc.toList = (f b).pc.toList := by rw [hb]
      rw [← hpcs]
      refine .edge ?_ hd hmem
      rw [hb, execInsts_append hstraight, ht]
      rfl
    | ret hb hpc =>
      have hpcs : (g b).pc.toList = (f b).pc.toList := by rw [hb]
      rw [← hpcs]
      refine .ret ?_ hpc hmem
      rw [hb, execInsts_append hstraight, ht]
      rfl
  | edge hexec hd hmem =>
    rename_i b d s t
    have hb := hext b (not_straight_of_execInsts hexec)
    rw [← hb] at hexec ⊢
    exact .edge hexec (hcfg _ _ hd) hmem
  | ret hexec hpc hmem =>
    rename_i b s t
    have hb := hext b (not_straight_of_execInsts hexec)
    rw [← hb] at hexec ⊢
    exact .ret hexec hpc hmem
  | through hexec hrest ih =>
    rename_i b d s t pcs
    have hb := hext b (not_straight_of_execInsts hexec)
    rw [← hb] at hexec ⊢
    exact .through hexec ih

/-- One more block in front. -/
theorem Visits.cons {x : BlockId × IrState Name} (hexec : execInsts (f b).insts s = (t, some (.goto d)))
    (h : Visits f (d, t) pcs x) : Visits f (b, s) ((f b).pc.toList ++ pcs) x := by
  generalize hx : (d, t) = start at h
  induction h with
  | refl =>
    subst hx
    rw [List.append_nil]
    exact (Visits.refl (b, s)).step hexec
  | step _ hlast ih =>
    rw [← List.append_assoc]
    exact (ih hx).step hlast

/-- **In a finished function** control comes to the block lifted for the program counter, or returns at
zero. -/
theorem Arrives.closed {x : BlockId × IrState Name} (h : Arrives f [] cfg pc m x pcs) :
    (∃ d t, Visits f x pcs (d, t) ∧ cfg pc = some d ∧ t.mem = m) ∨
    (pc = 0 ∧ ∃ pcs' d t t', Visits f x pcs' (d, t) ∧ execInsts (f d).insts t = (t', some .ret) ∧
      pcs' ++ (f d).pc.toList = pcs ∧ t'.mem = m) := by
  induction h with
  | leaf hleaf _ _ => cases hleaf
  | edge hexec hd hmem => exact .inl ⟨_, _, (Visits.refl _).step hexec, hd, hmem⟩
  | ret hexec hpc hmem => exact .inr ⟨hpc, [], _, _, _, .refl _, hexec, rfl, hmem⟩
  | through hexec _ ih =>
    rcases ih with ⟨d, t, hvisits, hd, hmem⟩ | ⟨hpc, pcs', d, t, t', hvisits, hret, rfl, hmem⟩
    · exact .inl ⟨d, t, hvisits.cons hexec, hd, hmem⟩
    · exact .inr ⟨hpc, _, d, t, t', hvisits.cons hexec, hret, List.append_assoc .., hmem⟩

/-! ### The current block -/

variable {c c' c₁ : Cpu} {types : Types Name} {target : Addr}

/-- The function without the instructions noted down for erasing. -/
def Cpu.emitted (c : Cpu) : Function := c.eraseDeletedInstructions.function

/-- The open blocks of the paths that go on, with the program counters they are open for. -/
def Cpu.leaves (c : Cpu) : List (BlockId × Addr) :=
  (c.insertPoint, c.pc) :: c.unexploredPaths.map fun ss => (ss.bb, ss.pc)

/-- The program counters a step goes on with: of the path, and of the paths it saved. -/
def Cpu.exits (c c' : Cpu) : List Addr :=
  c'.pc :: (c'.unexploredPaths.take (c'.unexploredPaths.length - c.unexploredPaths.length)).map Snapshot.pc

theorem Cpu.exits_of_same (h : c'.unexploredPaths = c.unexploredPaths) : c.exits c' = [c'.pc] := by
  rw [Cpu.exits, h, Nat.sub_self, List.take_zero, List.map_nil]

theorem Cpu.eq_of_mem_exits {a : Addr} (h : a ∈ c.exits c')
    (hsame : c'.unexploredPaths = c.unexploredPaths) : a = c'.pc := by
  rw [Cpu.exits_of_same hsame] at h
  exact List.mem_singleton.mp h

theorem Cpu.exits_of_cons {ss : Snapshot} (h : c'.unexploredPaths = ss :: c.unexploredPaths) :
    c.exits c' = [c'.pc, ss.pc] := by
  have hone : c'.unexploredPaths.length - c.unexploredPaths.length = 1 := by
    rw [h, List.length_cons]
    omega
  rw [Cpu.exits, hone, h, List.take_succ_cons, List.take_zero, List.map_cons, List.map_nil]

theorem Cpu.exits_congr (h : c₁.unexploredPaths = c.unexploredPaths) : c₁.exits c' = c.exits c' := by
  rw [Cpu.exits, h, Cpu.exits]

theorem forkPath_exits (condition : DualValue) (jumpPc fallthroughPc : Addr) (c : Cpu) :
    c.exits (forkPath M condition jumpPc fallthroughPc c) = [jumpPc, fallthroughPc] := by
  obtain ⟨ss, hpaths, hpc⟩ : ∃ ss, (forkPath M condition jumpPc fallthroughPc c).unexploredPaths
      = ss :: c.unexploredPaths ∧ ss.pc = fallthroughPc := ⟨_, rfl, rfl⟩
  rw [Cpu.exits_of_cons hpaths, hpc]
  rfl

/-- A branch that is solved goes on with one side, and another with both. -/
theorem branching_exits {condition : DualValue} {jumpPc fallthroughPc : Addr}
    (h : branching M condition jumpPc fallthroughPc c = .ok c') :
    ∀ a ∈ c.exits c', a = jumpPc ∨ a = fallthroughPc := by
  rcases branching_cases h with ⟨v, taken, _, _, rfl⟩ | ⟨v, _, rfl⟩
  · intro a ha
    obtain rfl := Cpu.eq_of_mem_exits ha rfl
    cases taken with
    | true => exact .inl rfl
    | false => exact .inr rfl
  · intro a ha
    rw [forkPath_exits] at ha
    simpa using ha

theorem Cpu.emitted_eq (h : ∀ n, (b, n) ∉ c.toDelete) : c.emitted b = c.function b := by
  have hinsts : (c.emitted b).insts = (c.function b).insts := by
    refine (eraseDeletedInstructions_insts c b).trans ?_
    simp [h]
  show { c.function b with insts := (c.emitted b).insts } = c.function b
  rw [hinsts]

/-- The code of the current block, entered in `s`, ends in `u`, and nothing of it is to be erased. -/
structure Cpu.Entered (c : Cpu) (s u : IrState Name) : Prop where
  building : c.Building
  straight : Straight (c.function c.insertPoint).insts
  kept : ∀ d ∈ c.toDelete, d.1 < c.insertPoint
  exec : execAll (c.function c.insertPoint).insts s = u

/-- From the start of the current block control comes to where `c'` has it open for `target`. -/
def Cpu.Leads (c c' : Cpu) (s : IrState Name) (target : Addr) (m : Bytes) : Prop :=
  Arrives c'.emitted c'.leaves c'.cfg target m (c.insertPoint, s) (c.function c.insertPoint).pc.toList

namespace Cpu.Entered

theorem emitted_eq (h : c.Entered s u) (hb : c.insertPoint ≤ b) : c.emitted b = c.function b :=
  Cpu.emitted_eq fun _ hmem => absurd (h.kept _ hmem) (Nat.not_lt.mpr hb)

/-- The same code. -/
theorem of_eq (h : c.Entered s u) (hinsts : (c'.function c.insertPoint).insts
      = (c.function c.insertPoint).insts) (hblock : c'.block = c.block)
    (hinsert : c'.insertPoint = c.insertPoint) (hnum : c'.numBlocks = c.numBlocks)
    (hdelete : c'.toDelete = c.toDelete) : c'.Entered s u where
  building := ⟨by rw [hblock, hinsert, h.building.block], by rw [hinsert, hnum]; exact h.building.lt⟩
  straight := by rw [hinsert, hinsts]; exact h.straight
  kept := by rw [hdelete, hinsert]; exact h.kept
  exec := by rw [hinsert, hinsts]; exact h.exec

/-- An instruction the builder makes. -/
theorem append (h : c.Entered s u) {i : Inst Name} (hi : i.isTerminator = false)
    (hexec : c.exec M i = .ok c') : c'.Entered s (i.exec u) := by
  have hgoes := Cpu.exec_goesOn hexec hi
  obtain ⟨s', _, rfl⟩ := Cpu.exec_eq hexec
  have hinsts : ((c.create i).function c.insertPoint).insts = (c.function c.insertPoint).insts ++ [i] :=
    congrArg BasicBlock.insts (c.function_create_self i)
  refine ⟨hgoes.building h.building, ?_, h.kept, ?_⟩
  · show Straight ((c.create i).function c.insertPoint).insts
    rw [hinsts]
    exact straight_append.mpr ⟨h.straight, straight_singleton.mpr hi⟩
  · show execAll ((c.create i).function c.insertPoint).insts s = _
    rw [hinsts, execAll_append, h.exec]
    rfl

/-- The path goes on in the block. -/
theorem leads (h : c.Entered s u) (hpc : c.pc = target) : c.Leads c s target u.mem := by
  rw [Cpu.Leads, ← h.emitted_eq (Nat.le_refl _)]
  refine .leaf (t := u) ?_ ?_ rfl
  · rw [← hpc]
    exact List.mem_cons_self ..
  · rw [h.emitted_eq (Nat.le_refl _), execInsts_of_straight h.straight, h.exec]

/-- **A fork** goes on at both sides. -/
theorem forkPath (h : c.Entered s u) {condition : DualValue} {dst : Name} (hl : condition.l = .ssa dst)
    {jumpPc fallthroughPc : Addr} (htarget : target = if u.env dst = 1 then jumpPc else fallthroughPc) :
    c.Leads (Vexa.forkPath M condition jumpPc fallthroughPc c) s target u.mem := by
  have hc := h.building
  have hself := forkPath_function_self (M := M) condition jumpPc fallthroughPc hc
  set c' := Vexa.forkPath M condition jumpPc fallthroughPc c
  have hemitted : ∀ {b}, c.insertPoint ≤ b → c'.emitted b = c'.function b := fun hb =>
    Cpu.emitted_eq fun _ hmem => absurd (h.kept _ hmem) (Nat.not_lt.mpr hb)
  have hempty : ∀ {b}, b = c.numBlocks + 1 ∨ b = c.numBlocks → c'.emitted b = ⟨none, [], [], []⟩ := by
    intro b hor
    have hlt : c.insertPoint < b := by
      rcases hor with rfl | rfl
      · exact Nat.lt_succ_of_lt hc.lt
      · exact hc.lt
    rw [hemitted hlt.le]
    exact (forkPath_function_of_ne _ _ _ hc hlt.ne').trans (if_pos hor)
  have hpcs : (c'.emitted c.insertPoint).pc.toList = (c.function c.insertPoint).pc.toList := by
    rw [hemitted (Nat.le_refl _), hself]
  rw [Cpu.Leads, ← hpcs, ← List.append_nil (c'.emitted c.insertPoint).pc.toList]
  have hexec : execInsts (c'.emitted c.insertPoint).insts s
      = (u, some (.goto (if u.env dst = 1 then c.numBlocks else c.numBlocks + 1))) := by
    rw [hemitted (Nat.le_refl _), hself, execInsts_append h.straight, h.exec, hl]
    rfl
  refine .through hexec ?_
  have hside : ∀ {b pc}, b = c.numBlocks + 1 ∨ b = c.numBlocks → (b, pc) ∈ c'.leaves →
      Arrives c'.emitted c'.leaves c'.cfg pc u.mem (b, u) [] := by
    intro b pc hor hleaf
    have hexec : execInsts (c'.emitted b).insts u = (u, none) := by
      rw [hempty hor]
      rfl
    have harrives : Arrives c'.emitted c'.leaves c'.cfg pc u.mem (b, u) (c'.emitted b).pc.toList :=
      .leaf hleaf hexec rfl
    rwa [hempty hor] at harrives
  rw [htarget]
  by_cases hone : u.env dst = 1
  · rw [if_pos hone, if_pos hone]
    exact hside (.inr rfl) (List.mem_cons_self ..)
  · rw [if_neg hone, if_neg hone]
    exact hside (.inl rfl) (List.mem_cons_of_mem _ (List.mem_cons_self ..))

end Cpu.Entered

/-- The same block before. -/
theorem Cpu.Leads.of_eq (h : c₁.Leads c' s target m) (hinsert : c₁.insertPoint = c.insertPoint)
    (hpc : (c₁.function c.insertPoint).pc = (c.function c.insertPoint).pc) :
    c.Leads c' s target m := by
  rw [Cpu.Leads, ← hpc, ← hinsert]
  exact h

/-! ### Control flow -/

/-- The block without a terminator, perhaps with targets. -/
theorem Cpu.Entered.goesOn (h : c.Entered s u) {targets : List Addr}
    (hself : c'.function c.insertPoint = { c.function c.insertPoint with targets := targets })
    (hblock : c'.block = c.block) (hinsert : c'.insertPoint = c.insertPoint)
    (hnum : c'.numBlocks = c.numBlocks) (hdelete : c'.toDelete = c.toDelete) (hpc : c'.pc = target) :
    c.Leads c' s target u.mem := by
  have hentered : c'.Entered s u :=
    h.of_eq (congrArg BasicBlock.insts hself :) hblock hinsert hnum hdelete
  exact (hentered.leads hpc).of_eq hinsert (congrArg BasicBlock.pc hself :)

/-- **A branch** forks, or goes on with the side it was solved for. -/
theorem Cpu.Entered.branching (h : c.Entered s u) {condition : DualValue} {dst : Name}
    (hl : condition.l = .ssa dst) {jumpPc fallthroughPc : Addr}
    (hbranch : Vexa.branching M condition jumpPc fallthroughPc c = .ok c')
    (htarget : target = if u.env dst = 1 then jumpPc else fallthroughPc) (hfound : target ∈ c.exits c') :
    c.Leads c' s target u.mem := by
  rcases branching_cases hbranch with ⟨v, taken, _, _, rfl⟩ | ⟨v, _, rfl⟩
  · have hself : c.function c.insertPoint = { c.function c.insertPoint with
        targets := (c.function c.insertPoint).targets } := rfl
    exact h.goesOn hself rfl rfl rfl rfl (Cpu.eq_of_mem_exits hfound rfl).symm
  · have hside : DualValue.l ⟨condition.l, v⟩ = .ssa dst := hl
    exact h.forkPath hside htarget

/-- **A conditional branch** to a side the path went on with. -/
theorem Cpu.Entered.conditionalBranch (h : c.Entered s u)
    (hholds : HoldsVariables types u (c.function c.block).insts) {jumpPc fallthroughPc : Addr}
    (htarget : target
      = if u.mem.load (branchTakenPage, 0) 1 % 2 = 1 then jumpPc else fallthroughPc)
    {cond : DualValue × Cpu} (hcond : getCondition M c = .ok cond)
    (hbranch : Vexa.branching M cond.1 jumpPc fallthroughPc cond.2 = .ok c')
    (hfound : target ∈ c.exits c') : c.Leads c' s target u.mem := by
  obtain ⟨w, name, hlast, hexec, hl, _⟩ := getCondition_eq hcond
  obtain ⟨rfl, _, hlow⟩ := hholds.branchTaken hlast
  set dst : Name := ⟨c.block, 0, (0, 1)⟩
  have hentered := h.append (i := .cast dst .trunc 8 1 (.ssa name)) rfl hexec
  have hbit : (Inst.exec (.cast dst .trunc 8 1 (.ssa name)) u).env dst
      = u.mem.load (branchTakenPage, 0) 1 % 2 := (Function.update_self ..).trans hlow
  rw [← hbit] at htarget
  rw [← Cpu.exits_congr (Cpu.exec_extends hexec).unexploredPaths] at hfound
  have hleads := hentered.branching hl hbranch htarget hfound
  obtain ⟨s', _, heq⟩ := Cpu.exec_eq hexec
  have hself := c.function_create_self (.cast dst .trunc 8 1 (.ssa name))
  rw [heq] at hleads
  exact hleads.of_eq rfl (congrArg BasicBlock.pc hself :)

/-- **An indirect jump** to a target the path went on with. -/
theorem Cpu.Entered.indirectJump (h : c.Entered s u)
    (hholds : HoldsVariables types u (c.function c.block).insts)
    (htarget : target = BitVec.ofNat 64 (u.mem.load (nextPcPage, 0) 8)) {r : Outcome × Cpu}
    (hjump : Vexa.indirectJump M c = .ok r) (hstatus : r.1.status = .successful)
    (hfound : target ∈ c.exits r.2) : c.Leads r.2 s target u.mem := by
  obtain ⟨next, hnext, hcases⟩ := indirectJump_cases hjump
  obtain ⟨w, hlast, _⟩ := getNextPc_eq hnext
  obtain ⟨rfl, _, hnextPc⟩ := hholds.nextPc hlast
  have htargets : ∀ (c' : Cpu) (targets : List Addr), c'.function = c.function → c'.block = c.block →
      (c'.setTargets targets).function c.insertPoint
        = { c.function c.insertPoint with targets := targets } := by
    intro c' targets hfunction hblock
    have hself := c'.function_setTargets_self targets
    rwa [hblock, h.building.block, hfunction] at hself
  rcases hcases with ⟨target', _, _, rfl⟩ | ⟨_, hcases⟩
  · have hself := htargets (c.rewriteTarget M next) [target'] rfl rfl
    exact h.goesOn hself rfl rfl rfl rfl (Cpu.eq_of_mem_exits hfound rfl).symm
  rcases hcases with ⟨addr, target', _, _, rfl⟩ |
    ⟨front, back, jumpPc, fallthroughPc, c₁, cond, c₂, _, _, _, hexec, _, hbranch, rfl⟩ | ⟨_, _, rfl⟩
  · have hself := htargets (c.enumerateTarget M next) [target'] rfl rfl
    exact h.goesOn hself rfl rfl rfl rfl (Cpu.eq_of_mem_exits hfound rfl).symm
  · have hself := htargets (c.enumerateTarget M next) [jumpPc, fallthroughPc] rfl rfl
    have hcompared := (h.of_eq
      (congrArg BasicBlock.insts hself :) rfl rfl rfl rfl).append rfl hexec
    -- the comparison with the first target tells the two apart
    obtain ⟨s', _, rfl⟩ := Cpu.exec_eq hexec
    set c₁ : Cpu := { ((c.enumerateTarget M next).setTargets [jumpPc, fallthroughPc]).create
      (compareTarget next jumpPc c) with symex := s' }
    have hcompare : c₁.function c.insertPoint = { c.function c.insertPoint with
        insts := (c.function c.insertPoint).insts ++ [compareTarget next jumpPc c]
        targets := [jumpPc, fallthroughPc] } := by
      have hcreate := ((c.enumerateTarget M next).setTargets
        [jumpPc, fallthroughPc]).function_create_self (compareTarget next jumpPc c)
      refine hcreate.trans ?_
      show ({ ((c.enumerateTarget M next).setTargets _).function c.insertPoint with
        insts := (((c.enumerateTarget M next).setTargets _).function c.insertPoint).insts ++ _ }
          : BasicBlock) = _
      rw [hself]
    have hbit : ((compareTarget next jumpPc c).exec u).env ⟨c.block, 0, (0, 2)⟩
        = (decide (BitVec.ofNat 64 (next.l.eval u.env) = jumpPc)).toNat :=
      (Function.update_self ..).trans (congrArg _ (eval_eq_address _ _))
    have hfound₁ : target ∈ c₁.exits c₂ := hfound
    have hmem := branching_exits hbranch target hfound₁
    have hchoice : target = if ((compareTarget next jumpPc c).exec u).env ⟨c.block, 0, (0, 2)⟩ = 1
        then jumpPc else fallthroughPc := by
      rw [hbit, ← hnextPc, ← htarget]
      rcases hmem with heq | heq
      · simp [heq]
      · by_cases hjump : target = jumpPc
        · simp [hjump]
        · simp [heq ▸ hjump, heq]
    exact (hcompared.branching rfl hbranch hchoice hfound₁).of_eq rfl (congrArg BasicBlock.pc hcompare :)
  · cases hstatus

end Vexa
