import Vexa.PathHistory

/-!
# Virtual CFG recovery

A callback that recognises the dispatcher of a virtual machine sets `cpu::VPC` to the virtual program
counter of the next handler and `cpu::VJMP` to true. At the next step `CFG_recovery` looks the virtual
program counter up and joins the path to the block found, or the block lifted next is entered in the
table with `try_emplace`, as every lifted block is, under whatever `VPC` is at the time.

`VPC` is zero before anything is dispatched, so the first block ever lifted is entered under zero. As
long as no dispatch to zero is reported, every entry that can be asked for is the first block lifted
after a dispatch to it.

## Main definitions

* `Machine.DispatchOnly` — callbacks report dispatches at indirect jumps and change nothing else
* `Explored.dispatch`, `dispatchLog`, `firstLifted` — the blocks lifted after dispatches
* `VirtualInvariant` — the table agrees with the log

## Main results

* `virtualRecovery_dispatches_iff` — the entries of the table, and when the edges made from it are right
-/

namespace Vexa

variable {M : Machine} {c c' c₀ : Cpu} {e e' e₀ : Explored} {outcome : Outcome}
  {trace : List (Explored × Outcome)} {v : Addr} {b : BlockId}

/-- The callbacks leave `VPC` and `VJMP` alone, but that at an indirect jump they may set `VPC` to any
value and `VJMP` to true. -/
def Machine.DispatchOnly (M : Machine) : Prop :=
  ∀ k c, ((M.callback k c).vpc = c.vpc ∧ (M.callback k c).vjmp = c.vjmp) ∨
    (k = .indirectJump ∧ (M.callback k c).vjmp = true)

/-- The dispatch that was reported by the call before, if one was. -/
def Explored.dispatch (e : Explored) : Option Addr :=
  if e.cpu.vjmp then some e.cpu.vpc else none

/-- The blocks lifted in a run, in order, each with the dispatch it was lifted after. -/
def lifts (trace : List (Explored × Outcome)) : List (Option Addr × BlockId) :=
  trace.filterMap fun call => call.2.liftedBlock.map fun b => (call.1.dispatch, b)

/-- The blocks that count for a join: all of the run, or those of the path. -/
def dispatchLog (policy : CfgJoinPolicy) (trace : List (Explored × Outcome))
    (path : List (Addr × BlockId)) : List (Option Addr × BlockId) :=
  match policy with
  | .mergeByPc => lifts trace
  | .specializeByPath => (lifts trace).filter fun entry => entry.2 ∈ path.map Prod.snd

/-- The first block lifted after a dispatch to `v`. -/
def firstLifted (log : List (Option Addr × BlockId)) (v : Addr) : Option BlockId :=
  (log.find? fun entry => entry.1 = some v).map Prod.snd

/-- The table `CFG_recovery` asks. -/
def joinMap (policy : CfgJoinPolicy) (path vcfg : Addr → Option BlockId) : Addr → Option BlockId :=
  match policy with
  | .mergeByPc => vcfg
  | .specializeByPath => path

/-- `std::unordered_map::try_emplace`. -/
def tryEmplace (map : Addr → Option BlockId) (v : Addr) (b : BlockId) : Addr → Option BlockId :=
  if (map v).isSome then map else Function.update map v (some b)

/-! ### The log -/

theorem firstLifted_append (log : List (Option Addr × BlockId)) (entry : Option Addr × BlockId)
    (v : Addr) : firstLifted (log ++ [entry]) v =
      (firstLifted log v).or (if entry.1 = some v then some entry.2 else none) := by
  rw [firstLifted, firstLifted, List.find?_append]
  cases log.find? fun entry => decide (entry.1 = some v) with
  | some found => rfl
  | none =>
    by_cases h : entry.1 = some v
    · simp [h]
    · simp [h]

theorem lifts_append_of_none (h : outcome.liftedBlock = none) :
    lifts (trace ++ [(e, outcome)]) = lifts trace := by
  simp [lifts, h]

theorem lifts_append_of_some (h : outcome.liftedBlock = some b) :
    lifts (trace ++ [(e, outcome)]) = lifts trace ++ [(e.dispatch, b)] := by
  simp [lifts, h]

/-- Nothing is lifted: the log stays. -/
theorem dispatchLog_of_none (policy : CfgJoinPolicy) (path : List (Addr × BlockId))
    (h : outcome.liftedBlock = none) :
    dispatchLog policy (trace ++ [(e, outcome)]) path = dispatchLog policy trace path := by
  cases policy <;> simp only [dispatchLog, lifts_append_of_none h]

/-- A block of the log was lifted by a call. -/
theorem exists_call_of_mem_lifts {entry : Option Addr × BlockId} (h : entry ∈ lifts trace) :
    ∃ call ∈ trace, call.2.liftedBlock = some entry.2 := by
  obtain ⟨call, hmem, hentry⟩ := List.mem_filterMap.mp h
  obtain ⟨b, hb, rfl⟩ := Option.map_eq_some_iff.mp hentry
  exact ⟨call, hmem, hb⟩

/-- A block is lifted: on the path it is the last of the log. -/
theorem dispatchLog_lifted (policy : CfgJoinPolicy) (htree : Tree trace e)
    (hb : outcome.liftedBlock = some e.cpu.numBlocks) :
    dispatchLog policy (trace ++ [(e, outcome)]) (e.lifted outcome) =
      dispatchLog policy trace e.path ++ [(e.dispatch, e.cpu.numBlocks)] := by
  cases policy with
  | mergeByPc => exact lifts_append_of_some hb
  | specializeByPath =>
    have hlifted : e.lifted outcome = e.path ++ [(e.cpu.pc, e.cpu.numBlocks)] := by
      rw [Explored.lifted, hb]
    simp only [dispatchLog]
    rw [lifts_append_of_some hb, List.filter_append, hlifted]
    congr 1
    · refine List.filter_congr fun entry hentry => ?_
      obtain ⟨call, hmem, hcall⟩ := exists_call_of_mem_lifts hentry
      have hne : entry.2 ≠ e.cpu.numBlocks := (htree.lt call hmem _ hcall).ne
      simp [hne]
    · simp

/-- A block is lifted: the other paths do not see it. -/
theorem dispatchLog_pending (htree : Tree trace e) {path : List (Addr × BlockId)}
    (hpath : path ∈ e.pending) (hb : outcome.liftedBlock = some e.cpu.numBlocks) :
    dispatchLog .specializeByPath (trace ++ [(e, outcome)]) path =
      dispatchLog .specializeByPath trace path := by
  have hnot : e.cpu.numBlocks ∉ path.map Prod.snd := by
    intro hmem
    obtain ⟨⟨pc, b⟩, hmem, rfl⟩ := List.mem_map.mp hmem
    obtain ⟨before, after, hsplit⟩ := List.append_of_mem hmem
    obtain ⟨call, hcall, hblock, _⟩ :=
      htree.nodes path (List.mem_cons_of_mem _ hpath) before pc _ after hsplit
    exact lt_irrefl _ (htree.lt call hcall _ hblock)
  simp only [dispatchLog]
  rw [lifts_append_of_some hb, List.filter_append, List.filter_cons_of_neg (by simpa using hnot),
    List.filter_nil, List.append_nil]

/-! ### The table -/

theorem tryEmplace_eq (map : Addr → Option BlockId) (w : Addr) (b : BlockId) (v : Addr) :
    tryEmplace map w b v = (map v).or (if w = v then some b else none) := by
  rw [tryEmplace]
  split
  · next h =>
    by_cases hv : w = v
    · subst hv
      obtain ⟨b', hb'⟩ := Option.isSome_iff_exists.mp h
      rw [hb']
      rfl
    · rw [if_neg hv, Option.or_none]
  · next h =>
    by_cases hv : w = v
    · subst hv
      rw [Function.update_self, if_pos rfl, Option.not_isSome_iff_eq_none.mp h]
      rfl
    · rw [Function.update_of_ne (Ne.symm hv), if_neg hv, Option.or_none]

theorem tryEmplace_isSome {map : Addr → Option BlockId} {v : Addr} (h : (map v).isSome = true)
    (w : Addr) (b : BlockId) : (tryEmplace map w b v).isSome = true := by
  rw [tryEmplace_eq, Option.isSome_or, h, Bool.true_or]

theorem tryEmplace_isSome_self (map : Addr → Option BlockId) (w : Addr) (b : BlockId) :
    (tryEmplace map w b w).isSome = true := by
  rw [tryEmplace_eq, if_pos rfl, Option.isSome_or, Option.isSome_some, Bool.or_true]

/-- The table has the blocks of the log, except for zero. -/
structure TableAgrees (map : Addr → Option BlockId) (log : List (Option Addr × BlockId)) : Prop where
  table : ∀ v, v ≠ 0 → map v = firstLifted log v
  zero : firstLifted log 0 = none

/-- The table has an entry for the current virtual program counter, unless a dispatch to it is still to
be served or nothing was lifted yet, and once something was lifted it has one for zero. -/
structure Settled (map : Addr → Option BlockId) (vpc : Addr) (vjmp : Bool) : Prop where
  current : vjmp = false → vpc ≠ 0 → (map vpc).isSome = true
  zero : vjmp = true ∨ vpc ≠ 0 → (map 0).isSome = true

theorem Settled.tryEmplace {map : Addr → Option BlockId} {vpc : Addr} {vjmp : Bool}
    (h : Settled map vpc vjmp) (w : Addr) (b : BlockId) :
    Settled (Vexa.tryEmplace map w b) vpc vjmp :=
  ⟨fun hvjmp hvpc => tryEmplace_isSome (h.current hvjmp hvpc) w b,
    fun hor => tryEmplace_isSome (h.zero hor) w b⟩

/-- After a block is entered both entries are there. -/
theorem Settled.enter {map : Addr → Option BlockId} {w vpc : Addr} {vjmp vjmp' : Bool}
    (h : Settled map w vjmp) (b : BlockId) (hvpc : vjmp' = true ∨ vpc = w) :
    Settled (Vexa.tryEmplace map w b) vpc vjmp' := by
  refine ⟨fun hvjmp _ => ?_, fun _ => ?_⟩
  · rcases hvpc with htrue | rfl
    · rw [hvjmp] at htrue
      cases htrue
    · exact tryEmplace_isSome_self map vpc b
  · by_cases hw : w = 0
    · subst hw
      exact tryEmplace_isSome_self map 0 b
    · exact tryEmplace_isSome (h.zero (.inr hw)) w b

/-- **Entering a block**: after a dispatch that found nothing the table and the log get the same entry,
and otherwise neither gets one, but that the first block of all is entered under zero. -/
theorem TableAgrees.enter {map : Addr → Option BlockId} {log : List (Option Addr × BlockId)} {w : Addr}
    {vjmp : Bool} (h : TableAgrees map log) (hsettled : Settled map w vjmp)
    (hnone : vjmp = true → map w = none) (b : BlockId) :
    TableAgrees (tryEmplace map w b) (log ++ [(if vjmp then some w else none, b)]) := by
  cases vjmp with
  | true =>
    have hw : w ≠ 0 := by
      rintro rfl
      have hzero := hsettled.zero (.inl rfl)
      rw [hnone rfl] at hzero
      cases hzero
    refine ⟨fun v hv => ?_, ?_⟩
    · rw [tryEmplace_eq, firstLifted_append, h.table v hv]
      by_cases hwv : w = v
      · rw [if_pos hwv, if_pos rfl, if_pos (congrArg some hwv)]
      · rw [if_neg hwv, if_pos rfl, if_neg fun heq => hwv (Option.some.inj heq)]
    · rw [firstLifted_append, h.zero, if_pos rfl, if_neg fun heq => hw (Option.some.inj heq)]
      rfl
  | false =>
    have hlog : ∀ v, firstLifted (log ++ [(none, b)]) v = firstLifted log v := by
      intro v
      rw [firstLifted_append, if_neg nofun, Option.or_none]
    refine ⟨fun v hv => ?_, (hlog 0).trans h.zero⟩
    refine Eq.trans ?_ (hlog v).symm
    rw [tryEmplace_eq]
    by_cases hwv : w = v
    · subst hwv
      obtain ⟨b', hb'⟩ := Option.isSome_iff_exists.mp (hsettled.current rfl hv)
      rw [← h.table w hv, hb']
      rfl
    · rw [if_neg hwv, Option.or_none, h.table v hv]

/-! ### One step -/

/-- `VPC` and `VJMP` stay, also on a path that is saved. -/
structure Cpu.Quiet (c c' : Cpu) : Prop where
  vpc : c'.vpc = c.vpc
  vjmp : c'.vjmp = c.vjmp
  unexploredPaths : c'.unexploredPaths = c.unexploredPaths ∨
    ∃ ss, c'.unexploredPaths = ss :: c.unexploredPaths ∧ ss.vpc = c.vpc ∧ ss.vjmp = c.vjmp

/-- A callback reported a dispatch, last of all. -/
structure Cpu.Reports (M : Machine) (c c' : Cpu) : Prop where
  vjmp : c'.vjmp = true
  handled : ∃ c₁ : Cpu, c' = c₁.eventHandler M .indirectJump
  unexploredPaths : c'.unexploredPaths = c.unexploredPaths

theorem Cpu.Quiet.of_extends {c₁ c₂ c₃ : Cpu} (h : c₁.Extends c₂) (h' : c₂.Quiet c₃) :
    c₁.Quiet c₃ := by
  refine ⟨h'.vpc.trans h.vpc, h'.vjmp.trans h.vjmp, ?_⟩
  rw [← h.unexploredPaths, ← h.vpc, ← h.vjmp]
  exact h'.unexploredPaths

theorem Cpu.Quiet.eventHandler (hM : M.DispatchOnly) {k : EventKind} (hk : k ≠ .indirectJump)
    (h : c.Quiet c') : c.Quiet (c'.eventHandler M k) := by
  obtain ⟨hvpc, hvjmp⟩ := (hM k c').resolve_right fun hjump => hk hjump.1
  exact ⟨hvpc.trans h.vpc, hvjmp.trans h.vjmp, h.unexploredPaths⟩

theorem branching_quiet (hM : M.DispatchOnly) {condition : DualValue} {jumpPc fallthroughPc : Addr}
    (h : branching M condition jumpPc fallthroughPc c = .ok c') : c.Quiet c' := by
  rcases branching_cases h with ⟨v, taken, _, _, rfl⟩ | ⟨v, _, rfl⟩
  · refine Cpu.Quiet.eventHandler hM ?_ ⟨rfl, rfl, .inl rfl⟩
    cases taken <;> exact fun heq => by cases heq
  · rw [forkPath]
    exact Cpu.Quiet.eventHandler hM (fun heq => by cases heq) ⟨rfl, rfl, .inr ⟨_, rfl, rfl, rfl⟩⟩

theorem handleConditionalMoves_quiet {inst : Instruction}
    (h : handleConditionalMoves M inst c = .ok c') : c.Quiet c' := by
  rw [handleConditionalMoves] at h
  split at h
  · cases h
  simp only [Except.bind_eq_ok] at h
  obtain ⟨cond, _, ⟨trueVal, c₁⟩, htrue, ⟨falseVal, c₂⟩, hfalse, ⟨verdict, v⟩, _, h⟩ := h
  have hmat : c.Extends c₂ := (materialize_extends htrue).trans (materialize_extends hfalse)
  refine Cpu.Quiet.of_extends hmat ?_
  cases verdict with
  | some result =>
    obtain ⟨s, _, rfl⟩ := Cpu.exec_eq h
    exact ⟨rfl, rfl, .inl rfl⟩
  | none =>
    simp only [forkMove, Except.bind_eq_ok, Except.pure_eq_ok] at h
    obtain ⟨c₃, h₃, c₄, h₄, rfl⟩ := h
    obtain ⟨s₃, _, rfl⟩ := Cpu.exec_eq h₃
    obtain ⟨s₄, _, rfl⟩ := Cpu.exec_eq h₄
    exact ⟨rfl, rfl, .inr ⟨_, rfl, rfl, rfl⟩⟩

theorem indirectJump_quiet (hM : M.DispatchOnly) {r : Outcome × Cpu}
    (h : indirectJump M c = .ok r) : c.Quiet r.2 ∨ c.Reports M r.2 := by
  obtain ⟨next, _, ⟨target, _, _, rfl⟩ | ⟨_, hcases⟩⟩ := indirectJump_cases h
  · rcases hM .indirectJump { (c.rewriteTarget M next).setTargets [target] with pc := target } with
      ⟨hvpc, hvjmp⟩ | ⟨_, hvjmp⟩
    · exact .inl ⟨hvpc, hvjmp, .inl rfl⟩
    · exact .inr ⟨hvjmp, ⟨_, rfl⟩, rfl⟩
  rcases hcases with ⟨addr, target, _, _, rfl⟩ |
    ⟨front, back, jumpPc, fallthroughPc, c₁, cond, c₂, _, _, _, hexec, _, hbranch, rfl⟩ |
    ⟨_, _, rfl⟩
  · exact .inl ⟨rfl, rfl, .inl rfl⟩
  · obtain ⟨s, _, rfl⟩ := Cpu.exec_eq hexec
    have hquiet := branching_quiet hM hbranch
    exact .inl ⟨hquiet.vpc, hquiet.vjmp, hquiet.unexploredPaths⟩
  · exact .inl ⟨rfl, rfl, .inl rfl⟩

/-- Dispatches are reported at indirect jumps with a constant target. -/
theorem controlFlow_quiet (hM : M.DispatchOnly) {inst : Instruction} {r : Outcome × Cpu}
    (h : controlFlow M inst c = .ok r) : c.Quiet r.2 ∨ c.Reports M r.2 := by
  rcases controlFlow_cases h with ⟨_, ⟨cond, c₁⟩, c₂, hcond, hbranch, rfl⟩ | ⟨_, rfl⟩ | ⟨_, hjump⟩ |
    ⟨_, _, c₁, hmove, rfl⟩ | ⟨_, _, rfl⟩
  · exact .inl (.of_extends (getCondition_extends hcond) (branching_quiet hM hbranch))
  · exact .inl (Cpu.Quiet.eventHandler hM (fun heq => by cases heq) ⟨rfl, rfl, .inl rfl⟩)
  · exact indirectJump_quiet hM hjump
  · have hquiet := handleConditionalMoves_quiet hmove
    exact .inl ⟨hquiet.vpc, hquiet.vjmp, hquiet.unexploredPaths⟩
  · exact .inl ⟨rfl, rfl, .inl rfl⟩

/-- What lifting an instruction does in virtual recovery: the block is entered in the table, and then
the path goes on quietly, forks, or has a dispatch reported. -/
structure Cpu.LiftsVirtual (M : Machine) (c c' : Cpu) : Prop where
  map : joinMap M.joinPolicy c'.path c'.vcfg =
    tryEmplace (joinMap M.joinPolicy c.path c.vcfg) c.vpc c.numBlocks
  leaves : (c'.vpc = c.vpc ∧ c'.vjmp = c.vjmp ∧ (c'.unexploredPaths = c.unexploredPaths ∨
    ∃ ss, c'.unexploredPaths = ss :: c.unexploredPaths ∧ ss.vpc = c.vpc ∧ ss.vjmp = c.vjmp ∧
      ss.path = c'.path)) ∨
    (c'.vjmp = true ∧ (∃ c₁ : Cpu, c' = c₁.eventHandler M .indirectJump) ∧
      c'.unexploredPaths = c.unexploredPaths)

theorem saveBlock_virtual (hmode : M.mode = .vcfgRecovery) (c : Cpu) :
    joinMap M.joinPolicy (saveBlock M c).path (saveBlock M c).vcfg =
      tryEmplace (joinMap M.joinPolicy c.path c.vcfg) c.vpc c.block ∧
    (saveBlock M c).vpc = c.vpc ∧ (saveBlock M c).vjmp = c.vjmp := by
  have htry : ∀ (map : Addr → Option BlockId), tryEmplace map c.vpc c.block =
      if (map c.vpc).isSome then map else Function.update map c.vpc (some c.block) := fun _ => rfl
  rw [saveBlock, hmode]
  cases M.joinPolicy with
  | specializeByPath =>
    simp only [joinMap]
    rw [htry]
    by_cases h : (c.path c.vpc).isSome = true
    · rw [if_pos h, if_pos h]
      exact ⟨rfl, rfl, rfl⟩
    · rw [if_neg h, if_neg h]
      exact ⟨rfl, rfl, rfl⟩
  | mergeByPc =>
    simp only [joinMap]
    rw [htry]
    by_cases h : (c.vcfg c.vpc).isSome = true
    · rw [if_pos h, if_pos h]
      exact ⟨rfl, rfl, rfl⟩
    · rw [if_neg h, if_neg h]
      exact ⟨rfl, rfl, rfl⟩

theorem liftInstruction_virtual (hmode : M.mode = .vcfgRecovery) (hM : M.DispatchOnly)
    {inst : Instruction} (h : liftInstruction M inst c = .ok (outcome, c')) :
    (outcome = .liftFailed c.numBlocks ∧ c'.path = c.path ∧ c'.vcfg = c.vcfg ∧
      c'.unexploredPaths = c.unexploredPaths) ∨
    (outcome.liftedBlock = some c.numBlocks ∧ c.LiftsVirtual M c') := by
  obtain ⟨c₁, hexec, hrest⟩ := liftInstruction_eq h
  have hext := Cpu.exec_extends hexec
  obtain ⟨hvpc, hvjmp⟩ : c₁.vpc = c.vpc ∧ c₁.vjmp = c.vjmp := by
    obtain ⟨hvpc, hvjmp⟩ := (hM .instructionLift (openBlock c)).resolve_right nofun
    exact ⟨hext.vpc.trans hvpc, hext.vjmp.trans hvjmp⟩
  have hblock : c₁.block = c.numBlocks := hext.block
  have hpath : c₁.path = c.path := hext.path
  have hvcfg : c₁.vcfg = c.vcfg := hext.vcfg
  have hpaths : c₁.unexploredPaths = c.unexploredPaths := hext.unexploredPaths
  rcases hrest with ⟨_, heq⟩ | ⟨semantics, c₂, _, hrun, hflow⟩
  · obtain ⟨rfl, rfl⟩ := Prod.mk.inj heq
    exact .inl ⟨congrArg _ hblock, hpath, hvcfg, hpaths⟩
  · obtain ⟨h₂block, h₂vpc, h₂vjmp, h₂path, h₂vcfg, h₂paths⟩ : c₂.block = c₁.block ∧
        c₂.vpc = c₁.vpc ∧ c₂.vjmp = c₁.vjmp ∧ c₂.path = c₁.path ∧ c₂.vcfg = c₁.vcfg ∧
        c₂.unexploredPaths = c₁.unexploredPaths := by
      simp only [runLifted, Except.bind_eq_ok, Except.pure_eq_ok] at hrun
      obtain ⟨r, _, rfl⟩ := hrun
      exact ⟨rfl, rfl, rfl, rfl, rfl, rfl⟩
    obtain ⟨hmap, hsvpc, hsvjmp⟩ := saveBlock_virtual hmode c₂
    obtain ⟨hlifted, hadv⟩ := controlFlow_advances hflow
    have hsblock : (saveBlock M c₂).block = c.numBlocks :=
      (saveBlock_goesOn c₂).block.trans (h₂block.trans hblock)
    have hspaths : (saveBlock M c₂).unexploredPaths = c.unexploredPaths :=
      (saveBlock_goesOn c₂).unexploredPaths.trans (h₂paths.trans hpaths)
    rw [h₂block, hblock, h₂vpc, hvpc, h₂path, hpath, h₂vcfg, hvcfg] at hmap
    rw [h₂vpc, hvpc] at hsvpc
    rw [h₂vjmp, hvjmp] at hsvjmp
    refine .inr ⟨hlifted.trans (congrArg some hsblock), ?_, ?_⟩
    · rw [hadv.path, hadv.vcfg]
      exact hmap
    · rcases controlFlow_quiet hM hflow with hquiet | hreports
      · refine .inl ⟨hquiet.vpc.trans hsvpc, hquiet.vjmp.trans hsvjmp, ?_⟩
        rw [← hspaths]
        rcases hquiet.unexploredPaths with hsame | ⟨ss, hss, hssvpc, hssvjmp⟩
        · exact .inl hsame
        · refine .inr ⟨ss, hss, hssvpc.trans hsvpc, hssvjmp.trans hsvjmp, ?_⟩
          rcases hadv.unexploredPaths with hsame | ⟨ss', hss', hsspath, _⟩
          · rw [hss] at hsame
            exact absurd (congrArg List.length hsame) (by simp)
          · obtain rfl := (List.cons.inj (hss.symm.trans hss')).1
            exact hsspath.trans hadv.path.symm
      · exact .inr ⟨hreports.vjmp, hreports.handled, hreports.unexploredPaths.trans hspaths⟩

/-- A path is joined only after a dispatch, to the block the table has for it. -/
theorem cfgRecovery_virtual (hmode : M.mode = .vcfgRecovery) (c : Cpu) :
    (∃ target, c.vjmp = true ∧ joinMap M.joinPolicy c.path c.vcfg c.vpc = some target ∧
      (cfgRecovery M c).1 = some target) ∨
    ((c.vjmp = true → joinMap M.joinPolicy c.path c.vcfg c.vpc = none) ∧
      cfgRecovery M c = (none, { c with vjmp := false })) := by
  have hfalse : c.vjmp ≠ true → { c with vjmp := false } = c := by
    intro hvjmp
    rw [← Bool.eq_false_iff.mpr hvjmp]
  rw [cfgRecovery, hmode]
  by_cases hvjmp : c.vjmp = true
  · simp only [hvjmp, not_true_eq_false, if_false]
    cases M.joinPolicy with
    | specializeByPath =>
      simp only [joinMap]
      cases c.path c.vpc with
      | some target => exact .inl ⟨target, trivial, rfl, rfl⟩
      | none => exact .inr ⟨fun _ => rfl, rfl⟩
    | mergeByPc =>
      simp only [joinMap]
      cases c.vcfg c.vpc with
      | some target => exact .inl ⟨target, trivial, rfl, rfl⟩
      | none => exact .inr ⟨fun _ => rfl, rfl⟩
  · simp only [hvjmp, if_true, hfalse hvjmp, not_false_eq_true, Bool.false_eq_true]
    exact .inr ⟨fun hfalse => (by cases hfalse), trivial⟩

/-- How a call returns in virtual recovery. -/
theorem processInstruction_virtual (hmode : M.mode = .vcfgRecovery) (hM : M.DispatchOnly)
    (h : processInstruction M c = .ok (outcome, c')) :
    (outcome.liftedBlock = none ∧ c'.path = c.path ∧ c'.vcfg = c.vcfg ∧
      c'.unexploredPaths = c.unexploredPaths) ∨
    ((c.vjmp = true → joinMap M.joinPolicy c.path c.vcfg c.vpc = none) ∧
      outcome.liftedBlock = some c.numBlocks ∧ Cpu.LiftsVirtual M { c with vjmp := false } c') := by
  rcases processInstruction_cases h with ⟨rfl, _, rfl⟩ | ⟨_, target, rfl, hjoin⟩ |
    ⟨_, c₁, hnone, ⟨rfl, rfl⟩ | ⟨inst, _, hlift⟩⟩
  · exact .inl ⟨rfl, rfl, rfl, rfl⟩
  · obtain ⟨_, vjmp, rfl⟩ := cfgRecovery_some hjoin
    exact .inl ⟨rfl, rfl, rfl, rfl⟩
  · obtain ⟨vjmp, rfl⟩ := cfgRecovery_none hnone
    exact .inl ⟨rfl, rfl, rfl, rfl⟩
  · rcases cfgRecovery_virtual hmode c with ⟨target, _, _, hsome⟩ | ⟨hmap, hcleared⟩
    · rw [hnone] at hsome
      cases hsome
    · obtain rfl := (Prod.mk.inj (hnone.symm.trans hcleared)).2
      rcases liftInstruction_virtual hmode hM hlift with ⟨rfl, hpath, hvcfg, hpaths⟩ | ⟨hblock, hlifts⟩
      · exact .inl ⟨rfl, hpath, hvcfg, hpaths⟩
      · exact .inr ⟨hmap, hblock, hlifts⟩

/-! ### Runs -/

/-- The table as each pending path sees it agrees with the blocks that count for the path. -/
def PendingAgree (policy : CfgJoinPolicy) (vcfg : Addr → Option BlockId)
    (trace : List (Explored × Outcome)) :
    List Snapshot → List (List (Addr × BlockId)) → Prop :=
  List.Forall₂ fun ss path => TableAgrees (joinMap policy ss.path vcfg) (dispatchLog policy trace path) ∧
    Settled (joinMap policy ss.path vcfg) ss.vpc ss.vjmp

/-- The table as each path sees it agrees with the blocks that count for the path. -/
structure VirtualInvariant (policy : CfgJoinPolicy) (trace : List (Explored × Outcome))
    (e : Explored) : Prop where
  current : TableAgrees (joinMap policy e.cpu.path e.cpu.vcfg) (dispatchLog policy trace e.path)
  settled : Settled (joinMap policy e.cpu.path e.cpu.vcfg) e.cpu.vpc e.cpu.vjmp
  pending : PendingAgree policy e.cpu.vcfg trace e.cpu.unexploredPaths e.pending

/-- The paths that are pending before a call that lifts a block keep the invariant. -/
theorem VirtualInvariant.pending_lifted (he : VirtualInvariant M.joinPolicy trace e)
    (htree : Tree trace e) (hb : outcome.liftedBlock = some e.cpu.numBlocks)
    (hnone : e.cpu.vjmp = true → joinMap M.joinPolicy e.cpu.path e.cpu.vcfg e.cpu.vpc = none)
    (hmap : joinMap M.joinPolicy c'.path c'.vcfg =
      tryEmplace (joinMap M.joinPolicy e.cpu.path e.cpu.vcfg) e.cpu.vpc e.cpu.numBlocks) :
    PendingAgree M.joinPolicy c'.vcfg (trace ++ [(e, outcome)]) e.cpu.unexploredPaths e.pending := by
  have hpending := List.forall₂_iff_zip.mp he.pending
  refine List.forall₂_iff_zip.mpr ⟨hpending.1, fun {ss path} hmem => ?_⟩
  obtain ⟨hagrees, hsettled⟩ := hpending.2 hmem
  have hpath : path ∈ e.pending := (List.of_mem_zip hmem).2
  cases hpolicy : M.joinPolicy with
  | specializeByPath =>
    rw [hpolicy] at hagrees hsettled
    rw [dispatchLog_pending htree hpath hb]
    exact ⟨hagrees, hsettled⟩
  | mergeByPc =>
    have hentered := he.current.enter he.settled hnone e.cpu.numBlocks
    rw [hpolicy] at hagrees hsettled hmap hentered
    have hlog : dispatchLog .mergeByPc (trace ++ [(e, outcome)]) path =
        dispatchLog .mergeByPc trace path ++ [(e.dispatch, e.cpu.numBlocks)] :=
      lifts_append_of_some hb
    have hvcfg : joinMap .mergeByPc ss.path c'.vcfg =
        tryEmplace (joinMap .mergeByPc ss.path e.cpu.vcfg) e.cpu.vpc e.cpu.numBlocks := hmap
    rw [hlog, hvcfg]
    exact ⟨hentered, hsettled.tryEmplace _ _⟩

section

variable (hmode : M.mode = .vcfgRecovery) (hM : M.DispatchOnly)

include hmode hM

/-- What a call keeps: the pending paths keep the invariant, and so does the current one if the call
lifted a block. -/
theorem VirtualInvariant.call (he : VirtualInvariant M.joinPolicy trace e) (htree : Tree trace e)
    (h : processInstruction M e.cpu = .ok (outcome, c')) :
    (outcome.liftedBlock ≠ none → VirtualInvariant M.joinPolicy (trace ++ [(e, outcome)])
        ⟨c', e.lifted outcome, e.forked outcome c'⟩) ∧
      PendingAgree M.joinPolicy c'.vcfg (trace ++ [(e, outcome)]) c'.unexploredPaths
        (e.forked outcome c') := by
  rcases processInstruction_virtual hmode hM h with ⟨hb, _, hvcfg, hpaths⟩ | ⟨hnone, hb, hlifts⟩
  · refine ⟨fun hne => absurd hb hne, ?_⟩
    rw [forked_of_same hpaths, hpaths, hvcfg, PendingAgree]
    simp only [dispatchLog_of_none _ _ hb]
    exact he.pending
  · have hmap : joinMap M.joinPolicy c'.path c'.vcfg =
        tryEmplace (joinMap M.joinPolicy e.cpu.path e.cpu.vcfg) e.cpu.vpc e.cpu.numBlocks :=
      hlifts.map
    have hcurrent : TableAgrees (joinMap M.joinPolicy c'.path c'.vcfg)
        (dispatchLog M.joinPolicy (trace ++ [(e, outcome)]) (e.lifted outcome)) := by
      rw [dispatchLog_lifted _ htree hb, hmap]
      exact he.current.enter he.settled hnone e.cpu.numBlocks
    have hsettled : ∀ {vpc : Addr} {vjmp : Bool}, vjmp = true ∨ vpc = e.cpu.vpc →
        Settled (joinMap M.joinPolicy c'.path c'.vcfg) vpc vjmp :=
      fun hor => hmap ▸ he.settled.enter e.cpu.numBlocks hor
    have hold := he.pending_lifted htree hb hnone hmap
    have hsame : c'.unexploredPaths = e.cpu.unexploredPaths → PendingAgree M.joinPolicy c'.vcfg
        (trace ++ [(e, outcome)]) c'.unexploredPaths (e.forked outcome c') := by
      intro hsame
      rw [forked_of_same hsame, hsame]
      exact hold
    rcases hlifts.leaves with ⟨hvpc, _, heq⟩ | ⟨hvjmp, _, heq⟩
    · have hpending : PendingAgree M.joinPolicy c'.vcfg (trace ++ [(e, outcome)]) c'.unexploredPaths
          (e.forked outcome c') := by
        rcases heq with heq | ⟨ss, hss, hssvpc, _, hpath⟩
        · exact hsame heq
        · rw [forked_of_cons hss, hss]
          exact .cons ⟨hpath ▸ hcurrent, hpath ▸ hsettled (.inr hssvpc)⟩ hold
      exact ⟨fun _ => ⟨hcurrent, hsettled (.inr hvpc), hpending⟩, hpending⟩
    · exact ⟨fun _ => ⟨hcurrent, hsettled (.inl hvjmp), hsame heq⟩, hsame heq⟩

theorem VirtualInvariant.step (he : VirtualInvariant M.joinPolicy trace e) (htree : Tree trace e)
    (h : PathStep M e outcome e') : VirtualInvariant M.joinPolicy (trace ++ [(e, outcome)]) e' := by
  cases h with
  | successful hcall hstatus =>
    refine (he.call hmode hM htree hcall).1 ?_
    cases outcome with
    | lifted b => nofun
    | _ => cases hstatus
  | explore hcall hstatus hpaths hforked hlen =>
    rename_i c' before after ss before' after' path
    have hpending := (he.call hmode hM htree hcall).2
    rw [hpaths, hforked] at hpending
    obtain ⟨⟨hcurrent, hsettled⟩, hrest⟩ := forall₂_middle hpending hlen
    have hvcfg : (finishPath outcome c').vcfg = c'.vcfg := by
      rw [finishPath]
      split <;> rfl
    rw [← hvcfg] at hcurrent hsettled hrest
    exact ⟨hcurrent, hsettled, hrest⟩

theorem VirtualInvariant.run (he₀ : VirtualInvariant M.joinPolicy [] e₀) (htree : Tree [] e₀)
    (h : PathRuns M e₀ trace e) : VirtualInvariant M.joinPolicy trace e := by
  induction h with
  | start => exact he₀
  | step hruns hstep ih => exact ih.step hmode hM (htree.run hruns) hstep

end

theorem start_virtualInvariant {layout : Layout} {image : MemPage} {opaqueSolving : Bool} {pc : Addr}
    (policy : CfgJoinPolicy) (h : start M layout image opaqueSolving pc = .ok c₀) :
    VirtualInvariant policy [] ⟨c₀, [], []⟩ := by
  obtain ⟨_, hvpc, hvjmp, hpath, _, hpaths⟩ := start_eq h
  have hvcfg : c₀.vcfg = fun _ => none := by
    simp only [start, Except.bind_eq_ok, Except.pure_eq_ok] at h
    obtain ⟨r, _, rfl⟩ := h
    rfl
  have hmap : joinMap policy c₀.path c₀.vcfg = fun _ => none := by
    cases policy with
    | mergeByPc => exact hvcfg
    | specializeByPath => exact funext hpath
  have hlog : dispatchLog policy [] [] = [] := by cases policy <;> rfl
  refine ⟨⟨fun v _ => ?_, ?_⟩, ⟨fun _ hne => absurd hvpc hne, fun hor => ?_⟩, ?_⟩
  · simp only [hmap, hlog, firstLifted, List.find?_nil, Option.map_none]
  · simp only [hlog, firstLifted, List.find?_nil, Option.map_none]
  · rcases hor with htrue | hne
    · cases hvjmp.symm.trans htrue
    · exact absurd hvpc hne
  · show PendingAgree policy _ [] c₀.unexploredPaths []
    rw [hpaths]
    exact .nil

/-! ### Dispatches -/

/-- A dispatch that is to be served was reported by the call before. -/
structure Heard (M : Machine) (c : Cpu) : Prop where
  current : c.vjmp = true → ∃ c₁ : Cpu, c = c₁.eventHandler M .indirectJump
  pending : ∀ ss ∈ c.unexploredPaths, ss.vjmp = false

theorem Heard.call (hmode : M.mode = .vcfgRecovery) (hM : M.DispatchOnly) (hc : Heard M c)
    (h : processInstruction M c = .ok (outcome, c')) :
    (outcome.liftedBlock ≠ none → Heard M c') ∧ ∀ ss ∈ c'.unexploredPaths, ss.vjmp = false := by
  rcases processInstruction_virtual hmode hM h with ⟨hb, _, _, hpaths⟩ | ⟨_, _, hlifts⟩
  · exact ⟨fun hne => absurd hb hne, hpaths ▸ hc.pending⟩
  · have hpending : ∀ ss ∈ c'.unexploredPaths, ss.vjmp = false := by
      rcases hlifts.leaves with ⟨_, _, heq | ⟨ss, hss, _, hvjmp, _⟩⟩ | ⟨_, _, heq⟩
      · rw [heq]
        exact hc.pending
      · rw [hss]
        exact List.forall_mem_cons.mpr ⟨hvjmp, hc.pending⟩
      · rw [heq]
        exact hc.pending
    refine ⟨fun _ => ⟨fun htrue => ?_, hpending⟩, hpending⟩
    rcases hlifts.leaves with ⟨_, hvjmp, _⟩ | ⟨_, hhandled, _⟩
    · exact absurd (hvjmp.symm.trans htrue) nofun
    · exact hhandled

theorem Heard.step (hmode : M.mode = .vcfgRecovery) (hM : M.DispatchOnly) (hc : Heard M c)
    (h : Step M c outcome c') : Heard M c' := by
  cases h with
  | successful hcall hstatus =>
    refine (hc.call hmode hM hcall).1 ?_
    cases outcome with
    | lifted b => nofun
    | _ => cases hstatus
  | explore hcall hstatus hpaths =>
    rename_i c' before after ss
    have hpending := (hc.call hmode hM hcall).2
    rw [hpaths] at hpending
    have hss : ss.vjmp = false := hpending ss (by simp)
    refine ⟨fun htrue => ?_, fun ss' hss' => hpending ss' ?_⟩
    · exact absurd (hss.symm.trans htrue) nofun
    · rcases List.mem_append.mp hss' with hmem | hmem
      · exact List.mem_append_left _ hmem
      · exact List.mem_append_right _ (List.mem_cons_of_mem _ hmem)

theorem Heard.run (hmode : M.mode = .vcfgRecovery) (hM : M.DispatchOnly) {c₀ c : Cpu}
    {trace : List (Addr × Outcome)} (hc₀ : Heard M c₀) (h : Runs M c₀ trace c) : Heard M c := by
  induction h with
  | start => exact hc₀
  | step _ hstep ih => exact ih.step hmode hM hstep

/-- The instruction at the program counter is decoded, and remill lifts it. -/
def Cpu.Liftable (M : Machine) (c : Cpu) : Prop :=
  ∃ inst semantics, M.decodeInstruction c.pc (fetch (c.symex.context.memory globalPage) c.pc 15)
    = some inst ∧ M.liftIntoBlock inst = some semantics

/-- A call goes where the dispatch before it went: with a dispatch to a block that was lifted an edge is
made to it, with a dispatch to none a block is lifted, and without a dispatch no edge is made. -/
def Explored.Serves (e : Explored) (blocks : Addr → Option BlockId) (outcome : Outcome) (c' : Cpu) :
    Prop :=
  match e.dispatch with
  | none => ∀ target, outcome ≠ .edgeRebuilt target
  | some v =>
    match blocks v with
    | some b => outcome = .edgeRebuilt b ∧ c'.function = (e.cpu.create (.br b)).function
    | none => outcome.liftedBlock = some e.cpu.numBlocks

/-- A call lifts a block exactly at an instruction that is decoded and lifted. -/
theorem processInstruction_liftable (hpc : c.pc ≠ 0) (hnone : cfgRecovery M c = (none, c₀))
    (hsame : c₀.pc = c.pc ∧ c₀.symex = c.symex)
    (h : processInstruction M c = .ok (outcome, c')) :
    outcome.liftedBlock ≠ none ↔ c.Liftable M := by
  rcases processInstruction_cases h with ⟨_, hzero, _⟩ | ⟨_, target, _, hjoin⟩ |
    ⟨_, c₁, hnone', hrest⟩
  · exact absurd hzero hpc
  · rw [hnone] at hjoin
    cases hjoin
  · obtain rfl := (Prod.mk.inj (hnone.symm.trans hnone')).2
    rw [Cpu.Liftable, ← hsame.1, ← hsame.2]
    rw [processInstruction, if_neg hpc, hnone] at h
    simp only at h
    cases hdecode : M.decodeInstruction c₀.pc (fetch (c₀.symex.context.memory globalPage) c₀.pc 15) with
    | none =>
      rw [hdecode] at h
      obtain ⟨rfl, _⟩ := Prod.mk.inj (Except.ok.inj h)
      refine ⟨fun hne => absurd rfl hne, ?_⟩
      rintro ⟨inst, _, hinst, _⟩
      cases hinst
    | some inst =>
      rw [hdecode] at h
      obtain ⟨c₂, hexec, ⟨hlift, heq⟩ | ⟨semantics, c₃, hlift, _, hflow⟩⟩ := liftInstruction_eq h
      · obtain ⟨rfl, _⟩ := Prod.mk.inj heq
        refine ⟨fun hne => absurd rfl hne, ?_⟩
        rintro ⟨inst', semantics, hinst, hsome⟩
        obtain rfl := Option.some.inj hinst
        rw [hlift] at hsome
        cases hsome
      · have hblock := (controlFlow_advances hflow).1
        refine ⟨fun _ => ⟨inst, semantics, rfl, hlift⟩, fun _ => ?_⟩
        rw [hblock]
        exact Option.some_ne_none _

/-- After a dispatch the calls that go where it went are those after a dispatch to another virtual
program counter than zero that do not end the function and find an instruction if they need one. -/
theorem serves_iff (hmode : M.mode = .vcfgRecovery) (he : VirtualInvariant M.joinPolicy trace e)
    (h : processInstruction M e.cpu = .ok (outcome, c')) :
    e.Serves (firstLifted (dispatchLog M.joinPolicy trace e.path)) outcome c' ↔
      ∀ v, e.dispatch = some v → v ≠ 0 ∧ e.cpu.pc ≠ 0 ∧
        (firstLifted (dispatchLog M.joinPolicy trace e.path) v = none → e.cpu.Liftable M) := by
  have htable := he.current.table
  have hzero := he.current.zero
  by_cases hvjmp : e.cpu.vjmp = true
  · have hdispatch : e.dispatch = some e.cpu.vpc := if_pos hvjmp
    have hiff : (∀ v, e.dispatch = some v → v ≠ 0 ∧ e.cpu.pc ≠ 0 ∧
        (firstLifted (dispatchLog M.joinPolicy trace e.path) v = none → e.cpu.Liftable M)) ↔
        e.cpu.vpc ≠ 0 ∧ e.cpu.pc ≠ 0 ∧
          (firstLifted (dispatchLog M.joinPolicy trace e.path) e.cpu.vpc = none →
            e.cpu.Liftable M) := by
      rw [hdispatch]
      exact ⟨fun hall => hall _ rfl, fun hall v hv => Option.some.inj hv ▸ hall⟩
    rw [hiff]
    simp only [Explored.Serves, hdispatch]
    by_cases hpc : e.cpu.pc = 0
    · -- the function ends
      rw [processInstruction, if_pos hpc] at h
      obtain ⟨rfl, rfl⟩ := Prod.mk.inj (Except.ok.inj h)
      constructor
      · intro hserves
        split at hserves
        · cases hserves.1
        · cases hserves
      · intro hall
        exact absurd hpc hall.2.1
    rcases cfgRecovery_virtual hmode e.cpu with ⟨target, _, hmap, hsome⟩ | ⟨hnone, hcleared⟩
    · -- the path is joined
      obtain ⟨rfl, hfunction⟩ : outcome = .edgeRebuilt target ∧
          c'.function = (e.cpu.create (.br target)).function := by
        rcases processInstruction_cases h with ⟨_, hend, _⟩ | ⟨_, target', rfl, hjoin⟩ |
          ⟨_, c₁, hnone, _⟩
        · exact absurd hend hpc
        · rw [hjoin] at hsome
          obtain rfl := Option.some.inj hsome
          obtain ⟨_, vjmp, rfl⟩ := cfgRecovery_some hjoin
          exact ⟨rfl, rfl⟩
        · rw [hnone] at hsome
          cases hsome
      by_cases hvpc : e.cpu.vpc = 0
      · rw [hvpc, hzero]
        exact ⟨fun hserves => (by cases hserves), fun hall => absurd rfl hall.1⟩
      · have hfirst := (htable _ hvpc).symm.trans hmap
        rw [hfirst]
        exact ⟨fun _ => ⟨hvpc, hpc, fun heq => by cases heq⟩, fun _ => ⟨rfl, hfunction⟩⟩
    · -- no block was lifted after a dispatch to here
      have hvpc : e.cpu.vpc ≠ 0 := by
        intro hvpc
        have hentered := he.settled.zero (.inl hvjmp)
        rw [← hvpc, hnone hvjmp] at hentered
        cases hentered
      have hfirst := (htable _ hvpc).symm.trans (hnone hvjmp)
      have hliftable := processInstruction_liftable hpc hcleared ⟨rfl, rfl⟩ h
      rw [hfirst]
      constructor
      · intro hb
        have hne : outcome.liftedBlock ≠ none := by
          rw [hb]
          exact Option.some_ne_none _
        exact ⟨hvpc, hpc, fun _ => hliftable.mp hne⟩
      · intro hall
        obtain ⟨b, hb⟩ := Option.ne_none_iff_exists'.mp (hliftable.mpr (hall.2.2 rfl))
        rw [hb, ((processInstruction_numBlocks h).2 b hb).1]
  · have hdispatch : e.dispatch = none := if_neg hvjmp
    simp only [Explored.Serves, hdispatch]
    refine ⟨fun _ _ heq => (by cases heq), fun _ target heq => ?_⟩
    obtain rfl := heq
    rcases processInstruction_cases h with ⟨hne, _⟩ | ⟨_, target', _, hjoin⟩ |
      ⟨_, _, _, ⟨hne, _⟩ | ⟨inst, _, hlift⟩⟩
    · cases hne
    · rcases cfgRecovery_virtual hmode e.cpu with ⟨_, htrue, _⟩ | ⟨_, hcleared⟩
      · exact hvjmp htrue
      · rw [hcleared] at hjoin
        cases hjoin
    · cases hne
    · obtain ⟨_, _, ⟨hne, _⟩ | ⟨hblock, _⟩⟩ := liftInstruction_cases hlift
      · cases hne
      · cases hblock

/-- **Virtual CFG recovery**, for every program and every callback that reports dispatches at indirect
jumps: in every state reached, each entry of the table but that of zero is the first block lifted after
a dispatch to it, on the current path where the policy specializes by path, and the call after a
reported dispatch goes where the dispatch went exactly if that was not to zero, the jump does not end
the function, and there is an instruction to lift if no block was lifted yet. -/
theorem virtualRecovery_dispatches_iff (hmode : M.mode = .vcfgRecovery) (hM : M.DispatchOnly)
    {layout : Layout} {image : MemPage} {opaqueSolving : Bool} {pc : Addr}
    (hstart : start M layout image opaqueSolving pc = .ok c₀) :
    ∀ trace e, PathRuns M ⟨c₀, [], []⟩ trace e →
      (∀ v, v ≠ 0 → joinMap M.joinPolicy e.cpu.path e.cpu.vcfg v =
        firstLifted (dispatchLog M.joinPolicy trace e.path) v) ∧
      (∀ v, e.dispatch = some v → ∃ c₁ : Cpu, e.cpu = c₁.eventHandler M .indirectJump) ∧
      ∀ outcome c', processInstruction M e.cpu = .ok (outcome, c') →
        (e.Serves (firstLifted (dispatchLog M.joinPolicy trace e.path)) outcome c' ↔
          ∀ v, e.dispatch = some v → v ≠ 0 ∧ e.cpu.pc ≠ 0 ∧
            (firstLifted (dispatchLog M.joinPolicy trace e.path) v = none → e.cpu.Liftable M)) := by
  intro trace e h
  have htree := start_tree c₀
  have he := (start_virtualInvariant M.joinPolicy hstart).run hmode hM htree h
  have hheard : Heard M e.cpu := by
    obtain ⟨_, _, hvjmp, _, _, hpaths⟩ := start_eq hstart
    refine Heard.run hmode hM ⟨fun htrue => ?_, ?_⟩ h.runs
    · exact absurd (hvjmp.symm.trans htrue) nofun
    · rw [hpaths]
      exact nofun
  refine ⟨he.current.table, fun v hv => hheard.current ?_, fun outcome c' hcall =>
    serves_iff hmode he hcall⟩
  by_contra hvjmp
  rw [Explored.dispatch, if_neg hvjmp] at hv
  cases hv

theorem dispatcher_dispatchOnly (policy : CfgJoinPolicy) (v : Addr) :
    (dispatcher policy v).DispatchOnly := by
  intro k c
  by_cases hk : k = .indirectJump
  · exact .inr ⟨hk, by simp [dispatcher, hk]⟩
  · exact .inl (by simp [dispatcher, hk])

theorem virtualRecovery_dispatches_iff_dispatcher :
    ∃ c₀, start (dispatcher .mergeByPc 7) ⟨0, 8⟩ .empty false 0x1000 = .ok c₀ ∧
      ∀ trace e, PathRuns (dispatcher .mergeByPc 7) ⟨c₀, [], []⟩ trace e →
        (∀ v, v ≠ 0 → e.cpu.vcfg v = firstLifted (lifts trace) v) ∧
        (∀ v, e.dispatch = some v →
          ∃ c₁ : Cpu, e.cpu = c₁.eventHandler (dispatcher .mergeByPc 7) .indirectJump) ∧
        ∀ outcome c', processInstruction (dispatcher .mergeByPc 7) e.cpu = .ok (outcome, c') →
          (e.Serves (firstLifted (lifts trace)) outcome c' ↔
            ∀ v, e.dispatch = some v → v ≠ 0 ∧ e.cpu.pc ≠ 0 ∧
              (firstLifted (lifts trace) v = none → e.cpu.Liftable (dispatcher .mergeByPc 7))) :=
  ⟨_, rfl, virtualRecovery_dispatches_iff rfl (dispatcher_dispatchOnly _ _) rfl⟩

/-- A dispatch to zero is reported after the first block was lifted. No block was lifted after a
dispatch to zero, but the path is joined to the first one, which was entered under zero because nobody
had set the virtual program counter. -/
theorem dispatch_to_zero : ∃ c₀ e, start (dispatcher .mergeByPc 0) ⟨0, 8⟩ .empty false 0x1000 = .ok c₀ ∧
    PathRuns (dispatcher .mergeByPc 0) ⟨c₀, [], []⟩ [(⟨c₀, [], []⟩, .lifted 1)] e ∧
    e.dispatch = some 0 ∧ firstLifted (lifts [(⟨c₀, [], []⟩, .lifted 1)]) 0 = none ∧
    ∃ c', processInstruction (dispatcher .mergeByPc 0) e.cpu = .ok (.edgeRebuilt 1, c') ∧
      ¬ e.Serves (firstLifted (lifts [(⟨c₀, [], []⟩, .lifted 1)])) (.edgeRebuilt 1) c' := by
  refine ⟨_, _, rfl, PathRuns.step (.start (M := dispatcher .mergeByPc 0)) (.successful rfl rfl), ?_⟩
  exact ⟨rfl, rfl, _, rfl, nofun⟩

end Vexa
