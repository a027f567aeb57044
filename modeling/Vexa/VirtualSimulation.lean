import Vexa.RecoverySimulation
import Vexa.VirtualRecovery

/-!
# Virtual CFG recovery simulates the program

In virtual recovery a path is joined, after a dispatch, to the first block that was entered in the table
under its virtual program counter, and nothing compares program counters. When the virtual program
counter decides the handler, every join is to a block of the same program counter, and the recovered
function simulates the program. The first block of all is entered under zero, so zero has to decide the
program counter the run starts at.

## Main definitions

* `Machine.DispatchesTo` — a dispatch to a virtual program counter is a jump to its handler
* `Dispatched`, `Dispatching` — what is known of the table and of where a path is

## Main results

* `Dispatching.explores` — along every run of the lifter
* `virtualFunction_simulates` — the function recovered simulates the program
-/

namespace Vexa

variable {M : Machine} {program : Program} {handler : Addr → Addr} {f g : Function} {c c' c₀ c₁ c₂ c₃ : Cpu}
  {outcome : Outcome} {b : BlockId} {pc pc' vpc v : Addr} {vjmp : Bool} {inst : Instruction}
  {semantics : Semantics} {map map' : Addr → Option BlockId} {s₀ : IrState Name} {p : Addr × Bytes}
  {calls : List Cpu} {ended : List PathEnd}

/-- A callback that reports a dispatch is called at the handler of the virtual program counter. -/
def Machine.DispatchesTo (M : Machine) (handler : Addr → Addr) : Prop :=
  ∀ c, c.vjmp = false → (M.callback .indirectJump c).vjmp = true →
    c.pc = handler (M.callback .indirectJump c).vpc

/-- The blocks of the table are those of the handlers, a dispatch is served at its handler, and so is a
virtual program counter without an entry. -/
structure Dispatched (handler : Addr → Addr) (f : Function) (map : Addr → Option BlockId)
    (pc vpc : Addr) (vjmp : Bool) : Prop where
  table : ∀ v b, map v = some b → (f b).pc = some (handler v)
  jump : vjmp = true → pc = handler vpc
  current : vjmp = false → (map vpc).isSome = true ∨ pc = handler vpc

/-- That is so on the current path and on those that are pending. -/
structure Dispatching (M : Machine) (handler : Addr → Addr) (c : Cpu) : Prop where
  current : Dispatched handler c.function (joinMap M.joinPolicy c.path c.vcfg) c.pc c.vpc c.vjmp
  pending : ∀ ss ∈ c.unexploredPaths,
    Dispatched handler c.function (joinMap M.joinPolicy ss.path c.vcfg) ss.pc ss.vpc ss.vjmp

namespace Dispatched

/-- Where there is no entry the path is at the handler. -/
theorem at_handler (h : Dispatched handler f map pc vpc vjmp) (hnone : map vpc = none) :
    pc = handler vpc := by
  cases vjmp with
  | true => exact h.jump rfl
  | false =>
    refine (h.current rfl).resolve_left fun hsome => ?_
    rw [hnone] at hsome
    cases hsome

/-- More blocks, and more entries. -/
theorem grow (h : Dispatched handler f map pc vpc vjmp)
    (htable : ∀ v b, map' v = some b → (g b).pc = some (handler v))
    (hgrows : ∀ v, (map v).isSome = true → (map' v).isSome = true) :
    Dispatched handler g map' pc vpc vjmp :=
  ⟨htable, h.jump, fun hvjmp => (h.current hvjmp).imp_left (hgrows vpc)⟩

/-- The table after the block of a handler was entered. -/
theorem table_enter (h : Dispatched handler f map pc vpc vjmp) {d : BlockId}
    (hlabels : ∀ v b, map v = some b → (g b).pc = (f b).pc) (hself : (g d).pc = some pc) (v : Addr)
    (b : BlockId) (hb : tryEmplace map vpc d v = some b) : (g b).pc = some (handler v) := by
  rw [tryEmplace_eq] at hb
  cases hv : map v with
  | some d' =>
    rw [hv] at hb
    obtain rfl : d' = b := Option.some.inj hb
    rw [hlabels v d' hv]
    exact h.table v d' hv
  | none =>
    rw [hv, Option.none_or] at hb
    split at hb
    · next heq =>
      subst heq
      obtain rfl := Option.some.inj hb
      rw [hself, h.at_handler hv]
    · cases hb

end Dispatched

/-! ### One instruction -/

/-- The blocks there were keep their program counters. -/
theorem Cpu.Fills.keepsOld (h : c.Fills M semantics c₁ c₂) (h₃ : c₂.SavedAs c₃) {r : Outcome × Cpu}
    (hflow : controlFlow M inst c₃ = .ok r) (hb : b < c.numBlocks) :
    (r.2.function b).pc = (c.function b).pc := by
  rw [h.others h₃ hflow hb]
  by_cases hself : b = c.insertPoint
  · rw [hself, h.self]
  · rw [h.lifts.others b hself hb.ne]

/-- A dispatch that is reported by the control flow part is served at its handler. -/
theorem controlFlow_dispatches (hquiet : M.DispatchOnly) (hhandler : M.DispatchesTo handler)
    (hvjmp : c.vjmp = false) {r : Outcome × Cpu} (hflow : controlFlow M inst c = .ok r)
    (hreport : r.2.vjmp = true) : r.2.pc = handler r.2.vpc := by
  have hnot : ∀ {c₁ : Cpu}, c.Quiet c₁ → c₁.vjmp = true → r.2.pc = handler r.2.vpc := by
    intro c₁ hc₁ htrue
    rw [hc₁.vjmp, hvjmp] at htrue
    cases htrue
  rcases controlFlow_cases hflow with ⟨_, cond, c₁, hcond, hbranch, rfl⟩ | ⟨_, rfl⟩ | ⟨_, hjump⟩ |
    ⟨_, _, c₁, hsplit, rfl⟩ | ⟨_, _, rfl⟩
  · exact hnot (.of_extends (getCondition_extends hcond) (branching_quiet hquiet hbranch)) hreport
  · have hkeeps : c.Quiet (Cpu.eventHandler M .directJump { c with pc := inst.branchTakenPc }) :=
      Cpu.Quiet.eventHandler hquiet (fun heq => by cases heq) ⟨rfl, rfl, .inl rfl⟩
    exact hnot hkeeps hreport
  · obtain ⟨next, _, ⟨target, _, _, rfl⟩ | ⟨_, ⟨addr, target, _, _, rfl⟩ |
      ⟨front, back, jumpPc, fallthroughPc, c₁, cond, c₂, _, _, _, hexec, _, hbranch, rfl⟩ | ⟨_, _, rfl⟩⟩⟩ :=
        indirectJump_cases hjump
    · exact hhandler { (c.rewriteTarget M next).setTargets [target] with pc := target } hvjmp hreport
    · exact absurd (hvjmp.symm.trans hreport) Bool.false_ne_true
    · have hkeeps : c₁.vjmp = false := (Cpu.exec_extends hexec).vjmp.trans hvjmp
      have htrue : c₁.vjmp = true := (branching_quiet hquiet hbranch).vjmp.symm.trans hreport
      exact absurd (hkeeps.symm.trans htrue) Bool.false_ne_true
    · exact absurd (hvjmp.symm.trans hreport) Bool.false_ne_true
  · have hmove := handleConditionalMoves_quiet hsplit
    exact hnot ⟨hmove.vpc, hmove.vjmp, hmove.unexploredPaths⟩ hreport
  · exact absurd (hvjmp.symm.trans hreport) Bool.false_ne_true

/-- So is one that is reported while an instruction is lifted. -/
theorem liftInstruction_dispatches (hquiet : M.DispatchOnly) (hhandler : M.DispatchesTo handler)
    (hvjmp : c.vjmp = false) (hlift : liftInstruction M inst c = .ok (outcome, c'))
    (hstatus : outcome.status = .successful) (hreport : c'.vjmp = true) : c'.pc = handler c'.vpc := by
  obtain ⟨c₁, hexec, ⟨_, heq⟩ | ⟨semantics, c₂, _, hrun, hflow⟩⟩ := liftInstruction_eq hlift
  · obtain ⟨rfl, _⟩ := Prod.mk.inj heq
    cases hstatus
  have hopened : c₁.vjmp = false := by
    have hkept := ((hquiet .instructionLift (openBlock c)).resolve_right fun hjump => by cases hjump.1).2
    exact (Cpu.exec_extends hexec).vjmp.trans (hkept.trans hvjmp)
  have hfilled : c₂.vjmp = false := by
    simp only [runLifted, Except.bind_eq_ok, Except.pure_eq_ok] at hrun
    obtain ⟨_, _, rfl⟩ := hrun
    exact hopened
  have hsaved : (saveBlock M c₂).vjmp = false := by
    obtain ⟨_, _, _, heq⟩ := saveBlock_savedAs (M := M) c₂
    rw [heq]
    exact hfilled
  exact controlFlow_dispatches hquiet hhandler hsaved hflow hreport

theorem Cpu.MapsBuilt.joinMap (hmaps : c.MapsBuilt) {policy : CfgJoinPolicy}
    (hb : Vexa.joinMap policy c.path c.vcfg v = some b) : b < c.numBlocks := by
  cases policy with
  | mergeByPc => exact hmaps b ⟨v, .inr (.inr (.inl hb))⟩
  | specializeByPath => exact hmaps b ⟨v, .inl hb⟩

/-- **One instruction** that goes on with the current path. -/
theorem Dispatching.lift (hmode : M.mode = .vcfgRecovery) (hquiet : M.DispatchOnly)
    (hhandler : M.DispatchesTo handler) (hc : c.insertPoint < c.numBlocks) (hmaps : c.MapsBuilt)
    (h : Dispatching M handler c)
    (hlift : liftInstruction M inst { c with vjmp := false } = .ok (outcome, c'))
    (hstatus : outcome.status = .successful) : Dispatching M handler c' := by
  rcases liftInstruction_virtual hmode hquiet hlift with ⟨rfl, _⟩ | ⟨_, hlifts⟩
  · cases hstatus
  obtain ⟨semantics, c₁, c₂, _, hfills, hflow⟩ :=
    liftInstruction_filled (c := { c with vjmp := false }) hc hlift hstatus
  have h₃ := saveBlock_savedAs (M := M) c₂
  have hold : ∀ b, b < c.numBlocks → (c'.function b).pc = (c.function b).pc := fun _ hb =>
    hfills.keepsOld h₃ hflow hb
  have hself : (c'.function c.numBlocks).pc = some c.pc := hfills.keepsPc h₃ hflow
  have hmap : joinMap M.joinPolicy c'.path c'.vcfg
      = tryEmplace (joinMap M.joinPolicy c.path c.vcfg) c.vpc c.numBlocks := hlifts.map
  have htable : ∀ v b, joinMap M.joinPolicy c'.path c'.vcfg v = some b →
      (c'.function b).pc = some (handler v) := by
    intro v b hb
    rw [hmap] at hb
    exact h.current.table_enter (fun v b hv => hold b (hmaps.joinMap hv)) hself v b hb
  have hentered : (joinMap M.joinPolicy c'.path c'.vcfg c.vpc).isSome = true := by
    rw [hmap]
    exact tryEmplace_isSome_self ..
  have hpending : ∀ ss ∈ c.unexploredPaths, Dispatched handler c'.function
      (joinMap M.joinPolicy ss.path c'.vcfg) ss.pc ss.vpc ss.vjmp := by
    intro ss hss
    have hbefore := h.pending ss hss
    cases hpolicy : M.joinPolicy with
    | mergeByPc =>
      rw [hpolicy] at hbefore hmap htable
      refine hbefore.grow htable fun v hv => ?_
      rw [show joinMap .mergeByPc ss.path c'.vcfg = _ from hmap]
      exact tryEmplace_isSome hv ..
    | specializeByPath =>
      rw [hpolicy] at hbefore
      refine hbefore.grow (fun v b hb => ?_) fun _ hv => hv
      rw [hold b (hmaps b ⟨v, .inr (.inr (.inr ⟨ss, hss, hb⟩))⟩)]
      exact hbefore.table v b hb
  refine ⟨⟨htable, liftInstruction_dispatches hquiet hhandler rfl hlift hstatus, fun hvjmp => ?_⟩, ?_⟩
  · rcases hlifts.leaves with ⟨hvpc, _⟩ | ⟨htrue, _⟩
    · left
      rw [hvpc]
      exact hentered
    · rw [hvjmp] at htrue
      cases htrue
  · intro ss hss
    rcases hlifts.leaves with ⟨_, _, heq | ⟨ss', heq, hvpc, hvjmp, hpath⟩⟩ | ⟨_, _, heq⟩
    · exact hpending ss (heq ▸ hss)
    · rw [heq] at hss
      rcases List.mem_cons.mp hss with rfl | hss
      · -- the path that was saved, under the virtual program counter of this one
        rw [hpath]
        refine ⟨htable, fun htrue => ?_, fun _ => .inl (hvpc ▸ hentered)⟩
        rw [hvjmp] at htrue
        cases htrue
      · exact hpending ss hss
    · exact hpending ss (heq ▸ hss)

/-- A path that ended at an edge was joined to a block of its program counter. -/
theorem Dispatching.joined (hmode : M.mode = .vcfgRecovery) (h : Dispatching M handler c)
    {target : BlockId} (hcall : processInstruction M c = .ok (.edgeRebuilt target, c')) :
    (c'.function target).pc = some c'.pc := by
  rcases processInstruction_cases hcall with ⟨heq, _⟩ | ⟨_, d, heq, hjoin⟩ |
    ⟨_, _, _, ⟨heq, _⟩ | ⟨inst, _, hlift⟩⟩
  · cases heq
  · obtain rfl : target = d := Outcome.edgeRebuilt.inj heq
    rcases cfgRecovery_virtual hmode c with ⟨d, hvjmp, hmap, hsome⟩ | ⟨_, hnone⟩
    · rw [hjoin] at hsome
      obtain rfl : target = d := Option.some.inj hsome
      obtain ⟨_, vjmp, rfl⟩ := cfgRecovery_some hjoin
      have hlabel := h.current.table c.vpc target hmap
      show ((c.create (.br target)).function target).pc = some c.pc
      rw [Cpu.create_pc, hlabel, h.current.jump hvjmp]
    · rw [hjoin] at hnone
      cases hnone
  · cases heq
  · obtain ⟨_, _, ⟨heq, _⟩ | ⟨heq, _⟩⟩ := liftInstruction_cases hlift <;> cases heq

/-! ### Runs -/

theorem Dispatching.pathEnd (hmode : M.mode = .vcfgRecovery) (h : Dispatching M handler c)
    (hcall : processInstruction M c = .ok (outcome, c'))
    (hended : outcome = .functionEnded ∨ ∃ target, outcome = .edgeRebuilt target) :
    PathEnd.Joined ⟨outcome, finishPath outcome c'⟩ := by
  rcases hended with rfl | ⟨target, rfl⟩
  · exact .inl rfl
  · exact .inr ⟨target, rfl, h.joined hmode hcall⟩

/-- The paths that are pending when a path ends. -/
theorem Dispatching.ends (h : Dispatching M handler c) (hcall : processInstruction M c = .ok (outcome, c'))
    (hended : PathEnd.Joined ⟨outcome, finishPath outcome c'⟩) :
    ∀ ss ∈ c'.unexploredPaths, Dispatched handler (finishPath outcome c').function
      (joinMap M.joinPolicy ss.path (finishPath outcome c').vcfg) ss.pc ss.vpc ss.vjmp := by
  obtain ⟨last, vjmp, hfinish, _⟩ := finishPath_joined hcall hended
  intro ss hss
  rw [← finishPath_unexploredPaths outcome c', hfinish] at hss
  have hbefore := h.pending ss hss
  rw [hfinish]
  refine hbefore.grow (fun v b hb => ?_) fun _ hv => hv
  show ((c.create last).function b).pc = some (handler v)
  rw [Cpu.create_pc]
  exact hbefore.table v b hb

/-- **Along every run** whose paths ended at zero or were joined, they were joined to blocks of their
program counters. -/
theorem Dispatching.explores (hmode : M.mode = .vcfgRecovery) (hquiet : M.DispatchOnly)
    (hhandler : M.DispatchesTo handler) (hbuilt₀ : Built c₀ (c₀.insertPoint :: c₀.pendingBlocks))
    (hmaps₀ : c₀.MapsBuilt) (h₀ : Dispatching M handler c₀) (h : Explores M c₀ calls ended c)
    (hended : ∀ e ∈ ended, e.outcome = .functionEnded ∨ ∃ target, e.outcome = .edgeRebuilt target) :
    Dispatching M handler c ∧ ∀ e ∈ ended, e.Joined := by
  induction h with
  | start => exact ⟨h₀, fun _ he => by cases he⟩
  | successful hexplores hcall hstatus ih =>
    rename_i calls ended c c' outcome
    obtain ⟨hmaps, hbuilt⟩ := Built.explores hbuilt₀ hmaps₀ hexplores
    obtain ⟨hdispatching, hjoined⟩ := ih hended
    refine ⟨?_, hjoined⟩
    rcases processInstruction_cases hcall with ⟨rfl, _, _⟩ | ⟨_, _, rfl, _⟩ |
      ⟨_, c₁, hnone, ⟨rfl, _⟩ | ⟨inst, _, hlift⟩⟩
    · cases hstatus
    · cases hstatus
    · cases hstatus
    · rcases cfgRecovery_virtual hmode c with ⟨d, _, _, hsome⟩ | ⟨_, hcleared⟩
      · rw [hnone] at hsome
        cases hsome
      · obtain rfl := (Prod.mk.inj (hnone.symm.trans hcleared)).2
        exact hdispatching.lift hmode hquiet hhandler (hbuilt.lt _ (List.mem_cons_self ..)) hmaps hlift hstatus
  | explore hexplores hcall hstatus hpaths ih =>
    rename_i calls ended c c' outcome before after path
    obtain ⟨hdispatching, hjoined⟩ := ih fun e he => hended e (List.mem_append_left _ he)
    have hend := hdispatching.pathEnd hmode hcall
      (hended _ (List.mem_append_right _ (List.mem_singleton_self _)))
    have hpending := hdispatching.ends hcall hend
    rw [hpaths] at hpending
    refine ⟨⟨hpending path (List.mem_append_right _ (List.mem_cons_self ..)), fun ss hss => hpending ss ?_⟩,
      fun e he => ?_⟩
    · rcases List.mem_append.mp hss with hss | hss
      · exact List.mem_append_left _ hss
      · exact List.mem_append_right _ (List.mem_cons_of_mem _ hss)
    · rcases List.mem_append.mp he with he | he
      · exact hjoined e he
      · exact List.mem_singleton.mp he ▸ hend

theorem Dispatching.returns (hmode : M.mode = .vcfgRecovery) (hquiet : M.DispatchOnly)
    (hhandler : M.DispatchesTo handler) (hbuilt₀ : Built c₀ (c₀.insertPoint :: c₀.pendingBlocks))
    (hmaps₀ : c₀.MapsBuilt) (h₀ : Dispatching M handler c₀) (h : Returns M c₀ calls ended c)
    (hended : ∀ e ∈ ended, e.outcome = .functionEnded ∨ ∃ target, e.outcome = .edgeRebuilt target) :
    ∀ e ∈ ended, e.Joined := by
  cases h with
  | last hexplores hcall hstatus hpaths =>
    obtain ⟨hdispatching, hjoined⟩ := Dispatching.explores hmode hquiet hhandler hbuilt₀ hmaps₀ h₀ hexplores
      fun e he => hended e (List.mem_append_left _ he)
    intro e he
    rcases List.mem_append.mp he with he | he
    · exact hjoined e he
    · have hend := hdispatching.pathEnd hmode hcall
        (hended _ (List.mem_append_right _ (List.mem_singleton_self _)))
      exact List.mem_singleton.mp he ▸ hend

/-- Nothing is entered at the start, where zero has to decide the program counter. -/
theorem start_dispatching {layout : Layout} {image : MemPage} {opaqueSolving : Bool}
    (hstart : start M layout image opaqueSolving pc = .ok c₀) (hentry : handler 0 = pc) :
    Dispatching M handler c₀ := by
  obtain ⟨hpc, hvpc, hvjmp, hpath, _, hpaths⟩ := start_eq hstart
  have hvcfg : c₀.vcfg = fun _ => none := by
    simp only [start, Except.bind_eq_ok, Except.pure_eq_ok] at hstart
    obtain ⟨r, _, rfl⟩ := hstart
    rfl
  have hmap : ∀ v, joinMap M.joinPolicy c₀.path c₀.vcfg v = none := by
    intro v
    cases M.joinPolicy with
    | mergeByPc => exact congrFun hvcfg v
    | specializeByPath => exact hpath v
  refine ⟨⟨fun v b hb => ?_, fun htrue => ?_, fun _ => .inr ?_⟩, fun ss hss => ?_⟩
  · rw [hmap] at hb
    cases hb
  · rw [hvjmp] at htrue
    cases htrue
  · rw [hvpc, hentry, hpc]
  · rw [hpaths] at hss
    cases hss

/-- The virtual program counter `7` is the handler's. -/
def loopHandler (v : Addr) : Addr := if v = 7 then 0x1010 else 0x1000

theorem recoveringLoop_callback (k : EventKind) (c : Cpu) :
    (k = .indirectJump ∧ c.pc = 0x1010 ∧ recoveringLoop.callback k c = ⟨7, true, c.opaqueSolving⟩) ∨
      recoveringLoop.callback k c = ⟨c.vpc, c.vjmp, c.opaqueSolving⟩ := by
  by_cases hdispatch : k = .indirectJump ∧ c.pc = 0x1010
  · exact .inl ⟨hdispatch.1, hdispatch.2, if_pos hdispatch⟩
  · exact .inr (if_neg hdispatch)

theorem recoveringLoop_dispatchOnly : recoveringLoop.DispatchOnly := by
  intro k c
  rcases recoveringLoop_callback k c with ⟨hk, _, heq⟩ | heq
  · exact .inr ⟨hk, congrArg Virtual.vjmp heq⟩
  · exact .inl ⟨congrArg Virtual.vpc heq, congrArg Virtual.vjmp heq⟩

theorem recoveringLoop_dispatchesTo : recoveringLoop.DispatchesTo loopHandler := by
  intro c hvjmp hdispatch
  rcases recoveringLoop_callback .indirectJump c with ⟨_, hpc, heq⟩ | heq
  · rw [hpc, heq]
    rfl
  · rw [heq, hvjmp] at hdispatch
    cases hdispatch

end Vexa
