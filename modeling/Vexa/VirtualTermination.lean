import Vexa.VirtualSimulation
import Vexa.Lib.Exploration

/-!
# Virtual CFG recovery ends

Virtual recovery joins a path only after a dispatch, so a loop of the program without one is followed
for ever. When the code between dispatches does not loop, the loop of `cpu::run` ends: a path that is
not dispatched comes closer to the end of its code, and a dispatch either ends the path or enters one
more virtual program counter in the table.

## Main definitions

* `dispatchedVpcs` — the virtual program counters dispatches are reported to
* `Machine.Descends` — the code between dispatches does not loop
* `Cpu.forest` — the steps left, by the depth of the paths

## Main results

* `Cpu.forest_step` — every step lowers it
* `virtualRecovery_bounded` — the loop ends, with either join policy
-/

namespace Vexa

open Exploration

variable {M : Machine} {c c' c₀ : Cpu} {outcome : Outcome} {b : BlockId} {pc pc' v : Addr} {vjmp : Bool}
  {map map' : Addr → Option BlockId} {rank : Addr → ℕ} {K : ℕ} {P : Finset Addr}
  {trace : List (Addr × Outcome)}

/-- The virtual program counters dispatches are reported to. -/
def dispatchedVpcs (M : Machine) (c₀ : Cpu) : Set Addr :=
  {v | ∃ trace c, Runs M c₀ trace c ∧ c.vjmp = true ∧ c.vpc = v}

/-- The code between dispatches does not loop: where a call goes on without one, the rank is lower. -/
def Machine.Descends (M : Machine) (rank : Addr → ℕ) (c₀ : Cpu) : Prop :=
  ∀ trace c b c', Runs M c₀ trace c → processInstruction M c = .ok (.lifted b, c') → c'.vjmp = false →
    ∀ a ∈ c.exits c', rank a < rank c.pc

theorem dispatchedVpcs_finite (M : Machine) (c₀ : Cpu) : (dispatchedVpcs M c₀).Finite :=
  have : Finite Addr := Finite.of_injective BitVec.toFin fun _ _ => BitVec.eq_of_toFin_eq
  Set.toFinite _

/-! ### The depth of a path -/

/-- How many of the virtual program counters have no entry. -/
def unentered (P : Finset Addr) (map : Addr → Option BlockId) : ℕ :=
  (P.filter fun v => map v = none).card

theorem unentered_le (hgrows : ∀ v, (map v).isSome = true → (map' v).isSome = true) :
    unentered P map' ≤ unentered P map := by
  refine Finset.card_le_card fun v hv => ?_
  obtain ⟨hmem, hnone⟩ := Finset.mem_filter.mp hv
  refine Finset.mem_filter.mpr ⟨hmem, ?_⟩
  by_contra hsome
  have hgrown := hgrows v (Option.isSome_iff_ne_none.mpr hsome)
  rw [hnone] at hgrown
  cases hgrown

theorem unentered_tryEmplace (hv : v ∈ P) (hnone : map v = none) :
    unentered P (tryEmplace map v b) < unentered P map := by
  refine Finset.card_lt_card (Finset.ssubset_iff_of_subset ?_ |>.mpr ⟨v, ?_, ?_⟩)
  · intro w hw
    obtain ⟨hmem, hw⟩ := Finset.mem_filter.mp hw
    refine Finset.mem_filter.mpr ⟨hmem, ?_⟩
    rw [tryEmplace_eq] at hw
    exact (Option.or_eq_none_iff.mp hw).1
  · exact Finset.mem_filter.mpr ⟨hv, hnone⟩
  · intro hmem
    have hentered := tryEmplace_isSome_self map v b
    rw [(Finset.mem_filter.mp hmem).2] at hentered
    cases hentered

/-- The calls a path can still make one after another: up to `K + 2` after each new dispatch, and those
up to the next one. -/
def pathDepth (K : ℕ) (P : Finset Addr) (rank : Addr → ℕ) (map : Addr → Option BlockId) (pc : Addr)
    (vjmp : Bool) : ℕ :=
  (K + 2) * unentered P map + if vjmp then 1 else rank pc + 2

theorem pathDepth_le_of_grows (hgrows : ∀ v, (map v).isSome = true → (map' v).isSome = true) :
    pathDepth K P rank map' pc vjmp ≤ pathDepth K P rank map pc vjmp :=
  Nat.add_le_add_right (Nat.mul_le_mul_left _ (unentered_le hgrows)) _

theorem pathDepth_le (hrank : ∀ a, rank a ≤ K) :
    pathDepth K P rank map pc vjmp ≤ (K + 2) * (unentered P map + 1) := by
  have hpc := hrank pc
  rw [pathDepth, Nat.mul_succ]
  split <;> omega

/-- Without a dispatch. -/
theorem pathDepth_lt_of_rank (hgrows : ∀ v, (map v).isSome = true → (map' v).isSome = true)
    (hless : vjmp = false → rank pc' < rank pc) :
    pathDepth K P rank map' pc' vjmp < pathDepth K P rank map pc false := by
  have hunentered := Nat.mul_le_mul_left (K + 2) (unentered_le (P := P) hgrows)
  rw [pathDepth, pathDepth, if_neg Bool.false_ne_true]
  cases vjmp with
  | true =>
    rw [if_pos rfl]
    omega
  | false =>
    have hlt := hless rfl
    rw [if_neg Bool.false_ne_true]
    omega

/-- After a dispatch. -/
theorem pathDepth_lt_of_dispatch (hrank : ∀ a, rank a ≤ K) (hv : v ∈ P) (hnone : map v = none) :
    pathDepth K P rank (tryEmplace map v b) pc' vjmp < pathDepth K P rank map pc true := by
  have hunentered := Nat.mul_le_mul_left (K + 2) (unentered_tryEmplace (b := b) hv hnone)
  refine (pathDepth_le hrank).trans_lt ?_
  rw [pathDepth, if_pos rfl]
  exact Nat.lt_succ_of_le hunentered

/-! ### One step -/

/-- The steps left. -/
def Cpu.forest (M : Machine) (K : ℕ) (P : Finset Addr) (rank : Addr → ℕ) (c : Cpu) : ℕ :=
  forestRank (pathDepth K P rank (joinMap M.joinPolicy c.path c.vcfg) c.pc c.vjmp)
    (fun ss => pathDepth K P rank (joinMap M.joinPolicy ss.path c.vcfg) ss.pc ss.vjmp) c.unexploredPaths

/-- The table for all paths stays when a path is resumed. -/
theorem Cpu.forest_resumePath (c : Cpu) (path : Snapshot) (rest : List Snapshot) :
    (resumePath c path rest).forest M K P rank =
      forestRank (pathDepth K P rank (joinMap M.joinPolicy path.path c.vcfg) path.pc path.vjmp)
        (fun ss => pathDepth K P rank (joinMap M.joinPolicy ss.path c.vcfg) ss.pc ss.vjmp) rest := rfl

/-- The tables of the other paths grow. -/
theorem Cpu.LiftsVirtual.grows (h : c.LiftsVirtual M c') (path : Addr → Option BlockId) (v : Addr)
    (hv : (joinMap M.joinPolicy path c.vcfg v).isSome = true) :
    (joinMap M.joinPolicy path c'.vcfg v).isSome = true := by
  have hmap := h.map
  cases hpolicy : M.joinPolicy with
  | specializeByPath =>
    rw [hpolicy] at hv
    exact hv
  | mergeByPc =>
    rw [hpolicy] at hv hmap
    have htable : joinMap .mergeByPc path c'.vcfg
        = tryEmplace (joinMap .mergeByPc path c.vcfg) c.vpc c.numBlocks := hmap
    rw [htable]
    exact tryEmplace_isSome hv ..

/-- A jump without a known target saves no path. -/
theorem processInstruction_unresolved (h : processInstruction M c = .ok (.unresolved b, c')) :
    c'.unexploredPaths = c.unexploredPaths := by
  rcases processInstruction_cases h with ⟨heq, _⟩ | ⟨_, _, heq, _⟩ | ⟨_, c₁, hnone, ⟨heq, _⟩ | ⟨inst, _, hlift⟩⟩
  · cases heq
  · cases heq
  · cases heq
  obtain ⟨vjmp, rfl⟩ := cfgRecovery_none hnone
  obtain ⟨c₁, hexec, ⟨_, heq⟩ | ⟨semantics, c₂, _, hrun, hflow⟩⟩ := liftInstruction_eq hlift
  · cases heq
  have hopened : c₁.unexploredPaths = c.unexploredPaths := (Cpu.exec_extends hexec).unexploredPaths
  have hfilled : c₂.unexploredPaths = c₁.unexploredPaths := by
    simp only [runLifted, Except.bind_eq_ok, Except.pure_eq_ok] at hrun
    obtain ⟨_, _, rfl⟩ := hrun
    rfl
  have hsaved := (saveBlock_goesOn (M := M) c₂).unexploredPaths
  rcases controlFlow_cases hflow with ⟨_, _, _, _, _, heq⟩ | ⟨_, heq⟩ | ⟨_, hjump⟩ | ⟨_, _, _, _, heq⟩ |
    ⟨_, _, heq⟩
  · cases heq
  · cases heq
  · obtain ⟨next, _, ⟨_, _, _, heq⟩ | ⟨_, ⟨_, _, _, _, heq⟩ | ⟨_, _, _, _, _, _, _, _, _, _, _, _, _, heq⟩ |
      ⟨_, _, heq⟩⟩⟩ := indirectJump_cases hjump
    · cases heq
    · cases heq
    · cases heq
    · obtain rfl := (Prod.mk.inj heq).2
      exact hsaved.trans (hfilled.trans hopened)
  · cases heq
  · cases heq

/-- **A call** that goes on lowers the rank, and one that ends the path leaves the others. -/
theorem processInstruction_forest (hmode : M.mode = .vcfgRecovery) (hquiet : M.DispatchOnly)
    (hrank : ∀ a, rank a ≤ K) (hP : c.vjmp = true → c.vpc ∈ P)
    (hdescends : ∀ b, outcome = .lifted b → c'.vjmp = false → ∀ a ∈ c.exits c', rank a < rank c.pc)
    (h : processInstruction M c = .ok (outcome, c')) :
    (outcome.status = .successful → c'.forest M K P rank < c.forest M K P rank) ∧
    (outcome.status ≠ .successful → c'.unexploredPaths = c.unexploredPaths ∧ ∀ path v,
      (joinMap M.joinPolicy path c.vcfg v).isSome = true →
      (joinMap M.joinPolicy path c'.vcfg v).isSome = true) := by
  rcases processInstruction_virtual hmode hquiet h with ⟨hnone, _, hvcfg, hpaths⟩ | ⟨hmap, hb, hlifts⟩
  · refine ⟨fun hstatus => ?_, fun _ => ⟨hpaths, fun path v hv => by rwa [hvcfg]⟩⟩
    cases outcome <;> cases hnone <;> cases hstatus
  refine ⟨fun hstatus => ?_, fun hstatus => ⟨?_, hlifts.grows⟩⟩
  · obtain ⟨b, rfl⟩ : ∃ b, outcome = .lifted b := by
      cases outcome <;> first | exact ⟨_, rfl⟩ | cases hstatus
    have hothers : ∀ ss ∈ c.unexploredPaths,
        pathDepth K P rank (joinMap M.joinPolicy ss.path c'.vcfg) ss.pc ss.vjmp
          ≤ pathDepth K P rank (joinMap M.joinPolicy ss.path c.vcfg) ss.pc ss.vjmp := fun ss _ =>
      pathDepth_le_of_grows (hlifts.grows ss.path)
    have hcurrent : ∀ a vjmp, a ∈ c.exits c' → (vjmp = false → c'.vjmp = false) →
        pathDepth K P rank (joinMap M.joinPolicy c'.path c'.vcfg) a vjmp
          < pathDepth K P rank (joinMap M.joinPolicy c.path c.vcfg) c.pc c.vjmp := by
      intro a vjmp ha hvjmp
      have htable : joinMap M.joinPolicy c'.path c'.vcfg
          = tryEmplace (joinMap M.joinPolicy c.path c.vcfg) c.vpc c.numBlocks := hlifts.map
      rw [htable]
      cases hc : c.vjmp with
      | true => exact pathDepth_lt_of_dispatch hrank (hP hc) (hmap hc)
      | false =>
        exact pathDepth_lt_of_rank (fun v hv => tryEmplace_isSome hv ..) fun hfalse =>
          hdescends b rfl (hvjmp hfalse) a ha
    rcases hlifts.leaves with ⟨_, hvjmp, hpaths | ⟨ss, hpaths, _, hssvjmp, hsspath⟩⟩ | ⟨_, _, hpaths⟩
    · rw [Cpu.forest, Cpu.forest, hpaths]
      exact forestRank_visit (hcurrent c'.pc c'.vjmp (List.mem_cons_self ..) id) hothers
    · have hcons : c'.unexploredPaths = ss :: c.unexploredPaths := hpaths
      have hsaved : ss.pc ∈ c.exits c' := by
        rw [Cpu.exits_of_cons hcons]
        exact List.mem_cons_of_mem _ (List.mem_singleton_self _)
      have hss := hcurrent ss.pc ss.vjmp hsaved fun _ => hvjmp
      rw [← hsspath] at hss
      rw [Cpu.forest, Cpu.forest, hpaths]
      exact forestRank_fork (hcurrent c'.pc c'.vjmp (List.mem_cons_self ..) id) hss hothers
    · rw [Cpu.forest, Cpu.forest, hpaths]
      exact forestRank_visit (hcurrent c'.pc c'.vjmp (List.mem_cons_self ..) id) hothers
  · cases outcome with
    | lifted => exact absurd rfl hstatus
    | unresolved => exact processInstruction_unresolved h
    | _ => cases hb

/-- **Every step lowers the rank**, whichever pending path is taken next. -/
theorem Cpu.forest_step (hmode : M.mode = .vcfgRecovery) (hquiet : M.DispatchOnly)
    (hrank : ∀ a, rank a ≤ K) (hP : c.vjmp = true → c.vpc ∈ P)
    (hdescends : ∀ b c', processInstruction M c = .ok (.lifted b, c') → c'.vjmp = false →
      ∀ a ∈ c.exits c', rank a < rank c.pc)
    (h : Step M c outcome c') : c'.forest M K P rank < c.forest M K P rank := by
  cases h with
  | successful hcall hstatus =>
    refine (processInstruction_forest hmode hquiet hrank hP ?_ hcall).1 hstatus
    rintro b rfl
    exact hdescends b c' hcall
  | explore hcall hstatus hpaths =>
    rename_i c₁ before after path
    obtain ⟨hsame, hgrows⟩ := (processInstruction_forest hmode hquiet hrank hP
      (fun b heq => absurd (congrArg Outcome.status heq) hstatus) hcall).2 hstatus
    have hvcfg : (finishPath outcome c₁).vcfg = c₁.vcfg := by
      rw [finishPath]
      split <;> rfl
    have hpending : c.unexploredPaths = before ++ path :: after := hsame.symm.trans hpaths
    have hothers : ∀ ss ∈ before ++ path :: after,
        pathDepth K P rank (joinMap M.joinPolicy ss.path c₁.vcfg) ss.pc ss.vjmp
          ≤ pathDepth K P rank (joinMap M.joinPolicy ss.path c.vcfg) ss.pc ss.vjmp := fun ss _ =>
      pathDepth_le_of_grows (hgrows ss.path)
    rw [Cpu.forest_resumePath, hvcfg, Cpu.forest, hpending]
    exact forestRank_finish _ hothers

/-! ### Runs -/

/-- **Along every run** the calls made are paid for. -/
theorem Runs.forest (hmode : M.mode = .vcfgRecovery) (hquiet : M.DispatchOnly) (hrank : ∀ a, rank a ≤ K)
    (hP : ∀ v ∈ dispatchedVpcs M c₀, v ∈ P) (hdescends : M.Descends rank c₀) (h : Runs M c₀ trace c) :
    trace.length + c.forest M K P rank ≤ c₀.forest M K P rank := by
  induction h with
  | start =>
    rw [List.length_nil, Nat.zero_add]
  | step hruns hstep ih =>
    have hless := Cpu.forest_step hmode hquiet hrank (fun hvjmp => hP _ ⟨_, _, hruns, hvjmp, rfl⟩)
      (hdescends _ _ · · hruns) hstep
    rw [List.length_append, List.length_singleton]
    omega

/-- **Virtual CFG recovery terminates** when the code between dispatches does not loop, with either join
policy, whatever the decoder, the lifter and the solver do, and whichever pending paths are taken. With
`N` virtual program counters that dispatches are reported to, and ranks up to `K`, no path makes more than
`(K + 2) * (N + 1)` calls one after another, and as it may fork at each of them the number of all calls is
bounded by that of a binary tree. -/
theorem virtualRecovery_bounded (hmode : M.mode = .vcfgRecovery) (hquiet : M.DispatchOnly)
    (hrank : ∀ a, rank a ≤ K) {layout : Layout} {image : MemPage} {opaqueSolving : Bool}
    (hstart : start M layout image opaqueSolving pc = .ok c₀) (hdescends : M.Descends rank c₀) :
    (∀ trace c, Runs M c₀ trace c →
      trace.length < budget ((K + 2) * ((dispatchedVpcs M c₀).ncard + 1))) ∧
    runLoop M (budget ((K + 2) * ((dispatchedVpcs M c₀).ncard + 1))) c₀ [] ≠ .ok none := by
  have hfinite := dispatchedVpcs_finite M c₀
  have hcard : hfinite.toFinset.card = (dispatchedVpcs M c₀).ncard :=
    (Set.ncard_eq_toFinset_card _ hfinite).symm
  obtain ⟨_, _, hvjmp, hpath, _, hpaths⟩ := start_eq hstart
  have hfirst : c₀.forest M K hfinite.toFinset rank
      ≤ budget ((K + 2) * ((dispatchedVpcs M c₀).ncard + 1)) := by
    rw [Cpu.forest, hpaths, forestRank_nil]
    refine budget_le ((pathDepth_le hrank).trans (Nat.mul_le_mul_left _ (Nat.succ_le_succ ?_)))
    rw [← hcard]
    exact Finset.card_filter_le ..
  have hruns : ∀ trace c, Runs M c₀ trace c →
      trace.length < budget ((K + 2) * ((dispatchedVpcs M c₀).ncard + 1)) := by
    intro trace c h
    have hpaid := h.forest hmode hquiet hrank (fun v hv => hfinite.mem_toFinset.mpr hv) hdescends
    have hpos : 0 < c.forest M K hfinite.toFinset rank :=
      Nat.lt_of_lt_of_le (budget_pos _) (Nat.le_add_right ..)
    omega
  refine ⟨hruns, fun hnone => ?_⟩
  obtain ⟨trace, c, h, hlen⟩ := exists_runs_of_runLoop hnone
  exact absurd hlen (hruns trace c h).ne

/-! ### A virtual loop -/

theorem Step.eq_of_lifted (h : Step M c outcome c') {c₁ : Cpu}
    (hcall : processInstruction M c = .ok (.lifted b, c₁)) : c' = c₁ := by
  cases h with
  | successful hcall' _ =>
    cases hcall.symm.trans hcall'
    rfl
  | explore hcall' hstatus _ =>
    cases hcall.symm.trans hcall'
    exact absurd rfl hstatus

/-- Where one path is pending. -/
theorem Step.eq_of_ended (h : Step M c outcome c') {outcome' : Outcome} {c₁ : Cpu} {path : Snapshot}
    (hcall : processInstruction M c = .ok (outcome', c₁)) (hstatus : outcome'.status ≠ .successful)
    (hpaths : c₁.unexploredPaths = [path]) : c' = resumePath (finishPath outcome' c₁) path [] := by
  cases h with
  | successful hcall' hstatus' =>
    cases hcall.symm.trans hcall'
    exact absurd hstatus' hstatus
  | explore hcall' _ hpaths' =>
    rename_i c₂ before after path'
    obtain ⟨rfl, rfl⟩ := Prod.mk.inj (Except.ok.inj (hcall.symm.trans hcall'))
    rw [hpaths] at hpaths'
    obtain ⟨rfl, heq⟩ | ⟨_, heq⟩ := List.singleton_eq_append_iff.mp hpaths'
    · obtain ⟨rfl, rfl⟩ := List.cons.inj heq
      rfl
    · cases heq

theorem not_step_of_last {c₁ : Cpu} (hcall : processInstruction M c = .ok (.functionEnded, c₁))
    (hpaths : c₁.unexploredPaths = []) : ¬ Step M c outcome c' := by
  intro h
  cases h with
  | successful hcall' hstatus =>
    cases hcall.symm.trans hcall'
    cases hstatus
  | explore hcall' _ hpaths' =>
    cases hcall.symm.trans hcall'
    rw [hpaths] at hpaths'
    simp at hpaths'

/-- The handler goes on to the dispatch, or to the end. -/
def loopRank (a : Addr) : ℕ := if a = 0x1010 then 2 else if a = 0x1000 then 1 else 0

theorem recoveringLoop_descends (hstart : start recoveringLoop ⟨0, 8⟩ .empty true 0x1000 = .ok c₀) :
    recoveringLoop.Descends loopRank c₀ := by
  obtain ⟨c₀', c₁, c₂, c₃, c₄, path, c₅, hstart', h₀, h₁, h₂, h₃, hpath, h₄, hlast, _, hexits₀, hexits₁, _,
    _, _, _, hvjmp₁, hvjmp₃⟩ := recoveringLoop_run
  obtain rfl := Except.ok.inj (hstart.symm.trans hstart')
  have hreached : ∀ trace c, Runs recoveringLoop c₀ trace c → c = c₀ ∨ c = c₁ ∨ c = c₂ ∨ c = c₃ ∨
      c = resumePath (finishPath (.edgeRebuilt 2) c₄) path [] := by
    intro trace c h
    induction h with
    | start => exact .inl rfl
    | step _ hstep ih =>
      rcases ih with rfl | rfl | rfl | rfl | rfl
      · exact .inr (.inl (hstep.eq_of_lifted h₀))
      · exact .inr (.inr (.inl (hstep.eq_of_lifted h₁)))
      · exact .inr (.inr (.inr (.inl (hstep.eq_of_lifted h₂))))
      · exact .inr (.inr (.inr (.inr (hstep.eq_of_ended h₃ (fun heq => by cases heq) hpath))))
      · exact absurd hstep (not_step_of_last h₄ hlast)
  intro trace c b c' hruns hcall hvjmp
  rcases hreached trace c hruns with rfl | rfl | rfl | rfl | rfl
  · cases h₀.symm.trans hcall
    rw [hvjmp₁] at hvjmp
    cases hvjmp
  · cases h₁.symm.trans hcall
    have hpc : c.pc = 0x1010 := (List.cons.inj hexits₀).1
    intro a ha
    rw [hexits₁] at ha
    rw [hpc]
    rcases List.mem_cons.mp ha with rfl | ha
    · decide
    · obtain rfl := List.mem_singleton.mp ha
      decide
  · cases h₂.symm.trans hcall
    rw [hvjmp₃] at hvjmp
    cases hvjmp
  · cases h₃.symm.trans hcall
  · cases h₄.symm.trans hcall

theorem virtualRecovery_bounded_virtualLoop :
    ∃ c₀, start recoveringLoop ⟨0, 8⟩ .empty true 0x1000 = .ok c₀ ∧
      (∀ trace c, Runs recoveringLoop c₀ trace c →
        trace.length < budget ((2 + 2) * ((dispatchedVpcs recoveringLoop c₀).ncard + 1))) ∧
      runLoop recoveringLoop (budget ((2 + 2) * ((dispatchedVpcs recoveringLoop c₀).ncard + 1))) c₀ []
        ≠ .ok none := by
  have hrank : ∀ a, loopRank a ≤ 2 := by
    intro a
    rw [loopRank]
    split
    · exact le_rfl
    · split <;> decide
  obtain ⟨c₀, hstart⟩ : ∃ c₀, start recoveringLoop ⟨0, 8⟩ .empty true 0x1000 = .ok c₀ := ⟨_, rfl⟩
  exact ⟨c₀, hstart, virtualRecovery_bounded rfl recoveringLoop_dispatchOnly hrank hstart
    (recoveringLoop_descends hstart)⟩

end Vexa
