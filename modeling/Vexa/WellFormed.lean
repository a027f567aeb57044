import Vexa.BlockStructure
import Vexa.Runs
import Mathlib.Logic.Relation

/-!
# The lifted function is well formed

While the loop of `cpu::run` goes on, the blocks without a terminator are the one the builder is at and
those of the pending paths. A path that ends closes its block with a return, an edge or an
`unreachable`, unless its instruction cannot be decoded or the targets of its jump are not found:
these two exits leave the block open.

## Main definitions

* `BasicBlock.successors`, `Function.Reachable` — the graph of a function
* `Cpu.LeavesOpen` — the exits that leave a block open
* `Built` — what the loop keeps

## Main results

* `Built.explores`, `Built.returns` — along every run
* `run_wellFormed_iff` — when the function is well formed
-/

namespace Vexa

/-! ### The graph of a function -/

/-- The blocks a terminator may go to. -/
def Inst.successors {N : Type} : Inst N → List BlockId
  | br target => [target]
  | condBr _ ifTrue ifFalse => [ifTrue, ifFalse]
  | _ => []

/-- The blocks that may be executed after a block: those of the terminator at its end. -/
def BasicBlock.successors (b : BasicBlock) : List BlockId :=
  match b.insts.getLast? with
  | some i => i.successors
  | none => []

/-- The block may be executed: there is a way to it from the entry block. -/
def Function.Reachable (function : Function) (b : BlockId) : Prop :=
  Relation.ReflTransGen (fun b d => d ∈ (function b).successors) 0 b

/-- The exits of `process_instruction` that end a path and emit no terminator: the instruction is not
decoded, or its jump is not resolved. -/
def Outcome.leavesOpen : Outcome → Bool
  | decodeFailed | unresolved _ => true
  | functionEnded | edgeRebuilt _ | liftFailed _ | lifted _ => false

/-- `process_instruction` takes one of the exits that leave the block open. -/
def Cpu.LeavesOpen (M : Machine) (c : Cpu) : Prop :=
  ∃ outcome c', processInstruction M c = .ok (outcome, c') ∧ outcome.leavesOpen = true

section

variable {b b' : BasicBlock} {N : Type} {insts : List (Inst N)} {i : Inst N}

theorem Inst.successors_of_not_terminator (h : i.isTerminator = false) : i.successors = [] := by
  cases i <;> first | rfl | cases h

theorem BasicBlock.successors_of_straight (h : Straight b.insts) : b.successors = [] := by
  rw [successors]
  split
  · next i hi => exact Inst.successors_of_not_terminator (h i (List.mem_of_getLast? hi))
  · rfl

theorem BasicBlock.successors_of_append {insts : List (Inst Name)} {i : Inst Name}
    (h : b.insts = insts ++ [i]) : b.successors = i.successors := by
  rw [successors, h, List.getLast?_concat]

theorem BasicBlock.Terminated.of_append {insts : List (Inst Name)} {i : Inst Name}
    (h : b.insts = insts ++ [i]) (hinsts : Straight insts) (hi : i.isTerminator = true) :
    b.Terminated := ⟨insts, i, h, hinsts, hi⟩

theorem BasicBlock.Terminated.not_straight (h : b.Terminated) : ¬ Straight b.insts := by
  obtain ⟨body, last, hinsts, _, hlast⟩ := h
  intro hstraight
  have hfalse := hstraight last (hinsts ▸ List.mem_append_right _ (List.mem_singleton_self _))
  rw [hlast] at hfalse
  cases hfalse

/-- More edges keep what is reachable. -/
theorem Function.Reachable.mono {f g : Function} {b : BlockId} (h : f.Reachable b)
    (hfg : ∀ b d, d ∈ (f b).successors → d ∈ (g b).successors) : g.Reachable b :=
  Relation.ReflTransGen.mono hfg _ _ h

end

/-! ### What the loop keeps -/

variable {M : Machine} {c c' c₀ c₁ : Cpu} {opened rest : List BlockId} {outcome : Outcome}

/-- The blocks without a terminator are the opened ones; every other block has one, at its end. -/
structure Built (c : Cpu) (opened : List BlockId) : Prop where
  entry : 0 < c.numBlocks
  nodup : opened.Nodup
  lt : ∀ b ∈ opened, b < c.numBlocks
  straight : ∀ b ∈ opened, Straight (c.function b).insts
  terminated : ∀ b, b < c.numBlocks → b ∉ opened → (c.function b).Terminated
  successors_lt : ∀ b, b < c.numBlocks → ∀ d ∈ (c.function b).successors, d < c.numBlocks
  reachable : ∀ b, b < c.numBlocks → Function.Reachable c.function b
  deleted : ∀ d ∈ c.toDelete, d.1 < c.numBlocks ∧ ∃ i, (c.function d.1).insts[d.2]? = some i ∧ i.IsStore

/-- The blocks of the maps and of the maps of pending paths. -/
def Cpu.Maps (c : Cpu) (b : BlockId) : Prop :=
  ∃ a, c.path a = some b ∨ c.cfg a = some b ∨ c.vcfg a = some b ∨
    ∃ ss ∈ c.unexploredPaths, ss.path a = some b

/-- Every block that a path can be joined to exists. -/
def Cpu.MapsBuilt (c : Cpu) : Prop := ∀ b, c.Maps b → b < c.numBlocks

namespace Built

theorem perm (h : Built c opened) (hperm : opened.Perm rest) : Built c rest where
  entry := h.entry
  nodup := hperm.nodup h.nodup
  lt b hb := h.lt b (hperm.mem_iff.mpr hb)
  straight b hb := h.straight b (hperm.mem_iff.mpr hb)
  terminated b hlt hb := h.terminated b hlt fun hmem => hb (hperm.mem_iff.mp hmem)
  successors_lt := h.successors_lt
  reachable := h.reachable
  deleted := h.deleted

/-- A state with the same function and the same notes. -/
theorem of_eq (h : Built c opened) (hfun : c'.function = c.function)
    (hnum : c'.numBlocks = c.numBlocks) (hdelete : c'.toDelete = c.toDelete) : Built c' opened where
  entry := hnum ▸ h.entry
  nodup := h.nodup
  lt := hnum ▸ h.lt
  straight := hfun ▸ h.straight
  terminated := hnum ▸ hfun ▸ h.terminated
  successors_lt := hnum ▸ hfun ▸ h.successors_lt
  reachable := hnum ▸ hfun ▸ h.reachable
  deleted := hnum ▸ hdelete ▸ hfun ▸ h.deleted

theorem lt_of_reachable (h : Built c opened) {b : BlockId}
    (hb : Function.Reachable c.function b) : b < c.numBlocks := by
  induction hb with
  | refl => exact h.entry
  | tail _ hstep ih => exact h.successors_lt _ ih _ hstep

/-- More code in an opened block. -/
theorem goesOn (h : Built c (c.insertPoint :: rest)) (hgoes : c.GoesOn c') :
    Built c' (c'.insertPoint :: rest) := by
  have hnum := hgoes.numBlocks
  obtain ⟨tail, htail, hinsts⟩ := hgoes.insts
  have hstraight := h.straight c.insertPoint (List.mem_cons_self ..)
  have hsame : ∀ b, (c'.function b).successors = (c.function b).successors := by
    intro b
    by_cases hb : b = c.insertPoint
    · subst hb
      rw [BasicBlock.successors_of_straight hstraight, BasicBlock.successors_of_straight]
      rw [hinsts]
      exact straight_append.mpr ⟨hstraight, htail⟩
    · rw [hgoes.others b hb]
  rw [hgoes.insertPoint]
  refine ⟨hnum ▸ h.entry, h.nodup, hnum ▸ h.lt, fun b hb => ?_, fun b hlt hb => ?_, fun b hlt d hd => ?_,
    fun b hlt => ?_, fun d hd => ?_⟩
  · by_cases heq : b = c.insertPoint
    · rw [heq, hinsts]
      exact straight_append.mpr ⟨hstraight, htail⟩
    · rw [hgoes.others b heq]
      exact h.straight b hb
  · rw [hgoes.others b fun heq => hb (heq ▸ List.mem_cons_self ..)]
    exact h.terminated b (hnum ▸ hlt) hb
  · rw [hsame] at hd
    exact hnum ▸ h.successors_lt b (hnum ▸ hlt) d hd
  · refine (h.reachable b (hnum ▸ hlt)).mono fun b d hd => ?_
    rw [hsame]
    exact hd
  · rcases hgoes.deletes d hd with hd | ⟨hblock, hstore⟩
    · obtain ⟨hlt, i, hi, hstore⟩ := h.deleted d hd
      refine ⟨hnum ▸ hlt, i, ?_, hstore⟩
      by_cases hb : d.1 = c.insertPoint
      · rw [hb] at hi ⊢
        rw [hinsts, List.getElem?_append_left (List.getElem?_eq_some_iff.mp hi).1]
        exact hi
      · rw [hgoes.others _ hb]
        exact hi
    · rw [hblock]
      exact ⟨hnum ▸ h.lt _ (List.mem_cons_self ..), hstore⟩

/-- An opened block is closed by a terminator that goes to blocks there are, and to all that are made
with it. -/
theorem close {b : BlockId} {k : ℕ} (tail : List (Inst Name)) (last : Inst Name)
    (h : Built c (b :: rest)) (hnum : c'.numBlocks = c.numBlocks + k)
    (hinsts : (c'.function b).insts = (c.function b).insts ++ tail ++ [last])
    (htail : Straight tail) (hlast : last.isTerminator = true)
    (hsucc : ∀ d ∈ last.successors, d < c'.numBlocks)
    (hnew : ∀ d, c.numBlocks ≤ d → d < c'.numBlocks →
      Straight (c'.function d).insts ∧ d ∈ last.successors)
    (hothers : ∀ d, d ≠ b → d < c.numBlocks → c'.function d = c.function d)
    (hdeletes : Deletes c c' b) : Built c' (List.range' c.numBlocks k ++ rest) := by
  have hblt := h.lt b (List.mem_cons_self ..)
  obtain ⟨hbrest, hrest⟩ := List.nodup_cons.mp h.nodup
  have hb := h.straight b (List.mem_cons_self ..)
  have hbody : Straight ((c.function b).insts ++ tail) := straight_append.mpr ⟨hb, htail⟩
  have hself : (c'.function b).successors = last.successors := BasicBlock.successors_of_append hinsts
  have hrange : ∀ d, d ∈ List.range' c.numBlocks k ↔ c.numBlocks ≤ d ∧ d < c'.numBlocks := by
    intro d
    rw [List.mem_range'_1, hnum]
  -- edges there were are kept: the block had none
  have hedges : ∀ d e, e ∈ (c.function d).successors → d < c.numBlocks →
      e ∈ (c'.function d).successors := by
    intro d e he hd
    by_cases hdb : d = b
    · subst hdb
      rw [BasicBlock.successors_of_straight hb] at he
      cases he
    · rw [hothers d hdb hd]
      exact he
  have hold : ∀ d, d < c.numBlocks → Function.Reachable c'.function d := by
    intro d hd
    have hreach := h.reachable d hd
    clear hd
    induction hreach with
    | refl => exact .refl
    | tail hprev hstep ih =>
      exact .tail ih (hedges _ _ hstep (h.lt_of_reachable hprev))
  refine ⟨hnum ▸ Nat.lt_add_right k h.entry, ?_, fun d hd => ?_, fun d hd => ?_,
    fun d hlt hd => ?_, fun d hlt e he => ?_,
    fun d hlt => ?_, fun d hd => ?_⟩
  · refine List.nodup_append.mpr ⟨List.nodup_range', hrest, fun d hd e he hde => ?_⟩
    have hlt := h.lt e (List.mem_cons_of_mem _ he)
    have hle := ((hrange d).mp hd).1
    rw [hde] at hle
    exact absurd hlt (Nat.not_lt.mpr hle)
  · rcases List.mem_append.mp hd with hd | hd
    · exact ((hrange d).mp hd).2
    · rw [hnum]
      exact Nat.lt_add_right k (h.lt d (List.mem_cons_of_mem _ hd))
  · rcases List.mem_append.mp hd with hd | hd
    · obtain ⟨hle, hlt⟩ := (hrange d).mp hd
      exact (hnew d hle hlt).1
    · have hne : d ≠ b := fun heq => hbrest (heq ▸ hd)
      rw [hothers d hne (h.lt d (List.mem_cons_of_mem _ hd))]
      exact h.straight d (List.mem_cons_of_mem _ hd)
  · obtain ⟨hrange', hrest'⟩ := not_or.mp fun hor => hd (List.mem_append.mpr hor)
    have hlt' : d < c.numBlocks := by
      by_contra hge
      exact hrange' ((hrange d).mpr ⟨Nat.le_of_not_lt hge, hlt⟩)
    by_cases hdb : d = b
    · rw [hdb]
      exact .of_append hinsts hbody hlast
    · rw [hothers d hdb hlt']
      exact h.terminated d hlt' fun hmem => (List.mem_cons.mp hmem).elim hdb hrest'
  · by_cases hdb : d = b
    · rw [hdb, hself] at he
      exact hsucc e he
    by_cases hlt' : d < c.numBlocks
    · rw [hothers d hdb hlt'] at he
      rw [hnum]
      exact Nat.lt_add_right k (h.successors_lt d hlt' e he)
    · rw [BasicBlock.successors_of_straight (hnew d (Nat.le_of_not_lt hlt') hlt).1] at he
      cases he
  · by_cases hlt' : d < c.numBlocks
    · exact hold d hlt'
    · refine .tail (hold b hblt) ?_
      show d ∈ (c'.function b).successors
      rw [hself]
      exact (hnew d (Nat.le_of_not_lt hlt') hlt).2
  · rcases hdeletes d hd with hd | ⟨hblock, hstore⟩
    · obtain ⟨hlt, i, hi, hstore⟩ := h.deleted d hd
      refine ⟨hnum ▸ Nat.lt_add_right k hlt, i, ?_, hstore⟩
      by_cases hdb : d.1 = b
      · rw [hdb] at hi ⊢
        rw [hinsts, List.append_assoc, List.getElem?_append_left (List.getElem?_eq_some_iff.mp hi).1]
        exact hi
      · rw [hothers _ hdb hlt]
        exact hi
    · rw [hblock]
      exact ⟨hnum ▸ Nat.lt_add_right k hblt, hstore⟩

/-- The block before an instruction branches to the block of the instruction. -/
theorem lifts (h : Built c (c.insertPoint :: rest)) (hlifts : c.Lifts c') :
    Built c' (c'.insertPoint :: rest) := by
  rw [hlifts.insertPoint]
  refine h.close (k := 1) [] (.br c.numBlocks) hlifts.numBlocks ?_ Straight.nil rfl
    ?_ ?_ ?_ ?_
  · rw [hlifts.closes, List.append_nil]
  · intro d hd
    rw [List.mem_singleton.mp hd, hlifts.numBlocks]
    exact Nat.lt_succ_self _
  · intro d hle hlt
    obtain rfl : d = c.numBlocks := by
      have hnum := hlifts.numBlocks
      omega
    exact ⟨hlifts.straight, List.mem_singleton_self _⟩
  · exact fun d hd hlt => hlifts.others d hd hlt.ne
  · exact fun d hd => .inl (hlifts.toDelete ▸ hd)

/-- A fork closes the current block and opens two. -/
theorem forks (h : Built c (c.insertPoint :: rest)) (hforks : c.Forks c') :
    Built c' (c'.insertPoint :: (c.numBlocks + 1) :: rest) := by
  obtain ⟨tail, condition, htail, hinsts⟩ := hforks.insts
  have hnum := hforks.numBlocks
  rw [hforks.insertPoint]
  refine h.close (k := 2) _ _ hnum hinsts htail rfl ?_ ?_ ?_ hforks.deletes
  · intro d hd
    simp only [Inst.successors, List.mem_cons, List.not_mem_nil, or_false] at hd
    rw [hnum]
    rcases hd with rfl | rfl
    · exact Nat.lt_add_of_pos_right (by decide)
    · exact Nat.lt_succ_self _
  · intro d hle hlt
    have hcases : d = c.numBlocks ∨ d = c.numBlocks + 1 := by omega
    rcases hcases with rfl | rfl
    · exact ⟨hforks.ifTrue, by simp [Inst.successors]⟩
    · exact ⟨hforks.ifFalse, by simp [Inst.successors]⟩
  · exact fun d hd hlt => hforks.others d hd hlt.ne (Nat.lt_succ_of_lt hlt).ne

/-- A path ends with a terminator. -/
theorem finish (last : Inst Name) (h : Built c (c.insertPoint :: rest))
    (hlast : last.isTerminator = true) (hsucc : ∀ d ∈ last.successors, d < c.numBlocks) :
    Built (c.create last) rest := by
  refine h.close (k := 0) [] last rfl ?_ Straight.nil hlast hsucc ?_ ?_ ?_
  · rw [Cpu.function_create_self, List.append_nil]
  · exact fun d hle hlt => absurd hlt (Nat.not_lt.mpr hle)
  · exact fun d hd _ => Cpu.function_create_of_ne _ _ hd
  · exact fun d hd => .inl hd

end Built

/-! ### One call -/

/-- Lifting an instruction saves the new block, and no other. -/
theorem Cpu.Maps.of_liftInstruction {inst : Instruction} {b : BlockId}
    (h : liftInstruction M inst c = .ok (outcome, c')) (hb : c'.Maps b) :
    c.Maps b ∨ b = c.numBlocks := by
  obtain ⟨c₁, henter, hcases⟩ := liftInstruction_cases h
  have hsave : ∀ a, ((saveBlock M c₁).path a = some b ∨ (saveBlock M c₁).cfg a = some b ∨
      (saveBlock M c₁).vcfg a = some b) → c.Maps b ∨ b = c.numBlocks := by
    have hupdate : ∀ {map : Addr → Option BlockId} {x a : Addr},
        Function.update map x (some c₁.block) a = some b → map a = some b ∨ b = c.numBlocks := by
      intro map x a hmap
      by_cases ha : a = x
      · rw [ha, Function.update_self, henter.block] at hmap
        exact .inr (Option.some.inj hmap).symm
      · rw [Function.update_of_ne ha] at hmap
        exact .inl hmap
    have hpath : ∀ {a}, c₁.path a = some b → c.Maps b := fun h => ⟨_, .inl (henter.path ▸ h)⟩
    have hcfg : ∀ {a}, c₁.cfg a = some b → c.Maps b := fun h => ⟨_, .inr (.inl (henter.cfg ▸ h))⟩
    have hvcfg : ∀ {a}, c₁.vcfg a = some b → c.Maps b :=
      fun h => ⟨_, .inr (.inr (.inl (henter.vcfg ▸ h)))⟩
    have hsame : ∀ {a}, (c₁.path a = some b ∨ c₁.cfg a = some b ∨ c₁.vcfg a = some b) →
        c.Maps b ∨ b = c.numBlocks := fun h =>
      .inl (h.elim hpath fun h => h.elim hcfg hvcfg)
    intro a ha
    rw [saveBlock] at ha
    split at ha
    · rcases ha with ha | ha | ha
      · exact (hupdate ha).imp_left hpath
      · exact .inl (hcfg ha)
      · exact .inl (hvcfg ha)
    · rcases ha with ha | ha | ha
      · exact .inl (hpath ha)
      · exact (hupdate ha).imp_left hcfg
      · exact .inl (hvcfg ha)
    · split at ha
      · exact hsame ha
      · rcases ha with ha | ha | ha
        · exact (hupdate ha).imp_left hpath
        · exact .inl (hcfg ha)
        · exact .inl (hvcfg ha)
    · split at ha
      · exact hsame ha
      · rcases ha with ha | ha | ha
        · exact .inl (hpath ha)
        · exact .inl (hcfg ha)
        · exact (hupdate ha).imp_left hvcfg
    · exact hsame ha
  have hpending : ∀ {ss : Snapshot} {a : Addr}, ss ∈ c.unexploredPaths → ss.path a = some b →
      c.Maps b := fun hss ha => ⟨_, .inr (.inr (.inr ⟨_, hss, ha⟩))⟩
  obtain ⟨a, ha⟩ := hb
  rcases hcases with ⟨_, rfl⟩ | ⟨_, hadv⟩
  · rcases ha with ha | ha | ha | ⟨ss, hss, ha⟩
    · exact .inl ⟨a, .inl (henter.path ▸ ha)⟩
    · exact .inl ⟨a, .inr (.inl (henter.cfg ▸ ha))⟩
    · exact .inl ⟨a, .inr (.inr (.inl (henter.vcfg ▸ ha)))⟩
    · exact .inl (hpending (henter.unexploredPaths ▸ hss) ha)
  · have hpaths : (saveBlock M c₁).unexploredPaths = c.unexploredPaths :=
      (saveBlock_goesOn c₁).unexploredPaths.trans henter.unexploredPaths
    rcases ha with ha | ha | ha | ⟨ss, hss, ha⟩
    · exact hsave a (.inl (hadv.path ▸ ha))
    · exact hsave a (.inr (.inl (hadv.cfg ▸ ha)))
    · exact hsave a (.inr (.inr (hadv.vcfg ▸ ha)))
    · rcases hadv.unexploredPaths with heq | ⟨ss', heq, hss', _⟩
      · exact .inl (hpending (hpaths ▸ heq ▸ hss) ha)
      · rw [heq, hpaths] at hss
        rcases List.mem_cons.mp hss with rfl | hss
        · exact hsave a (.inl (hss' ▸ ha))
        · exact .inl (hpending hss ha)

theorem cfgRecovery_some {target : BlockId} (h : cfgRecovery M c = (some target, c')) :
    c.Maps target ∧ ∃ vjmp, c' = { c.create (.br target) with vjmp := vjmp } := by
  rw [cfgRecovery] at h
  split at h
  · split at h
    · next lifted hlifted =>
      obtain ⟨hsome, rfl⟩ := Prod.mk.inj h
      obtain rfl := Option.some.inj hsome
      exact ⟨⟨_, .inl hlifted⟩, _, rfl⟩
    · cases h
  · split at h
    · next lifted hlifted =>
      obtain ⟨hsome, rfl⟩ := Prod.mk.inj h
      obtain rfl := Option.some.inj hsome
      exact ⟨⟨_, .inr (.inl hlifted)⟩, _, rfl⟩
    · cases h
  · split at h
    · cases h
    · split at h
      · next lifted hlifted =>
        obtain ⟨hsome, rfl⟩ := Prod.mk.inj h
        obtain rfl := Option.some.inj hsome
        cases hpolicy : M.joinPolicy with
        | specializeByPath =>
          rw [hpolicy] at hlifted
          exact ⟨⟨_, .inl hlifted⟩, _, rfl⟩
        | mergeByPc =>
          rw [hpolicy] at hlifted
          exact ⟨⟨_, .inr (.inr (.inl hlifted))⟩, _, rfl⟩
      · cases h
  · cases h

theorem cfgRecovery_none (h : cfgRecovery M c = (none, c')) :
    ∃ vjmp, c' = { c with vjmp := vjmp } := by
  rw [cfgRecovery] at h
  split at h
  · split at h
    · cases h
    · exact ⟨_, (Prod.mk.inj h).2.symm⟩
  · split at h
    · cases h
    · exact ⟨_, (Prod.mk.inj h).2.symm⟩
  · split at h
    · exact ⟨_, (Prod.mk.inj h).2.symm⟩
    · split at h
      · cases h
      · exact ⟨_, (Prod.mk.inj h).2.symm⟩
  · exact ⟨_, (Prod.mk.inj h).2.symm⟩

/-- The exits that put a terminator at the end of the block, and the return of `cpu::run`. -/
def Outcome.closes : Outcome → Bool
  | functionEnded | edgeRebuilt _ | liftFailed _ => true
  | decodeFailed | lifted _ | unresolved _ => false

/-- The blocks of the pending paths. -/
def Cpu.pendingBlocks (c : Cpu) : List BlockId := c.unexploredPaths.map Snapshot.bb

variable {left : List BlockId}

/-- **What a call does to the open blocks**: those of the pending paths and those left open before stay
so, and the one the builder is at unless the exit closes it. -/
theorem Built.call (h : Built c (c.insertPoint :: (c.pendingBlocks ++ left))) (hmaps : c.MapsBuilt)
    (hcall : processInstruction M c = .ok (outcome, c')) :
    (finishPath outcome c').MapsBuilt ∧
    Built (finishPath outcome c')
      ((if outcome.closes then [] else [c'.insertPoint]) ++ (c'.pendingBlocks ++ left)) := by
  rcases processInstruction_cases hcall with ⟨rfl, _, rfl⟩ | ⟨_, target, rfl, hjoin⟩ |
    ⟨_, c₁, hnone, ⟨rfl, rfl⟩ | ⟨inst, _, hlift⟩⟩
  · exact ⟨hmaps, h.finish .ret rfl nofun⟩
  · obtain ⟨htarget, vjmp, rfl⟩ := cfgRecovery_some hjoin
    have hfinish : Built (c.create (.br target)) (c.pendingBlocks ++ left) :=
      h.finish (.br target) rfl fun d hd => List.mem_singleton.mp hd ▸ hmaps target htarget
    exact ⟨hmaps, hfinish.of_eq rfl rfl rfl⟩
  · obtain ⟨vjmp, rfl⟩ := cfgRecovery_none hnone
    exact ⟨hmaps, h.of_eq rfl rfl rfl⟩
  · obtain ⟨vjmp, rfl⟩ := cfgRecovery_none hnone
    have hbuilt : Built { c with vjmp := vjmp } (c.insertPoint :: (c.pendingBlocks ++ left)) :=
      h.of_eq rfl rfl rfl
    have hinsert : c.insertPoint < c.numBlocks := h.lt _ (List.mem_cons_self ..)
    obtain ⟨c₂, hlifts, hcases⟩ := liftInstruction_builds (c := { c with vjmp := vjmp }) hinsert hlift
    have hbuilt₂ : Built c₂ (c₂.insertPoint :: (c.pendingBlocks ++ left)) := hbuilt.lifts hlifts
    -- the new block is the only one the maps may have gained
    have hgrown : c.numBlocks < c'.numBlocks → c'.MapsBuilt := by
      intro hlt b hb
      rcases Cpu.Maps.of_liftInstruction hlift hb with hold | rfl
      · exact (hmaps b hold).trans hlt
      · exact hlt
    have hnum₂ : c.numBlocks < c₂.numBlocks := hlifts.numBlocks ▸ Nat.lt_succ_self _
    have hpending₂ : c₂.pendingBlocks = c.pendingBlocks :=
      congrArg (List.map Snapshot.bb) hlifts.unexploredPaths
    rcases hcases with ⟨rfl, rfl⟩ | ⟨hblock, hbuilds⟩
    · refine ⟨hgrown hnum₂, ?_⟩
      have hfinish := hbuilt₂.finish .unreachable rfl nofun
      rw [← hpending₂] at hfinish
      exact hfinish.of_eq rfl rfl rfl
    · have hclosed : outcome.closes = false ∧ finishPath outcome c' = c' := by
        cases outcome <;> first | exact ⟨rfl, rfl⟩ | cases hblock
      rw [hclosed.2, hclosed.1]
      rcases hbuilds with hgoes | hforks
      · refine ⟨hgrown (hgoes.numBlocks ▸ hnum₂), ?_⟩
        have hpending : c'.pendingBlocks = c.pendingBlocks :=
          (congrArg (List.map Snapshot.bb) hgoes.unexploredPaths).trans hpending₂
        rw [hpending]
        exact hbuilt₂.goesOn hgoes
      · refine ⟨hgrown (hforks.numBlocks ▸ Nat.lt_add_right 2 hnum₂), ?_⟩
        obtain ⟨ss, hss, hbb⟩ := hforks.unexploredPaths
        have hpending : c'.pendingBlocks = (c₂.numBlocks + 1) :: c.pendingBlocks := by
          rw [Cpu.pendingBlocks, hss, List.map_cons, hbb]
          exact congrArg _ hpending₂
        rw [hpending]
        exact hbuilt₂.forks hforks

/-! ### Runs -/

variable {calls : List Cpu} {ended : List PathEnd}

/-- The blocks that paths left open. -/
def leftOpen (ended : List PathEnd) : List BlockId :=
  ended.filterMap fun e => if e.outcome.leavesOpen then some e.state.insertPoint else none

theorem leftOpen_append (ended : List PathEnd) (e : PathEnd) : leftOpen (ended ++ [e]) =
    leftOpen ended ++ if e.outcome.leavesOpen then [e.state.insertPoint] else [] := by
  rw [leftOpen, leftOpen, List.filterMap_append]
  congr 1
  cases h : e.outcome.leavesOpen <;> simp [h]

theorem finishPath_insertPoint (outcome : Outcome) (c : Cpu) :
    (finishPath outcome c).insertPoint = c.insertPoint := by
  rw [finishPath]
  split <;> rfl

/-- The blocks open when a path has ended. -/
theorem Built.ends (h : Built c (c.insertPoint :: (c.pendingBlocks ++ leftOpen ended)))
    (hmaps : c.MapsBuilt) (hcall : processInstruction M c = .ok (outcome, c'))
    (hstatus : outcome.status ≠ .successful) :
    (finishPath outcome c').MapsBuilt ∧ Built (finishPath outcome c')
      (c'.pendingBlocks ++ leftOpen (ended ++ [⟨outcome, finishPath outcome c'⟩])) := by
  obtain ⟨hmaps', hbuilt⟩ := h.call hmaps hcall
  refine ⟨hmaps', hbuilt.perm ?_⟩
  have hexit : outcome.leavesOpen = !outcome.closes := by
    cases outcome <;> first | rfl | exact absurd rfl hstatus
  rw [leftOpen_append, finishPath_insertPoint, hexit, ← List.append_assoc c'.pendingBlocks]
  cases outcome.closes with
  | true => simp
  | false => exact List.perm_append_comm

theorem Built.explores (h₀ : Built c₀ (c₀.insertPoint :: c₀.pendingBlocks)) (hmaps₀ : c₀.MapsBuilt)
    (h : Explores M c₀ calls ended c) :
    c.MapsBuilt ∧ Built c (c.insertPoint :: (c.pendingBlocks ++ leftOpen ended)) := by
  induction h with
  | start => exact ⟨hmaps₀, by rw [leftOpen, List.filterMap_nil, List.append_nil]; exact h₀⟩
  | successful hexplores hcall hstatus ih =>
    rename_i calls ended c c' outcome
    obtain ⟨hmaps, hbuilt⟩ := ih
    obtain ⟨hmaps', hbuilt'⟩ := hbuilt.call hmaps hcall
    have hexit : outcome.closes = false ∧ finishPath outcome c' = c' := by
      cases outcome <;> first | exact ⟨rfl, rfl⟩ | cases hstatus
    rw [hexit.2] at hmaps' hbuilt'
    rw [hexit.1] at hbuilt'
    exact ⟨hmaps', hbuilt'⟩
  | explore hexplores hcall hstatus hpaths ih =>
    rename_i calls ended c c' outcome before after path
    obtain ⟨hmaps, hbuilt⟩ := ih
    obtain ⟨hmaps', hbuilt'⟩ := hbuilt.ends hmaps hcall hstatus
    have hpending := finishPath_unexploredPaths outcome c'
    refine ⟨fun b hb => hmaps' b ?_, ?_⟩
    · have hmem : ∀ ss ∈ before ++ path :: after,
          ss ∈ (finishPath outcome c').unexploredPaths := fun ss hss => by rwa [hpending, hpaths]
      obtain ⟨a, ha | ha | ha | ⟨ss, hss, ha⟩⟩ := hb
      · exact ⟨a, .inr (.inr (.inr ⟨path, hmem path (by simp), ha⟩))⟩
      · exact ⟨a, .inr (.inl ha)⟩
      · exact ⟨a, .inr (.inr (.inl ha))⟩
      · refine ⟨a, .inr (.inr (.inr ⟨ss, hmem ss ?_, ha⟩))⟩
        rcases List.mem_append.mp hss with hss | hss
        · exact List.mem_append_left _ hss
        · exact List.mem_append_right _ (List.mem_cons_of_mem _ hss)
    · rw [Cpu.pendingBlocks, hpaths, List.map_append, List.map_cons] at hbuilt'
      have hresume : Built (finishPath outcome c') (path.bb :: ((before ++ after).map Snapshot.bb ++
          leftOpen (ended ++ [⟨outcome, finishPath outcome c'⟩]))) := by
        refine hbuilt'.perm ?_
        rw [List.map_append, ← List.cons_append]
        exact List.perm_middle.append_right _
      exact hresume.of_eq rfl rfl rfl

theorem Built.returns (h₀ : Built c₀ (c₀.insertPoint :: c₀.pendingBlocks)) (hmaps₀ : c₀.MapsBuilt)
    (h : Returns M c₀ calls ended c) : Built c (leftOpen ended) := by
  cases h with
  | last hexplores hcall hstatus hpaths =>
    obtain ⟨hmaps, hbuilt⟩ := Built.explores h₀ hmaps₀ hexplores
    have hends := (hbuilt.ends hmaps hcall hstatus).2
    rw [Cpu.pendingBlocks, hpaths] at hends
    exact hends

theorem Cpu.leavesOpen_iff (hcall : processInstruction M c = .ok (outcome, c')) :
    c.LeavesOpen M ↔ outcome.leavesOpen = true := by
  constructor
  · rintro ⟨outcome', c'', hcall', hopen⟩
    rw [hcall] at hcall'
    obtain ⟨rfl, _⟩ := Prod.mk.inj (Except.ok.inj hcall')
    exact hopen
  · exact fun hopen => ⟨outcome, c', hcall, hopen⟩

/-- No block is left open exactly when no call takes one of the two exits. -/
theorem Explores.leftOpen_eq_nil (h : Explores M c₀ calls ended c) :
    leftOpen ended = [] ↔ ∀ c ∈ calls, ¬ c.LeavesOpen M := by
  induction h with
  | start => exact iff_of_true rfl nofun
  | successful hexplores hcall hstatus ih =>
    rename_i calls ended c c' outcome
    have hclosed : ¬ c.LeavesOpen M := by
      rw [Cpu.leavesOpen_iff hcall]
      cases outcome <;> first | exact Bool.false_ne_true | cases hstatus
    rw [ih, List.forall_mem_append, List.forall_mem_singleton]
    exact (and_iff_left hclosed).symm
  | explore hexplores hcall hstatus hpaths ih =>
    rename_i calls ended c c' outcome before after path
    rw [leftOpen_append, List.append_eq_nil_iff, ih, List.forall_mem_append,
      List.forall_mem_singleton, Cpu.leavesOpen_iff hcall]
    cases outcome.leavesOpen <;> simp

theorem Returns.leftOpen_eq_nil (h : Returns M c₀ calls ended c) :
    leftOpen ended = [] ↔ ∀ c ∈ calls, ¬ c.LeavesOpen M := by
  cases h with
  | last hexplores hcall hstatus hpaths =>
    rename_i calls ended c c' outcome
    rw [leftOpen_append, List.append_eq_nil_iff, hexplores.leftOpen_eq_nil, List.forall_mem_append,
      List.forall_mem_singleton, Cpu.leavesOpen_iff hcall]
    cases outcome.leavesOpen <;> simp

/-! ### Erasing -/

/-- The instructions of a block that are not noted down for erasing. -/
theorem eraseDeletedInstructions_insts (c : Cpu) (b : BlockId) :
    (c.eraseDeletedInstructions.function b).insts =
      ((c.function b).insts.zipIdx.filter fun i => (b, i.2) ∉ c.toDelete).map Prod.fst := rfl

theorem Straight.erase {b : BlockId} (h : Straight (c.function b).insts) :
    Straight (c.eraseDeletedInstructions.function b).insts := by
  intro i hi
  rw [eraseDeletedInstructions_insts] at hi
  obtain ⟨⟨j, n⟩, hj, rfl⟩ := List.mem_map.mp hi
  have hget := List.mk_mem_zipIdx_iff_getElem?.mp (List.mem_of_mem_filter hj)
  exact h j (List.mem_of_getElem? hget)

/-- The terminator of a block is not erased. -/
theorem Built.erase_terminated {b : BlockId} (h : Built c opened)
    (hb : (c.function b).Terminated) :
    (c.eraseDeletedInstructions.function b).Terminated ∧
      (c.eraseDeletedInstructions.function b).successors = (c.function b).successors := by
  obtain ⟨body, last, hinsts, hbody, hlast⟩ := hb
  have hkept : (b, body.length) ∉ c.toDelete := by
    intro hmem
    obtain ⟨_, i, hi, hstore⟩ := h.deleted _ hmem
    rw [hinsts, List.getElem?_concat_length] at hi
    obtain rfl := Option.some.inj hi
    rw [hstore.not_terminator] at hlast
    cases hlast
  have herased : (c.eraseDeletedInstructions.function b).insts =
      (body.zipIdx.filter fun i => (b, i.2) ∉ c.toDelete).map Prod.fst ++ [last] := by
    rw [eraseDeletedInstructions_insts, hinsts, List.zipIdx_append, List.filter_append,
      List.map_append]
    congr 1
    simp [hkept]
  refine ⟨.of_append herased (fun i hi => ?_) hlast, ?_⟩
  · obtain ⟨⟨j, n⟩, hj, rfl⟩ := List.mem_map.mp hi
    have hget := List.mk_mem_zipIdx_iff_getElem?.mp (List.mem_of_mem_filter hj)
    exact hbody j (List.mem_of_getElem? hget)
  · rw [BasicBlock.successors_of_append herased, BasicBlock.successors_of_append hinsts]

/-- The graph is the same after erasing. -/
theorem Built.erase_successors {b : BlockId} (h : Built c opened) (hb : b < c.numBlocks) :
    (c.eraseDeletedInstructions.function b).successors = (c.function b).successors := by
  by_cases hopen : b ∈ opened
  · have hstraight := h.straight b hopen
    rw [BasicBlock.successors_of_straight hstraight,
      BasicBlock.successors_of_straight hstraight.erase]
  · exact (h.erase_terminated (h.terminated b hb hopen)).2

theorem Built.erase_reachable {b : BlockId} (h : Built c opened) :
    Function.Reachable c.eraseDeletedInstructions.function b ↔ b < c.numBlocks := by
  constructor
  · intro hb
    induction hb with
    | refl => exact h.entry
    | tail hprev hstep ih =>
      rw [h.erase_successors ih] at hstep
      exact h.successors_lt _ ih _ hstep
  · intro hb
    have hreach := h.reachable b hb
    clear hb
    induction hreach with
    | refl => exact .refl
    | tail hprev hstep ih =>
      refine .tail ih ?_
      rw [h.erase_successors (h.lt_of_reachable hprev)]
      exact hstep

/-- **The function is well formed exactly when no block was left open.** -/
theorem Built.wellFormed_iff (h : Built c opened) :
    (∀ b, Function.Reachable c.eraseDeletedInstructions.function b →
      (c.eraseDeletedInstructions.function b).Terminated) ↔ opened = [] := by
  constructor
  · intro hall
    refine List.eq_nil_iff_forall_not_mem.mpr fun b hb => ?_
    have hterm := hall b ((h.erase_reachable).mpr (h.lt b hb))
    exact hterm.not_straight (h.straight b hb).erase
  · rintro rfl b hb
    have hlt := (h.erase_reachable).mp hb
    exact (h.erase_terminated (h.terminated b hlt List.not_mem_nil)).1

/-- The entry block is open when the loop is entered. -/
theorem start_built {layout : Layout} {image : MemPage} {opaqueSolving : Bool} {pc : Addr}
    (h : start M layout image opaqueSolving pc = .ok c₀) :
    Built c₀ (c₀.insertPoint :: c₀.pendingBlocks) ∧ c₀.MapsBuilt := by
  simp only [start, Except.bind_eq_ok, Except.pure_eq_ok] at h
  obtain ⟨r, hr, rfl⟩ := h
  have hstraight : Straight r.1.insts := by
    refine runBlock_straight hr ?_
    intro i hi
    simp only [entryBlock, List.mem_cons, List.not_mem_nil, or_false] at hi
    rcases hi with rfl | rfl <;> rfl
  have hentry : Straight (Function.update (fun _ : BlockId => (⟨none, [], [], []⟩ : BasicBlock)) 0
      ⟨none, r.1.insts, [], []⟩ 0).insts := by
    rw [Function.update_self]
    exact hstraight
  refine ⟨⟨Nat.one_pos, List.nodup_singleton _, ?_, ?_, ?_, ?_, ?_, fun _ hss => by cases hss⟩, ?_⟩
  · intro b hb
    rw [List.mem_singleton.mp hb]
    exact Nat.one_pos
  · intro b hb
    rw [List.mem_singleton.mp hb]
    exact hentry
  · intro b hb hopen
    exact absurd (List.mem_singleton.mpr (Nat.lt_one_iff.mp hb)) hopen
  · intro b hb d hd
    rw [Nat.lt_one_iff.mp hb, BasicBlock.successors_of_straight hentry] at hd
    cases hd
  · intro b hb
    rw [Nat.lt_one_iff.mp hb]
    exact .refl
  · rintro b ⟨a, ha | ha | ha | ⟨ss, hss, _⟩⟩
    · cases ha
    · cases ha
    · cases ha
    · cases hss

/-- **The lifted function is well formed exactly when no path ends at an instruction that is not
decoded or at a jump that is not resolved.** For every program, every behaviour of the decoder, the
lifter, the solver and the callbacks, and every choice of the pending path; the runs of the source are
among these. -/
theorem run_wellFormed_iff {layout : Layout} {image : MemPage} {opaqueSolving : Bool} {pc : Addr}
    (hstart : start M layout image opaqueSolving pc = .ok c₀) :
    (∀ calls ended c, Returns M c₀ calls ended c →
      ((∀ b, Function.Reachable c.eraseDeletedInstructions.function b →
        (c.eraseDeletedInstructions.function b).Terminated) ↔ ∀ c' ∈ calls, ¬ c'.LeavesOpen M)) ∧
    ∀ fuel ended c, run M layout image opaqueSolving pc fuel = .ok (some (ended, c)) →
      ∃ calls c', Returns M c₀ calls ended c' ∧ c = c'.eraseDeletedInstructions := by
  obtain ⟨hbuilt, hmaps⟩ := start_built hstart
  refine ⟨fun calls ended c h => ?_, fun fuel ended c h => ⟨_, returns_of_run hstart h⟩⟩
  rw [(hbuilt.returns hmaps h).wellFormed_iff, h.leftOpen_eq_nil]

theorem run_wellFormed_iff_selfLoop :
    ∃ c₀, start (selfLoop .mergeByPc) ⟨0, 8⟩ .empty false 0x1000 = .ok c₀ ∧
      (∀ calls ended c, Returns (selfLoop .mergeByPc) c₀ calls ended c →
        ((∀ b, Function.Reachable c.eraseDeletedInstructions.function b →
          (c.eraseDeletedInstructions.function b).Terminated) ↔
          ∀ c' ∈ calls, ¬ c'.LeavesOpen (selfLoop .mergeByPc))) ∧
      ∀ fuel ended c, run (selfLoop .mergeByPc) ⟨0, 8⟩ .empty false 0x1000 fuel
          = .ok (some (ended, c)) →
        ∃ calls c', Returns (selfLoop .mergeByPc) c₀ calls ended c' ∧
          c = c'.eraseDeletedInstructions :=
  ⟨_, rfl, run_wellFormed_iff rfl⟩

/-- Nothing decodes at 0x1000: `cpu::run` returns, and the entry block has no terminator. -/
theorem run_undecodable_open :
    ∃ ended c, run (.bare .folding) ⟨0, 8⟩ .empty false 0x1000 1 = .ok (some (ended, c)) ∧
      ¬ ∀ b, Function.Reachable c.function b → (c.function b).Terminated := by
  refine ⟨_, _, rfl, fun hall => ?_⟩
  refine (hall 0 .refl).not_straight ?_
  unfold Straight
  decide

end Vexa
