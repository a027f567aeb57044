import Mathlib.Data.List.Nodup
import Vexa.Lib.Dominance
import Vexa.Passes.Replacement

/-!
# Strict SSA form

What LLVM's verifier has checked of a function: a name is given to one instruction, and an instruction
dominates its uses. `Readable` follows, for the runs on every machine. Dominance is that of the graph
with one point for every position in the function, so that instructions of one block are in order.

`undef` is not read: what it stands for, LLVM does not say.

## Main results

* `StrictSsa.readable` — what a run reads has a value
* `StrictSsa.mapUses`, `StrictSsa.eraseFromParent` — replacing operands and erasing keep the form
-/

namespace Vexa

open Relation

/-! ### The graph of a function -/

/-- A store has no result. -/
def MemInst.hasResult : MemInst → Bool
  | store .. => false
  | load .. | call .. | phi .. | operation .. => true

theorem MemInst.hasResult_mapOperands (f : SsaOperand ℕ → SsaOperand ℕ) (x : MemInst) :
    (x.mapOperands f).hasResult = x.hasResult := by cases x <;> rfl

/-- A block, and the instructions of it that are left. -/
abbrev Position := BlockId × List ℕ

def MemPoint.position (p : MemPoint) : Position := (p.block, p.rest)

namespace MemFunction

variable (F : MemFunction)

inductive FlowStep : Position → Position → Prop
  | inst {b : BlockId} {i : ℕ} {rest : List ℕ} : FlowStep (b, i :: rest) (b, rest)
  | edge {b c : BlockId} (hsucc : c ∈ (F.terminator b).successors) : FlowStep (b, []) (c, F.insts c)

/-- An instruction defines its name, and an edge the phis of the block it leads to. -/
inductive Defines : Position → Position → ℕ → Prop
  | inst {b : BlockId} {i : ℕ} {rest : List ℕ} {q : Position} {x : MemInst}
      (hinst : F.inst i = some x) (hresult : x.hasResult = true) : Defines (b, i :: rest) q i
  | edge {b c : BlockId} {i : ℕ} {is : List ℕ} (hi : i ∈ F.phis c) : Defines (b, []) (c, is) i

def flow : FlowGraph Position ℕ where
  entry := (F.entry, F.insts F.entry)
  Step := F.FlowStep
  Defines := F.Defines

/-- The operands at a position. A phi uses its operand at the end of the predecessor. -/
inductive Uses (v : SsaOperand ℕ) : Position → Prop
  | inst {b : BlockId} {i : ℕ} {rest : List ℕ} {x : MemInst} (hinst : F.inst i = some x)
      (hv : v ∈ x.operands) : Uses v (b, i :: rest)
  | terminator {b : BlockId} (hv : v ∈ (F.terminator b).operands) : Uses v (b, [])
  | phi {b c : BlockId} {i : ℕ} {type : Option ℕ} {incoming : List (BlockId × SsaOperand ℕ)}
      (hsucc : c ∈ (F.terminator b).successors) (hi : i ∈ F.phis c)
      (hinst : F.inst i = some (.phi type incoming)) (hlookup : incoming.lookup b = some v) :
      Uses v (b, [])

/-- What the verifier checks. -/
structure StrictSsa : Prop where
  nodup : F.names.Nodup
  dominates : ∀ p j, F.Uses (.inst j) p → F.flow.Dominates j p
  defined : ∀ p, F.flow.Reaches p → ¬ F.Uses .undef p
  incoming : ∀ b c i type incoming, F.Reachable b → c ∈ (F.terminator b).successors → i ∈ F.phis c →
    F.inst i = some (.phi type incoming) → (incoming.lookup b).isSome = true

variable {F} {M : MemMachine} {mem : PageId → ByteMemory.Memory 64}

theorem reaches_split {p : Position} (h : F.flow.Reaches p) :
    F.Reachable p.1 ∧ ∃ done, F.insts p.1 = done ++ p.2 := by
  induction h with
  | refl => exact ⟨.refl, [], rfl⟩
  | tail _ hstep ih =>
    cases hstep with
    | inst =>
      obtain ⟨hreachable, done, hdone⟩ := ih
      exact ⟨hreachable, done ++ [_], by rw [hdone, List.append_assoc, List.singleton_append]⟩
    | edge hsucc => exact ⟨ih.1.tail hsucc, [], rfl⟩

/-- A name that is defined by an instruction is no phi. -/
theorem not_mem_phis {b : BlockId} {i : ℕ} {p : Position} {rest : List ℕ}
    (h : F.flow.Reaches p) (hp : p.2 = i :: rest) : i ∉ F.phis b := by
  intro hphi
  obtain ⟨-, done, hdone⟩ := reaches_split h
  obtain ⟨x, hx, hno⟩ := F.inst_of_mem p.1 i (by rw [hdone, hp]; simp)
  obtain ⟨type, incoming, hinst⟩ := F.phi_of_mem b i hphi
  rw [hinst] at hx
  cases hx
  cases hno

/-! ### Names are defined once -/

namespace StrictSsa

/-- A name is in one block. -/
theorem block_eq (h : F.StrictSsa) {b c : BlockId} {i : ℕ} (hb : b ∈ F.order) (hc : c ∈ F.order)
    (hib : i ∈ F.phis b ++ F.insts b) (hic : i ∈ F.phis c ++ F.insts c) : b = c := by
  by_contra hne
  have : Std.Symm (Function.onFun List.Disjoint fun b => F.phis b ++ F.insts b) :=
    ⟨fun _ _ hdisjoint => hdisjoint.symm⟩
  exact (List.nodup_flatMap.mp h.nodup).2.forall hb hc hne hib hic

/-- Behind an instruction are the same instructions, however it was reached. -/
theorem rest_eq (h : F.StrictSsa) {b c : BlockId} {i : ℕ} {rest rest' : List ℕ}
    (hb : F.flow.Reaches (b, i :: rest)) (hc : F.flow.Reaches (c, i :: rest')) :
    (b, rest) = (c, rest') := by
  obtain ⟨hbr, done, hdone⟩ := reaches_split hb
  obtain ⟨hcr, done', hdone'⟩ := reaches_split hc
  simp only at hbr hdone hcr hdone'
  obtain rfl : b = c := h.block_eq (i := i) hbr.mem_order hcr.mem_order (by simp [hdone])
    (by simp [hdone'])
  have hnodup : (done ++ i :: rest).Nodup := by
    rw [← hdone]
    exact ((List.nodup_flatMap.mp h.nodup).1 b hbr.mem_order).of_append_right
  obtain ⟨hdone_i, hrest_i⟩ : i ∉ done ∧ i ∉ rest := by
    simpa [not_or] using (List.nodup_cons.mp (List.nodup_middle.mp hnodup)).1
  have hsplit := hdone.symm.trans hdone'
  rw [List.append_cons_inj_of_notMem hdone_i hrest_i] at hsplit
  rw [hsplit.2.2]

/-- **Names are defined once.** -/
theorem unique (h : F.StrictSsa) {i : ℕ} {r r' q q' : Position} (hr : F.flow.Reaches r)
    (hrr' : F.FlowStep r r') (hdef : F.Defines r r' i) (hq : F.flow.Reaches q)
    (hqq' : F.FlowStep q q') (hdef' : F.Defines q q' i) : r' = q' := by
  cases hdef with
  | inst =>
    cases hrr'
    cases hdef' with
    | inst =>
      cases hqq'
      exact h.rest_eq hr hq
    | edge hi => exact absurd hi (not_mem_phis hr rfl)
  | @edge b c _ _ hi =>
    cases hrr' with
    | edge hsucc =>
      cases hdef' with
      | inst => exact absurd hi (not_mem_phis hq rfl)
      | @edge b' c' _ _ hi' =>
        cases hqq' with
        | edge hsucc' =>
          have hc := F.closed b (reaches_split hr).1.mem_order c hsucc
          have hc' := F.closed b' (reaches_split hq).1.mem_order c' hsucc'
          rw [h.block_eq hc hc' (List.mem_append_left _ hi) (List.mem_append_left _ hi')]

end StrictSsa

/-! ### Runs -/

theorem Reads.uses {p : MemPoint} {v : SsaOperand ℕ} (h : F.Reads M p v) : F.Uses v p.position := by
  obtain ⟨b, rest, s⟩ := p
  cases h with
  | inst hrest hinst hv =>
    cases hrest
    exact .inst hinst hv
  | terminator hrest hv =>
    cases hrest
    exact .terminator hv
  | phi hrest htarget hi hinst hlookup =>
    cases hrest
    exact .phi (mem_successors_of_target htarget) hi hinst hlookup

/-- A step that reads values gives values. -/
theorem Step.executes {p q : MemPoint} (hread : F.Readable M p) (h : F.Step M p q) :
    F.flow.Executes p.position q.position p.state.env q.state.env := by
  cases h with
  | @inst b i rest s s' heffect =>
    refine ⟨.inst, fun n hn => ?_, fun n hn => ?_⟩
    · by_cases hni : n = i
      · subst hni
        cases heffect with
        | store => rfl
        | load hinst | call hinst | operation hinst => exact absurd (.inst hinst rfl) hn
      · exact heffect.env_of_ne hni
    · cases hn with
      | inst hinst hresult =>
        cases heffect with
        | store hinst' =>
          rw [hinst] at hinst'
          cases hinst'
          cases hresult
        | load | call | operation =>
          rw [MemState.env_set_self]
          rfl
  | @edge b c s htarget =>
    refine ⟨.edge (mem_successors_of_target htarget), fun n hn => ?_, fun n hn => ?_⟩
    · exact if_neg fun hphi => hn (.edge hphi)
    · cases hn with
      | edge hi =>
        rw [show (F.enter M b c s).env n = _ from if_pos hi]
        exact hread.phis rfl c htarget n hi

namespace StrictSsa

/-- What is read has a value, if the names that dominate have one. -/
theorem readable_of_values (h : F.StrictSsa) {p : MemPoint} (hreach : F.flow.Reaches p.position)
    (hvalues : ∀ j, F.flow.Avoids j p.position ∨ (p.state.env j).isSome = true) : F.Readable M p := by
  have hsome : ∀ v, F.Uses v p.position → (M.eval p.state.env v).isSome = true := by
    intro v hv
    cases v with
    | inst j => exact (hvalues j).resolve_left (h.dominates _ j hv)
    | undef => exact absurd hv (h.defined _ hreach)
    | int | constant | argument => rfl
  obtain ⟨b, rest, s⟩ := p
  refine ⟨fun i is x hrest hinst v hv => ?_, fun hrest v hv => ?_, fun hrest c hc i hi => ?_⟩
  · obtain rfl : rest = i :: is := hrest
    exact hsome v (.inst hinst hv)
  · obtain rfl : rest = [] := hrest
    exact hsome v (.terminator hv)
  · obtain rfl : rest = [] := hrest
    have hsucc := mem_successors_of_target hc
    obtain ⟨type, incoming, hinst⟩ := F.phi_of_mem c i hi
    obtain ⟨v, hv⟩ := Option.isSome_iff_exists.mp
      (h.incoming b c i type incoming (reaches_split hreach).1 hsucc hi hinst)
    simp only [MemFunction.incoming, hinst, hv, Option.bind_some]
    exact hsome v (.phi hsucc hi hinst hv)

/-- A run follows the graph, and names have values where they dominate. -/
theorem values (h : F.StrictSsa) {p : MemPoint} (hrun : F.Runs M mem p) :
    F.flow.Reaches p.position ∧ ∀ j, F.flow.Avoids j p.position ∨ (p.state.env j).isSome = true := by
  induction hrun with
  | refl => exact ⟨.refl, fun _ => .inl .refl⟩
  | tail _ hstep ih =>
    have hexec := hstep.executes (h.readable_of_values ih.1 ih.2)
    exact ⟨ih.1.tail hexec.step, fun j => FlowGraph.isSome_step hexec (ih.2 j)⟩

/-- **What a run reads has a value.** -/
theorem readable (h : F.StrictSsa) {p : MemPoint} (hrun : F.Runs M mem p) : F.Readable M p :=
  h.readable_of_values (h.values hrun).1 (h.values hrun).2

end StrictSsa

/-! ### Rewritten operands -/

section Uses

variable {f : SsaOperand ℕ → SsaOperand ℕ}

/-- The graph is the graph it was. -/
theorem flow_mapUses (F : MemFunction) (f : SsaOperand ℕ → SsaOperand ℕ) :
    (F.mapUses f).flow = F.flow := by
  have hstep : (F.mapUses f).FlowStep = F.FlowStep := by
    funext p q
    refine propext ⟨fun h => ?_, fun h => ?_⟩
    · cases h with
      | inst => exact .inst
      | edge hsucc => exact .edge (MemTerminator.successors_mapOperands f _ ▸ hsucc)
    · cases h with
      | inst => exact .inst
      | @edge b c hsucc =>
        have hsucc' : c ∈ ((F.terminator b).mapOperands f).successors :=
          (MemTerminator.successors_mapOperands f _).symm ▸ hsucc
        exact FlowStep.edge (F := F.mapUses f) hsucc'
  have hdefines : (F.mapUses f).Defines = F.Defines := by
    funext p q i
    refine propext ⟨fun h => ?_, fun h => ?_⟩
    · cases h with
      | inst hinst hresult =>
        obtain ⟨x, hx, rfl⟩ := Option.map_eq_some_iff.mp hinst
        exact .inst hx (MemInst.hasResult_mapOperands f x ▸ hresult)
      | edge hi => exact .edge hi
    · cases h with
      | @inst _ _ _ _ x hinst hresult =>
        refine .inst (x := x.mapOperands f) (by rw [mapUses_inst, hinst]; rfl) ?_
        rw [MemInst.hasResult_mapOperands, hresult]
      | edge hi => exact Defines.edge (F := F.mapUses f) hi
  rw [flow, flow, hstep, hdefines]
  rfl

theorem reachable_mapUses {b : BlockId} (h : (F.mapUses f).Reachable b) : F.Reachable b := by
  refine ReflTransGen.mono (fun b c hsucc => ?_) _ _ h
  exact MemTerminator.successors_mapOperands f (F.terminator b) ▸ hsucc

theorem uses_mapUses {p : Position} {v : SsaOperand ℕ} (h : (F.mapUses f).Uses v p) :
    ∃ w, F.Uses w p ∧ f w = v := by
  cases h with
  | inst hinst hv =>
    obtain ⟨x, hx, rfl⟩ := Option.map_eq_some_iff.mp hinst
    rw [MemInst.operands_mapOperands] at hv
    obtain ⟨w, hw, rfl⟩ := List.mem_map.mp hv
    exact ⟨w, .inst hx hw, rfl⟩
  | @terminator b hv =>
    have hv' : v ∈ ((F.terminator b).mapOperands f).operands := hv
    rw [MemTerminator.operands_mapOperands] at hv'
    obtain ⟨w, hw, rfl⟩ := List.mem_map.mp hv'
    exact ⟨w, .terminator hw, rfl⟩
  | @phi b c i type incoming hsucc hi hinst hlookup =>
    obtain ⟨x, hx, hmap⟩ := Option.map_eq_some_iff.mp hinst
    cases x with
    | phi type' incoming' =>
      obtain ⟨-, rfl⟩ : type' = type ∧ (incoming'.map fun r => (r.1, f r.2)) = incoming := by
        simpa [MemInst.mapOperands] using hmap
      rw [lookup_mapOperands] at hlookup
      obtain ⟨w, hw, rfl⟩ := Option.map_eq_some_iff.mp hlookup
      exact ⟨w, .phi (MemTerminator.successors_mapOperands f (F.terminator b) ▸ hsucc) hi hx hw, rfl⟩
    | load | store | call | operation => cases hmap

/-- **Replacing operands** by others that dominate. -/
theorem StrictSsa.mapUses (h : F.StrictSsa)
    (hdominates : ∀ p w j, F.Uses w p → f w = .inst j → F.flow.Dominates j p)
    (hdefined : ∀ p w, F.flow.Reaches p → F.Uses w p → f w ≠ .undef) : (F.mapUses f).StrictSsa where
  nodup := h.nodup
  dominates p j hj := by
    obtain ⟨w, hw, hfw⟩ := uses_mapUses hj
    rw [flow_mapUses]
    exact hdominates p w j hw hfw
  defined p hp hv := by
    obtain ⟨w, hw, hfw⟩ := uses_mapUses hv
    rw [flow_mapUses] at hp
    exact hdefined p w hp hw hfw
  incoming b c i type incoming hb hc hi hinst := by
    obtain ⟨x, hx, hmap⟩ := Option.map_eq_some_iff.mp hinst
    cases x with
    | phi type' incoming' =>
      obtain ⟨-, rfl⟩ : type' = type ∧ (incoming'.map fun r => (r.1, f r.2)) = incoming := by
        simpa [MemInst.mapOperands] using hmap
      have hc' : c ∈ (F.terminator b).successors :=
        MemTerminator.successors_mapOperands f (F.terminator b) ▸ hc
      rw [lookup_mapOperands, Option.isSome_map]
      exact h.incoming b c i type' incoming' (reachable_mapUses hb) hc' hi hx
    | load | store | call | operation => cases hmap

end Uses

/-! ### Erased instructions -/

section Erasure

variable {i : ℕ} {A : ℕ → Prop}

/-- The steps that define none of some names. -/
def AvoidStep (F : MemFunction) (A : ℕ → Prop) (p q : Position) : Prop :=
  F.FlowStep p q ∧ ∀ j, A j → ¬ F.Defines p q j

/-- Over the erased instructions there is a path that defines nothing else. -/
theorem exists_avoid_stripped (hi : ¬ A i) {b : BlockId} (rest : List ℕ)
    (h : ReflTransGen (F.AvoidStep A) F.flow.entry (b, rest)) : ∃ rest',
      rest'.filter (fun j => j ≠ i) = rest.filter (fun j => j ≠ i) ∧ (∀ is, rest' ≠ i :: is) ∧
        ReflTransGen (F.AvoidStep A) F.flow.entry (b, rest') := by
  induction rest with
  | nil => exact ⟨[], rfl, fun is heq => (by cases heq), h⟩
  | cons j rest ih =>
    by_cases hj : j = i
    · subst hj
      obtain ⟨rest', hfilter, hhead, hpath⟩ := ih (h.tail ⟨.inst, fun k hk hdef => by
        cases hdef
        exact hi hk⟩)
      exact ⟨rest', by rw [hfilter, List.filter_cons_of_neg (by simp)], hhead, hpath⟩
    · exact ⟨j :: rest, rfl, fun is heq => hj (List.cons.inj heq).1, h⟩

/-- A list that does not begin with the erased name begins as it does without it. -/
theorem eq_cons_of_filter {i j : ℕ} {rest is : List ℕ} (hhead : ∀ is, rest ≠ i :: is)
    (h : rest.filter (fun j => j ≠ i) = j :: is) :
    j ≠ i ∧ ∃ rest', rest = j :: rest' ∧ rest'.filter (fun j => j ≠ i) = is := by
  cases rest with
  | nil => cases h
  | cons k rest =>
    have hk : k ≠ i := fun heq => hhead rest (heq ▸ rfl)
    rw [List.filter_cons_of_pos (by simpa using hk)] at h
    obtain ⟨rfl, hrest⟩ := List.cons.inj h
    exact ⟨hk, rest, rfl, hrest⟩

theorem eq_nil_of_filter {i : ℕ} {rest : List ℕ} (hhead : ∀ is, rest ≠ i :: is)
    (h : rest.filter (fun j => j ≠ i) = []) : rest = [] := by
  cases rest with
  | nil => rfl
  | cons k rest =>
    have hk : k ≠ i := fun heq => hhead rest (heq ▸ rfl)
    rw [List.filter_cons_of_pos (by simpa using hk)] at h
    cases h

/-- **A path without the instruction** is one of the function, up to the instructions erased. -/
theorem avoid_of_eraseFromParent (hi : ¬ A i) {q : Position}
    (h : ReflTransGen ((F.eraseFromParent i).AvoidStep A) (F.eraseFromParent i).flow.entry q) :
    ∃ rest, rest.filter (fun j => j ≠ i) = q.2 ∧ (∀ is, rest ≠ i :: is) ∧
      ReflTransGen (F.AvoidStep A) F.flow.entry (q.1, rest) := by
  induction h with
  | refl => exact exists_avoid_stripped hi _ .refl
  | @tail p q _ hstep ih =>
    obtain ⟨rest, hrest, hhead, hpath⟩ := ih
    obtain ⟨hflow, hdefines⟩ := hstep
    cases hflow with
    | @inst b j is =>
      obtain ⟨hj, rest, rfl, hrest'⟩ := eq_cons_of_filter hhead hrest
      obtain ⟨rest', hfilter, hhead', hpath'⟩ := exists_avoid_stripped hi rest
        (hpath.tail ⟨.inst, fun n hn hdef => hdefines n hn (by
          cases hdef with
          | inst hinst hresult => exact .inst (by rw [eraseFromParent_inst F hj, hinst]) hresult)⟩)
      exact ⟨rest', hfilter.trans hrest', hhead', hpath'⟩
    | @edge b c hsucc =>
      obtain rfl := eq_nil_of_filter hhead hrest
      refine exists_avoid_stripped hi _ (hpath.tail ⟨.edge hsucc, fun n hn hdef => ?_⟩)
      cases hdef with
      | edge hphi =>
        have hni : n ≠ i := fun heq => hi (heq ▸ hn)
        refine hdefines n hn (Defines.edge (F := F.eraseFromParent i) ?_)
        exact List.mem_filter.mpr ⟨hphi, decide_eq_true hni⟩

/-- What is reached stays reached. -/
theorem reaches_eraseFromParent {p : Position} (h : F.flow.Reaches p) :
    (F.eraseFromParent i).flow.Reaches (p.1, p.2.filter fun j => j ≠ i) := by
  induction h with
  | refl => exact .refl
  | tail _ hstep ih =>
    cases hstep with
    | @inst b j rest =>
      by_cases hj : j = i
      · rwa [List.filter_cons_of_neg (by simpa using hj)] at ih
      · rw [List.filter_cons_of_pos (by simpa using hj)] at ih
        exact ih.tail .inst
    | edge hsucc => exact ih.tail (FlowStep.edge (F := F.eraseFromParent i) hsucc)

/-- What is used was used. -/
theorem uses_of_eraseFromParent {b : BlockId} {rest is : List ℕ} {v : SsaOperand ℕ}
    (hrest : rest.filter (fun j => j ≠ i) = is) (hhead : ∀ is, rest ≠ i :: is)
    (h : (F.eraseFromParent i).Uses v (b, is)) : F.Uses v (b, rest) := by
  cases h with
  | inst hinst hv =>
    obtain ⟨hj, rest', rfl, -⟩ := eq_cons_of_filter hhead hrest
    rw [eraseFromParent_inst F hj] at hinst
    exact .inst hinst hv
  | terminator hv =>
    obtain rfl := eq_nil_of_filter hhead hrest
    exact .terminator hv
  | phi hsucc hphi hinst hlookup =>
    obtain rfl := eq_nil_of_filter hhead hrest
    obtain ⟨hmem, hne⟩ := List.mem_filter.mp hphi
    rw [eraseFromParent_inst F (of_decide_eq_true hne)] at hinst
    exact .phi hsucc hmem hinst hlookup

theorem names_eraseFromParent : (F.eraseFromParent i).names = F.names.filter fun j => j ≠ i := by
  rw [names, names, List.filter_flatMap]
  simp only [List.filter_append]
  rfl

theorem not_uses_of_useEmpty (hempty : F.useEmpty i = true) {p : Position} (hp : p.1 ∈ F.order) :
    ¬ F.Uses (.inst i) p := by
  obtain ⟨huses, hterms⟩ := useEmpty_iff.mp hempty
  intro h
  cases h with
  | inst hinst hv => exact huses _ _ hinst _ hv rfl
  | terminator hv => exact hterms _ hp _ hv rfl
  | phi _ _ hinst hlookup =>
    obtain ⟨front, back, hincoming, -⟩ := List.lookup_eq_some_iff.mp hlookup
    exact huses _ _ hinst _ (by simp [MemInst.operands, hincoming]) rfl

/-- A position that is reached without the instruction is one of the function. -/
theorem reaches_of_eraseFromParent {q : Position} (h : (F.eraseFromParent i).flow.Reaches q) :
    ∃ rest, rest.filter (fun j => j ≠ i) = q.2 ∧ (∀ is, rest ≠ i :: is) ∧
      F.flow.Reaches (q.1, rest) := by
  obtain ⟨rest, hrest, hhead, hpath⟩ := avoid_of_eraseFromParent (A := fun _ => False) not_false
    (ReflTransGen.mono (fun _ _ hstep => ⟨hstep, fun _ hk => hk.elim⟩) _ _ h)
  exact ⟨rest, hrest, hhead, ReflTransGen.mono (fun _ _ hstep => hstep.1) _ _ hpath⟩

/-- A name that is avoided without the instruction is avoided in the function. -/
theorem avoids_of_eraseFromParent {j : ℕ} (hj : i ≠ j) {q : Position}
    (h : (F.eraseFromParent i).flow.Avoids j q) : ∃ rest, rest.filter (fun j => j ≠ i) = q.2 ∧
      (∀ is, rest ≠ i :: is) ∧ F.flow.Avoids j (q.1, rest) := by
  obtain ⟨rest, hrest, hhead, hpath⟩ := avoid_of_eraseFromParent (A := fun k => k = j) hj
    (ReflTransGen.mono (fun _ _ hstep => ⟨hstep.1, fun k hk => hk ▸ hstep.2⟩) _ _ h)
  exact ⟨rest, hrest, hhead, ReflTransGen.mono (fun _ _ hstep => ⟨hstep.1, hstep.2 j rfl⟩) _ _ hpath⟩

/-- **Erasing an instruction that nothing uses.** -/
theorem StrictSsa.eraseFromParent (h : F.StrictSsa) (hempty : F.useEmpty i = true) :
    (F.eraseFromParent i).StrictSsa where
  nodup := names_eraseFromParent ▸ h.nodup.filter _
  dominates p j hj havoids := by
    by_cases hij : i = j
    · subst hij
      obtain ⟨rest, hrest, hhead, hreach⟩ := reaches_of_eraseFromParent havoids.reaches
      exact not_uses_of_useEmpty hempty (reaches_split hreach).1.mem_order
        (uses_of_eraseFromParent hrest hhead hj)
    · obtain ⟨rest, hrest, hhead, havoids'⟩ := avoids_of_eraseFromParent hij havoids
      exact h.dominates _ j (uses_of_eraseFromParent hrest hhead hj) havoids'
  defined p hp hv := by
    obtain ⟨rest, hrest, hhead, hreach⟩ := reaches_of_eraseFromParent hp
    exact h.defined _ hreach (uses_of_eraseFromParent hrest hhead hv)
  incoming b c j type incoming hb hc hj hinst := by
    obtain ⟨hmem, hne⟩ := List.mem_filter.mp hj
    rw [eraseFromParent_inst F (of_decide_eq_true hne)] at hinst
    exact h.incoming b c j type incoming hb hc hmem hinst

end Erasure

end MemFunction

end Vexa
