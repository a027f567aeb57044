import Vexa.Cpu
import Vexa.Lib.ExceptBind
import Mathlib.Data.List.GetD
import Mathlib.Data.Nat.Digits.Lemmas

/-!
# Terms that choose

Two places of the lifter work on chains of `ITE`. `visitExtractElementInst` makes one: a vector is one
bit vector, its first element lowest, and an element at a symbolic index is a choice among all of them,
the last alternative being a new constant for the index beyond the vector. `resolve_ite` takes one apart:
`normalize_ite` lifts every choice among the children of a term above the term, by substituting both of
its branches for it, and what is left is read as the two targets of a jump.

## Widths

A comparison with an element's number is only made when the number fits the type of the index, so an
index of few bits is compared with fewer elements than there are.

## Main definitions

* `visitExtractElement` — the visitor
* `Term.substitute`, `normalizeIte`, `resolveIte` — `substitute_term` and what is built on it

## Main results

* `visitExtractElement_exact` — when it returns, and that it is the element
* `resolveIte_targets` — the two targets are where the value goes
-/

namespace Vexa

/-! ### Elements of a vector -/

/-- What `visitExtractElementInst` reads of its instruction; a scalable vector has no number of
elements. -/
structure ExtractElementInst where
  vectorOperand : Operand Name
  indexOperand : Operand Name
  elementBitWidth : ℕ
  elementCount : Option ℕ

/-- Element `i` of a vector. -/
def vectorElement (vector : Value) (elementBitWidth i : ℕ) : Value :=
  vector.extract (i * elementBitWidth + elementBitWidth - 1) (i * elementBitWidth)

/-- The elements an index of this type can name. -/
def representableElements (index : Value) (elementCount : ℕ) : ℕ :=
  if index.size < 64 then 2 ^ index.size else elementCount

/-- The loop of `visitExtractElementInst`, from what an index beyond the vector gives. -/
def elementChain (vector index : Value) (elementBitWidth n : ℕ) (result : Term) : Term :=
  (List.range n).foldl (fun result i =>
    .ite (index.binary .equal (.concrete i index.size)).term (vectorElement vector elementBitWidth i).term
      result) result

/-- `emulator::visitExtractElementInst`; `poison` is the constant made for the instruction. -/
def visitExtractElement (poison : ℕ → Symbol) (I : ExtractElementInst) (s : Symex) :
    Except String Value :=
  match I.elementCount with
  | none => throw "assert failed: vector_type"
  | some elementCount => do
    let vector ← s.get I.vectorOperand
    let index ← s.get I.indexOperand
    vexaAssert (I.elementBitWidth ≠ 0) "element_bit_width"
    vexaAssert (vector.size = I.elementBitWidth * elementCount)
      "vector->size() == element_bit_width * element_count"
    if index.isConcrete then do
      let elementIndex ← index.asUint64?
      vexaAssert (elementIndex.toNat < elementCount) "element_index < element_count"
      return vectorElement vector I.elementBitWidth elementIndex.toNat
    else
      return .ofTerm (elementChain vector index I.elementBitWidth
        (min elementCount (representableElements index elementCount))
        (.const (poison I.elementBitWidth)))

section

variable {ν : Valuation} {vector index : Value} {w count n i : ℕ} {es : List ℕ}

/-- The bits of element `i`. -/
theorem vectorElement_eval (hw : 0 < w) (vector : Value) (i : ℕ) :
    (vectorElement vector w i).size = w ∧
    (vectorElement vector w i).eval ν = vector.eval ν / (2 ^ w) ^ i % 2 ^ w := by
  have hwidth : i * w + w - 1 + 1 - i * w = w := by omega
  rw [vectorElement, Value.size_extract, Value.eval_extract, hwidth, ← pow_mul, Nat.mul_comm i w]
  exact ⟨rfl, rfl⟩

/-- An element of the numbers that are packed. -/
theorem ofDigits_element (hes : ∀ e ∈ es, e < 2 ^ w) (hi : i < es.length) :
    Nat.ofDigits (2 ^ w) es / (2 ^ w) ^ i % 2 ^ w = es[i] := by
  rw [Nat.ofDigits_div_pow_eq_ofDigits_drop i (Nat.two_pow_pos w) es hes, List.drop_eq_getElem_cons hi,
    Nat.ofDigits_cons, Nat.add_mul_mod_self_left]
  exact Nat.mod_eq_of_lt (hes _ (List.getElem_mem hi))

/-- **The chain**, by induction on the elements that were asked. -/
theorem elementChain_eval (ν : Valuation) (vector index : Value) (hw : 0 < w) {result : Term}
    (hbits : result.bits = w) : ∀ n,
    n ≤ 2 ^ index.size →
    (elementChain vector index w n result).bits = w ∧
    (elementChain vector index w n result).eval ν =
      if index.eval ν < n then vector.eval ν / (2 ^ w) ^ index.eval ν % 2 ^ w else result.eval ν := by
  intro n
  induction n with
  | zero =>
    intro _
    exact ⟨hbits, by simp [elementChain]⟩
  | succ n ih =>
    intro hn
    obtain ⟨ihbits, iheval⟩ := ih (by omega)
    obtain ⟨hsize, helement⟩ := vectorElement_eval (ν := ν) hw vector n
    have hchain : elementChain vector index w (n + 1) result
        = .ite (index.binary .equal (.concrete n index.size)).term (vectorElement vector w n).term
          (elementChain vector index w n result) := by
      rw [elementChain, List.range_succ, List.foldl_append]
      rfl
    have hequal : (index.binary .equal (.concrete n index.size)).term.eval ν
        = (decide (index.eval ν = n)).toNat := by
      show (decide (index.eval ν = (Value.concrete n index.size).eval ν)).toNat = _
      rw [Value.eval_concrete, Nat.mod_eq_of_lt (by omega)]
    rw [hchain]
    refine ⟨hsize, ?_⟩
    rw [Term.eval_ite ν _ (hsize.trans ihbits.symm), hequal, iheval]
    by_cases h : index.eval ν = n
    · rw [if_neg (by simp [h]), if_pos (by omega), h]
      exact helement
    · have hlt : index.eval ν < n + 1 ↔ index.eval ν < n := by omega
      simp only [h, decide_false, Bool.toNat_false, if_true, hlt]

/-- An index below `2 ^ 64` names an element that is compared with, or none. -/
theorem lt_min_representable (hcount : count ≤ 2 ^ 64) :
    min count (representableElements index count) ≤ 2 ^ index.size ∧
    (index.eval ν < min count (representableElements index count) ↔ index.eval ν < count) := by
  have hlt := Value.eval_lt ν index
  rw [representableElements]
  split
  · exact ⟨Nat.min_le_right .., by omega⟩
  · next hsize =>
    have hle : 2 ^ 64 ≤ 2 ^ index.size := Nat.pow_le_pow_right (by decide) (Nat.not_lt.mp hsize)
    rw [Nat.min_self]
    exact ⟨hcount.trans hle, Iff.rfl⟩

/-- The visitor behind its first assertions. -/
theorem visitExtractElement_eq (poison : ℕ → Symbol) {I : ExtractElementInst} {s : Symex}
    (hcount : I.elementCount = some count) (hvector : s.get I.vectorOperand = .ok vector)
    (hindex : s.get I.indexOperand = .ok index) (hw : 0 < I.elementBitWidth)
    (hsize : vector.size = I.elementBitWidth * count) :
    visitExtractElement poison I s =
      if index.isConcrete then do
        let elementIndex ← index.asUint64?
        vexaAssert (elementIndex.toNat < count) "element_index < element_count"
        return vectorElement vector I.elementBitWidth elementIndex.toNat
      else .ok (.ofTerm (elementChain vector index I.elementBitWidth
        (min count (representableElements index count)) (.const (poison I.elementBitWidth)))) := by
  have hwidth : vexaAssert (I.elementBitWidth ≠ 0) "element_bit_width" = .ok () := by
    rw [vexaAssert, if_pos (decide_eq_true hw.ne')]
    rfl
  have hfits : vexaAssert (vector.size = I.elementBitWidth * count)
      "vector->size() == element_bit_width * element_count" = .ok () := by
    rw [vexaAssert, if_pos (decide_eq_true hsize)]
    rfl
  simp only [visitExtractElement, hcount, hvector, hindex, hwidth, hfits, Except.ok_bind]
  rfl

/-- A literal index. -/
theorem visitExtractElement_of_concrete (poison : ℕ → Symbol) {I : ExtractElementInst} {s : Symex}
    {m : ℕ} (hcount : I.elementCount = some count) (hvector : s.get I.vectorOperand = .ok vector)
    (hindex : s.get I.indexOperand = .ok index) (hw : 0 < I.elementBitWidth)
    (hsize : vector.size = I.elementBitWidth * count) (hconcrete : index.isConcrete = true)
    (hsort : index.term.sort = .bv m) (hm : m ≤ 64) (ν : Valuation) :
    visitExtractElement poison I s =
      if index.eval ν < count then .ok (vectorElement vector I.elementBitWidth (index.eval ν))
      else .error "assert failed: element_index < element_count" := by
  have hvalue : index.eval ν < 2 ^ 64 := by
    have hlt := Value.eval_lt ν index
    rw [Value.size, Term.bits, hsort] at hlt
    exact hlt.trans_le (Nat.pow_le_pow_right (by decide) hm)
  have hget : index.asUint64? = .ok (BitVec.ofNat 64 (index.eval ν)) := by
    rw [Value.asUint64?, Value.asUint64, Term.asUint64_of_isValue hconcrete hsort ν]
    rfl
  have hnat : (BitVec.ofNat 64 (index.eval ν)).toNat = index.eval ν := by
    rw [BitVec.toNat_ofNat, Nat.mod_eq_of_lt hvalue]
  rw [visitExtractElement_eq poison hcount hvector hindex hw hsize, if_pos hconcrete, hget]
  simp only [Except.ok_bind, hnat, vexaAssert, decide_eq_true_eq]
  split
  · rfl
  · rfl

/-- **`extractelement`.** On a vector of `count` elements of `w` bits and an index of an integer type
(of at most 64 bits if it is a literal), the visitor returns unless the index is a literal beyond the
vector. What it returns has `w` bits and denotes, whatever elements the vector holds, the one at the index,
and beyond the vector the new constant. -/
theorem visitExtractElement_exact (poison : ℕ → Symbol) {I : ExtractElementInst} {s : Symex} {m : ℕ}
    (hcount : I.elementCount = some count) (hbound : count ≤ 2 ^ 64)
    (hvector : s.get I.vectorOperand = .ok vector) (hindex : s.get I.indexOperand = .ok index)
    (hw : 0 < I.elementBitWidth) (hsize : vector.size = I.elementBitWidth * count)
    (hpoison : (poison I.elementBitWidth).width = I.elementBitWidth)
    (hsort : index.term.sort = .bv m) (hliteral : index.isConcrete = true → m ≤ 64) :
    ((∃ r, visitExtractElement poison I s = .ok r) ↔
      (index.isConcrete = true → ∀ ν, index.eval ν < count)) ∧
    ∀ r, visitExtractElement poison I s = .ok r → r.size = I.elementBitWidth ∧
      ∀ ν es, es.length = count → (∀ e ∈ es, e < 2 ^ I.elementBitWidth) →
        vector.eval ν = Nat.ofDigits (2 ^ I.elementBitWidth) es →
        r.eval ν = es.getD (index.eval ν) (ν (poison I.elementBitWidth) % 2 ^ I.elementBitWidth) := by
  -- what the element at an index below the length is
  have hgetD : ∀ {ν es} (d : ℕ), es.length = count → (∀ e ∈ es, e < 2 ^ I.elementBitWidth) →
      vector.eval ν = Nat.ofDigits (2 ^ I.elementBitWidth) es → index.eval ν < count →
      vector.eval ν / (2 ^ I.elementBitWidth) ^ index.eval ν % 2 ^ I.elementBitWidth
        = es.getD (index.eval ν) d := by
    intro ν es d hlength hes hdigits hlt
    rw [hdigits, ofDigits_element hes (hlength ▸ hlt), List.getD_eq_getElem _ _ (hlength ▸ hlt)]
  by_cases hconcrete : index.isConcrete = true
  · have hrun := visitExtractElement_of_concrete poison hcount hvector hindex hw hsize hconcrete hsort
      (hliteral hconcrete)
    constructor
    · constructor
      · rintro ⟨r, hr⟩ _ ν
        by_contra hlt
        rw [hrun ν, if_neg hlt] at hr
        cases hr
      · exact fun hlt => ⟨_, (hrun fun _ => 0).trans (if_pos (hlt hconcrete _))⟩
    · intro r hr
      have hin : ∀ ν, index.eval ν < count ∧ vectorElement vector I.elementBitWidth (index.eval ν) = r := by
        intro ν
        rw [hrun ν] at hr
        split at hr
        · next hlt => exact ⟨hlt, Except.ok.inj hr⟩
        · cases hr
      refine ⟨?_, fun ν es hlength hes hdigits => ?_⟩
      · rw [← (hin fun _ => 0).2]
        exact (vectorElement_eval (ν := fun _ => 0) hw vector _).1
      · rw [← (hin ν).2, (vectorElement_eval hw vector _).2]
        exact hgetD _ hlength hes hdigits (hin ν).1
  · have hrun := visitExtractElement_eq poison hcount hvector hindex hw hsize
    rw [if_neg hconcrete] at hrun
    refine ⟨⟨fun _ h => absurd h hconcrete, fun _ => ⟨_, hrun⟩⟩, fun r hr => ?_⟩
    obtain rfl := Except.ok.inj (hrun.symm.trans hr)
    have hbits : (Term.const (poison I.elementBitWidth)).bits = I.elementBitWidth := hpoison
    have hchain := fun ν => elementChain_eval ν vector index hw hbits _
      (lt_min_representable (ν := ν) hbound).1
    refine ⟨(hchain fun _ => 0).1, fun ν es hlength hes hdigits => ?_⟩
    refine (hchain ν).2.trans ?_
    by_cases hlt : index.eval ν < count
    · rw [if_pos ((lt_min_representable hbound).2.mpr hlt)]
      exact hgetD _ hlength hes hdigits hlt
    · rw [if_neg fun h => hlt ((lt_min_representable hbound).2.mp h), List.getD_eq_default _ _ (by omega),
        Term.eval, hpoison]

end

/-- Four bytes and an index of two bits: no index is beyond the vector. -/
theorem visitExtractElement_exact_bytes :
    ∃ r, visitExtractElement (fun w => ⟨.tsc, 1, w⟩) ⟨.const 32 0x44332211, .ssa ⟨0, 0, (0, 0)⟩, 8, some 4⟩
        ⟨⟨fun _ => .empty, 0, 0⟩, fun _ => some (.symbolic ⟨.tsc, 0, 2⟩)⟩ = .ok r ∧ r.size = 8 ∧
      ∀ ν, r.eval ν = [0x11, 0x22, 0x33, 0x44].getD (ν ⟨.tsc, 0, 2⟩ % 4) (ν ⟨.tsc, 1, 8⟩ % 2 ^ 8) := by
  set I : ExtractElementInst := ⟨.const 32 0x44332211, .ssa ⟨0, 0, (0, 0)⟩, 8, some 4⟩
  set s : Symex := ⟨⟨fun _ => .empty, 0, 0⟩, fun _ => some (.symbolic ⟨.tsc, 0, 2⟩)⟩
  have hcount : I.elementCount = some 4 := rfl
  have hvector : s.get I.vectorOperand = .ok (.concrete 0x44332211 32) := rfl
  have hindex : s.get I.indexOperand = .ok (.symbolic ⟨.tsc, 0, 2⟩) := rfl
  obtain ⟨hreturns, hexact⟩ := visitExtractElement_exact (fun w => ⟨.tsc, 1, w⟩) hcount (by decide)
    hvector hindex (by decide) rfl rfl rfl fun _ => (by decide : 2 ≤ 64)
  obtain ⟨r, hr⟩ := hreturns.mpr fun hconcrete => by cases hconcrete
  obtain ⟨hsize, heval⟩ := hexact r hr
  have hbytes : ∀ e ∈ [0x11, 0x22, 0x33, 0x44], e < 2 ^ 8 := by decide
  have hpacked : 0x44332211 = Nat.ofDigits (2 ^ 8) [0x11, 0x22, 0x33, 0x44] := by
    norm_num [Nat.ofDigits]
  refine ⟨r, hr, hsize, fun ν => heval ν [0x11, 0x22, 0x33, 0x44] rfl hbytes ?_⟩
  rw [Value.eval_concrete]
  exact hpacked

/-! ### Lifting choices -/

namespace Term

/-- The children of a term, as `bw::Term` numbers them. -/
def children : Term → List Term
  | const _ | value _ _ | boolean _ => []
  | unary _ t | extract _ _ t | zeroExtend _ t | signExtend _ t => [t]
  | binary _ a b => [a, b]
  | ite c a b => [c, a, b]

/-- `substitute_term`: every occurrence of `x` is replaced by `t`. -/
def substitute (e x t : Term) : Term :=
  if e = x then t
  else match e with
    | const _ | value _ _ | boolean _ => e
    | unary op a => unary op (a.substitute x t)
    | binary op a b => binary op (a.substitute x t) (b.substitute x t)
    | ite c a b => ite (c.substitute x t) (a.substitute x t) (b.substitute x t)
    | extract high low a => extract high low (a.substitute x t)
    | zeroExtend n a => zeroExtend n (a.substitute x t)
    | signExtend n a => signExtend n (a.substitute x t)

/-- The branches of every choice have one sort, as `mk_term` asks. -/
def WellSorted : Term → Prop
  | const _ | value _ _ | boolean _ => True
  | unary _ t | extract _ _ t | zeroExtend _ t | signExtend _ t => t.WellSorted
  | binary _ a b => a.WellSorted ∧ b.WellSorted
  | ite c a b => a.sort = b.sort ∧ c.WellSorted ∧ a.WellSorted ∧ b.WellSorted

/-- The lambda `normalize` of `normalize_ite`. -/
def normalizeChild (parent : Term) : Term → Term
  | ite c a b => ite c (parent.substitute (ite c a b) a) (parent.substitute (ite c a b) b)
  | _ => parent

/-- A round of the loop of `normalize_ite`, which asks for the children of what the rounds before made. -/
def normalizeRound (e : Term) (i : ℕ) : Term :=
  match e.children[i]? with
  | some child => e.normalizeChild child
  | none => e

end Term

/-- `normalize_ite`. No term has more than three children. -/
def normalizeIte (S : Solver) (e : Term) : Term :=
  S.simplify ((List.range 3).foldl Term.normalizeRound e)

/-- `cpu::resolve_ite`: the two program counters. -/
def resolveIte (S : Solver) (v : Value) : Except String (Addr × Addr) :=
  match normalizeIte S (v.simplify S).term with
  | .ite _ thenExpr elseExpr => do
    if thenExpr.isValue ∧ elseExpr.isValue then
      return (← asUint64? thenExpr, ← asUint64? elseExpr)
    else throw "failed to resolve ite"
  | _ => throw "failed to resolve ite"

section

variable {S : Solver} {ν : Valuation} {x t e : Term}

namespace Term

/-- **Substitution**, by induction on the term: what is replaced by a term of its sort and value changes
neither the sort nor the value. -/
theorem substitute_spec (hsort : t.sort = x.sort) (heval : t.eval ν = x.eval ν) : ∀ e : Term,
    (e.substitute x t).sort = e.sort ∧ (e.substitute x t).eval ν = e.eval ν := by
  intro e
  induction e with
  | const s | value w n | boolean b =>
    rw [substitute]
    split
    · next h => exact h ▸ ⟨hsort, heval⟩
    · exact ⟨rfl, rfl⟩
  | unary op a ih | extract high low a ih | zeroExtend n a ih =>
    rw [substitute]
    split
    · next h => exact h ▸ ⟨hsort, heval⟩
    · simp only [sort, eval, bits, ih.1, ih.2, and_self]
  | signExtend n a ih =>
    rw [substitute]
    split
    · next h => exact h ▸ ⟨hsort, heval⟩
    · simp only [sort, eval, bits]
      rw [ih.1, ih.2]
      exact ⟨rfl, rfl⟩
  | binary op a b iha ihb =>
    rw [substitute]
    split
    · next h => exact h ▸ ⟨hsort, heval⟩
    · simp only [sort, eval, bits, iha, ihb, and_self]
  | ite c a b ihc iha ihb =>
    rw [substitute]
    split
    · next h => exact h ▸ ⟨hsort, heval⟩
    · simp only [sort, eval, bits, ihc, iha, ihb, and_self]

theorem WellSorted.of_substitute (hsort : t.sort = x.sort) (ht : t.WellSorted) : ∀ {e : Term},
    e.WellSorted → (e.substitute x t).sort = e.sort ∧ (e.substitute x t).WellSorted := by
  intro e he
  induction e with
  | const s | value w n | boolean b =>
    rw [substitute]
    split
    · next h => exact h ▸ ⟨hsort, ht⟩
    · exact ⟨rfl, he⟩
  | unary op a ih | extract high low a ih | zeroExtend n a ih | signExtend n a ih =>
    obtain ⟨hs, hw⟩ := ih he
    rw [substitute]
    split
    · next h => exact h ▸ ⟨hsort, ht⟩
    · exact ⟨by simp only [sort, hs], hw⟩
  | binary op a b iha ihb =>
    obtain ⟨ha, hwa⟩ := iha he.1
    obtain ⟨hb, hwb⟩ := ihb he.2
    rw [substitute]
    split
    · next h => exact h ▸ ⟨hsort, ht⟩
    · exact ⟨by simp only [sort, ha, hb], hwa, hwb⟩
  | ite c a b ihc iha ihb =>
    obtain ⟨hab, hc, ha, hb⟩ := he
    obtain ⟨hsa, hwa⟩ := iha ha
    obtain ⟨hsb, hwb⟩ := ihb hb
    rw [substitute]
    split
    · next h => exact h ▸ ⟨hsort, ht⟩
    · exact ⟨hsa, by rw [hsa, hsb, hab], (ihc hc).2, hwa, hwb⟩

theorem WellSorted.children (h : e.WellSorted) : ∀ child ∈ e.children, child.WellSorted := by
  intro child hchild
  cases e with
  | const s | value w n | boolean b => cases hchild
  | unary op a | extract high low a | zeroExtend n a | signExtend n a =>
    rw [List.mem_singleton.mp hchild]
    exact h
  | binary op a b =>
    rcases List.mem_pair.mp hchild with rfl | rfl
    · exact h.1
    · exact h.2
  | ite c a b =>
    obtain ⟨_, hc, ha, hb⟩ := h
    simp only [Term.children, List.mem_cons, List.not_mem_nil, or_false] at hchild
    rcases hchild with rfl | rfl | rfl
    · exact hc
    · exact ha
    · exact hb

/-- **Lifting a choice** above a term keeps the sort, that the term is well sorted, and what it denotes:
in each branch the child is what the condition makes it. -/
theorem normalizeChild_spec (he : e.WellSorted) {child : Term} (hchild : child.WellSorted) :
    (e.normalizeChild child).sort = e.sort ∧ (e.normalizeChild child).WellSorted ∧
      ∀ ν, (e.normalizeChild child).eval ν = e.eval ν := by
  cases child with
  | ite c a b =>
    obtain ⟨hab, hc, ha, hb⟩ := hchild
    have hfirst : a.sort = (ite c a b).sort := rfl
    have hsecond : b.sort = (ite c a b).sort := hab.symm
    obtain ⟨hsa, hwa⟩ := WellSorted.of_substitute hfirst ha he
    obtain ⟨hsb, hwb⟩ := WellSorted.of_substitute hsecond hb he
    refine ⟨hsa, ⟨hsa.trans hsb.symm, hc, hwa, hwb⟩, fun ν => ?_⟩
    have hite := eval_ite ν c (show a.bits = b.bits by rw [bits, bits, hab])
    rw [normalizeChild, eval_ite ν c (show (e.substitute _ a).bits = (e.substitute _ b).bits by
      rw [bits, bits, hsa, hsb])]
    by_cases hcond : c.eval ν = 0
    · rw [if_pos hcond] at hite ⊢
      exact (substitute_spec hsecond hite.symm e).2
    · rw [if_neg hcond] at hite ⊢
      exact (substitute_spec hfirst hite.symm e).2
  | _ => exact ⟨rfl, he, fun _ => rfl⟩

/-- The loop, by induction on its rounds. -/
theorem normalizeRounds_spec : ∀ (is : List ℕ) {e : Term}, e.WellSorted →
    (is.foldl normalizeRound e).sort = e.sort ∧ (is.foldl normalizeRound e).WellSorted ∧
      ∀ ν, (is.foldl normalizeRound e).eval ν = e.eval ν
  | [], _, he => ⟨rfl, he, fun _ => rfl⟩
  | i :: is, e, he => by
    have hround : (e.normalizeRound i).sort = e.sort ∧ (e.normalizeRound i).WellSorted ∧
        ∀ ν, (e.normalizeRound i).eval ν = e.eval ν := by
      rw [normalizeRound]
      split
      · next child hchild =>
        exact normalizeChild_spec he (he.children child (List.mem_of_getElem? hchild))
      · exact ⟨rfl, he, fun _ => rfl⟩
    obtain ⟨hsort, hwell, heval⟩ := hround
    obtain ⟨hsort', hwell', heval'⟩ := normalizeRounds_spec is hwell
    exact ⟨hsort'.trans hsort, hwell', fun ν => (heval' ν).trans (heval ν)⟩

end Term

/-- A literal is read as what it denotes. -/
theorem asUint64?_eval {a : Addr} (h : asUint64? t = .ok a) (ν : Valuation) :
    a = BitVec.ofNat 64 (t.eval ν) := by
  cases t with
  | value w n => exact (Except.ok.inj h).symm
  | _ => cases h

/-- **`normalize_ite`** keeps sort and value, with a sound rewriter that makes well-sorted terms of
well-sorted ones. -/
theorem normalizeIte_spec (hS : S.Sound) (hsorts : ∀ e : Term, e.WellSorted → (S.simplify e).WellSorted)
    {e : Term} (he : e.WellSorted) : (normalizeIte S e).sort = e.sort ∧ (normalizeIte S e).WellSorted ∧
      ∀ ν, (normalizeIte S e).eval ν = e.eval ν := by
  obtain ⟨hsort, hwell, heval⟩ := Term.normalizeRounds_spec (List.range 3) he
  exact ⟨(hS.sort_simplify _).trans hsort, hsorts _ hwell, fun ν => (hS.eval_simplify _ ν).trans (heval ν)⟩

/-- **Where the value goes.** When `resolve_ite` gives two program counters, there is a condition under
which the value is the first of them and otherwise it is the second, for every valuation: `normalize_ite`
keeps the sort and the value of every term. The rewriter is sound and makes well-sorted terms of
well-sorted ones. -/
theorem resolveIte_targets (hS : S.Sound) (hsorts : ∀ e : Term, e.WellSorted → (S.simplify e).WellSorted)
    {v : Value} (hv : v.term.WellSorted) {trueIp falseIp : Addr}
    (h : resolveIte S v = .ok (trueIp, falseIp)) :
    (∀ e : Term, e.WellSorted → (normalizeIte S e).sort = e.sort ∧
      ∀ ν, (normalizeIte S e).eval ν = e.eval ν) ∧
    ∃ c : Term, ∀ ν, BitVec.ofNat 64 (v.eval ν) = if c.eval ν = 0 then falseIp else trueIp := by
  refine ⟨fun e he => (normalizeIte_spec hS hsorts he).imp_right And.right, ?_⟩
  have hsimplified : (v.simplify S).term.WellSorted := by
    rw [Value.simplify]
    split
    · exact hv
    · exact hsorts _ hv
  obtain ⟨_, hwell, heval⟩ := normalizeIte_spec hS hsorts hsimplified
  have hvalue : ∀ ν, (normalizeIte S (v.simplify S).term).eval ν = v.eval ν := fun ν =>
    (heval ν).trans (Value.eval_simplify hS ν v)
  rw [resolveIte] at h
  cases hnormal : normalizeIte S (v.simplify S).term with
  | ite c thenExpr elseExpr =>
    rw [hnormal] at h hwell hvalue
    simp only at h
    split at h
    · simp only [Except.bind_eq_ok, Except.pure_eq_ok] at h
      obtain ⟨a, ha, b, hb, heq⟩ := h
      obtain ⟨rfl, rfl⟩ := Prod.mk.inj heq
      refine ⟨c, fun ν => ?_⟩
      have hsort : thenExpr.sort = elseExpr.sort := hwell.1
      rw [← hvalue ν, Term.eval_ite ν c (by rw [Term.bits, Term.bits, hsort]), asUint64?_eval ha ν,
        asUint64?_eval hb ν]
      split
      · rfl
      · rfl
    · cases h
  | _ =>
    rw [hnormal] at h
    cases h

end

/-- The rewriter that folds terms without symbols. -/
theorem fold_wellSorted {e : Term} (h : e.WellSorted) : e.fold.WellSorted := by
  rw [Term.fold]
  split
  · cases e.sort with
    | bool => trivial
    | bv w => trivial
  · exact h

/-- A jump to `0x1000` if a number is five, and to `0x2000` if not. -/
def chosenTarget : Value :=
  .ofTerm (.ite (.binary .equal (.const ⟨.tsc, 0, 64⟩) (.value 64 5)) (.value 64 0x1000)
    (.value 64 0x2000))

theorem resolveIte_targets_chosen : resolveIte .folding chosenTarget = .ok (0x1000, 0x2000) ∧
    ∃ c : Term, ∀ ν, BitVec.ofNat 64 (chosenTarget.eval ν) = if c.eval ν = 0 then 0x2000 else 0x1000 := by
  have hrun : resolveIte .folding chosenTarget = .ok (0x1000, 0x2000) := rfl
  have hwell : chosenTarget.term.WellSorted := ⟨rfl, ⟨trivial, trivial⟩, trivial, trivial⟩
  exact ⟨hrun, (resolveIte_targets Solver.folding_sound (fun _ h => fold_wellSorted h) hwell hrun).2⟩

end Vexa
