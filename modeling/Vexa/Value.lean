import Vexa.Bitwuzla.Solver

/-!
# Values and pointers

`vexa::value` wraps a term together with a flag that says whether the rewriter has seen it;
`vexa::pointer` adds the page the address lives in.

## In-place rewriting

`simplify` updates the object it is called on. A value here is immutable, so `Value.simplify`
returns the updated object, and a caller that keeps a reference stores the result back. Everywhere
else the old and the new object are interchangeable: they denote the same number.

## Main results

* `Value.eval_simplify`, `Value.simplifyUnder_sound` — rewriting, alone and under constraints,
  keeps the denotation
-/

namespace Vexa

/-- `vexa::value`. -/
structure Value where
  term : Term
  simplified : Bool
deriving DecidableEq, Repr

/-- `vexa::pointer`. -/
structure Pointer extends Value where
  page : PageId
deriving DecidableEq, Repr

namespace Value

/-- The constructor of `vexa::value` (and `symex::value`): a literal counts as rewritten. -/
def ofTerm (e : Term) : Value := ⟨e, e.isValue⟩

/-- `symex::concrete`. -/
def concrete (n width : ℕ) : Value := ofTerm (.value width (n % 2 ^ width))

/-- `symex::symbolic`, with the symbol already made. -/
def symbolic (s : Symbol) : Value := ofTerm (.const s)

/-- `value::is_concrete`. -/
def isConcrete (v : Value) : Bool := v.term.isValue

/-- `value::size`, in bits. -/
def size (v : Value) : ℕ := v.term.bits

/-- `value::as_uint64`; `none` is its exception. -/
def asUint64 (v : Value) : Option Addr := v.term.asUint64

/-- The number the value denotes under a valuation. -/
def eval (ν : Valuation) (v : Value) : ℕ := v.term.eval ν

/-- `value::as_expr_bool`. -/
def asExprBool (v : Value) : Term :=
  match v.term.sort with
  | .bool => v.term
  | .bv w => .binary .equal v.term (.value w 1)

/-- `value::simplify`. -/
def simplify (S : Solver) (v : Value) : Value :=
  if v.simplified then v else ⟨S.simplify v.term, true⟩

/-- `value::simplify` under constraints: the result, and the number of checks made. -/
def simplifyUnder (S : Solver) (A : List Term) (checks : ℕ) (v : Value) : Value × ℕ :=
  let v := v.simplify S
  if v.isConcrete then (v, checks)
  else match S.checkSat checks A with
    | .sat m =>
      let candidate := Term.literal v.term.sort (v.term.eval m)
      -- can it take another value?
      match S.checkSat (checks + 1) (A ++ [differs v.term candidate]) with
      | .unsat => (ofTerm candidate, checks + 2)
      | _ => (v, checks + 2)
    | _ => (v, checks + 1)

/-- `value::unary` and `value::binary`. -/
def unary (op : UnaryKind) (v : Value) : Value := ofTerm (.unary op v.term)

def binary (op : BinaryKind) (v rhs : Value) : Value := ofTerm (.binary op v.term rhs.term)

/-- `value::operator!`. -/
def not (v : Value) : Value := ofTerm (.unary .not v.asExprBool)

def concat (v rhs : Value) : Value := v.binary .bvConcat rhs

def extract (v : Value) (high low : ℕ) : Value := ofTerm (.extract high low v.term)

def zext (v : Value) (amount : ℕ) : Value := ofTerm (.zeroExtend amount v.term)

def sext (v : Value) (amount : ℕ) : Value := ofTerm (.signExtend amount v.term)

def ite (c thenValue elseValue : Value) : Value :=
  ofTerm (.ite c.asExprBool thenValue.term elseValue.term)

/-! ### What the operations denote -/

@[simp] theorem term_ofTerm (e : Term) : (ofTerm e).term = e := rfl

@[simp] theorem size_ofTerm (e : Term) : (ofTerm e).size = e.bits := rfl

@[simp] theorem eval_ofTerm (ν : Valuation) (e : Term) : (ofTerm e).eval ν = e.eval ν := rfl

theorem eval_lt (ν : Valuation) (v : Value) : v.eval ν < 2 ^ v.size := Term.eval_lt ν v.term

@[simp] theorem size_concrete (n w : ℕ) : (concrete n w).size = w := rfl

@[simp] theorem eval_concrete (ν : Valuation) (n w : ℕ) : (concrete n w).eval ν = n % 2 ^ w := by
  simp [concrete]

@[simp] theorem size_extract (v : Value) (high low : ℕ) :
    (v.extract high low).size = high + 1 - low := rfl

@[simp] theorem eval_extract (ν : Valuation) (v : Value) (high low : ℕ) :
    (v.extract high low).eval ν = v.eval ν / 2 ^ low % 2 ^ (high + 1 - low) := rfl

@[simp] theorem size_concat (v w : Value) : (v.concat w).size = v.size + w.size := rfl

@[simp] theorem eval_concat (ν : Valuation) (v w : Value) :
    (v.concat w).eval ν = v.eval ν * 2 ^ w.size + w.eval ν := Term.eval_concat ν v.term w.term

/-- A condition holds when it is a true Boolean, or a bit vector equal to one. -/
def holds (ν : Valuation) (v : Value) : Prop := v.asExprBool.eval ν = 1

theorem sort_asExprBool (v : Value) : v.asExprBool.sort = .bool := by
  rw [asExprBool]
  cases h : v.term.sort with
  | bool => exact h
  | bv w => rfl

theorem asExprBool_eval (ν : Valuation) (v : Value) :
    v.asExprBool.eval ν = 0 ∨ v.asExprBool.eval ν = 1 :=
  Term.eval_bool v.sort_asExprBool ν

/-- The negated condition is satisfied exactly when the condition is not. -/
theorem eval_not (ν : Valuation) (v : Value) : v.not.term.eval ν = 1 ↔ ¬ v.holds ν := by
  rcases v.asExprBool_eval ν with h | h <;>
    simp [not, holds, Term.eval, UnaryKind.eval, h]

theorem size_ite (c v w : Value) : (c.ite v w).size = v.size := rfl

open Classical in
theorem eval_ite (ν : Valuation) (c : Value) {v w : Value} (h : v.size = w.size) :
    (c.ite v w).eval ν = if c.holds ν then v.eval ν else w.eval ν := by
  rcases c.asExprBool_eval ν with hc | hc <;>
    simp [ite, holds, Term.eval_ite ν _ h, hc, eval]

/-- Comparing two values for equality. -/
theorem holds_equal (ν : Valuation) (v w : Value) :
    (v.binary .equal w).holds ν ↔ v.eval ν = w.eval ν := by
  simp [holds, asExprBool, binary, Term.sort, BinaryKind.sort, Term.eval_equal, eval]

/-! ### Rewriting -/

variable {S : Solver}

theorem eval_simplify (hS : S.Sound) (ν : Valuation) (v : Value) :
    (v.simplify S).eval ν = v.eval ν := by
  rw [simplify]
  split
  · rfl
  · exact hS.eval_simplify v.term ν

theorem sort_simplify (hS : S.Sound) (v : Value) : (v.simplify S).term.sort = v.term.sort := by
  rw [simplify]
  split
  · rfl
  · exact hS.sort_simplify v.term

theorem size_simplify (hS : S.Sound) (v : Value) : (v.simplify S).size = v.size := by
  rw [size, size, Term.bits, Term.bits, sort_simplify hS]

@[simp] theorem simplified_simplify (v : Value) : (v.simplify S).simplified = true := by
  rw [simplify]
  split <;> simp_all

@[simp] theorem simplify_simplify (v : Value) : (v.simplify S).simplify S = v.simplify S := by
  rw [simplify, if_pos v.simplified_simplify]

@[simp] theorem simplify_concrete (n w : ℕ) : (concrete n w).simplify S = concrete n w := rfl

theorem holds_simplify (hS : S.Sound) (ν : Valuation) (v : Value) :
    (v.simplify S).holds ν ↔ v.holds ν := by
  have heval : (v.simplify S).term.eval ν = v.term.eval ν := eval_simplify hS ν v
  rw [holds, holds, asExprBool, asExprBool, sort_simplify hS]
  cases v.term.sort with
  | bool => rw [heval]
  | bv w => simp only [Term.eval_equal, heval]

/-- A literal has one value. -/
theorem eval_of_isConcrete {v : Value} (h : v.isConcrete = true) (ν μ : Valuation) :
    v.eval ν = v.eval μ := by
  cases ht : v.term with
  | value w n => rw [eval, eval, ht]; rfl
  | boolean b => rw [eval, eval, ht]; rfl
  | _ => rw [isConcrete, ht] at h; cases h

/-- **Rewriting under constraints** keeps the sort, and the denotation under every valuation that
satisfies them. -/
theorem simplifyUnder_sound (hS : S.Sound) (A : List Term) (checks : ℕ) (v : Value) :
    (simplifyUnder S A checks v).1.term.sort = v.term.sort ∧
    ∀ ν, Satisfies ν A → (simplifyUnder S A checks v).1.eval ν = v.eval ν := by
  have hkeep : (v.simplify S).term.sort = v.term.sort ∧
      ∀ ν, Satisfies ν A → (v.simplify S).eval ν = v.eval ν :=
    ⟨sort_simplify hS v, fun ν _ => eval_simplify hS ν v⟩
  rw [simplifyUnder]
  simp only
  split
  · exact hkeep
  split
  case h_2 => exact hkeep
  case h_1 m hm =>
    split
    case h_2 => exact hkeep
    case h_1 hunsat =>
      refine ⟨by rw [term_ofTerm, Term.sort_literal, sort_simplify hS], fun ν hν => ?_⟩
      have hne : ¬ (v.simplify S).term.eval ν ≠ (v.simplify S).term.eval m := fun hne =>
        hS.unsat hunsat ν ((satisfies_append _ _ _).mpr
          ⟨hν, (satisfies_singleton _ _).mpr ((eval_differs _).mpr hne)⟩)
      rw [eval_ofTerm, Term.eval_literal_eval, ← not_not.mp hne]
      exact eval_simplify hS ν v

end Value

namespace Pointer

/-- `symex::pointer` from a value: the pointer copies it. -/
def ofValue (v : Value) (page : PageId) : Pointer := ⟨v, page⟩

/-- `symex::pointer` from an address. -/
def concrete (a : Addr) (page : PageId) : Pointer := ofValue (.concrete a.toNat 64) page

/-- `value::simplify` on a pointer. -/
def simplify (S : Solver) (p : Pointer) : Pointer := ⟨p.toValue.simplify S, p.page⟩

@[simp] theorem toValue_simplify (S : Solver) (p : Pointer) :
    (p.simplify S).toValue = p.toValue.simplify S := rfl

@[simp] theorem page_simplify (S : Solver) (p : Pointer) : (p.simplify S).page = p.page := rfl

@[simp] theorem page_concrete (a : Addr) (page : PageId) : (concrete a page).page = page := rfl

@[simp] theorem asUint64_concrete (a : Addr) (page : PageId) :
    (concrete a page).asUint64 = some a := by
  simp [concrete, ofValue, Value.concrete, Value.asUint64, Term.asUint64,
    Nat.mod_eq_of_lt a.isLt]

@[simp] theorem simplify_concrete (S : Solver) (a : Addr) (page : PageId) :
    (concrete a page).simplify S = concrete a page := rfl

theorem asUint64_simplify_concrete (S : Solver) (a : Addr) (page : PageId) :
    ((concrete a page).simplify S).asUint64 = some a := asUint64_concrete a page

end Pointer

end Vexa
