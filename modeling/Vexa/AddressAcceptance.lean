import Vexa.IndirectJump
import Vexa.MultiAddress
import Vexa.Widths

/-!
# The addresses the intrinsics accept

An address is classified three times: in the intrinsic, by rewriting under the constraints, and again in
`value_to_pointer`. When it gets there as a term with several values, or with one that only the
enumeration finds, `value_to_pointer` looks up the page of a value found and then reads the address
back from the term it started with, which is not a literal: the exception of `as_uint64`.

An address for which only one value was found is replaced by that value, whatever the solver said to
the question for another one. One for which none was found becomes a pointer into the global memory,
also where it lies in the stack.

## Main definitions

* `Resolution.Points` — the pointer is where the address is
* `PointerFound`, `Accepts` — what the solver must say about an address

## Main results

* `readMemory_ok`, `writeMemory_ok` — accesses through any pointer return
* `valueToPointer_iff` — when `value_to_pointer` returns
* `intrinsics_accept_iff`
-/

namespace Vexa

variable {S : Solver} {pathConstraints : List Term} {types : Types Name} {s s' : Symex} {c : Context}
  {p : Pointer} {size : ℕ} {address value : Operand Name} {addr addr' addrSym v v' : Value}

/-! ### Accesses return -/

theorem readLoop_ok (hS : S.Sound) (size : ℕ) : ∀ (ns : List ℕ) (acc : Value) (c : Context),
    ∃ r, readLoop S p size (ns.map addressTerm) acc c = .ok r
  | [], acc, c => ⟨_, rfl⟩
  | n :: ns, acc, c => by
    obtain ⟨ptr, hptr, _⟩ := calculatePointer_sound hS n
    obtain ⟨r, hr⟩ := readLoop_ok hS size ns _ _
    exact ⟨r, by simp only [List.map_cons, readLoop, hptr, Except.ok_bind]; exact hr⟩

theorem writeLoop_ok (hS : S.Sound) (val : Value) : ∀ (ns : List ℕ) (c : Context),
    ∃ c', writeLoop S p val (ns.map addressTerm) c = .ok c'
  | [], c => ⟨_, rfl⟩
  | n :: ns, c => by
    obtain ⟨ptr, hptr, _⟩ := calculatePointer_sound hS n
    obtain ⟨c', hc'⟩ := writeLoop_ok hS val ns _
    exact ⟨c', by simp only [List.map_cons, writeLoop, hptr, Except.ok_bind]; exact hc'⟩

/-- **`read_memory` returns**, however the pointer is resolved. -/
theorem readMemory_ok (hS : S.Sound) (hp : p.term.sort = .bv 64) (c : Context) (size : ℕ) :
    ∃ r, readMemory S pathConstraints c p size = .ok r := by
  have hsort : (p.simplify S).term.sort = .bv 64 := (Value.sort_simplify hS p.toValue).trans hp
  obtain ⟨ns, hns, _⟩ := exists_addresses hS hsort pathConstraints c.checks
  simp only [readMemory, hns]
  split
  · exact ⟨_, rfl⟩
  rcases ns with _ | ⟨n, _ | ⟨m, ns⟩⟩
  · exact ⟨_, rfl⟩
  · obtain ⟨ptr, hptr, _⟩ := calculatePointer_sound hS n
    exact ⟨_, by simp only [List.map_cons, List.map_nil, hptr, Except.ok_bind]; rfl⟩
  · obtain ⟨ptr, hptr, _⟩ := calculatePointer_sound hS n
    simp only [List.map_cons, hptr, Except.ok_bind]
    split
    · exact readLoop_ok hS size (m :: ns) _ _
    · exact ⟨_, rfl⟩

/-- **`write_memory` returns**, however the pointer is resolved. -/
theorem writeMemory_ok (hS : S.Sound) (hp : p.term.sort = .bv 64) (c : Context) (val : Value) :
    ∃ c', writeMemory S pathConstraints c p val = .ok c' := by
  have hsort : (p.simplify S).term.sort = .bv 64 := (Value.sort_simplify hS p.toValue).trans hp
  obtain ⟨ns, hns, _⟩ := exists_addresses hS hsort pathConstraints c.checks
  simp only [writeMemory, hns]
  split
  · exact ⟨_, rfl⟩
  rcases ns with _ | ⟨n, _ | ⟨m, ns⟩⟩
  · exact ⟨_, rfl⟩
  · obtain ⟨ptr, hptr, _⟩ := calculatePointer_sound hS n
    exact ⟨_, by simp only [List.map_cons, List.map_nil, hptr, Except.ok_bind]; rfl⟩
  · simp only [List.map_cons]
    split
    · exact writeLoop_ok hS val (n :: m :: ns) _
    · exact ⟨_, rfl⟩

/-- An operand with a width has a value. -/
theorem Symex.Sized.exists_get (h : s.Sized types) {a : Operand Name} {w : ℕ}
    (ha : a.width types = some w) : ∃ v, s.get a = .ok v ∧ v.size = w := by
  cases a with
  | const w' n => exact ⟨_, rfl, Option.some.inj ha⟩
  | ssa name =>
    obtain ⟨v, hv, hsize⟩ := h.vars name w ha
    exact ⟨v, by rw [Symex.get, hv]; rfl, hsize⟩

theorem Symex.Sized.exists_pointer (h : s.Sized types) {ptr : Ptr Name} (hptr : ptr.Addressed types) :
    ∃ p, s.pointer ptr = .ok p := by
  cases ptr with
  | intToPtr address =>
    obtain ⟨v, hv, _⟩ := h.exists_get hptr
    exact ⟨_, by simp only [Symex.pointer, hv, Except.ok_bind]; rfl⟩
  | _ => exact ⟨_, rfl⟩

theorem visitLoad_ok (hS : S.Sound) (h : s.Sized types) (dst : Name) (width : ℕ) {ptr : Ptr Name}
    (hptr : ptr.Addressed types) : ∃ s', visitLoad S pathConstraints dst width ptr s = .ok s' := by
  obtain ⟨p, hp⟩ := h.exists_pointer hptr
  have hsort : (p.simplify S).term.sort = .bv 64 :=
    (Value.sort_simplify hS p.toValue).trans (h.pointer hptr hp)
  obtain ⟨r, hr⟩ : ∃ r, readMemory S pathConstraints s.context (p.simplify S)
      ((width + 7) / 8 * 8) = .ok r :=
    readMemory_ok hS hsort s.context _
  exact ⟨_, by simp only [visitLoad, hp, Except.ok_bind, hr]; rfl⟩

theorem visitStore_ok (hS : S.Sound) (h : s.Sized types) {w : ℕ} (hvalue : value.width types = some w)
    {ptr : Ptr Name} (hptr : ptr.Addressed types) :
    ∃ s', visitStore S pathConstraints value ptr s = .ok s' := by
  obtain ⟨p, hp⟩ := h.exists_pointer hptr
  obtain ⟨val, hval, _⟩ := h.exists_get hvalue
  obtain ⟨c', hc'⟩ : ∃ c', writeMemory S pathConstraints s.context p val = .ok c' :=
    writeMemory_ok hS (h.pointer hptr hp) s.context val
  exact ⟨_, by simp only [visitStore, hp, hval, Except.ok_bind, hc']; rfl⟩

/-! ### `value_to_pointer` -/

/-- The page of a pointer, and the address its term denotes. -/
def Pointer.place (p : Pointer) (ν : Valuation) : PageId × Addr := (p.page, BitVec.ofNat 64 (p.eval ν))

/-- The pointer of `value_to_pointer`, with the term the address has in `s`, is where the address is. An
address that was enumerated does not get there. -/
def Resolution.Points (s : Symex) (pathConstraints : List Term) (address : Operand Name) (addr : Value)
    (r : Resolution) : Prop :=
  match r with
  | among _ => True
  | literal _ | unresolved => ∃ p, s.pointer (r.ptr address) = .ok p ∧
      ∀ ν, Satisfies ν pathConstraints → p.place ν = locate (BitVec.ofNat 64 (addr.eval ν))

/-- `value_to_pointer` has a literal, or no value at all of an address that never lies in the stack. -/
def PointerFound (S : Solver) (pathConstraints : List Term) (checks : ℕ) (v : Value) : Prop :=
  (v.simplifyUnder S pathConstraints checks).1.isConcrete = true ∨
    (possibleValues S pathConstraints (v.simplifyUnder S pathConstraints checks).2
      (v.simplifyUnder S pathConstraints checks).1.term).1 = [] ∧
    ∀ ν, Satisfies ν pathConstraints → inStack (BitVec.ofNat 64 (v.eval ν)) = false

/-- A `getelementptr` from a constant. -/
theorem place_gep (base offset : Addr) (page : PageId) (ν : Valuation) :
    (gep (.concrete base page) offset).place ν = (page, base + offset) := by
  have hconst : ∀ a : Addr, BitVec.ofNat 64 (a.toNat % 2 ^ 64 % 2 ^ 64) = a := by
    intro a
    apply BitVec.eq_of_toNat_eq
    simp [a.isLt]
  have heval : (gep (.concrete base page) offset).eval ν = (base + offset).toNat := by
    show (BitVec.ofNat 64 (base.toNat % 2 ^ 64 % 2 ^ 64)
      + BitVec.ofNat 64 (offset.toNat % 2 ^ 64 % 2 ^ 64)).toNat = _
    rw [hconst, hconst]
  rw [Pointer.place, heval, BitVec.ofNat_toNat, BitVec.setWidth_eq]
  rfl

/-- The pointer made for a literal. -/
theorem exists_pagePtr (s : Symex) (a : Addr) :
    ∃ p, s.pointer (pagePtr a) = .ok p ∧ ∀ ν, p.place ν = locate a := by
  rw [pagePtr, locate]
  split
  · exact ⟨_, rfl, place_gep 16384 a stackPage⟩
  · exact ⟨_, rfl, fun ν => (place_gep 0 a globalPage ν).trans (congrArg _ (BitVec.zero_add a))⟩

theorem locate_of_not_inStack {a : Addr} : (globalPage, a) = locate a ↔ inStack a = false := by
  rw [locate]
  cases inStack a with
  | true =>
    have hne : globalPage ≠ stackPage := by decide
    exact iff_of_false (fun h => hne (congrArg Prod.fst h)) (by decide)
  | false => exact iff_of_true rfl rfl

namespace Resolution

theorem points_literal {a : Addr} : (literal a).Points s pathConstraints address addr ↔
    ∀ ν, Satisfies ν pathConstraints → a = BitVec.ofNat 64 (addr.eval ν) := by
  obtain ⟨p, hp, hplace⟩ := exists_pagePtr s a
  constructor
  · rintro ⟨p', hp', hall⟩ ν hν
    obtain rfl := Except.ok.inj (hp.symm.trans hp')
    exact locate_injective ((hplace ν).symm.trans (hall ν hν))
  · intro hall
    exact ⟨p, hp, fun ν hν => (hplace ν).trans (congrArg locate (hall ν hν))⟩

/-- The fallback points into the global memory. -/
theorem points_unresolved (hv : s.get address = .ok v) (heval : ∀ ν, v.eval ν = addr.eval ν) :
    unresolved.Points s pathConstraints address addr ↔
      ∀ ν, Satisfies ν pathConstraints → inStack (BitVec.ofNat 64 (addr.eval ν)) = false := by
  have hp : s.pointer (unresolved.ptr address) = .ok (.ofValue v globalPage) := by
    simp only [ptr, Symex.pointer, hv, Except.ok_bind]
    rfl
  have hplace : ∀ ν, (Pointer.ofValue v globalPage).place ν
      = (globalPage, BitVec.ofNat 64 (addr.eval ν)) := fun ν => by
    rw [← heval ν]
    rfl
  constructor
  · rintro ⟨p, hp', hall⟩ ν hν
    obtain rfl := Except.ok.inj (hp.symm.trans hp')
    exact locate_of_not_inStack.mp ((hplace ν).symm.trans (hall ν hν))
  · intro hall
    exact ⟨_, hp, fun ν hν => (hplace ν).trans (locate_of_not_inStack.mpr (hall ν hν))⟩

/-- A state in which the address has a term with the same values. -/
theorem points_congr {r : Resolution} (hv : s.get address = .ok v) (hv' : s'.get address = .ok v')
    (heval : ∀ ν, v.eval ν = addr.eval ν) (heval' : ∀ ν, v'.eval ν = addr'.eval ν)
    (haddr : ∀ ν, addr.eval ν = addr'.eval ν) :
    r.Points s pathConstraints address addr ↔ r.Points s' pathConstraints address addr' := by
  cases r with
  | among addresses => exact Iff.rfl
  | literal a => simp only [points_literal, haddr]
  | unresolved => simp only [points_unresolved hv heval, points_unresolved hv' heval', haddr]

end Resolution

theorem Value.asUint64_eq_none {v : Value} (h : ¬ v.isConcrete = true) : v.asUint64 = none := by
  cases hu : v.asUint64 with
  | none => rfl
  | some a => exact absurd (Value.isConcrete_of_asUint64 hu) h

/-- **When `value_to_pointer` returns** a pointer that is where the address is. -/
theorem valueToPointer_iff (hS : S.Sound) (hv : s.get address = .ok v) (hsort : v.term.sort = .bv 64) :
    (∃ r, valueToPointer S pathConstraints address s = .ok r ∧
        r.1.Points s pathConstraints address v) ↔
      PointerFound S pathConstraints s.context.checks v := by
  obtain ⟨hsort', heval'⟩ := Value.simplifyUnder_sound hS pathConstraints s.context.checks v
  simp only [valueToPointer, hv, Except.ok_bind, PointerFound]
  set simplified := v.simplifyUnder S pathConstraints s.context.checks
  split
  · next hconcrete =>
    have hlit := Term.asUint64_of_isValue hconcrete (hsort'.trans hsort)
    have hvalue : simplified.1.asUint64? = .ok (BitVec.ofNat 64 (simplified.1.eval fun _ => 0)) := by
      rw [Value.asUint64?, Value.asUint64, hlit fun _ => 0]
      rfl
    rw [hvalue, Except.ok_bind]
    refine iff_of_true ⟨_, rfl, Resolution.points_literal.mpr fun ν hν => ?_⟩ (.inl hconcrete)
    rw [← heval' ν hν, Value.eval_of_isConcrete hconcrete ν fun _ => 0]
  · next hsymbolic =>
    rw [or_iff_right hsymbolic, Symex.context_setOperand]
    have hpoints : Resolution.unresolved.Points s pathConstraints address v ↔
        ∀ ν, Satisfies ν pathConstraints → inStack (BitVec.ofNat 64 (v.eval ν)) = false :=
      Resolution.points_unresolved hv fun _ => rfl
    constructor
    · rintro ⟨r, hr, hplace⟩
      by_cases hfound : (possibleValues S pathConstraints simplified.2 simplified.1.term).1 = []
      · rw [if_neg (not_not.mpr hfound)] at hr
        obtain rfl := Except.ok.inj hr
        exact ⟨hfound, hpoints.mp hplace⟩
      · -- the value read back is the term, not the value found
        rw [if_pos hfound, Value.asUint64?, Value.asUint64_eq_none hsymbolic] at hr
        cases hr
    · rintro ⟨hfound, houtside⟩
      exact ⟨_, by rw [if_neg (not_not.mpr hfound)]; rfl, hpoints.mpr houtside⟩

/-- A literal address. -/
theorem valueToPointer_literal (n : ℕ) (hv : s.get address = .ok (.ofTerm (addressTerm n))) :
    ∃ s', valueToPointer S pathConstraints address s = .ok (.literal (BitVec.ofNat 64 n), s') := by
  have hsimplify : (Value.ofTerm (addressTerm n)).simplifyUnder S pathConstraints s.context.checks
      = (.ofTerm (addressTerm n), s.context.checks) := rfl
  have hconcrete : (Value.ofTerm (addressTerm n)).isConcrete = true := rfl
  simp only [valueToPointer, hv, Except.ok_bind, hsimplify, hconcrete, if_true, asUint64?_literal]
  exact ⟨_, rfl⟩

/-! ### The intrinsics -/

/-- What the solver must say about an address: `addrSym` is what its values are asked of, and `v` what
`value_to_pointer` starts from. -/
def Accepts (S : Solver) (pathConstraints : List Term) (checks : ℕ) (addrSym v : Value) : Prop :=
  if addrSym.isConcrete then PointerFound S pathConstraints checks v
  else
    let found := possibleValues S pathConstraints checks addrSym.term
    if found.1.length = 1 then
      ∀ ν μ, Satisfies ν pathConstraints → Satisfies μ pathConstraints → addrSym.eval ν = addrSym.eval μ
    else (1 < found.1.length ∧ found.2.1 = .unsat) ∨ PointerFound S pathConstraints found.2.2 v

/-- A complete enumeration is accepted. -/
theorem accepts_of_enumerated {values : List Term}
    (h : enumerateAddress S pathConstraints address addrSym s = (some values, s')) :
    Accepts S pathConstraints s.context.checks addrSym v := by
  rw [enumerateAddress] at h
  split at h
  · cases (Prod.mk.inj h).1
  · next hsymbolic =>
    simp only at h
    split at h
    · next hmany =>
      rw [Accepts, if_neg hsymbolic]
      exact (if_neg hmany.1.ne').mpr (.inl hmany)
    · split at h <;> cases (Prod.mk.inj h).1

/-- **An address that is not enumerated** is accepted when `value_to_pointer` finds where it is. -/
theorem valueToPointer_accepts (hS : S.Sound)
    (hv : s.get address = .ok v) (hsort : v.term.sort = .bv 64)
    (hconst : v.isConcrete = true → addrSym.isConcrete = true)
    (hsort' : addrSym.term.sort = .bv 64)
    (heval : ∀ ν, Satisfies ν pathConstraints → addrSym.eval ν = v.eval ν)
    (henum : enumerateAddress S pathConstraints address addrSym s = (none, s')) :
    (∃ r, valueToPointer S pathConstraints address s' = .ok r ∧
        r.1.Points s pathConstraints address v) ↔
      Accepts S pathConstraints s.context.checks addrSym v := by
  have hfound : ∀ s' : Symex, s'.get address = .ok v → ((∃ r,
      valueToPointer S pathConstraints address s' = .ok r ∧ r.1.Points s pathConstraints address v) ↔
        PointerFound S pathConstraints s'.context.checks v) := by
    intro s' hv'
    rw [← valueToPointer_iff hS hv' hsort]
    exact exists_congr fun r => and_congr_right fun _ =>
      Resolution.points_congr hv hv' (fun _ => rfl) (fun _ => rfl) fun _ => rfl
  rw [enumerateAddress] at henum
  rw [Accepts]
  split at henum
  · next hconcrete =>
    obtain ⟨_, rfl⟩ := Prod.mk.inj henum
    rw [if_pos hconcrete]
    exact hfound _ hv
  · next hsymbolic =>
    rw [if_neg hsymbolic]
    simp only at henum ⊢
    split at henum
    · cases (Prod.mk.inj henum).1
    · next hmany =>
      split at henum
      · next found hone =>
        obtain ⟨_, rfl⟩ := Prod.mk.inj henum
        rw [if_pos (by rw [hone]; rfl)]
        obtain ⟨ns, hns, _, hfeasible, _⟩ := exists_addresses hS hsort' pathConstraints s.context.checks
        rw [hns] at hone
        obtain ⟨n, rfl, rfl⟩ := List.map_eq_singleton_iff.mp hone
        obtain ⟨hn, μ, hμ, heq⟩ := hfeasible n (List.mem_singleton_self n)
        cases address with
        | const w k =>
          obtain rfl := Except.ok.inj hv
          exact absurd (hconst rfl) hsymbolic
        | ssa name =>
          obtain ⟨s'', hptr⟩ := valueToPointer_literal (S := S) n
            (Symex.get_set_self (s := { s with context.checks :=
              (possibleValues S pathConstraints s.context.checks addrSym.term).2.2 }) name
              (.ofTerm (addressTerm n)))
          -- the value found is where the address is when it has no other
          have hunique : (Resolution.literal (BitVec.ofNat 64 n)).Points s pathConstraints (.ssa name) v ↔
              ∀ ν ξ, Satisfies ν pathConstraints → Satisfies ξ pathConstraints →
                addrSym.eval ν = addrSym.eval ξ := by
            have hvalue : ∀ ν, Satisfies ν pathConstraints →
                (BitVec.ofNat 64 n = BitVec.ofNat 64 (v.eval ν) ↔ addrSym.eval ν = n) := fun ν hν => by
              rw [eq_comm, ofNat_eval_eq_iff hsort hn, heval ν hν]
            rw [Resolution.points_literal]
            constructor
            · intro h ν ξ hν hξ
              rw [(hvalue ν hν).mp (h ν hν), (hvalue ξ hξ).mp (h ξ hξ)]
            · intro h ν hν
              exact (hvalue ν hν).mpr ((h ν μ hν hμ).trans heq)
          rw [← hunique]
          constructor
          · rintro ⟨r, hr, hpoints⟩
            obtain rfl := Except.ok.inj (hptr.symm.trans hr)
            exact hpoints
          · exact fun hpoints => ⟨_, hptr, hpoints⟩
      · next hnone =>
        obtain ⟨_, rfl⟩ := Prod.mk.inj henum
        have hlen : (possibleValues S pathConstraints s.context.checks addrSym.term).1.length ≠ 1 := by
          intro hlen
          obtain ⟨x, hx⟩ := List.length_eq_one_iff.mp hlen
          exact hnone x hx
        rw [if_neg hlen, or_iff_right hmany]
        exact hfound _ hv

section

variable (hS : S.Sound) (h : s.Sized types) (htypes : LiftedTypes types)
  (haddress : address.width types = some 64) (haddr : s.get address = .ok addr)

include hS h htypes haddress haddr

/-- **Loads of the program**: which addresses are accepted. -/
theorem readMemoryIntrinsic_accepts (dst : Name) (size : ℕ) :
    (∃ r, readMemoryIntrinsic S pathConstraints dst size address s = .ok r ∧
        r.1.Points s pathConstraints address addr) ↔
      Accepts S pathConstraints s.context.checks (addr.simplify S) (addr.simplify S) := by
  have hsize : addr.size = 64 := h.operand haddress haddr
  have hsort : (addr.simplify S).term.sort = .bv 64 :=
    (Value.sort_simplify hS addr).trans (Term.sort_of_bits hsize (by decide))
  have h₁ : (s.setOperand address (addr.simplify S)).Sized types :=
    h.setOperand htypes haddress ((Value.size_simplify hS addr).trans hsize)
  have hget := Symex.get_setOperand_simplify (S := S) haddr s
  have hchecks : s.context.checks = (s.setOperand address (addr.simplify S)).context.checks := by
    rw [Symex.context_setOperand]
  rw [hchecks]
  simp only [readMemoryIntrinsic, haddr, Except.ok_bind]
  set s₁ := s.setOperand address (addr.simplify S)
  split
  · next henum => exact absurd (enumerateAddress_length henum) (by simp)
  · next value values s₂ henum =>
    refine iff_of_true ?_ (accepts_of_enumerated henum)
    obtain ⟨_, hvalues⟩ := enumerateAddress_sized hS h₁ htypes haddress
      ((Value.size_simplify hS addr).trans hsize) henum
    obtain ⟨ns, hns, _, _⟩ := hvalues _ rfl
    obtain ⟨n, ns, rfl, rfl, rfl⟩ := List.map_eq_cons_iff.mp hns.symm
    obtain ⟨ptr, hptr, _⟩ := calculatePointer_sound hS n
    obtain ⟨⟨res, c'⟩, hloop⟩ := readLoop_ok (p := ⟨addr.simplify S, globalPage⟩) hS size ns
      (s₂.context.read S ptr size).1 (s₂.context.read S ptr size).2
    obtain ⟨vars, hfinal⟩ := readValues_of_readLoop 1
      (s := Symex.set { s₂ with context := (s₂.context.read S ptr size).2 } (dst.temp 0 1)
        (s₂.context.read S ptr size).1) hloop
    have haddresses := mapM_asUint64? (n :: ns)
    rw [List.map_cons] at haddresses
    refine ⟨_, by rw [hptr, Except.ok_bind, hfinal, Except.ok_bind, haddresses]; rfl, ?_⟩
    exact trivial
  · next s₂ henum =>
    rw [← valueToPointer_accepts hS hget hsort id hsort (fun _ _ => rfl) henum]
    obtain ⟨h₂, _⟩ := enumerateAddress_sized hS h₁ htypes haddress
      ((Value.size_simplify hS addr).trans hsize) henum
    have hpoints : ∀ r : Resolution, r.Points s₁ pathConstraints address (addr.simplify S) ↔
        r.Points s pathConstraints address addr :=
      fun r => r.points_congr hget haddr (fun _ => rfl) (fun _ => rfl) fun ν =>
        Value.eval_simplify hS ν addr
    constructor
    · rintro ⟨r, hr, hplace⟩
      simp only [Except.bind_eq_ok, Except.pure_eq_ok] at hr
      obtain ⟨ptr, hptr, _, _, rfl⟩ := hr
      exact ⟨ptr, hptr, (hpoints _).mpr hplace⟩
    · rintro ⟨ptr, hptr, hplace⟩
      obtain ⟨h₃, hptr₃⟩ := valueToPointer_sized hS h₂ htypes haddress hptr
      obtain ⟨s', hload⟩ := visitLoad_ok hS h₃ dst size hptr₃
      refine ⟨(ptr.1, s'), by rw [hptr, Except.ok_bind, hload]; rfl, (hpoints _).mp hplace⟩

/-- **Stores of the program**: which addresses are accepted. -/
theorem writeMemoryIntrinsic_accepts (hvalue : value.width types = some size) :
    (∃ r, writeMemoryIntrinsic S pathConstraints size address value s = .ok r ∧
        r.1.Points s pathConstraints address addr) ↔
      Accepts S pathConstraints (addr.simplifyUnder S pathConstraints s.context.checks).2
        (addr.simplifyUnder S pathConstraints s.context.checks).1 (addr.simplify S) := by
  have hsize : addr.size = 64 := h.operand haddress haddr
  have hsort : (addr.simplify S).term.sort = .bv 64 :=
    (Value.sort_simplify hS addr).trans (Term.sort_of_bits hsize (by decide))
  obtain ⟨hsort', heval'⟩ := Value.simplifyUnder_sound hS pathConstraints s.context.checks addr
  simp only [writeMemoryIntrinsic, haddr, Except.ok_bind]
  set addrSym := addr.simplifyUnder S pathConstraints s.context.checks with haddrSym
  have hsymSort : addrSym.1.term.sort = .bv 64 := hsort'.trans (Term.sort_of_bits hsize (by decide))
  have hsymSize : addrSym.1.size = 64 := by rw [Value.size, Term.bits, hsymSort]; rfl
  have h₁ := (h.withChecks addrSym.2).setOperand htypes haddress
    ((Value.size_simplify hS addr).trans hsize)
  have hget := Symex.get_setOperand_simplify (S := S) haddr { s with context.checks := addrSym.2 }
  set s₁ := Symex.setOperand { s with context.checks := addrSym.2 } address (addr.simplify S)
  have hchecks : addrSym.2 = s₁.context.checks := by rw [Symex.context_setOperand]
  have hassert : ∀ {s' : Symex} {val : Value}, s'.Sized types → s'.get value = .ok val → ∀ text,
      vexaAssert (val.size = size) text = .ok () := fun h' hval text => by
    rw [vexaAssert, if_pos (decide_eq_true (h'.operand hvalue hval))]
    rfl
  rw [hchecks]
  split
  · next values s₂ henum =>
    refine iff_of_true ?_ (accepts_of_enumerated henum)
    obtain ⟨h₂, hvalues⟩ := enumerateAddress_sized hS h₁ htypes haddress hsymSize henum
    obtain ⟨ns, rfl, _, _⟩ := hvalues _ rfl
    obtain ⟨val, hval, _⟩ := h₂.exists_get hvalue
    obtain ⟨c', hloop⟩ := writeLoop_ok (p := ⟨addrSym.1, globalPage⟩) hS val ns s₂.context
    rw [← writeValues_eq hS globalPage] at hloop
    refine ⟨_, by rw [hval, Except.ok_bind, hassert h₂ hval, Except.ok_bind, hloop, Except.ok_bind,
      mapM_asUint64?]; rfl, ?_⟩
    exact trivial
  · next s₂ henum =>
    have hconst : (addr.simplify S).isConcrete = true → addrSym.1.isConcrete = true := by
      intro hconcrete
      rw [haddrSym, Value.simplifyUnder, if_pos hconcrete]
      exact hconcrete
    rw [← valueToPointer_accepts hS hget hsort hconst hsymSort
      (fun ν hν => (heval' ν hν).trans (Value.eval_simplify hS ν addr).symm) henum]
    obtain ⟨h₂, _⟩ := enumerateAddress_sized hS h₁ htypes haddress hsymSize henum
    have hpoints : ∀ r : Resolution, r.Points s₁ pathConstraints address (addr.simplify S) ↔
        r.Points s pathConstraints address addr :=
      fun r => r.points_congr hget haddr (fun _ => rfl) (fun _ => rfl) fun ν =>
        Value.eval_simplify hS ν addr
    constructor
    · rintro ⟨r, hr, hplace⟩
      simp only [Except.bind_eq_ok, Except.pure_eq_ok] at hr
      obtain ⟨ptr, hptr, _, _, _, _, _, _, rfl⟩ := hr
      exact ⟨ptr, hptr, (hpoints _).mpr hplace⟩
    · rintro ⟨ptr, hptr, hplace⟩
      obtain ⟨h₃, hptr₃⟩ := valueToPointer_sized hS h₂ htypes haddress hptr
      obtain ⟨val, hval, _⟩ := h₃.exists_get hvalue
      obtain ⟨s', hstore⟩ := visitStore_ok hS h₃ hvalue hptr₃
      refine ⟨(ptr.1, s'), ?_, (hpoints _).mp hplace⟩
      rw [hptr, Except.ok_bind, hval, Except.ok_bind, hassert h₃ hval, Except.ok_bind, hstore]
      rfl

/-- **Which addresses the intrinsics accept.** They return, with a pointer that is where the address is,
if and only if the address is accepted. -/
theorem intrinsics_accept_iff :
    (∀ dst, (∃ r, readMemoryIntrinsic S pathConstraints dst size address s = .ok r ∧
        r.1.Points s pathConstraints address addr) ↔
      Accepts S pathConstraints s.context.checks (addr.simplify S) (addr.simplify S)) ∧
    (∀ value, value.width types = some size →
      ((∃ r, writeMemoryIntrinsic S pathConstraints size address value s = .ok r ∧
        r.1.Points s pathConstraints address addr) ↔
      Accepts S pathConstraints (addr.simplifyUnder S pathConstraints s.context.checks).2
        (addr.simplifyUnder S pathConstraints s.context.checks).1 (addr.simplify S))) :=
  ⟨fun dst => readMemoryIntrinsic_accepts hS h htypes haddress haddr dst size,
    fun _ hvalue => writeMemoryIntrinsic_accepts hS h htypes haddress haddr hvalue⟩

end

/-! ### An address nothing is known about -/

/-- The solver that finds one value after another. -/
def counting : Solver := .replaying ((List.range 60).map fun n _ => n)

theorem lowAddress_sized : lowAddress.Sized lowTypes := by
  refine ⟨fun name w hname => ?_, fun name hname _ => if_neg ?_, Context.ofBytes_wf _ _⟩
  · rw [lowTypes] at hname
    split at hname
    · next heq =>
      obtain rfl := Option.some.inj hname
      exact ⟨_, if_pos heq, rfl⟩
    · cases hname
  · rintro rfl
    exact hname rfl

/-- Twenty values are found and there are more, so `value_to_pointer` reads an address back from the
register. -/
theorem intrinsics_reject_register :
    counting.Sound ∧ lowAddress.Sized lowTypes ∧ (∃ ν, Satisfies ν []) ∧
    (∀ r, readMemoryIntrinsic counting [] (Name.lifted 0 1) 8 (.ssa (Name.lifted 0 0)) lowAddress
      ≠ .ok r) ∧
    ∀ r, writeMemoryIntrinsic counting [] 8 (.ssa (Name.lifted 0 0)) (.const 8 0) lowAddress ≠ .ok r := by
  have hread : readMemoryIntrinsic counting [] (Name.lifted 0 1) 8 (.ssa (Name.lifted 0 0)) lowAddress
      = .error "cannot concretize value" := rfl
  have hwrite : writeMemoryIntrinsic counting [] 8 (.ssa (Name.lifted 0 0)) (.const 8 0) lowAddress
      = .error "cannot concretize value" := rfl
  refine ⟨Solver.replaying_sound _, lowAddress_sized, ⟨fun _ => 0, satisfies_nil _⟩, ?_, ?_⟩
  · rw [hread]
    exact nofun
  · rw [hwrite]
    exact nofun

theorem intrinsics_accept_iff_register :
    (∀ dst, (∃ r, readMemoryIntrinsic counting [] dst 8 (.ssa (Name.lifted 0 0)) lowAddress = .ok r ∧
        r.1.Points lowAddress [] (.ssa (Name.lifted 0 0)) (.symbolic ⟨.read, 0, 64⟩)) ↔
      Accepts counting [] 0 (Value.simplify counting (.symbolic ⟨.read, 0, 64⟩))
        (Value.simplify counting (.symbolic ⟨.read, 0, 64⟩))) ∧
    (∀ value, value.width lowTypes = some 8 →
      ((∃ r, writeMemoryIntrinsic counting [] 8 (.ssa (Name.lifted 0 0)) value lowAddress = .ok r ∧
        r.1.Points lowAddress [] (.ssa (Name.lifted 0 0)) (.symbolic ⟨.read, 0, 64⟩)) ↔
      Accepts counting [] (Value.simplifyUnder counting [] 0 (.symbolic ⟨.read, 0, 64⟩)).2
        (Value.simplifyUnder counting [] 0 (.symbolic ⟨.read, 0, 64⟩)).1
        (Value.simplify counting (.symbolic ⟨.read, 0, 64⟩)))) :=
  intrinsics_accept_iff (Solver.replaying_sound _) lowAddress_sized lowTypes_lifted rfl rfl

end Vexa
