import Vexa.LlvmBlock

/-!
# The emulator agrees with LLVM

One lemma for each kind of instruction and then the run. Under any valuation the object of a name
denotes its value, an integer as a term of its width and a pointer as a page with a term for the offset,
and memory denotes its bytes.

There are four ways out. A store counts its bytes in a `uint8_t`. A constant is read through
`getZExtValue`. A comparison of pointers compares the offsets and not the pages, and a select between
pointers makes a value without a page.

## Main definitions

* `LlvmSymex.Denotes` — the symbolic state denotes a state of LLVM
* `LlvmSymex.Agrees` — names, and the bytes that `memory::read` returns
* `LlvmInst.Meets`, `Meets` — the steps at which the emulator follows LLVM

## Main results

* `simulates` — one instruction
* `icmp_pointers_iff`, `select_pointers` — what becomes of pointers
* `exists_blockRun` — the emulator reaches the end
* `runBlock_agrees` — a block
-/

namespace Vexa

open LittleEndian

variable {N : Type} {S : Solver} {pathConstraints : List Term} {ν : Valuation} {σ : Bytes}
  {layout : PageId → Addr} {w : ℕ}

/-! ### Operators -/

theorem smtSDiv_of_ne_zero (x : BitVec w) {y : BitVec w} (hy : ¬ y = 0) :
    x.smtSDiv y = x.sdiv y := by
  have hneg : ¬ -y = 0 := fun hc => hy (by
    rw [← BitVec.neg_neg (x := y), hc]
    exact BitVec.neg_zero w)
  have hdiv : ∀ {y' : BitVec w} (x' : BitVec w), ¬ y' = 0 → x'.smtUDiv y' = x'.udiv y' :=
    fun x' hy => if_neg hy
  rw [BitVec.smtSDiv, BitVec.sdiv]
  cases x.msb <;> cases y.msb
  · exact hdiv x hy
  · exact congrArg BitVec.neg (hdiv x hneg)
  · exact congrArg BitVec.neg (hdiv (-x) hy)
  · exact hdiv (-x) hneg

/-- Where LLVM's operator has a result, the solver's has the same. -/
theorem Opcode.eval_of_exec {op : Opcode} {x y z : BitVec w} (h : op.exec x y = some z) :
    op.eval w x.toNat y.toNat = z.toNat := by
  cases op with
  | add | sub | mul | and | or | xor =>
    obtain rfl := Option.some.inj h
    simp [Opcode.eval]
  | udiv =>
    simp only [Opcode.exec, Option.ite_none_left_eq_some, Option.some.injEq] at h
    obtain ⟨hy, rfl⟩ := h
    simp only [Opcode.eval, BitVec.ofNat_toNat, BitVec.setWidth_eq]
    rw [BitVec.smtUDiv, if_neg hy]
    rfl
  | urem =>
    simp only [Opcode.exec, Option.ite_none_left_eq_some, Option.some.injEq] at h
    obtain ⟨_, rfl⟩ := h
    simp [Opcode.eval]
  | sdiv =>
    simp only [Opcode.exec, Option.ite_none_left_eq_some, Option.some.injEq, not_or] at h
    obtain ⟨⟨hy, _⟩, rfl⟩ := h
    simp only [Opcode.eval, BitVec.ofNat_toNat, BitVec.setWidth_eq, smtSDiv_of_ne_zero x hy]
  | srem =>
    simp only [Opcode.exec, Option.ite_none_left_eq_some, Option.some.injEq, not_or] at h
    obtain ⟨_, rfl⟩ := h
    simp [Opcode.eval]
  | shl | lshr | ashr =>
    simp only [Opcode.exec, Option.ite_none_right_eq_some, Option.some.injEq] at h
    obtain ⟨_, rfl⟩ := h
    simp [Opcode.eval]

/-- Equality of pointers into one page is equality of their offsets. -/
theorem Predicate.eval_add (base x y : Addr) {p : Predicate} (hp : p = .eq ∨ p = .ne) :
    p.eval 64 x.toNat y.toNat = p.eval 64 (base + x).toNat (base + y).toNat := by
  rcases hp with rfl | rfl <;>
    simp only [Predicate.eval, BitVec.ofNat_toNat, BitVec.setWidth_eq, ne_eq, BitVec.add_right_inj]

theorem Scalar.asInt_eq_some {x : Scalar} {z : BitVec w} :
    x.asInt w = some z ↔ x = .int w z := by
  cases x with
  | ptr page offset => exact ⟨nofun, nofun⟩
  | int v y =>
    rw [asInt]
    constructor
    · intro h
      split at h
      · next hv =>
        subst hv
        rw [← Option.some.inj h, BitVec.setWidth_eq]
      · cases h
    · intro h
      obtain ⟨rfl, h⟩ := Scalar.int.inj h
      rw [if_pos rfl, BitVec.setWidth_eq, eq_of_heq h]

theorem Operand.int_eq_some {env : N → Option Scalar} {a : Operand N} {z : BitVec w}
    (h : a.int env w = some z) : a.scalar env = some (.int w z) := by
  obtain ⟨x, hx, hz⟩ := Option.bind_eq_some_iff.mp h
  rw [hx, Scalar.asInt_eq_some.mp hz]

theorem LlvmState.place_eq_some {t : LlvmState N} {ptr : N} {place : PageId × Addr}
    (h : t.place ptr = some place) : t.env ptr = some (.ptr place.1 place.2) := by
  obtain ⟨x, hx, hp⟩ := Option.bind_eq_some_iff.mp h
  cases x with
  | int w z => cases hp
  | ptr page offset =>
    obtain rfl := Option.some.inj hp
    exact hx

/-! ### Denotation -/

/-- The object denotes the value. -/
def Object.Denotes (ν : Valuation) (o : Object) : Scalar → Prop
  | .int w x => o.toValue.term.sort = .bv w ∧ o.toValue.eval ν = x.toNat
  | .ptr page offset =>
    ∃ p, o = .pointer p ∧ p.page = page ∧ p.term.sort = .bv 64 ∧ p.eval ν = offset.toNat

/-- The objects of the names and the symbolic memory denote the state `t`. -/
structure LlvmSymex.Denotes (ν : Valuation) (σ : Bytes) (s : LlvmSymex N) (t : LlvmState N) :
    Prop where
  vars : ∀ name x, t.env name = some x → ∃ o, s.vars name = some o ∧ o.Denotes ν x
  context : s.context.Denotes ν σ t.mem
  pages : s.pages = t.pages

/-- Every name has the value its object denotes, and every byte is what `memory::read` returns for
it. -/
structure LlvmSymex.Agrees (S : Solver) (ν : Valuation) (s : LlvmSymex N) (t : LlvmState N) :
    Prop where
  names : ∀ name x, t.env name = some x → ∃ o, s.vars name = some o ∧ o.Denotes ν x
  bytes : ∀ page a, (s.context.read S (.concrete a page) 8).1.size = 8 ∧
    (s.context.read S (.concrete a page) 8).1.eval ν = (t.mem page a).toNat

/-- A constant that fits 64 bits. -/
def Operand.Short : Operand N → Prop
  | const w n => n % 2 ^ w < 2 ^ 64
  | ssa _ => True

/-- The steps at which the emulator follows LLVM. -/
def LlvmInst.Meets (layout : PageId → Addr) (t : LlvmState N) : LlvmInst N → Prop
  | binary _ _ _ a b => a.Short ∧ b.Short
  | icmp _ p a b => (a.Short ∧ b.Short) ∧
    ∀ q x r y, a.scalar t.env = some (.ptr q x) → b.scalar t.env = some (.ptr r y) →
      p.eval 64 x.toNat y.toNat = p.eval 64 (layout q + x).toNat (layout r + y).toNat
  | cast _ _ _ _ a | freeze _ a => a.Short
  | select _ c a b => (c.Short ∧ a.Short ∧ b.Short) ∧ ∀ q x, a.scalar t.env ≠ some (.ptr q x)
  | store a _ => a.Short ∧ ∀ v x, a.scalar t.env = some (.int v x) → v < 2048
  | alloca .. | getElementPtr .. | load .. => True

/-- Every step of LLVM's execution is one of these. -/
def Meets [DecidableEq N] (layout : PageId → Addr) (σ : Bytes) :
    List (LlvmInst N) → LlvmState N → Prop
  | [], _ => True
  | i :: insts, t =>
    i.Meets layout t ∧ ∀ t', i.exec layout σ t = some t' → Meets layout σ insts t'

variable {s s' : LlvmSymex N} {t t' : LlvmState N}

theorem LlvmSymex.get_of_vars {name : N} {o : Object} (h : s.vars name = some o) :
    s.get (.ssa name) = .ok o := by
  rw [get, h]
  rfl

namespace LlvmSymex.Denotes

theorem operand (h : s.Denotes ν σ t) {a : Operand N} (ha : a.Short) {x : Scalar}
    (hx : a.scalar t.env = some x) : ∃ o, s.get a = .ok o ∧ o.Denotes ν x := by
  cases a with
  | const v n =>
    obtain rfl := Option.some.inj hx
    refine ⟨_, rfl, rfl, ?_⟩
    have hlt : n % 2 ^ v < 2 ^ 64 := ha
    show (Value.concrete (n % 2 ^ v % 2 ^ 64) v).eval ν = _
    rw [Value.eval_concrete, Nat.mod_eq_of_lt hlt, Nat.mod_mod, BitVec.toNat_ofNat]
  | ssa name =>
    obtain ⟨o, ho, hden⟩ := h.vars name x hx
    exact ⟨o, get_of_vars ho, hden⟩

theorem int (h : s.Denotes ν σ t) {a : Operand N} (ha : a.Short) {x : BitVec w}
    (hx : a.int t.env w = some x) :
    ∃ o, s.get a = .ok o ∧ o.toValue.term.sort = .bv w ∧ o.toValue.eval ν = x.toNat :=
  h.operand ha (Operand.int_eq_some hx)

theorem pointer (h : s.Denotes ν σ t) {ptr : N} {place : PageId × Addr}
    (hptr : t.place ptr = some place) : ∃ p, s.vars ptr = some (.pointer p) ∧
      p.page = place.1 ∧ p.term.sort = .bv 64 ∧ p.eval ν = place.2.toNat := by
  obtain ⟨o, ho, p, rfl, hp⟩ := h.vars ptr _ (LlvmState.place_eq_some hptr)
  exact ⟨p, ho, hp⟩

/-- A new result. -/
theorem set [DecidableEq N] (h : s.Denotes ν σ t) (dst : N) {o : Object} {x : Scalar}
    (ho : o.Denotes ν x) : (s.set dst o).Denotes ν σ (t.set dst x) := by
  refine ⟨fun name y hy => ?_, h.context, h.pages⟩
  have henv : Function.update t.env dst (some x) name = some y := hy
  by_cases hname : name = dst
  · subst hname
    rw [Function.update_self] at henv
    obtain rfl := Option.some.inj henv
    exact ⟨o, Function.update_self .., ho⟩
  · rw [Function.update_of_ne hname] at henv
    obtain ⟨o', ho', hden⟩ := h.vars name y henv
    exact ⟨o', (Function.update_of_ne hname ..).trans ho', hden⟩

/-- Another memory. -/
theorem withContext (h : s.Denotes ν σ t) {c : Context} {m : Bytes} (hc : c.Denotes ν σ m) :
    LlvmSymex.Denotes ν σ { s with context := c } { t with mem := m } := ⟨h.vars, hc, h.pages⟩

/-- A page nobody has written. -/
theorem allocate (h : s.Denotes ν σ t) : s.allocate.Denotes ν σ (t.allocate σ) := by
  have hpages := h.pages
  refine ⟨h.vars, ⟨?_, ?_⟩, congrArg Nat.succ hpages⟩
  · funext p a
    show Memory.denote ν σ (Function.update s.context.memory s.pages MemPage.empty) p a
      = Function.update t.mem t.pages (σ t.pages) p a
    by_cases hp : p = t.pages
    · subst hp
      simp [Memory.denote, hpages]
    · rw [Function.update_of_ne hp, ← h.context.mem, Memory.denote, Memory.denote,
        Function.update_of_ne (hpages ▸ hp)]
  · intro k p a cell hcell
    have hfind : (Function.update s.context.memory s.pages MemPage.empty p).find a = some cell :=
      hcell
    by_cases hp : p = s.pages
    · subst hp
      rw [Function.update_self, MemPage.find_empty] at hfind
      cases hfind
    · rw [Function.update_of_ne hp] at hfind
      exact h.context.wf k p a cell hfind

/-- Objects rewritten in place denote what they did. -/
theorem rewritten (hS : S.Sound) (h : s.Denotes ν σ t) (hr : s.Rewritten S s') :
    s'.Denotes ν σ t := by
  refine ⟨fun name x hx => ?_, ⟨?_, ?_⟩, hr.pages.trans h.pages⟩
  · obtain ⟨o, ho, hden⟩ := h.vars name x hx
    rcases hr.vars name with hvar | hvar
    · exact ⟨o, hvar.trans ho, hden⟩
    · refine ⟨o.simplify S, by rw [hvar, ho]; rfl, ?_⟩
      cases x with
      | int w y =>
        obtain ⟨hsort, heval⟩ := hden
        cases o with
        | value v =>
          exact ⟨(Value.sort_simplify hS v).trans hsort, (Value.eval_simplify hS ν v).trans heval⟩
        | pointer p =>
          exact ⟨(Value.sort_simplify hS p.toValue).trans hsort,
            (Value.eval_simplify hS ν p.toValue).trans heval⟩
      | ptr page offset =>
        obtain ⟨p, rfl, hpage, hsort, heval⟩ := hden
        exact ⟨p.simplify S, rfl, hpage, (Value.sort_simplify hS p.toValue).trans hsort,
          (Value.eval_simplify hS ν p.toValue).trans heval⟩
  · rw [← h.context.mem]
    funext p a
    rw [Memory.denote, Memory.denote]
    rcases hr.cells p a with hcell | hcell
    · rw [hcell]
    · rw [hcell]
      cases (s.context.memory p).find a with
      | none => rfl
      | some cell =>
        show LittleEndian.byte ((cell.originalVal.simplify S).eval ν) cell.whichByte = _
        rw [Value.eval_simplify hS]
        rfl
  · intro k p a cell hfind
    rcases hr.cells p a with hcell | hcell
    · exact h.context.wf k p a cell (hcell.symm.trans hfind)
    · rw [hcell] at hfind
      obtain ⟨cell', hcell', rfl⟩ := Option.map_eq_some_iff.mp hfind
      intro hk
      obtain ⟨hlt, hsize⟩ := h.context.wf k p a cell' hcell' hk
      exact ⟨hlt, (Value.size_simplify hS _).trans hsize⟩

theorem agrees (hσ : UnwrittenFrom ν σ s.context.fresh) (h : s.Denotes ν σ t) :
    s.Agrees S ν t := by
  refine ⟨h.vars, fun page a => ?_⟩
  obtain ⟨_, hsort, heval⟩ := h.context.read (S := S) (k := 1) hσ
    (Pointer.asUint64_simplify_concrete S a page) Nat.one_pos
  refine ⟨by rw [Value.size, Term.bits, hsort]; rfl, heval.trans ?_⟩
  simp [Bytes.load, ByteMemory.load]

end LlvmSymex.Denotes

/-! ### Instructions -/

variable [DecidableEq N]

/-- What one instruction must do: the visitor goes on, and its state denotes what LLVM's is. -/
def Simulates (S : Solver) (pathConstraints : List Term) (ν : Valuation) (σ : Bytes)
    (i : LlvmInst N) (s : LlvmSymex N) (t' : LlvmState N) : Prop :=
  ∃ s', i.visit S pathConstraints s = .ok s' ∧ s.context.fresh ≤ s'.context.fresh ∧
    s'.Denotes ν σ t'

/-- An instruction that only has a result. -/
theorem Simulates.of_set (h : s.Denotes ν σ t) {i : LlvmInst N} {dst : N} {x : Scalar} (o : Object)
    (hvisit : i.visit S pathConstraints s = .ok (s.set dst o)) (ho : o.Denotes ν x) :
    Simulates S pathConstraints ν σ i s (t.set dst x) :=
  ⟨s.set dst o, hvisit, Nat.le_refl _, h.set dst ho⟩

theorem simulates_binary (h : s.Denotes ν σ t) {dst : N} {op : Opcode} {a b : Operand N}
    (hmeets : (LlvmInst.binary dst op w a b).Meets layout t)
    (hexec : (LlvmInst.binary dst op w a b).exec layout σ t = some t') :
    Simulates S pathConstraints ν σ (.binary dst op w a b) s t' := by
  simp only [LlvmInst.exec, Option.bind_eq_bind, Option.bind_eq_some_iff, Option.pure_def,
    Option.some.injEq] at hexec
  obtain ⟨x, hx, y, hy, z, hz, rfl⟩ := hexec
  obtain ⟨o, ho, hsort, heval⟩ := h.int hmeets.1 hx
  obtain ⟨o', ho', hsort', heval'⟩ := h.int hmeets.2 hy
  refine .of_set h (.value (o.toValue.binary op.kind o'.toValue)) ?_ ⟨?_, ?_⟩
  · rw [LlvmInst.visit, ho, ho']
    rfl
  · show op.kind.sort o.toValue.term.sort o'.toValue.term.sort = .bv w
    rw [Opcode.sort_kind, hsort]
    rfl
  · have hbits : o.toValue.term.bits = w ∧ o'.toValue.term.bits = w := by
      rw [Term.bits, Term.bits, hsort, hsort']
      exact ⟨rfl, rfl⟩
    show op.kind.eval o.toValue.term.bits o'.toValue.term.bits (o.toValue.eval ν)
      (o'.toValue.eval ν) = z.toNat
    rw [hbits.1, hbits.2, heval, heval', Opcode.eval_kind op w w _ _ rfl, Opcode.eval_of_exec hz]

/-- Comparing two terms of one width, as the bit `visitICmpInst` makes of it. -/
theorem eval_comparison {v v' : Value} {x y : BitVec w} (p : Predicate)
    (hsort : v.term.sort = .bv w) (hsort' : v'.term.sort = .bv w) (heval : v.eval ν = x.toNat)
    (heval' : v'.eval ν = y.toNat) :
    (Value.ofTerm (.ite (v.binary p.kind v').term (.value 1 1) (.value 1 0))).eval ν
      = (BitVec.ofBool (p.eval w x.toNat y.toNat)).toNat := by
  have hbits : v.term.bits = w ∧ v'.term.bits = w := by
    rw [Term.bits, Term.bits, hsort, hsort']
    exact ⟨rfl, rfl⟩
  have hcmp : (v.binary p.kind v').term.eval ν = (p.eval w x.toNat y.toNat).toNat := by
    show p.kind.eval v.term.bits v'.term.bits (v.eval ν) (v'.eval ν) = _
    rw [hbits.1, hbits.2, heval, heval', Predicate.eval_kind p x.isLt y.isLt]
  show (if (v.binary p.kind v').term.eval ν = 0 then 0 % 2 ^ 1 % 2 ^ 1 else 1 % 2 ^ 1) = _
  rw [hcmp]
  cases p.eval w x.toNat y.toNat <;> rfl

/-- The object `visitICmpInst` makes. -/
theorem visit_icmp {dst : N} {p : Predicate} {a b : Operand N} {o o' : Object}
    (ho : s.get a = .ok o) (ho' : s.get b = .ok o') :
    (LlvmInst.icmp dst p a b).visit S pathConstraints s = .ok (s.set dst (.value (.ofTerm
      (.ite (o.toValue.binary p.kind o'.toValue).term (.value 1 1) (.value 1 0))))) := by
  rw [LlvmInst.visit, ho, ho']
  rfl

theorem simulates_icmp (h : s.Denotes ν σ t) {dst : N} {p : Predicate} {a b : Operand N}
    (hmeets : (LlvmInst.icmp dst p a b).Meets layout t)
    (hexec : (LlvmInst.icmp dst p a b).exec layout σ t = some t') :
    Simulates S pathConstraints ν σ (.icmp dst p a b) s t' := by
  simp only [LlvmInst.exec, Option.bind_eq_bind, Option.bind_eq_some_iff, Option.pure_def,
    Option.some.injEq] at hexec
  obtain ⟨x, hx, y, hy, c, hc, rfl⟩ := hexec
  obtain ⟨⟨ha, hb⟩, hptr⟩ := hmeets
  obtain ⟨o, ho, hden⟩ := h.operand ha hx
  obtain ⟨o', ho', hden'⟩ := h.operand hb hy
  refine .of_set h _ (visit_icmp ho ho') ⟨rfl, ?_⟩
  cases x with
  | int w x =>
    cases y with
    | ptr r y => cases hc
    | int v y =>
      rw [Scalar.compare, Option.ite_none_right_eq_some] at hc
      obtain ⟨rfl, hc⟩ := hc
      obtain rfl := Option.some.inj hc
      exact eval_comparison p hden.1 hden'.1 hden.2 hden'.2
  | ptr q x =>
    cases y with
    | int v y => cases hc
    | ptr r y =>
      obtain ⟨u, rfl, _, hsort, heval⟩ := hden
      obtain ⟨u', rfl, _, hsort', heval'⟩ := hden'
      obtain rfl := Option.some.inj hc
      rw [← hptr q x r y hx hy]
      exact eval_comparison p hsort hsort' heval heval'

/-- For pointers this is the only way to follow LLVM. -/
theorem icmp_pointers_iff (h : s.Denotes ν σ t) {dst : N} {p : Predicate} {a b : Operand N}
    {q r : PageId} {x y : Addr} (ha : a.scalar t.env = some (.ptr q x))
    (hb : b.scalar t.env = some (.ptr r y))
    (hexec : (LlvmInst.icmp dst p a b).exec layout σ t = some t') :
    Simulates S pathConstraints ν σ (.icmp dst p a b) s t' ↔
      p.eval 64 x.toNat y.toNat = p.eval 64 (layout q + x).toNat (layout r + y).toNat := by
  have hshort : a.Short ∧ b.Short := by
    constructor
    · cases a with
      | const w n => cases ha
      | ssa name => trivial
    · cases b with
      | const w n => cases hb
      | ssa name => trivial
  constructor
  · rintro ⟨s', hvisit, _, hden⟩
    obtain ⟨o, ho, u, rfl, _, hsort, heval⟩ := h.operand hshort.1 ha
    obtain ⟨o', ho', u', rfl, _, hsort', heval'⟩ := h.operand hshort.2 hb
    obtain rfl := Except.ok.inj ((visit_icmp ho ho').symm.trans hvisit)
    simp only [LlvmInst.exec, ha, hb, Option.bind_eq_bind, Option.bind_some, Scalar.compare,
      Option.pure_def, Option.some.injEq] at hexec
    subst hexec
    obtain ⟨o'', ho'', _, hresult⟩ := hden.vars dst _ (Function.update_self ..)
    obtain rfl := Option.some.inj ((s.vars_set_self dst _).symm.trans ho'')
    have hbit := (eval_comparison p hsort hsort' heval heval').symm.trans hresult
    revert hbit
    cases p.eval 64 x.toNat y.toNat <;>
      cases p.eval 64 (layout q + x).toNat (layout r + y).toNat <;> decide
  · intro hcmp
    refine simulates_icmp h ⟨hshort, fun q' x' r' y' hx hy => ?_⟩ hexec
    obtain ⟨rfl, rfl⟩ := Scalar.ptr.inj (Option.some.inj (ha.symm.trans hx))
    obtain ⟨rfl, rfl⟩ := Scalar.ptr.inj (Option.some.inj (hb.symm.trans hy))
    exact hcmp

/-- Pointers into one page may be compared for equality. -/
theorem icmp_one_page (h : s.Denotes ν σ t) {dst : N} {p : Predicate} (hp : p = .eq ∨ p = .ne)
    {a b : Operand N} {q : PageId} {x y : Addr} (ha : a.scalar t.env = some (.ptr q x))
    (hb : b.scalar t.env = some (.ptr q y))
    (hexec : (LlvmInst.icmp dst p a b).exec layout σ t = some t') :
    Simulates S pathConstraints ν σ (.icmp dst p a b) s t' :=
  (icmp_pointers_iff h ha hb hexec).mpr (Predicate.eval_add _ _ _ hp)

theorem simulates_cast (h : s.Denotes ν σ t) {dst : N} {op : CastOp} {src : ℕ} {a : Operand N}
    (hmeets : (LlvmInst.cast dst op src w a).Meets layout t)
    (hexec : (LlvmInst.cast dst op src w a).exec layout σ t = some t') :
    Simulates S pathConstraints ν σ (.cast dst op src w a) s t' := by
  simp only [LlvmInst.exec, Option.bind_eq_bind, Option.bind_eq_some_iff, Option.pure_def,
    Option.some.injEq] at hexec
  obtain ⟨x, hx, z, hz, rfl⟩ := hexec
  obtain ⟨o, ho, hsort, heval⟩ := h.int hmeets hx
  have hsize : o.toValue.size = src := by
    rw [Value.size, Term.bits, hsort]
    rfl
  have hbits : o.toValue.term.bits = src := hsize
  have hassert : vexaAssert (o.toValue.size = src)
      "src->size() == I.getSrcTy()->getPrimitiveSizeInBits()" = .ok () := by
    rw [vexaAssert, if_pos (by simpa using hsize)]
    rfl
  cases op with
  | zext =>
    rw [CastOp.exec, Option.ite_none_right_eq_some] at hz
    obtain ⟨hlt, hz⟩ := hz
    obtain rfl := Option.some.inj hz
    refine .of_set h (.value (o.toValue.zext (w - o.toValue.size))) ?_ ⟨?_, ?_⟩
    · simp only [LlvmInst.visit, ho, Except.ok_bind, hassert]
      rfl
    · show TermSort.bv (o.toValue.term.bits + (w - o.toValue.size)) = .bv w
      rw [hbits, hsize, Nat.add_sub_cancel' hlt.le]
    · show o.toValue.eval ν = (x.setWidth w).toNat
      rw [heval, BitVec.toNat_setWidth_of_le hlt.le]
  | sext =>
    rw [CastOp.exec, Option.ite_none_right_eq_some] at hz
    obtain ⟨hlt, hz⟩ := hz
    obtain rfl := Option.some.inj hz
    have hwidth : src + (w - src) = w := Nat.add_sub_cancel' hlt.le
    refine .of_set h (.value (o.toValue.sext (w - o.toValue.size))) ?_ ⟨?_, ?_⟩
    · simp only [LlvmInst.visit, ho, Except.ok_bind, hassert]
      rfl
    · show TermSort.bv (o.toValue.term.bits + (w - o.toValue.size)) = .bv w
      rw [hbits, hsize, hwidth]
    · show ((BitVec.ofNat o.toValue.term.bits (o.toValue.eval ν)).signExtend
        (o.toValue.term.bits + (w - o.toValue.size))).toNat = _
      rw [heval, hsize, hbits, hwidth, BitVec.ofNat_toNat, BitVec.setWidth_eq]
  | trunc =>
    rw [CastOp.exec, Option.ite_none_right_eq_some] at hz
    obtain ⟨⟨hpos, hlt⟩, hz⟩ := hz
    obtain rfl := Option.some.inj hz
    have hwidth : w - 1 + 1 - 0 = w := by omega
    refine .of_set h (.value (o.toValue.extract (w - 1) 0)) ?_ ⟨?_, ?_⟩
    · simp only [LlvmInst.visit, ho, Except.ok_bind, hassert]
      rfl
    · show TermSort.bv (w - 1 + 1 - 0) = .bv w
      rw [hwidth]
    · show (o.toValue.extract (w - 1) 0).eval ν = (x.setWidth w).toNat
      rw [Value.eval_extract, heval, hwidth, pow_zero, Nat.div_one, BitVec.toNat_setWidth]

theorem simulates_select (h : s.Denotes ν σ t) {dst : N} {c a b : Operand N}
    (hmeets : (LlvmInst.select dst c a b).Meets layout t)
    (hexec : (LlvmInst.select dst c a b).exec layout σ t = some t') :
    Simulates S pathConstraints ν σ (.select dst c a b) s t' := by
  simp only [LlvmInst.exec, Option.bind_eq_bind, Option.bind_eq_some_iff, Option.pure_def,
    Option.ite_none_right_eq_some, Option.some.injEq] at hexec
  obtain ⟨bit, hbit, x, hx, y, hy, htype, rfl⟩ := hexec
  obtain ⟨⟨hc, ha, hb⟩, hint⟩ := hmeets
  obtain ⟨oc, hoc, hsort, heval⟩ := h.int hc hbit
  obtain ⟨o, ho, hden⟩ := h.operand ha hx
  obtain ⟨o', ho', hden'⟩ := h.operand hb hy
  refine .of_set h (.value (oc.toValue.ite o.toValue o'.toValue))
    (by rw [LlvmInst.visit, hoc, ho, ho']; rfl) ?_
  cases x with
  | ptr q x => exact absurd hx (hint q x)
  | int w x =>
    cases y with
    | ptr r y => cases htype
    | int v y =>
      obtain rfl : w = v := LlvmType.int.inj htype
      have hsize : o.toValue.size = o'.toValue.size := by
        rw [Value.size, Value.size, Term.bits, Term.bits, hden.1, hden'.1]
      have hbitOne : oc.toValue.eval ν = 1 ↔ bit = 1 := by
        rw [heval, BitVec.toNat_eq]
        rfl
      have hchoice : (oc.toValue.ite o.toValue o'.toValue).eval ν
          = if bit = 1 then x.toNat else y.toNat := by
        rw [Value.eval_ite ν oc.toValue hsize]
        simp only [Value.holds_of_sort hsort, hbitOne, hden.2, hden'.2]
      split
      · next hone =>
        rw [if_pos hone] at hchoice
        exact ⟨hden.1, hchoice⟩
      · next hzero =>
        rw [if_neg hzero] at hchoice
        exact ⟨hden.1, hchoice⟩

/-- A select between pointers never follows LLVM: its result has no page. -/
theorem select_pointers {dst : N} {c a b : Operand N} {q : PageId} {x : Addr}
    (ha : a.scalar t.env = some (.ptr q x))
    (hexec : (LlvmInst.select dst c a b).exec layout σ t = some t') :
    ¬ Simulates S pathConstraints ν σ (.select dst c a b) s t' := by
  rintro ⟨s', hvisit, _, hden⟩
  simp only [LlvmInst.exec, Option.bind_eq_bind, Option.bind_eq_some_iff, Option.pure_def,
    Option.ite_none_right_eq_some, Option.some.injEq] at hexec
  obtain ⟨bit, _, x', hx, y, _, htype, rfl⟩ := hexec
  obtain rfl := Option.some.inj (ha.symm.trans hx)
  have hptr : ∃ r z, (if bit = 1 then Scalar.ptr q x else y) = .ptr r z := by
    split
    · exact ⟨q, x, rfl⟩
    · cases y with
      | int v y => cases htype
      | ptr r y => exact ⟨r, y, rfl⟩
  obtain ⟨r, z, hptr⟩ := hptr
  simp only [LlvmInst.visit, Except.bind_eq_ok, Except.pure_eq_ok] at hvisit
  obtain ⟨_, _, _, _, _, _, rfl⟩ := hvisit
  obtain ⟨o, ho, hresult⟩ := hden.vars dst _ (Function.update_self ..)
  obtain rfl := Option.some.inj ((s.vars_set_self dst _).symm.trans ho)
  rw [hptr] at hresult
  obtain ⟨p, hp, _⟩ := hresult
  cases hp

theorem simulates_freeze (h : s.Denotes ν σ t) {dst : N} {a : Operand N}
    (hmeets : (LlvmInst.freeze dst a).Meets layout t)
    (hexec : (LlvmInst.freeze dst a).exec layout σ t = some t') :
    Simulates S pathConstraints ν σ (.freeze dst a) s t' := by
  simp only [LlvmInst.exec, Option.bind_eq_bind, Option.bind_eq_some_iff, Option.pure_def,
    Option.some.injEq] at hexec
  obtain ⟨x, hx, rfl⟩ := hexec
  obtain ⟨o, ho, hden⟩ := h.operand hmeets hx
  exact .of_set h o (by rw [LlvmInst.visit, ho]; rfl) hden

theorem simulates_alloca (h : s.Denotes ν σ t) {dst : N} {size : ℕ}
    (hexec : (LlvmInst.alloca dst size).exec layout σ t = some t') :
    Simulates S pathConstraints ν σ (.alloca dst size) s t' := by
  obtain rfl := Option.some.inj hexec
  refine ⟨_, rfl, Nat.le_refl _, h.allocate.set dst ?_⟩
  exact ⟨.concrete 0 s.pages, rfl, h.pages, rfl, rfl⟩

theorem simulates_getElementPtr (h : s.Denotes ν σ t) {dst ptr : N} {offset : Addr}
    (hexec : (LlvmInst.getElementPtr dst ptr offset).exec layout σ t = some t') :
    Simulates S pathConstraints ν σ (.getElementPtr dst ptr offset) s t' := by
  simp only [LlvmInst.exec, Option.bind_eq_bind, Option.bind_eq_some_iff, Option.pure_def,
    Option.some.injEq] at hexec
  obtain ⟨place, hplace, rfl⟩ := hexec
  obtain ⟨p, hp, hpage, hsort, heval⟩ := h.pointer hplace
  have hbits : p.term.bits = 64 := by
    rw [Term.bits, hsort]
    rfl
  refine .of_set h (.pointer (gep p offset)) ?_ ?_
  · rw [LlvmInst.visit, LlvmSymex.get_of_vars hp]
    rfl
  · refine ⟨gep p offset, rfl, hpage, ?_, ?_⟩
    · show TermSort.bv p.term.bits = .bv 64
      rw [hbits]
    · show (BitVec.ofNat p.term.bits (p.eval ν) + BitVec.ofNat p.term.bits
        (offset.toNat % 2 ^ 64 % 2 ^ 64)).toNat = _
      rw [hbits, heval]
      simp

/-- The pointer of a load or a store is a literal once it has been rewritten. -/
theorem LlvmSymex.Denotes.base (hS : S.Sound) {p : Pointer} (hsort : p.term.sort = .bv 64)
    {offset : Addr} (heval : p.eval ν = offset.toNat)
    (hconcrete : ((p.simplify S).asUint64).isSome) : (p.simplify S).asUint64 = some offset := by
  obtain ⟨a, ha⟩ := Option.isSome_iff_exists.mp hconcrete
  have hvalue := Value.isConcrete_of_asUint64 ha
  have hsort' : (p.toValue.simplify S).term.sort = .bv 64 :=
    (Value.sort_simplify hS p.toValue).trans hsort
  have hlit := Term.asUint64_of_isValue hvalue hsort' ν
  refine hlit.trans (congrArg some ?_)
  show BitVec.ofNat 64 ((p.toValue.simplify S).eval ν) = offset
  rw [Value.eval_simplify hS, show p.toValue.eval ν = offset.toNat from heval, BitVec.ofNat_toNat,
    BitVec.setWidth_eq]

theorem simulates_load (hS : S.Sound) (hσ : UnwrittenFrom ν σ s.context.fresh)
    (h : s.Denotes ν σ t) {dst ptr : N}
    (hconcrete : (LlvmInst.load dst w ptr).ThroughConcrete S s)
    (hexec : (LlvmInst.load dst w ptr).exec layout σ t = some t') :
    Simulates S pathConstraints ν σ (.load dst w ptr) s t' := by
  simp only [LlvmInst.exec, Option.bind_eq_bind, Option.bind_eq_some_iff, Option.pure_def,
    Option.ite_none_right_eq_some, Option.some.injEq] at hexec
  obtain ⟨place, hplace, ⟨hpos, hbytes⟩, rfl⟩ := hexec
  obtain ⟨p, hp, hpage, hsort, heval⟩ := h.pointer hplace
  have hbase := LlvmSymex.Denotes.base hS hsort heval (hconcrete p hp)
  have hbase' : ((p.simplify S).simplify S).asUint64 = some place.2 := by
    rw [Pointer.simplify_simplify]
    exact hbase
  have hwidth : (w + 7) / 8 * 8 = 8 * (w / 8) ∧ 8 * (w / 8) = w ∧ 0 < w / 8 := by omega
  obtain ⟨hden, hreadSort, hreadEval⟩ := h.context.read hσ hbase' hwidth.2.2
  obtain ⟨hgrow, _, _⟩ := Context.read_sound (h.context.wf (w / 8)) hbase' hwidth.2.2
  set read := s.context.read S (p.simplify S) (8 * (w / 8))
  have hread : readMemory S pathConstraints s.context (p.simplify S) ((w + 7) / 8 * 8)
      = .ok read := by
    rw [readMemory_of_asUint64 hbase, hwidth.1]
  have hresult : (Object.value read.1).Denotes ν
      (.int w (BitVec.ofNat w (t.mem.load place (w / 8)))) := by
    refine ⟨hreadSort.trans (congrArg _ hwidth.2.1), ?_⟩
    show read.1.eval ν = _
    have hlt : t.mem.load place (w / 8) < 2 ^ w := by
      have hload := ByteMemory.load_lt (t.mem place.1) place.2 (w / 8)
      rwa [← two_pow_eight_mul, hwidth.2.1] at hload
    rw [hreadEval, Pointer.page_simplify, hpage, BitVec.toNat_ofNat, Nat.mod_eq_of_lt hlt]
  refine ⟨{ s with context := read.2 }.set dst (.value read.1), ?_, hgrow.fresh_le,
    (h.withContext hden).set dst hresult⟩
  simp only [LlvmInst.visit, LlvmSymex.get_of_vars hp, Except.ok_bind, Object.simplify, hread, pure,
    Except.pure]

theorem simulates_store (hS : S.Sound) (h : s.Denotes ν σ t) {a : Operand N} {ptr : N}
    (hmeets : (LlvmInst.store a ptr).Meets layout t)
    (hconcrete : (LlvmInst.store a ptr).ThroughConcrete S s)
    (hexec : (LlvmInst.store a ptr).exec layout σ t = some t') :
    Simulates S pathConstraints ν σ (.store a ptr) s t' := by
  simp only [LlvmInst.exec, Option.bind_eq_bind, Option.bind_eq_some_iff, Option.pure_def] at hexec
  obtain ⟨place, hplace, x, hx, hexec⟩ := hexec
  cases x with
  | ptr q x => cases hexec
  | int w x =>
    simp only [Option.ite_none_right_eq_some, Option.some.injEq] at hexec
    obtain ⟨⟨hpos, hbytes⟩, rfl⟩ := hexec
    obtain ⟨p, hp, hpage, hsort, heval⟩ := h.pointer hplace
    obtain ⟨o, ho, hvalSort, hvalEval⟩ := h.operand hmeets.1 hx
    have hbase := LlvmSymex.Denotes.base hS hsort heval (hconcrete p hp)
    have hbase' : ((p.simplify S).simplify S).asUint64 = some place.2 := by
      rw [Pointer.simplify_simplify]
      exact hbase
    have hlt : w < 2048 := hmeets.2 w x hx
    have hsize : o.toValue.size = 8 * (w / 8) := by
      rw [Value.size, Term.bits, hvalSort]
      show w = 8 * (w / 8)
      omega
    have hden := h.context.write hS hbase' hsize (by omega)
    rw [hvalEval, Pointer.page_simplify, hpage] at hden
    refine ⟨{ s with context := s.context.write S (p.simplify S) o.toValue }, ?_, Nat.le_refl _,
      h.withContext hden⟩
    simp only [LlvmInst.visit, LlvmSymex.get_of_vars hp, Except.ok_bind, Object.toPtr, ho, pure,
      Except.pure, writeMemory_of_asUint64 hbase]

/-- **One instruction.** -/
theorem simulates (hS : S.Sound) (hσ : UnwrittenFrom ν σ s.context.fresh) (h : s.Denotes ν σ t)
    {i : LlvmInst N} (hmeets : i.Meets layout t) (hconcrete : i.ThroughConcrete S s)
    (hexec : i.exec layout σ t = some t') : Simulates S pathConstraints ν σ i s t' := by
  cases i with
  | binary dst op w a b => exact simulates_binary h hmeets hexec
  | icmp dst p a b => exact simulates_icmp h hmeets hexec
  | cast dst op src w a => exact simulates_cast h hmeets hexec
  | select dst c a b => exact simulates_select h hmeets hexec
  | freeze dst a => exact simulates_freeze h hmeets hexec
  | alloca dst size => exact simulates_alloca h hexec
  | getElementPtr dst ptr offset => exact simulates_getElementPtr h hexec
  | load dst w ptr => exact simulates_load hS hσ h hconcrete hexec
  | store a ptr => exact simulates_store hS h hmeets hconcrete hexec

/-! ### Blocks -/

/-- **A block.** Every state on the way denotes LLVM's. -/
theorem BlockRun.denotes (hS : S.Sound) {insts : List (LlvmInst N)}
    (hrun : BlockRun S pathConstraints insts s s') : ∀ {t t' : LlvmState N},
    UnwrittenFrom ν σ s.context.fresh → s.Denotes ν σ t → Meets layout σ insts t →
    execBlock layout σ insts t = some t' →
    UnwrittenFrom ν σ s'.context.fresh ∧ s'.Denotes ν σ t' := by
  induction hrun with
  | nil s =>
    intro t t' hσ h _ hexec
    obtain rfl := Option.some.inj hexec
    exact ⟨hσ, h⟩
  | cons hconcrete hvisit hrewritten _ ih =>
    intro t t' hσ h hmeets hexec
    rw [execBlock, List.foldlM_cons, Option.bind_eq_bind, Option.bind_eq_some_iff] at hexec
    obtain ⟨t₁, hstep, hrest⟩ := hexec
    obtain ⟨hhere, hlater⟩ := hmeets
    obtain ⟨s₁, hvisit', hfresh, hden⟩ := simulates hS hσ h hhere hconcrete hstep
    obtain rfl := Except.ok.inj (hvisit.symm.trans hvisit')
    have hσ' := hσ.mono hfresh
    rw [← hrewritten.fresh] at hσ'
    exact ih hσ' (hden.rewritten hS hrewritten) (hlater t₁ hstep) hrest

/-- **The emulator agrees with LLVM.** For a block whose loads and stores go through concrete
pointers, and every valuation, extended to the symbols made for bytes nobody has written: if LLVM's
execution from the denoted state has no undefined behaviour and no poison, then afterwards every
name has the value of its term, of the width LLVM gives it, and every byte the value of what
`memory::read` returns for it. -/
theorem runBlock_agrees (hS : S.Sound) {insts : List (LlvmInst N)}
    (hrun : BlockRun S pathConstraints insts s s') (hσ : UnwrittenFrom ν σ s.context.fresh)
    (h : s.Denotes ν σ t) (hexec : execBlock layout σ insts t = some t')
    (hmeets : Meets layout σ insts t) : s'.Agrees S ν t' := by
  obtain ⟨hσ', hden⟩ := hrun.denotes hS hσ h hmeets hexec
  exact hden.agrees hσ'

/-! ### The emulator reaches the end -/

/-- A pointer whose address has no symbols. -/
structure Pointer.Ground (p : Pointer) : Prop where
  symbols : p.term.symbols = []
  sort : p.term.sort = .bv 64
  rewritten : p.simplified = true → p.term.isValue = true

theorem Pointer.Ground.concrete (a : Addr) (page : PageId) : (Pointer.concrete a page).Ground :=
  ⟨rfl, rfl, fun _ => rfl⟩

theorem Pointer.Ground.gep {p : Pointer} (h : p.Ground) (offset : Addr) : (gep p offset).Ground := by
  refine ⟨?_, ?_, nofun⟩
  · show p.term.symbols ++ [] = []
    rw [h.symbols]
    rfl
  · show TermSort.bv p.term.bits = .bv 64
    rw [Term.bits, h.sort]
    rfl

theorem Pointer.Ground.isSome (hS : S.Sound) {p : Pointer} (h : p.Ground) :
    (p.simplify S).asUint64.isSome := by
  have hvalue : (p.toValue.simplify S).term.isValue = true := by
    rw [Value.simplify]
    split
    · next hflag => exact h.rewritten hflag
    · exact hS.isValue_simplify _ h.symbols
  have hsort := (Value.sort_simplify hS p.toValue).trans h.sort
  exact Option.isSome_iff_exists.mpr ⟨_, Term.asUint64_of_isValue hvalue hsort fun _ => 0⟩

/-- Every pointer is one. -/
def LlvmSymex.Ground (s : LlvmSymex N) : Prop :=
  ∀ name p, s.vars name = some (.pointer p) → p.Ground

namespace LlvmSymex.Ground

omit [DecidableEq N] in
theorem throughConcrete (hS : S.Sound) (h : s.Ground) (i : LlvmInst N) : i.ThroughConcrete S s := by
  cases i with
  | load dst w ptr => exact fun p hp => (h ptr p hp).isSome hS
  | store a ptr => exact fun p hp => (h ptr p hp).isSome hS
  | _ => trivial

theorem set (h : s.Ground) (dst : N) {o : Object} (ho : ∀ p, o = .pointer p → p.Ground) :
    (s.set dst o).Ground := by
  intro name p hp
  have hvar : Function.update s.vars dst (some o) name = some (.pointer p) := hp
  by_cases hname : name = dst
  · subst hname
    rw [Function.update_self] at hvar
    exact ho p (Option.some.inj hvar)
  · rw [Function.update_of_ne hname] at hvar
    exact h name p hvar

omit [DecidableEq N] in
theorem get (h : s.Ground) {a : Operand N} {o : Object} (ho : s.get a = .ok o) :
    ∀ p, o = .pointer p → p.Ground := by
  rintro p rfl
  cases a with
  | const w n => cases ho
  | ssa name =>
    rw [LlvmSymex.get] at ho
    split at ho
    · next hvar =>
      obtain rfl := Except.ok.inj ho
      exact h name p hvar
    · cases ho

/-- A new result that is no pointer. -/
theorem set_value (h : s.Ground) (dst : N) (v : Value) : (s.set dst (.value v)).Ground :=
  h.set dst fun p hp => by cases hp

/-- Visitors make no other pointers. -/
theorem visit (h : s.Ground) {i : LlvmInst N} (hvisit : i.visit S pathConstraints s = .ok s') :
    s'.Ground := by
  cases i with
  | binary dst op w a b =>
    simp only [LlvmInst.visit, Except.bind_eq_ok, Except.pure_eq_ok] at hvisit
    obtain ⟨_, _, _, _, rfl⟩ := hvisit
    exact h.set_value dst _
  | icmp dst p a b =>
    simp only [LlvmInst.visit, Except.bind_eq_ok, Except.pure_eq_ok] at hvisit
    obtain ⟨_, _, _, _, rfl⟩ := hvisit
    exact h.set_value dst _
  | cast dst op src w a =>
    cases op <;>
      (simp only [LlvmInst.visit, Except.bind_eq_ok, Except.pure_eq_ok] at hvisit
       obtain ⟨_, _, _, _, rfl⟩ := hvisit
       exact h.set_value dst _)
  | select dst c a b =>
    simp only [LlvmInst.visit, Except.bind_eq_ok, Except.pure_eq_ok] at hvisit
    obtain ⟨_, _, _, _, _, _, rfl⟩ := hvisit
    exact h.set_value dst _
  | freeze dst a =>
    simp only [LlvmInst.visit, Except.bind_eq_ok, Except.pure_eq_ok] at hvisit
    obtain ⟨o, ho, rfl⟩ := hvisit
    exact h.set dst (h.get ho)
  | alloca dst size =>
    obtain rfl := Except.ok.inj hvisit
    have hpages : s.allocate.Ground := h
    refine hpages.set dst fun p hp => ?_
    obtain rfl := Object.pointer.inj hp
    exact .concrete 0 s.pages
  | getElementPtr dst ptr offset =>
    simp only [LlvmInst.visit, Except.bind_eq_ok, Except.pure_eq_ok] at hvisit
    obtain ⟨o, ho, p, hp, rfl⟩ := hvisit
    cases o with
    | value v => cases hp
    | pointer q =>
      obtain rfl := Except.ok.inj hp
      refine h.set dst fun p hp => ?_
      obtain rfl := Object.pointer.inj hp
      exact (h.get ho q rfl).gep offset
  | load dst w ptr =>
    simp only [LlvmInst.visit, Except.bind_eq_ok] at hvisit
    obtain ⟨o, _, hload⟩ := hvisit
    cases o with
    | value v => cases hload
    | pointer q =>
      simp only [Object.simplify, Except.bind_eq_ok, Except.pure_eq_ok] at hload
      obtain ⟨read, _, rfl⟩ := hload
      have hcontext : LlvmSymex.Ground { s with context := read.2 } := h
      exact hcontext.set_value dst _
  | store a ptr =>
    simp only [LlvmInst.visit, Except.bind_eq_ok, Except.pure_eq_ok] at hvisit
    obtain ⟨_, _, _, _, _, _, c, _, rfl⟩ := hvisit
    exact h

end LlvmSymex.Ground

/-- **The emulator reaches the end** of a block from pointers without symbols when LLVM does. -/
theorem exists_blockRun (hS : S.Sound) : ∀ {insts : List (LlvmInst N)} {s : LlvmSymex N}
    {t t' : LlvmState N}, s.Ground → UnwrittenFrom ν σ s.context.fresh → s.Denotes ν σ t →
    Meets layout σ insts t → execBlock layout σ insts t = some t' →
    ∃ s', BlockRun S pathConstraints insts s s'
  | [], s, _, _, _, _, _, _, _ => ⟨s, .nil s⟩
  | i :: insts, s, t, t', hground, hσ, h, ⟨hhere, hlater⟩, hexec => by
    rw [execBlock, List.foldlM_cons, Option.bind_eq_bind, Option.bind_eq_some_iff] at hexec
    obtain ⟨t₁, hstep, hrest⟩ := hexec
    have hconcrete := hground.throughConcrete hS i
    have hsim : Simulates S pathConstraints ν σ i s t₁ := simulates hS hσ h hhere hconcrete hstep
    obtain ⟨s₁, hvisit, hfresh, hden⟩ := hsim
    obtain ⟨s', hrun⟩ := exists_blockRun hS (hground.visit hvisit) (hσ.mono hfresh) hden
      (hlater t₁ hstep) hrest
    exact ⟨s', .cons hconcrete hvisit (.refl S s₁) hrun⟩

/-! ### Two blocks -/

/-- The states before anything has been allocated. -/
def LlvmSymex.initial : LlvmSymex ℕ := ⟨⟨fun _ => MemPage.empty, 0, 0⟩, 0, fun _ => none⟩

def LlvmState.initial (σ : Bytes) : LlvmState ℕ := ⟨fun _ => none, σ, 0⟩

theorem LlvmSymex.initial_denotes (ν : Valuation) (σ : Bytes) :
    LlvmSymex.initial.Denotes ν σ (.initial σ) :=
  ⟨nofun, ⟨rfl, fun _ _ _ _ h => by cases h⟩, rfl⟩

theorem LlvmSymex.initial_ground : LlvmSymex.initial.Ground := nofun

/-- A word of a new page is written, read back and incremented. -/
def incrementBlock : List (LlvmInst ℕ) :=
  [.alloca 0 8, .getElementPtr 1 0 4, .store (.const 32 7) 1, .load 2 32 1,
    .binary 3 .add 32 (.ssa 2) (.const 32 1)]

theorem runBlock_agrees_increment : ∃ s' t',
    execBlock (fun _ => 0) (fun _ _ => 0) incrementBlock (.initial fun _ _ => 0) = some t' ∧
    t'.env 3 = some (.int 32 8) ∧ LlvmSymex.Agrees Solver.folding (fun _ => 0) s' t' := by
  have hexec : ∃ t', execBlock (fun _ => 0) (fun _ _ => 0) incrementBlock
      (.initial fun _ _ => 0) = some t' ∧ t'.env 3 = some (.int 32 8) := ⟨_, rfl, by decide⟩
  obtain ⟨t', hexec, hresult⟩ := hexec
  have hmeets : Meets (fun _ => 0) (fun _ _ => 0) incrementBlock (.initial fun _ _ => 0) := by
    refine ⟨trivial, fun _ _ => ⟨trivial, fun _ _ => ⟨⟨?_, ?_⟩, fun _ _ => ⟨trivial, fun _ _ =>
      ⟨⟨trivial, ?_⟩, fun _ _ => trivial⟩⟩⟩⟩⟩
    · show 7 % 2 ^ 32 < 2 ^ 64
      decide
    · intro v x hx
      obtain ⟨rfl, _⟩ := Scalar.int.inj (Option.some.inj hx)
      decide
    · show 1 % 2 ^ 32 < 2 ^ 64
      decide
  have hσ : UnwrittenFrom (fun _ => 0) (fun _ _ => 0) LlvmSymex.initial.context.fresh :=
    fun _ _ _ _ => rfl
  have hden := LlvmSymex.initial_denotes (fun _ => 0) fun _ _ => 0
  have hruns : ∃ s', BlockRun Solver.folding [] incrementBlock .initial s' :=
    exists_blockRun Solver.folding_sound LlvmSymex.initial_ground hσ hden hmeets hexec
  obtain ⟨s', hrun⟩ := hruns
  exact ⟨s', t', hexec, hresult,
    runBlock_agrees Solver.folding_sound hrun hσ hden hexec hmeets⟩

/-- An integer of 256 bytes is stored to a new page and its first byte read back. -/
def wideStoreBlock : List (LlvmInst ℕ) :=
  [.alloca 0 256, .store (.const 2048 1) 0, .load 1 8 0]

/-- A store of 256 bytes is one of none. -/
theorem wide_store_lost : ¬ ∀ (insts : List (LlvmInst ℕ)) (s s' : LlvmSymex ℕ) (ν : Valuation)
    (σ : Bytes) (t t' : LlvmState ℕ), BlockRun Solver.folding [] insts s s' →
    UnwrittenFrom ν σ s.context.fresh → s.Denotes ν σ t →
    execBlock (fun _ => 0) σ insts t = some t' → s'.Agrees Solver.folding ν t' := by
  intro hclaim
  have hexec : ∃ t', execBlock (fun _ => 0) (fun _ _ => 0) wideStoreBlock
      (.initial fun _ _ => 0) = some t' ∧ t'.env 1 = some (.int 8 1) := ⟨_, rfl, by decide +kernel⟩
  obtain ⟨t', hexec, hloaded⟩ := hexec
  have hrun : ∃ s', BlockRun Solver.folding [] wideStoreBlock .initial s' ∧
      ∃ o, s'.vars 1 = some o ∧ o.toValue.eval (fun _ => 0) = 0 := by
    refine ⟨_, .cons trivial rfl (.refl ..) (.cons ?_ rfl (.refl ..) (.cons ?_ rfl (.refl ..)
      (.nil _))), _, rfl, rfl⟩
    all_goals
      intro p hp
      obtain rfl := Object.pointer.inj (Option.some.inj hp)
      rfl
  obtain ⟨s', hrun, o, ho, heval⟩ := hrun
  obtain ⟨o', ho', _, hden⟩ := (hclaim _ _ _ (fun _ => 0) (fun _ _ => 0) _ _ hrun
    (fun _ _ _ _ => rfl) (LlvmSymex.initial_denotes _ _) hexec).names 1 _ hloaded
  obtain rfl := Option.some.inj (ho.symm.trans ho')
  rw [heval] at hden
  exact absurd hden (by decide)

end Vexa
