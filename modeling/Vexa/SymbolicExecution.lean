import Vexa.Lowering

/-!
# Symbolic execution is sound

Under a valuation that satisfies the path constraints, the symbolic values denote what the code
computes and the symbolic memory denotes the memory it leaves. With a solver that never gives up the
emulator only goes on when it knows all addresses of every access.

Reads of bytes nobody has written make new symbols. The valuation gives them the bytes of a fixed
initial memory, so that reading does not change what the memory denotes.

## Main definitions

* `Unwritten` — symbols for unwritten bytes have the values of the initial memory
* `Symex.Denotes` — the symbolic state denotes a state of the code

## Main results

* `visit_sound`, `readMemoryIntrinsic_sound`, `writeMemoryIntrinsic_sound` — one instruction
* `runBlock_sound` — straight-line code, and every access is covered
-/

namespace Vexa

open LittleEndian

/-- Every symbol made for a byte nobody has written has the value of this byte in `σ`. -/
def Unwritten (ν : Valuation) (σ : Bytes) : Prop :=
  ∀ p a id, BitVec.ofNat 8 (ν ⟨.uninit p a, id, 8⟩) = σ p a

/-- The valuation with the bytes of `σ` for those nobody has written. -/
def Valuation.withMemory (ν : Valuation) (σ : Bytes) : Valuation := fun s =>
  match s.origin with
  | .uninit p a => (σ p a).toNat
  | .register _ | .read | .tsc => ν s

/-- Registers and memory may be anything. -/
theorem unwritten_withMemory (ν : Valuation) (σ : Bytes) : Unwritten (ν.withMemory σ) σ :=
  fun p a _ => BitVec.ofNat_toNat 8 (σ p a)

/-- The symbols numbered from `n` on that are made for bytes nobody has written. -/
def UnwrittenFrom (ν : Valuation) (σ : Bytes) (n : ℕ) : Prop :=
  ∀ p a id, n ≤ id → BitVec.ofNat 8 (ν ⟨.uninit p a, id, 8⟩) = σ p a

/-- The symbolic memory denotes the memory `m`. -/
structure Context.Denotes (ν : Valuation) (σ : Bytes) (c : Context) (m : Bytes) : Prop where
  mem : c.memory.denote ν σ = m
  wf : c.memory.WF

/-- The symbolic values of the names and the symbolic memory denote the state `t`. -/
structure Symex.Denotes (ν : Valuation) (σ : Bytes) (types : Types Name) (s : Symex)
    (t : IrState Name) : Prop where
  vars : ∀ name w, types name = some w →
    ∃ v, s.vars name = some v ∧ v.term.sort = .bv w ∧ v.eval ν = t.env name
  context : s.context.Denotes ν σ t.mem

/-- Nothing is written yet: the symbolic state denotes whatever the valuation says. -/
theorem denotes_empty (ν : Valuation) (σ : Bytes) (env : Name → ℕ) :
    Symex.Denotes ν σ (fun _ => none) ⟨⟨fun _ => .empty, 0, 0⟩, fun _ => none⟩ ⟨env, σ⟩ where
  vars _ _ h := absurd h nofun
  context := ⟨rfl, fun _ _ _ _ h => absurd h nofun⟩

variable {S : Solver} {pathConstraints : List Term} {ν : Valuation} {σ : Bytes}
  {types : Types Name} {s s' : Symex} {t : IrState Name} {c c' : Context} {m : Bytes}

/-! ### Memory -/

theorem Term.sort_of_bits {t : Term} {n : ℕ} (h : t.bits = n) (hn : n ≠ 1) : t.sort = .bv n := by
  rw [Term.bits] at h
  cases hs : t.sort with
  | bool =>
    rw [hs] at h
    exact absurd h.symm hn
  | bv w =>
    rw [hs] at h
    exact congrArg _ h

theorem Unwritten.unwrittenFrom (hσ : Unwritten ν σ) (n : ℕ) : UnwrittenFrom ν σ n :=
  fun p a id _ => hσ p a id

theorem UnwrittenFrom.mono {n n' : ℕ} (hσ : UnwrittenFrom ν σ n) (hn : n ≤ n') :
    UnwrittenFrom ν σ n' := fun p a id hid => hσ p a id (hn.trans hid)

theorem Context.Denotes.grows (hσ : UnwrittenFrom ν σ c.fresh) (h : c.Denotes ν σ m)
    (hgrow : c.Grows c') : c'.Denotes ν σ m := by
  refine ⟨(hgrow.denote_eq fun p a id hnone hsome => ?_).trans h.mem, hgrow.wf h.wf⟩
  obtain ⟨id', hle, _, hcell⟩ := hgrow.created p a _ hnone hsome
  have hid : id = id' := by
    simp only [Context.uninitCell, Value.symbolic, Value.ofTerm, MemCell.mk.injEq, Value.mk.injEq,
      Term.const.injEq, Symbol.mk.injEq] at hcell
    exact hcell.1.1.2.1
  exact hσ p a id (hid ▸ hle)

theorem Context.Denotes.checks (h : c.Denotes ν σ m) (n : ℕ) :
    Context.Denotes ν σ { c with checks := n } m := ⟨h.mem, h.wf⟩

/-- A load from a known place. -/
theorem Context.Denotes.read (hσ : UnwrittenFrom ν σ c.fresh) (h : c.Denotes ν σ m) {ptr : Pointer}
    {base : Addr} (hbase : (ptr.simplify S).asUint64 = some base) {k : ℕ} (hk : 0 < k) :
    (c.read S ptr (8 * k)).2.Denotes ν σ m ∧ (c.read S ptr (8 * k)).1.term.sort = .bv (8 * k) ∧
      (c.read S ptr (8 * k)).1.eval ν = m.load (ptr.page, base) k := by
  obtain ⟨hgrow, hsize, heval⟩ := Context.read_sound (h.wf k) hbase hk
  have hden := h.grows hσ hgrow
  exact ⟨hden, Term.sort_of_bits hsize (by omega), by rw [heval ν σ, hden.mem]; rfl⟩

/-- A store to a known place. -/
theorem Context.Denotes.write (hS : S.Sound) (h : c.Denotes ν σ m) {ptr : Pointer} {base : Addr}
    (hbase : (ptr.simplify S).asUint64 = some base) {val : Value} {k : ℕ} (hsize : val.size = 8 * k)
    (hk : k < 256) : (c.write S ptr val).Denotes ν σ (m.store ptr.page base k (val.eval ν)) := by
  refine ⟨?_, h.wf.write hS hsize hk⟩
  rw [Context.memory_write, Memory.denote_write hS hbase, h.mem,
    show val.size / 8 % 256 = k by omega]

/-! ### Names -/

namespace Symex.Denotes

theorem operand (h : s.Denotes ν σ types t) {a : Operand Name} {w : ℕ} {v : Value}
    (ha : a.width types = some w) (hv : s.get a = .ok v) :
    v.term.sort = .bv w ∧ v.eval ν = a.eval t.env := by
  cases a with
  | const w' n =>
    obtain rfl := Except.ok.inj hv
    obtain rfl := Option.some.inj ha
    exact ⟨rfl, Value.eval_concrete ν n w'⟩
  | ssa name =>
    obtain ⟨v', hv', hsort, heval⟩ := h.vars name w ha
    rw [Symex.get, hv'] at hv
    obtain rfl := Except.ok.inj hv
    exact ⟨hsort, heval⟩

/-- Operands have values. -/
theorem exists_get (h : s.Denotes ν σ types t) {a : Operand Name} {w : ℕ}
    (ha : a.width types = some w) : ∃ v, s.get a = .ok v := by
  cases a with
  | const w' n => exact ⟨_, rfl⟩
  | ssa name =>
    obtain ⟨v, hv, _⟩ := h.vars name w ha
    exact ⟨v, by rw [Symex.get, hv]; rfl⟩

theorem size_operand (h : s.Denotes ν σ types t) {a : Operand Name} {w : ℕ} {v : Value}
    (ha : a.width types = some w) (hv : s.get a = .ok v) : v.size = w := by
  rw [Value.size, Term.bits, (h.operand ha hv).1]
  rfl

/-- A new result. -/
theorem set (h : s.Denotes ν σ types t) (dst : Name) {w x : ℕ} {v : Value}
    (hsort : v.term.sort = .bv w) (heval : v.eval ν = x) :
    (s.set dst v).Denotes ν σ (Function.update types dst (some w)) (t.set dst x) := by
  refine ⟨fun name w' hname => ?_, h.context⟩
  by_cases hd : name = dst
  · subst hd
    rw [Function.update_self] at hname
    obtain rfl := Option.some.inj hname
    exact ⟨v, Function.update_self .., hsort, by rw [heval, IrState.env_set, Function.update_self]⟩
  · rw [Function.update_of_ne hd] at hname
    obtain ⟨v', hv', hsort', heval'⟩ := h.vars name w' hname
    exact ⟨v', (Function.update_of_ne hd ..).trans hv', hsort',
      heval'.trans (Function.update_of_ne hd ..).symm⟩

/-- An operand gets another value that denotes the same number. -/
theorem setOperand (h : s.Denotes ν σ types t) {a : Operand Name} {w : ℕ} {v : Value}
    (ha : a.width types = some w) (hsort : v.term.sort = .bv w) (heval : v.eval ν = a.eval t.env) :
    (s.setOperand a v).Denotes ν σ types t := by
  cases a with
  | const w' n => exact h
  | ssa dst =>
    refine ⟨fun name w' hname => ?_, h.context⟩
    by_cases hd : name = dst
    · subst hd
      obtain rfl := Option.some.inj (ha.symm.trans hname)
      exact ⟨v, Function.update_self .., hsort, heval⟩
    · obtain ⟨v', hv', hsort', heval'⟩ := h.vars name w' hname
      exact ⟨v', (Function.update_of_ne hd ..).trans hv', hsort', heval'⟩

/-- Another memory. -/
theorem withContext (h : s.Denotes ν σ types t) (hc : c.Denotes ν σ m) :
    Symex.Denotes ν σ types { s with context := c } { t with mem := m } := ⟨h.vars, hc⟩

theorem withChecks (h : s.Denotes ν σ types t) (n : ℕ) :
    Symex.Denotes ν σ types { s with context.checks := n } t := ⟨h.vars, h.context.checks n⟩

/-- Values of names that are not results of lifted instructions do not matter. -/
theorem congr_vars (h : s.Denotes ν σ types t) (htypes : LiftedTypes types) {vars : Name → Option Value}
    (hvars : ∀ name : Name, name.Lifted → vars name = s.vars name) :
    Symex.Denotes ν σ types ⟨s.context, vars⟩ t := by
  refine ⟨fun name w hname => ?_, h.context⟩
  obtain ⟨v, hv, hsort, heval⟩ := h.vars name w hname
  exact ⟨v, (hvars name (htypes name w hname)).trans hv, hsort, heval⟩

end Symex.Denotes

/-! ### Pointers -/

/-- **Pointers of loads and stores are known places.** -/
theorem Symex.pointer_place (hS : S.Sound) {ptr : Ptr Name} {p : Pointer} (hptr : ptr.Loadable)
    (h : s.pointer ptr = .ok p) (env : Name → ℕ) :
    p.page = (ptr.place env).1 ∧ (p.simplify S).asUint64 = some (ptr.place env).2 := by
  have hgep : ∀ (base offset : Addr) (page : PageId),
      ((gep (.concrete base page) offset).simplify S).asUint64 = some (base + offset) := by
    intro base offset page
    have hsum := asUint64_simplify_add hS (a := base) (n := offset.toNat) page
    rw [BitVec.ofNat_toNat, BitVec.setWidth_eq] at hsum
    exact hsum
  cases ptr with
  | intToPtr value => exact hptr.elim
  | nextPc | branchTaken =>
    obtain rfl := Except.ok.inj h
    exact ⟨rfl, Pointer.asUint64_simplify_concrete S 0 _⟩
  | state offset | memory offset =>
    obtain rfl := Except.ok.inj h
    exact ⟨rfl, (hgep 0 offset _).trans (congrArg some (BitVec.zero_add offset))⟩
  | stack offset =>
    obtain rfl := Except.ok.inj h
    exact ⟨rfl, hgep 16384 offset _⟩

theorem Value.isConcrete_of_asUint64 {v : Value} {a : Addr} (h : v.asUint64 = some a) :
    v.isConcrete = true := by
  rw [Value.asUint64] at h
  rw [Value.isConcrete]
  cases hv : v.term with
  | value w n => rfl
  | _ =>
    rw [hv] at h
    cases h

/-- `write_memory` through a known pointer. -/
theorem writeMemory_of_asUint64 {p : Pointer} {a : Addr} (h : (p.simplify S).asUint64 = some a)
    (val : Value) :
    writeMemory S pathConstraints c p val = .ok (c.write S (p.simplify S) val) := by
  simp only [writeMemory, Value.isConcrete_of_asUint64 h, if_true]
  rfl

theorem Pointer.simplify_simplify (S : Solver) (p : Pointer) :
    (p.simplify S).simplify S = p.simplify S := by
  rw [Pointer.simplify, Pointer.toValue_simplify, Value.simplify_simplify]
  rfl

/-- `read_memory` through a known pointer. -/
theorem readMemory_of_asUint64 {p : Pointer} {a : Addr} (h : (p.simplify S).asUint64 = some a)
    (size : ℕ) :
    readMemory S pathConstraints c (p.simplify S) size = .ok (c.read S (p.simplify S) size) := by
  simp only [readMemory, Pointer.simplify_simplify, Value.isConcrete_of_asUint64 h, if_true]
  rfl

/-! ### Instructions without intrinsics -/

theorem visitLoad_sound (hS : S.Sound) (hσ : Unwritten ν σ) (h : s.Denotes ν σ types t) {dst : Name}
    {w : ℕ} {ptr : Ptr Name} (hw : ByteWidth w) (hptr : ptr.Loadable)
    (hvisit : visitLoad S pathConstraints dst w ptr s = .ok s') :
    s'.Denotes ν σ (Function.update types dst (some w))
      (t.set dst (t.mem.load (ptr.place t.env) (w / 8))) := by
  simp only [visitLoad, Except.bind_eq_ok, Except.pure_eq_ok] at hvisit
  obtain ⟨p, hp, read, hread, rfl⟩ := hvisit
  obtain ⟨hpage, hbase⟩ := Symex.pointer_place hS hptr hp t.env
  have hbytes : (w + 7) / 8 * 8 = 8 * (w / 8) ∧ 8 * (w / 8) = w ∧ 0 < w / 8 := by
    obtain ⟨hmod, hpos, _⟩ := hw
    omega
  rw [readMemory_of_asUint64 hbase, hbytes.1] at hread
  obtain rfl := Except.ok.inj hread
  have hbase' : ((p.simplify S).simplify S).asUint64 = some (ptr.place t.env).2 := by
    rw [Pointer.simplify_simplify]
    exact hbase
  obtain ⟨hden, hsort, heval⟩ := h.context.read (hσ.unwrittenFrom _) hbase' hbytes.2.2
  have hs : Symex.Denotes ν σ types
      { s with context := (s.context.read S (p.simplify S) (8 * (w / 8))).2 } t := ⟨h.vars, hden⟩
  refine hs.set dst (hsort.trans (congrArg _ hbytes.2.1)) ?_
  rw [heval, Pointer.page_simplify, hpage]

theorem visitStore_sound (hS : S.Sound) (h : s.Denotes ν σ types t) {w : ℕ} {value : Operand Name}
    {ptr : Ptr Name} (hw : ByteWidth w) (hvalue : value.width types = some w) (hptr : ptr.Loadable)
    (hvisit : visitStore S pathConstraints value ptr s = .ok s') :
    s'.Denotes ν σ types (t.store (ptr.place t.env) (w / 8) (value.eval t.env)) := by
  simp only [visitStore, Except.bind_eq_ok, Except.pure_eq_ok] at hvisit
  obtain ⟨p, hp, val, hval, c, hwrite, rfl⟩ := hvisit
  obtain ⟨hpage, hbase⟩ := Symex.pointer_place hS hptr hp t.env
  rw [writeMemory_of_asUint64 hbase] at hwrite
  obtain rfl := Except.ok.inj hwrite
  obtain ⟨hmod, hpos, hlt⟩ := hw
  have hbase' : ((p.simplify S).simplify S).asUint64 = some (ptr.place t.env).2 := by
    rw [Pointer.simplify_simplify]
    exact hbase
  have hsize : val.size = 8 * (w / 8) := by
    rw [h.size_operand hvalue hval]
    omega
  have hden := h.context.write hS hbase' hsize (by omega)
  rw [(h.operand hvalue hval).2, Pointer.page_simplify, hpage] at hden
  exact ⟨h.vars, hden⟩

theorem Opcode.sort_kind (op : Opcode) (a b : TermSort) : op.kind.sort a b = .bv a.bits := by
  cases op <;> rfl

theorem Opcode.eval_kind (op : Opcode) (w v x y : ℕ) (h : v = w) :
    op.kind.eval w v x y = op.eval w x y := by
  subst h
  cases op <;> rfl

theorem Predicate.eval_kind (p : Predicate) {w x y : ℕ} (hx : x < 2 ^ w) (hy : y < 2 ^ w) :
    p.kind.eval w w x y = (p.eval w x y).toNat := by
  have hiff : x = y ↔ BitVec.ofNat w x = BitVec.ofNat w y := by
    constructor
    · rintro rfl
      rfl
    · intro h
      have hnat := congrArg BitVec.toNat h
      rwa [BitVec.toNat_ofNat, BitVec.toNat_ofNat, Nat.mod_eq_of_lt hx, Nat.mod_eq_of_lt hy] at hnat
  cases p with
  | eq | ne =>
    simp only [Predicate.kind, BinaryKind.eval, Predicate.eval, ne_eq, hiff]
  | _ => rfl

/-- A bit holds as a condition when it is one. -/
theorem Value.holds_of_sort {v : Value} (h : v.term.sort = .bv 1) : v.holds ν ↔ v.eval ν = 1 := by
  rw [Value.holds, Value.asExprBool, h]
  show (Term.binary .equal v.term (.value 1 1)).eval ν = 1 ↔ _
  rw [Term.eval_equal]
  by_cases hv : v.term.eval ν = 1 <;> simp [hv, Value.eval]

/-- **Instructions that are not memory intrinsics.** -/
theorem visit_sound (hS : S.Sound) (hσ : Unwritten ν σ) (h : s.Denotes ν σ types t) {i : Inst Name}
    (hi : i.OperandsTyped types) (haddress : i.address = none)
    (hvisit : visit S pathConstraints i s = .ok s') :
    s'.Denotes ν σ (i.extend types) (i.exec t) := by
  cases i with
  | binary dst op w a b =>
    simp only [visit, Except.bind_eq_ok, Except.pure_eq_ok] at hvisit
    obtain ⟨v, hv, v', hv', rfl⟩ := hvisit
    obtain ⟨hsort, heval⟩ := h.operand hi.2.1 hv
    obtain ⟨hsort', heval'⟩ := h.operand hi.2.2 hv'
    refine h.set dst ?_ ?_
    · show op.kind.sort v.term.sort v'.term.sort = .bv w
      rw [Opcode.sort_kind, hsort]
      rfl
    · show op.kind.eval v.size v'.size (v.eval ν) (v'.eval ν) = _
      rw [h.size_operand hi.2.1 hv, h.size_operand hi.2.2 hv', Opcode.eval_kind op w w _ _ rfl,
        heval, heval']
  | icmp dst p w a b =>
    simp only [visit, Except.bind_eq_ok, Except.pure_eq_ok] at hvisit
    obtain ⟨v, hv, v', hv', rfl⟩ := hvisit
    have hlt := Value.eval_lt ν v
    have hlt' := Value.eval_lt ν v'
    rw [h.size_operand hi.1 hv] at hlt
    rw [h.size_operand hi.2 hv'] at hlt'
    refine h.set dst rfl ?_
    have hcmp : (v.binary p.kind v').eval ν
        = (p.eval w (a.eval t.env) (b.eval t.env)).toNat := by
      show p.kind.eval v.size v'.size (v.eval ν) (v'.eval ν) = _
      rw [h.size_operand hi.1 hv, h.size_operand hi.2 hv', Predicate.eval_kind p hlt hlt',
        (h.operand hi.1 hv).2, (h.operand hi.2 hv').2]
    show (if (v.binary p.kind v').eval ν = 0 then 0 % 2 ^ 1 % 2 ^ 1 else 1 % 2 ^ 1) = _
    rw [hcmp]
    cases p.eval w (a.eval t.env) (b.eval t.env) <;> rfl
  | cast dst op src w a =>
    cases op with
    | zext =>
      simp only [visit, Except.bind_eq_ok, Except.pure_eq_ok] at hvisit
      obtain ⟨v, hv, _, _, rfl⟩ := hvisit
      obtain ⟨hsort, heval⟩ := h.operand hi.2 hv
      have hsrc : src < w := hi.1
      refine h.set dst ?_ heval
      show TermSort.bv (v.term.sort.bits + (w - v.size)) = .bv w
      rw [h.size_operand hi.2 hv, hsort, TermSort.bits, Nat.add_sub_cancel' hsrc.le]
    | sext =>
      simp only [visit, Except.bind_eq_ok, Except.pure_eq_ok] at hvisit
      obtain ⟨v, hv, _, _, rfl⟩ := hvisit
      obtain ⟨hsort, heval⟩ := h.operand hi.2 hv
      have hsrc : src < w := hi.1
      have hwidth : src + (w - src) = w := Nat.add_sub_cancel' hsrc.le
      have hsize : v.term.bits = src := h.size_operand hi.2 hv
      refine h.set dst ?_ ?_
      · show TermSort.bv (v.term.sort.bits + (w - v.size)) = .bv w
        rw [h.size_operand hi.2 hv, hsort, TermSort.bits, hwidth]
      · show ((BitVec.ofNat v.term.bits (v.eval ν)).signExtend (v.term.bits + (w - v.size))).toNat = _
        rw [heval, h.size_operand hi.2 hv, hsize, hwidth]
        rfl
    | trunc =>
      simp only [visit, Except.bind_eq_ok, Except.pure_eq_ok] at hvisit
      obtain ⟨v, hv, _, _, rfl⟩ := hvisit
      obtain ⟨hsort, heval⟩ := h.operand hi.2 hv
      have hwidth : w - 1 + 1 - 0 = w := by
        have hpos : 0 < w := hi.1.1
        omega
      refine h.set dst ?_ ?_
      · show TermSort.bv (w - 1 + 1 - 0) = .bv w
        rw [hwidth]
      · rw [Value.eval_extract, heval, hwidth, pow_zero, Nat.div_one]
        rfl
  | select dst w cond a b =>
    simp only [visit, Except.bind_eq_ok, Except.pure_eq_ok] at hvisit
    obtain ⟨v, hv, v₁, hv₁, v₂, hv₂, rfl⟩ := hvisit
    obtain ⟨hsort, heval⟩ := h.operand hi.1 hv
    obtain ⟨hsort₁, heval₁⟩ := h.operand hi.2.1 hv₁
    obtain ⟨hsort₂, heval₂⟩ := h.operand hi.2.2 hv₂
    have hsize : v₁.size = v₂.size := by
      rw [h.size_operand hi.2.1 hv₁, h.size_operand hi.2.2 hv₂]
    refine h.set dst hsort₁ ?_
    rw [Value.eval_ite ν v hsize]
    simp only [Value.holds_of_sort hsort, heval, heval₁, heval₂]
  | freeze dst w a =>
    simp only [visit, Except.bind_eq_ok, Except.pure_eq_ok] at hvisit
    obtain ⟨v, hv, rfl⟩ := hvisit
    obtain ⟨hsort, heval⟩ := h.operand hi hv
    exact h.set dst hsort heval
  | load dst w ptr => exact visitLoad_sound hS hσ h hi.1 hi.2 hvisit
  | store w a ptr =>
    exact visitStore_sound hS h hi.1 hi.2.1 (Renamed.loadable_of_storable hi.2.2) hvisit
  | readMemory dst size a => cases haddress
  | writeMemory dst size a v => cases haddress
  | unsupported dst w opcode => cases hvisit
  | br target => exact hi.elim
  | condBr cond ifTrue ifFalse => exact hi.elim
  | ret => exact hi.elim
  | unreachable => exact hi.elim

/-! ### Addresses -/

section

variable (hS : S.Sound) (hA : S.Answers) (hν : Satisfies ν pathConstraints)

include hS hA hν

/-- A split access has all its addresses. -/
theorem enumerateAddress_sound (h : s.Denotes ν σ types t) {address : Operand Name}
    (haddress : address.width types = some 64) {addrSym : Value} (hsort : addrSym.term.sort = .bv 64)
    (heval : addrSym.eval ν = address.eval t.env) {values : Option (List Term)}
    (henum : enumerateAddress S pathConstraints address addrSym s = (values, s')) :
    s'.Denotes ν σ types t ∧ ∀ vs, values = some vs → ∃ ns : List ℕ, vs = ns.map addressTerm ∧
      ns.Nodup ∧ (∀ n ∈ ns, n < 2 ^ 64) ∧ addrSym.eval ν ∈ ns := by
  rw [enumerateAddress] at henum
  split at henum
  · obtain ⟨rfl, rfl⟩ := Prod.mk.inj henum
    exact ⟨h, fun vs hvs => by cases hvs⟩
  · obtain ⟨ns, hns, hnodup, hfeasible, hcomplete⟩ :=
      exists_addresses hS hsort pathConstraints s.context.checks
    simp only at henum
    split at henum
    · next hlen =>
      obtain ⟨rfl, rfl⟩ := Prod.mk.inj henum
      refine ⟨h.withChecks _, fun vs hvs => ⟨ns, ?_, hnodup, fun n hn => (hfeasible n hn).1,
        hcomplete hlen.2 ν hν⟩⟩
      rw [← Option.some.inj hvs, hns]
    · split at henum
      · next value hvalue =>
        obtain ⟨rfl, rfl⟩ := Prod.mk.inj henum
        refine ⟨?_, fun vs hvs => by cases hvs⟩
        -- the only value found is the only one
        have hunsat := possibleValues_of_answers hS hA (A := pathConstraints) (t := addrSym.term)
          (by rw [hvalue, List.length_singleton]; decide)
        have hmem := hcomplete hunsat ν hν
        rw [hns] at hvalue
        obtain ⟨n, hn, rfl⟩ := List.map_eq_singleton_iff.mp hvalue
        rw [hn, List.mem_singleton] at hmem
        refine (h.withChecks _).setOperand haddress rfl ?_
        have hlt : n < 2 ^ 64 := (hfeasible n (hn ▸ List.mem_singleton_self n)).1
        rw [← heval]
        exact (Term.eval_literal ν (s := .bv 64) hlt).trans hmem.symm
      · obtain ⟨rfl, rfl⟩ := Prod.mk.inj henum
        exact ⟨h.withChecks _, fun vs hvs => by cases hvs⟩

/-- **`value_to_pointer` only returns with the address.** -/
theorem valueToPointer_sound (h : s.Denotes ν σ types t) {address : Operand Name}
    (haddress : address.width types = some 64) {r : Resolution × Symex}
    (hptr : valueToPointer S pathConstraints address s = .ok r) :
    r.2.Denotes ν σ types t ∧ r.1 = .literal (BitVec.ofNat 64 (address.eval t.env)) := by
  simp only [valueToPointer, Except.bind_eq_ok] at hptr
  obtain ⟨v, hv, hptr⟩ := hptr
  obtain ⟨hsort, heval⟩ := h.operand haddress hv
  obtain ⟨hsort', heval'⟩ := Value.simplifyUnder_sound hS pathConstraints s.context.checks v
  set simplified := v.simplifyUnder S pathConstraints s.context.checks
  have hden : Symex.Denotes ν σ types
      (Symex.setOperand { s with context.checks := simplified.2 } address (v.simplify S)) t :=
    (h.withChecks _).setOperand haddress ((Value.sort_simplify hS v).trans hsort)
      ((Value.eval_simplify hS ν v).trans heval)
  split at hptr
  · next hconcrete =>
    simp only [Except.bind_eq_ok, Except.pure_eq_ok] at hptr
    obtain ⟨a, ha, rfl⟩ := hptr
    refine ⟨hden, ?_⟩
    have hlit := Term.asUint64_of_isValue hconcrete (hsort'.trans hsort) ν
    rw [Value.asUint64?, Value.asUint64, hlit] at ha
    show Resolution.literal a = _
    rw [← Except.ok.inj ha, ← heval, ← heval' ν hν]
    rfl
  · next hsymbolic =>
    split at hptr
    · -- the symbolic value is read back
      have hnone : simplified.1.asUint64 = none := by
        cases hu : simplified.1.asUint64 with
        | none => rfl
        | some a => exact absurd (Value.isConcrete_of_asUint64 hu) hsymbolic
      simp only [Except.bind_eq_ok, Value.asUint64?, hnone] at hptr
      obtain ⟨_, ⟨⟩, _⟩ := hptr
    · next hnil =>
      exact absurd (not_not.mp hnil) (possibleValues_ne_nil hS hA hν)

end

theorem mapM_asUint64? : ∀ ns : List ℕ,
    (ns.map addressTerm).mapM (fun t => (Value.ofTerm t).asUint64?)
      = .ok (ns.map (BitVec.ofNat 64))
  | [] => rfl
  | n :: ns => by
    rw [List.map_cons, List.mapM_cons, asUint64?_literal, mapM_asUint64? ns]
    rfl

theorem pagePtr_loadable (a : Addr) : (pagePtr a : Ptr Name).Loadable := by
  rw [pagePtr]
  split <;> trivial

/-- The sizes of accesses are widths of whole bytes. -/
theorem byteWidth_of_mem {size : ℕ} (h : size ∈ [8, 16, 32, 64]) : ByteWidth size := by
  simp only [List.mem_cons, List.not_mem_nil, or_false] at h
  rcases h with rfl | rfl | rfl | rfl <;> decide

/-! ### Loads of the program -/

/-- The loop of `read_memory_intrinsic` is that of `read_memory`, which also names what it loads. -/
theorem readValues_eq {dst : Name} {size : ℕ} {addr : Value} (page : PageId) :
    ∀ {values : List Term} {j : ℕ} {finalSym : Value} {s : Symex} {r : Value × Symex},
      readValues S dst size addr j values finalSym s = .ok r →
      readLoop S ⟨addr, page⟩ size values finalSym s.context = .ok (r.1, r.2.context) ∧
        ∀ name : Name, name.Lifted → r.2.vars name = s.vars name
  | [], j, finalSym, s, r, h => by
    obtain rfl := Except.ok.inj h
    exact ⟨rfl, fun _ _ => rfl⟩
  | value :: values, j, finalSym, s, r, h => by
    simp only [readValues, Except.bind_eq_ok] at h
    obtain ⟨ptr, hptr, h⟩ := h
    obtain ⟨hloop, hvars⟩ := readValues_eq page h
    refine ⟨?_, fun name hname => (hvars name hname).trans ?_⟩
    · simp only [readLoop, hptr, Except.ok_bind]
      exact hloop
    · exact Function.update_of_ne (hname.ne_temp j 1) ..

section

variable (hS : S.Sound) (hA : S.Answers) (hν : Satisfies ν pathConstraints) (hσ : Unwritten ν σ)

include hS hA hν hσ

/-- **Loads of the program** go where they should, and every address they may have is known. -/
theorem readMemoryIntrinsic_sound (h : s.Denotes ν σ types t) (htypes : LiftedTypes types)
    {dst : Name} {size : ℕ} {address : Operand Name} (hsize : size ∈ [8, 16, 32, 64])
    (haddress : address.width types = some 64) {r : Resolution × Symex}
    (hread : readMemoryIntrinsic S pathConstraints dst size address s = .ok r) :
    r.1.Covers (BitVec.ofNat 64 (address.eval t.env)) ∧
    r.2.Denotes ν σ (Function.update types dst (some size))
      (t.set dst (t.mem.load (locate (BitVec.ofNat 64 (address.eval t.env))) (size / 8))) := by
  simp only [readMemoryIntrinsic, Except.bind_eq_ok] at hread
  obtain ⟨addr, haddr, hread⟩ := hread
  obtain ⟨hsort, heval⟩ := h.operand haddress haddr
  have hsort' : (addr.simplify S).term.sort = .bv 64 := (Value.sort_simplify hS addr).trans hsort
  have heval' : (addr.simplify S).eval ν = address.eval t.env :=
    (Value.eval_simplify hS ν addr).trans heval
  have hden := h.setOperand haddress hsort' heval'
  split at hread
  · next s₁ henum =>
    obtain ⟨_, hvalues⟩ := enumerateAddress_sound hS hA hν hden haddress hsort' heval' henum
    obtain ⟨ns, hns, _, _, hmem⟩ := hvalues _ rfl
    rw [List.map_eq_nil_iff.mp hns.symm] at hmem
    cases hmem
  · next value values s₁ henum =>
    obtain ⟨hden₁, hvalues⟩ := enumerateAddress_sound hS hA hν hden haddress hsort' heval' henum
    obtain ⟨ns, hns, _, hlt, hmem⟩ := hvalues _ rfl
    obtain ⟨n, ns, rfl⟩ := List.exists_cons_of_ne_nil (List.ne_nil_of_mem hmem)
    obtain ⟨rfl, rfl⟩ := List.cons.inj (hns.trans (List.map_cons ..))
    obtain ⟨ptr, hptr, hpage, hbase⟩ := calculatePointer_sound hS n
    simp only [Except.bind_eq_ok, Except.pure_eq_ok] at hread
    obtain ⟨ptr', hptr', final, hfinal, addresses, haddresses, rfl⟩ := hread
    obtain rfl := Except.ok.inj (hptr.symm.trans hptr')
    have hwidth : 8 * (size / 8) = size := by
      have hw := (byteWidth_of_mem hsize).1
      omega
    have hk : 0 < size / 8 := by
      have hw := byteWidth_of_mem hsize
      have hpos := hw.2.1
      omega
    obtain ⟨hdenF, hsortF, hevalF⟩ := hden₁.context.read (c := s₁.context) (hσ.unwrittenFrom _) hbase hk
    rw [hwidth] at hdenF hsortF hevalF
    -- the rest of the addresses
    obtain ⟨hloop, hvars⟩ := readValues_eq globalPage hfinal
    obtain ⟨res, c', hloop', hgrow, hresSize, hresEval⟩ := readLoop_sound
      (p := ⟨addr.simplify S, globalPage⟩) hS hk ns (s₁.context.read S ptr size).1
      (fun m hm => hlt m (List.mem_cons_of_mem _ hm))
      (by rw [hwidth, Value.size, Term.bits, hsortF]; rfl) (hdenF.wf _)
    rw [hwidth] at hloop' hresSize
    obtain ⟨rfl, rfl⟩ := Prod.mk.inj (Except.ok.inj (hloop.symm.trans hloop'))
    have hdenL := hdenF.grows (hσ.unwrittenFrom _) hgrow
    obtain rfl : (n :: ns).map (BitVec.ofNat 64) = addresses :=
      Except.ok.inj ((mapM_asUint64? (n :: ns)).symm.trans haddresses)
    have heval₆₄ : (addr.simplify S).eval ν = address.eval t.env := heval'
    refine ⟨?_, ?_⟩
    · rw [← heval₆₄]
      exact List.mem_map_of_mem hmem
    · have hvars' : Symex.Denotes ν σ types final.2 t := by
        have hbase : Symex.Denotes ν σ types ⟨final.2.context, s₁.vars⟩ t := ⟨hden₁.vars, hdenL⟩
        refine hbase.congr_vars htypes fun name hname => (hvars name hname).trans ?_
        exact Function.update_of_ne (hname.ne_temp 0 1) ..
      refine hvars'.set dst ?_ ?_
      · rw [Value.sort_simplify hS]
        refine Term.sort_of_bits hresSize ?_
        have hw := byteWidth_of_mem hsize
        have hmod := hw.1
        omega
      · rw [Value.eval_simplify hS, hresEval ν σ, hdenL.mem]
        change (if (addr.simplify S).eval ν ∈ ns then _ else _) = _
        rw [← heval₆₄]
        split
        · rfl
        · next hnotin =>
          have hfirst := (List.mem_cons.mp hmem).resolve_right hnotin
          rw [hevalF, hpage, hfirst]
  · next s₁ henum =>
    obtain ⟨hden₁, _⟩ := enumerateAddress_sound hS hA hν hden haddress hsort' heval' henum
    simp only [Except.bind_eq_ok, Except.pure_eq_ok] at hread
    obtain ⟨ptr, hptr, s₂, hload, rfl⟩ := hread
    obtain ⟨hden₂, hliteral⟩ := valueToPointer_sound hS hA hν hden₁ haddress hptr
    rw [hliteral] at hload
    have hresult := visitLoad_sound hS hσ hden₂ (byteWidth_of_mem hsize) (pagePtr_loadable _) hload
    rw [pagePtr_place] at hresult
    exact ⟨by rw [hliteral]; rfl, hresult⟩

omit hA hν hσ in
/-- The loop of `write_memory_intrinsic` is that of `write_memory`: rewriting a value before it is
written changes nothing. -/
theorem writeValues_eq {addr val : Value} (page : PageId) : ∀ (values : List Term) (c : Context),
    writeValues S addr val values c = writeLoop S ⟨addr, page⟩ val values c
  | [], _ => rfl
  | value :: values, c => by
    rw [writeValues, writeLoop]
    congr 1
    funext currPtr
    rw [writeValues_eq page values]
    congr 1
    have hwrite : ∀ (c : Context) (v : Value), c.write S currPtr (v.simplify S) = c.write S currPtr v := by
      intro c v
      rw [Context.write, Context.write, Memory.write, Memory.write, Value.size_simplify hS,
        Value.simplify_simplify]
    exact hwrite _ _

/-- **Stores of the program** go where they should. -/
theorem writeMemoryIntrinsic_sound (h : s.Denotes ν σ types t) {size : ℕ}
    {address value : Operand Name} (hsize : size ∈ [8, 16, 32, 64])
    (haddress : address.width types = some 64) (hvalue : value.width types = some size)
    {r : Resolution × Symex}
    (hwrite : writeMemoryIntrinsic S pathConstraints size address value s = .ok r) :
    r.1.Covers (BitVec.ofNat 64 (address.eval t.env)) ∧
    r.2.Denotes ν σ types (t.store (locate (BitVec.ofNat 64 (address.eval t.env))) (size / 8)
      (value.eval t.env)) := by
  simp only [writeMemoryIntrinsic, Except.bind_eq_ok] at hwrite
  obtain ⟨addr, haddr, hwrite⟩ := hwrite
  obtain ⟨hsort, heval⟩ := h.operand haddress haddr
  obtain ⟨hsort', heval'⟩ := Value.simplifyUnder_sound hS pathConstraints s.context.checks addr
  set addrSym := addr.simplifyUnder S pathConstraints s.context.checks
  have hden := (h.withChecks addrSym.2).setOperand haddress
    ((Value.sort_simplify hS addr).trans hsort) ((Value.eval_simplify hS ν addr).trans heval)
  have heval₁ : addrSym.1.eval ν = address.eval t.env := (heval' ν hν).trans heval
  have hwidth : 8 * (size / 8) = size ∧ 0 < size / 8 ∧ size / 8 < 256 := by
    have hw := byteWidth_of_mem hsize
    obtain ⟨hmod, hpos, hlt⟩ := hw
    omega
  split at hwrite
  · next values s₁ henum =>
    obtain ⟨hden₁, hvalues⟩ := enumerateAddress_sound hS hA hν hden haddress (hsort'.trans hsort)
      heval₁ henum
    obtain ⟨ns, rfl, hnodup, hlt, hmem⟩ := hvalues _ rfl
    simp only [Except.bind_eq_ok, Except.pure_eq_ok] at hwrite
    obtain ⟨val, hval, _, _, c, hloop, addresses, haddresses, rfl⟩ := hwrite
    obtain rfl : ns.map (BitVec.ofNat 64) = addresses :=
      Except.ok.inj ((mapM_asUint64? ns).symm.trans haddresses)
    have hvalSize : val.size = 8 * (size / 8) :=
      (hden₁.size_operand hvalue hval).trans hwidth.1.symm
    rw [writeValues_eq hS globalPage] at hloop
    obtain ⟨c', hloop', hwf, _, _, hstore⟩ := writeLoop_sound (p := ⟨addrSym.1, globalPage⟩) hS
      hwidth.2.1 hvalSize ns (c := s₁.context) hnodup hlt (hden₁.context.wf.wfFor _)
    obtain rfl := Except.ok.inj (hloop.symm.trans hloop')
    obtain ⟨F, hF, hstore⟩ := hstore ν
    have hmod : size / 8 % 256 = size / 8 := Nat.mod_eq_of_lt hwidth.2.2
    -- the new symbols are bytes of the initial memory
    have hfill : F σ = σ := by
      funext q y
      rcases hF σ q y with h | ⟨id, _, h⟩
      · exact h
      · exact h.trans (hσ q y id)
    refine ⟨?_, hden₁.vars, ?_, fun j => hwf j fun hj => hmod ▸ hj⟩
    · rw [← heval₁]
      exact List.mem_map_of_mem hmem
    · rw [hstore σ, if_pos hmem, hmod, hfill, hden₁.context.mem, (hden₁.operand hvalue hval).2]
      change t.mem.store (locate (BitVec.ofNat 64 (addrSym.1.eval ν))).1 _ _ _ = _
      rw [heval₁]
      rfl
  · next s₁ henum =>
    obtain ⟨hden₁, _⟩ := enumerateAddress_sound hS hA hν hden haddress (hsort'.trans hsort)
      heval₁ henum
    simp only [Except.bind_eq_ok, Except.pure_eq_ok] at hwrite
    obtain ⟨ptr, hptr, val, hval, _, _, s₂, hstore, rfl⟩ := hwrite
    obtain ⟨hden₂, hliteral⟩ := valueToPointer_sound hS hA hν hden₁ haddress hptr
    rw [hliteral] at hstore
    have hresult := visitStore_sound hS hden₂ (byteWidth_of_mem hsize) hvalue (pagePtr_loadable _)
      hstore
    rw [pagePtr_place] at hresult
    exact ⟨by rw [hliteral]; rfl, hresult⟩

/-- **Straight-line code is executed soundly**, and every access of it is covered. -/
theorem runBlock_sound : ∀ {insts : List (Inst Name)} {types : Types Name} {s : Symex}
    {t : IrState Name} {r : Emitted × Symex}, Typed types insts → LiftedTypes types →
    LiftedCode insts → s.Denotes ν σ types t → runBlock S pathConstraints insts s = .ok r →
    r.2.Denotes ν σ (finalTypes types insts) (execAll insts t) ∧ Covered insts r.1.resolutions t
  | [], types, s, t, r, _, _, _, h, hrun => by
    obtain rfl := Except.ok.inj hrun
    exact ⟨h, trivial⟩
  | i :: is, types, s, t, r, ⟨hi, hnew, hrest⟩, htypes, hcode, h, hrun => by
    have hnext := htypes.extend (hcode i (List.mem_cons_self ..))
    have hcode' : LiftedCode is := fun i hi => hcode i (List.mem_cons_of_mem _ hi)
    have hterm : ¬ i.isTerminator = true := by
      intro hterm
      cases i <;> first | exact hi.elim | cases hterm
    rw [runBlock, if_neg hterm] at hrun
    simp only [Except.bind_eq_ok, Except.pure_eq_ok] at hrun
    obtain ⟨first, hfirst, rest, hrestRun, rfl⟩ := hrun
    cases i with
    | readMemory dst size a =>
      simp only [Emulator.run, Except.bind_eq_ok, Except.pure_eq_ok] at hfirst
      obtain ⟨read, hread, rfl⟩ := hfirst
      obtain ⟨hcovers, hden⟩ :=
        readMemoryIntrinsic_sound hS hA hν hσ h htypes hi.1 hi.2 hread
      obtain ⟨hfinal, hcovered⟩ := runBlock_sound hrest hnext hcode' hden hrestRun
      exact ⟨hfinal, hcovers, hcovered⟩
    | writeMemory dst size a v =>
      simp only [Emulator.run, Except.bind_eq_ok, Except.pure_eq_ok] at hfirst
      obtain ⟨write, hwrite, rfl⟩ := hfirst
      obtain ⟨hcovers, hden⟩ :=
        writeMemoryIntrinsic_sound hS hA hν hσ h hi.1 hi.2.1 hi.2.2 hwrite
      obtain ⟨hfinal, hcovered⟩ := runBlock_sound hrest hnext hcode' hden hrestRun
      exact ⟨hfinal, hcovers, hcovered⟩
    | _ =>
      simp only [Emulator.run, Except.bind_eq_ok, Except.pure_eq_ok] at hfirst
      obtain ⟨s', hvisit, rfl⟩ := hfirst
      have hresult := runBlock_sound hrest hnext hcode' (visit_sound hS hσ h hi rfl hvisit) hrestRun
      exact hresult

end

end Vexa
