import Vexa.SymbolicExecution

/-!
# Symbolic values have the widths of their names

Whatever the solver answers, and also where it gives up: a name defined with `w` bits has a symbolic
value of `w` bits, and the cells of the memory name bytes of their values. A check that is not
answered may lose an address or keep a value symbolic, but never changes a width.

Of the names made on the way to a result only the loaded values get a symbolic value. A comparison
or a choice the lifter emitted has none.

## Main definitions

* `Symex.Sized` — values, names made on the way, and memory

## Main results

* `visit_sized`, `readMemoryIntrinsic_sized`, `writeMemoryIntrinsic_sized` — one instruction
* `runBlock_sized` — straight-line code
-/

namespace Vexa

/-- The symbolic values have the widths of their names. -/
structure Symex.Sized (types : Types Name) (s : Symex) : Prop where
  vars : ∀ name w, types name = some w → ∃ v, s.vars name = some v ∧ v.size = w
  temps : ∀ name : Name, ¬ name.Lifted → name.part.2 ≠ 1 → s.vars name = none
  wf : s.context.memory.WF

variable {S : Solver} {pathConstraints : List Term} {types : Types Name} {s s' : Symex}
  {c c' : Context} {k : ℕ}

/-! ### Memory -/

/-- A read through any pointer. -/
theorem Context.read_wf (hc : c.memory.WF) (ptr : Pointer) (hk : 0 < k) :
    (c.read S ptr (8 * k)).2.memory.WF ∧ (c.read S ptr (8 * k)).1.size = 8 * k := by
  cases hbase : (ptr.simplify S).asUint64 with
  | some base =>
    obtain ⟨hgrow, hsize, _⟩ := Context.read_sound (hc k) hbase hk
    exact ⟨hgrow.wf hc, hsize⟩
  | none =>
    have hread : c.read S ptr (8 * k) = c.symbolic .read (8 * k) := by
      rw [Context.read, hbase]
    rw [hread]
    exact ⟨hc, rfl⟩

/-- `read_memory`, however the pointer is resolved. -/
theorem readMemory_wf (hS : S.Sound) (hc : c.memory.WF) {p : Pointer} (hp : p.term.sort = .bv 64)
    (hk : 0 < k) {r : Value × Context} (h : readMemory S pathConstraints c p (8 * k) = .ok r) :
    r.2.memory.WF ∧ r.1.size = 8 * k := by
  have hsort : (p.simplify S).term.sort = .bv 64 := (Value.sort_simplify hS p.toValue).trans hp
  obtain ⟨ns, hns, _, hlt, _⟩ := exists_addresses hS hsort pathConstraints c.checks
  have hread := fun ptr => Context.read_wf (S := S) (c := enumerated S pathConstraints c (p.simplify S))
    hc ptr hk
  simp only [readMemory] at h
  split at h
  · obtain rfl := Except.ok.inj h
    exact Context.read_wf hc _ hk
  · rw [hns] at h
    rcases ns with _ | ⟨n, _ | ⟨n', ns⟩⟩
    · obtain rfl := Except.ok.inj h
      exact hread _
    · simp only [List.map_cons, List.map_nil, Except.bind_eq_ok, Except.pure_eq_ok] at h
      obtain ⟨ptr, _, rfl⟩ := h
      exact hread ptr
    · simp only [List.map_cons] at h
      split at h
      · simp only [Except.bind_eq_ok] at h
        obtain ⟨ptr, _, h⟩ := h
        obtain ⟨hwf, hsize⟩ := hread ptr
        obtain ⟨res, c', hloop, hgrow, hres, _⟩ := readLoop_sound (p := p.simplify S) hS hk
          (n' :: ns) _ (fun m hm => (hlt m (List.mem_cons_of_mem _ hm)).1) hsize (hwf k)
        obtain rfl := Except.ok.inj (hloop.symm.trans h)
        exact ⟨hgrow.wf hwf, hres⟩
      · obtain rfl := Except.ok.inj h
        exact hread _

/-- `write_memory`, however the pointer is resolved. -/
theorem writeMemory_wf (hS : S.Sound) (hc : c.memory.WF) {p : Pointer} (hp : p.term.sort = .bv 64)
    {val : Value} (hsize : val.size = 8 * k) (hk : 0 < k) (hk' : k < 256)
    (h : writeMemory S pathConstraints c p val = .ok c') : c'.memory.WF := by
  have hsort : (p.simplify S).term.sort = .bv 64 := (Value.sort_simplify hS p.toValue).trans hp
  obtain ⟨ns, hns, hnodup, hlt, _⟩ := exists_addresses hS hsort pathConstraints c.checks
  simp only [writeMemory] at h
  split at h
  · obtain rfl := Except.ok.inj h
    exact hc.write hS hsize hk'
  · rw [hns] at h
    split at h
    · simp only [Except.bind_eq_ok, Except.pure_eq_ok] at h
      obtain ⟨ptr, _, rfl⟩ := h
      exact hc.write hS hsize hk'
    · split at h
      · obtain ⟨c'', hloop, hwf, _⟩ := writeLoop_sound (p := p.simplify S) hS hk hsize ns
          (c := enumerated S pathConstraints c (p.simplify S)) hnodup (fun m hm => (hlt m hm).1)
          (hc.wfFor k)
        obtain rfl := Except.ok.inj (hloop.symm.trans h)
        exact fun j => hwf j fun hj => (Nat.mod_eq_of_lt hk').symm.trans hj
      · obtain rfl := Except.ok.inj h
        exact hc.write hS hsize hk'

/-! ### Names -/

namespace Symex.Sized

theorem operand (h : s.Sized types) {a : Operand Name} {w : ℕ} {v : Value}
    (ha : a.width types = some w) (hv : s.get a = .ok v) : v.size = w := by
  cases a with
  | const w' n =>
    obtain rfl := Except.ok.inj hv
    obtain rfl := Option.some.inj ha
    rfl
  | ssa name =>
    obtain ⟨v', hv', hsize⟩ := h.vars name w ha
    rw [Symex.get, hv'] at hv
    obtain rfl := Except.ok.inj hv
    exact hsize

theorem withContext (h : s.Sized types) (hc : c.memory.WF) :
    Symex.Sized types { s with context := c } := ⟨h.vars, h.temps, hc⟩

theorem withChecks (h : s.Sized types) (n : ℕ) :
    Symex.Sized types { s with context.checks := n } := ⟨h.vars, h.temps, h.wf⟩

/-- A new result. -/
theorem set (h : s.Sized types) {dst : Name} (hdst : dst.Lifted) {w : ℕ} {v : Value}
    (hsize : v.size = w) : (s.set dst v).Sized (Function.update types dst (some w)) := by
  refine ⟨fun name w' hname => ?_, fun name hname hpart => ?_, h.wf⟩
  · by_cases hd : name = dst
    · subst hd
      rw [Function.update_self] at hname
      obtain rfl := Option.some.inj hname
      exact ⟨v, Function.update_self .., hsize⟩
    · rw [Function.update_of_ne hd] at hname
      obtain ⟨v', hv', hsize'⟩ := h.vars name w' hname
      exact ⟨v', (Function.update_of_ne hd ..).trans hv', hsize'⟩
  · have hd : name ≠ dst := by
      rintro rfl
      exact hname hdst
    exact (Function.update_of_ne hd ..).trans (h.temps name hname hpart)

/-- A loaded value on the way to a result. -/
theorem setTemp (h : s.Sized types) (htypes : LiftedTypes types) (dst : Name) (j : ℕ) (v : Value) :
    (s.set (dst.temp j 1) v).Sized types := by
  refine ⟨fun name w hname => ?_, fun name hname hpart => ?_, h.wf⟩
  · obtain ⟨v', hv', hsize⟩ := h.vars name w hname
    exact ⟨v', (Function.update_of_ne ((htypes name w hname).ne_temp j 1) ..).trans hv', hsize⟩
  · have hd : name ≠ dst.temp j 1 := by
      rintro rfl
      exact hpart rfl
    exact (Function.update_of_ne hd ..).trans (h.temps name hname hpart)

/-- An operand gets another value of its width. -/
theorem setOperand (h : s.Sized types) (htypes : LiftedTypes types) {a : Operand Name} {w : ℕ}
    {v : Value} (ha : a.width types = some w) (hsize : v.size = w) :
    (s.setOperand a v).Sized types := by
  cases a with
  | const w' n => exact h
  | ssa dst =>
    have hset := h.set (htypes dst w ha) hsize
    rwa [Function.update_eq_self_iff.mpr (show some w = types dst from ha.symm)] at hset

end Symex.Sized

/-- The pointer is a known place or a 64-bit number. -/
def Ptr.Addressed (types : Types Name) : Ptr Name → Prop
  | .intToPtr address => address.width types = some 64
  | _ => True

theorem Ptr.Loadable.addressed {ptr : Ptr Name} (h : ptr.Loadable) : ptr.Addressed types := by
  cases ptr with
  | intToPtr value => exact h.elim
  | _ => trivial

theorem Symex.Sized.pointer (h : s.Sized types) {ptr : Ptr Name} (hptr : ptr.Addressed types)
    {p : Pointer} (hp : s.pointer ptr = .ok p) : p.term.sort = .bv 64 := by
  cases ptr with
  | intToPtr address =>
    simp only [Symex.pointer, Except.bind_eq_ok, Except.pure_eq_ok] at hp
    obtain ⟨v, hv, rfl⟩ := hp
    exact Term.sort_of_bits (h.operand hptr hv) (by decide)
  | _ =>
    obtain rfl := Except.ok.inj hp
    rfl

/-! ### Instructions without intrinsics -/

theorem visitLoad_sized (hS : S.Sound) (h : s.Sized types) {dst : Name} (hdst : dst.Lifted) {w : ℕ}
    {ptr : Ptr Name} (hw : ByteWidth w) (hptr : ptr.Addressed types)
    (hvisit : visitLoad S pathConstraints dst w ptr s = .ok s') :
    s'.Sized (Function.update types dst (some w)) := by
  simp only [visitLoad, Except.bind_eq_ok, Except.pure_eq_ok] at hvisit
  obtain ⟨p, hp, read, hread, rfl⟩ := hvisit
  obtain ⟨hmod, hpos, _⟩ := hw
  rw [show (w + 7) / 8 * 8 = 8 * (w / 8) by omega] at hread
  have hsort : (p.simplify S).term.sort = .bv 64 :=
    (Value.sort_simplify hS p.toValue).trans (h.pointer hptr hp)
  obtain ⟨hwf, hsize⟩ := readMemory_wf hS h.wf hsort (by omega) hread
  exact (h.withContext hwf).set hdst (hsize.trans (by omega))

theorem visitStore_sized (hS : S.Sound) (h : s.Sized types) {w : ℕ} {value : Operand Name}
    {ptr : Ptr Name} (hw : ByteWidth w) (hvalue : ∀ v, s.get value = .ok v → v.size = w)
    (hptr : ptr.Addressed types) (hvisit : visitStore S pathConstraints value ptr s = .ok s') :
    s'.Sized types ∧ s'.vars = s.vars := by
  simp only [visitStore, Except.bind_eq_ok, Except.pure_eq_ok] at hvisit
  obtain ⟨p, hp, val, hval, c, hwrite, rfl⟩ := hvisit
  obtain ⟨hmod, hpos, hlt⟩ := hw
  have hsize : val.size = 8 * (w / 8) := (hvalue val hval).trans (by omega)
  exact ⟨h.withContext (writeMemory_wf hS h.wf (h.pointer hptr hp) hsize (by omega) (by omega) hwrite),
    rfl⟩

theorem Opcode.size_binary (op : Opcode) (v v' : Value) : (v.binary op.kind v').size = v.size := by
  show (op.kind.sort v.term.sort v'.term.sort).bits = v.term.sort.bits
  rw [Opcode.sort_kind]
  rfl

/-- The widths a cast is between. -/
def CastOp.Between (op : CastOp) (src w : ℕ) : Prop :=
  match op with
  | .zext | .sext => src < w
  | .trunc => 0 < w

/-- A cast yields its width, whatever it is applied to. -/
theorem visit_cast {dst : Name} {op : CastOp} {src w : ℕ} {a : Operand Name}
    (hop : op.Between src w) (h : visit S pathConstraints (.cast dst op src w a) s = .ok s') :
    ∃ v, v.size = w ∧ s' = s.set dst v := by
  cases op with
  | zext | sext =>
    simp only [visit, Except.bind_eq_ok, Except.pure_eq_ok] at h
    obtain ⟨v, _, _, hsize, rfl⟩ := h
    refine ⟨_, ?_, rfl⟩
    have hassert : v.size = src := by
      by_contra hne
      rw [vexaAssert, if_neg (by simpa using hne)] at hsize
      cases hsize
    show v.term.sort.bits + (w - v.size) = w
    have hlt : src < w := hop
    rw [show v.term.sort.bits = src from hassert, hassert]
    omega
  | trunc =>
    simp only [visit, Except.bind_eq_ok, Except.pure_eq_ok] at h
    obtain ⟨v, _, _, _, rfl⟩ := h
    refine ⟨_, ?_, rfl⟩
    have hpos : 0 < w := hop
    show w - 1 + 1 - 0 = w
    omega

/-- **Instructions that are not memory intrinsics.** -/
theorem visit_sized (hS : S.Sound) (h : s.Sized types) {i : Inst Name}
    (hi : i.OperandsTyped types) (hlifted : ∀ dst w, i.result = some (dst, w) → dst.Lifted)
    (haddress : i.address = none) (hvisit : visit S pathConstraints i s = .ok s') :
    s'.Sized (i.extend types) := by
  cases i with
  | binary dst op w a b =>
    simp only [visit, Except.bind_eq_ok, Except.pure_eq_ok] at hvisit
    obtain ⟨v, hv, v', hv', rfl⟩ := hvisit
    exact h.set (hlifted dst w rfl) ((op.size_binary v v').trans (h.operand hi.2.1 hv))
  | icmp dst p w a b =>
    simp only [visit, Except.bind_eq_ok, Except.pure_eq_ok] at hvisit
    obtain ⟨v, hv, v', hv', rfl⟩ := hvisit
    exact h.set (hlifted dst 1 rfl) rfl
  | cast dst op src w a =>
    have hop : op.Between src w := by cases op <;> first | exact hi.1.1 | exact hi.1
    obtain ⟨v, hsize, rfl⟩ := visit_cast hop hvisit
    exact h.set (hlifted dst w rfl) hsize
  | select dst w c a b =>
    simp only [visit, Except.bind_eq_ok, Except.pure_eq_ok] at hvisit
    obtain ⟨cv, hc, v, hv, v', hv', rfl⟩ := hvisit
    exact h.set (hlifted dst w rfl) ((Value.size_ite cv v v').trans (h.operand hi.2.1 hv))
  | freeze dst w a =>
    simp only [visit, Except.bind_eq_ok, Except.pure_eq_ok] at hvisit
    obtain ⟨v, hv, rfl⟩ := hvisit
    exact h.set (hlifted dst w rfl) (h.operand hi hv)
  | load dst w ptr => exact visitLoad_sized hS h (hlifted dst w rfl) hi.1 hi.2.addressed hvisit
  | store w a ptr =>
    exact (visitStore_sized hS h hi.1 (fun v hv => h.operand hi.2.1 hv)
      (Renamed.loadable_of_storable hi.2.2).addressed hvisit).1
  | unsupported dst w opcode => cases hvisit
  | readMemory dst size a => cases haddress
  | writeMemory dst size a v => cases haddress
  | br target => exact hi.elim
  | condBr c ifTrue ifFalse => exact hi.elim
  | ret => exact hi.elim
  | unreachable => exact hi.elim

/-- The rewritten value is what the operand holds from then on. -/
theorem Symex.get_setOperand_simplify {a : Operand Name} {v : Value} (h : s.get a = .ok v) (s' : Symex) :
    (s'.setOperand a (v.simplify S)).get a = .ok (v.simplify S) := by
  cases a with
  | const w n =>
    obtain rfl := Except.ok.inj h
    rfl
  | ssa name => exact Symex.get_set_self ..

/-! ### The intrinsics -/

section

variable (hS : S.Sound)

include hS

theorem enumerateAddress_sized (h : s.Sized types) (htypes : LiftedTypes types)
    {address : Operand Name} (haddress : address.width types = some 64) {addrSym : Value}
    (hsize : addrSym.size = 64) {r : Option (List Term) × Symex}
    (henum : enumerateAddress S pathConstraints address addrSym s = r) :
    r.2.Sized types ∧ ∀ values, r.1 = some values → ∃ ns : List ℕ, values = ns.map addressTerm ∧
      ns.Nodup ∧ ∀ n ∈ ns, n < 2 ^ 64 := by
  obtain ⟨ns, hns, hnodup, hlt, _⟩ := exists_addresses hS
    (Term.sort_of_bits hsize (by decide)) pathConstraints s.context.checks
  rw [enumerateAddress] at henum
  split at henum
  · subst henum
    exact ⟨h, fun values hvalues => by cases hvalues⟩
  · simp only at henum
    split at henum
    · subst henum
      exact ⟨h.withChecks _, fun values hvalues =>
        ⟨ns, (Option.some.inj hvalues).symm.trans hns, hnodup, fun n hn => (hlt n hn).1⟩⟩
    · split at henum
      · next value hvalue =>
        subst henum
        rw [hns] at hvalue
        obtain ⟨n, rfl, rfl⟩ := List.map_eq_singleton_iff.mp hvalue
        exact ⟨(h.withChecks _).setOperand htypes haddress rfl, fun values hvalues => by cases hvalues⟩
      · subst henum
        exact ⟨h.withChecks _, fun values hvalues => by cases hvalues⟩

theorem valueToPointer_sized (h : s.Sized types) (htypes : LiftedTypes types)
    {address : Operand Name} (haddress : address.width types = some 64) {r : Resolution × Symex}
    (hptr : valueToPointer S pathConstraints address s = .ok r) :
    r.2.Sized types ∧ (r.1.ptr address).Addressed types := by
  simp only [valueToPointer, Except.bind_eq_ok] at hptr
  obtain ⟨v, hv, hptr⟩ := hptr
  have hsized := fun checks => (h.withChecks checks).setOperand htypes haddress
    ((Value.size_simplify hS v).trans (h.operand haddress hv))
  split at hptr
  · simp only [Except.bind_eq_ok, Except.pure_eq_ok] at hptr
    obtain ⟨a, _, rfl⟩ := hptr
    exact ⟨hsized _, (pagePtr_loadable a).addressed⟩
  · split at hptr
    · simp only [Except.bind_eq_ok, Except.pure_eq_ok] at hptr
      obtain ⟨a, _, rfl⟩ := hptr
      exact ⟨(hsized _).withChecks _, (pagePtr_loadable a).addressed⟩
    · obtain rfl := Except.ok.inj hptr
      exact ⟨(hsized _).withChecks _, haddress⟩

omit hS in
theorem readValues_sized {dst : Name} {size : ℕ} {addr : Value} (hsize : size = 8 * k)
    (hk : 0 < k) (htypes : LiftedTypes types) : ∀ (ns : List ℕ) {j : ℕ} {finalSym : Value} {s : Symex}
    {r : Value × Symex}, s.Sized types → finalSym.size = size →
      readValues S dst size addr j (ns.map addressTerm) finalSym s = .ok r →
      r.2.Sized types ∧ r.1.size = size
  | [], j, finalSym, s, r, h, hfinal, hrun => by
    obtain rfl := Except.ok.inj hrun
    exact ⟨h, hfinal⟩
  | n :: ns, j, finalSym, s, r, h, hfinal, hrun => by
    subst hsize
    simp only [List.map_cons, readValues, Except.bind_eq_ok] at hrun
    obtain ⟨ptr, _, hrun⟩ := hrun
    obtain ⟨hwf, hread⟩ := Context.read_wf (S := S) h.wf ptr hk
    exact readValues_sized rfl hk htypes ns ((h.withContext hwf).setTemp htypes dst j _)
      ((Value.size_ite ..).trans hread) hrun

/-- **Loads of the program.** -/
theorem readMemoryIntrinsic_sized (h : s.Sized types) (htypes : LiftedTypes types) {dst : Name}
    (hdst : dst.Lifted) {size : ℕ} {address : Operand Name} (hsize : size ∈ [8, 16, 32, 64])
    (haddress : address.width types = some 64) {r : Resolution × Symex}
    (hread : readMemoryIntrinsic S pathConstraints dst size address s = .ok r) :
    r.2.Sized (Function.update types dst (some size)) := by
  simp only [readMemoryIntrinsic, Except.bind_eq_ok] at hread
  obtain ⟨addr, haddr, hread⟩ := hread
  have hsize₁ : (addr.simplify S).size = 64 :=
    (Value.size_simplify hS addr).trans (h.operand haddress haddr)
  have h₁ := h.setOperand htypes haddress hsize₁
  have hwidth : size = 8 * (size / 8) ∧ 0 < size / 8 := by
    obtain ⟨hmod, hpos, _⟩ := byteWidth_of_mem hsize
    omega
  split at hread
  · next henum => exact absurd (enumerateAddress_length henum) (by simp)
  · next value values s₁ henum =>
    obtain ⟨h₂, hvalues⟩ := enumerateAddress_sized hS h₁ htypes haddress hsize₁ henum
    obtain ⟨ns, hns, _, _⟩ := hvalues _ rfl
    obtain ⟨n, ns, rfl, rfl, rfl⟩ := List.map_eq_cons_iff.mp hns.symm
    simp only [Except.bind_eq_ok, Except.pure_eq_ok] at hread
    obtain ⟨ptr, _, final, hfinal, addresses, _, rfl⟩ := hread
    obtain ⟨hwf, hfirst⟩ := Context.read_wf (S := S) h₂.wf ptr hwidth.2
    rw [← hwidth.1] at hwf hfirst
    obtain ⟨h₃, hres⟩ := readValues_sized hwidth.1 hwidth.2 htypes ns
      ((h₂.withContext hwf).setTemp htypes dst 0 _) hfirst hfinal
    exact h₃.set hdst ((Value.size_simplify hS _).trans hres)
  · next s₁ henum =>
    obtain ⟨h₂, _⟩ := enumerateAddress_sized hS h₁ htypes haddress hsize₁ henum
    simp only [Except.bind_eq_ok, Except.pure_eq_ok] at hread
    obtain ⟨ptr, hptr, s₂, hload, rfl⟩ := hread
    obtain ⟨h₃, hplace⟩ := valueToPointer_sized hS h₂ htypes haddress hptr
    exact visitLoad_sized hS h₃ hdst (byteWidth_of_mem hsize) hplace hload

/-- **Stores of the program.** -/
theorem writeMemoryIntrinsic_sized (h : s.Sized types) (htypes : LiftedTypes types) {size : ℕ}
    {address value : Operand Name} (hsize : size ∈ [8, 16, 32, 64])
    (haddress : address.width types = some 64) (hvalue : value.width types = some size)
    {r : Resolution × Symex}
    (hwrite : writeMemoryIntrinsic S pathConstraints size address value s = .ok r) :
    r.2.Sized types := by
  simp only [writeMemoryIntrinsic, Except.bind_eq_ok] at hwrite
  obtain ⟨addr, haddr, hwrite⟩ := hwrite
  have haddrSize := h.operand haddress haddr
  have h₁ := (h.withChecks (addr.simplifyUnder S pathConstraints s.context.checks).2).setOperand
    htypes haddress ((Value.size_simplify hS addr).trans haddrSize)
  have hsize₁ : (addr.simplifyUnder S pathConstraints s.context.checks).1.size = 64 := by
    rw [Value.size, Term.bits,
      (Value.simplifyUnder_sound hS pathConstraints s.context.checks addr).1]
    exact haddrSize
  have hwidth : size = 8 * (size / 8) ∧ 0 < size / 8 ∧ size / 8 < 256 := by
    obtain ⟨hmod, hpos, hlt⟩ := byteWidth_of_mem hsize
    omega
  split at hwrite
  · next values s₁ henum =>
    obtain ⟨h₂, hvalues⟩ := enumerateAddress_sized hS h₁ htypes haddress hsize₁ henum
    obtain ⟨ns, rfl, hnodup, hlt⟩ := hvalues _ rfl
    simp only [Except.bind_eq_ok, Except.pure_eq_ok] at hwrite
    obtain ⟨val, hval, _, _, c, hloop, addresses, _, rfl⟩ := hwrite
    rw [writeValues_eq hS globalPage] at hloop
    obtain ⟨c', hloop', hwf, _⟩ := writeLoop_sound hS hwidth.2.1
      ((h₂.operand hvalue hval).trans hwidth.1) ns (c := s₁.context) hnodup hlt (h₂.wf.wfFor _)
    obtain rfl := Except.ok.inj (hloop.symm.trans hloop')
    exact h₂.withContext fun j => hwf j fun hj => (Nat.mod_eq_of_lt hwidth.2.2).symm.trans hj
  · next s₁ henum =>
    obtain ⟨h₂, _⟩ := enumerateAddress_sized hS h₁ htypes haddress hsize₁ henum
    simp only [Except.bind_eq_ok, Except.pure_eq_ok] at hwrite
    obtain ⟨ptr, hptr, val, hval, _, _, s₂, hstore, rfl⟩ := hwrite
    obtain ⟨h₃, hplace⟩ := valueToPointer_sized hS h₂ htypes haddress hptr
    exact (visitStore_sized hS h₃ (byteWidth_of_mem hsize) (fun v hv => h₃.operand hvalue hv) hplace
      hstore).1

/-- **Straight-line code keeps the widths.** -/
theorem runBlock_sized : ∀ {insts : List (Inst Name)} {types : Types Name} {s : Symex}
    {r : Emitted × Symex}, Typed types insts → LiftedTypes types → LiftedCode insts →
    s.Sized types → runBlock S pathConstraints insts s = .ok r →
    r.2.Sized (finalTypes types insts)
  | [], types, s, r, _, _, _, h, hrun => by
    obtain rfl := Except.ok.inj hrun
    exact h
  | i :: is, types, s, r, ⟨hi, _, hrest⟩, htypes, hcode, h, hrun => by
    have hlifted := hcode i (List.mem_cons_self ..)
    have hterm : ¬ i.isTerminator = true := by
      intro hterm
      cases i <;> first | exact hi.elim | cases hterm
    rw [runBlock, if_neg hterm] at hrun
    simp only [Except.bind_eq_ok, Except.pure_eq_ok] at hrun
    obtain ⟨first, hfirst, rest, hrestRun, rfl⟩ := hrun
    have hstep : first.2.Sized (i.extend types) := by
      cases i with
      | readMemory dst size a =>
        simp only [Emulator.run, Except.bind_eq_ok, Except.pure_eq_ok] at hfirst
        obtain ⟨read, hread, rfl⟩ := hfirst
        exact readMemoryIntrinsic_sized hS h htypes (hlifted dst size rfl) hi.1 hi.2 hread
      | writeMemory dst size a v =>
        simp only [Emulator.run, Except.bind_eq_ok, Except.pure_eq_ok] at hfirst
        obtain ⟨write, hwrite, rfl⟩ := hfirst
        exact writeMemoryIntrinsic_sized hS h htypes hi.1 hi.2.1 hi.2.2 hwrite
      | _ =>
        simp only [Emulator.run, Except.bind_eq_ok, Except.pure_eq_ok] at hfirst
        obtain ⟨s', hvisit, rfl⟩ := hfirst
        exact visit_sized hS h hi hlifted rfl hvisit
    have hresult := runBlock_sized hrest (htypes.extend hlifted)
      (fun i hi => hcode i (List.mem_cons_of_mem _ hi)) hstep hrestRun
    exact hresult

end

end Vexa
