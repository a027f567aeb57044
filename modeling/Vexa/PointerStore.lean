import Vexa.PointerAccess

/-!
# No store is lost in the symbolic state

What `write_memory` must leave behind, for every later read and under every valuation of the path
constraints, and exactly when it does. A store can be lost in three ways: the enumeration of the
pointer ends without being complete, and `memory::write` then ignores the symbolic pointer; the
solver gives up after the first value, and the store goes to that address alone; or the value has
more bytes than the `uint8_t` of `memory::write` counts.

## Main definitions

* `WriteFaithful` — every later read sees the store

## Main results

* `writeMemory_sound` — a short store through a resolved pointer
* `writeMemory_faithful_iff` — when no store is lost
-/

namespace Vexa

open LittleEndian

variable {S : Solver} {ν : Valuation} {p : Pointer} {val : Value} {k n : ℕ} {c c' : Context}
  {pathConstraints : List Term}

/-! ### A store must not be lost -/

/-- A byte a read of place `(q, y)` may find: the cell there, or a new symbol. -/
def Context.MayRead (c : Context) (q : PageId) (y : Addr) (cell : MemCell) : Prop :=
  match (c.memory q).find y with
  | some old => cell = old
  | none => ∃ id, c.fresh ≤ id ∧ cell = uninitCell q y id

/-- The byte a place must hold after a store: a byte of the value where the store reaches, and
what was there elsewhere. -/
def StoredByte (ν : Valuation) (c : Context) (p : Pointer) (val : Value) (q : PageId) (y : Addr)
    (b : BitVec 8) : Prop :=
  if q = (p.target ν).1 ∧ (y - (p.target ν).2).toNat < val.size / 8 then
    b = byte (val.eval ν) (y - (p.target ν).2).toNat
  else ∃ old, c.MayRead q y old ∧ b = old.byte ν

/-- Every later read of a concrete range denotes bytes each of which is what the store leaves, or
a new symbol because nobody has written it. -/
def WriteFaithful (S : Solver) (pathConstraints : List Term) (p : Pointer) (val : Value)
    (c c' : Context) : Prop :=
  ∀ ν, Satisfies ν pathConstraints → ∀ q y j, 0 < j →
    (c'.read S (.concrete y q) (8 * j)).1.size = 8 * j ∧
    ∃ bytes : ByteMemory.Memory 64,
      (c'.read S (.concrete y q) (8 * j)).1.eval ν = ByteMemory.load bytes y j ∧
      ∀ x, (c'.memory q).find x = none ∨ StoredByte ν c p val q x (bytes x)

/-- When the memory denotes the store, it is not lost. -/
theorem storedByte_of_denote {F : Bytes → Bytes} (hF : Context.Filling ν c.fresh F)
    (hden : ∀ bg, c'.memory.denote ν bg = (c.memory.denote ν (F bg)).store (p.target ν).1
      (p.target ν).2 (val.size / 8) (val.eval ν))
    {q : PageId} {x : Addr} {cell : MemCell} (hcell : (c'.memory q).find x = some cell) :
    StoredByte ν c p val q x (cell.byte ν) := by
  have hbyte : ∀ bg, cell.byte ν = (c.memory.denote ν (F bg)).store (p.target ν).1
      (p.target ν).2 (val.size / 8) (val.eval ν) q x := fun bg => by
    rw [← hden bg]
    simp only [Memory.denote, hcell]
  rw [StoredByte]
  split
  · next hin =>
    rw [hbyte fun _ _ => 0, hin.1, Bytes.store_self, ByteMemory.store_of_lt _ hin.2]
  · next hout =>
    have hold : ∀ bg, cell.byte ν = c.memory.denote ν (F bg) q x := by
      intro bg
      rw [hbyte bg]
      by_cases hq : q = (p.target ν).1
      · subst hq
        rw [Bytes.store_self, ByteMemory.store_of_not_lt _ fun hlt => hout ⟨rfl, hlt⟩]
      · rw [Bytes.store_of_ne _ hq]
    cases hfind : (c.memory q).find x with
    | some old =>
      refine ⟨old, by rw [Context.MayRead, hfind], ?_⟩
      rw [hold fun _ _ => 0, Memory.denote, hfind]
    | none =>
      -- the byte does not depend on the background, so it is a symbol
      have hfill : ∀ bg, cell.byte ν = F bg q x := fun bg => by
        rw [hold bg, Memory.denote, hfind]
      have hsymbol : ∃ id, c.fresh ≤ id ∧
          cell.byte ν = BitVec.ofNat 8 (ν ⟨.uninit q x, id, 8⟩) := by
        rcases hF (fun _ _ => cell.byte ν + 1) q x with h | ⟨id, hid, h⟩
        · have hne := (hfill _).trans h
          exact absurd hne (by bv_omega)
        · exact ⟨id, hid, (hfill _).trans h⟩
      obtain ⟨id, hid, hbyte'⟩ := hsymbol
      refine ⟨Context.uninitCell q x id, ?_, ?_⟩
      · rw [Context.MayRead, hfind]
        exact ⟨id, hid, rfl⟩
      · rw [hbyte', Context.byte_uninitCell]

theorem writeFaithful_of_denote (hc' : c'.memory.WF)
    (hden : ∀ ν, Satisfies ν pathConstraints → ∃ F, Context.Filling ν c.fresh F ∧
      ∀ bg, c'.memory.denote ν bg = (c.memory.denote ν (F bg)).store (p.target ν).1
        (p.target ν).2 (val.size / 8) (val.eval ν)) :
    WriteFaithful S pathConstraints p val c c' := by
  intro ν hν q y j hj
  obtain ⟨F, hF, hstore⟩ := hden ν hν
  obtain ⟨hgrow, hsize, heval⟩ :=
    Context.read_sound (S := S) (hc' j) (Pointer.asUint64_simplify_concrete S y q) hj
  refine ⟨hsize, _, heval ν fun _ _ => 0, fun x => ?_⟩
  cases hcell : (c'.memory q).find x with
  | none => exact .inl rfl
  | some cell =>
    refine .inr ?_
    have hsame := hgrow.kept q x cell hcell
    simp only [Pointer.page_concrete, Memory.denote, hsame]
    exact storedByte_of_denote hF hstore hcell

/-! ### The four ways through `write_memory` -/

theorem writeMemory_of_concrete (hp : p.Inttoptr) (h : p.isConcrete = true) :
    writeMemory S pathConstraints c p val = .ok (c.write S p val) := by
  simp only [writeMemory, hp.simplify_eq, h, if_true]
  rfl

theorem writeMemory_of_single (hS : S.Sound) (hp : p.Inttoptr) (h : ¬ p.isConcrete = true) {a : ℕ}
    (ha : (possibleValues S pathConstraints c.checks p.term).1 = [addressTerm a]) :
    ∃ ptr, ptr.page = (locate (BitVec.ofNat 64 a)).1 ∧
      (ptr.simplify S).asUint64 = some (locate (BitVec.ofNat 64 a)).2 ∧
      writeMemory S pathConstraints c p val
        = .ok ((enumerated S pathConstraints c p).write S ptr val) := by
  obtain ⟨ptr, hptr, hpage, hbase⟩ := calculatePointer_sound hS a
  refine ⟨ptr, hpage, hbase, ?_⟩
  simp only [writeMemory, hp.simplify_eq, if_neg h, ha, hptr]
  rfl

theorem writeMemory_of_complete (hp : p.Inttoptr) (h : ¬ p.isConcrete = true)
    (hlen : 1 < (possibleValues S pathConstraints c.checks p.term).1.length)
    (hunsat : (possibleValues S pathConstraints c.checks p.term).2.1 = .unsat) :
    writeMemory S pathConstraints c p val = writeLoop S p val
      (possibleValues S pathConstraints c.checks p.term).1 (enumerated S pathConstraints c p) := by
  simp only [writeMemory, hp.simplify_eq, if_neg h]
  split
  · next hone => rw [hone] at hlen; exact absurd hlen (by simp)
  · rw [if_pos ⟨hlen, hunsat⟩]
    rfl

/-- `memory::write` ignores a symbolic pointer. -/
theorem writeMemory_of_unresolved (hp : p.Inttoptr) (h : ¬ p.isConcrete = true)
    (hlen : (possibleValues S pathConstraints c.checks p.term).1.length ≠ 1)
    (hunsat : ¬ (1 < (possibleValues S pathConstraints c.checks p.term).1.length ∧
      (possibleValues S pathConstraints c.checks p.term).2.1 = .unsat)) :
    writeMemory S pathConstraints c p val = .ok (enumerated S pathConstraints c p) := by
  have hnoop : (enumerated S pathConstraints c p).write S p val
      = enumerated S pathConstraints c p := by
    rw [Context.write, Memory.write_of_symbolic (hp.asUint64_eq_none h)]
  simp only [writeMemory, hp.simplify_eq, if_neg h]
  split
  · next hone => rw [hone] at hlen; exact absurd rfl hlen
  · rw [if_neg hunsat]
    exact congrArg Except.ok hnoop

/-- A store of at most 255 bytes through a resolved pointer is not lost. -/
theorem writeMemory_sound (hS : S.Sound) (hp : p.Inttoptr) (hk : 0 < k) (hsize : val.size = 8 * k)
    (hlt : k < 256) (hc : c.memory.WF)
    (hres : p.isConcrete = true ∨ Resolved S pathConstraints c.checks p)
    (hwrite : writeMemory S pathConstraints c p val = .ok c') :
    WriteFaithful S pathConstraints p val c c' := by
  have hbytes : val.size / 8 = k := by omega
  have hmod : val.size / 8 % 256 = k := by omega
  by_cases h : p.isConcrete = true
  · rw [writeMemory_of_concrete hp h] at hwrite
    obtain rfl := Except.ok.inj hwrite
    refine writeFaithful_of_denote (hc.write hS hsize hlt) fun ν _ =>
      ⟨_, Context.Filling.id ν _, fun bg => ?_⟩
    rw [Context.memory_write, Memory.denote_write hS (hp.asUint64 h ν), hmod, hbytes,
      Pointer.target_of_concrete h]
  obtain ⟨ns, hns, hnodup, hfeasible, hcomplete⟩ := hp.exists_addresses hS pathConstraints c.checks
  rcases hres.resolve_left h with ⟨hlen, hunsat⟩ | ⟨hlen, hagree⟩
  · rw [writeMemory_of_complete hp h hlen hunsat, hns] at hwrite
    obtain ⟨c'', hloop, hwf, _, _, hden⟩ := writeLoop_sound (p := p) hS hk hsize ns
      (c := enumerated S pathConstraints c p) hnodup (fun n hn => (hfeasible n hn).1) (hc.wfFor k)
    obtain rfl := Except.ok.inj (hloop.symm.trans hwrite)
    have hmodk : k % 256 = k := Nat.mod_eq_of_lt hlt
    refine writeFaithful_of_denote (fun j => hwf j fun hj => hmodk ▸ hj) fun ν hν => ?_
    obtain ⟨F, hF, hstore⟩ := hden ν
    refine ⟨F, hF, fun bg => ?_⟩
    rw [hstore bg, if_pos (hcomplete hunsat ν hν), hmodk, hbytes, Pointer.target_of_symbolic h]
    rfl
  · obtain ⟨a, rfl⟩ : ∃ a, ns = [a] := List.length_eq_one_iff.mp (by
      rw [hns, List.length_map] at hlen; exact hlen)
    obtain ⟨ptr, hpage, hbase, heq⟩ := writeMemory_of_single hS hp h hns
    obtain rfl := Except.ok.inj (heq.symm.trans hwrite)
    obtain ⟨_, μ, hμ, ha⟩ := hfeasible a (List.mem_singleton_self a)
    refine writeFaithful_of_denote (Memory.WF.write hS hc hsize hlt) fun ν hν =>
      ⟨_, Context.Filling.id ν _, fun bg => ?_⟩
    rw [Context.memory_write, Memory.denote_write hS hbase, hmod, hbytes, hpage,
      Pointer.target_of_symbolic h, hagree ν μ hν hμ, ha]
    rfl

/-! ### When a store is lost -/

/-- A faithful store has put its bytes wherever it reaches. -/
theorem WriteFaithful.byte_eq (h : WriteFaithful S pathConstraints p val c c') {j : ℕ} (hj : 0 < j)
    (hc' : c'.memory.WFAt j) (hν : Satisfies ν pathConstraints) {x : Addr}
    (hx : (x - (p.target ν).2).toNat < val.size / 8)
    (hmapped : (c'.memory (p.target ν).1).find x ≠ none) (bg : Bytes) :
    c'.memory.denote ν bg (p.target ν).1 x = byte (val.eval ν) (x - (p.target ν).2).toNat := by
  obtain ⟨_, bytes, hload, hstored⟩ := h ν hν (p.target ν).1 x j hj
  obtain ⟨hgrow, _, heval⟩ :=
    Context.read_sound (S := S) hc' (Pointer.asUint64_simplify_concrete S x (p.target ν).1) hj
  -- the first byte of the read, in both accounts of it
  have hfirst : ∀ m : ByteMemory.Memory 64, byte (ByteMemory.load m x j) 0 = m x := fun m => by
    rw [ByteMemory.byte_load m x hj]
    exact congrArg m (BitVec.add_zero x)
  have hread := congrArg (byte · 0) (hload.symm.trans (heval ν bg))
  rw [hfirst, hfirst, Pointer.page_concrete] at hread
  obtain ⟨cell, hcell⟩ := Option.ne_none_iff_exists'.mp hmapped
  have hkept := hgrow.kept _ _ _ hcell
  have hbyte := (hstored x).resolve_left hmapped
  rw [StoredByte, if_pos ⟨rfl, hx⟩] at hbyte
  rw [← hbyte, hread, Memory.denote, Memory.denote, hcell, hkept]

/-- A byte different from a given one. -/
theorem exists_ne_byte (b : BitVec 8) : ∃ b', b' ≠ b := ⟨b + 1, by bv_omega⟩

/-- Two different ranges of the same length: some place of the first is outside the second. -/
theorem exists_outside {a b : PageId × Addr} (h : a ≠ b) (hk : 0 < k) (hlt : k < 2 ^ 64) :
    ∃ i < k, ¬ (a.1 = b.1 ∧ (a.2 + BitVec.ofNat 64 i - b.2).toNat < k) := by
  by_cases hzero : a.1 = b.1 ∧ (a.2 - b.2).toNat < k
  · -- the second range starts before the first, so the first ends after the second
    have hpos : (a.2 - b.2).toNat ≠ 0 := fun hz => h (Prod.ext hzero.1 (by bv_omega))
    refine ⟨k - (a.2 - b.2).toNat, by omega, fun hin => ?_⟩
    have hend : (a.2 + BitVec.ofNat 64 (k - (a.2 - b.2).toNat) - b.2).toNat = k := by
      have hle := hzero.2
      bv_omega
    exact absurd hin.2 (by rw [hend]; exact lt_irrefl k)
  · refine ⟨0, hk, fun hin => hzero ⟨hin.1, ?_⟩⟩
    have hin' := hin.2
    rwa [BitVec.add_zero] at hin'

/-- A byte of the target that still has another value shows that the store was lost. -/
theorem not_faithful_of_stale (hsize : val.size = 8 * k) (hc' : c'.memory.WFFor k)
    (hmapped : ∀ q y, (c'.memory q).find y ≠ none) (hν : Satisfies ν pathConstraints) {i : ℕ}
    (hi : i < k) (hlt : i < 2 ^ 64) {bg : Bytes}
    (hstale : c'.memory.denote ν bg (p.target ν).1 ((p.target ν).2 + BitVec.ofNat 64 i)
      ≠ byte (val.eval ν) i) :
    ¬ WriteFaithful S pathConstraints p val c c' := by
  intro h
  -- a read width at which the cells are well-formed
  obtain ⟨j, hj, hwf⟩ : ∃ j, 0 < j ∧ c'.memory.WFAt j := by
    by_cases hone : k % 256 = 1
    · exact ⟨2, by decide, hc' 2 fun htwo => by omega⟩
    · exact ⟨1, by decide, hc' 1 fun h => absurd h hone⟩
  have hdist := ByteMemory.toNat_add_ofNat_sub (p.target ν).2 hlt
  have hbyte := h.byte_eq hj hwf hν (x := (p.target ν).2 + BitVec.ofNat 64 i)
    (by rw [hdist]; omega) (hmapped _ _) bg
  rw [hdist] at hbyte
  exact hstale hbyte

/-- A context whose every byte is `b`. -/
def Context.constant (b : BitVec 8) (checks : ℕ) : Context := ofBytes (fun _ _ => b) checks

theorem Context.constant_wf (b : BitVec 8) (checks : ℕ) : (constant b checks).memory.WF :=
  ofBytes_wf _ _

theorem Context.denote_constant (b : BitVec 8) (checks : ℕ) (bg : Bytes) (q : PageId) (y : Addr) :
    (constant b checks).memory.denote ν bg q y = b :=
  congrFun (congrFun (denote_ofBytes _ _ bg) q) y

/-- After the store in a context whose every byte is `b`, byte `i` of the target still is `b`. -/
def StaleAt (S : Solver) (pathConstraints : List Term) (n : ℕ) (p : Pointer) (val : Value) (k : ℕ)
    (ν : Valuation) (i : ℕ) (b : BitVec 8) : Prop :=
  ∃ c', writeMemory S pathConstraints (.constant b n) p val = .ok c' ∧ c'.memory.WFFor k ∧
    (∀ q y, (c'.memory q).find y ≠ none) ∧
    c'.memory.denote ν (fun _ _ => 0) (p.target ν).1 ((p.target ν).2 + BitVec.ofNat 64 i) = b

/-- Past the byte count of a write nothing changes. -/
theorem not_in_cut (a : Addr) : ¬ (a + BitVec.ofNat 64 (k % 256) - a).toNat < k % 256 := by
  rw [ByteMemory.toNat_add_ofNat_sub _ (by omega)]
  exact lt_irrefl _

/-- A write to one place, seen at another one. -/
theorem denote_write_elsewhere (hS : S.Sound) (hsize : val.size = 8 * k) {ptr : Pointer}
    {base : Addr} (hc : c.memory.WF) (hbase : (ptr.simplify S).asUint64 = some base)
    (hall : ∀ q y, (c.memory q).find y ≠ none) :
    (c.write S ptr val).memory.WFFor k ∧ (∀ q y, ((c.write S ptr val).memory q).find y ≠ none) ∧
      ∀ bg q y, ¬ (q = ptr.page ∧ (y - base).toNat < k % 256) →
        (c.write S ptr val).memory.denote ν bg q y = c.memory.denote ν bg q y := by
  have hbytes : val.size / 8 % 256 = k % 256 := by omega
  refine ⟨fun j hj => (hc j).write hS fun hcut => by rw [hsize, hj (hbytes ▸ hcut)],
    fun q y => ?_, fun bg q y hout => ?_⟩
  · rw [Context.memory_write, Memory.find_write hbase]
    split
    · exact Option.some_ne_none _
    · exact hall q y
  · rw [Context.memory_write, Memory.denote, Memory.find_write hbase, hbytes, if_neg hout]
    rfl

/-- A value of 256 bytes or more is cut off at a concrete pointer. -/
theorem staleAt_of_concrete (hS : S.Sound) (hp : p.Inttoptr) (hsize : val.size = 8 * k)
    (h : p.isConcrete = true) (ν : Valuation) (b : BitVec 8) :
    StaleAt S pathConstraints n p val k ν (k % 256) b := by
  obtain ⟨hwf, hall, hden⟩ := denote_write_elsewhere (ν := ν) hS hsize (Context.constant_wf b n)
    (hp.asUint64 h ν) fun _ _ => Option.some_ne_none _
  refine ⟨_, writeMemory_of_concrete hp h, hwf, hall, ?_⟩
  rw [Pointer.target_of_concrete h, hden _ _ _ fun hin => not_in_cut _ hin.2,
    Context.denote_constant]

/-- The store goes to the one address found and nowhere else. -/
theorem staleAt_of_single (hS : S.Sound) (hp : p.Inttoptr) (hsize : val.size = 8 * k)
    (h : ¬ p.isConcrete = true) {a : ℕ}
    (hns : (possibleValues S pathConstraints n p.term).1 = [addressTerm a]) {i : ℕ}
    (hout : ¬ ((p.target ν).1 = (locate (BitVec.ofNat 64 a)).1 ∧
      ((p.target ν).2 + BitVec.ofNat 64 i - (locate (BitVec.ofNat 64 a)).2).toNat < k % 256))
    (b : BitVec 8) : StaleAt S pathConstraints n p val k ν i b := by
  obtain ⟨ptr, hpage, hbase, heq⟩ :=
    writeMemory_of_single (c := .constant b n) hS hp h hns
  obtain ⟨hwf, hall, hden⟩ := denote_write_elsewhere (ν := ν) hS hsize
    (c := enumerated S pathConstraints (.constant b n) p) (Context.constant_wf b n) hbase
    fun _ _ => Option.some_ne_none _
  refine ⟨_, heq, hwf, hall, ?_⟩
  rw [hden _ _ _ (hpage ▸ hout)]
  exact Context.denote_constant b n _ _ _

/-- A value of 256 bytes or more is cut off at every enumerated address. -/
theorem staleAt_of_complete (hS : S.Sound) (hp : p.Inttoptr) (hk : 0 < k)
    (hsize : val.size = 8 * k) (h : ¬ p.isConcrete = true)
    (hlen : 1 < (possibleValues S pathConstraints n p.term).1.length)
    (hunsat : (possibleValues S pathConstraints n p.term).2.1 = .unsat)
    (hν : Satisfies ν pathConstraints) (b : BitVec 8) :
    StaleAt S pathConstraints n p val k ν (k % 256) b := by
  obtain ⟨ns, hns, hnodup, hfeasible, hcomplete⟩ := hp.exists_addresses hS pathConstraints n
  obtain ⟨c', hloop, hwf, _, hall, hden⟩ := writeLoop_sound (p := p) hS hk hsize ns
    (c := enumerated S pathConstraints (.constant b n) p) hnodup
    (fun m hm => (hfeasible m hm).1) ((Context.constant_wf b n).wfFor k)
  obtain ⟨F, _, hstore⟩ := hden ν
  refine ⟨c', ?_, hwf, fun q y => hall q y (Option.some_ne_none _), ?_⟩
  · rw [writeMemory_of_complete (c := .constant b n) hp h hlen hunsat]
    exact hns ▸ hloop
  · rw [hstore, if_pos (hcomplete hunsat ν hν), Pointer.target_of_symbolic h, Bytes.store_self,
      ByteMemory.store_of_not_lt _ (not_in_cut _)]
    exact Context.denote_constant b n _ _ _

/-- Nothing is stored through an unresolved pointer. -/
theorem staleAt_of_unresolved (hp : p.Inttoptr) (h : ¬ p.isConcrete = true)
    (hlen : (possibleValues S pathConstraints n p.term).1.length ≠ 1)
    (hunsat : ¬ (1 < (possibleValues S pathConstraints n p.term).1.length ∧
      (possibleValues S pathConstraints n p.term).2.1 = .unsat)) (ν : Valuation) (b : BitVec 8) :
    StaleAt S pathConstraints n p val k ν 0 b :=
  ⟨_, writeMemory_of_unresolved hp h hlen hunsat, (Context.constant_wf b n).wfFor k,
    fun _ _ => Option.some_ne_none _, Context.denote_constant b n _ _ _⟩

/-- Unless the pointer is resolved and the value is short, some byte of the target is stale under
some valuation of the path constraints. -/
theorem exists_staleAt (hS : S.Sound) (hp : p.Inttoptr) (hk : 0 < k) (hsize : val.size = 8 * k)
    (hν : Satisfies ν pathConstraints)
    (hnot : ¬ (k < 256 ∧ (p.isConcrete = true ∨ Resolved S pathConstraints n p))) :
    ∃ μ i, Satisfies μ pathConstraints ∧ i < k ∧ i < 2 ^ 64 ∧
      ∀ b, StaleAt S pathConstraints n p val k μ i b := by
  have hcut : 256 ≤ k → k % 256 < k ∧ k % 256 < 2 ^ 64 := fun hlong => by omega
  by_cases h : p.isConcrete = true
  · have hlong : 256 ≤ k := Nat.le_of_not_lt fun hlt => hnot ⟨hlt, .inl h⟩
    exact ⟨ν, k % 256, hν, (hcut hlong).1, (hcut hlong).2, staleAt_of_concrete hS hp hsize h ν⟩
  by_cases hone : (possibleValues S pathConstraints n p.term).1.length = 1
  · obtain ⟨ns, hns, _, hfeasible, _⟩ := hp.exists_addresses hS pathConstraints n
    obtain ⟨a, rfl⟩ : ∃ a, ns = [a] := List.length_eq_one_iff.mp (by
      rw [hns, List.length_map] at hone; exact hone)
    obtain ⟨ha, μ, hμ, hμa⟩ := hfeasible a (List.mem_singleton_self a)
    by_cases hlt : k < 256
    · -- a short value, so the pointer can be somewhere else
      obtain ⟨ξ, hξ, hne⟩ : ∃ ξ, Satisfies ξ pathConstraints ∧ p.eval ξ ≠ a := by
        by_contra hall
        push Not at hall
        exact hnot ⟨hlt, .inr (.inr ⟨hone, fun ξ ζ hξ hζ => (hall ξ hξ).trans (hall ζ hζ).symm⟩)⟩
      obtain ⟨i, hik, hout⟩ := exists_outside (hp.target_ne h ha hne) hk (by omega)
      exact ⟨ξ, i, hξ, hik, by omega, staleAt_of_single hS hp hsize h hns
        (by rwa [Nat.mod_eq_of_lt hlt])⟩
    · have hlong : 256 ≤ k := Nat.le_of_not_lt hlt
      refine ⟨μ, k % 256, hμ, (hcut hlong).1, (hcut hlong).2,
        staleAt_of_single hS hp hsize h hns ?_⟩
      rw [Pointer.target_of_symbolic h, hμa]
      exact fun hin => not_in_cut _ hin.2
  by_cases hcomp : 1 < (possibleValues S pathConstraints n p.term).1.length ∧
      (possibleValues S pathConstraints n p.term).2.1 = .unsat
  · have hlong : 256 ≤ k := Nat.le_of_not_lt fun hlt => hnot ⟨hlt, .inr (.inl hcomp)⟩
    exact ⟨ν, k % 256, hν, (hcut hlong).1, (hcut hlong).2,
      staleAt_of_complete hS hp hk hsize h hcomp.1 hcomp.2 hν⟩
  · exact ⟨ν, 0, hν, hk, by decide, staleAt_of_unresolved hp h hone hcomp ν⟩

/-- The first check is answered with zero and no other is answered: the store goes to address zero,
and `0x5000` keeps its byte also where the pointer is `0x5000`. -/
theorem writeMemory_one_of_many :
    (Solver.replaying [fun _ => 0]).Sound ∧ symbolPointer.Inttoptr ∧
    (Context.constant 0 0).memory.WF ∧
    ∃ c', writeMemory (.replaying [fun _ => 0]) [] (.constant 0 0) symbolPointer
        (.concrete 0x41 8) = .ok c' ∧
      ¬ WriteFaithful (.replaying [fun _ => 0]) [] symbolPointer (.concrete 0x41 8)
        (.constant 0 0) c' := by
  have hS := Solver.replaying_sound [fun _ => 0]
  have hstale : StaleAt (.replaying [fun _ => 0]) [] 0 symbolPointer (.concrete 0x41 8) 1
      (fun _ => 0x5000) 0 0 :=
    staleAt_of_single hS symbolPointer_inttoptr rfl (by decide) (a := 0) (by decide) (by decide) 0
  obtain ⟨c', hwrite, hwf, hall, hden⟩ := hstale
  refine ⟨hS, symbolPointer_inttoptr, Context.constant_wf 0 0, c', hwrite, ?_⟩
  have hstale : c'.memory.denote (fun _ => 0x5000) (fun _ _ => 0)
      (symbolPointer.target fun _ => 0x5000).1
      ((symbolPointer.target fun _ => 0x5000).2 + BitVec.ofNat 64 0) ≠
      byte ((Value.concrete 0x41 8).eval fun _ => 0x5000) 0 := by
    rw [hden]
    decide
  exact not_faithful_of_stale (i := 0) rfl hwf hall (satisfies_nil fun _ => 0x5000) (by decide)
    (by decide) hstale

/-- **When no store is lost.** Over every well-formed symbolic memory, `write_memory` puts the
value where the pointer points, under every valuation of the path constraints, if and only if the
constraints cannot be satisfied, or the value has at most 255 bytes and the pointer is concrete or
resolved. -/
theorem writeMemory_faithful_iff (hS : S.Sound) (hp : p.Inttoptr) (hk : 0 < k)
    (hsize : val.size = 8 * k) (pathConstraints : List Term) (n : ℕ) :
    (∀ c c', c.memory.WF → c.checks = n → writeMemory S pathConstraints c p val = .ok c' →
      WriteFaithful S pathConstraints p val c c') ↔
    (∀ ν, ¬ Satisfies ν pathConstraints) ∨
      k < 256 ∧ (p.isConcrete = true ∨ Resolved S pathConstraints n p) := by
  constructor
  · intro h
    by_contra hnot
    rw [not_or] at hnot
    obtain ⟨hsat, hres⟩ := hnot
    push Not at hsat
    obtain ⟨ν, hν⟩ := hsat
    obtain ⟨μ, i, hμ, hik, hi64, hstale⟩ := exists_staleAt hS hp hk hsize hν hres
    obtain ⟨b, hb⟩ := exists_ne_byte (byte (val.eval μ) i)
    obtain ⟨c', hwrite, hwf, hall, hden⟩ := hstale b
    exact not_faithful_of_stale hsize hwf hall hμ hik hi64 (hden ▸ hb)
      (h _ c' (Context.constant_wf b n) rfl hwrite)
  · rintro (hunsat | ⟨hlt, hres⟩) c c' hc rfl hwrite
    · exact fun ν hν => absurd hν (hunsat ν)
    · exact writeMemory_sound hS hp hk hsize hlt hc hres hwrite

theorem writeMemory_faithful_iff_replaying :
    (∀ c c', c.memory.WF → c.checks = 0 →
      writeMemory (.replaying [fun _ => 0]) [] c symbolPointer (.concrete 0x41424344 32) = .ok c' →
        WriteFaithful (.replaying [fun _ => 0]) [] symbolPointer (.concrete 0x41424344 32) c c') ↔
    (∀ ν, ¬ Satisfies ν []) ∨
      4 < 256 ∧ (symbolPointer.isConcrete = true ∨
        Resolved (.replaying [fun _ => 0]) [] 0 symbolPointer) :=
  writeMemory_faithful_iff (Solver.replaying_sound _) symbolPointer_inttoptr (by decide) rfl [] 0

end Vexa
