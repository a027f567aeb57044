import Vexa.Pages

/-!
# Loads and stores through pointers

`emulator::write_memory` and `emulator::read_memory`. A pointer that stays symbolic is resolved by
enumerating its values under the path constraints. There are four ways through: the pointer is
concrete; one value was found; several were found and the last check was answered `unsat`; anything
else, which goes to `memory::write` or `memory::read` with the symbolic pointer.

The second way looks at the number of values only. When the solver gave up after the first value,
the pointer is treated as if it were concrete.

## Main definitions

* `writeMemory`, `readMemory`
* `Pointer.Inttoptr` — the pointers the fallback of `value_to_pointer` makes
* `Pointer.target` — where a pointer points under a valuation

## Main results

* `writeLoop_sound`, `readLoop_sound` — the enumerated case
-/

namespace Vexa

open LittleEndian

/-! ### The two functions -/

/-- The loop of `write_memory` over a complete enumeration. -/
def writeLoop (S : Solver) (addr : Pointer) (val : Value) :
    List Term → Context → Except String Context
  | [], c => return c
  | address :: addresses, c => do
    let currAddr := Value.ofTerm address
    let currPtr ← calculatePointer currAddr
    let oldVal := c.read S currPtr val.size
    let cond := addr.binary .equal currAddr
    let updatedVal := cond.ite val oldVal.1
    writeLoop S addr val addresses (oldVal.2.write S currPtr updatedVal)

/-- `emulator::write_memory`. -/
def writeMemory (S : Solver) (pathConstraints : List Term) (c : Context) (addr : Pointer)
    (val : Value) : Except String Context :=
  let addr := addr.simplify S
  if addr.isConcrete then return c.write S addr val
  else
    let found := possibleValues S pathConstraints c.checks addr.term
    let c := { c with checks := found.2.2 }
    match found.1 with
    | [address] => do return c.write S (← calculatePointer (.ofTerm address)) val
    | addresses =>
      if 1 < addresses.length ∧ found.2.1 = .unsat then writeLoop S addr val addresses c
      else return c.write S addr val

/-- The loop of `read_memory` over the values after the first. -/
def readLoop (S : Solver) (addr : Pointer) (size : ℕ) :
    List Term → Value → Context → Except String (Value × Context)
  | [], finalSym, c => return (finalSym, c)
  | address :: addresses, finalSym, c => do
    let currAddr := Value.ofTerm address
    let currPtr ← calculatePointer currAddr
    let currSym := c.read S currPtr size
    let cond := addr.binary .equal currAddr
    readLoop S addr size addresses (cond.ite currSym.1 finalSym) currSym.2

/-- `emulator::read_memory`. -/
def readMemory (S : Solver) (pathConstraints : List Term) (c : Context) (addr : Pointer)
    (size : ℕ) : Except String (Value × Context) :=
  let addr := addr.simplify S
  if addr.isConcrete then return c.read S addr size
  else
    let found := possibleValues S pathConstraints c.checks addr.term
    let c := { c with checks := found.2.2 }
    match found.1 with
    | [address] => do return c.read S (← calculatePointer (.ofTerm address)) size
    | address :: addresses =>
      if 1 < (address :: addresses).length ∧ found.2.1 = .unsat then do
        let firstPtr ← calculatePointer (.ofTerm address)
        let first := c.read S firstPtr size
        readLoop S addr size addresses first.1 first.2
      else return c.read S addr size
    | [] => return c.read S addr size

/-! ### Pointers -/

/-- A pointer into global memory as `value_to_pointer` makes it: its value has been rewritten. -/
structure Pointer.Inttoptr (p : Pointer) : Prop where
  page : p.page = globalPage
  sort : p.term.sort = .bv 64
  simplified : p.simplified = true

/-- Where the pointer points: a concrete one into its page, a symbolic one where its value is. -/
def Pointer.target (p : Pointer) (ν : Valuation) : PageId × Addr :=
  if p.isConcrete then (p.page, BitVec.ofNat 64 (p.eval ν))
  else locate (BitVec.ofNat 64 (p.eval ν))

theorem Pointer.Inttoptr.simplify_eq {S : Solver} {p : Pointer} (hp : p.Inttoptr) :
    p.simplify S = p := by
  have h : p.toValue.simplify S = p.toValue := by rw [Value.simplify, if_pos hp.simplified]
  rw [Pointer.simplify, h]

variable {S : Solver} {ν : Valuation} {p : Pointer} {val : Value} {k n : ℕ} {c c' : Context}

/-- The literal `get_value` returns for a 64-bit term. -/
abbrev addressTerm (n : ℕ) : Term := .literal (.bv 64) n

theorem holds_equal_address (ν : Valuation) (p : Pointer) (hn : n < 2 ^ 64) :
    (p.binary .equal (.ofTerm (addressTerm n))).holds ν ↔ p.eval ν = n := by
  rw [Value.holds_equal, Value.eval_ofTerm, Term.eval_literal ν hn]

/-- The enumeration of a 64-bit term, as numbers. -/
theorem exists_addresses (hS : S.Sound) {t : Term} (hsort : t.sort = .bv 64)
    (pathConstraints : List Term) (checks : ℕ) :
    ∃ ns : List ℕ, (possibleValues S pathConstraints checks t).1 = ns.map addressTerm ∧
      ns.Nodup ∧ (∀ n ∈ ns, n < 2 ^ 64 ∧ ∃ μ, Satisfies μ pathConstraints ∧ t.eval μ = n) ∧
      ((possibleValues S pathConstraints checks t).2.1 = .unsat →
        ∀ ν, Satisfies ν pathConstraints → t.eval ν ∈ ns) := by
  obtain ⟨_, hnodup, hliteral, hcomplete⟩ := possibleValues_sound hS pathConstraints checks t
  have hbound : ∀ μ, t.eval μ < 2 ^ 64 := fun μ => by
    have hlt := Term.eval_lt μ t
    rwa [Term.bits, hsort] at hlt
  rw [hsort] at hliteral
  set es := (possibleValues S pathConstraints checks t).1
  have hlist : es = (es.map (Term.eval fun _ => 0)).map addressTerm := by
    rw [List.map_map]
    refine (List.map_id es).symm.trans (List.map_congr_left fun e he => ?_)
    obtain ⟨μ, _, rfl⟩ := hliteral e he
    exact (congrArg addressTerm (Term.eval_literal _ (hbound μ))).symm
  refine ⟨es.map (Term.eval fun _ => 0), hlist, List.Nodup.of_map addressTerm (hlist ▸ hnodup),
    fun n hn => ?_, fun hunsat ν hν => ?_⟩
  · obtain ⟨e, he, rfl⟩ := List.mem_map.mp hn
    obtain ⟨μ, hμ, rfl⟩ := hliteral e he
    have heval := Term.eval_literal (fun _ => 0) (s := .bv 64) (hbound μ)
    exact ⟨by rw [heval]; exact hbound μ, μ, hμ, heval.symm⟩
  · obtain ⟨e, he, heq⟩ := hcomplete hunsat ν hν
    obtain ⟨μ, _, rfl⟩ := hliteral e he
    refine List.mem_map.mpr ⟨_, he, ?_⟩
    rw [heq, Term.eval_literal _ (hbound μ), Term.eval_literal _ (hbound μ)]

/-- The enumeration of a pointer. -/
theorem Pointer.Inttoptr.exists_addresses (hp : p.Inttoptr) (hS : S.Sound)
    (pathConstraints : List Term) (checks : ℕ) :
    ∃ ns : List ℕ, (possibleValues S pathConstraints checks p.term).1 = ns.map addressTerm ∧
      ns.Nodup ∧ (∀ n ∈ ns, n < 2 ^ 64 ∧ ∃ μ, Satisfies μ pathConstraints ∧ p.eval μ = n) ∧
      ((possibleValues S pathConstraints checks p.term).2.1 = .unsat →
        ∀ ν, Satisfies ν pathConstraints → p.eval ν ∈ ns) :=
  Vexa.exists_addresses hS hp.sort pathConstraints checks

/-! ### The enumerated case -/

/-- The cells are well-formed for every read that can tell a full-width cell of `k` bytes from one
whose byte count was cut off. Up to 255 bytes that is every read. -/
def Memory.WFFor (k : ℕ) (m : Memory) : Prop := ∀ j, (k % 256 = j → k = j) → m.WFAt j

theorem Memory.WFFor.self {m : Memory} (h : m.WFFor k) : m.WFAt k := h k fun _ => rfl

theorem Memory.WF.wfFor {m : Memory} (h : m.WF) (k : ℕ) : m.WFFor k := fun j _ => h j

/-- **A complete enumeration stores at the right address.** Under each valuation the loop stores
the value at the address the pointer has, if it is listed, and stores back what was there at every
other. -/
theorem writeLoop_sound (hS : S.Sound) (hk : 0 < k) (hsize : val.size = 8 * k) :
    ∀ (ns : List ℕ) {c : Context}, ns.Nodup → (∀ n ∈ ns, n < 2 ^ 64) → c.memory.WFFor k →
      ∃ c', writeLoop S p val (ns.map addressTerm) c = .ok c' ∧ c'.memory.WFFor k ∧
        c.fresh ≤ c'.fresh ∧
        (∀ q y, (c.memory q).find y ≠ none → (c'.memory q).find y ≠ none) ∧
        ∀ ν, ∃ F, Context.Filling ν c.fresh F ∧ ∀ bg, c'.memory.denote ν bg =
          if p.eval ν ∈ ns then
            (c.memory.denote ν (F bg)).store (locate (BitVec.ofNat 64 (p.eval ν))).1
              (locate (BitVec.ofNat 64 (p.eval ν))).2 (k % 256) (val.eval ν)
          else c.memory.denote ν (F bg)
  | [], c, _, _, hc => ⟨c, rfl, hc, Nat.le_refl _, fun _ _ h => h, fun ν =>
      ⟨_, Context.Filling.id ν _, fun bg => by simp⟩⟩
  | n :: ns, c, hnodup, hlt, hc => by
    obtain ⟨hnotin, hnodup⟩ := List.nodup_cons.mp hnodup
    obtain ⟨ptr, hptr, hpage, hbase⟩ := calculatePointer_sound hS n
    set old := c.read S ptr val.size with hold
    obtain ⟨hgrow, holdsize, holdeval⟩ := Context.read_sound hc.self hbase hk
    rw [← hsize, ← hold] at hgrow holdsize holdeval
    set updated := (p.binary .equal (.ofTerm (addressTerm n))).ite val old.1
    set c₁ := old.2.write S ptr updated
    have hbytes : updated.size / 8 % 256 = k % 256 := by
      rw [show updated.size = val.size from rfl, hsize, Nat.mul_div_cancel_left k (by decide)]
    have hc₁ : c₁.memory.WFFor k := fun j hj => (hgrow.wfAt (hc j hj)).write hS fun hcut => by
      rw [show updated.size = val.size from rfl, hsize, hj (hbytes ▸ hcut)]
    have hmapped : ∀ q y, (c.memory q).find y ≠ none → (c₁.memory q).find y ≠ none := by
      intro q y hq
      obtain ⟨cell, hcell⟩ := Option.ne_none_iff_exists'.mp hq
      rw [Context.memory_write, Memory.find_write hbase, hgrow.kept q y cell hcell]
      split <;> exact Option.some_ne_none _
    obtain ⟨c', hloop, hc', hfresh, hmapped', hden'⟩ := writeLoop_sound hS hk hsize ns hnodup
      (fun m hm => hlt m (List.mem_cons_of_mem _ hm)) hc₁
    refine ⟨c', ?_, hc', hgrow.fresh_le.trans hfresh, fun q y hq => hmapped' q y (hmapped q y hq),
      fun ν => ?_⟩
    · rw [List.map_cons, writeLoop, hptr]
      exact hloop
    -- one address: a store of the value, or of what was there
    obtain ⟨F, hF, hgrown⟩ := hgrow.exists_filling ν
    obtain ⟨G, hG, htail⟩ := hden' ν
    have hupdated := Value.eval_ite ν (p.binary .equal (.ofTerm (addressTerm n)))
      (v := val) (w := old.1) holdsize.symm
    rw [holds_equal_address ν p (hlt n (List.mem_cons_self ..))] at hupdated
    have hstep : ∀ bg, c₁.memory.denote ν bg = if p.eval ν = n then
        (c.memory.denote ν (F bg)).store (locate (BitVec.ofNat 64 n)).1
          (locate (BitVec.ofNat 64 n)).2 (k % 256) (val.eval ν)
        else c.memory.denote ν (F bg) := by
      intro bg
      rw [Context.memory_write, Memory.denote_write hS hbase, hbytes, hupdated]
      split
      · rw [hgrown bg, hpage]
      · rw [holdeval ν bg, Bytes.store_load_self _ _ _ (Nat.mod_le k 256), hgrown bg]
    refine ⟨fun bg => F (G bg), hF.comp hG hgrow.fresh_le, fun bg => ?_⟩
    rw [htail bg, hstep (G bg)]
    by_cases hn : p.eval ν = n
    · rw [if_pos hn, hn, if_neg hnotin, if_pos (List.mem_cons_self ..)]
    · rw [if_neg hn]
      simp only [List.mem_cons, hn, false_or]

/-- **A complete enumeration loads from the right address.** -/
theorem readLoop_sound (hS : S.Sound) (hk : 0 < k) :
    ∀ (ns : List ℕ) (acc : Value) {c : Context}, (∀ n ∈ ns, n < 2 ^ 64) → acc.size = 8 * k →
      c.memory.WFAt k →
      ∃ r c', readLoop S p (8 * k) (ns.map addressTerm) acc c = .ok (r, c') ∧ c.Grows c' ∧
        r.size = 8 * k ∧ ∀ ν bg, r.eval ν =
          if p.eval ν ∈ ns then
            ByteMemory.load (c'.memory.denote ν bg (locate (BitVec.ofNat 64 (p.eval ν))).1)
              (locate (BitVec.ofNat 64 (p.eval ν))).2 k
          else acc.eval ν
  | [], acc, c, _, hacc, _ => ⟨acc, c, rfl, Context.Grows.refl c, hacc, fun _ _ => by simp⟩
  | n :: ns, acc, c, hlt, hacc, hc => by
    obtain ⟨ptr, hptr, hpage, hbase⟩ := calculatePointer_sound hS n
    set cur := c.read S ptr (8 * k) with hcur
    obtain ⟨hgrow, hcursize, hcureval⟩ := Context.read_sound hc hbase hk
    rw [← hcur] at hgrow hcursize hcureval
    set acc' := (p.binary .equal (.ofTerm (addressTerm n))).ite cur.1 acc
    obtain ⟨r, c', hloop, hgrow', hsize, heval⟩ := readLoop_sound hS hk ns acc'
      (fun m hm => hlt m (List.mem_cons_of_mem _ hm)) hcursize (hgrow.wfAt hc)
    refine ⟨r, c', ?_, hgrow.trans hgrow', hsize, fun ν bg => ?_⟩
    · rw [List.map_cons, readLoop, hptr]
      exact hloop
    have hacc' := Value.eval_ite ν (p.binary .equal (.ofTerm (addressTerm n)))
      (v := cur.1) (w := acc) (hcursize.trans hacc.symm)
    rw [holds_equal_address ν p (hlt n (List.mem_cons_self ..))] at hacc'
    rw [heval ν bg, hacc']
    by_cases hn : p.eval ν = n
    · -- what this address loads is still there at the end
      rw [hcureval ν (c'.memory.denote ν bg), hgrow'.denote_denote, hpage, if_pos hn, ← hn]
      simp
    · simp only [List.mem_cons, hn, false_or, if_false]

/-! ### Resolving a pointer -/

variable {pathConstraints : List Term}

theorem Pointer.Inttoptr.asUint64 (hp : p.Inttoptr) (h : p.isConcrete = true) (ν : Valuation) :
    (p.simplify S).asUint64 = some (BitVec.ofNat 64 (p.eval ν)) := by
  rw [hp.simplify_eq]
  exact Term.asUint64_of_isValue h hp.sort ν

theorem Pointer.Inttoptr.asUint64_eq_none (hp : p.Inttoptr) (h : ¬ p.isConcrete = true) :
    (p.simplify S).asUint64 = none := by
  rw [hp.simplify_eq]
  change p.term.asUint64 = none
  have hv : ¬ p.term.isValue = true := h
  cases ht : p.term with
  | value w n => rw [ht] at hv; exact absurd rfl hv
  | _ => rfl

theorem Pointer.target_of_concrete (h : p.isConcrete = true) (ν : Valuation) :
    p.target ν = (p.page, BitVec.ofNat 64 (p.eval ν)) := if_pos h

theorem Pointer.target_of_symbolic (h : ¬ p.isConcrete = true) (ν : Valuation) :
    p.target ν = locate (BitVec.ofNat 64 (p.eval ν)) := if_neg h

theorem Pointer.Inttoptr.eval_lt (hp : p.Inttoptr) (ν : Valuation) : p.eval ν < 2 ^ 64 := by
  have hlt := Value.eval_lt ν p.toValue
  rwa [Value.size, Term.bits, hp.sort] at hlt

/-- Different addresses are different places. -/
theorem Pointer.Inttoptr.target_ne (hp : p.Inttoptr) (h : ¬ p.isConcrete = true) {a : ℕ}
    (ha : a < 2 ^ 64) (hne : p.eval ν ≠ a) : p.target ν ≠ locate (BitVec.ofNat 64 a) := by
  rw [Pointer.target_of_symbolic h]
  intro heq
  have hnat := congrArg BitVec.toNat (locate_injective heq)
  rw [BitVec.toNat_ofNat, BitVec.toNat_ofNat, Nat.mod_eq_of_lt (hp.eval_lt ν),
    Nat.mod_eq_of_lt ha] at hnat
  exact hne hnat

/-- The context once the enumeration has made its checks. -/
def enumerated (S : Solver) (pathConstraints : List Term) (c : Context) (p : Pointer) : Context :=
  { c with checks := (possibleValues S pathConstraints c.checks p.term).2.2 }

/-- The enumeration of a pointer settles where it points: it ended with every value listed, or it
found one value and there is no other. -/
def Resolved (S : Solver) (pathConstraints : List Term) (checks : ℕ) (p : Pointer) : Prop :=
  (1 < (possibleValues S pathConstraints checks p.term).1.length ∧
    (possibleValues S pathConstraints checks p.term).2.1 = .unsat) ∨
  ((possibleValues S pathConstraints checks p.term).1.length = 1 ∧
    ∀ ν μ, Satisfies ν pathConstraints → Satisfies μ pathConstraints → p.eval ν = p.eval μ)

/-! ### Contexts with every byte mapped -/

/-- A context in which every byte is mapped to a literal. -/
def Context.ofBytes (m : Bytes) (checks : ℕ) : Context :=
  ⟨fun q => ⟨fun _ => none, fun y => some ⟨.concrete (m q y).toNat 8, 1, 0⟩, true⟩, 0, checks⟩

theorem Context.find_ofBytes (m : Bytes) (checks : ℕ) (q : PageId) (y : Addr) :
    ((ofBytes m checks).memory q).find y = some ⟨.concrete (m q y).toNat 8, 1, 0⟩ := rfl

theorem Context.byte_ofBytes (m : Bytes) (q : PageId) (y : Addr) :
    MemCell.byte ν ⟨.concrete (m q y).toNat 8, 1, 0⟩ = m q y := by
  rw [MemCell.byte, Value.eval_concrete, byte_zero]
  apply BitVec.eq_of_toNat_eq
  simp [(m q y).isLt]

theorem Context.denote_ofBytes (m : Bytes) (checks : ℕ) (bg : Bytes) :
    (ofBytes m checks).memory.denote ν bg = m := by
  funext q y
  simp only [Memory.denote, find_ofBytes, byte_ofBytes]

theorem Context.ofBytes_wf (m : Bytes) (checks : ℕ) : (ofBytes m checks).memory.WF := by
  intro k q y cell hcell
  rw [find_ofBytes] at hcell
  obtain rfl := Option.some.inj hcell
  rintro rfl
  exact ⟨Nat.zero_lt_one, rfl⟩

/-- A pointer that is one symbol. -/
def symbolPointer : Pointer := ⟨⟨.const ⟨.read, 0, 64⟩, true⟩, globalPage⟩

theorem symbolPointer_inttoptr : symbolPointer.Inttoptr := ⟨rfl, rfl, rfl⟩

end Vexa
