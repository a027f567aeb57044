import Vexa.Value
import Vexa.Lib.ByteMemory

/-!
# Symbolic memory

`vexa::mem_cell`, `vexa::mem_page` and the two access functions of `vexa::memory`. A page maps
addresses to cells; a cell names one byte of a stored value. `read` builds the term for a range of
cells in one of three ways: the stored value itself, one extract from it, or a concatenation of
single bytes.

## Pages as values

Here a memory is a function from page identities to pages, and a snapshot of it is a copy. The
source shares the storage of a page between the page and its snapshots and copies it on write;
that this cannot be observed is proved in `Vexa.SharedMemory`.

`mem_cell::extracted_cache` is left out: `read` sets it only on its own copy of a cell, so no cell
ever holds one.

## Main definitions

* `MemCell`, `MemPage`, `Memory`, `Context`
* `MemPage.find`, `initializeAt`, `sealPage`, `write`; `Memory.write`, `Context.read`
* `MemCell.WF`, `Context.WF` — a cell names a byte its value has
* `Context.denote` — the byte memory a symbolic memory denotes under a valuation

## Main results

* `Memory.denote_write` — a write stores the bytes of the value
* `Context.read_sound` — a read denotes the bytes that are there
-/

namespace Vexa

open LittleEndian

/-- `vexa::mem_cell`: byte `whichByte` of a value of `totalSize` bytes. Both are `uint8_t`. -/
structure MemCell where
  originalVal : Value
  totalSize : ℕ
  whichByte : ℕ
deriving DecidableEq, Repr

/-- `mem_page::storage_t`. -/
abbrev Storage := Addr → Option MemCell

/-- `vexa::mem_page`. -/
structure MemPage where
  initialMemory : Storage
  memory : Storage
  sealed : Bool

namespace MemPage

/-- A page as `memory::allocate` makes it. -/
def empty : MemPage := ⟨fun _ => none, fun _ => none, false⟩

/-- `mem_page::find`. -/
def find (p : MemPage) (address : Addr) : Option MemCell :=
  match p.memory address with
  | some cell => some cell
  | none => p.initialMemory address

/-- `mem_page::write` of a cell. -/
def write (p : MemPage) (address : Addr) (cell : MemCell) : MemPage :=
  { p with memory := Function.update p.memory address (some cell) }

/-- `mem_page::initialize`. -/
def initializeAt (p : MemPage) (address : Addr) (value : Value) : MemPage :=
  if p.sealed then p.write address ⟨value, 1, 0⟩
  else { p with initialMemory := Function.update p.initialMemory address (some ⟨value, 1, 0⟩) }

/-- `mem_page::seal`. -/
def sealPage (p : MemPage) : MemPage := { p with sealed := true }

@[simp] theorem find_empty (a : Addr) : empty.find a = none := rfl

theorem find_write (p : MemPage) (a x : Addr) (cell : MemCell) :
    (p.write a cell).find x = if x = a then some cell else p.find x := by
  by_cases h : x = a
  · subst h; simp [find, write]
  · simp [find, write, h]

/-- The cells `memory::write` puts down: byte `i` of the value at `base + i`, for `i < n`. -/
def writeCells (p : MemPage) (base : Addr) (val : Value) (n : ℕ) : ℕ → MemPage
  | 0 => p
  | i + 1 => (writeCells p base val n i).write (base + BitVec.ofNat 64 i) ⟨val, n, i⟩

theorem find_writeCells (p : MemPage) (base x : Addr) (val : Value) (n : ℕ) :
    ∀ i, i ≤ 2 ^ 64 → (p.writeCells base val n i).find x =
      if (x - base).toNat < i then some ⟨val, n, (x - base).toNat⟩ else p.find x := by
  intro i
  induction i with
  | zero => intro _; simp [writeCells]
  | succ i ih =>
    intro hi
    rw [writeCells, find_write, ih (by omega)]
    by_cases hx : x = base + BitVec.ofNat 64 i
    · have hdist : (x - base).toNat = i := by
        rw [hx]; exact ByteMemory.toNat_add_ofNat_sub base (by omega)
      rw [if_pos hx, hdist, if_pos (Nat.lt_succ_self i)]
    · have hdist : (x - base).toNat ≠ i := fun h => hx (by
        rw [← h]; exact (ByteMemory.add_ofNat_toNat_sub base x).symm)
      rw [if_neg hx]
      by_cases hlt : (x - base).toNat < i
      · rw [if_pos hlt, if_pos (by omega)]
      · rw [if_neg hlt, if_neg (by omega)]

end MemPage

/-- The live pages of `vexa::memory`, by identity. -/
abbrev Memory := PageId → MemPage

/-- `memory::write`: a store through a concrete pointer. A symbolic pointer is ignored. The byte
count is a `uint8_t`. -/
def Memory.write (S : Solver) (m : Memory) (addr : Pointer) (val : Value) : Memory :=
  match (addr.simplify S).asUint64 with
  | some base =>
    let byteSize := val.size / 8 % 256
    Function.update m addr.page ((m addr.page).writeCells base (val.simplify S) byteSize byteSize)
  | none => m

/-- The mutable part of `vexa::context` that the emulator works on: the memory, the number of
constants made by `mk_const`, and the number of checks asked of the solver. -/
structure Context where
  memory : Memory
  fresh : ℕ
  checks : ℕ

namespace Context

/-- `symex::symbolic`. -/
def symbolic (c : Context) (origin : Origin) (width : ℕ) : Value × Context :=
  (.symbolic ⟨origin, c.fresh, width⟩, { c with fresh := c.fresh + 1 })

/-- The cell `read_byte` makes for a byte nobody has written. -/
def uninitCell (page : PageId) (address : Addr) (id : ℕ) : MemCell :=
  ⟨.symbolic ⟨.uninit page address, id, 8⟩, 1, 0⟩

/-- `read_byte` of `memory::read`. -/
def readByte (c : Context) (page : PageId) (address : Addr) : MemCell × Context :=
  match (c.memory page).find address with
  | some cell => (cell, c)
  | none =>
    let cell := uninitCell page address c.fresh
    (cell, { c with
      memory := Function.update c.memory page ((c.memory page).write address cell)
      fresh := c.fresh + 1 })

/-- The cells at `base + n - 1` down to `base`, in this order. -/
def readCells (c : Context) (page : PageId) (base : Addr) : ℕ → List MemCell × Context
  | 0 => ([], c)
  | n + 1 =>
    let last := c.readByte page (base + BitVec.ofNat 64 n)
    let rest := last.2.readCells page base n
    (last.1 :: rest.1, rest.2)

/-- The byte of a cell as a term. -/
def extractByte (cell : MemCell) : Value :=
  cell.originalVal.extract (cell.whichByte * 8 + 7) (cell.whichByte * 8)

/-- Every cell comes from the value `last` comes from. -/
def canBeMerged (last : MemCell) (cells : List MemCell) : Bool :=
  cells.all fun cell =>
    cell.originalVal.term = last.originalVal.term ∧ cell.totalSize = last.totalSize

/-- Going down from `last`, the byte numbers go down by one. -/
def aligned (last : MemCell) (cells : List MemCell) : Bool :=
  cells.zipIdx.all fun cell => (cell.1.whichByte : ℤ) = last.whichByte - cell.2

/-- How `memory::read` builds its result from the cells, the one of the highest address first. -/
def assemble (last : MemCell) (rest : List MemCell) (size byteSize : ℕ) : Value :=
  let cells := last :: rest
  let inLoop := cells.take byteSize
  if canBeMerged last inLoop ∧ aligned last inLoop then
    if byteSize = last.totalSize then last.originalVal
    else
      let lowBit := (cells.getLast (List.cons_ne_nil _ _)).whichByte * 8
      last.originalVal.extract (lowBit + size - 1) lowBit
  else rest.foldl (fun value cell => value.concat (extractByte cell)) (extractByte last)

/-- `memory::read`; `size` is in bits. -/
def read (S : Solver) (c : Context) (addr : Pointer) (size : ℕ) : Value × Context :=
  match (addr.simplify S).asUint64 with
  | some base =>
    let byteSize := size / 8
    let last := c.readByte addr.page (base + BitVec.ofNat 64 byteSize - 1)
    let rest := last.2.readCells addr.page base (byteSize - 1)
    (assemble last.1 rest.1 size byteSize, rest.2)
  | none => c.symbolic .read size

/-- `memory::write` on the context. -/
def write (S : Solver) (c : Context) (addr : Pointer) (val : Value) : Context :=
  { c with memory := c.memory.write S addr val }

@[simp] theorem memory_write (S : Solver) (c : Context) (addr : Pointer) (val : Value) :
    (c.write S addr val).memory = c.memory.write S addr val := rfl

end Context

/-! ### Well-formed cells -/

/-- If the cell says its value has `k` bytes, then it has, and the cell names one of them. `read`
looks at `totalSize` only to compare it with the number of bytes it reads. -/
def MemCell.WFAt (k : ℕ) (cell : MemCell) : Prop :=
  cell.totalSize = k → cell.whichByte < k ∧ cell.originalVal.size = 8 * k

/-- Every cell of every page is well-formed for reads of `k` bytes. -/
def Memory.WFAt (k : ℕ) (m : Memory) : Prop := ∀ p a cell, (m p).find a = some cell → cell.WFAt k

/-- Every cell of every page names a byte of its value. -/
def Memory.WF (m : Memory) : Prop := ∀ k, m.WFAt k

theorem Context.uninitCell_wf (k : ℕ) (p : PageId) (a : Addr) (id : ℕ) :
    (uninitCell p a id).WFAt k := by
  rintro rfl
  exact ⟨Nat.zero_lt_one, rfl⟩

/-- The byte a cell denotes. -/
def MemCell.byte (ν : Valuation) (cell : MemCell) : BitVec 8 :=
  LittleEndian.byte (cell.originalVal.eval ν) cell.whichByte

/-! ### The memory a symbolic memory denotes

Bytes nobody has written are taken from a background memory. -/

/-- The byte memory of every page. -/
abbrev Bytes := PageId → ByteMemory.Memory 64

/-- The bytes the pages denote over a background. -/
def Memory.denote (ν : Valuation) (bg : Bytes) (m : Memory) : Bytes := fun p a =>
  match (m p).find a with
  | some cell => cell.byte ν
  | none => bg p a

/-- A store into one page. -/
def Bytes.store (m : Bytes) (p : PageId) (a : Addr) (k n : ℕ) : Bytes :=
  Function.update m p (ByteMemory.store (m p) a k n)

@[simp] theorem Bytes.store_self (m : Bytes) (p : PageId) (a : Addr) (k n : ℕ) :
    m.store p a k n p = ByteMemory.store (m p) a k n := Function.update_self ..

@[simp] theorem Bytes.store_of_ne (m : Bytes) {p q : PageId} (h : q ≠ p) (a : Addr) (k n : ℕ) :
    m.store p a k n q = m q := Function.update_of_ne h ..

/-- Storing back what was loaded. -/
theorem Bytes.store_load_self (m : Bytes) (p : PageId) (a : Addr) {j k : ℕ} (hj : j ≤ k) :
    m.store p a j (ByteMemory.load (m p) a k) = m := by
  rw [store, ByteMemory.store_load_self _ _ hj, Function.update_eq_self]

/-- Of two stores to one place the second counts. -/
theorem Bytes.store_store (m : Bytes) (p : PageId) (a : Addr) (k n n' : ℕ) :
    (m.store p a k n).store p a k n' = m.store p a k n' := by
  rw [store, store, store, Function.update_idem, Function.update_self, ByteMemory.store_store]

/-- Stores to different pages, or to disjoint ranges of one, commute. -/
theorem Bytes.store_comm (m : Bytes) {p q : PageId} {a b : Addr} {k j : ℕ}
    (h : p = q → ∀ x : Addr, ¬ ((x - a).toNat < k ∧ (x - b).toNat < j)) (n n' : ℕ) :
    (m.store p a k n).store q b j n' = (m.store q b j n').store p a k n := by
  by_cases hpq : p = q
  · subst hpq
    rw [store, store, store, store, Function.update_idem, Function.update_idem, Function.update_self,
      Function.update_self, ByteMemory.store_comm (m p) (h rfl)]
  · rw [store, store, store, store, Function.update_of_ne hpq, Function.update_of_ne (Ne.symm hpq)]
    exact Function.update_comm hpq ..

namespace Memory

variable {S : Solver} {m : Memory} {addr : Pointer} {val : Value} {base : Addr} {k : ℕ}

theorem find_write (h : (addr.simplify S).asUint64 = some base) (p : PageId) (x : Addr) :
    (m.write S addr val p).find x =
      if p = addr.page ∧ (x - base).toNat < val.size / 8 % 256 then
        some ⟨val.simplify S, val.size / 8 % 256, (x - base).toNat⟩
      else (m p).find x := by
  have hle : val.size / 8 % 256 ≤ 2 ^ 64 := by omega
  rw [Memory.write, h]
  by_cases hp : p = addr.page
  · subst hp
    simp only [Function.update_self, true_and]
    exact MemPage.find_writeCells _ _ _ _ _ _ hle
  · simp only [Function.update_of_ne hp, hp, false_and, if_false]

theorem write_of_symbolic (h : (addr.simplify S).asUint64 = none) : m.write S addr val = m := by
  rw [Memory.write, h]

/-- **A write stores the bytes of the value**, in little-endian order, up to its byte count. -/
theorem denote_write (hS : S.Sound) (h : (addr.simplify S).asUint64 = some base)
    (ν : Valuation) (bg : Bytes) :
    (m.write S addr val).denote ν bg =
      (m.denote ν bg).store addr.page base (val.size / 8 % 256) (val.eval ν) := by
  funext p x
  rw [denote, find_write h]
  by_cases hp : p = addr.page
  · subst hp
    rw [Bytes.store_self]
    by_cases hx : (x - base).toNat < val.size / 8 % 256
    · rw [if_pos ⟨rfl, hx⟩, ByteMemory.store_of_lt _ hx]
      simp only [MemCell.byte, Value.eval_simplify hS]
    · rw [if_neg fun hc => hx hc.2, ByteMemory.store_of_not_lt _ hx]
      rfl
  · rw [if_neg fun hc => hp hc.1, Bytes.store_of_ne _ hp]
    rfl

/-- A write keeps the cells well-formed for the reads that cannot tell its length was cut off. -/
theorem WFAt.write (hS : S.Sound) (hm : m.WFAt k) (hsize : val.size / 8 % 256 = k → val.size = 8 * k) :
    (m.write S addr val).WFAt k := by
  intro p a cell hfind
  cases h : (addr.simplify S).asUint64 with
  | none => rw [write_of_symbolic h] at hfind; exact hm p a cell hfind
  | some base =>
    rw [find_write h] at hfind
    split at hfind
    · next hc =>
      obtain rfl := Option.some.inj hfind
      rintro rfl
      exact ⟨hc.2, by rw [Value.size_simplify hS]; exact hsize rfl⟩
    · exact hm p a cell hfind

theorem WF.write (hS : S.Sound) (hm : m.WF) (hsize : val.size = 8 * k) (hk : k < 256) :
    (m.write S addr val).WF := fun j => (hm j).write hS (by omega)

end Memory

/-! ### Assembling a term from cells -/

namespace Context

variable {S : Solver} {c c' : Context} {ν : Valuation} {bg : Bytes}

theorem size_extractByte (cell : MemCell) : (extractByte cell).size = 8 := by
  rw [extractByte, Value.size_extract]
  omega

theorem eval_extractByte (ν : Valuation) (cell : MemCell) :
    (extractByte cell).eval ν = (cell.byte ν).toNat := by
  rw [extractByte, Value.eval_extract, MemCell.byte, toNat_byte, Nat.mul_comm cell.whichByte,
    two_pow_eight_mul, show 8 * cell.whichByte + 7 + 1 - 8 * cell.whichByte = 8 by omega,
    show 2 ^ 8 = 256 from rfl]

/-- The byte-by-byte concatenation: every further cell goes below the bytes so far. -/
theorem foldl_concat (ν : Valuation) : ∀ (cells : List MemCell) (v : Value),
    (cells.foldl (fun value cell => value.concat (extractByte cell)) v).size
        = v.size + 8 * cells.length ∧
      (cells.foldl (fun value cell => value.concat (extractByte cell)) v).eval ν
        = v.eval ν * 256 ^ cells.length + ofBytes (cells.reverse.map (MemCell.byte ν)) := by
  intro cells
  induction cells with
  | nil => intro v; simp
  | cons cell cells ih =>
    intro v
    obtain ⟨hsize, heval⟩ := ih (v.concat (extractByte cell))
    rw [List.foldl_cons, hsize, heval, Value.size_concat, size_extractByte, Value.eval_concat,
      size_extractByte, eval_extractByte, List.length_cons, List.reverse_cons, List.map_append,
      ofBytes_append, List.map_singleton, ofBytes_singleton, List.length_map, List.length_reverse]
    exact ⟨by ring, by ring⟩

/-- Cells that can be merged and are aligned are consecutive bytes of one value. -/
theorem byte_of_aligned {last : MemCell} {cells : List MemCell}
    (hm : canBeMerged last cells = true) (ha : aligned last cells = true) {i : ℕ}
    (hi : i < cells.length) :
    cells[i].byte ν = LittleEndian.byte (last.originalVal.eval ν) (last.whichByte - i) ∧
      i ≤ last.whichByte := by
  have hmerged := List.all_eq_true.mp hm cells[i] (List.getElem_mem hi)
  have haligned := List.all_eq_true.mp ha (cells[i], i)
    (List.mk_mem_zipIdx_iff_getElem?.mpr (List.getElem?_eq_getElem hi))
  simp only [decide_eq_true_eq] at hmerged haligned
  have hwhich : cells[i].whichByte = last.whichByte - i := by omega
  exact ⟨by rw [MemCell.byte, Value.eval, hmerged.1, hwhich]; rfl, by omega⟩

/-- The bytes of consecutive cells, lowest first. -/
theorem map_byte_reverse {last : MemCell} {cells : List MemCell}
    (hm : canBeMerged last cells = true) (ha : aligned last cells = true) {k low : ℕ}
    (hk : cells.length = k + 1) (hlow : last.whichByte = low + k) :
    cells.reverse.map (MemCell.byte ν)
      = (List.range (k + 1)).map fun i => LittleEndian.byte (last.originalVal.eval ν) (low + i) := by
  apply List.ext_getElem
  · simp [hk]
  · intro i h₁ h₂
    simp only [List.length_map, List.length_range] at h₂
    rw [List.getElem_map, List.getElem_reverse, (byte_of_aligned hm ha (by omega)).1,
      List.getElem_map, List.getElem_range]
    congr 1
    omega

/-- **The term `read` builds denotes its cells' bytes**, whichever way it is built. -/
theorem assemble_sound (ν : Valuation) {last : MemCell} {rest : List MemCell} {k : ℕ}
    (hlast : last.WFAt (k + 1)) (hk : rest.length = k) :
    (assemble last rest (8 * (k + 1)) (k + 1)).size = 8 * (k + 1) ∧
      (assemble last rest (8 * (k + 1)) (k + 1)).eval ν
        = ofBytes ((last :: rest).reverse.map (MemCell.byte ν)) := by
  have hlen : (last :: rest).length = k + 1 := by simp [hk]
  rw [assemble, List.take_of_length_le (Nat.le_of_eq hlen)]
  split
  case isFalse =>
    obtain ⟨hsize, heval⟩ := foldl_concat ν rest (extractByte last)
    rw [hsize, heval, size_extractByte, eval_extractByte, hk, List.reverse_cons, List.map_append,
      ofBytes_append, List.map_singleton, ofBytes_singleton, List.length_map, List.length_reverse,
      hk]
    exact ⟨by ring, by ring⟩
  case isTrue h =>
    obtain ⟨hm, ha⟩ := h
    have hkle : k ≤ last.whichByte := (byte_of_aligned (ν := ν) hm ha (i := k) (by omega)).2
    obtain ⟨low, hlow⟩ := Nat.exists_eq_add_of_le' hkle
    rw [map_byte_reverse hm ha hlen hlow]
    split
    case isTrue htotal =>
      -- the whole value: its lowest byte is the lowest cell
      obtain ⟨hwhich, hsize⟩ := hlast htotal.symm
      obtain rfl : low = 0 := by omega
      have hlt := Value.eval_lt ν last.originalVal
      rw [hsize, two_pow_eight_mul] at hlt
      simp only [Nat.zero_add]
      exact ⟨hsize, (ofBytes_map_byte_of_lt hlt).symm⟩
    case isFalse =>
      have hget : ((last :: rest).getLast (List.cons_ne_nil _ _)).whichByte = low := by
        rw [List.getLast_eq_getElem]
        have haligned := List.all_eq_true.mp ha ((last :: rest)[k], k)
          (List.mk_mem_zipIdx_iff_getElem?.mpr (List.getElem?_eq_getElem (by omega)))
        simp only [decide_eq_true_eq] at haligned
        simp only [hlen, Nat.add_sub_cancel]
        omega
      rw [ofBytes_map_byte, Value.size_extract, Value.eval_extract, hget, Nat.mul_comm low,
        two_pow_eight_mul,
        show 8 * low + 8 * (k + 1) - 1 + 1 - 8 * low = 8 * (k + 1) by omega, two_pow_eight_mul]
      exact ⟨rfl, rfl⟩

/-! ### Reads only add bytes -/

/-- `c'` is `c` after reads: no byte changed, and a byte that appeared is a new symbol. -/
structure Grows (c c' : Context) : Prop where
  checks_eq : c'.checks = c.checks
  fresh_le : c.fresh ≤ c'.fresh
  kept : ∀ p a cell, (c.memory p).find a = some cell → (c'.memory p).find a = some cell
  created : ∀ p a cell, (c.memory p).find a = none → (c'.memory p).find a = some cell →
    ∃ id, c.fresh ≤ id ∧ id < c'.fresh ∧ cell = uninitCell p a id

namespace Grows

theorem refl (c : Context) : Grows c c :=
  ⟨rfl, Nat.le_refl _, fun _ _ _ h => h, fun _ _ _ h h' => by rw [h] at h'; cases h'⟩

theorem trans {c₁ c₂ c₃ : Context} (h : Grows c₁ c₂) (h' : Grows c₂ c₃) : Grows c₁ c₃ where
  checks_eq := h'.checks_eq.trans h.checks_eq
  fresh_le := h.fresh_le.trans h'.fresh_le
  kept p a cell hc := h'.kept p a cell (h.kept p a cell hc)
  created p a cell hnone hsome := by
    cases hmid : (c₂.memory p).find a with
    | some cell' =>
      obtain ⟨id, hle, hlt, rfl⟩ := h.created p a cell' hnone hmid
      rw [h'.kept p a _ hmid] at hsome
      exact ⟨id, hle, hlt.trans_le h'.fresh_le, (Option.some.inj hsome).symm⟩
    | none =>
      obtain ⟨id, hle, hlt, rfl⟩ := h'.created p a cell hmid hsome
      exact ⟨id, h.fresh_le.trans hle, hlt, rfl⟩

theorem wfAt {k : ℕ} (h : Grows c c') (hc : c.memory.WFAt k) : c'.memory.WFAt k := by
  intro p a cell hfind
  cases hold : (c.memory p).find a with
  | some cell' =>
    rw [h.kept p a _ hold] at hfind
    exact Option.some.inj hfind ▸ hc p a cell' hold
  | none =>
    obtain ⟨id, _, _, rfl⟩ := h.created p a cell hold hfind
    exact uninitCell_wf k p a id

theorem wf (h : Grows c c') (hc : c.memory.WF) : c'.memory.WF := fun k => h.wfAt (hc k)

end Grows

/-- The valuation gives every byte that appears between `c` and `c'` its background value. -/
def Fills (ν : Valuation) (bg : Bytes) (c c' : Context) : Prop :=
  ∀ p a id, (c.memory p).find a = none → (c'.memory p).find a = some (uninitCell p a id) →
    BitVec.ofNat 8 (ν ⟨.uninit p a, id, 8⟩) = bg p a

theorem byte_uninitCell (ν : Valuation) (p : PageId) (a : Addr) (id : ℕ) :
    (uninitCell p a id).byte ν = BitVec.ofNat 8 (ν ⟨.uninit p a, id, 8⟩) := by
  apply BitVec.eq_of_toNat_eq
  simp [MemCell.byte, uninitCell, Value.symbolic, Value.eval, Value.ofTerm, Term.eval]

/-- A background over which the earlier memory denotes what the later one does. -/
theorem Grows.denote_denote (h : Grows c c') (ν : Valuation) (bg : Bytes) :
    c.memory.denote ν (c'.memory.denote ν bg) = c'.memory.denote ν bg := by
  funext p a
  cases hold : (c.memory p).find a with
  | none => simp only [Memory.denote, hold]
  | some cell => simp only [Memory.denote, hold, h.kept p a cell hold]

/-- `F` replaces background bytes by symbols numbered from `n` on. -/
def Filling (ν : Valuation) (n : ℕ) (F : Bytes → Bytes) : Prop :=
  ∀ bg p a, F bg p a = bg p a ∨ ∃ id, n ≤ id ∧ F bg p a = BitVec.ofNat 8 (ν ⟨.uninit p a, id, 8⟩)

theorem Filling.id (ν : Valuation) (n : ℕ) : Filling ν n fun bg => bg := fun _ _ _ => .inl rfl

theorem Filling.comp {n n' : ℕ} {F G : Bytes → Bytes} (hF : Filling ν n F) (hG : Filling ν n' G)
    (hn : n ≤ n') : Filling ν n fun bg => F (G bg) := by
  intro bg p a
  rcases hF (G bg) p a with h | h
  · rcases hG bg p a with h' | ⟨id, hid, h'⟩
    · exact .inl (h.trans h')
    · exact .inr ⟨id, hn.trans hid, h.trans h'⟩
  · exact .inr h

/-- After reads the memory denotes what it did, with new symbols for the bytes that appeared. -/
theorem Grows.exists_filling (h : Grows c c') (ν : Valuation) :
    ∃ F, Filling ν c.fresh F ∧ ∀ bg, c'.memory.denote ν bg = c.memory.denote ν (F bg) := by
  refine ⟨fun bg p a => if (c.memory p).find a = none then c'.memory.denote ν bg p a else bg p a,
    fun bg p a => ?_, fun bg => ?_⟩
  · beta_reduce
    by_cases hold : (c.memory p).find a = none
    · rw [if_pos hold]
      cases hnew : (c'.memory p).find a with
      | none => exact .inl (by simp only [Memory.denote, hnew])
      | some cell =>
        obtain ⟨id, hle, _, rfl⟩ := h.created p a cell hold hnew
        exact .inr ⟨id, hle, by simp only [Memory.denote, hnew, byte_uninitCell]⟩
    · exact .inl (if_neg hold)
  · rw [← h.denote_denote ν bg]
    funext p a
    cases hold : (c.memory p).find a with
    | some cell => simp only [Memory.denote, hold]
    | none => simp only [Memory.denote, hold, if_true]

/-- Reads do not change what the memory denotes. -/
theorem Grows.denote_eq (h : Grows c c') (hfill : Fills ν bg c c') :
    c'.memory.denote ν bg = c.memory.denote ν bg := by
  funext p a
  cases hold : (c.memory p).find a with
  | some cell => simp only [Memory.denote, hold, h.kept p a cell hold]
  | none =>
    cases hnew : (c'.memory p).find a with
    | none => simp only [Memory.denote, hold, hnew]
    | some cell =>
      obtain ⟨id, _, _, rfl⟩ := h.created p a cell hold hnew
      simp only [Memory.denote, hold, hnew, byte_uninitCell]
      exact hfill p a id hold hnew

theorem readByte_of_some {p : PageId} {a : Addr} {cell : MemCell}
    (h : (c.memory p).find a = some cell) : c.readByte p a = (cell, c) := by
  rw [readByte, h]

theorem readByte_of_none {p : PageId} {a : Addr} (h : (c.memory p).find a = none) :
    c.readByte p a = (uninitCell p a c.fresh,
      { c with
        memory := Function.update c.memory p
          ((c.memory p).write a (uninitCell p a c.fresh))
        fresh := c.fresh + 1 }) := by
  rw [readByte, h]

theorem find_readByte_of_none {p : PageId} {a : Addr} (h : (c.memory p).find a = none)
    (q : PageId) (x : Addr) :
    ((c.readByte p a).2.memory q).find x =
      if q = p ∧ x = a then some (uninitCell p a c.fresh) else (c.memory q).find x := by
  rw [readByte_of_none h]
  by_cases hq : q = p
  · subst hq
    simp [MemPage.find_write]
  · simp [hq]

theorem readByte_grows (c : Context) (p : PageId) (a : Addr) : Grows c (c.readByte p a).2 := by
  cases hfind : (c.memory p).find a with
  | some cell => rw [readByte_of_some hfind]; exact Grows.refl c
  | none =>
    have hfresh : (c.readByte p a).2.fresh = c.fresh + 1 := by rw [readByte_of_none hfind]
    refine ⟨by rw [readByte_of_none hfind], by omega, fun q x cell hx => ?_,
      fun q x cell hnone hsome => ?_⟩
    · rw [find_readByte_of_none hfind, if_neg, hx]
      rintro ⟨rfl, rfl⟩
      rw [hfind] at hx
      cases hx
    · rw [find_readByte_of_none hfind] at hsome
      split at hsome
      · next hqx =>
        obtain ⟨rfl, rfl⟩ := hqx
        exact ⟨c.fresh, Nat.le_refl _, by omega, (Option.some.inj hsome).symm⟩
      · rw [hnone] at hsome; cases hsome

theorem find_readByte (c : Context) (p : PageId) (a : Addr) :
    ((c.readByte p a).2.memory p).find a = some (c.readByte p a).1 := by
  cases hfind : (c.memory p).find a with
  | some cell => rw [readByte_of_some hfind]; exact hfind
  | none => rw [find_readByte_of_none hfind, readByte_of_none hfind, if_pos ⟨rfl, rfl⟩]

theorem readCells_grows (p : PageId) (base : Addr) : ∀ (n : ℕ) (c : Context),
    Grows c (c.readCells p base n).2
  | 0, c => Grows.refl c
  | n + 1, c => (readByte_grows c p _).trans (readCells_grows p base n _)

/-- The cells returned are the ones the page holds afterwards, from the top down. -/
theorem readCells_eq (p : PageId) (base : Addr) : ∀ (n : ℕ) (c : Context),
    (c.readCells p base n).1.map some = (List.range n).reverse.map fun i =>
      ((c.readCells p base n).2.memory p).find (base + BitVec.ofNat 64 i)
  | 0, c => rfl
  | n + 1, c => by
    rw [List.range_succ, List.reverse_append, List.reverse_singleton, List.singleton_append,
      List.map_cons]
    have hgrow := readCells_grows p base n (c.readByte p (base + BitVec.ofNat 64 n)).2
    exact congrArg₂ List.cons (hgrow.kept p _ _ (find_readByte c p _)).symm
      (readCells_eq p base n _)

theorem length_readCells (p : PageId) (base : Addr) (n : ℕ) (c : Context) :
    (c.readCells p base n).1.length = n := by
  simpa using congrArg List.length (readCells_eq p base n c)

/-- A concrete read of `k + 1` bytes reads the cells from the top down. -/
theorem read_eq {addr : Pointer} {base : Addr} (h : (addr.simplify S).asUint64 = some base)
    (c : Context) (k : ℕ) :
    ∃ last rest, (c.readCells addr.page base (k + 1)).1 = last :: rest ∧ rest.length = k ∧
      c.read S addr (8 * (k + 1))
        = (assemble last rest (8 * (k + 1)) (k + 1), (c.readCells addr.page base (k + 1)).2) := by
  have htop : base + BitVec.ofNat 64 (k + 1) - 1 = base + BitVec.ofNat 64 k := by
    rw [show BitVec.ofNat 64 (k + 1) = BitVec.ofNat 64 k + 1 from BitVec.ofNat_add k 1]
    bv_omega
  refine ⟨_, _, rfl, length_readCells _ _ _ _, ?_⟩
  rw [read, h]
  simp only [Nat.mul_div_cancel_left (k + 1) (show 0 < 8 by decide), htop, Nat.add_sub_cancel]
  rfl

/-- **A read denotes the bytes that are there.** After the read the whole range is mapped, so the
background plays no role. -/
theorem read_sound {addr : Pointer} {base : Addr} {k : ℕ} (hc : c.memory.WFAt k)
    (h : (addr.simplify S).asUint64 = some base) (hk : 0 < k) :
    Grows c (c.read S addr (8 * k)).2 ∧ (c.read S addr (8 * k)).1.size = 8 * k ∧
      ∀ ν bg, (c.read S addr (8 * k)).1.eval ν
        = ByteMemory.load ((c.read S addr (8 * k)).2.memory.denote ν bg addr.page) base k := by
  obtain ⟨k, rfl⟩ := Nat.exists_eq_succ_of_ne_zero hk.ne'
  obtain ⟨last, rest, hcells, hlen, hread⟩ := read_eq h c k
  have hgrow := readCells_grows addr.page base (k + 1) c
  have hmap := readCells_eq addr.page base (k + 1) c
  rw [hcells] at hmap
  have hlast : last.WFAt (k + 1) := by
    have hsome : some last ∈ (last :: rest).map some :=
      List.mem_map_of_mem (List.mem_cons_self ..)
    rw [hmap, List.mem_map] at hsome
    obtain ⟨i, _, hi⟩ := hsome
    exact hgrow.wfAt hc _ _ _ hi
  rw [hread]
  refine ⟨hgrow, (assemble_sound (fun _ => 0) hlast hlen).1, fun ν bg => ?_⟩
  rw [(assemble_sound ν hlast hlen).2, ByteMemory.load]
  congr 1
  have hrev := congrArg List.reverse hmap
  rw [← List.map_reverse, ← List.map_reverse, List.reverse_reverse] at hrev
  apply List.ext_getElem
  · simpa using congrArg List.length hrev
  · intro i h₁ h₂
    have hi := congrArg (fun l => l[i]?) hrev
    simp only [List.length_map, List.length_range] at h₂
    simp only [List.length_map] at h₁
    simp only [List.getElem?_map, List.getElem?_eq_getElem h₁, Option.map_some,
      List.getElem?_range h₂] at hi
    rw [List.getElem_map, List.getElem_map, List.getElem_range]
    simp only [Memory.denote, ← Option.some.inj hi]

end Context

end Vexa
