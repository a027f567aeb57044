import Vexa.Binary
import Vexa.Pages

/-!
# The last writer of a byte

A page keeps two maps. `initialize` fills the one until the page is sealed, `write` and the first read of
an unknown byte fill the other, and `find` looks into the second map first. After `seal`, `initialize`
writes like everybody else.

So an address that was written or read before the image is mapped over it keeps the cell it has: the
mapped byte is there, but nobody finds it.

## Sequences of operations

A sequence of `PageOp` is any mixture of what the rest of the code does to one page. The accesses of
`memory::read`, `memory::write` and `engine::write_memory` are such sequences (`readCells_eq_run`,
`writeCells_eq_run`, `writeBytes_eq_run`).

## Main definitions

* `PageOp`, `runPage` — the operations on a page
* `lastWriter`, `expectedCell` — the cell an address is to have, from the operations alone
* `PageOp.Unshadowed` — the byte mapped is not hidden by a cell that is there

## Main results

* `expectedCell_iff` — when the last writer wins at every address all along
-/

namespace Vexa

/-- What is done to a page. -/
inductive PageOp
  | initializeAt (address : Addr) (value : Value)
  | write (address : Addr) (cell : MemCell)
  | readByte (address : Addr)
  | sealPage
deriving DecidableEq, Repr

section

variable (page : PageId)

def PageOp.apply (c : Context) : PageOp → Context
  | initializeAt a v =>
    { c with memory := Function.update c.memory page ((c.memory page).initializeAt a v) }
  | write a cell => { c with memory := Function.update c.memory page ((c.memory page).write a cell) }
  | readByte a => (c.readByte page a).2
  | sealPage => { c with memory := Function.update c.memory page (c.memory page).sealPage }

/-- A sequence of operations. -/
def runPage (c : Context) (ops : List PageOp) : Context := ops.foldl (PageOp.apply page) c

/-- What the first read of an address returns. -/
def firstRead (a : Addr) : Context → List PageOp → Option MemCell
  | _, [] => none
  | c, op :: ops =>
    if op = .readByte a then some (c.readByte page a).1 else firstRead a (op.apply page c) ops

/-- The cell an operation puts at an address. -/
def PageOp.puts (a : Addr) : PageOp → Option MemCell
  | initializeAt a' v => if a' = a then some ⟨v, 1, 0⟩ else none
  | write a' cell => if a' = a then some cell else none
  | readByte _ | sealPage => none

/-- The cell put at an address last. -/
def lastWriter (a : Addr) (ops : List PageOp) : Option MemCell := ops.reverse.findSome? (PageOp.puts a)

/-- The cell an address is to have: the one put there last, or else what the first read made. -/
def expectedCell (c : Context) (ops : List PageOp) (a : Addr) : Option MemCell :=
  (lastWriter a ops).or (firstRead page a c ops)

end

/-- Before the seal a byte is not mapped over another cell of the map that `find` prefers: nobody wrote
there, and nobody read there in vain. -/
def PageOp.Unshadowed (p : MemPage) : PageOp → Prop
  | initializeAt a v => p.sealed = false → ∀ cell, p.memory a = some cell → cell = ⟨v, 1, 0⟩
  | write .. | readByte _ | sealPage => True

/-! ### One more operation -/

section

variable {page : PageId} {c : Context} {ops : List PageOp} {op : PageOp} {a : Addr}

theorem runPage_append (c : Context) (ops ops' : List PageOp) :
    runPage page c (ops ++ ops') = runPage page (runPage page c ops) ops' := List.foldl_append

theorem runPage_concat (c : Context) (ops : List PageOp) (op : PageOp) :
    runPage page c (ops ++ [op]) = op.apply page (runPage page c ops) := runPage_append c ops [op]

theorem lastWriter_concat (ops : List PageOp) (op : PageOp) (a : Addr) :
    lastWriter a (ops ++ [op]) = (op.puts a).or (lastWriter a ops) := by
  rw [lastWriter, List.reverse_append, List.reverse_singleton, List.singleton_append,
    List.findSome?_cons]
  cases op.puts a with
  | none => rfl
  | some cell => rfl

theorem firstRead_concat (op : PageOp) (a : Addr) : ∀ (ops : List PageOp) (c : Context),
    firstRead page a c (ops ++ [op]) = (firstRead page a c ops).or
      (if op = .readByte a then some ((runPage page c ops).readByte page a).1 else none)
  | [], c => by
    rw [List.nil_append, firstRead]
    rfl
  | op' :: ops, c => by
    rw [List.cons_append, firstRead, firstRead]
    split
    · rfl
    · exact firstRead_concat op a ops _

/-- Only a read adds something to what the first reads returned. -/
theorem expectedCell_concat_of_ne (op : PageOp) (hop : ∀ a, op ≠ .readByte a) :
    expectedCell page c (ops ++ [op]) a = (op.puts a).or (expectedCell page c ops a) := by
  rw [expectedCell, expectedCell, lastWriter_concat, firstRead_concat, if_neg (hop a), Option.or_none,
    Option.or_assoc]

theorem expectedCell_concat_readByte (a' : Addr) :
    expectedCell page c (ops ++ [.readByte a']) a = (expectedCell page c ops a).or
      (if a' = a then some ((runPage page c ops).readByte page a).1 else none) := by
  rw [expectedCell, expectedCell, lastWriter_concat, firstRead_concat, PageOp.puts, Option.none_or,
    Option.or_assoc]
  simp only [PageOp.readByte.injEq]

/-- The page after an operation, as `find` sees it. -/
theorem memory_apply_self (c : Context) (op : PageOp) (hop : ∀ a, op ≠ .readByte a) :
    (op.apply page c).memory page = match op with
      | .initializeAt a v => (c.memory page).initializeAt a v
      | .write a cell => (c.memory page).write a cell
      | .readByte _ => c.memory page
      | .sealPage => (c.memory page).sealPage := by
  cases op with
  | readByte a => exact absurd rfl (hop a)
  | _ => exact Function.update_self ..

theorem find_readByte (c : Context) (a' a : Addr) :
    ((c.readByte page a').2.memory page).find a = ((c.memory page).find a).or
      (if a' = a then some (c.readByte page a).1 else none) := by
  rw [Context.readByte]
  split
  · next cell hcell =>
    by_cases ha : a' = a
    · subst ha
      rw [hcell, Option.some_or]
    · rw [if_neg ha, Option.or_none]
  · next hnone =>
    simp only [Function.update_self, MemPage.find_write]
    by_cases ha : a' = a
    · subst ha
      rw [if_pos rfl, hnone, if_pos rfl, Option.none_or, Context.readByte, hnone]
    · rw [if_neg (Ne.symm ha), if_neg ha, Option.or_none]

/-- An initialization that is not hidden. -/
theorem find_initializeAt_of_unshadowed {p : MemPage} {a' : Addr} {v : Value}
    (h : (PageOp.initializeAt a' v).Unshadowed p) (a : Addr) :
    (p.initializeAt a' v).find a = if a = a' then some ⟨v, 1, 0⟩ else p.find a := by
  rw [MemPage.initializeAt]
  cases hs : p.sealed with
  | true => exact p.find_write a' a _
  | false =>
    rw [if_neg Bool.false_ne_true]
    by_cases ha : a = a'
    · subst ha
      rw [if_pos rfl, MemPage.find]
      cases hcell : p.memory a with
      | none => exact Function.update_self ..
      | some cell => exact congrArg some (h hs cell hcell)
    · simp [MemPage.find, ha]

/-- An initialization that is hidden: the cell of before is found. -/
theorem find_initializeAt_of_memory {p : MemPage} {a : Addr} {v : Value} {cell : MemCell}
    (hs : p.sealed = false) (hcell : p.memory a = some cell) :
    (p.initializeAt a v).find a = some cell := by
  rw [MemPage.initializeAt, hs, if_neg Bool.false_ne_true]
  simp only [MemPage.find, hcell]

/-- **One operation** that is not hidden keeps every address at the cell it is to have. -/
theorem find_apply_of_unshadowed
    (hfind : ∀ a, ((runPage page c ops).memory page).find a = expectedCell page c ops a)
    (hop : op.Unshadowed ((runPage page c ops).memory page)) (a : Addr) :
    ((op.apply page (runPage page c ops)).memory page).find a =
      expectedCell page c (ops ++ [op]) a := by
  cases op with
  | readByte a' =>
    rw [PageOp.apply, find_readByte, hfind, expectedCell_concat_readByte]
  | initializeAt a' v =>
    rw [memory_apply_self _ (.initializeAt a' v) fun _ => nofun,
      expectedCell_concat_of_ne (.initializeAt a' v) fun _ => nofun, ← hfind]
    simp only [find_initializeAt_of_unshadowed hop, PageOp.puts, eq_comm (a := a)]
    split
    · rfl
    · rfl
  | write a' cell =>
    rw [memory_apply_self _ (.write a' cell) fun _ => nofun,
      expectedCell_concat_of_ne (.write a' cell) fun _ => nofun, ← hfind]
    simp only [MemPage.find_write, PageOp.puts, eq_comm (a := a)]
    split
    · rfl
    · rfl
  | sealPage =>
    rw [memory_apply_self _ .sealPage fun _ => nofun,
      expectedCell_concat_of_ne .sealPage fun _ => nofun, ← hfind]
    rfl

/-- After a sequence of operations none of which is hidden. -/
theorem find_runPage_of_unshadowed (hempty : c.memory page = .empty)
    (h : ∀ pre op post, ops = pre ++ op :: post → op.Unshadowed ((runPage page c pre).memory page)) :
    ∀ a, ((runPage page c ops).memory page).find a = expectedCell page c ops a := by
  induction ops using List.reverseRecOn with
  | nil =>
    intro a
    rw [runPage, List.foldl_nil, hempty]
    rfl
  | append_singleton ops op ih =>
    rw [runPage_concat]
    refine find_apply_of_unshadowed (ih fun pre op' post heq => ?_) (h ops op [] rfl)
    exact h pre op' (post ++ [op]) (by rw [heq, List.append_assoc, List.cons_append])

/-- **The last writer wins** in every state of a sequence of operations, exactly if before the seal no
byte is mapped over an address that was written, or read in vain, before. -/
theorem expectedCell_iff (page : PageId) (c : Context) (hempty : c.memory page = .empty)
    (ops : List PageOp) :
    (∀ pre post, ops = pre ++ post →
      ∀ a, ((runPage page c pre).memory page).find a = expectedCell page c pre a) ↔
    ∀ pre op post, ops = pre ++ op :: post → op.Unshadowed ((runPage page c pre).memory page) := by
  constructor
  · intro h pre op post hops
    cases op with
    | initializeAt a v =>
      intro hs cell hcell
      -- the cell that hides the byte is found, and the byte is what was to be found
      have hafter := h (pre ++ [.initializeAt a v]) post (by rw [hops, List.append_assoc]; rfl) a
      rw [runPage_concat, memory_apply_self _ (.initializeAt a v) fun _ => nofun,
        expectedCell_concat_of_ne (.initializeAt a v) fun _ => nofun, PageOp.puts, if_pos rfl,
        Option.some_or] at hafter
      simp only [find_initializeAt_of_memory hs hcell] at hafter
      exact Option.some.inj hafter
    | write a cell => trivial
    | readByte a => trivial
    | sealPage => trivial
  · intro h pre post hops
    refine find_runPage_of_unshadowed hempty fun pre' op post' hpre => ?_
    exact h pre' op (post' ++ post) (by rw [hops, hpre, List.append_assoc, List.cons_append])

end

/-! ### The accesses of the rest of the code -/

section

variable (page : PageId)

/-- `memory::read` looks at the bytes from the last one down. -/
def readOps (base : Addr) : ℕ → List PageOp
  | 0 => []
  | n + 1 => .readByte (base + BitVec.ofNat 64 n) :: readOps base n

theorem readCells_eq_run (base : Addr) : ∀ (n : ℕ) (c : Context),
    (c.readCells page base n).2 = runPage page c (readOps base n)
  | 0, _ => rfl
  | n + 1, _ => readCells_eq_run base n _

/-- `memory::write` puts down the cells of a value from the first one up. -/
def writeOps (base : Addr) (val : Value) (n : ℕ) : ℕ → List PageOp
  | 0 => []
  | i + 1 => writeOps base val n i ++ [.write (base + BitVec.ofNat 64 i) ⟨val, n, i⟩]

theorem writeCells_eq_run (c : Context) (base : Addr) (val : Value) (n : ℕ) : ∀ i : ℕ,
    (runPage page c (writeOps base val n i)).memory =
      Function.update c.memory page ((c.memory page).writeCells base val n i)
  | 0 => (Function.update_eq_self ..).symm
  | i + 1 => by
    rw [writeOps, runPage_concat, PageOp.apply]
    simp only [writeCells_eq_run c base val n i, Function.update_self, Function.update_idem]
    rfl

/-- `engine::write_memory` initializes one byte after the other. -/
def mapOps : Addr → List (BitVec 8) → List PageOp
  | _, [] => []
  | address, byte :: bytes =>
    .initializeAt address (.concrete byte.toNat 8) :: mapOps (address + 1) bytes

theorem writeBytes_eq_run : ∀ (bytes : List (BitVec 8)) (address : Addr) (c : Context),
    (runPage page c (mapOps address bytes)).memory page = writeBytes bytes address (c.memory page)
  | [], _, _ => rfl
  | byte :: bytes, address, c => by
    rw [mapOps, runPage, List.foldl_cons, ← runPage, writeBytes_eq_run bytes, writeBytes,
      memory_apply_self _ (.initializeAt ..) fun _ heq => by cases heq]

end

/-! ### A byte mapped over one that was read -/

/-- The bytes of an instruction are looked at, and then a byte is mapped over the first of them. -/
def readThenMapped : List PageOp := readOps 0x1000 2 ++ mapOps 0x1000 [0x90]

theorem expectedCell_iff_readThenMapped :
    (∀ pre post, readThenMapped = pre ++ post → ∀ a,
      ((runPage globalPage ⟨fun _ => .empty, 0, 0⟩ pre).memory globalPage).find a =
        expectedCell globalPage ⟨fun _ => .empty, 0, 0⟩ pre a) ↔
    ∀ pre op post, readThenMapped = pre ++ op :: post →
      op.Unshadowed ((runPage globalPage ⟨fun _ => .empty, 0, 0⟩ pre).memory globalPage) :=
  expectedCell_iff globalPage ⟨fun _ => .empty, 0, 0⟩ rfl readThenMapped

/-- The first read makes a symbol for a byte, and the byte mapped there afterwards is not found. -/
theorem mapped_byte_hidden : ¬ ∀ (page : PageId) (c : Context), c.memory page = .empty →
    ∀ (ops : List PageOp) (a : Addr),
      ((runPage page c ops).memory page).find a = expectedCell page c ops a := by
  intro h
  have hcell := h globalPage ⟨fun _ => .empty, 0, 0⟩ rfl readThenMapped 0x1000
  exact absurd hcell (by decide)

end Vexa
