import Vexa.Patch
import Vexa.Emulator

/-!
# The origin of addresses

A global access of the lifted function at a concrete address is emitted as the memory argument plus the
address, the address `map_binary` put the byte at. In the recompiled object the memory argument is the
symbol `IMAGE_BASE`, and `patch` gives that the image base of the binary, except for a position
independent one. So the base is counted twice, once in the address and once in the symbol, unless it is
zero.

## Main definitions

* `Ptr.native` — where an emitted access goes in the recompiled function
* `Binary.shifted`, `Binary.patchedAddress` — the image in the patched binary

## Main results

* `access_reaches_iff` — when an access goes to the byte that was mapped
-/

namespace Vexa

variable {b : Binary} {a : Addr}

/-- The address of a global access in the recompiled function, by the value of the memory argument. -/
def Ptr.native {N : Type} (memPtr : Addr) : Ptr N → Option Addr
  | memory offset => some (memPtr + offset)
  | _ => none

namespace Binary

/-- `is_pie`. -/
def isPie : Binary → Bool
  | elf isPie _ _ => isPie
  | pe .. | raw _ => false

/-- The image base in the headers. -/
def base : Binary → Addr
  | elf _ imagebase _ => imagebase
  | pe imagebase _ => imagebase
  | raw _ => 0

/-- The binary after LIEF made room for its program headers: a position independent one is shifted. -/
def shifted : Binary → Binary
  | elf isPie imagebase segments => elf isPie imagebase (segments.map fun s =>
      { s with virtualAddress := s.virtualAddress + if isPie then 0x1000 else 0 })
  | b => b

/-- Where the byte of an address is in the patched binary at its preferred base. -/
def patchedAddress (b : Binary) (a : Addr) : Addr := if b.isPie then a + 0x1000 else a

theorem patchedAddress_eq (b : Binary) (a : Addr) : b.patchedAddress a = a + b.shiftOffset := by
  cases b with
  | elf isPie imagebase segments =>
    cases isPie with
    | true => rfl
    | false => exact (BitVec.add_zero a).symm
  | pe imagebase sections => exact (BitVec.add_zero a).symm
  | raw data => exact (BitVec.add_zero a).symm

end Binary

/-- **The image is shifted as a whole.** -/
theorem lastPut_shifted (b : Binary) (a : Addr) :
    lastPut b.shifted.puts (b.patchedAddress a) = lastPut b.puts a := by
  cases b with
  | elf isPie imagebase segments =>
    show lastPut ((segments.map _).map Segment.put) _ = lastPut (segments.map Segment.put) a
    induction segments with
    | nil => rfl
    | cons s segments ih =>
      have hput : Segment.put
          { s with virtualAddress := s.virtualAddress + if isPie = true then 0x1000 else 0 }
          ((Binary.elf isPie imagebase (s :: segments)).patchedAddress a) = s.put a := by
        rw [Binary.patchedAddress_eq]
        have hoffset : a + (Binary.elf isPie imagebase (s :: segments)).shiftOffset -
            (s.virtualAddress + if isPie = true then 0x1000 else 0) = a - s.virtualAddress := by
          show a + (if isPie = true then 0x1000 else 0) - (s.virtualAddress + _) = _
          bv_omega
        simp only [Segment.put, hoffset]
      rw [List.map_cons, List.map_cons, List.map_cons, lastPut, lastPut, hput]
      exact congrArg (Option.or · _) ih
  | pe imagebase sections => rfl
  | raw data => rfl

/-- The symbol gets the image base `patch` works with. -/
theorem symbolVa_imageBase (offsets : BitVec 16 → Option Addr) (rva imageBase shiftOffset : Addr)
    {symbol : ObjectSymbol} (h : symbol.name = "IMAGE_BASE") :
    symbolVa offsets rva imageBase shiftOffset symbol = some (imageBase + shiftOffset) := if_pos h

/-- The base is counted twice unless it is zero. -/
theorem native_eq_iff (b : Binary) (hglobal : inStack a = false) :
    (pagePtr a : Ptr Name).native (b.imageBase + b.shiftOffset) = some (b.patchedAddress a) ↔
      b.isPie = true ∨ b.base = 0 := by
  have hpie : b.imageBase = 0 ↔ b.isPie = true ∨ b.base = 0 := by
    cases b with
    | elf isPie imagebase segments => cases isPie <;> simp [Binary.imageBase, Binary.isPie, Binary.base]
    | pe imagebase sections => simp [Binary.imageBase, Binary.isPie, Binary.base]
    | raw data => simp [Binary.imageBase, Binary.isPie, Binary.base]
  rw [← hpie, pagePtr, hglobal, if_neg Bool.false_ne_true, Ptr.native, Option.some.injEq,
    Binary.patchedAddress_eq]
  constructor
  · intro h
    bv_omega
  · intro h
    rw [h]
    bv_omega

/-- **Lifting and patching**, for every binary that was mapped and patched, every address a byte was
mapped at and every symbol for the image base: the byte lies at the patched address in the patched
binary, and a global access to the address, with the memory argument being the symbol, goes there
exactly if the binary is position independent or its image base is zero. -/
theorem access_reaches_iff {obj : ElfObject} {placed va : Addr} {p : Patched} {page : MemPage}
    {cell : MemCell} {symbol : ObjectSymbol} (hmap : mapBinary b .empty = some page)
    (hcell : page.find a = some cell) (hpatch : patch b obj placed va = .ok p)
    (hsymbol : symbol.name = "IMAGE_BASE") (hglobal : inStack a = false) :
    (∃ byte, cell = imageCell byte ∧ lastPut b.shifted.puts (b.patchedAddress a) = some byte) ∧
    ∃ memPtr, fixRelocations obj.code.offsets p.segment b.imageBase b.shiftOffset obj.relocations
        obj.code.bytes = .ok p.content ∧
      symbolVa obj.code.offsets p.segment b.imageBase b.shiftOffset symbol = some memPtr ∧
      ((pagePtr a : Ptr Name).native memPtr = some (b.patchedAddress a) ↔
        b.isPie = true ∨ b.base = 0) := by
  obtain ⟨_, _, _, _, _, _, _, _, _, hfix⟩ := patch_eq hpatch
  refine ⟨?_, _, hfix, symbolVa_imageBase _ _ _ _ hsymbol, native_eq_iff b hglobal⟩
  obtain ⟨byte, rfl, hbyte⟩ := mapBinary_cell hmap hcell
  exact ⟨byte, rfl, (lastPut_shifted b a).trans hbyte⟩

/-! ### A PE at the usual base -/

/-- A program with a byte of data. -/
def program (imagebase : Addr) : Binary := .pe imagebase [⟨0x1000, 1, [7]⟩]

/-- The object with the wrapper that loads the image base. -/
def wrapper : ElfObject := callOf ⟨"IMAGE_BASE", 0, 0⟩

theorem access_reaches_iff_program : ∃ page cell p, mapBinary (program 0x140000000) .empty = some page ∧
    page.find 0x140001000 = some cell ∧ patch (program 0x140000000) wrapper 0x5000 0x140001000 = .ok p ∧
    (∃ byte, cell = imageCell byte ∧ lastPut (program 0x140000000).shifted.puts
      ((program 0x140000000).patchedAddress 0x140001000) = some byte) ∧
    ∃ memPtr, fixRelocations wrapper.code.offsets p.segment (program 0x140000000).imageBase
        (program 0x140000000).shiftOffset wrapper.relocations wrapper.code.bytes = .ok p.content ∧
      symbolVa wrapper.code.offsets p.segment (program 0x140000000).imageBase
        (program 0x140000000).shiftOffset ⟨"IMAGE_BASE", 0, 0⟩ = some memPtr ∧
      ((pagePtr 0x140001000 : Ptr Name).native memPtr =
          some ((program 0x140000000).patchedAddress 0x140001000) ↔
        (program 0x140000000).isPie = true ∨ (program 0x140000000).base = 0) :=
  ⟨_, _, _, rfl, rfl, rfl, access_reaches_iff rfl rfl rfl rfl rfl⟩

/-- An access to the byte at `0x140001000` goes to `0x280001000`. -/
theorem access_counts_base_twice : ∃ page p memPtr,
    mapBinary (program 0x140000000) .empty = some page ∧
    page.find 0x140001000 = some (imageCell 7) ∧
    patch (program 0x140000000) wrapper 0x5000 0x140001000 = .ok p ∧
    symbolVa wrapper.code.offsets p.segment (program 0x140000000).imageBase
      (program 0x140000000).shiftOffset ⟨"IMAGE_BASE", 0, 0⟩ = some memPtr ∧
    (program 0x140000000).patchedAddress 0x140001000 = 0x140001000 ∧
    (pagePtr 0x140001000 : Ptr Name).native memPtr = some 0x280001000 :=
  ⟨_, _, _, rfl, rfl, rfl, rfl, rfl, rfl⟩

end Vexa
