import Mathlib.Algebra.Order.Floor.Div
import Vexa.Binary
import Vexa.Lib.ExceptBind
import Vexa.SectionLayout

/-!
# Linking the recompiled object

`engine::patch` puts the sections of the recompiled object one behind the other, has LIEF place them in
a new segment of the binary, applies the relocations, and writes a jump to `vexa_entry` over the lifted
function. A relocation that cannot be applied is passed over, and a sum that is too long for its field
is cut off.

## Outside code

LIEF parses the object and chooses the address of the new segment or section. Symbols and relocations
are what it parsed, the address is an argument.

## Main definitions

* `fixRelocations`, `patch`
* `ElfObject.sectionStart`, `ObjectSymbol.address` — where sections and symbols belong, said of the
  object alone
* `LinkedExactly`, `Linkable`

## Main results

* `ElfObject.WellFormed.notes`, `Notes.symbolVa_eq` — the offsets and addresses computed are these
* `fixRelocations_eq` — what the loop over the relocations writes
* `patch_exact_iff` — when linking is exact
-/

namespace Vexa

open LittleEndian

/-! ### Relocations -/

/-- `memcpy` of the low `k` bytes of a number. -/
def memcpy (content : List (BitVec 8)) (offset k n : ℕ) : List (BitVec 8) :=
  content.mapIdx fun i b => if offset ≤ i ∧ i < offset + k then byte n (i - offset) else b

section

variable (offsets : BitVec 16 → Option Addr) (newSectionRva imageBase shiftOffset : Addr)

/-- The address of a symbol, if it has one. -/
def symbolVa (symbol : ObjectSymbol) : Option Addr :=
  if symbol.name = "IMAGE_BASE" then some (imageBase + shiftOffset)
  else match offsets symbol.sectionIdx with
    | some offset => some (newSectionRva + offset + symbol.value)
    | none => none

/-- One round of the loop of `engine::fix_relocations`. -/
def fixRelocation (content : List (BitVec 8)) (reloc : Relocation) :
    Except String (List (BitVec 8)) :=
  match reloc.symbol, reloc.sectionIdx with
  | some symbol, some sectionIdx =>
    match offsets (BitVec.ofNat 16 sectionIdx) with
    | none => return content
    | some patchSection =>
      match symbolVa offsets newSectionRva imageBase shiftOffset symbol with
      | none => return content
      | some symbolVa =>
        let patchOffset := patchSection + reloc.address
        let patchVa := newSectionRva + patchOffset
        match reloc.type with
        | .pc32 | .plt32 =>
          return memcpy content patchOffset.toNat 4 (symbolVa + reloc.addend - patchVa).toNat
        | .abs64 => return memcpy content patchOffset.toNat 8 (symbolVa + reloc.addend).toNat
        | .abs32 | .abs32s => return memcpy content patchOffset.toNat 4 (symbolVa + reloc.addend).toNat
        | .other n => throw s!"Unsupported relocation type {n}"
  | _, _ => return content

/-- `engine::fix_relocations`. -/
def fixRelocations (relocations : List Relocation) (content : List (BitVec 8)) :
    Except String (List (BitVec 8)) :=
  relocations.foldlM (fixRelocation offsets newSectionRva imageBase shiftOffset) content

end

/-! ### Patching -/

/-- What is put into the binary: the new segment, and the bytes over the lifted function. -/
structure Patched where
  segment : Addr
  content : List (BitVec 8)
  va : Addr
  jump : List (BitVec 8)

/-- The jump to an address. -/
def jmpBytes (newFuncVa va : Addr) : List (BitVec 8) :=
  0xE9 :: (List.range 4).map (byte (newFuncVa - (va + 5)).toNat)

/-- `section_offsets.at`. -/
def sectionOffset? (offsets : BitVec 16 → Option Addr) (idx : BitVec 16) : Except String Addr :=
  match offsets idx with
  | some offset => .ok offset
  | none => .error "out_of_range"

/-- `get_symbol("vexa_entry")`. -/
def ElfObject.entry? (obj : ElfObject) : Option ObjectSymbol :=
  obj.symbols.find? fun symbol => symbol.name = "vexa_entry"

/-- `engine::patch`; `placed` is the address LIEF gives to the new segment or section. -/
def patch (b : Binary) (obj : ElfObject) (placed va : Addr) : Except String Patched := do
  if ¬ obj.isObject then throw "error while parsing object file"
  match obj.text? with
  | none => throw ".text section is not found in the object file"
  | some text =>
    let code := codeContent obj text
    match obj.entry? with
    | none => throw "vexa_entry symbol is not found in the object file, make sure its compiled in vexa"
    | some entry =>
      match b with
      | .elf isPie imagebase _ => do
        let imageBase := if isPie then 0 else imagebase
        let shiftOffset : Addr := if isPie then 0x1000 else 0
        let va := va + shiftOffset
        let relocated ← fixRelocations code.offsets placed imageBase shiftOffset obj.relocations code.bytes
        let newFuncVa := placed + (← sectionOffset? code.offsets entry.sectionIdx) + entry.value
        return ⟨placed, relocated, va, jmpBytes newFuncVa va⟩
      | .pe imageBase _ => do
        let relocated ← fixRelocations code.offsets (imageBase + placed) imageBase 0 obj.relocations
          code.bytes
        let newFuncVa := imageBase + placed + (← sectionOffset? code.offsets entry.sectionIdx)
          + entry.value
        return ⟨imageBase + placed, relocated, va, jmpBytes newFuncVa va⟩
      | .raw _ => throw "binary type is not supported"

/-! ### What linking is to do -/

/-- Where a section starts if the sections lie one behind the other from `free` on, each at the next
multiple of its alignment. -/
def sectionStart (idx : ℕ) : ℕ → List (ObjectSection × ℕ) → Option ℕ
  | _, [] => none
  | free, s :: rest =>
    let start := free ⌈/⌉ max s.1.alignment.toNat 1 * max s.1.alignment.toNat 1
    if s.2 = idx then some start else sectionStart idx (start + s.1.bytes.length) rest

/-- Where a section of the object starts in the new segment, if it has a place there. -/
def ElfObject.sectionStart (obj : ElfObject) (idx : ℕ) : Option Addr :=
  obj.text?.bind fun text => (Vexa.sectionStart idx 0 (obj.copied text)).map (BitVec.ofNat 64)

/-- The address of a symbol: the address of the image for `IMAGE_BASE`, else its place in the section
it is defined in. -/
def ObjectSymbol.address (starts : ℕ → Option Addr) (segment imageAddress : Addr)
    (symbol : ObjectSymbol) : Option Addr :=
  if symbol.name = "IMAGE_BASE" then some imageAddress
  else (starts symbol.sectionIdx.toNat).map fun start => segment + (start + symbol.value)

namespace RelocationType

/-- The number of bytes of the field. -/
def width : RelocationType → ℕ
  | pc32 | plt32 | abs32 | abs32s => 4
  | abs64 => 8
  | other _ => 0

/-- The 64-bit number a field stands for: 32 bits are extended with zeros or with their sign. -/
def extend : RelocationType → ℕ → Addr
  | pc32, n | plt32, n | abs32s, n => (BitVec.ofNat 32 n).signExtend 64
  | abs64, n | abs32, n => BitVec.ofNat 64 n
  | other _, _ => 0

/-- The number has room in the field. -/
def Fits (t : RelocationType) (v : Addr) : Prop :=
  match t with
  | pc32 | plt32 | abs32s => -2 ^ 31 ≤ v.toInt ∧ v.toInt < 2 ^ 31
  | abs32 => v.toNat < 2 ^ 32
  | abs64 | other _ => True

end RelocationType

namespace Relocation

variable (starts : ℕ → Option Addr) (segment imageAddress : Addr)

/-- Where the field is in the segment, if the section it lies in was copied. -/
def patchOffset (r : Relocation) : Option Addr :=
  r.sectionIdx.bind fun idx => (starts idx).map (· + r.address)

/-- What the field is to hold: `S + A - P` or `S + A`. -/
def sum (r : Relocation) (S P : Addr) : Option Addr :=
  match r.type with
  | .pc32 | .plt32 => some (S + r.addend - P)
  | .abs64 | .abs32 | .abs32s => some (S + r.addend)
  | .other _ => none

/-- The sum for a field at an offset, if it can be computed. -/
def target (r : Relocation) (off : Addr) : Option Addr :=
  (r.symbol.bind fun symbol => symbol.address starts segment imageAddress).bind
    fun S => r.sum S (segment + off)

/-- The bytes of the field. -/
def Covers (r : Relocation) (off : Addr) (i : ℕ) : Prop :=
  off.toNat ≤ i ∧ i < off.toNat + r.type.width

end Relocation

/-- The number in `k` bytes of the content. -/
def loadField (content : List (BitVec 8)) (offset k : ℕ) : ℕ :=
  ofBytes ((List.range k).map fun i => (content[offset + i]?).getD 0)

section

variable (starts : ℕ → Option Addr) (segment imageAddress : Addr) (relocations : List Relocation)

/-- Every field in a section that was copied stands for its sum, and the other bytes are as they were. -/
structure LinkedExactly (content content' : List (BitVec 8)) : Prop where
  applied : ∀ r ∈ relocations, ∀ off, r.patchOffset starts = some off →
    ∃ v, r.target starts segment imageAddress off = some v ∧
      r.type.extend (loadField content' off.toNat r.type.width) = v
  unchanged : ∀ i, (∀ r ∈ relocations, ∀ off, r.patchOffset starts = some off → ¬ r.Covers off i) →
    content'[i]? = content[i]?

/-- Every field in a section that was copied has a symbol that is defined there or is the image base,
and its sum has room in it. -/
def Linkable : Prop :=
  ∀ r ∈ relocations, ∀ off, r.patchOffset starts = some off →
    ∃ v, r.target starts segment imageAddress off = some v ∧ r.type.Fits v

end

/-! ### One field -/

theorem length_memcpy (content : List (BitVec 8)) (offset k n : ℕ) :
    (memcpy content offset k n).length = content.length := List.length_mapIdx

theorem getElem?_memcpy (content : List (BitVec 8)) (offset k n i : ℕ) :
    (memcpy content offset k n)[i]? = if offset ≤ i ∧ i < offset + k then
      (content[i]?).map fun _ => byte n (i - offset) else content[i]? := by
  rw [memcpy, List.getElem?_mapIdx]
  split
  · rfl
  · exact Option.map_id'

/-- A field read back after it was written. -/
theorem loadField_memcpy {content : List (BitVec 8)} {offset k n : ℕ}
    (h : offset + k ≤ content.length) :
    loadField (memcpy content offset k n) offset k = n % 256 ^ k := by
  have hbytes : ∀ i ∈ List.range k, ((memcpy content offset k n)[offset + i]?).getD 0 = byte n (0 + i) := by
    intro i hi
    have hlt := List.mem_range.mp hi
    rw [getElem?_memcpy, if_pos ⟨by omega, by omega⟩, List.getElem?_eq_getElem (by omega),
      Nat.add_sub_cancel_left, Nat.zero_add]
    rfl
  rw [loadField, List.map_congr_left hbytes, ofBytes_map_byte]
  simp

theorem loadField_congr {content content' : List (BitVec 8)} {offset k : ℕ}
    (h : ∀ i, offset ≤ i → i < offset + k → content'[i]? = content[i]?) :
    loadField content' offset k = loadField content offset k := by
  rw [loadField, loadField]
  congr 1
  refine List.map_congr_left fun i hi => ?_
  have hlt := List.mem_range.mp hi
  rw [h (offset + i) (by omega) (by omega)]

/-- **A cut-off sum** stands for the sum exactly if it had room. -/
theorem extend_mod_iff (t : RelocationType) (v : Addr) (h : ∀ n, t ≠ .other n) :
    t.extend (v.toNat % 256 ^ t.width) = v ↔ t.Fits v := by
  have hsigned : (BitVec.ofNat 32 (v.toNat % 256 ^ 4)).signExtend 64 = v ↔
      -2 ^ 31 ≤ v.toInt ∧ v.toInt < 2 ^ 31 := by
    have hv := v.isLt
    rw [← BitVec.toInt_inj, BitVec.toInt_signExtend_of_le (by decide),
      BitVec.toInt_eq_toNat_bmod (BitVec.ofNat 32 _), BitVec.toInt_eq_toNat_bmod v,
      BitVec.toNat_ofNat, Int.bmod_def, Int.bmod_def]
    omega
  cases t with
  | pc32 => exact hsigned
  | plt32 => exact hsigned
  | abs32s => exact hsigned
  | abs64 =>
    refine iff_of_true (BitVec.eq_of_toNat_eq ?_) trivial
    rw [RelocationType.extend, BitVec.toNat_ofNat]
    exact (Nat.mod_mod _ _).trans (Nat.mod_eq_of_lt v.isLt)
  | abs32 =>
    have hv := v.isLt
    rw [RelocationType.extend, RelocationType.Fits, ← BitVec.toNat_inj, BitVec.toNat_ofNat,
      show (256 : ℕ) ^ RelocationType.abs32.width = 2 ^ 32 from rfl]
    omega
  | other n => exact absurd rfl (h n)

/-- The offsets noted down are where the sections start. -/
def Notes (offsets : BitVec 16 → Option Addr) (starts : ℕ → Option Addr) : Prop :=
  ∀ idx < 2 ^ 16, offsets (BitVec.ofNat 16 idx) = starts idx

section

variable {offsets : BitVec 16 → Option Addr} {starts : ℕ → Option Addr}
  {rva imageBase shiftOffset : Addr}

/-- **The symbols**: `fix_relocations` computes their addresses. -/
theorem Notes.symbolVa_eq (h : Notes offsets starts) (symbol : ObjectSymbol) :
    symbolVa offsets rva imageBase shiftOffset symbol =
      symbol.address starts rva (imageBase + shiftOffset) := by
  rw [symbolVa, ObjectSymbol.address]
  split
  · rfl
  · have hstart := h symbol.sectionIdx.toNat symbol.sectionIdx.isLt
    rw [BitVec.ofNat_toNat, BitVec.setWidth_eq] at hstart
    rw [hstart]
    cases starts symbol.sectionIdx.toNat with
    | none => rfl
    | some start => exact congrArg some (BitVec.add_assoc ..)

/-- One round of the loop: nothing is written, as the field or the symbol has no address, or the low
bytes of the sum are written. -/
theorem fixRelocation_eq (hnotes : Notes offsets starts) {content content' : List (BitVec 8)}
    {r : Relocation} (hidx : ∀ idx, r.sectionIdx = some idx → idx < 2 ^ 16)
    (h : fixRelocation offsets rva imageBase shiftOffset content r = .ok content') :
    (content' = content ∧ ∀ off, r.patchOffset starts = some off →
        r.target starts rva (imageBase + shiftOffset) off = none) ∨
      ∃ off v, r.patchOffset starts = some off ∧
        r.target starts rva (imageBase + shiftOffset) off = some v ∧
        content' = memcpy content off.toNat r.type.width v.toNat := by
  rw [fixRelocation] at h
  rw [Relocation.patchOffset]
  simp only [Relocation.target, ← hnotes.symbolVa_eq]
  split at h
  · next symbol idx hsymbol hsection =>
    rw [hsymbol, hsection, Option.bind_some, ← hnotes idx (hidx idx hsection)]
    split at h
    · next hnone =>
      obtain rfl := Except.ok.inj h
      refine .inl ⟨rfl, fun off hoff => ?_⟩
      rw [hnone] at hoff
      cases hoff
    · next patchSection hsection =>
      rw [hsection, Option.map_some, Option.bind_some]
      split at h
      · next hnone =>
        obtain rfl := Except.ok.inj h
        refine .inl ⟨rfl, fun off _ => ?_⟩
        rw [hnone]
        rfl
      · next S hS =>
        rw [hS]
        simp only [Option.bind_some, Relocation.sum]
        cases htype : r.type with
        | other n =>
          rw [htype] at h
          cases h
        | _ =>
          rw [htype] at h
          obtain rfl := Except.ok.inj h
          exact .inr ⟨_, _, rfl, rfl, rfl⟩
  · next hnone =>
    obtain rfl := Except.ok.inj h
    refine .inl ⟨rfl, fun off hoff => ?_⟩
    cases hsymbol : r.symbol with
    | none => rfl
    | some symbol =>
      obtain ⟨idx, hidx, _⟩ := Option.bind_eq_some_iff.mp hoff
      exact absurd hidx (hnone symbol idx hsymbol)

theorem Relocation.type_of_target {starts : ℕ → Option Addr} {segment imageAddress off v : Addr}
    {r : Relocation} (h : r.target starts segment imageAddress off = some v) : ∀ n, r.type ≠ .other n := by
  intro n htype
  obtain ⟨S, _, hsum⟩ := Option.bind_eq_some_iff.mp h
  rw [Relocation.sum, htype] at hsum
  cases hsum

/-! ### The loop -/

/-- The fields lie in the content. -/
def FieldsInside (starts : ℕ → Option Addr) (relocations : List Relocation) (length : ℕ) : Prop :=
  ∀ r ∈ relocations, (∀ idx, r.sectionIdx = some idx → idx < 2 ^ 16) ∧
    ∀ off, r.patchOffset starts = some off → off.toNat + r.type.width ≤ length

/-- No byte lies in two fields. -/
def FieldsDisjoint (starts : ℕ → Option Addr) (relocations : List Relocation) : Prop :=
  relocations.Pairwise fun r r' => ∀ off off', r.patchOffset starts = some off →
    r'.patchOffset starts = some off' → ∀ i, r.Covers off i → ¬ r'.Covers off' i

/-- **The loop** writes the low bytes of every sum that can be computed, and nothing else. -/
theorem fixRelocations_eq (hnotes : Notes offsets starts) :
    ∀ {relocations : List Relocation} {content content' : List (BitVec 8)},
    FieldsInside starts relocations content.length → FieldsDisjoint starts relocations →
    fixRelocations offsets rva imageBase shiftOffset relocations content = .ok content' →
    content'.length = content.length ∧
    (∀ r ∈ relocations, ∀ off v, r.patchOffset starts = some off →
      r.target starts rva (imageBase + shiftOffset) off = some v →
        loadField content' off.toNat r.type.width = v.toNat % 256 ^ r.type.width) ∧
    ∀ i, (∀ r ∈ relocations, ∀ off, r.patchOffset starts = some off → ¬ r.Covers off i) →
      content'[i]? = content[i]?
  | [], content, content', _, _, h => by
    obtain rfl := Except.ok.inj h
    exact ⟨rfl, nofun, fun _ _ => rfl⟩
  | r :: relocations, content, content', hinside, hdisjoint, h => by
    rw [fixRelocations, List.foldlM_cons, Except.bind_eq_ok] at h
    obtain ⟨content₁, hround, hrest⟩ := h
    obtain ⟨hhead, htail⟩ := List.pairwise_cons.mp hdisjoint
    obtain ⟨hidx, hfield⟩ := hinside r (List.mem_cons_self ..)
    have hround := fixRelocation_eq hnotes hidx hround
    have hlen : content₁.length = content.length := by
      rcases hround with ⟨rfl, _⟩ | ⟨off, v, _, _, rfl⟩
      · rfl
      · exact length_memcpy ..
    obtain ⟨hlen', hfields, hothers⟩ := fixRelocations_eq hnotes
      (fun r' hr' => hlen ▸ hinside r' (List.mem_cons_of_mem _ hr')) htail hrest
    refine ⟨hlen'.trans hlen, fun r' hr' off v hoff hv => ?_, fun i hi => ?_⟩
    · rcases List.mem_cons.mp hr' with rfl | hmem
      · rcases hround with ⟨_, hnone⟩ | ⟨off', v', hoff', hv', rfl⟩
        · rw [hnone off hoff] at hv
          cases hv
        · obtain rfl := Option.some.inj (hoff.symm.trans hoff')
          obtain rfl := Option.some.inj (hv.symm.trans hv')
          -- the later rounds do not touch the field
          rw [← loadField_memcpy (hfield off hoff)]
          refine loadField_congr fun i hle hlt => hothers i fun r'' hr'' off'' hoff'' => ?_
          exact hhead r'' hr'' off off'' hoff hoff'' i ⟨hle, hlt⟩
      · exact hfields r' hmem off v hoff hv
    · rw [hothers i fun r' hr' => hi r' (List.mem_cons_of_mem _ hr')]
      rcases hround with ⟨rfl, _⟩ | ⟨off, v, hoff, _, rfl⟩
      · rfl
      · rw [getElem?_memcpy]
        exact if_neg (hi r (List.mem_cons_self ..) off hoff)

/-- **Linking is exact** exactly if every field has a defined symbol and room for its sum. -/
theorem linkedExactly_iff (hnotes : Notes offsets starts) {relocations : List Relocation}
    {content content' : List (BitVec 8)} (hinside : FieldsInside starts relocations content.length)
    (hdisjoint : FieldsDisjoint starts relocations)
    (h : fixRelocations offsets rva imageBase shiftOffset relocations content = .ok content') :
    LinkedExactly starts rva (imageBase + shiftOffset) relocations content content' ↔
      Linkable starts rva (imageBase + shiftOffset) relocations := by
  obtain ⟨_, hfields, hothers⟩ := fixRelocations_eq hnotes hinside hdisjoint h
  constructor
  · intro hexact r hr off hoff
    obtain ⟨v, hv, hextend⟩ := hexact.applied r hr off hoff
    rw [hfields r hr off v hoff hv] at hextend
    exact ⟨v, hv, (extend_mod_iff r.type v (Relocation.type_of_target hv)).mp hextend⟩
  · intro hlinkable
    refine ⟨fun r hr off hoff => ?_, hothers⟩
    obtain ⟨v, hv, hfits⟩ := hlinkable r hr off hoff
    refine ⟨v, hv, ?_⟩
    rw [hfields r hr off v hoff hv]
    exact (extend_mod_iff r.type v (Relocation.type_of_target hv)).mpr hfits

end

/-! ### Patching -/

namespace Binary

/-- The image base `patch` works with. -/
def imageBase : Binary → Addr
  | elf isPie imagebase _ => if isPie then 0 else imagebase
  | pe imagebase _ => imagebase
  | raw _ => 0

/-- How far LIEF shifts the image. -/
def shiftOffset : Binary → Addr
  | elf isPie _ _ => if isPie then 0x1000 else 0
  | pe .. | raw _ => 0

/-- The address of the new segment, or of the new section of a PE. -/
def segmentAddress (b : Binary) (placed : Addr) : Addr :=
  match b with
  | elf .. | raw _ => placed
  | pe imagebase _ => imagebase + placed

/-- The address of the image, which LIEF shifts by a page if it is position-independent. -/
def imageAddress : Binary → Addr
  | elf isPie imagebase _ => if isPie then 0x1000 else imagebase
  | pe imagebase _ => imagebase
  | raw _ => 0

theorem imageBase_add_shiftOffset (b : Binary) : b.imageBase + b.shiftOffset = b.imageAddress := by
  cases b with
  | elf isPie imagebase segments => cases isPie <;> simp [imageBase, shiftOffset, imageAddress]
  | pe imagebase sections => exact BitVec.add_zero _
  | raw data => rfl

end Binary

/-- The sections that are copied, if there is a text section. -/
def ElfObject.code (obj : ElfObject) : CodeContent :=
  match obj.text? with
  | some text => codeContent obj text
  | none => ⟨[], fun _ => none⟩

/-- The address of `vexa_entry` in the new segment. -/
def ElfObject.entryVa (obj : ElfObject) (segment : Addr) : Option Addr :=
  obj.entry?.bind fun entry => (obj.sectionStart entry.sectionIdx.toNat).map fun start =>
    segment + (start + entry.value)

/-- The field of every relocation lies in its section, and no two fields overlap. The number of sections
has 16 bits, and the sections copied have room in a vector. -/
structure ElfObject.WellFormed (obj : ElfObject) : Prop where
  sections : obj.sections.length ≤ 2 ^ 16
  size : obj.code.bytes.length < 2 ^ 64
  inside : ∀ r ∈ obj.relocations, ∀ idx, r.sectionIdx = some idx →
    ∃ s, obj.sections[idx]? = some s ∧ r.address.toNat + r.type.width ≤ s.bytes.length
  disjoint : obj.relocations.Pairwise fun r r' => ∀ idx, r.sectionIdx = some idx →
    r'.sectionIdx = some idx → r.address.toNat + r.type.width ≤ r'.address.toNat ∨
      r'.address.toNat + r'.type.width ≤ r.address.toNat

/-- The target of a jump with a 32-bit displacement. -/
def jumpTarget (va : Addr) : List (BitVec 8) → Option Addr
  | opcode :: bytes =>
    if opcode = 0xE9 ∧ bytes.length = 4 then
      some (va + 5 + RelocationType.pc32.extend (ofBytes bytes))
    else none
  | [] => none

/-- The object is linked exactly for its segment, and the jump at the address of the lifted function
reaches `vexa_entry`. -/
structure Patched.Exact (b : Binary) (obj : ElfObject) (segment va : Addr) (p : Patched) : Prop where
  segment_eq : p.segment = segment
  va_eq : p.va = va
  linked : LinkedExactly obj.sectionStart segment b.imageAddress obj.relocations obj.code.bytes p.content
  jump : ∃ target, obj.entryVa segment = some target ∧ jumpTarget va p.jump = some target

/-- Every field has a defined symbol and room for its sum, and so has the jump. -/
structure Patchable (b : Binary) (obj : ElfObject) (segment va : Addr) : Prop where
  linkable : Linkable obj.sectionStart segment b.imageAddress obj.relocations
  reach : ∀ target, obj.entryVa segment = some target → RelocationType.pc32.Fits (target - (va + 5))

/-- Where the next section starts, as a multiple of its alignment. -/
theorem CodeContent.next_eq (code : CodeContent) (s : ObjectSection) :
    code.next s = code.bytes.length ⌈/⌉ max s.alignment.toNat 1 * max s.alignment.toNat 1 := by
  have hpos : 0 < max s.alignment.toNat 1 := lt_max_of_lt_right one_pos
  have hle := code.le_next s
  obtain ⟨k, hk⟩ := code.dvd_next s
  have hlt : code.next s < code.bytes.length + max s.alignment.toNat 1 := by
    rw [next, List.length_append, ObjectSection.padding, List.length_replicate]
    exact Nat.add_lt_add_left (Nat.mod_lt _ hpos) _
  rw [hk] at hle hlt ⊢
  -- the multiple before it lies below the end
  have hceil : code.bytes.length ⌈/⌉ max s.alignment.toNat 1 = k := by
    refine le_antisymm ((ceilDiv_le_iff_le_mul hpos).mpr hle) (Nat.le_of_not_lt fun hbelow => ?_)
    have hend := (ceilDiv_le_iff_le_mul hpos).mp (le_refl (code.bytes.length ⌈/⌉ _))
    have hstep := Nat.mul_le_mul_left (max s.alignment.toNat 1) hbelow
    rw [Nat.mul_succ] at hstep
    omega
  rw [hceil, Nat.mul_comm]

/-- One section after the other, `section_offsets` notes down where it starts. -/
theorem offsets_foldl_appendSection {idx : ℕ} : ∀ {rest : List (ObjectSection × ℕ)} {code : CodeContent},
    (∀ s ∈ rest, BitVec.ofNat 16 s.2 = BitVec.ofNat 16 idx → s.2 = idx) →
    (rest.foldl appendSection code).offsets (BitVec.ofNat 16 idx) =
      (code.offsets (BitVec.ofNat 16 idx)).or
        ((sectionStart idx code.bytes.length rest).map (BitVec.ofNat 64))
  | [], code, _ => (Option.or_none ..).symm
  | s :: rest, code, hkeys => by
    rw [List.foldl_cons, offsets_foldl_appendSection fun s' hs' => hkeys s' (List.mem_cons_of_mem _ hs'),
      length_appendSection, code.next_eq, sectionStart]
    by_cases hidx : s.2 = idx
    · rw [if_pos hidx, appendSection, hidx, ← code.next_eq]
      cases hoffset : code.offsets (BitVec.ofNat 16 idx) with
      | some offset => simp [hoffset]
      | none => simp [CodeContent.next]
    · have hkey : BitVec.ofNat 16 idx ≠ BitVec.ofNat 16 s.2 :=
        fun heq => hidx (hkeys s (List.mem_cons_self ..) heq.symm)
      rw [if_neg hidx, appendSection]
      congr 1
      dsimp only
      split
      · rfl
      · exact Function.update_of_ne hkey ..

/-- **The offsets**: `section_offsets` tells where the sections start. -/
theorem ElfObject.WellFormed.notes {obj : ElfObject} (hobj : obj.WellFormed) :
    Notes obj.code.offsets obj.sectionStart := by
  intro idx hidx
  rw [ElfObject.code, ElfObject.sectionStart]
  cases htext : obj.text? with
  | none => rfl
  | some text =>
    have hmem : text ∈ obj.sections.zipIdx := List.mem_of_find?_eq_some htext
    have hkeys : ∀ s ∈ obj.copied text, BitVec.ofNat 16 s.2 = BitVec.ofNat 16 idx → s.2 = idx := by
      intro s hs hkey
      have hlt := List.snd_lt_of_mem_zipIdx ((mem_copied hmem).mp hs).1
      have hlen := hobj.sections
      have hnat := congrArg BitVec.toNat hkey
      rw [BitVec.toNat_ofNat, BitVec.toNat_ofNat, Nat.mod_eq_of_lt hidx] at hnat
      rwa [Nat.mod_eq_of_lt (by omega)] at hnat
    exact (offsets_foldl_appendSection hkeys).trans (Option.none_or ..)

theorem patch_eq {b : Binary} {obj : ElfObject} {placed va : Addr} {p : Patched}
    (h : patch b obj placed va = .ok p) :
    ∃ text entry offset, obj.text? = some text ∧ obj.entry? = some entry ∧
      obj.code.offsets entry.sectionIdx = some offset ∧
      p.segment = b.segmentAddress placed ∧ p.va = va + b.shiftOffset ∧
      p.jump = jmpBytes (p.segment + offset + entry.value) p.va ∧
      fixRelocations obj.code.offsets p.segment b.imageBase b.shiftOffset obj.relocations
        obj.code.bytes = .ok p.content := by
  rw [patch] at h
  split at h
  · cases h
  simp only at h
  split at h
  · cases h
  next text htext =>
  split at h
  · cases h
  next entry hentry =>
  have hcode : obj.code = codeContent obj text := by rw [ElfObject.code, htext]
  have hat : ∀ {offset : Addr},
      sectionOffset? (codeContent obj text).offsets entry.sectionIdx = .ok offset →
      (codeContent obj text).offsets entry.sectionIdx = some offset := by
    intro offset hoffset
    rw [sectionOffset?] at hoffset
    split at hoffset
    · next heq => exact heq.trans (congrArg some (Except.ok.inj hoffset))
    · cases hoffset
  rw [hcode]
  cases b with
  | elf isPie imagebase segments =>
    simp only [Except.bind_eq_ok, Except.pure_eq_ok] at h
    obtain ⟨relocated, hfix, offset, hoffset, rfl⟩ := h
    exact ⟨text, entry, offset, htext, hentry, hat hoffset, rfl, rfl, rfl, hfix⟩
  | pe imagebase sections =>
    simp only [Except.bind_eq_ok, Except.pure_eq_ok] at h
    obtain ⟨relocated, hfix, offset, hoffset, rfl⟩ := h
    exact ⟨text, entry, offset, htext, hentry, hat hoffset, rfl, (BitVec.add_zero va).symm, rfl, hfix⟩
  | raw data => cases h

section

variable {b : Binary} {obj : ElfObject} {text : ObjectSection × ℕ}

theorem ElfObject.WellFormed.sectionIdx_lt (hobj : obj.WellFormed) :
    ∀ r ∈ obj.relocations, ∀ idx, r.sectionIdx = some idx → idx < 2 ^ 16 := by
  intro r hr idx hidx
  obtain ⟨s, hs, _⟩ := hobj.inside r hr idx hidx
  obtain ⟨hlt, _⟩ := List.getElem?_eq_some_iff.mp hs
  exact hlt.trans_le hobj.sections

/-- `vexa_entry` is where its section starts, at its value. -/
theorem ElfObject.WellFormed.entryVa_eq (hobj : obj.WellFormed) {entry : ObjectSymbol}
    {segment offset : Addr} (hentry : obj.entry? = some entry)
    (hoffset : obj.code.offsets entry.sectionIdx = some offset) :
    obj.entryVa segment = some (segment + offset + entry.value) := by
  have hstart := hobj.notes entry.sectionIdx.toNat entry.sectionIdx.isLt
  rw [BitVec.ofNat_toNat, BitVec.setWidth_eq, hoffset] at hstart
  rw [ElfObject.entryVa, hentry, Option.bind_some, ← hstart]
  exact congrArg some (BitVec.add_assoc ..).symm

/-- The place of a field in a section that was copied. -/
theorem Lays.patchOffset {place : ℕ → ℕ} (hobj : obj.WellFormed) (htext : obj.text? = some text)
    (hlays : Lays (obj.copied text) place obj.code) {r : Relocation} (hr : r ∈ obj.relocations)
    {off : Addr} (hoff : r.patchOffset obj.sectionStart = some off) :
    ∃ s ∈ obj.copied text, r.sectionIdx = some s.2 ∧
      off.toNat = place s.2 + r.address.toNat ∧
      r.address.toNat + r.type.width ≤ s.1.bytes.length := by
  obtain ⟨idx, hidx, hmap⟩ := Option.bind_eq_some_iff.mp hoff
  obtain ⟨offset, hstart, rfl⟩ := Option.map_eq_some_iff.mp hmap
  have hoffset := (hobj.notes idx (hobj.sectionIdx_lt r hr idx hidx)).trans hstart
  obtain ⟨⟨s, i⟩, hs, hkey⟩ := hlays.only _ _ hoffset
  obtain ⟨t, ht, hwidth⟩ := hobj.inside r hr idx hidx
  -- the section found under the 16-bit index is that of the field
  have hmem : (s, i) ∈ obj.sections.zipIdx := by
    rcases List.mem_cons.mp hs with heq | hs
    · rw [heq]
      exact List.mem_of_find?_eq_some htext
    · exact (List.mem_filter.mp hs).1
  have hmem' : (t, idx) ∈ obj.sections.zipIdx := List.mk_mem_zipIdx_iff_getElem?.mpr ht
  obtain ⟨rfl, rfl⟩ := Prod.mk.inj (eq_of_key_eq hobj.sections hmem hmem' hkey)
  refine ⟨(s, i), hs, hidx, ?_, hwidth⟩
  have hplace := hlays.offset (s, i) hs
  rw [hoffset] at hplace
  obtain rfl := Option.some.inj hplace
  have hinside := hlays.inside (s, i) hs
  have hsize := hobj.size
  rw [BitVec.toNat_add, BitVec.toNat_ofNat, Nat.mod_add_mod]
  refine Nat.mod_eq_of_lt ?_
  simp only at hinside ⊢
  omega

theorem ElfObject.WellFormed.exists_lays (hobj : obj.WellFormed) (htext : obj.text? = some text) :
    ∃ place, Lays (obj.copied text) place obj.code := by
  rw [ElfObject.code, htext]
  obtain ⟨place, hlays⟩ := codeContent_laysExactly hobj.sections (List.mem_of_find?_eq_some htext)
  exact ⟨place, hlays.toLays⟩

theorem ElfObject.WellFormed.fieldsInside (hobj : obj.WellFormed) (htext : obj.text? = some text) :
    FieldsInside obj.sectionStart obj.relocations obj.code.bytes.length := by
  obtain ⟨place, hlays⟩ := hobj.exists_lays htext
  refine fun r hr => ⟨hobj.sectionIdx_lt r hr, fun off hoff => ?_⟩
  obtain ⟨s, hs, _, hnat, hwidth⟩ := hlays.patchOffset hobj htext hr hoff
  have hinside := hlays.inside s hs
  omega

theorem ElfObject.WellFormed.fieldsDisjoint (hobj : obj.WellFormed) (htext : obj.text? = some text) :
    FieldsDisjoint obj.sectionStart obj.relocations := by
  obtain ⟨place, hlays⟩ := hobj.exists_lays htext
  refine hobj.disjoint.imp_of_mem fun {r r'} hr hr' hapart off off' hoff hoff' i hi hi' => ?_
  obtain ⟨s, hs, hidx, hnat, hwidth⟩ := hlays.patchOffset hobj htext hr hoff
  obtain ⟨s', hs', hidx', hnat', hwidth'⟩ := hlays.patchOffset hobj htext hr' hoff'
  obtain ⟨hle, hlt⟩ := hi
  obtain ⟨hle', hlt'⟩ := hi'
  by_cases hsame : s.2 = s'.2
  · rw [← hsame] at hidx' hnat'
    have hapart := hapart s.2 hidx hidx'
    omega
  · -- two sections
    have hsections := hlays.disjoint hs hs' hsame
    omega

/-- The jump that is written. -/
theorem jumpTarget_jmpBytes (target va : Addr) :
    jumpTarget va (jmpBytes target va) = some target ↔
      RelocationType.pc32.Fits (target - (va + 5)) := by
  have hbytes : ofBytes ((List.range 4).map (byte (target - (va + 5)).toNat)) =
      (target - (va + 5)).toNat % 256 ^ 4 := by
    have h := ofBytes_map_byte (target - (va + 5)).toNat 0 4
    simpa using h
  have hext := extend_mod_iff .pc32 (target - (va + 5)) nofun
  rw [← hext, jmpBytes, jumpTarget, if_pos ⟨rfl, by simp⟩, hbytes, Option.some.injEq]
  exact eq_sub_iff_add_eq'.symm

/-- **Linking the recompiled object**: when `patch` returns, every field in a section that was copied
stands for its sum, every other byte is as it was and the jump reaches `vexa_entry`, exactly if every
field has a symbol that is defined in a section that was copied or is the image base, and every sum and
the displacement of the jump have room. -/
theorem patch_exact_iff (hobj : obj.WellFormed) {placed va : Addr} {p : Patched}
    (h : patch b obj placed va = .ok p) :
    p.Exact b obj (b.segmentAddress placed) (va + b.shiftOffset) ↔
      Patchable b obj (b.segmentAddress placed) (va + b.shiftOffset) := by
  obtain ⟨text, entry, offset, htext, hentry, hoffset, hsegment, hva, hjump, hfix⟩ := patch_eq h
  have hlinked := linkedExactly_iff hobj.notes (hobj.fieldsInside htext) (hobj.fieldsDisjoint htext) hfix
  have htarget : obj.entryVa p.segment = some (p.segment + offset + entry.value) :=
    hobj.entryVa_eq hentry hoffset
  have hreach := jumpTarget_jmpBytes (p.segment + offset + entry.value) p.va
  rw [b.imageBase_add_shiftOffset] at hlinked
  rw [← hsegment, ← hva]
  constructor
  · intro hexact
    refine ⟨hlinked.mp hexact.linked, fun target htarget' => ?_⟩
    obtain rfl := Option.some.inj (htarget.symm.trans htarget')
    obtain ⟨target, htarget', hto⟩ := hexact.jump
    obtain rfl := Option.some.inj (htarget.symm.trans htarget')
    rw [hjump] at hto
    exact hreach.mp hto
  · intro hpatchable
    refine ⟨rfl, rfl, hlinked.mpr hpatchable.linkable, _, htarget, ?_⟩
    rw [hjump]
    exact hreach.mpr (hpatchable.reach _ htarget)

end

/-! ### Two objects -/

/-- A call of a function, in an object with nothing but a text section. -/
def callOf (symbol : ObjectSymbol) : ElfObject where
  isObject := true
  sections := [⟨"", false, false, 0, 0, []⟩, ⟨".text", false, true, 16, 6, [0xE8, 0, 0, 0, 0, 0xC3]⟩]
  symbols := [⟨"vexa_entry", 1, 0⟩, symbol]
  relocations := [⟨.plt32, 1, -4, some symbol, some 1⟩]

theorem callOf_text? (symbol : ObjectSymbol) : (callOf symbol).text? =
    some (⟨".text", false, true, 16, 6, [0xE8, 0, 0, 0, 0, 0xC3]⟩, 1) := by
  simp [ElfObject.text?, callOf]

theorem callOf_wellFormed (symbol : ObjectSymbol) : (callOf symbol).WellFormed := by
  refine ⟨show 2 ≤ 2 ^ 16 by decide, ?_, fun r hr idx hidx => ?_, List.pairwise_singleton ..⟩
  · rw [ElfObject.code, callOf_text?]
    show 6 < 2 ^ 64
    decide
  · obtain rfl := List.mem_singleton.mp hr
    obtain rfl := Option.some.inj hidx
    exact ⟨_, rfl, show 1 + 4 ≤ 6 by decide⟩

/-- The binary the calls are linked into. -/
def host : Binary := .pe 0x140000000 []

theorem patch_exact_iff_callOf : ∃ p, patch host (callOf ⟨"vexa_lifted", 1, 5⟩) 0x5000 0x140001000 = .ok p ∧
    (p.Exact host (callOf ⟨"vexa_lifted", 1, 5⟩) (host.segmentAddress 0x5000)
        (0x140001000 + host.shiftOffset) ↔
      Patchable host (callOf ⟨"vexa_lifted", 1, 5⟩) (host.segmentAddress 0x5000)
        (0x140001000 + host.shiftOffset)) :=
  ⟨_, rfl, patch_exact_iff (callOf_wellFormed _) rfl⟩

/-- A call of a library function, which is undefined in the object, is passed over: the field stays
zero. -/
theorem undefined_call_unapplied : (callOf ⟨"memcpy", 0, 0⟩).WellFormed ∧
    ∃ p, patch host (callOf ⟨"memcpy", 0, 0⟩) 0x5000 0x140001000 = .ok p ∧
      p.content = [0xE8, 0, 0, 0, 0, 0xC3] ∧ ¬ p.Exact host (callOf ⟨"memcpy", 0, 0⟩)
        (host.segmentAddress 0x5000) (0x140001000 + host.shiftOffset) := by
  refine ⟨callOf_wellFormed _, _, rfl, rfl, fun hexact => ?_⟩
  have hfield : Relocation.patchOffset (callOf ⟨"memcpy", 0, 0⟩).sectionStart
      ⟨.plt32, 1, -4, some ⟨"memcpy", 0, 0⟩, some 1⟩ = some 1 := rfl
  obtain ⟨v, hv, _⟩ := hexact.linked.applied _ (List.mem_singleton_self _) 1 hfield
  cases hv

end Vexa
