import Vexa.Bitwuzla.Term

/-!
# The sections of the recompiled object

`engine::patch` copies the sections of the recompiled object into one buffer: `.text` first, then the
other sections that take room in memory, each behind zeros up to its alignment. `section_offsets` notes
down where each of them starts, and every address of the linked code is computed from it.

## Outside code

LIEF parses the object: `content` of a section has as many bytes as its `size` says, unless the section
is `NOBITS` (`ObjectSection.Sized`).

## Main definitions

* `ElfObject`, `codeContent` — the object, and its sections one behind the other
* `LaysExactly` — what holds of the buffer while it grows
* `FaithfulLayout` — what the offsets and the buffer are to say of the object

## Main results

* `codeContent_laysExactly` — by one section after the other
* `codeContent_faithful` — the layout is faithful, with `.text` among the sections copied
-/

namespace Vexa

/-! ### Objects as LIEF parses them -/

/-- The fields of `LIEF::ELF::Section` that are read. -/
structure ObjectSection where
  name : String
  nobits : Bool
  alloc : Bool
  alignment : Addr
  size : Addr
  content : List (BitVec 8)

/-- The fields of `LIEF::ELF::Symbol` that are read. -/
structure ObjectSymbol where
  name : String
  sectionIdx : BitVec 16
  value : Addr

/-- The types of relocations that are told apart. -/
inductive RelocationType
  | pc32 | plt32 | abs64 | abs32 | abs32s
  | other (n : ℕ)
deriving DecidableEq, Repr

/-- `LIEF::ELF::Relocation`. The section is given by its index. -/
structure Relocation where
  type : RelocationType
  address : Addr
  addend : Addr
  symbol : Option ObjectSymbol
  sectionIdx : Option ℕ

/-- What is read of the object file. -/
structure ElfObject where
  isObject : Bool
  sections : List ObjectSection
  symbols : List ObjectSymbol
  relocations : List Relocation

/-! ### The sections one behind the other -/

/-- `code_content` and `section_offsets`. -/
structure CodeContent where
  bytes : List (BitVec 8)
  offsets : BitVec 16 → Option Addr

/-- The bytes of a section. -/
def ObjectSection.bytes (s : ObjectSection) : List (BitVec 8) :=
  if s.nobits then List.replicate s.size.toNat 0 else s.content

/-- The zeros in front of a section. -/
def ObjectSection.padding (s : ObjectSection) (length : ℕ) : List (BitVec 8) :=
  let alignment := max s.alignment.toNat 1
  List.replicate ((alignment - length % alignment) % alignment) 0

/-- `append_section`. An index that is there already keeps its offset. -/
def appendSection (code : CodeContent) (s : ObjectSection × ℕ) : CodeContent :=
  let padded := code.bytes ++ s.1.padding code.bytes.length
  let idx := BitVec.ofNat 16 s.2
  { bytes := padded ++ s.1.bytes
    offsets := if (code.offsets idx).isSome then code.offsets
      else Function.update code.offsets idx (some (BitVec.ofNat 64 padded.length)) }

/-- The sections copied: the one given first, then the others that take room in memory. -/
def ElfObject.copied (obj : ElfObject) (text : ObjectSection × ℕ) : List (ObjectSection × ℕ) :=
  text :: obj.sections.zipIdx.filter fun s => s.2 ≠ text.2 ∧ s.1.alloc = true

def codeContent (obj : ElfObject) (text : ObjectSection × ℕ) : CodeContent :=
  (obj.copied text).foldl appendSection ⟨[], fun _ => none⟩

/-- `get_section(".text")`, with its index. -/
def ElfObject.text? (obj : ElfObject) : Option (ObjectSection × ℕ) :=
  obj.sections.zipIdx.find? fun s => s.1.name = ".text"

/-! ### The sections do not overlap -/

/-- The sections lie one behind the other, at the offsets noted down for them. -/
structure Lays (items : List (ObjectSection × ℕ)) (place : ℕ → ℕ) (code : CodeContent) : Prop where
  offset : ∀ s ∈ items, code.offsets (BitVec.ofNat 16 s.2) = some (BitVec.ofNat 64 (place s.2))
  inside : ∀ s ∈ items, place s.2 + s.1.bytes.length ≤ code.bytes.length
  apart : items.Pairwise fun s s' => place s.2 + s.1.bytes.length ≤ place s'.2
  only : ∀ key offset, code.offsets key = some offset → ∃ s ∈ items, BitVec.ofNat 16 s.2 = key

/-- Where the next section starts. -/
def CodeContent.next (code : CodeContent) (s : ObjectSection) : ℕ :=
  (code.bytes ++ s.padding code.bytes.length).length

theorem CodeContent.le_next (code : CodeContent) (s : ObjectSection) :
    code.bytes.length ≤ code.next s := by
  rw [next, List.length_append]
  exact Nat.le_add_right ..

/-- The zeros in front of a section reach up to a multiple of its alignment. -/
theorem CodeContent.dvd_next (code : CodeContent) (s : ObjectSection) :
    max s.alignment.toNat 1 ∣ code.next s := by
  have hpos : 0 < max s.alignment.toNat 1 := lt_max_of_lt_right one_pos
  rw [next, List.length_append, ObjectSection.padding, List.length_replicate]
  set alignment := max s.alignment.toNat 1
  apply Nat.dvd_of_mod_eq_zero
  have hlt := Nat.mod_lt code.bytes.length hpos
  rw [Nat.add_mod, Nat.mod_mod, Nat.add_mod_mod, Nat.add_sub_cancel' hlt.le, Nat.mod_self]

theorem length_appendSection (code : CodeContent) (s : ObjectSection × ℕ) :
    (appendSection code s).bytes.length = code.next s.1 + s.1.bytes.length := List.length_append

theorem Lays.append {items : List (ObjectSection × ℕ)} {place : ℕ → ℕ} {code : CodeContent}
    (h : Lays items place code) {s : ObjectSection × ℕ}
    (hnew : ∀ s' ∈ items, BitVec.ofNat 16 s'.2 ≠ BitVec.ofNat 16 s.2) :
    Lays (items ++ [s]) (Function.update place s.2 (code.next s.1)) (appendSection code s) := by
  have hle := code.le_next s.1
  have hnone : code.offsets (BitVec.ofNat 16 s.2) = none := by
    cases hoffset : code.offsets (BitVec.ofNat 16 s.2) with
    | none => rfl
    | some offset =>
      obtain ⟨s', hs', hkey⟩ := h.only _ _ hoffset
      exact absurd hkey (hnew s' hs')
  have hoffsets : (appendSection code s).offsets = Function.update code.offsets
      (BitVec.ofNat 16 s.2) (some (BitVec.ofNat 64 (code.next s.1))) := by
    rw [appendSection, hnone]
    rfl
  have hne : ∀ s' ∈ items, s'.2 ≠ s.2 := fun s' hs' heq => hnew s' hs' (congrArg _ heq)
  have hplace : ∀ s' ∈ items, Function.update place s.2 (code.next s.1) s'.2 = place s'.2 :=
    fun s' hs' => Function.update_of_ne (hne s' hs') ..
  refine ⟨fun s' hs' => ?_, fun s' hs' => ?_, ?_, fun key offset hoffset => ?_⟩
  · rw [hoffsets]
    rcases List.mem_append.mp hs' with hs' | hs'
    · rw [Function.update_of_ne (hnew s' hs'), hplace s' hs']
      exact h.offset s' hs'
    · obtain rfl := List.mem_singleton.mp hs'
      rw [Function.update_self, Function.update_self]
  · rw [length_appendSection]
    rcases List.mem_append.mp hs' with hs' | hs'
    · have hinside := h.inside s' hs'
      rw [hplace s' hs']
      omega
    · obtain rfl := List.mem_singleton.mp hs'
      rw [Function.update_self]
  · refine List.pairwise_append.mpr ⟨?_, List.pairwise_singleton .., fun s' hs' t ht => ?_⟩
    · refine h.apart.imp_of_mem fun {s' t} hs' ht hapart => ?_
      rw [hplace s' hs', hplace t ht]
      exact hapart
    · obtain rfl := List.mem_singleton.mp ht
      rw [hplace s' hs', Function.update_self]
      exact (h.inside s' hs').trans hle
  · rw [hoffsets] at hoffset
    by_cases hkey : key = BitVec.ofNat 16 s.2
    · exact ⟨s, List.mem_append_right _ (List.mem_singleton_self s), hkey.symm⟩
    · rw [Function.update_of_ne hkey] at hoffset
      obtain ⟨s', hs', hs'key⟩ := h.only key offset hoffset
      exact ⟨s', List.mem_append_left _ hs', hs'key⟩

/-! ### What lies between them -/

/-- The sections lie one behind the other from the start of the buffer, aligned, with their bytes, and
every other byte is zero. -/
structure LaysExactly (items : List (ObjectSection × ℕ)) (place : ℕ → ℕ) (code : CodeContent) : Prop
    extends Lays items place code where
  start : ∀ s ∈ items.head?, place s.2 = 0
  aligned : ∀ s ∈ items, max s.1.alignment.toNat 1 ∣ place s.2
  bytes : ∀ s ∈ items, ∀ j < s.1.bytes.length, code.bytes[place s.2 + j]? = s.1.bytes[j]?
  zero : ∀ i < code.bytes.length,
    (∀ s ∈ items, ¬ (place s.2 ≤ i ∧ i < place s.2 + s.1.bytes.length)) → code.bytes[i]? = some 0

theorem LaysExactly.append {items : List (ObjectSection × ℕ)} {place : ℕ → ℕ} {code : CodeContent}
    (h : LaysExactly items place code) {s : ObjectSection × ℕ} (hempty : items = [] → code.bytes = [])
    (hnew : ∀ s' ∈ items, BitVec.ofNat 16 s'.2 ≠ BitVec.ofNat 16 s.2) :
    LaysExactly (items ++ [s]) (Function.update place s.2 (code.next s.1)) (appendSection code s) := by
  have hle := code.le_next s.1
  have hne : ∀ s' ∈ items, s'.2 ≠ s.2 := fun s' hs' heq => hnew s' hs' (congrArg _ heq)
  have hplace : ∀ s' ∈ items, Function.update place s.2 (code.next s.1) s'.2 = place s'.2 :=
    fun s' hs' => Function.update_of_ne (hne s' hs') ..
  have hbytes : (appendSection code s).bytes =
      (code.bytes ++ s.1.padding code.bytes.length) ++ s.1.bytes := rfl
  -- below the old end nothing changes
  have hold : ∀ i < code.bytes.length, (appendSection code s).bytes[i]? = code.bytes[i]? := by
    intro i hi
    rw [hbytes, List.append_assoc, List.getElem?_append_left hi]
  refine ⟨h.toLays.append hnew, ?_, fun s' hs' => ?_, fun s' hs' j hj => ?_, fun i hi hout => ?_⟩
  · intro s' hs'
    cases items with
    | nil =>
      obtain rfl := Option.some.inj hs'
      rw [Function.update_self, CodeContent.next, hempty rfl]
      simp [ObjectSection.padding]
    | cons t items =>
      obtain rfl := Option.some.inj hs'
      rw [hplace _ (List.mem_cons_self ..)]
      exact h.start t rfl
  · rcases List.mem_append.mp hs' with hs' | hs'
    · rw [hplace s' hs']
      exact h.aligned s' hs'
    · obtain rfl := List.mem_singleton.mp hs'
      rw [Function.update_self]
      exact code.dvd_next _
  · rcases List.mem_append.mp hs' with hs' | hs'
    · have hinside := h.inside s' hs'
      rw [hplace s' hs', hold _ (by omega)]
      exact h.bytes s' hs' j hj
    · obtain rfl := List.mem_singleton.mp hs'
      rw [Function.update_self, hbytes, CodeContent.next,
        List.getElem?_append_right (Nat.le_add_right ..), Nat.add_sub_cancel_left]
  · -- a byte outside of every section: of an old gap, or of the new one
    by_cases hlt : i < code.bytes.length
    · rw [hold i hlt]
      refine h.zero i hlt fun s' hs' => ?_
      rw [← hplace s' hs']
      exact hout s' (List.mem_append_left _ hs')
    · have hnot := hout s (List.mem_append_right _ (List.mem_singleton_self s))
      rw [Function.update_self] at hnot
      rw [length_appendSection] at hi
      have hgap : i < code.next s.1 := by omega
      rw [hbytes, List.getElem?_append_left hgap, List.getElem?_append_right (Nat.not_lt.mp hlt)]
      have hpad : i - code.bytes.length < (s.1.padding code.bytes.length).length := by
        rw [CodeContent.next, List.length_append] at hgap
        omega
      rw [ObjectSection.padding, List.length_replicate] at hpad
      rw [ObjectSection.padding, List.getElem?_replicate, if_pos hpad]

theorem LaysExactly.foldl : ∀ {rest items : List (ObjectSection × ℕ)} {place : ℕ → ℕ}
    {code : CodeContent}, LaysExactly items place code → (items = [] → code.bytes = []) →
    (items ++ rest).Pairwise (fun s s' => BitVec.ofNat 16 s.2 ≠ BitVec.ofNat 16 s'.2) →
    ∃ place', LaysExactly (items ++ rest) place' (rest.foldl appendSection code)
  | [], items, place, code, h, _, _ => by
    rw [List.append_nil]
    exact ⟨place, h⟩
  | s :: rest, items, place, code, h, hempty, hkeys => by
    have hnew := (List.pairwise_append.mp hkeys).2.2
    have happend := h.append hempty fun s' hs' => hnew s' hs' s (List.mem_cons_self ..)
    rw [← List.singleton_append, ← List.append_assoc] at hkeys ⊢
    exact happend.foldl (fun hnil => absurd hnil (by simp)) hkeys

/-- Sections with one 16-bit index are one section. -/
theorem eq_of_key_eq {obj : ElfObject} (hlen : obj.sections.length ≤ 2 ^ 16) {s s' : ObjectSection × ℕ}
    (hs : s ∈ obj.sections.zipIdx) (hs' : s' ∈ obj.sections.zipIdx)
    (hkey : BitVec.ofNat 16 s.2 = BitVec.ofNat 16 s'.2) : s = s' := by
  have hlt : ∀ t ∈ obj.sections.zipIdx, t.2 < 2 ^ 16 := by
    rintro ⟨t, i⟩ ht
    exact (List.snd_lt_of_mem_zipIdx ht).trans_le (by simpa using hlen)
  have hnat := congrArg BitVec.toNat hkey
  rw [BitVec.toNat_ofNat, BitVec.toNat_ofNat, Nat.mod_eq_of_lt (hlt s hs),
    Nat.mod_eq_of_lt (hlt s' hs')] at hnat
  have hget := List.mk_mem_zipIdx_iff_getElem?.mp hs
  have hget' := List.mk_mem_zipIdx_iff_getElem?.mp hs'
  rw [hnat, hget'] at hget
  exact Prod.ext (Option.some.inj hget).symm hnat

/-- The indices of the sections copied differ also as 16-bit numbers. -/
theorem copied_keys {obj : ElfObject} (hlen : obj.sections.length ≤ 2 ^ 16)
    {text : ObjectSection × ℕ} (htext : text ∈ obj.sections.zipIdx) :
    (obj.copied text).Pairwise fun s s' => BitVec.ofNat 16 s.2 ≠ BitVec.ofNat 16 s'.2 := by
  have hkey : ∀ s ∈ obj.sections.zipIdx, ∀ s' ∈ obj.sections.zipIdx, s.2 ≠ s'.2 →
      BitVec.ofNat 16 s.2 ≠ BitVec.ofNat 16 s'.2 := by
    intro s hs s' hs' hne heq
    exact hne (congrArg Prod.snd (eq_of_key_eq hlen hs hs' heq))
  have hnodup : obj.sections.zipIdx.Pairwise fun s s' => s.2 ≠ s'.2 := by
    refine List.pairwise_map.mp ?_
    rw [List.zipIdx_map_snd]
    exact List.nodup_range' ..
  refine List.pairwise_cons.mpr ⟨fun s hs => ?_, ?_⟩
  · obtain ⟨hmem, hs⟩ := List.mem_filter.mp hs
    exact hkey text htext s hmem fun heq => (of_decide_eq_true hs).1 heq.symm
  · refine (hnodup.filter _).imp_of_mem fun {s s'} hs hs' hne => ?_
    exact hkey s (List.mem_filter.mp hs).1 s' (List.mem_filter.mp hs').1 hne

/-- **The layout**, one section after the other. -/
theorem codeContent_laysExactly {obj : ElfObject} (hlen : obj.sections.length ≤ 2 ^ 16)
    {text : ObjectSection × ℕ} (htext : text ∈ obj.sections.zipIdx) :
    ∃ place, LaysExactly (obj.copied text) place (codeContent obj text) := by
  have hempty : LaysExactly [] (fun _ => 0) ⟨[], fun _ => none⟩ :=
    ⟨⟨nofun, nofun, .nil, nofun⟩, nofun, nofun, nofun, nofun⟩
  exact hempty.foldl (fun _ => rfl) (copied_keys hlen htext)

/-! ### The layout as the rest of `patch` reads it

What follows is said of the offsets noted down, without the list in which the sections were copied. -/

/-- A section that is not `NOBITS` has as many bytes as its size says. -/
def ObjectSection.Sized (s : ObjectSection) : Prop :=
  s.nobits = false → s.content.length = s.size.toNat

theorem ObjectSection.Sized.length_bytes {s : ObjectSection} (h : s.Sized) :
    s.bytes.length = s.size.toNat := by
  rw [bytes]
  split
  · exact List.length_replicate
  · next hbits => exact h (Bool.eq_false_of_not_eq_true hbits)

/-- The offset noted down for a section. -/
def ElfObject.StartsAt (obj : ElfObject) (code : CodeContent) (s : ObjectSection × ℕ) (offset : Addr) :
    Prop :=
  s ∈ obj.sections.zipIdx ∧ code.offsets (BitVec.ofNat 16 s.2) = some offset

/-- A position in the range of a section. -/
def ObjectSection.Covers (s : ObjectSection) (offset : Addr) (i : ℕ) : Prop :=
  offset.toNat ≤ i ∧ i < offset.toNat + s.size.toNat

/-- What offsets and buffer are to say of the object. `recorded` tells the sections that are to have an
offset. An alignment of zero asks for nothing, like an alignment of one. -/
structure FaithfulLayout (obj : ElfObject) (text : ObjectSection × ℕ)
    (recorded : ObjectSection × ℕ → Prop) (code : CodeContent) : Prop where
  start : obj.StartsAt code text 0
  aligned : ∀ s offset, obj.StartsAt code s offset → max s.1.alignment.toNat 1 ∣ offset.toNat
  inside : ∀ s offset, obj.StartsAt code s offset →
    offset.toNat + s.1.size.toNat ≤ code.bytes.length
  disjoint : ∀ s offset s' offset', obj.StartsAt code s offset → obj.StartsAt code s' offset' →
    s.2 ≠ s'.2 → ∀ i, s.1.Covers offset i → ¬ s'.1.Covers offset' i
  content : ∀ s offset, obj.StartsAt code s offset → s.1.nobits = false →
    (code.bytes.drop offset.toNat).take s.1.size.toNat = s.1.content
  zero : ∀ i < code.bytes.length, (∀ s offset, obj.StartsAt code s offset → s.1.nobits = false →
    ¬ s.1.Covers offset i) → code.bytes[i]? = some 0
  records : ∀ key, (code.offsets key).isSome ↔
    ∃ s ∈ obj.sections.zipIdx, recorded s ∧ BitVec.ofNat 16 s.2 = key

section

variable {obj : ElfObject} {text : ObjectSection × ℕ} {place : ℕ → ℕ}

theorem mem_copied {s : ObjectSection × ℕ} (htext : text ∈ obj.sections.zipIdx) :
    s ∈ obj.copied text ↔ s ∈ obj.sections.zipIdx ∧ (s.2 = text.2 ∨ s.1.alloc = true) := by
  rw [ElfObject.copied, List.mem_cons, List.mem_filter, decide_eq_true_iff]
  constructor
  · rintro (rfl | ⟨hs, -, halloc⟩)
    · exact ⟨htext, .inl rfl⟩
    · exact ⟨hs, .inr halloc⟩
  · rintro ⟨hs, hcase⟩
    by_cases hidx : s.2 = text.2
    · left
      have hget := List.mk_mem_zipIdx_iff_getElem?.mp hs
      have hget' := List.mk_mem_zipIdx_iff_getElem?.mp htext
      rw [hidx, hget'] at hget
      exact Prod.ext (Option.some.inj hget).symm hidx
    · exact .inr ⟨hs, hidx, hcase.resolve_left hidx⟩

/-- A section that starts somewhere was copied, and starts at its place. -/
theorem LaysExactly.place_of_startsAt (h : LaysExactly (obj.copied text) place (codeContent obj text))
    (hlen : obj.sections.length ≤ 2 ^ 16) (htext : text ∈ obj.sections.zipIdx)
    (hfit : (codeContent obj text).bytes.length < 2 ^ 64) {s : ObjectSection × ℕ} {offset : Addr}
    (hs : obj.StartsAt (codeContent obj text) s offset) :
    s ∈ obj.copied text ∧ offset.toNat = place s.2 := by
  obtain ⟨hmem, hoffset⟩ := hs
  obtain ⟨s', hs', hkey⟩ := h.only _ _ hoffset
  obtain rfl := eq_of_key_eq hlen ((mem_copied htext).mp hs').1 hmem hkey
  refine ⟨hs', ?_⟩
  have hplace := h.offset s' hs'
  have hinside := h.inside s' hs'
  rw [hoffset] at hplace
  obtain rfl := Option.some.inj hplace
  rw [BitVec.toNat_ofNat]
  exact Nat.mod_eq_of_lt (by omega)

/-- Two sections copied do not share a byte. -/
theorem Lays.disjoint {items : List (ObjectSection × ℕ)} {code : CodeContent}
    (h : Lays items place code) {s s' : ObjectSection × ℕ} (hs : s ∈ items) (hs' : s' ∈ items)
    (hne : s.2 ≠ s'.2) : place s.2 + s.1.bytes.length ≤ place s'.2 ∨
      place s'.2 + s'.1.bytes.length ≤ place s.2 := by
  have hpairwise : items.Pairwise fun s s' => s.2 ≠ s'.2 →
      place s.2 + s.1.bytes.length ≤ place s'.2 ∨ place s'.2 + s'.1.bytes.length ≤ place s.2 :=
    h.apart.imp fun h _ => .inl h
  have hflip : items.Pairwise (flip fun s s' => s.2 ≠ s'.2 →
      place s.2 + s.1.bytes.length ≤ place s'.2 ∨ place s'.2 + s'.1.bytes.length ≤ place s.2) :=
    h.apart.imp fun h _ => .inr h
  exact List.Pairwise.forall_of_forall_of_flip (fun _ _ hne => absurd rfl hne) hpairwise hflip
    hs hs' hne

end

/-- **The layout is faithful**: `.text` and the other allocated sections are recorded, each starts at a
multiple of its alignment and has its bytes to itself, and the rest of the buffer is zero. -/
theorem codeContent_faithful {obj : ElfObject} {text : ObjectSection × ℕ}
    (htext : obj.text? = some text) (hlen : obj.sections.length ≤ 2 ^ 16)
    (hsized : ∀ s ∈ obj.sections, s.Sized)
    (hfit : (codeContent obj text).bytes.length < 2 ^ 64) :
    FaithfulLayout obj text (fun s => s.2 = text.2 ∨ s.1.alloc = true) (codeContent obj text) := by
  have hmem : text ∈ obj.sections.zipIdx := List.mem_of_find?_eq_some htext
  obtain ⟨place, hlays⟩ := codeContent_laysExactly hlen hmem
  have hplace : ∀ {s offset}, obj.StartsAt (codeContent obj text) s offset →
      s ∈ obj.copied text ∧ offset.toNat = place s.2 :=
    fun hs => hlays.place_of_startsAt hlen hmem hfit hs
  have hsize : ∀ s ∈ obj.copied text, s.1.bytes.length = s.1.size.toNat := fun s hs =>
    (hsized s.1 (List.fst_mem_of_mem_zipIdx ((mem_copied hmem).mp hs).1)).length_bytes
  refine ⟨?_, fun s offset hs => ?_, fun s offset hs => ?_, fun s offset s' offset' hs hs' hne => ?_,
    fun s offset hs hbits => ?_, fun i hi hout => ?_, fun key => ?_⟩
  · -- `.text` was copied first
    have hstart := hlays.start text rfl
    have hoffset := hlays.offset text (List.mem_cons_self ..)
    rw [hstart] at hoffset
    exact ⟨hmem, hoffset⟩
  · obtain ⟨hcopied, hoffset⟩ := hplace hs
    rw [hoffset]
    exact hlays.aligned s hcopied
  · obtain ⟨hcopied, hoffset⟩ := hplace hs
    rw [hoffset, ← hsize s hcopied]
    exact hlays.inside s hcopied
  · rintro i ⟨hle, hlt⟩ ⟨hle', hlt'⟩
    obtain ⟨hcopied, hoffset⟩ := hplace hs
    obtain ⟨hcopied', hoffset'⟩ := hplace hs'
    have hapart := hlays.disjoint hcopied hcopied' hne
    rw [hsize s hcopied, hsize s' hcopied'] at hapart
    omega
  · obtain ⟨hcopied, hoffset⟩ := hplace hs
    have hbytes : s.1.bytes = s.1.content := by
      rw [ObjectSection.bytes, hbits]
      rfl
    rw [hoffset, ← hsize s hcopied, ← hbytes]
    refine List.ext_getElem? fun j => ?_
    rw [List.getElem?_take]
    split
    · next hj =>
      rw [List.getElem?_drop]
      exact hlays.bytes s hcopied j hj
    · next hj => exact (List.getElem?_eq_none (Nat.not_lt.mp hj)).symm
  · -- a byte in no section or in a `NOBITS` section
    by_cases hcover : ∃ s ∈ obj.copied text, place s.2 ≤ i ∧ i < place s.2 + s.1.bytes.length
    · obtain ⟨s, hs, hle, hlt⟩ := hcover
      have hstarts : obj.StartsAt (codeContent obj text) s (BitVec.ofNat 64 (place s.2)) :=
        ⟨((mem_copied hmem).mp hs).1, hlays.offset s hs⟩
      have hbits : s.1.nobits = true := by
        by_contra hbits
        refine hout s _ hstarts (Bool.eq_false_of_not_eq_true hbits) ?_
        rw [ObjectSection.Covers, (hplace hstarts).2, ← hsize s hs]
        exact ⟨hle, hlt⟩
      have hzero := hlays.bytes s hs (i - place s.2) (by omega)
      rw [Nat.add_sub_cancel' hle] at hzero
      rw [hzero, ObjectSection.bytes, if_pos hbits, List.getElem?_replicate, if_pos]
      rw [hsize s hs] at hlt
      omega
    · exact hlays.zero i hi fun s hs hcov => hcover ⟨s, hs, hcov⟩
  · constructor
    · intro hsome
      obtain ⟨offset, hoffset⟩ := Option.isSome_iff_exists.mp hsome
      obtain ⟨s, hs, hkey⟩ := hlays.only key offset hoffset
      obtain ⟨hs, hrecorded⟩ := (mem_copied hmem).mp hs
      exact ⟨s, hs, hrecorded, hkey⟩
    · rintro ⟨s, hs, hrecorded, rfl⟩
      rw [hlays.offset s ((mem_copied hmem).mpr ⟨hs, hrecorded⟩)]
      rfl

/-- Data in front of the code, and room behind both. -/
def threeSections : ElfObject where
  isObject := true
  sections := [⟨".rodata", false, true, 4, 2, [7, 9]⟩, ⟨".text", false, true, 16, 1, [0xC3]⟩,
    ⟨".bss", true, true, 0, 3, []⟩]
  symbols := []
  relocations := []

theorem threeSections_text? : threeSections.text? =
    some (⟨".text", false, true, 16, 1, [0xC3]⟩, 1) := by
  simp [ElfObject.text?, threeSections]

theorem threeSections_faithful : FaithfulLayout threeSections
    (⟨".text", false, true, 16, 1, [0xC3]⟩, 1) (fun s => s.2 = 1 ∨ s.1.alloc = true)
    (codeContent threeSections (⟨".text", false, true, 16, 1, [0xC3]⟩, 1)) := by
  refine codeContent_faithful threeSections_text? (show 3 ≤ 2 ^ 16 by decide) ?_
    (show 9 < 2 ^ 64 by decide)
  simp [threeSections, ObjectSection.Sized]

/-- A text section that takes no room in memory by its flags. -/
def unallocatedText : ElfObject where
  isObject := true
  sections := [⟨".text", false, false, 16, 1, [0xC3]⟩]
  symbols := []
  relocations := []

/-- `.text` is copied and recorded whatever its flags are. -/
theorem unallocatedText_recorded :
    unallocatedText.text? = some (⟨".text", false, false, 16, 1, [0xC3]⟩, 0) ∧
    (∀ s ∈ unallocatedText.sections, s.Sized) ∧
    ¬ FaithfulLayout unallocatedText (⟨".text", false, false, 16, 1, [0xC3]⟩, 0)
      (fun s => s.1.alloc = true)
      (codeContent unallocatedText (⟨".text", false, false, 16, 1, [0xC3]⟩, 0)) := by
  refine ⟨by simp [ElfObject.text?, unallocatedText], by simp [unallocatedText, ObjectSection.Sized],
    fun hlayout => ?_⟩
  obtain ⟨s, hs, halloc, -⟩ := (hlayout.records 0).mp rfl
  obtain rfl := List.mem_singleton.mp hs
  cases halloc

end Vexa
