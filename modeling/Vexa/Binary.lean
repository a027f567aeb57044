import Vexa.MemoryTrace

/-!
# Mapping a binary

`engine::map_binary` copies what LIEF parsed into global memory before the run: every program header of
an ELF, loadable or not, with zeros up to its memory size, and the contents of the sections of a PE,
without zeros. A later header or section overwrites an earlier one.

The loader of the operating system maps the loadable headers only, and fills up the sections of a PE as
well. The two agree exactly if at every address of the loader's image the last header that reaches the
address has the loader's byte there.

## Main definitions

* `Segment`, `Section`, `Binary`, `mapBinary`
* `Binary.Loaded` — the loader's image before relocation
* `Binary.Faithful` — the condition on the headers
* `Binary.Unspoiled` — what it asks of an ELF and of a PE

## Main results

* `mapBinary_find` — the last header that reaches an address decides
* `mapBinary_loaded_iff` — when global memory is the loader's image
-/

namespace Vexa

/-! ### Binaries as LIEF parses them -/

/-- The fields of `LIEF::ELF::Segment` that are read here or by the loader. -/
structure Segment where
  type : BitVec 32
  virtualAddress : Addr
  virtualSize : Addr
  content : List (BitVec 8)

/-- `PT_LOAD`. -/
def Segment.isLoad (s : Segment) : Bool := s.type = 1

/-- The fields of `LIEF::PE::Section`. The address is relative to the image base. -/
structure Section where
  virtualAddress : Addr
  virtualSize : Addr
  content : List (BitVec 8)

/-- `vexa::binary`, with what is read of it. -/
inductive Binary
  | elf (isPie : Bool) (imagebase : Addr) (segments : List Segment)
  | pe (imagebase : Addr) (sections : List Section)
  | raw (data : List (BitVec 8))

/-! ### Mapping -/

/-- The rounds of the loop of `engine::write_memory`. -/
def writeBytes : List (BitVec 8) → Addr → MemPage → MemPage
  | [], _, p => p
  | byte :: bytes, address, p =>
    writeBytes bytes (address + 1) (p.initializeAt address (.concrete byte.toNat 8))

/-- `engine::write_memory`. The counter is an `unsigned int`: with a buffer of `2 ^ 32` bytes or more it
wraps around and the loop does not end. -/
def writeMemoryBytes (address : Addr) (buffer : List (BitVec 8)) (p : MemPage) : Option MemPage :=
  if buffer.length < 2 ^ 32 then some (writeBytes buffer address p) else none

/-- The loop that initializes `n` bytes with zero, from an offset on. -/
def zeroFill (address : Addr) (p : MemPage) : ℕ → Addr → MemPage
  | 0, _ => p
  | n + 1, offset =>
    zeroFill address (p.initializeAt (address + offset) (.concrete 0 8)) n (offset + 1)

/-- `int size = content.size()`, where it is compared with or stored in a `uint64_t`. -/
def contentSize (content : List (BitVec 8)) : Addr := (BitVec.ofNat 32 content.length).signExtend 64

/-- One round of the loop over the program headers. -/
def mapSegment (p : MemPage) (segment : Segment) : Option MemPage := do
  let size := contentSize segment.content
  let p ← writeMemoryBytes segment.virtualAddress segment.content p
  if segment.virtualSize ≤ size then return p
  return zeroFill segment.virtualAddress p (segment.virtualSize.toNat - size.toNat) size

/-- One round of the loop over the sections of a PE. -/
def mapSection (imagebase : Addr) (p : MemPage) (s : Section) : Option MemPage :=
  if s.content.isEmpty then some p
  else writeMemoryBytes (imagebase + s.virtualAddress) s.content p

/-- `engine::map_binary`; `none` when it does not return. -/
def mapBinary (b : Binary) (p : MemPage) : Option MemPage :=
  match b with
  | .elf _ _ segments => segments.foldlM mapSegment p
  | .pe imagebase sections => sections.foldlM (mapSection imagebase) p
  | .raw data => writeMemoryBytes 0 data p

/-! ### The loader -/

/-- A range of the image: so many bytes from an address on, the first of them from the file. -/
structure Region where
  address : Addr
  size : ℕ
  content : List (BitVec 8)

namespace Region

/-- The offset of an address in the region. -/
def offset (r : Region) (a : Addr) : ℕ := (a - r.address).toNat

/-- What the loader puts at an address of the region: the file byte in the file-backed part, and zero in
the rest. -/
def byteAt (r : Region) (a : Addr) : BitVec 8 := (r.content[r.offset a]?).getD 0

def Contains (r : Region) (a : Addr) : Prop := r.offset a < r.size

instance (r : Region) (a : Addr) : Decidable (r.Contains a) :=
  inferInstanceAs (Decidable (r.offset a < r.size))

end Region

/-- The range of a program header. -/
def Segment.region (s : Segment) : Region := ⟨s.virtualAddress, s.virtualSize.toNat, s.content⟩

/-- The range of a section. -/
def Section.region (imagebase : Addr) (s : Section) : Region :=
  ⟨imagebase + s.virtualAddress, s.virtualSize.toNat, s.content⟩

/-- The ranges the loader of the operating system maps. -/
def Binary.loadable : Binary → List Region
  | .elf _ _ segments => (segments.filter Segment.isLoad).map Segment.region
  | .pe imagebase sections => sections.map (Section.region imagebase)
  | .raw _ => []

/-- No address is in two of the ranges the loader maps. -/
def Binary.Disjoint (b : Binary) : Prop :=
  b.loadable.Pairwise fun r r' => ∀ a, r.Contains a → ¬ r'.Contains a

/-- The loader puts the byte at the address. -/
def Binary.Loaded (b : Binary) (a : Addr) (byte : BitVec 8) : Prop :=
  ∃ r ∈ b.loadable, r.Contains a ∧ byte = r.byteAt a

/-! ### What a header puts into memory -/

/-- The cell of a mapped byte. -/
def imageCell (byte : BitVec 8) : MemCell := ⟨.concrete byte.toNat 8, 1, 0⟩

/-- The byte a program header puts at an address: zero from the end of the content up to the memory
size, and its content before. -/
def Segment.put (s : Segment) (a : Addr) : Option (BitVec 8) :=
  if contentSize s.content ≤ a - s.virtualAddress ∧ a - s.virtualAddress < s.virtualSize then some 0
  else s.content[(a - s.virtualAddress).toNat]?

/-- The byte a section puts at an address. -/
def Section.put (imagebase : Addr) (s : Section) (a : Addr) : Option (BitVec 8) :=
  s.content[(a - (imagebase + s.virtualAddress)).toNat]?

/-- What is put into memory, one header or section after the other. -/
def Binary.puts : Binary → List (Addr → Option (BitVec 8))
  | .elf _ _ segments => segments.map Segment.put
  | .pe imagebase sections => sections.map (Section.put imagebase)
  | .raw data => [fun a => data[a.toNat]?]

/-- The contents that are copied. -/
def Binary.contents : Binary → List (List (BitVec 8))
  | .elf _ _ segments => segments.map Segment.content
  | .pe _ sections => sections.map Section.content
  | .raw data => [data]

/-- At every address the loader maps, the last header or section that puts a byte there puts the
loader's, and no content is too long for the counter of `write_memory`. -/
structure Binary.Faithful (b : Binary) : Prop where
  length : ∀ content ∈ b.contents, content.length < 2 ^ 32
  last : ∀ r ∈ b.loadable, ∀ a, r.Contains a → ∃ before put after, b.puts = before ++ put :: after ∧
    put a = some (r.byteAt a) ∧ ∀ put' ∈ after, put' a = none

/-- Global memory is the loader's image: `map_binary` returns, and there is a concrete byte equal to the
loader's wherever the loader puts one. -/
def Binary.MapsImage (b : Binary) : Prop :=
  ∃ p, mapBinary b .empty = some p ∧ ∀ a byte, b.Loaded a byte → p.find a = some (imageCell byte)

/-! ### Bytes that are written one after the other -/

variable {p p' : MemPage}

theorem MemPage.Fresh.initializeAt (h : p.Fresh) (a : Addr) (v : Value) :
    (p.initializeAt a v).Fresh := Setup.apply_fresh h (.initializeAt a v)

/-- A loop over the bytes puts each of them at its own address. -/
theorem writeBytes_fresh : ∀ (bytes : List (BitVec 8)) (address : Addr) {p : MemPage}, p.Fresh →
    (writeBytes bytes address p).Fresh
  | [], _, _, h => h
  | _ :: bytes, address, _, h => writeBytes_fresh bytes (address + 1) (h.initializeAt _ _)

/-- The distance from the next address. -/
theorem toNat_sub_add_one {x address : Addr} (h : x ≠ address) :
    (x - address).toNat = (x - (address + 1)).toNat + 1 := by
  bv_omega

theorem find_writeBytes : ∀ (bytes : List (BitVec 8)) (address : Addr) {p : MemPage}, p.Fresh →
    bytes.length ≤ 2 ^ 64 → ∀ x, (writeBytes bytes address p).find x =
      match bytes[(x - address).toNat]? with
      | some byte => some (imageCell byte)
      | none => p.find x
  | [], _, _, _, _, _ => rfl
  | byte :: bytes, address, p, h, hlen, x => by
    have hlen' : bytes.length < 2 ^ 64 := hlen
    rw [writeBytes, find_writeBytes bytes (address + 1) (h.initializeAt _ _) hlen'.le,
      h.find_initializeAt]
    by_cases hx : x = address
    · subst hx
      have hnone : bytes[(x - (x + 1)).toNat]? = none := by
        refine List.getElem?_eq_none ?_
        have hfar : (x - (x + 1)).toNat = 2 ^ 64 - 1 := by bv_omega
        omega
      rw [hnone, if_pos rfl, BitVec.sub_self]
      rfl
    · rw [toNat_sub_add_one hx, List.getElem?_cons_succ, if_neg hx]

/-- The zeros go from the offset up. -/
theorem zeroFill_fresh (address : Addr) : ∀ (n : ℕ) (offset : Addr) {p : MemPage}, p.Fresh →
    (zeroFill address p n offset).Fresh
  | 0, _, _, h => h
  | n + 1, offset, _, h => zeroFill_fresh address n (offset + 1) (h.initializeAt _ _)

theorem find_zeroFill (address : Addr) : ∀ (n : ℕ) (offset : Addr) {p : MemPage}, p.Fresh →
    offset.toNat + n ≤ 2 ^ 64 → ∀ x, (zeroFill address p n offset).find x =
      if offset.toNat ≤ (x - address).toNat ∧ (x - address).toNat < offset.toNat + n then
        some (imageCell 0)
      else p.find x
  | 0, offset, p, _, _, x => by
    rw [zeroFill, if_neg]
    omega
  | n + 1, offset, p, h, hlen, x => by
    rw [zeroFill]
    by_cases hn : n = 0
    · -- the last round, after which the offset may wrap around
      subst hn
      rw [zeroFill, h.find_initializeAt]
      by_cases hx : x = address + offset
      · subst hx
        have hdist : (address + offset - address).toNat = offset.toNat := by bv_omega
        rw [if_pos rfl, hdist, if_pos ⟨Nat.le_refl _, Nat.lt_succ_self _⟩]
        rfl
      · rw [if_neg hx, if_neg]
        intro hrange
        have hdist : (x - address).toNat = offset.toNat := by omega
        exact hx (by bv_omega)
    · have hnext : (offset + 1).toNat = offset.toNat + 1 := by bv_omega
      rw [find_zeroFill address n (offset + 1) (h.initializeAt _ _) (by omega),
        h.find_initializeAt, hnext]
      by_cases hx : x = address + offset
      · subst hx
        have hdist : (address + offset - address).toNat = offset.toNat := by bv_omega
        rw [hdist, if_pos rfl, if_neg (by omega), if_pos (by omega)]
        rfl
      · have hdist : (x - address).toNat ≠ offset.toNat := by
          intro heq
          exact hx (by bv_omega)
        rw [if_neg hx]
        congr 1
        exact propext ⟨fun hrange => by omega, fun hrange => by omega⟩

/-! ### Headers one after the other -/

/-- The last byte put at an address. -/
def lastPut : List (Addr → Option (BitVec 8)) → Addr → Option (BitVec 8)
  | [], _ => none
  | put :: puts, a => (lastPut puts a).or (put a)

theorem lastPut_eq_some {puts : List (Addr → Option (BitVec 8))} {a : Addr} {byte : BitVec 8} :
    lastPut puts a = some byte ↔ ∃ before put after, puts = before ++ put :: after ∧
      put a = some byte ∧ ∀ put' ∈ after, put' a = none := by
  induction puts with
  | nil => simp [lastPut]
  | cons put puts ih =>
    have hnone : lastPut puts a = none ↔ ∀ put' ∈ puts, put' a = none := by
      clear ih
      induction puts with
      | nil => simp [lastPut]
      | cons put' puts ih => simp [lastPut, ih, and_comm]
    rw [lastPut, Option.or_eq_some_iff, ih, hnone]
    constructor
    · rintro (⟨before, put', after, rfl, hput, hafter⟩ | ⟨hafter, hput⟩)
      · exact ⟨put :: before, put', after, rfl, hput, hafter⟩
      · exact ⟨[], put, puts, rfl, hput, hafter⟩
    · rintro ⟨before, put', after, heq, hput, hafter⟩
      cases before with
      | nil =>
        obtain ⟨rfl, rfl⟩ := List.cons.inj heq
        exact .inr ⟨hafter, hput⟩
      | cons _ before =>
        obtain ⟨rfl, rfl⟩ := List.cons.inj heq
        exact .inl ⟨before, put', after, rfl, hput, hafter⟩

/-- The page after the bytes are put. -/
structure PutsTo (put : Addr → Option (BitVec 8)) (p p' : MemPage) : Prop where
  fresh : p'.Fresh
  find : ∀ x, p'.find x = ((put x).map imageCell).or (p.find x)

theorem PutsTo.writeMemoryBytes (address : Addr) {buffer : List (BitVec 8)} (h : p.Fresh)
    (hlen : buffer.length < 2 ^ 32) :
    writeMemoryBytes address buffer p = some (writeBytes buffer address p) ∧
      PutsTo (fun a => buffer[(a - address).toNat]?) p (writeBytes buffer address p) := by
  refine ⟨if_pos hlen, writeBytes_fresh _ _ h, fun x => ?_⟩
  rw [find_writeBytes _ _ h (by omega)]
  cases buffer[(x - address).toNat]? <;> rfl

theorem mapSegment_puts (h : p.Fresh) {s : Segment} (hlen : s.content.length < 2 ^ 32) :
    ∃ p', mapSegment p s = some p' ∧ PutsTo s.put p p' := by
  obtain ⟨hwrite, hputs⟩ := PutsTo.writeMemoryBytes s.virtualAddress h hlen
  rw [mapSegment, hwrite]
  by_cases hle : s.virtualSize ≤ contentSize s.content
  · refine ⟨_, if_pos hle, hputs.fresh, fun x => ?_⟩
    rw [hputs.find, Segment.put, if_neg]
    rintro ⟨hstart, hend⟩
    bv_omega
  · refine ⟨_, if_neg hle, zeroFill_fresh _ _ _ hputs.fresh, fun x => ?_⟩
    have hlt : (contentSize s.content).toNat < s.virtualSize.toNat := BitVec.not_le.mp hle
    have hmax : s.virtualSize.toNat < 2 ^ 64 := s.virtualSize.isLt
    rw [find_zeroFill _ _ _ hputs.fresh (by omega), hputs.find, Segment.put,
      Nat.add_sub_cancel' hlt.le]
    by_cases hrange : contentSize s.content ≤ x - s.virtualAddress ∧ x - s.virtualAddress < s.virtualSize
    · rw [if_pos hrange, if_pos ⟨hrange.1, hrange.2⟩]
      rfl
    · rw [if_neg hrange, if_neg fun hcontra => hrange ⟨hcontra.1, hcontra.2⟩]

theorem mapSection_puts {imagebase : Addr} (h : p.Fresh) {s : Section}
    (hlen : s.content.length < 2 ^ 32) :
    ∃ p', mapSection imagebase p s = some p' ∧ PutsTo (s.put imagebase) p p' := by
  rw [mapSection]
  split
  · next hempty =>
    refine ⟨p, rfl, h, fun x => ?_⟩
    rw [Section.put, List.isEmpty_iff.mp hempty, List.getElem?_nil]
    rfl
  · exact ⟨_, PutsTo.writeMemoryBytes _ h hlen⟩

/-- **A loop over headers puts the last byte.** It returns exactly if no content is too long. -/
theorem foldlM_puts {α : Type} {step : MemPage → α → Option MemPage} (content : α → List (BitVec 8))
    {put : α → Addr → Option (BitVec 8)}
    (hstep : ∀ (p : MemPage) (x : α), p.Fresh → (content x).length < 2 ^ 32 →
      ∃ p', step p x = some p' ∧ PutsTo (put x) p p') :
    ∀ (items : List α) {p : MemPage}, p.Fresh → (∀ x ∈ items, (content x).length < 2 ^ 32) →
      ∃ p', items.foldlM step p = some p' ∧ PutsTo (lastPut (items.map put)) p p'
  | [], p, h, _ => ⟨p, rfl, h, fun _ => rfl⟩
  | x :: items, p, h, hlen => by
    obtain ⟨p₁, hp₁, hputs⟩ := hstep p x h (hlen x (List.mem_cons_self ..))
    obtain ⟨p', hp', hrest⟩ := foldlM_puts content hstep items hputs.fresh
      fun y hy => hlen y (List.mem_cons_of_mem _ hy)
    refine ⟨p', ?_, hrest.fresh, fun a => ?_⟩
    · rw [List.foldlM_cons, hp₁]
      exact hp'
    · rw [hrest.find, hputs.find, List.map_cons, lastPut]
      cases lastPut (items.map put) a <;> rfl

theorem foldlM_eq_none {α : Type} {step : MemPage → α → Option MemPage}
    (content : α → List (BitVec 8))
    (hlong : ∀ (p : MemPage) (x : α), ¬ (content x).length < 2 ^ 32 → step p x = none) :
    ∀ (items : List α) {p : MemPage}, (∃ x ∈ items, ¬ (content x).length < 2 ^ 32) →
      items.foldlM step p = none
  | [], _, h => by
    obtain ⟨x, hx, _⟩ := h
    cases hx
  | x :: items, p, h => by
    rw [List.foldlM_cons]
    by_cases hx : (content x).length < 2 ^ 32
    · obtain ⟨y, hy, hlen⟩ := h
      have hrest : ∃ y ∈ items, ¬ (content y).length < 2 ^ 32 := by
        rcases List.mem_cons.mp hy with rfl | hy
        · exact absurd hx hlen
        · exact ⟨y, hy, hlen⟩
      cases step p x with
      | none => rfl
      | some p₁ => exact foldlM_eq_none content hlong items hrest
    · rw [hlong p x hx]
      rfl

/-! ### The image -/

theorem empty_fresh : MemPage.empty.Fresh := fun _ => rfl

/-- **Mapping a binary** puts, at every address, the byte of the last header that reaches it. It returns
exactly if no content is too long. -/
theorem mapBinary_puts {b : Binary} (h : ∀ content ∈ b.contents, content.length < 2 ^ 32) :
    ∃ p, mapBinary b .empty = some p ∧ PutsTo (lastPut b.puts) .empty p := by
  cases b with
  | elf isPie imagebase segments =>
    exact foldlM_puts Segment.content (fun _ _ hfresh => mapSegment_puts hfresh) segments empty_fresh
      fun s hs => h s.content (List.mem_map_of_mem hs)
  | pe imagebase sections =>
    exact foldlM_puts Section.content (fun _ _ hfresh => mapSection_puts hfresh) sections empty_fresh
      fun s hs => h s.content (List.mem_map_of_mem hs)
  | raw data =>
    obtain ⟨hwrite, hputs⟩ := PutsTo.writeMemoryBytes 0 empty_fresh
      (h data (List.mem_singleton_self data))
    refine ⟨_, hwrite, hputs.fresh, fun x => ?_⟩
    rw [hputs.find, show x - 0 = x from BitVec.sub_zero x]
    rfl

theorem mapBinary_eq_none {b : Binary} (h : ∃ content ∈ b.contents, ¬ content.length < 2 ^ 32) :
    mapBinary b .empty = none := by
  obtain ⟨content, hcontent, hlen⟩ := h
  cases b with
  | elf isPie imagebase segments =>
    obtain ⟨s, hs, rfl⟩ := List.mem_map.mp hcontent
    refine foldlM_eq_none Segment.content (fun p x hlong => ?_) segments ⟨s, hs, hlen⟩
    rw [mapSegment, writeMemoryBytes, if_neg hlong]
    rfl
  | pe imagebase sections =>
    obtain ⟨s, hs, rfl⟩ := List.mem_map.mp hcontent
    refine foldlM_eq_none Section.content (fun p x hlong => ?_) sections ⟨s, hs, hlen⟩
    have hne : x.content.isEmpty = false := by
      cases hx : x.content with
      | nil => simp [hx] at hlong
      | cons _ _ => rfl
    rw [mapSection, hne, writeMemoryBytes, if_neg hlong]
    rfl
  | raw data =>
    obtain rfl := List.mem_singleton.mp hcontent
    exact if_neg hlen

/-- A mapped byte is the last one put at its address. -/
theorem mapBinary_cell {b : Binary} {page : MemPage} (hmap : mapBinary b .empty = some page) {a : Addr}
    {cell : MemCell} (hcell : page.find a = some cell) :
    ∃ byte, cell = imageCell byte ∧ lastPut b.puts a = some byte := by
  by_cases hlen : ∀ content ∈ b.contents, content.length < 2 ^ 32
  · obtain ⟨page', hpage', hputs⟩ := mapBinary_puts hlen
    obtain rfl := Option.some.inj (hmap.symm.trans hpage')
    rw [hputs.find, MemPage.find_empty, Option.or_none] at hcell
    obtain ⟨byte, hbyte, rfl⟩ := Option.map_eq_some_iff.mp hcell
    exact ⟨byte, rfl, hbyte⟩
  · obtain ⟨content, hcontent⟩ := not_forall.mp hlen
    obtain ⟨hmem, hlong⟩ := Classical.not_imp.mp hcontent
    rw [mapBinary_eq_none ⟨content, hmem, hlong⟩] at hmap
    cases hmap

theorem imageCell_injective : Function.Injective imageCell := by
  intro b b' h
  have heval : (imageCell b).originalVal.eval (fun _ => 0) = (imageCell b').originalVal.eval fun _ => 0 :=
    by rw [h]
  simp only [imageCell, Value.eval_concrete] at heval
  refine BitVec.eq_of_toNat_eq ?_
  rwa [Nat.mod_eq_of_lt b.isLt, Nat.mod_eq_of_lt b'.isLt] at heval

/-- The last header or section that puts a byte at an address of the image has to put the loader's. -/
theorem mapsImage_iff (b : Binary) : b.MapsImage ↔ b.Faithful := by
  by_cases hlen : ∀ content ∈ b.contents, content.length < 2 ^ 32
  · obtain ⟨p, hp, hputs⟩ := mapBinary_puts hlen
    have hfind : ∀ a byte, p.find a = some (imageCell byte) ↔ lastPut b.puts a = some byte := by
      intro a byte
      rw [hputs.find, MemPage.find_empty, Option.or_none, Option.map_eq_some_iff]
      exact ⟨fun ⟨byte', hbyte', heq⟩ => imageCell_injective heq ▸ hbyte', fun h => ⟨byte, h, rfl⟩⟩
    constructor
    · rintro ⟨p', hp', hloaded⟩
      obtain rfl := Option.some.inj (hp.symm.trans hp')
      refine ⟨hlen, fun r hr a ha => ?_⟩
      exact lastPut_eq_some.mp ((hfind a _).mp (hloaded a _ ⟨r, hr, ha, rfl⟩))
    · intro hfaithful
      refine ⟨p, hp, fun a byte hloaded => (hfind a byte).mpr ?_⟩
      obtain ⟨r, hr, ha, rfl⟩ := hloaded
      exact lastPut_eq_some.mpr (hfaithful.last r hr a ha)
  · constructor
    · rintro ⟨p, hp, _⟩
      obtain ⟨content, hcontent⟩ := not_forall.mp hlen
      obtain ⟨hmem, hlong⟩ := Classical.not_imp.mp hcontent
      rw [mapBinary_eq_none ⟨content, hmem, hlong⟩] at hp
      cases hp
    · intro hfaithful
      exact absurd hfaithful.length hlen

/-! ### What the condition asks of the two formats -/

/-- The contents are no longer than the ranges they are mapped to. -/
def Binary.Fits (b : Binary) : Prop := ∀ r ∈ b.loadable, r.content.length ≤ r.size

/-- An address is in one range. -/
theorem Binary.Disjoint.unique {b : Binary} (h : b.Disjoint) {r r' : Region} {a : Addr}
    (hr : r ∈ b.loadable) (hr' : r' ∈ b.loadable) (ha : r.Contains a) (ha' : r'.Contains a) :
    r = r' := by
  have hpairwise : b.loadable.Pairwise fun r r' => r.Contains a → r'.Contains a → r = r' :=
    h.imp fun hno ha ha' => absurd ha' (hno a ha)
  have hflip : b.loadable.Pairwise (flip fun r r' => r.Contains a → r'.Contains a → r = r') :=
    h.imp fun hno ha' ha => absurd ha' (hno a ha)
  exact List.Pairwise.forall_of_forall_of_flip (fun _ _ _ _ => rfl) hpairwise hflip hr hr' ha ha'

theorem lastPut_eq_none {puts : List (Addr → Option (BitVec 8))} {a : Addr} :
    lastPut puts a = none ↔ ∀ put ∈ puts, put a = none := by
  induction puts with
  | nil => simp [lastPut]
  | cons put puts ih => simp [lastPut, ih, and_comm]

theorem exists_put_of_lastPut {puts : List (Addr → Option (BitVec 8))} {a : Addr} {byte : BitVec 8}
    (h : lastPut puts a = some byte) : ∃ put ∈ puts, put a = some byte := by
  obtain ⟨before, put, after, rfl, hput, _⟩ := lastPut_eq_some.mp h
  exact ⟨put, List.mem_append_right _ (List.mem_cons_self ..), hput⟩

/-- A byte of a section's content lies in the section, and is the loader's. -/
theorem Section.put_eq_some {imagebase : Addr} {s : Section} {a : Addr} {byte : BitVec 8}
    (hfits : s.content.length ≤ s.virtualSize.toNat) (h : s.put imagebase a = some byte) :
    (s.region imagebase).Contains a ∧ (s.region imagebase).byteAt a = byte := by
  obtain ⟨hlt, _⟩ := List.getElem?_eq_some_iff.mp h
  exact ⟨hlt.trans_le hfits, congrArg (fun o : Option (BitVec 8) => o.getD 0) h⟩

/-- **For a PE** the zeros behind the contents are missing, so the contents have to fill the sections. -/
theorem pe_faithful_iff {imagebase : Addr} {sections : List Section}
    (hdisjoint : (Binary.pe imagebase sections).Disjoint) (hfits : (Binary.pe imagebase sections).Fits)
    (hlen : ∀ s ∈ sections, s.content.length < 2 ^ 32) :
    (Binary.pe imagebase sections).Faithful ↔
      ∀ s ∈ sections, s.content.length = s.virtualSize.toNat := by
  have hregion : ∀ s ∈ sections, s.region imagebase ∈ (Binary.pe imagebase sections).loadable :=
    fun s hs => List.mem_map_of_mem hs
  have hmem : ∀ put ∈ (Binary.pe imagebase sections).puts, ∃ s ∈ sections, s.put imagebase = put :=
    fun put hput => List.mem_map.mp hput
  constructor
  · intro hfaithful s hs
    refine Nat.le_antisymm (hfits _ (hregion s hs)) (Nat.not_lt.mp fun hshort => ?_)
    -- the address behind the content is put by no section
    set a := imagebase + s.virtualAddress + BitVec.ofNat 64 s.content.length with ha
    have hoffset : (s.region imagebase).offset a = s.content.length := by
      have hlt := hlen s hs
      exact ByteMemory.toNat_add_ofNat_sub _ (by omega)
    have hcontains : (s.region imagebase).Contains a := by
      rw [Region.Contains, hoffset]
      exact hshort
    obtain ⟨before, put, after, heq, hbyte, _⟩ := hfaithful.last _ (hregion s hs) a hcontains
    obtain ⟨t, ht, rfl⟩ := hmem put (heq ▸ List.mem_append_right _ (List.mem_cons_self ..))
    obtain ⟨hcontains', _⟩ := Section.put_eq_some (hfits _ (hregion t ht)) hbyte
    have hsame := hdisjoint.unique (hregion t ht) (hregion s hs) hcontains' hcontains
    have hnone : t.content[(t.region imagebase).offset a]? = none := by
      refine List.getElem?_eq_none ?_
      rw [hsame, hoffset]
      exact (congrArg (fun r : Region => r.content.length) hsame).le
    rw [show t.put imagebase a = none from hnone] at hbyte
    cases hbyte
  · intro hfull
    refine ⟨fun content hcontent => ?_, fun r hr a ha => ?_⟩
    · obtain ⟨s, hs, rfl⟩ := List.mem_map.mp hcontent
      exact hlen s hs
    · obtain ⟨s, hs, rfl⟩ := List.mem_map.mp hr
      refine lastPut_eq_some.mp ?_
      have hlt : (s.region imagebase).offset a < s.content.length := (hfull s hs).symm ▸ ha
      have hown : s.put imagebase a ≠ none := by
        intro hnone
        exact absurd hlt (Nat.not_lt.mpr (List.getElem?_eq_none_iff.mp hnone))
      cases hlast : lastPut (Binary.pe imagebase sections).puts a with
      | none => exact absurd (lastPut_eq_none.mp hlast _ (List.mem_map_of_mem hs)) hown
      | some byte =>
        obtain ⟨put, hput, hbyte⟩ := exists_put_of_lastPut hlast
        obtain ⟨t, ht, rfl⟩ := hmem put hput
        obtain ⟨hcontains, hbyte⟩ := Section.put_eq_some (hfits _ (hregion t ht)) hbyte
        rw [← hbyte, hdisjoint.unique (hregion t ht) (hregion s hs) hcontains ha]

theorem lastPut_append (puts puts' : List (Addr → Option (BitVec 8))) (a : Addr) :
    lastPut (puts ++ puts') a = (lastPut puts' a).or (lastPut puts a) := by
  induction puts with
  | nil => rw [List.nil_append, lastPut, Option.or_none]
  | cons put puts ih => rw [List.cons_append, lastPut, ih, lastPut, Option.or_assoc]

/-- A loadable header puts the loader's byte. -/
theorem Segment.put_of_contains {s : Segment} {a : Addr} (hlen : s.content.length < 2 ^ 31)
    (h : s.region.Contains a) : s.put a = some (s.region.byteAt a) := by
  have hsize : (contentSize s.content).toNat = s.content.length := by
    rw [contentSize, BitVec.signExtend_eq_setWidth_of_msb_false, BitVec.toNat_setWidth,
      BitVec.toNat_ofNat]
    · omega
    · rw [BitVec.msb_eq_decide, BitVec.toNat_ofNat]
      exact decide_eq_false (by omega)
  have hlt : (a - s.virtualAddress).toNat < s.virtualSize.toNat := h
  have hbyte : s.region.byteAt a = (s.content[(a - s.virtualAddress).toNat]?).getD 0 := rfl
  rw [Segment.put, hbyte]
  by_cases hin : (a - s.virtualAddress).toNat < s.content.length
  · rw [if_neg, List.getElem?_eq_getElem hin]
    · rfl
    · rintro ⟨hstart, _⟩
      exact absurd hin (Nat.not_lt.mpr (hsize ▸ hstart))
  · rw [if_pos, List.getElem?_eq_none (Nat.not_lt.mp hin)]
    · rfl
    · refine ⟨?_, hlt⟩
      show (contentSize s.content).toNat ≤ _
      rw [hsize]
      exact Nat.not_lt.mp hin

/-- **For an ELF** the headers behind a loadable one must not have another byte where they reach it. -/
theorem elf_faithful_iff {isPie : Bool} {imagebase : Addr} {segments : List Segment}
    (hlen : ∀ s ∈ segments, s.content.length < 2 ^ 31) :
    (Binary.elf isPie imagebase segments).Faithful ↔
      ∀ before s after, segments = before ++ s :: after → s.isLoad = true →
        ∀ a, s.region.Contains a → ∀ byte, lastPut (after.map Segment.put) a = some byte →
          byte = s.region.byteAt a := by
  -- what is put at an address of a loadable header
  have hlast : ∀ before s after, segments = before ++ s :: after → ∀ a, s.region.Contains a →
      lastPut (Binary.elf isPie imagebase segments).puts a =
        (lastPut (after.map Segment.put) a).or (some (s.region.byteAt a)) := by
    rintro before s after rfl a ha
    have hs := hlen s (List.mem_append_right _ (List.mem_cons_self ..))
    show lastPut ((before ++ s :: after).map Segment.put) a = _
    rw [List.map_append, List.map_cons, lastPut_append, lastPut, Segment.put_of_contains hs ha,
      Option.or_assoc]
    rfl
  constructor
  · rintro hfaithful before s after heq hload a ha byte hbyte
    have hmem : s ∈ segments := heq ▸ List.mem_append_right _ (List.mem_cons_self ..)
    have hs : s.region ∈ (Binary.elf isPie imagebase segments).loadable :=
      List.mem_map_of_mem (List.mem_filter.mpr ⟨hmem, hload⟩)
    have hright := lastPut_eq_some.mpr (hfaithful.last _ hs a ha)
    rw [hlast before s after heq a ha, hbyte] at hright
    exact Option.some.inj hright
  · intro hafter
    refine ⟨fun content hcontent => ?_, fun r hr a ha => ?_⟩
    · obtain ⟨s, hs, rfl⟩ := List.mem_map.mp hcontent
      exact (hlen s hs).trans (by decide)
    · obtain ⟨s, hs, rfl⟩ := List.mem_map.mp hr
      obtain ⟨hmem, hload⟩ := List.mem_filter.mp hs
      obtain ⟨before, after, heq⟩ := List.append_of_mem hmem
      refine lastPut_eq_some.mp ?_
      rw [hlast before s after heq a ha]
      cases hbyte : lastPut (after.map Segment.put) a with
      | none => rfl
      | some byte => exact congrArg some (hafter before s after heq hload a ha byte hbyte)

/-- What `Faithful` asks of the format: the headers of an ELF behind a loadable one have no other byte
where they reach it, and the contents of a PE fill its sections. -/
def Binary.Unspoiled : Binary → Prop
  | .elf _ _ segments => ∀ before s after, segments = before ++ s :: after → s.isLoad = true →
      ∀ a, s.region.Contains a → ∀ byte, lastPut (after.map Segment.put) a = some byte →
        byte = s.region.byteAt a
  | .pe _ sections => ∀ s ∈ sections, s.content.length = s.virtualSize.toNat
  | .raw _ => True

/-- The ranges the loader maps are apart and hold their contents, and no content has `2 ^ 31` bytes. -/
structure Binary.Ordinary (b : Binary) : Prop where
  disjoint : b.Disjoint
  fits : b.Fits
  length : ∀ content ∈ b.contents, content.length < 2 ^ 31

theorem Binary.Ordinary.faithful_iff {b : Binary} (h : b.Ordinary) : b.Faithful ↔ b.Unspoiled := by
  have hlen : ∀ content ∈ b.contents, content.length < 2 ^ 32 := fun content hcontent =>
    (h.length content hcontent).trans (by decide)
  cases b with
  | elf isPie imagebase segments =>
    exact elf_faithful_iff fun s hs => h.length s.content (List.mem_map_of_mem hs)
  | pe imagebase sections =>
    exact pe_faithful_iff h.disjoint h.fits fun s hs => hlen s.content (List.mem_map_of_mem hs)
  | raw data => exact iff_of_true ⟨hlen, nofun⟩ trivial

/-- **Global memory is the loader's image** exactly if no content has `2 ^ 32` bytes or more, and at
every address of the image the last header or section that puts a byte there puts the loader's. In an
ordinary binary this is so exactly if no header of an ELF behind a loadable one has another byte where it
reaches it, or the contents of a PE fill its sections. -/
theorem mapBinary_loaded_iff (b : Binary) :
    (b.MapsImage ↔ b.Faithful) ∧ (b.Ordinary → (b.MapsImage ↔ b.Unspoiled)) :=
  ⟨mapsImage_iff b, fun h => (mapsImage_iff b).trans h.faithful_iff⟩

/-! ### Two images -/

/-- Initialized thread-local data of four bytes and a pointer behind it, in one loadable header, and the
thread-local header, which counts four more bytes that take no room in the image. -/
def threadLocal : Binary :=
  .elf true 0 [⟨1, 0x1000, 8, [1, 2, 3, 4, 5, 6, 7, 8]⟩, ⟨7, 0x1000, 8, [1, 2, 3, 4]⟩]

/-- A section of uninitialized data. -/
def uninitializedData : Binary := .pe 0x140000000 [⟨0x1000, 4, [1, 2, 3, 4]⟩, ⟨0x2000, 16, []⟩]

/-- The zeros of the thread-local header overwrite the pointer, and uninitialized data are not mapped at
all. -/
theorem threadLocal_overwritten :
    (threadLocal.Disjoint ∧ threadLocal.Loaded 0x1004 5 ∧
      ∃ p, mapBinary threadLocal .empty = some p ∧ p.find 0x1004 = some (imageCell 0)) ∧
    (uninitializedData.Disjoint ∧ uninitializedData.Loaded 0x140002000 0 ∧
      ∃ p, mapBinary uninitializedData .empty = some p ∧ p.find 0x140002000 = none) ∧
    ¬ threadLocal.MapsImage ∧ ¬ uninitializedData.MapsImage := by
  have hthread : threadLocal.Loaded 0x1004 5 :=
    ⟨_, List.mem_singleton_self _, by decide, by decide⟩
  have hdata : uninitializedData.Loaded 0x140002000 0 :=
    ⟨_, List.mem_cons_of_mem _ (List.mem_singleton_self _), by decide, by decide⟩
  refine ⟨⟨List.pairwise_singleton .., hthread, _, rfl, rfl⟩, ⟨?_, hdata, _, rfl, rfl⟩, ?_, ?_⟩
  · refine List.pairwise_pair.mpr fun a ha ha' => ?_
    simp only [Region.Contains, Region.offset, Section.region] at ha ha'
    bv_omega
  · rintro ⟨p, hp, hloaded⟩
    obtain rfl := Option.some.inj hp
    exact absurd (hloaded 0x1004 5 hthread) (by decide)
  · rintro ⟨p, hp, hloaded⟩
    obtain rfl := Option.some.inj hp
    exact absurd (hloaded 0x140002000 0 hdata) nofun

end Vexa
