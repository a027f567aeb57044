import Vexa.Binary
import Vexa.FlatMemory
import Vexa.MemoryInvariant

/-!
# Fetched bytes and loaded bytes

The fetch loop of `process_instruction` looks cells up in global memory; a load of the program goes
through the page translation. They see the same byte wherever the page translation leads to global
memory, in every state of every run.

Within the stack range the load goes to the stack page while the fetch stays in global memory. A
position-independent image is mapped from address zero, so its first bytes are in that range. And the
fetch shifts a 64-bit number, so the ninth byte of a wider literal is fetched as its first.

## Main results

* `fetch_agrees` — in every state of a run, outside the stack range and up to the eighth byte
* `fetch_misses_stack` — a mapped byte that is fetched and not loaded
-/

namespace Vexa

open LittleEndian

/-- The 8-bit load of the address by lifted code denotes the byte. -/
def DataRead (S : Solver) (c : Context) (a : Addr) (byte : BitVec 8) : Prop :=
  ∃ v c', Access.route S c (.read a 1) = .ok (some v, c') ∧ v.size = 8 ∧ ∀ ν, v.eval ν = byte.toNat

/-- A fetch from the address takes the byte a load of it would: the page translation leads to global
memory, and the byte is among the low eight of its value. -/
def FetchedAsLoaded (page : MemPage) (a : Addr) : Prop :=
  inStack a = false ∧ ∀ cell, page.find a = some cell → cell.whichByte < 8

variable {M : Machine} {c c₀ : Cpu} {a : Addr} {byte : BitVec 8}

/-- The byte cut out of a 64-bit number. -/
theorem setWidth_ushiftRight {n i : ℕ} (hi : i < 8) :
    ((BitVec.ofNat 64 n) >>> (i * 8 % 64)).setWidth 8 = LittleEndian.byte n i := by
  rw [← byte_mod hi, show i * 8 % 64 = 8 * i by omega]
  apply BitVec.eq_of_toNat_eq
  rw [LittleEndian.byte, BitVec.toNat_setWidth, BitVec.toNat_ushiftRight, BitVec.toNat_ofNat,
    BitVec.toNat_ofNat, Nat.shiftRight_eq_div_pow, two_pow_eight_mul, show 2 ^ 64 = 256 ^ 8 by rfl]

/-- What the fetch loop takes is the byte of a literal. -/
theorem fetchByte_eq {page : MemPage} (h : fetchByte page a = some byte)
    (hnarrow : ∀ cell, page.find a = some cell → cell.whichByte < 8) :
    ∃ cell, page.find a = some cell ∧ ∀ ν, cell.byte ν = byte := by
  rw [fetchByte] at h
  split at h
  · next cell hcell =>
    split at h
    · next full hfull =>
      refine ⟨cell, hcell, fun ν => ?_⟩
      rw [Value.asUint64] at hfull
      cases hterm : cell.originalVal.term with
      | value w n =>
        rw [hterm] at hfull
        obtain rfl := Option.some.inj hfull
        rw [← Option.some.inj h, setWidth_ushiftRight (hnarrow cell hcell), MemCell.byte, Value.eval,
          hterm, Term.eval]
      | _ =>
        rw [hterm] at hfull
        cases hfull
    · cases h
  · cases h

/-- A load from global memory. -/
theorem dataRead_of_find {S : Solver} (hS : S.Sound) {ctx : Context} (hwf : ctx.memory.WF)
    (hglobal : inStack a = false) {cell : MemCell}
    (hcell : (ctx.memory globalPage).find a = some cell) (hbyte : ∀ ν, cell.byte ν = byte) :
    DataRead S ctx a byte := by
  obtain ⟨ptr, hptr, hpage, hbase⟩ := calculatePointer_concrete hS a
  rw [locate, hglobal, if_neg Bool.false_ne_true] at hpage hbase
  obtain ⟨hgrow, hsize, heval⟩ := Context.read_sound (hwf 1) hbase Nat.one_pos
  refine ⟨_, (ctx.read S ptr (8 * 1)).2, ?_, hsize, fun ν => ?_⟩
  · simp only [Access.route, hptr, bind, Except.bind, pure, Except.pure]
  · have hkept : (ctx.read S ptr (8 * 1)).2.memory.denote ν (fun _ _ => 0) globalPage a = byte := by
      rw [Memory.denote, hgrow.kept globalPage a cell hcell]
      exact hbyte ν
    rw [heval ν fun _ _ => 0, hpage, ByteMemory.load, List.range_one, List.map_singleton,
      ofBytes_singleton]
    show (Memory.denote ν (fun _ _ => 0) _ globalPage (a + 0#64)).toNat = byte.toNat
    rw [BitVec.add_zero, hkept]

/-- **Fetched bytes are loaded bytes**, in every state a run reaches from a mapped image: whatever the
solver answers, with any callbacks, in every mode, and after any stores over the code. -/
theorem fetch_agrees (hS : M.solver.Sound) (hM : M.RegistersFit) {b : Binary} {image : MemPage}
    (hmap : mapBinary b .empty = some image) {layout : Layout} {opaqueSolving : Bool} {pc : Addr}
    (hstart : start M layout image.sealPage opaqueSolving pc = .ok c₀) {calls : List Cpu}
    {ended : List PathEnd} (hreach : Explores M c₀ calls ended c)
    (hfetch : fetchByte (c.symex.context.memory globalPage) a = some byte)
    (hwhere : FetchedAsLoaded (c.symex.context.memory globalPage) a) :
    DataRead M.solver c.symex.context a byte := by
  have himage : ∀ k x cell, image.sealPage.find x = some cell → cell.WFAt k := by
    intro k x cell hcell
    obtain ⟨mapped, rfl, _⟩ := mapBinary_cell (a := x) hmap hcell
    rintro rfl
    exact ⟨Nat.zero_lt_one, rfl⟩
  obtain ⟨hbuilt, hmaps⟩ := start_built hstart
  have hregular := (start_regular hS hM himage hstart).explores hS hM hbuilt hmaps hreach
  obtain ⟨cell, hcell, hbyte⟩ := fetchByte_eq hfetch hwhere.2
  exact dataRead_of_find hS hregular.symex.wf hwhere.1 hcell hbyte

/-! ### A position-independent image -/

/-- One byte of code at `0x1000`, as position-independent images have them. -/
def lowImage : Binary := .elf true 0 [⟨1, 0x1000, 1, [0x90]⟩]

/-- The same at `0x401000`. -/
def highImage : Binary := .elf false 0x400000 [⟨1, 0x401000, 1, [0x90]⟩]

theorem fetch_agrees_highImage : ∃ image c₀,
    mapBinary highImage .empty = some image ∧
    start (Machine.bare .folding) ⟨0, 8⟩ image.sealPage false 0x401000 = .ok c₀ ∧
    DataRead .folding c₀.symex.context 0x401000 0x90 := by
  refine ⟨_, _, rfl, rfl, ?_⟩
  exact fetch_agrees (M := Machine.bare .folding) Solver.folding_sound nofun (b := highImage) rfl rfl
    .start rfl ⟨rfl, fun cell hcell => by obtain rfl := Option.some.inj hcell; decide⟩

/-- A mapped byte is fetched, and a load of its address reads a new symbol from the stack page. -/
theorem fetch_misses_stack : ∃ image c₀,
    mapBinary lowImage .empty = some image ∧
    start (Machine.bare .folding) ⟨0, 8⟩ image.sealPage false 0x1000 = .ok c₀ ∧
    fetchByte (c₀.symex.context.memory globalPage) 0x1000 = some 0x90 ∧
    ¬ DataRead .folding c₀.symex.context 0x1000 0x90 := by
  refine ⟨_, _, rfl, rfl, rfl, ?_⟩
  rintro ⟨v, c', hread, _, heval⟩
  obtain rfl := Option.some.inj (Prod.mk.inj (Except.ok.inj hread)).1
  exact absurd (heval fun _ => 0) (by decide)

end Vexa
