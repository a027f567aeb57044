import Vexa.Lib.ByteMemory

/-!
# Memories split into banks

A memory may keep its bytes in several banks and choose the bank of an access from the first byte
of it alone. Every address then has a byte in every bank, and two accesses that overlap may still
miss each other. Here is when that cannot be told from one flat memory.

`Consistent` follows which bank holds the current byte of an address: the one last stored into, or,
before any store, the one first loaded from. A sequence is consistent if no load takes a byte from
another bank. It says nothing about the numbers stored.

## Main results

* `bankedLoads_eq_flatLoads` — the loads of a consistent sequence are those of a flat memory
* `flat_iff_consistent` — and only those have that for all numbers stored
* `consistent_of_within` — accesses within one bank are consistent
-/

namespace BankedMemory

open LittleEndian ByteMemory

variable {w : ℕ} {β : Type*}

/-- An access to `k` bytes. -/
inductive Access (w : ℕ)
  | store (a : BitVec w) (k n : ℕ)
  | load (a : BitVec w) (k : ℕ)

/-- An access without the number it stores. -/
structure Span (w : ℕ) where
  isStore : Bool
  start : BitVec w
  bytes : ℕ

def Access.span : Access w → Span w
  | store a k _ => ⟨true, a, k⟩
  | load a k => ⟨false, a, k⟩

/-- No more than the bytes of the access are stored. -/
def Access.InRange : Access w → Prop
  | store _ k n => n < 256 ^ k
  | load _ _ => True

/-- The address is among the bytes of the access. -/
def Span.Covers (s : Span w) (x : BitVec w) : Prop := (x - s.start).toNat < s.bytes

instance (s : Span w) (x : BitVec w) : Decidable (s.Covers x) := Nat.decLt _ _

/-! ### Flat and banked loads -/

/-- The width in bits and the number of every load from one memory. -/
def flatLoads (m : Memory w) : List (Access w) → List (ℕ × ℕ)
  | [] => []
  | .store a k n :: ops => flatLoads (store m a k n) ops
  | .load a k :: ops => (8 * k, load m a k) :: flatLoads m ops

/-- The same with the bank of an access chosen by `bank` from its first byte. -/
def bankedLoads [DecidableEq β] (bank : BitVec w → β) (banks : β → Memory w) :
    List (Access w) → List (ℕ × ℕ)
  | [] => []
  | .store a k n :: ops =>
    bankedLoads bank (Function.update banks (bank a) (store (banks (bank a)) a k n)) ops
  | .load a k :: ops => (8 * k, load (banks (bank a)) a k) :: bankedLoads bank banks ops

/-- Which bank holds the current byte of an address, where that is settled. -/
abbrev Owner (w : ℕ) (β : Type*) := BitVec w → Option β

/-- After an access the bytes of it are those of its bank. -/
def Owner.access (bank : BitVec w → β) (o : Owner w β) (s : Span w) : Owner w β := fun x =>
  if s.Covers x then some (bank s.start) else o x

/-- No load takes a byte from a bank that does not hold the current one. -/
def Consistent (bank : BitVec w → β) : Owner w β → List (Span w) → Prop
  | _, [] => True
  | o, s :: spans =>
    (s.isStore = false → ∀ x, s.Covers x → ∀ b, o x = some b → b = bank s.start) ∧
      Consistent bank (o.access bank s) spans

/-- The bank of the first access to a byte. -/
def firstBank (bank : BitVec w → β) : List (Span w) → BitVec w → β
  | [], x => bank x
  | s :: spans, x => if s.Covers x then bank s.start else firstBank bank spans x

/-- The bank an address has its byte in before the sequence. -/
def Owner.home (bank : BitVec w → β) (o : Owner w β) (spans : List (Span w)) (x : BitVec w) : β :=
  (o x).getD (firstBank bank spans x)

variable {bank : BitVec w → β} {o : Owner w β} {s : Span w} {spans : List (Span w)} {x : BitVec w}

theorem Owner.access_of_covers (h : s.Covers x) : o.access bank s x = some (bank s.start) :=
  if_pos h

theorem Owner.access_of_not_covers (h : ¬ s.Covers x) : o.access bank s x = o x := if_neg h

theorem Owner.home_access_of_covers (h : s.Covers x) :
    (o.access bank s).home bank spans x = bank s.start := by
  rw [home, access_of_covers h, Option.getD_some]

theorem Owner.home_access_of_not_covers (h : ¬ s.Covers x) :
    (o.access bank s).home bank spans x = o.home bank (s :: spans) x := by
  rw [home, access_of_not_covers h, home, firstBank, if_neg h]

/-- Every byte of an access is at some distance from its first. -/
theorem Span.covers_add {i : ℕ} (h : i < s.bytes) : s.Covers (s.start + BitVec.ofNat w i) := by
  rw [Covers, BitVec.add_comm, BitVec.add_sub_cancel, BitVec.toNat_ofNat]
  exact (Nat.mod_le i _).trans_lt h

/-- A load that agrees byte for byte. -/
theorem load_eq_load_iff {m m' : Memory w} {a : BitVec w} {k : ℕ} :
    load m a k = load m' a k ↔ ∀ x, Span.Covers ⟨false, a, k⟩ x → m x = m' x := by
  constructor
  · intro h x hx
    have hbyte := congrArg (fun n => byte n (x - a).toNat) h
    simp only [byte_load _ a (show (x - a).toNat < k from hx), add_ofNat_toNat_sub] at hbyte
    exact hbyte
  · intro h
    exact load_congr fun i hi => h _ (Span.covers_add (s := ⟨false, a, k⟩) hi)

section

variable [DecidableEq β]

/-- **Consistent sequences are flat.** Each address starts with the byte in its home bank. -/
theorem bankedLoads_eq_flatLoads : ∀ (ops : List (Access w)) {o : Owner w β} {m : Memory w}
    {banks : β → Memory w}, Consistent bank o (ops.map Access.span) →
      (∀ x, m x = banks (o.home bank (ops.map Access.span) x) x) →
        bankedLoads bank banks ops = flatLoads m ops
  | [], _, _, _, _, _ => rfl
  | .store a k n :: ops, o, m, banks, h, hm => by
    refine bankedLoads_eq_flatLoads ops h.2 fun x => ?_
    by_cases hx : Span.Covers (Access.store a k n).span x
    · have hlt : (x - a).toNat < k := hx
      rw [Owner.home_access_of_covers hx]
      change store m a k n x
        = Function.update banks (bank a) (store (banks (bank a)) a k n) (bank a) x
      rw [Function.update_self, store_of_lt n hlt, store_of_lt n hlt]
    · have hlt : ¬ (x - a).toNat < k := hx
      rw [Owner.home_access_of_not_covers hx, store_of_not_lt n hlt, hm x, List.map_cons]
      by_cases hbank : o.home bank ((Access.store a k n).span :: ops.map Access.span) x = bank a
      · rw [hbank, Function.update_self, store_of_not_lt n hlt]
      · rw [Function.update_of_ne hbank]
  | .load a k :: ops, o, m, banks, h, hm => by
    have hcovered : ∀ x, Span.Covers ⟨false, a, k⟩ x → m x = banks (bank a) x := by
      intro x hx
      rw [hm x, Owner.home]
      cases ho : o x with
      | none => rw [Option.getD_none, List.map_cons, firstBank, Access.span, if_pos hx]
      | some b => rw [Option.getD_some, h.1 rfl x hx b ho]; rfl
    have hrest : bankedLoads bank banks ops = flatLoads m ops := by
      refine bankedLoads_eq_flatLoads ops h.2 fun x => ?_
      by_cases hx : Span.Covers (Access.load a k).span x
      · rw [Owner.home_access_of_covers hx]
        exact hcovered x hx
      · rw [Owner.home_access_of_not_covers hx]
        exact hm x
    rw [bankedLoads, flatLoads, load_eq_load_iff.mpr hcovered, hrest]

/-- What flat loads say of the owners: for all numbers stored there is a flat memory that starts
with the bytes the owners hold. -/
def Flat (bank : BitVec w → β) (o : Owner w β) (spans : List (Span w)) : Prop :=
  ∀ (ops : List (Access w)) (banks : β → Memory w), ops.map Access.span = spans →
    (∀ op ∈ ops, op.InRange) → ∃ m : Memory w, (∀ x b, o x = some b → m x = banks b x) ∧
      bankedLoads bank banks ops = flatLoads m ops

/-- Every span is that of an access. -/
theorem exists_span : ∀ spans : List (Span w), ∃ ops : List (Access w),
    ops.map Access.span = spans ∧ ∀ op ∈ ops, op.InRange
  | [] => ⟨[], rfl, fun _ h => nomatch h⟩
  | ⟨isStore, a, k⟩ :: spans => by
    obtain ⟨ops, rfl, hops⟩ := exists_span spans
    cases isStore with
    | true =>
      exact ⟨.store a k 0 :: ops, rfl, List.forall_mem_cons.mpr ⟨Nat.pos_of_neZero _, hops⟩⟩
    | false => exact ⟨.load a k :: ops, rfl, List.forall_mem_cons.mpr ⟨trivial, hops⟩⟩

/-- A load from a bank that does not hold the byte shows. -/
theorem Flat.load_owned (h : Flat bank o (s :: spans)) (hs : s.isStore = false) (hx : s.Covers x)
    {b : β} (ho : o x = some b) : b = bank s.start := by
  by_contra hne
  obtain ⟨ops, rfl, hops⟩ := exists_span spans
  obtain ⟨_, a, k⟩ := s
  cases hs
  -- one bank of ones among banks of zeros
  obtain ⟨m, hm, hloads⟩ := h (.load a k :: ops) (fun b' _ => if b' = b then 1 else 0) rfl
    (List.forall_mem_cons.mpr ⟨trivial, hops⟩)
  rw [bankedLoads, flatLoads, List.cons.injEq, Prod.mk.injEq] at hloads
  have hbyte := load_eq_load_iff.mp hloads.1.2 x hx
  rw [hm x b ho, if_pos rfl, if_neg fun h => hne h.symm] at hbyte
  exact absurd hbyte (by decide)

/-- What is left of it after the first access. -/
theorem Flat.tail (h : Flat bank o (s :: spans)) : Flat bank (o.access bank s) spans := by
  intro ops banks hops hrange
  obtain ⟨isStore, a, k⟩ := s
  cases isStore with
  | true =>
    -- the number that is there already is stored
    obtain ⟨m, hm, hloads⟩ := h (.store a k (load (banks (bank a)) a k) :: ops) banks
      (by rw [List.map_cons, hops]; rfl) (List.forall_mem_cons.mpr ⟨load_lt _ a k, hrange⟩)
    rw [bankedLoads, flatLoads, store_load_self _ _ (Nat.le_refl k), Function.update_eq_self]
      at hloads
    refine ⟨_, fun x b hb => ?_, hloads⟩
    by_cases hx : Span.Covers ⟨true, a, k⟩ x
    · rw [Owner.access_of_covers hx] at hb
      rw [store_of_lt _ hx, byte_load _ a (show (x - a).toNat < k from hx), add_ofNat_toNat_sub,
        ← Option.some.inj hb]
    · rw [Owner.access_of_not_covers hx] at hb
      rw [store_of_not_lt _ hx, hm x b hb]
  | false =>
    obtain ⟨m, hm, hloads⟩ := h (.load a k :: ops) banks (by rw [List.map_cons, hops]; rfl)
      (List.forall_mem_cons.mpr ⟨trivial, hrange⟩)
    rw [bankedLoads, flatLoads, List.cons.injEq, Prod.mk.injEq] at hloads
    refine ⟨m, fun x b hb => ?_, hloads.2⟩
    by_cases hx : Span.Covers ⟨false, a, k⟩ x
    · rw [Owner.access_of_covers hx] at hb
      rw [← Option.some.inj hb]
      exact (load_eq_load_iff.mp hloads.1.2 x hx).symm
    · rw [Owner.access_of_not_covers hx] at hb
      exact hm x b hb

theorem Flat.consistent : ∀ {spans : List (Span w)} {o : Owner w β}, Flat bank o spans →
    Consistent bank o spans
  | [], _, _ => trivial
  | _ :: _, _, h => ⟨fun hs _ hx _ ho => h.load_owned hs hx ho, h.tail.consistent⟩

/-- **A split memory is flat exactly on the consistent sequences.** -/
theorem flat_iff_consistent : Flat bank o spans ↔ Consistent bank o spans := by
  constructor
  · exact Flat.consistent
  · rintro h ops banks rfl _
    refine ⟨fun x => banks (o.home bank (ops.map Access.span) x) x, fun x b hb => ?_,
      bankedLoads_eq_flatLoads ops h fun _ => rfl⟩
    simp only [Owner.home, hb, Option.getD_some]

end

/-- Accesses that keep to the bank of each of their bytes are consistent. -/
theorem consistent_of_within : ∀ {spans : List (Span w)} {o : Owner w β},
    (∀ x b, o x = some b → b = bank x) →
      (∀ s ∈ spans, ∀ x, s.Covers x → bank x = bank s.start) → Consistent bank o spans
  | [], _, _, _ => trivial
  | s :: spans, o, ho, h => by
    have hs := h s (List.mem_cons_self ..)
    refine ⟨fun _ x hx b hb => (ho x b hb).trans (hs x hx), ?_⟩
    refine consistent_of_within (fun x b hb => ?_) fun t ht => h t (List.mem_cons_of_mem _ ht)
    by_cases hx : s.Covers x
    · rw [Owner.access_of_covers hx] at hb
      rw [hs x hx, Option.some.inj hb]
    · rw [Owner.access_of_not_covers hx] at hb
      exact ho x b hb

end BankedMemory
