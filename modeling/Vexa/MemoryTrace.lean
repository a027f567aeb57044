import Vexa.Memory

/-!
# Symbolic memory is a little-endian byte memory

The purpose of `vexa::memory`, in its own terms: a page behaves as one partial map from addresses
to bytes, filled by `mem_page::initialize` before the run and by `memory::write` during it, and
`memory::read` returns a term for the little-endian number in it. Bytes that nobody has written
stand for one symbol each.

## The reference memory

`Reference` is that partial map under one valuation. `Setup.reference` and `Access.reference`
update it, and `expectedReads` lists what the reads of a sequence must denote. None of them looks
at cells, at shared terms or at the three ways `read` builds its result.

## The symbols of unwritten bytes

The symbol of a byte is made by the first read of it, so which symbol it is depends on the
sequence. `Compatible` says that an assignment of symbol numbers to addresses is the one a
sequence makes; `exists_compatible` finds it.
-/

namespace Vexa

open LittleEndian

/-! ### Sequences of accesses to one page -/

/-- A step before the run: `mem_page::initialize` or `mem_page::seal`. -/
inductive Setup
  | initializeAt (address : Addr) (value : Value)
  | sealPage

/-- An access during the run, at a concrete address. -/
inductive Access
  | write (address : Addr) (val : Value)
  | read (address : Addr) (bytes : ℕ)

/-- Only single bytes are initialised. -/
def Setup.Fits : Setup → Prop
  | .initializeAt _ v => v.size = 8
  | .sealPage => True

/-- Between 1 and 255 bytes are accessed. -/
def Access.Fits : Access → Prop
  | .write _ v => ∃ k, 0 < k ∧ k < 256 ∧ v.size = 8 * k
  | .read _ k => 0 < k ∧ k < 256

def Setup.apply (p : MemPage) : Setup → MemPage
  | .initializeAt a v => p.initializeAt a v
  | .sealPage => p.sealPage

/-- The result of a read, if the access is one, and the context afterwards. -/
def Access.apply (S : Solver) (page : PageId) (c : Context) : Access → Option Value × Context
  | .write a v => (none, c.write S (.concrete a page) v)
  | .read a k => ((c.read S (.concrete a page) (8 * k)).1, (c.read S (.concrete a page) (8 * k)).2)

/-- The results of the reads of a sequence, in order. -/
def reads (S : Solver) (page : PageId) : Context → List Access → List Value
  | _, [] => []
  | c, op :: ops => (op.apply S page c).1.toList ++ reads S page (op.apply S page c).2 ops

/-! ### The reference memory -/

/-- The byte last put at an address, if there is one. -/
abbrev Reference := Addr → Option (BitVec 8)

def Setup.reference (ν : Valuation) (r : Reference) : Setup → Reference
  | .initializeAt a v => Function.update r a (some (byte (v.eval ν) 0))
  | .sealPage => r

def Access.reference (ν : Valuation) (r : Reference) : Access → Reference
  | .write a v => fun x =>
      if (x - a).toNat < v.size / 8 then some (byte (v.eval ν) (x - a).toNat) else r x
  | .read _ _ => r

/-- The bytes of the reference memory, the others filled by symbols. -/
def Reference.fill (r : Reference) (ν : Valuation) (u : Addr → Symbol) : ByteMemory.Memory 64 :=
  fun x => (r x).getD (BitVec.ofNat 8 (ν (u x)))

/-- The width and the number every read of the sequence must have. -/
def expectedReads (ν : Valuation) (u : Addr → Symbol) : Reference → List Access → List (ℕ × ℕ)
  | _, [] => []
  | r, .write a v :: ops => expectedReads ν u (Access.reference ν r (.write a v)) ops
  | r, .read a k :: ops => (8 * k, ByteMemory.load (r.fill ν u) a k) :: expectedReads ν u r ops

/-! ### The page after its setup -/

/-- Before `seal` nothing is in the map that `find` prefers. -/
def MemPage.Fresh (p : MemPage) : Prop := p.sealed = false → p.memory = fun _ => none

theorem MemPage.Fresh.find_initializeAt {p : MemPage} (h : p.Fresh) (a x : Addr) (v : Value) :
    (p.initializeAt a v).find x = if x = a then some ⟨v, 1, 0⟩ else p.find x := by
  rw [initializeAt]
  by_cases hs : p.sealed = true
  · rw [if_pos hs, find_write]
  · rw [if_neg hs]
    by_cases hx : x = a
    · subst hx; simp [find, h (by simpa using hs)]
    · simp [find, hx]

theorem Setup.apply_fresh {p : MemPage} (h : p.Fresh) (s : Setup) : (s.apply p).Fresh := by
  cases s with
  | sealPage => exact fun hs => absurd hs (by simp [apply, MemPage.sealPage])
  | initializeAt a v =>
    intro hs
    rw [apply, MemPage.initializeAt] at hs ⊢
    by_cases hsealed : p.sealed = true
    · rw [if_pos hsealed] at hs
      exact absurd hs (by simp [MemPage.write, hsealed])
    · rw [if_neg hsealed]
      exact h (by simpa using hsealed)

/-- The page and the reference memory agree. -/
def MemPage.Agrees (ν : Valuation) (p : MemPage) (r : Reference) : Prop :=
  ∀ x, (p.find x).map (MemCell.byte ν) = r x

theorem Setup.apply_agrees {ν : Valuation} {p : MemPage} {r : Reference} (hfresh : p.Fresh)
    (h : p.Agrees ν r) (s : Setup) : (s.apply p).Agrees ν (s.reference ν r) := by
  cases s with
  | sealPage => exact h
  | initializeAt a v =>
    intro x
    rw [apply, hfresh.find_initializeAt, reference]
    by_cases hx : x = a
    · subst hx; simp [MemCell.byte]
    · rw [if_neg hx, Function.update_of_ne hx, h x]

theorem foldl_setup (ν : Valuation) : ∀ (setup : List Setup) {p : MemPage} {r : Reference},
    p.Fresh → p.Agrees ν r →
      (setup.foldl Setup.apply p).Agrees ν (setup.foldl (Setup.reference ν) r)
  | [], _, _, _, h => h
  | s :: setup, _, _, hfresh, h => by
    rw [List.foldl_cons, List.foldl_cons]
    exact foldl_setup ν setup (s.apply_fresh hfresh) (s.apply_agrees hfresh h)

theorem foldl_setup_wf {k : ℕ} : ∀ (setup : List Setup) {p : MemPage}, (∀ s ∈ setup, s.Fits) → p.Fresh →
    (∀ x cell, p.find x = some cell → cell.WFAt k) →
      ∀ x cell, (setup.foldl Setup.apply p).find x = some cell → cell.WFAt k
  | [], _, _, _, h => h
  | s :: setup, p, hfits, hfresh, h => by
    rw [List.foldl_cons]
    refine foldl_setup_wf setup (fun t ht => hfits t (List.mem_cons_of_mem _ ht))
      (s.apply_fresh hfresh) fun x cell hx => ?_
    cases s with
    | sealPage => exact h x cell hx
    | initializeAt a v =>
      rw [Setup.apply, hfresh.find_initializeAt] at hx
      split at hx
      · obtain rfl := Option.some.inj hx
        rintro rfl
        exact ⟨Nat.zero_lt_one, hfits _ (List.mem_cons_self ..)⟩
      · exact h x cell hx

/-! ### The symbols a sequence makes -/

/-- Reads along the sequence number the symbols they make as `f` does. -/
def Compatible (S : Solver) (page : PageId) (f : PageId → Addr → ℕ) :
    Context → List Access → Prop
  | _, [] => True
  | c, .write a v :: ops => Compatible S page f (c.write S (.concrete a page) v) ops
  | c, .read a k :: ops =>
    (∀ p x id, (c.memory p).find x = none →
      ((c.read S (.concrete a page) (8 * k)).2.memory p).find x
        = some (Context.uninitCell p x id) → id = f p x) ∧
    Compatible S page f (c.read S (.concrete a page) (8 * k)).2 ops

variable {S : Solver} {page : PageId}

/-- A mapped byte stays mapped. -/
theorem find_write_ne_none (c : Context) (a : Addr) (v : Value) {p : PageId} {x : Addr}
    (h : ((c.write S (.concrete a page) v).memory p).find x = none) :
    (c.memory p).find x = none := by
  rw [Context.memory_write, Memory.find_write (Pointer.asUint64_simplify_concrete S a page)] at h
  split at h
  · cases h
  · exact h

theorem find_read_ne_none {c : Context} (hc : c.memory.WF) (a : Addr) {k : ℕ} (hk : 0 < k)
    {p : PageId} {x : Addr}
    (h : ((c.read S (.concrete a page) (8 * k)).2.memory p).find x = none) :
    (c.memory p).find x = none := by
  have hgrow := (Context.read_sound (S := S) (hc k) (Pointer.asUint64_simplify_concrete S a page) hk).1
  cases hfind : (c.memory p).find x with
  | none => rfl
  | some cell => rw [hgrow.kept p x cell hfind] at h; cases h

/-- Only the bytes that are not mapped yet matter. -/
theorem Compatible.congr {f g : PageId → Addr → ℕ} : ∀ {ops : List Access} {c : Context},
    Compatible S page g c ops → (∀ o ∈ ops, o.Fits) → S.Sound → c.memory.WF →
    (∀ p x, (c.memory p).find x = none → f p x = g p x) → Compatible S page f c ops
  | [], _, _, _, _, _, _ => trivial
  | .write a v :: ops, c, h, hfits, hS, hc, hfg => by
    obtain ⟨k, _, hk, hsize⟩ := hfits _ (List.mem_cons_self ..)
    have hrest : Compatible S page g (c.write S (.concrete a page) v) ops := h
    change Compatible S page f (c.write S (.concrete a page) v) ops
    exact hrest.congr (fun o ho => hfits o (List.mem_cons_of_mem _ ho)) hS
      (hc.write hS hsize hk) fun p x hx => hfg p x (find_write_ne_none c a v hx)
  | .read a k :: ops, c, h, hfits, hS, hc, hfg => by
    obtain ⟨hk, _⟩ := hfits _ (List.mem_cons_self ..)
    have hgrow := (Context.read_sound (S := S) (hc k) (Pointer.asUint64_simplify_concrete S a page) hk).1
    refine ⟨fun p x id hnone hsome => (h.1 p x id hnone hsome).trans (hfg p x hnone).symm, ?_⟩
    exact h.2.congr (fun o ho => hfits o (List.mem_cons_of_mem _ ho)) hS
      (hgrow.wf hc) fun p x hx => hfg p x (find_read_ne_none hc a hk hx)

/-- Every sequence has its numbering, and it only uses numbers not taken before. -/
theorem exists_compatible (hS : S.Sound) : ∀ (ops : List Access) (c : Context),
    (∀ o ∈ ops, o.Fits) → c.memory.WF →
      ∃ f, Compatible S page f c ops ∧ ∀ p x, c.fresh ≤ f p x
  | [], c, _, _ => ⟨fun _ _ => c.fresh, trivial, fun _ _ => Nat.le_refl _⟩
  | .write a v :: ops, c, hfits, hc => by
    obtain ⟨k, _, hk, hsize⟩ := hfits _ (List.mem_cons_self ..)
    exact exists_compatible hS ops (c.write S (.concrete a page) v)
      (fun o ho => hfits o (List.mem_cons_of_mem _ ho)) (hc.write hS hsize hk)
  | .read a k :: ops, c, hfits, hc => by
    have hrest := fun o ho => hfits o (List.mem_cons_of_mem _ ho)
    obtain ⟨hk, _⟩ := hfits _ (List.mem_cons_self ..)
    have hgrow := (Context.read_sound (S := S) (hc k) (Pointer.asUint64_simplify_concrete S a page) hk).1
    set c' := (c.read S (.concrete a page) (8 * k)).2 with hc'
    obtain ⟨g, hg, hfresh⟩ := exists_compatible hS ops c' hrest (hgrow.wf hc)
    -- a byte this read maps gets the number it was mapped with, every other one its later number
    have hnum : ∀ p x, ∃ n, c.fresh ≤ n ∧
        ((c.memory p).find x = none → ∀ id,
          (c'.memory p).find x = some (Context.uninitCell p x id) → id = n) ∧
        ((c'.memory p).find x = none → n = g p x) := by
      intro p x
      cases hnew : (c'.memory p).find x with
      | none =>
        exact ⟨g p x, hgrow.fresh_le.trans (hfresh p x), fun _ id h => (by cases h), fun _ => rfl⟩
      | some cell =>
        cases hold : (c.memory p).find x with
        | some _ => exact ⟨c.fresh, Nat.le_refl _, fun h => (by cases h), fun h => (by cases h)⟩
        | none =>
          obtain ⟨n, hle, _, rfl⟩ := hgrow.created p x cell hold hnew
          refine ⟨n, hle, fun _ id h => ?_, fun h => (by cases h)⟩
          have := Option.some.inj h
          simp only [Context.uninitCell, MemCell.mk.injEq, Value.symbolic, Value.ofTerm,
            Value.mk.injEq, Term.const.injEq, Symbol.mk.injEq] at this
          exact this.1.1.2.1.symm
    choose f hf using hnum
    exact ⟨f, ⟨fun p x id hnone hsome => (hf p x).2.1 hnone id hsome,
      hg.congr hrest hS (hgrow.wf hc) fun p x hx => (hf p x).2.2 hx⟩, fun p x => (hf p x).1⟩

/-! ### Reads of a sequence -/

/-- The symbol number `f` gives to a byte. -/
def uninitSymbol (f : PageId → Addr → ℕ) (p : PageId) (x : Addr) : Symbol :=
  ⟨.uninit p x, f p x, 8⟩

/-- The background that fills unwritten bytes with their symbols. -/
def uninitBytes (ν : Valuation) (f : PageId → Addr → ℕ) : Bytes := fun p x =>
  BitVec.ofNat 8 (ν (uninitSymbol f p x))

/-- The run lemma: as long as the page denotes the filled reference memory, every read does. -/
theorem reads_eq_expected (hS : S.Sound) {f : PageId → Addr → ℕ} (ν : Valuation) :
    ∀ {ops : List Access} {c : Context} {r : Reference}, (∀ o ∈ ops, o.Fits) → c.memory.WF →
      Compatible S page f c ops →
      c.memory.denote ν (uninitBytes ν f) page = r.fill ν (uninitSymbol f page) →
      (reads S page c ops).map (fun v => (v.size, v.eval ν))
        = expectedReads ν (uninitSymbol f page) r ops
  | [], _, _, _, _, _, _ => rfl
  | .write a v :: ops, c, r, hfits, hc, hf, hden => by
    obtain ⟨k, _, hk, hsize⟩ := hfits _ (List.mem_cons_self ..)
    have hrest : Compatible S page f (c.write S (.concrete a page) v) ops := hf
    change (reads S page (c.write S (.concrete a page) v) ops).map _
      = expectedReads ν _ (Access.reference ν r (.write a v)) ops
    refine reads_eq_expected hS ν (fun o ho => hfits o (List.mem_cons_of_mem _ ho))
      (hc.write hS hsize hk) hrest ?_
    rw [Context.memory_write, Memory.denote_write hS (Pointer.asUint64_simplify_concrete S a page),
      Pointer.page_concrete, Bytes.store_self, hden]
    funext x
    have hbytes : v.size / 8 = k := by omega
    have hmod : k % 256 = k := Nat.mod_eq_of_lt hk
    by_cases hx : (x - a).toNat < k
    · simp only [Reference.fill, Access.reference, hbytes, hmod, ByteMemory.store_of_lt _ hx, if_pos hx,
        Option.getD_some]
    · simp only [Reference.fill, Access.reference, hbytes, hmod, ByteMemory.store_of_not_lt _ hx,
        if_neg hx]
  | .read a k :: ops, c, r, hfits, hc, hf, hden => by
    obtain ⟨hk, _⟩ := hfits _ (List.mem_cons_self ..)
    obtain ⟨hgrow, hsize, heval⟩ :=
      Context.read_sound (S := S) (hc k) (Pointer.asUint64_simplify_concrete S a page) hk
    have hsame : (c.read S (.concrete a page) (8 * k)).2.memory.denote ν (uninitBytes ν f)
        = c.memory.denote ν (uninitBytes ν f) := by
      refine hgrow.denote_eq fun p x id hnone hsome => ?_
      rw [hf.1 p x id hnone hsome]
      rfl
    have hread := heval ν (uninitBytes ν f)
    rw [Pointer.page_concrete, hsame, hden] at hread
    rw [reads, Access.apply, Option.toList_some, List.singleton_append, List.map_cons,
      expectedReads, hsize, hread]
    exact congrArg _ (reads_eq_expected hS ν
      (fun o ho => hfits o (List.mem_cons_of_mem _ ho)) (hgrow.wf hc) hf.2 (hsame ▸ hden))

/-- A context with one page in use. -/
def Context.ofPage (page : PageId) (p : MemPage) (fresh checks : ℕ) : Context :=
  ⟨Function.update (fun _ => .empty) page p, fresh, checks⟩

theorem Context.memory_ofPage (page : PageId) (p : MemPage) (fresh checks : ℕ) :
    (ofPage page p fresh checks).memory = Function.update (fun _ => .empty) page p := rfl

/-- **Symbolic memory is a little-endian byte memory.** Every byte address has one symbol such
that, under every valuation, every read of the sequence has the width asked for and denotes the
little-endian number of the bytes last written, else initialised, else of these symbols. -/
theorem reads_littleEndian (hS : S.Sound) (page : PageId) (fresh checks : ℕ)
    (setup : List Setup) (hsetup : ∀ s ∈ setup, s.Fits) (ops : List Access)
    (hops : ∀ o ∈ ops, o.Fits) :
    ∃ u : Addr → Symbol, Function.Injective u ∧ (∀ x, (u x).width = 8 ∧ fresh ≤ (u x).id) ∧
      ∀ ν, (reads S page
          (.ofPage page (setup.foldl Setup.apply .empty) fresh checks) ops).map
            (fun v => (v.size, v.eval ν))
        = expectedReads ν u (setup.foldl (Setup.reference ν) fun _ => none) ops := by
  set c := Context.ofPage page (setup.foldl Setup.apply .empty) fresh checks with hcdef
  have hwf : c.memory.WF := by
    intro k p x cell hfind
    by_cases hp : p = page
    · subst hp
      rw [hcdef, Context.memory_ofPage, Function.update_self] at hfind
      exact foldl_setup_wf setup hsetup (fun _ => rfl) (fun _ _ h => by cases h) x cell hfind
    · rw [hcdef, Context.memory_ofPage, Function.update_of_ne hp] at hfind
      cases hfind
  obtain ⟨f, hf, hfresh⟩ : ∃ f, Compatible S page f c ops ∧ ∀ p x, c.fresh ≤ f p x :=
    exists_compatible hS ops c hops hwf
  refine ⟨uninitSymbol f page, fun x y hxy => ?_, fun x => ⟨rfl, hfresh page x⟩, fun ν => ?_⟩
  · simp only [uninitSymbol, Symbol.mk.injEq, Origin.uninit.injEq] at hxy
    exact hxy.1.2
  · refine reads_eq_expected hS ν hops hwf hf ?_
    funext x
    have hagree := foldl_setup ν setup (p := .empty) (r := fun _ => none) (fun _ => rfl)
      (fun _ => rfl) x
    rw [Reference.fill, ← hagree, hcdef, Context.memory_ofPage, Memory.denote,
      Function.update_self]
    cases MemPage.find _ x <;> rfl

/-- A read that straddles an initialised byte, a 16-bit write and two unwritten bytes, one of them
on the other side of the wrap-around. -/
theorem reads_littleEndian_straddling :
    ∃ u : Addr → Symbol, Function.Injective u ∧ (∀ x, (u x).width = 8 ∧ 5 ≤ (u x).id) ∧
      ∀ ν, (reads .folding 1
          (.ofPage 1 ([Setup.initializeAt 2 (.concrete 7 8), .sealPage].foldl Setup.apply .empty)
            5 0)
          [.write 0 (.concrete 0x1234 16), .read (-1) 5]).map (fun v => (v.size, v.eval ν))
        = expectedReads ν u
            ([Setup.initializeAt 2 (.concrete 7 8), .sealPage].foldl (Setup.reference ν)
              fun _ => none)
            [.write 0 (.concrete 0x1234 16), .read (-1) 5] :=
  reads_littleEndian Solver.folding_sound 1 5 0 [.initializeAt 2 (.concrete 7 8), .sealPage]
    (by simp [Setup.Fits]) [.write 0 (.concrete 0x1234 16), .read (-1) 5]
    (by
      intro o ho
      simp only [List.mem_cons, List.not_mem_nil, or_false] at ho
      obtain rfl | rfl := ho
      · exact ⟨2, by decide, by decide, rfl⟩
      · exact ⟨by decide, by decide⟩)

end Vexa
