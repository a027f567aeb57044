import Vexa.MemoryTrace
import Vexa.Pages
import Vexa.Lib.BankedMemory

/-!
# Two pages as one address space

`get_page` sends an access to the stack page or to global memory from its first byte alone, and the
two pages are separate maps. Seen from the program they are two banks of one memory: each address
has a byte in both, and which of them an access takes is decided by where it begins.

An access that begins below a limit of the stack range and ends above it leaves its last bytes in
the page of its first. A load on the other side of the limit does not see them.

## Main results

* `routedLoads_sound` — the pages are a memory of two banks
* `denotesFlat_of_within` — accesses that cross no limit see one flat memory
* `denotesFlat_iff` — for all values stored, exactly the consistent sequences do
-/

namespace Vexa

open LittleEndian BankedMemory ByteMemory

/-! ### The accesses -/

/-- An access through `get_page` and `calculate_pointer`. -/
def Access.route (S : Solver) (c : Context) : Access → Except String (Option Value × Context)
  | .write a v => do
    let ptr ← calculatePointer (.concrete a.toNat 64)
    return (none, c.write S ptr v)
  | .read a k => do
    let ptr ← calculatePointer (.concrete a.toNat 64)
    let read := c.read S ptr (8 * k)
    return (read.1, read.2)

/-- The results of the loads of a sequence, in order. -/
def routedLoads (S : Solver) : Context → List Access → Except String (List Value)
  | _, [] => return []
  | c, op :: ops => do
    let r ← op.route S c
    let vs ← routedLoads S r.2 ops
    return r.1.toList ++ vs

/-- The bytes an access is about. -/
def Access.span : Access → Span 64
  | .write a v => ⟨true, a, v.size / 8⟩
  | .read a k => ⟨false, a, k⟩

/-- The access under a valuation. -/
def Access.at (ν : Valuation) : Access → BankedMemory.Access 64
  | .write a v => .store a (v.size / 8) (v.eval ν)
  | .read a k => .load a k

theorem map_span_at (ν : Valuation) (ops : List Access) :
    (ops.map (Access.at ν)).map BankedMemory.Access.span = ops.map Access.span := by
  rw [List.map_map]
  exact List.map_congr_left fun op _ => by cases op <;> rfl

/-- The pages before the first access. -/
def Context.emptyPages (fresh checks : ℕ) : Context := ⟨fun _ => .empty, fresh, checks⟩

/-- The loads denote what one memory returns, whose bytes start as symbols of their own. -/
def DenotesFlat (S : Solver) (fresh checks : ℕ) (ops : List Access) : Prop :=
  ∃ (vs : List Value) (u : Addr → Symbol),
    routedLoads S (.emptyPages fresh checks) ops = .ok vs ∧
    Function.Injective u ∧ (∀ x, (u x).width = 8 ∧ fresh ≤ (u x).id) ∧
    ∀ ν, vs.map (fun v => (v.size, v.eval ν))
      = flatLoads (fun x => BitVec.ofNat 8 (ν (u x))) (ops.map (Access.at ν))

/-! ### Two banks -/

/-- The place an address has in a page. -/
def via (stack : Bool) (x : Addr) : PageId × Addr :=
  if stack then (stackPage, 16384 + x) else (globalPage, x)

theorem locate_eq_via (a : Addr) : locate a = via (inStack a) a := rfl

theorem via_injective {stack stack' : Bool} {x y : Addr} (h : via stack x = via stack' y) :
    stack = stack' ∧ x = y := by
  obtain ⟨hpage, haddr⟩ := Prod.mk.inj h
  cases stack <;> cases stack'
  · exact ⟨rfl, haddr⟩
  · exact absurd (show globalPage = stackPage from hpage) (by decide)
  · exact absurd (show stackPage = globalPage from hpage) (by decide)
  · exact ⟨rfl, (BitVec.add_right_inj _).mp haddr⟩

/-- The pages, seen from the program. -/
def Bytes.banks (m : Bytes) : Bool → ByteMemory.Memory 64 := fun stack x =>
  m (via stack x).1 (via stack x).2

/-- Pages with given banks. -/
def Bytes.ofBanks (banks : Bool → ByteMemory.Memory 64) : Bytes := fun p x =>
  if p = stackPage then banks true (x - 16384) else banks false x

theorem Bytes.banks_ofBanks (banks : Bool → ByteMemory.Memory 64) :
    (Bytes.ofBanks banks).banks = banks := by
  funext stack x
  cases stack
  · rfl
  · show banks true (16384 + x - 16384) = banks true x
    rw [BitVec.add_comm, BitVec.add_sub_cancel]

/-- The distance of two addresses is that of their places. -/
theorem via_sub (stack : Bool) (x a : Addr) : (via stack x).2 - (via stack a).2 = x - a := by
  cases stack
  · rfl
  · show 16384 + x - (16384 + a) = x - a
    bv_omega

theorem Bytes.banks_store (m : Bytes) (a : Addr) (k n : ℕ) :
    (m.store (locate a).1 (locate a).2 k n).banks
      = Function.update m.banks (inStack a)
          (ByteMemory.store (m.banks (inStack a)) a k n) := by
  funext stack x
  rw [locate_eq_via]
  by_cases hbank : stack = inStack a
  · subst hbank
    have hpage : (via (inStack a) x).1 = (via (inStack a) a).1 := by
      cases inStack a <;> rfl
    rw [Function.update_self, banks, hpage, store_self]
    by_cases hx : (x - a).toNat < k
    · rw [store_of_lt n hx, store_of_lt n (by rwa [via_sub]), via_sub]
    · rw [store_of_not_lt n hx, store_of_not_lt n (by rwa [via_sub]), banks, hpage]
  · have hpage : (via stack x).1 ≠ (via (inStack a) a).1 := by
      revert hbank
      cases stack <;> cases inStack a <;> simp [via, stackPage, globalPage]
    rw [Function.update_of_ne hbank, banks, store_of_ne _ hpage, banks]

theorem Bytes.load_locate (m : Bytes) (a : Addr) (k : ℕ) :
    load (m (locate a).1) (locate a).2 k = load (m.banks (inStack a)) a k := by
  have hbyte : ∀ i ∈ List.range k, m (locate a).1 ((locate a).2 + BitVec.ofNat 64 i)
      = m.banks (inStack a) (a + BitVec.ofNat 64 i) := by
    intro i _
    rw [locate_eq_via, banks]
    cases inStack a
    · rfl
    · show m stackPage (16384 + a + _) = m stackPage (16384 + (a + _))
      rw [BitVec.add_assoc]
  exact congrArg ofBytes (List.map_congr_left hbyte)

/-! ### The accesses of a run -/

/-- The symbols of unwritten bytes keep their numbers: what appeared between `c` and `c'` was
numbered there, what appears later is numbered later. -/
theorem Context.Grows.exists_numbering {c c' : Context} (h : c.Grows c') {g : PageId → Addr → ℕ}
    (hg : ∀ p x, c'.fresh ≤ g p x) :
    ∃ f : PageId → Addr → ℕ, (∀ p x, c.fresh ≤ f p x) ∧
      ∀ ν, c'.memory.denote ν (uninitBytes ν g) = c.memory.denote ν (uninitBytes ν f) := by
  have hnum : ∀ p x, ∃ n, c.fresh ≤ n ∧ ∀ ν,
      c'.memory.denote ν (uninitBytes ν g) p x
        = c.memory.denote ν (fun p x => BitVec.ofNat 8 (ν ⟨.uninit p x, n, 8⟩)) p x := by
    intro p x
    cases hold : (c.memory p).find x with
    | some cell =>
      refine ⟨c.fresh, Nat.le_refl _, fun ν => ?_⟩
      simp only [Memory.denote, hold, h.kept p x cell hold]
    | none =>
      cases hnew : (c'.memory p).find x with
      | none =>
        refine ⟨g p x, h.fresh_le.trans (hg p x), fun ν => ?_⟩
        simp only [Memory.denote, hold, hnew]
        rfl
      | some cell =>
        obtain ⟨n, hle, _, rfl⟩ := h.created p x cell hold hnew
        refine ⟨n, hle, fun ν => ?_⟩
        simp only [Memory.denote, hold, hnew, byte_uninitCell]
  choose f hfresh hf using hnum
  refine ⟨f, hfresh, fun ν => ?_⟩
  funext p x
  rw [hf p x ν]
  cases hold : (c.memory p).find x <;> simp only [Memory.denote, hold]
  rfl

variable {S : Solver}

theorem calculatePointer_concrete (hS : S.Sound) (a : Addr) :
    ∃ ptr, calculatePointer (.concrete a.toNat 64) = .ok ptr ∧ ptr.page = (locate a).1 ∧
      (ptr.simplify S).asUint64 = some (locate a).2 := by
  have h := calculatePointer_sound hS a.toNat
  rwa [BitVec.ofNat_toNat, BitVec.setWidth_eq] at h

/-- **The pages are a memory of two banks.** The run does not fail, and the loads denote what the
two banks return from the bytes the pages denote at first. -/
theorem routedLoads_sound (hS : S.Sound) : ∀ (ops : List Access) (c : Context),
    (∀ o ∈ ops, o.Fits) → c.memory.WF →
      ∃ vs f, routedLoads S c ops = .ok vs ∧ (∀ p x, c.fresh ≤ f p x) ∧
        ∀ ν, vs.map (fun v => (v.size, v.eval ν))
          = bankedLoads inStack (c.memory.denote ν (uninitBytes ν f)).banks
              (ops.map (Access.at ν))
  | [], c, _, _ => ⟨[], fun _ _ => c.fresh, rfl, fun _ _ => Nat.le_refl _, fun _ => rfl⟩
  | .write a v :: ops, c, hfits, hc => by
    obtain ⟨k, _, hk, hsize⟩ := hfits _ (List.mem_cons_self ..)
    obtain ⟨ptr, hptr, hpage, hbase⟩ := calculatePointer_concrete hS a
    obtain ⟨vs, f, hrun, hfresh, hvs⟩ := routedLoads_sound hS ops (c.write S ptr v)
      (fun o ho => hfits o (List.mem_cons_of_mem _ ho)) (hc.write hS hsize hk)
    refine ⟨vs, f, ?_, hfresh, fun ν => ?_⟩
    · simp only [routedLoads, Access.route, hptr, bind, Except.bind, pure, Except.pure, hrun]
      rfl
    · have hbytes : v.size / 8 = k := by omega
      rw [hvs ν, Context.memory_write, Memory.denote_write hS hbase, hpage, Bytes.banks_store,
        List.map_cons, Access.at, bankedLoads, hbytes, Nat.mod_eq_of_lt hk]
  | .read a k :: ops, c, hfits, hc => by
    obtain ⟨hk, _⟩ := hfits _ (List.mem_cons_self ..)
    obtain ⟨ptr, hptr, hpage, hbase⟩ := calculatePointer_concrete hS a
    obtain ⟨hgrow, hsize, heval⟩ := Context.read_sound (S := S) (hc k) hbase hk
    obtain ⟨vs, g, hrun, hg, hvs⟩ := routedLoads_sound hS ops (c.read S ptr (8 * k)).2
      (fun o ho => hfits o (List.mem_cons_of_mem _ ho)) (hgrow.wf hc)
    obtain ⟨f, hfresh, hf⟩ := hgrow.exists_numbering hg
    refine ⟨(c.read S ptr (8 * k)).1 :: vs, f, ?_, hfresh, fun ν => ?_⟩
    · simp only [routedLoads, Access.route, hptr, bind, Except.bind, pure, Except.pure, hrun]
      rfl
    · rw [List.map_cons, hsize, heval ν (uninitBytes ν g), hvs ν, hf ν, hpage, Bytes.load_locate]
      rfl

/-! ### Flat memory -/

/-- Consistent accesses see one flat memory. -/
theorem denotesFlat_of_consistent (hS : S.Sound) (fresh checks : ℕ) {ops : List Access}
    (hops : ∀ o ∈ ops, o.Fits)
    (h : Consistent inStack (fun _ => none) (ops.map Access.span)) :
    DenotesFlat S fresh checks ops := by
  obtain ⟨vs, f, hrun, hfresh, hvs⟩ := routedLoads_sound hS ops (.emptyPages fresh checks) hops
    nofun
  set home := Owner.home inStack (fun _ => none) (ops.map Access.span)
  refine ⟨vs, fun x => uninitSymbol f (via (home x) x).1 (via (home x) x).2, hrun,
    fun x y hxy => ?_, fun x => ⟨rfl, hfresh _ _⟩, fun ν => ?_⟩
  · simp only [uninitSymbol, Symbol.mk.injEq, Origin.uninit.injEq] at hxy
    exact (via_injective (Prod.ext hxy.1.1 hxy.1.2)).2
  · rw [hvs ν]
    refine bankedLoads_eq_flatLoads _ (o := fun _ => none) ?_ fun x => ?_
    · rw [map_span_at]
      exact h
    · rw [map_span_at]
      rfl

/-- **Accesses that cross no limit of the stack range see one flat memory.** -/
theorem denotesFlat_of_within (hS : S.Sound) (fresh checks : ℕ) {ops : List Access}
    (hops : ∀ o ∈ ops, o.Fits)
    (h : ∀ o ∈ ops, ∀ x, o.span.Covers x → inStack x = inStack o.span.start) :
    DenotesFlat S fresh checks ops := by
  refine denotesFlat_of_consistent hS fresh checks hops
    (consistent_of_within nofun fun s hs => ?_)
  obtain ⟨o, ho, rfl⟩ := List.mem_map.mp hs
  exact h o ho

/-- The accesses of given numbers. -/
theorem exists_accesses : ∀ (ops : List (BankedMemory.Access 64)), (∀ op ∈ ops, op.InRange) →
    (∀ s ∈ ops.map BankedMemory.Access.span, 0 < s.bytes ∧ s.bytes < 256) →
      ∃ accesses : List Access, accesses.map Access.span = ops.map BankedMemory.Access.span ∧
        (∀ o ∈ accesses, o.Fits) ∧ ∀ ν, accesses.map (Access.at ν) = ops
  | [], _, _ => ⟨[], rfl, nofun, fun _ => rfl⟩
  | op :: ops, hrange, hspans => by
    obtain ⟨hop, hrange⟩ := List.forall_mem_cons.mp hrange
    rw [List.map_cons] at hspans
    obtain ⟨hspan, hspans⟩ := List.forall_mem_cons.mp hspans
    obtain ⟨accesses, hmap, hfits, hat⟩ := exists_accesses ops hrange hspans
    cases op with
    | store a k n =>
      have hsize : (Value.concrete n (8 * k)).size / 8 = k := by
        rw [Value.size_concrete, Nat.mul_div_cancel_left k (by decide)]
      have heval : ∀ ν, (Value.concrete n (8 * k)).eval ν = n := fun ν => by
        rw [Value.eval_concrete, two_pow_eight_mul]
        exact Nat.mod_eq_of_lt hop
      refine ⟨.write a (.concrete n (8 * k)) :: accesses, ?_, ?_, fun ν => ?_⟩
      · rw [List.map_cons, List.map_cons, hmap, Access.span, hsize]
        rfl
      · exact List.forall_mem_cons.mpr ⟨⟨k, hspan.1, hspan.2, Value.size_concrete ..⟩, hfits⟩
      · rw [List.map_cons, hat ν, Access.at, hsize, heval ν]
    | load a k =>
      refine ⟨.read a k :: accesses, ?_, List.forall_mem_cons.mpr ⟨hspan, hfits⟩, fun ν => ?_⟩
      · rw [List.map_cons, List.map_cons, hmap]
        rfl
      · rw [List.map_cons, hat ν, Access.at]

/-- A valuation of the symbols of unwritten bytes. -/
def uninitValuation (m : Bytes) : Valuation := fun s =>
  match s.origin with
  | .uninit p x => (m p x).toNat
  | _ => 0

theorem uninitBytes_uninitValuation (m : Bytes) (f : PageId → Addr → ℕ) :
    uninitBytes (uninitValuation m) f = m := by
  funext p x
  show BitVec.ofNat 8 (m p x).toNat = m p x
  rw [BitVec.ofNat_toNat, BitVec.setWidth_eq]

/-- **The two pages are one address space exactly on the consistent sequences.** For accesses of
given places, widths and kinds, the loads denote what a flat memory returns whatever is stored, if
and only if every byte a load takes was last stored through the page it is loaded from, or was
never stored and always loaded from that page. -/
theorem denotesFlat_iff (hS : S.Sound) (fresh checks : ℕ) {spans : List (Span 64)}
    (hspans : ∀ s ∈ spans, 0 < s.bytes ∧ s.bytes < 256) :
    (∀ ops : List Access, ops.map Access.span = spans → (∀ o ∈ ops, o.Fits) →
      DenotesFlat S fresh checks ops) ↔ Consistent inStack (fun _ => none) spans := by
  constructor
  · intro h
    refine Flat.consistent fun ops banks hops hrange => ?_
    obtain ⟨accesses, hmap, hfits, hat⟩ := exists_accesses ops hrange (hops ▸ hspans)
    obtain ⟨vs, u, hrun, _, _, hvs⟩ := h accesses (hmap.trans hops) hfits
    obtain ⟨vs', f, hrun', _, hvs'⟩ := routedLoads_sound hS accesses (.emptyPages fresh checks)
      hfits nofun
    obtain rfl := Except.ok.inj (hrun.symm.trans hrun')
    set ν := uninitValuation (.ofBanks banks)
    have hbanks : ((Context.emptyPages fresh checks).memory.denote ν (uninitBytes ν f)).banks
        = banks := by
      show (uninitBytes ν f).banks = banks
      rw [uninitBytes_uninitValuation, Bytes.banks_ofBanks]
    refine ⟨fun x => BitVec.ofNat 8 (ν (u x)), nofun, ?_⟩
    rw [← hat ν, ← hvs ν, hvs' ν, hbanks]
  · rintro h ops rfl hops
    exact denotesFlat_of_consistent hS fresh checks hops h

/-- A store that ends at the upper limit, and a load that begins there. -/
theorem denotesFlat_iff_at_limit :
    (∀ ops : List Access, ops.map Access.span = [⟨true, 16376, 8⟩, ⟨false, 16384, 8⟩] →
      (∀ o ∈ ops, o.Fits) → DenotesFlat .folding 0 0 ops) ↔
        Consistent inStack (fun _ => none) [⟨true, 16376, 8⟩, ⟨false, 16384, 8⟩] :=
  denotesFlat_iff Solver.folding_sound 0 0 (by decide)

/-- A store across the upper limit goes to the stack page as a whole, and a load of the bytes
beyond the limit goes to global memory. -/
theorem straddling_store_missed : ¬ DenotesFlat .folding 0 0
    [.write 16380 (.concrete 0xffffffffffffffff 64), .read 16384 4] := by
  rintro ⟨vs, u, hrun, _, _, hvs⟩
  have hfits : ∀ o ∈ [Access.write 16380 (.concrete 0xffffffffffffffff 64), .read 16384 4],
      o.Fits := List.forall_mem_cons.mpr ⟨⟨8, by decide, by decide, rfl⟩,
    List.forall_mem_cons.mpr ⟨⟨by decide, by decide⟩, nofun⟩⟩
  obtain ⟨vs', f, hrun', _, hvs'⟩ :=
    routedLoads_sound Solver.folding_sound _ (.emptyPages 0 0) hfits nofun
  obtain rfl := Except.ok.inj (hrun.symm.trans hrun')
  have hzero : ((Context.emptyPages 0 0).memory.denote (fun _ => 0) (uninitBytes (fun _ => 0) f)).banks
      = fun _ _ => 0 := rfl
  have hloads := (hvs fun _ => 0).symm.trans (hvs' fun _ => 0)
  rw [hzero] at hloads
  exact absurd hloads (by decide)

end Vexa
