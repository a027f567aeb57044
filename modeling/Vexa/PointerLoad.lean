import Vexa.PointerAccess

/-!
# Symbolic loads are sound

What `read_memory` must return through a pointer, under every valuation of the path constraints,
and exactly when it does. An unresolved pointer yields a fresh symbol, which is always right. What
can go wrong is the one-address shortcut: it does not ask why the enumeration stopped.

## Main definitions

* `ReadFaithful` — the result denotes the bytes at the target, or is a fresh symbol

## Main results

* `readMemory_sound` — when one enumerated value is the only one
* `readMemory_faithful_iff` — when loads are sound
-/

namespace Vexa

open LittleEndian

variable {S : Solver} {ν : Valuation} {p : Pointer} {k n : ℕ} {c c' : Context} {r : Value}
  {pathConstraints : List Term}

/-- Reading only adds bytes, and the result denotes the bytes at the target or is a new symbol. -/
def ReadFaithful (pathConstraints : List Term) (p : Pointer) (k : ℕ) (c : Context) (r : Value)
    (c' : Context) : Prop :=
  Context.Grows { c with checks := c'.checks } c' ∧
  ∀ ν, Satisfies ν pathConstraints →
    (∃ id, c.fresh ≤ id ∧ r = .symbolic ⟨.read, id, 8 * k⟩) ∨
    (r.size = 8 * k ∧ ∀ bg, r.eval ν
      = ByteMemory.load (c'.memory.denote ν bg (p.target ν).1) (p.target ν).2 k)

/-! ### The four ways through `read_memory` -/

theorem readMemory_of_concrete (hp : p.Inttoptr) (h : p.isConcrete = true) (size : ℕ) :
    readMemory S pathConstraints c p size = .ok (c.read S p size) := by
  simp only [readMemory, hp.simplify_eq, h, if_true]
  rfl

theorem readMemory_of_single (hS : S.Sound) (hp : p.Inttoptr) (h : ¬ p.isConcrete = true) {a : ℕ}
    (ha : (possibleValues S pathConstraints c.checks p.term).1 = [addressTerm a]) (size : ℕ) :
    ∃ ptr, ptr.page = (locate (BitVec.ofNat 64 a)).1 ∧
      (ptr.simplify S).asUint64 = some (locate (BitVec.ofNat 64 a)).2 ∧
      readMemory S pathConstraints c p size
        = .ok ((enumerated S pathConstraints c p).read S ptr size) := by
  obtain ⟨ptr, hptr, hpage, hbase⟩ := calculatePointer_sound hS a
  refine ⟨ptr, hpage, hbase, ?_⟩
  simp only [readMemory, hp.simplify_eq, if_neg h, ha, hptr]
  rfl

theorem readMemory_of_complete (hS : S.Sound) (hp : p.Inttoptr) (h : ¬ p.isConcrete = true)
    {a b : ℕ} {ns : List ℕ}
    (hns : (possibleValues S pathConstraints c.checks p.term).1 = (a :: b :: ns).map addressTerm)
    (hunsat : (possibleValues S pathConstraints c.checks p.term).2.1 = .unsat) (size : ℕ) :
    ∃ ptr, ptr.page = (locate (BitVec.ofNat 64 a)).1 ∧
      (ptr.simplify S).asUint64 = some (locate (BitVec.ofNat 64 a)).2 ∧
      readMemory S pathConstraints c p size =
        readLoop S p size ((b :: ns).map addressTerm)
          ((enumerated S pathConstraints c p).read S ptr size).1
          ((enumerated S pathConstraints c p).read S ptr size).2 := by
  obtain ⟨ptr, hptr, hpage, hbase⟩ := calculatePointer_sound hS a
  refine ⟨ptr, hpage, hbase, ?_⟩
  have hlen : 1 < ((a :: b :: ns).map addressTerm).length := by simp
  simp only [readMemory, hp.simplify_eq, if_neg h, hns]
  rw [List.map_cons, List.map_cons] at hlen ⊢
  simp only [hptr, hunsat, hlen, and_self, if_true]
  rfl

/-- A symbolic pointer that is not resolved yields a fresh symbol. -/
theorem readMemory_of_unresolved (hp : p.Inttoptr) (h : ¬ p.isConcrete = true)
    (hlen : (possibleValues S pathConstraints c.checks p.term).1.length ≠ 1)
    (hunsat : ¬ (1 < (possibleValues S pathConstraints c.checks p.term).1.length ∧
      (possibleValues S pathConstraints c.checks p.term).2.1 = .unsat)) (size : ℕ) :
    readMemory S pathConstraints c p size
      = .ok ((enumerated S pathConstraints c p).symbolic .read size) := by
  have hsym : (enumerated S pathConstraints c p).read S p size
      = (enumerated S pathConstraints c p).symbolic .read size := by
    rw [Context.read, hp.asUint64_eq_none h]
  simp only [readMemory, hp.simplify_eq, if_neg h]
  split
  · next hone => rw [hone] at hlen; exact absurd rfl hlen
  · next hcons =>
    rw [hcons] at hunsat
    rw [if_neg hunsat]
    exact congrArg Except.ok hsym
  · exact congrArg Except.ok hsym

/-- A load through a concrete place. -/
theorem readFaithful_of_place {ptr : Pointer} {c₁ : Context} (hk : 0 < k) (hc : c.memory.WF)
    (hmem : c₁.memory = c.memory) (hfresh : c₁.fresh = c.fresh)
    {a : PageId × Addr} (hpage : ptr.page = a.1) (hbase : (ptr.simplify S).asUint64 = some a.2)
    (htarget : ∀ ν, Satisfies ν pathConstraints → p.target ν = a) :
    ReadFaithful pathConstraints p k c (c₁.read S ptr (8 * k)).1 (c₁.read S ptr (8 * k)).2 := by
  obtain ⟨hgrow, hsize, heval⟩ := Context.read_sound (c := c₁) (hmem ▸ hc k) hbase hk
  refine ⟨?_, fun ν hν => .inr ⟨hsize, fun bg => ?_⟩⟩
  · rw [hgrow.checks_eq, ← hmem, ← hfresh]
    exact hgrow
  · rw [heval ν bg, hpage, htarget ν hν]

/-- Loads are sound when a single enumerated value is the only one. -/
theorem readMemory_sound (hS : S.Sound) (hp : p.Inttoptr) (hk : 0 < k) (hc : c.memory.WF)
    (honly : ¬ p.isConcrete = true →
      (possibleValues S pathConstraints c.checks p.term).1.length = 1 →
      ∀ ν μ, Satisfies ν pathConstraints → Satisfies μ pathConstraints → p.eval ν = p.eval μ)
    (hread : readMemory S pathConstraints c p (8 * k) = .ok (r, c')) :
    ReadFaithful pathConstraints p k c r c' := by
  by_cases h : p.isConcrete = true
  · rw [readMemory_of_concrete hp h] at hread
    obtain ⟨rfl, rfl⟩ := Prod.mk.inj (Except.ok.inj hread)
    refine readFaithful_of_place hk hc rfl rfl (a := (p.page, _)) rfl
      (hp.asUint64 h fun _ => 0) fun ν _ => ?_
    rw [Pointer.target_of_concrete h]
    exact congrArg _ (Option.some.inj ((hp.asUint64 (S := S) h ν).symm.trans (hp.asUint64 h _)))
  obtain ⟨ns, hns, _, hfeasible, hcomplete⟩ := hp.exists_addresses hS pathConstraints c.checks
  by_cases hone : ns.length = 1
  · obtain ⟨a, rfl⟩ := List.length_eq_one_iff.mp hone
    obtain ⟨_, μ, hμ, rfl⟩ := hfeasible a (List.mem_singleton_self a)
    obtain ⟨ptr, hpage, hbase, heq⟩ := readMemory_of_single hS hp h hns (8 * k)
    obtain ⟨rfl, rfl⟩ := Prod.mk.inj (Except.ok.inj (heq.symm.trans hread))
    refine readFaithful_of_place hk hc rfl rfl hpage hbase fun ν hν => ?_
    rw [Pointer.target_of_symbolic h, honly h (by rw [hns, List.length_map, hone]) ν μ hν hμ]
  by_cases hcomp : 1 < (possibleValues S pathConstraints c.checks p.term).1.length ∧
      (possibleValues S pathConstraints c.checks p.term).2.1 = .unsat
  · obtain ⟨a, b, ns, rfl⟩ : ∃ a b ns', ns = a :: b :: ns' := by
      rw [hns, List.length_map] at hcomp
      match ns, hcomp.1 with
      | a :: b :: ns', _ => exact ⟨a, b, ns', rfl⟩
    obtain ⟨ptr, hpage, hbase, heq⟩ := readMemory_of_complete hS hp h hns hcomp.2 (8 * k)
    obtain ⟨hgrow, hsize, heval⟩ := Context.read_sound (S := S)
      (c := enumerated S pathConstraints c p) (hc k) hbase hk
    obtain ⟨r', c'', hloop, hgrow', hsize', heval'⟩ := readLoop_sound (p := p) hS hk (b :: ns)
      ((enumerated S pathConstraints c p).read S ptr (8 * k)).1
      (fun m hm => (hfeasible m (List.mem_cons_of_mem _ hm)).1) hsize (hgrow.wfAt (hc k))
    obtain ⟨rfl, rfl⟩ := Prod.mk.inj (Except.ok.inj ((heq.trans hloop).symm.trans hread))
    refine ⟨?_, fun ν hν => .inr ⟨hsize', fun bg => ?_⟩⟩
    · rw [hgrow'.checks_eq, hgrow.checks_eq]
      exact hgrow.trans hgrow'
    · rw [heval' ν bg, Pointer.target_of_symbolic h]
      split
      · rfl
      · next hnotin =>
        -- not one of the later addresses, so the first
        have ha := (List.mem_cons.mp (hcomplete hcomp.2 ν hν)).resolve_right hnotin
        rw [heval ν (c''.memory.denote ν bg), hgrow'.denote_denote, hpage, ha]
  · rw [readMemory_of_unresolved hp h (by rwa [hns, List.length_map]) hcomp] at hread
    obtain ⟨rfl, rfl⟩ := Prod.mk.inj (Except.ok.inj hread)
    refine ⟨⟨rfl, Nat.le_succ _, fun _ _ _ hcell => hcell, fun _ _ _ hnone hsome => ?_⟩,
      fun ν _ => .inl ⟨c.fresh, Nat.le_refl _, rfl⟩⟩
    exact absurd (hnone.symm.trans hsome) (by simp)

/-! ### When a load is wrong -/

/-- A memory whose bytes are literals yields no symbol. -/
theorem ne_symbolic_of_eval_eq (hk : 0 < k) {s : Symbol} (hs : s.width = 8 * k)
    (h : ∀ ν μ, r.eval ν = r.eval μ) : r ≠ .symbolic s := by
  rintro rfl
  have hone : 1 % 2 ^ s.width = 1 := Nat.mod_eq_of_lt (Nat.one_lt_two_pow (by omega))
  have heq := h (fun _ => 0) (fun _ => 1)
  simp only [Value.symbolic, Value.eval_ofTerm, Term.eval, Nat.zero_mod, hone] at heq
  cases heq

/-- A context with a one at a place, and zeros everywhere else. -/
def Context.marked (a : PageId × Addr) (checks : ℕ) : Context :=
  ofBytes (fun q y => if (q, y) = a then 1 else 0) checks

/-- A load from the one address found misses what is where the pointer points. -/
theorem readMemory_misses (hS : S.Sound) (hp : p.Inttoptr) (hk : 0 < k) (h : ¬ p.isConcrete = true)
    {a : ℕ} (hns : (possibleValues S pathConstraints n p.term).1 = [addressTerm a])
    (hν : Satisfies ν pathConstraints) (hne : p.target ν ≠ locate (BitVec.ofNat 64 a)) :
    ∃ r c', readMemory S pathConstraints (.marked (p.target ν) n) p (8 * k) = .ok (r, c') ∧
      ¬ ReadFaithful pathConstraints p k (.marked (p.target ν) n) r c' := by
  set m : Bytes := fun q y => if (q, y) = p.target ν then 1 else 0 with hm
  obtain ⟨ptr, hpage, hbase, heq⟩ :=
    readMemory_of_single (c := Context.ofBytes m n) hS hp h hns (8 * k)
  obtain ⟨hgrow, hsize, heval⟩ := Context.read_sound (S := S)
    (c := enumerated S pathConstraints (.ofBytes m n) p) (Context.ofBytes_wf m n k) hbase hk
  set result := (enumerated S pathConstraints (.ofBytes m n) p).read S ptr (8 * k)
  refine ⟨result.1, result.2, heq, fun hfaithful => ?_⟩
  have hden : ∀ μ bg, result.2.memory.denote μ bg = m := fun μ bg => by
    rw [← hgrow.denote_denote]
    exact Context.denote_ofBytes m n _
  rcases hfaithful.2 ν hν with ⟨id, _, hsymbol⟩ | ⟨_, hload⟩
  · refine ne_symbolic_of_eval_eq hk rfl (fun μ₁ μ₂ => ?_) hsymbol
    rw [heval μ₁ fun _ _ => 0, heval μ₂ fun _ _ => 0, hden, hden]
  · have hbytes := congrArg (byte · 0) ((heval ν fun _ _ => 0).symm.trans (hload fun _ _ => 0))
    simp only [hden, ByteMemory.byte_load _ _ hk, BitVec.add_zero, hm, hpage, Prod.mk.eta,
      hne.symm, if_false, if_true] at hbytes
    exact absurd hbytes (by decide)

/-- When the one address found is not the only one, a load can be wrong. -/
theorem readMemory_wrong (hS : S.Sound) (hp : p.Inttoptr) (hk : 0 < k)
    (h : ¬ p.isConcrete = true)
    (hlen : (possibleValues S pathConstraints n p.term).1.length = 1) {ξ ζ : Valuation}
    (hξ : Satisfies ξ pathConstraints) (hζ : Satisfies ζ pathConstraints)
    (hne : p.eval ξ ≠ p.eval ζ) :
    ∃ c r c', c.memory.WF ∧ c.checks = n ∧
      readMemory S pathConstraints c p (8 * k) = .ok (r, c') ∧
      ¬ ReadFaithful pathConstraints p k c r c' := by
  obtain ⟨ns, hns, _, hfeasible, _⟩ := hp.exists_addresses hS pathConstraints n
  obtain ⟨a, rfl⟩ : ∃ a, ns = [a] := List.length_eq_one_iff.mp (by
    rw [hns, List.length_map] at hlen; exact hlen)
  -- a valuation under which the pointer is somewhere else
  obtain ⟨ν, hν, hνa⟩ : ∃ ν, Satisfies ν pathConstraints ∧ p.eval ν ≠ a := by
    by_cases hξa : p.eval ξ = a
    · exact ⟨ζ, hζ, fun hζa => hne (hξa.trans hζa.symm)⟩
    · exact ⟨ξ, hξ, hξa⟩
  obtain ⟨r, c', hread, hwrong⟩ := readMemory_misses hS hp hk h hns hν
    (hp.target_ne h (hfeasible a (List.mem_singleton_self a)).1 hνa)
  exact ⟨_, r, c', Context.ofBytes_wf _ n, rfl, hread, hwrong⟩

/-- The first check is answered with zero and no other is answered: the load is from address zero,
also where the pointer is `0x5000`. -/
theorem readMemory_one_of_many :
    (Solver.replaying [fun _ => 0]).Sound ∧ symbolPointer.Inttoptr ∧
    (Context.marked (symbolPointer.target fun _ => 0x5000) 0).memory.WF ∧
    ∃ r c', readMemory (.replaying [fun _ => 0]) []
        (.marked (symbolPointer.target fun _ => 0x5000) 0) symbolPointer 8 = .ok (r, c') ∧
      ¬ ReadFaithful [] symbolPointer 1 (.marked (symbolPointer.target fun _ => 0x5000) 0) r c' :=
  ⟨Solver.replaying_sound _, symbolPointer_inttoptr, Context.ofBytes_wf _ _,
    readMemory_misses (k := 1) (n := 0) (ν := fun _ => 0x5000)
      (Solver.replaying_sound [fun _ => 0]) symbolPointer_inttoptr (by decide) (by decide)
      (a := 0) (by decide) (satisfies_nil _)
      (symbolPointer_inttoptr.target_ne (by decide) (by decide) (by decide))⟩

/-- **When loads are sound.** Over every well-formed symbolic memory, what `read_memory` returns
denotes the bytes at the address of the pointer, or is a fresh symbol, under every valuation of the
path constraints, if and only if the constraints cannot be satisfied, or the pointer is concrete,
or the enumeration did not find exactly one of several addresses. -/
theorem readMemory_faithful_iff (hS : S.Sound) (hp : p.Inttoptr) (hk : 0 < k)
    (pathConstraints : List Term) (n : ℕ) :
    (∀ c r c', c.memory.WF → c.checks = n →
      readMemory S pathConstraints c p (8 * k) = .ok (r, c') →
        ReadFaithful pathConstraints p k c r c') ↔
    (∀ ν, ¬ Satisfies ν pathConstraints) ∨ p.isConcrete = true ∨
      ((possibleValues S pathConstraints n p.term).1.length = 1 →
        ∀ ν μ, Satisfies ν pathConstraints → Satisfies μ pathConstraints →
          p.eval ν = p.eval μ) := by
  constructor
  · intro hall
    by_contra hnot
    simp only [not_or] at hnot
    obtain ⟨_, h, hlen⟩ := hnot
    push Not at hlen
    obtain ⟨hlen, ξ, ζ, hξ, hζ, hne⟩ := hlen
    obtain ⟨c, r, c', hc, hn, hread, hwrong⟩ := readMemory_wrong hS hp hk h hlen hξ hζ hne
    exact hwrong (hall c r c' hc hn hread)
  · rintro hcond c r c' hc rfl hread
    refine readMemory_sound hS hp hk hc (fun h hlen ν μ hν hμ => ?_) hread
    rcases hcond with hunsat | hconcrete | hone
    · exact absurd hν (hunsat ν)
    · exact absurd hconcrete h
    · exact hone hlen ν μ hν hμ

theorem readMemory_faithful_iff_replaying :
    (∀ c r c', c.memory.WF → c.checks = 0 →
      readMemory (.replaying [fun _ => 0]) [] c symbolPointer (8 * 4) = .ok (r, c') →
        ReadFaithful [] symbolPointer 4 c r c') ↔
    (∀ ν, ¬ Satisfies ν []) ∨ symbolPointer.isConcrete = true ∨
      ((possibleValues (.replaying [fun _ => 0]) [] 0 symbolPointer.term).1.length = 1 →
        ∀ ν μ, Satisfies ν [] → Satisfies μ [] → symbolPointer.eval ν = symbolPointer.eval μ) :=
  readMemory_faithful_iff (Solver.replaying_sound _) symbolPointer_inttoptr (by decide) [] 0

end Vexa
