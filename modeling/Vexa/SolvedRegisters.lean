import Vexa.ForkedState
import Vexa.WrittenCells

/-!
# Which registers a fork settles

`solve_cpu_context` reads every register of eight bytes or more that has no parent, rewrites it under the
path constraints and writes it back when it is a literal. With a solver that never gives up this is exact:
a register is a literal afterwards if and only if the constraints leave it one value, and it is the term
of before if they leave it several. As registers lie apart, it does not matter in which order they are
solved.

In a run both sides of a fork are solved. The registers were written before the loop of `cpu::run`, so
they have cells in every state and none of them is read as a new symbol.

## Main definitions

* `Solved` — what a term becomes
* `Register.IsSolved`, `Register.Disjoint` — the registers that are solved, and that they lie apart
* `Context.Present` — every byte of a range was written
* `SolvedSide` — one side of a fork

## Main results

* `Value.isConcrete_simplifyUnder` — rewriting under constraints finds the literal if there is one
* `Context.read_write_self` — a value that was written is read back as it is
* `solveCpuContext_solved` — the loop over the registers
* `branching_settles` — every fork of every run
-/

namespace Vexa

variable {S : Solver} {M : Machine} {A : List Term} {ctx ctx' : Context} {r q : Register}
  {rs : List Register} {t t' : Value} {page : PageId} {base : Addr} {k n : ℕ}

/-- The constraints leave the term one value. -/
def Determined (A : List Term) (t : Value) : Prop :=
  ∀ ν μ, Satisfies ν A → Satisfies μ A → t.eval ν = t.eval μ

/-! ### Rewriting under constraints -/

/-- **Rewriting under constraints is exact** when the solver never gives up. -/
theorem Value.isConcrete_simplifyUnder (hS : S.Sound) (hanswers : S.Answers) (hA : ∃ ν, Satisfies ν A)
    (checks : ℕ) (t : Value) :
    (t.simplifyUnder S A checks).1.isConcrete = true ↔ Determined A t := by
  constructor
  · intro hconcrete ν μ hν hμ
    have hkeeps := (Value.simplifyUnder_sound hS A checks t).2
    rw [← hkeeps ν hν, ← hkeeps μ hμ]
    exact Value.eval_of_isConcrete hconcrete ν μ
  · intro hdetermined
    rw [Value.simplifyUnder]
    by_cases hconcrete : (t.simplify S).isConcrete = true
    · simp only [hconcrete, if_true]
    simp only [hconcrete, if_false, Bool.false_eq_true]
    obtain ⟨ν, hν⟩ := hA
    cases hfirst : S.checkSat checks A with
    | unknown => exact absurd hfirst (hanswers checks A)
    | unsat => exact absurd hν (hS.unsat hfirst ν)
    | sat m =>
      have hm := hS.sat hfirst
      simp only
      cases hsecond : S.checkSat (checks + 1)
          (A ++ [differs (t.simplify S).term (.literal (t.simplify S).term.sort ((t.simplify S).term.eval m))])
        with
      | unknown => exact absurd hsecond (hanswers _ _)
      | unsat => exact Term.isValue_literal _ _
      | sat m' =>
        -- a second value, which the constraints do not leave
        obtain ⟨hm', hdiffers⟩ := (satisfies_append _ _ _).mp (hS.sat hsecond)
        have hne := (eval_differs _).mp ((satisfies_singleton _ _).mp hdiffers)
        have heq : (t.simplify S).eval m' = (t.simplify S).eval m := by
          rw [Value.eval_simplify hS, Value.eval_simplify hS]
          exact hdetermined m' m hm' hm
        exact absurd heq hne

/-- The result is rewritten already. -/
theorem Value.simplify_simplifyUnder (S : Solver) (A : List Term) (checks : ℕ) (t : Value) :
    (t.simplifyUnder S A checks).1.simplify S = (t.simplifyUnder S A checks).1 := by
  have hliteral : ∀ e : Term, e.isValue = true → (Value.ofTerm e).simplify S = Value.ofTerm e := by
    intro e he
    rw [Value.simplify, Value.ofTerm, he, if_pos rfl]
  rw [Value.simplifyUnder]
  simp only
  split
  · exact Value.simplify_simplify t
  split
  · split
    · exact hliteral _ (Term.isValue_literal _ _)
    · exact Value.simplify_simplify t
  · exact Value.simplify_simplify t

/-! ### Reading registers -/

/-- Every byte of the range was written. -/
def Context.Present (ctx : Context) (page : PageId) (base : Addr) (k : ℕ) : Prop :=
  ∀ i < k, ∃ cell, (ctx.memory page).find (base + BitVec.ofNat 64 i) = some cell

namespace Context

/-- The cells of a range that was written, from the top down. -/
theorem readCells_of_find (f : ℕ → MemCell) : ∀ n : ℕ,
    (∀ i < n, (ctx.memory page).find (base + BitVec.ofNat 64 i) = some (f i)) →
    ctx.readCells page base n = ((List.range n).reverse.map f, ctx)
  | 0, _ => rfl
  | n + 1, h => by
    have hlast := readByte_of_some (h n (Nat.lt_succ_self n))
    rw [readCells, hlast, readCells_of_find f n fun i hi => h i (Nat.lt_succ_of_lt hi), List.range_succ,
      List.reverse_append, List.reverse_singleton, List.singleton_append, List.map_cons]

/-- A read of such a range. -/
theorem read_of_find (f : ℕ → MemCell) (hk : 0 < k)
    (h : ∀ i < k, (ctx.memory page).find (base + BitVec.ofNat 64 i) = some (f i)) :
    ctx.read S (.concrete base page) (8 * k)
      = (assemble (f (k - 1)) ((List.range (k - 1)).reverse.map f) (8 * k) k, ctx) := by
  obtain ⟨k, rfl⟩ := Nat.exists_eq_succ_of_ne_zero hk.ne'
  obtain ⟨last, rest, hcells, _, hread⟩ :=
    read_eq (Pointer.asUint64_simplify_concrete S base page) ctx k
  rw [Pointer.page_concrete, readCells_of_find f (k + 1) h] at hcells hread
  rw [List.range_succ, List.reverse_append, List.reverse_singleton, List.singleton_append,
    List.map_cons] at hcells
  obtain ⟨rfl, rfl⟩ := List.cons.inj hcells
  exact hread

/-- Reads of a range that was written depend on its cells only. -/
theorem read_congr (hk : 0 < k) (hpresent : ctx.Present page base k)
    (hsame : ∀ i < k, (ctx'.memory page).find (base + BitVec.ofNat 64 i)
      = (ctx.memory page).find (base + BitVec.ofNat 64 i)) :
    (ctx.read S (.concrete base page) (8 * k)).2 = ctx ∧
    (ctx'.read S (.concrete base page) (8 * k)).1 = (ctx.read S (.concrete base page) (8 * k)).1 := by
  choose f hf using hpresent
  let g : ℕ → MemCell := fun i => if h : i < k then f i h else uninitCell page base 0
  have hg : ∀ i < k, (ctx.memory page).find (base + BitVec.ofNat 64 i) = some (g i) := by
    intro i hi
    simp only [g, dif_pos hi]
    exact hf i hi
  rw [read_of_find g hk hg, read_of_find g hk fun i hi => (hsame i hi).trans (hg i hi)]
  exact ⟨rfl, rfl⟩

/-- The bytes of one value in a row. -/
theorem assemble_row (v : Value) (size k : ℕ) :
    assemble ⟨v, k + 1, k⟩ ((List.range k).reverse.map fun i => ⟨v, k + 1, i⟩) size (k + 1) = v := by
  have hcells : (⟨v, k + 1, k⟩ :: (List.range k).reverse.map fun i => ⟨v, k + 1, i⟩ : List MemCell)
      = (List.range (k + 1)).reverse.map fun i => ⟨v, k + 1, i⟩ := by
    rw [List.range_succ, List.reverse_append, List.reverse_singleton, List.singleton_append, List.map_cons]
  have htake : ((List.range (k + 1)).reverse.map fun i => (⟨v, k + 1, i⟩ : MemCell)).take (k + 1)
      = (List.range (k + 1)).reverse.map fun i => ⟨v, k + 1, i⟩ := List.take_of_length_le (by simp)
  have hmerged : canBeMerged ⟨v, k + 1, k⟩ ((List.range (k + 1)).reverse.map fun i => ⟨v, k + 1, i⟩)
      = true := by
    rw [canBeMerged, List.all_eq_true]
    intro cell hcell
    obtain ⟨i, _, rfl⟩ := List.mem_map.mp hcell
    exact decide_eq_true ⟨rfl, rfl⟩
  have haligned : aligned ⟨v, k + 1, k⟩ ((List.range (k + 1)).reverse.map fun i => ⟨v, k + 1, i⟩)
      = true := by
    rw [aligned, List.all_eq_true]
    rintro ⟨cell, j⟩ hcell
    obtain ⟨hj, hget⟩ := List.getElem?_eq_some_iff.mp (List.mem_zipIdx_iff_getElem?.mp hcell)
    simp only [List.getElem_map, List.getElem_reverse, List.getElem_range, List.length_range] at hget
    simp only [List.length_map, List.length_reverse, List.length_range] at hj
    subst hget
    exact decide_eq_true (by simp only; omega)
  rw [assemble]
  simp only [hcells, htake, hmerged, haligned, and_self, if_true]

/-- **What was written is read back as it is**, rewritten, when the size is that of the value. -/
theorem read_write_self (v : Value) (hsize : v.size = 8 * k) (hk : 0 < k) (hlt : k < 256) :
    ((ctx.write S (.concrete base page) v).read S (.concrete base page) (8 * k)).1 = v.simplify S := by
  obtain ⟨k, rfl⟩ := Nat.exists_eq_succ_of_ne_zero hk.ne'
  have hcount : v.size / 8 % 256 = k + 1 := by
    rw [hsize, Nat.mul_div_cancel_left _ (by decide), Nat.mod_eq_of_lt hlt]
  have hcells : ∀ i < k + 1, ((ctx.write S (.concrete base page) v).memory page).find
      (base + BitVec.ofNat 64 i) = some ⟨v.simplify S, k + 1, i⟩ := by
    intro i hi
    have hdist : (base + BitVec.ofNat 64 i - base).toNat = i :=
      ByteMemory.toNat_add_ofNat_sub base (by omega)
    rw [memory_write, Memory.find_write (Pointer.asUint64_simplify_concrete S base page), hcount, hdist,
      if_pos ⟨rfl, hi⟩]
  rw [read_of_find _ hk hcells]
  exact assemble_row ..

end Context

/-! ### Solving -/

/-- The registers the loop looks at. -/
def Register.IsSolved (r : Register) : Prop := r.hasParent = false ∧ 8 ≤ r.size

/-- No byte is in both. -/
def Register.Disjoint (r q : Register) : Prop :=
  ∀ x : Addr, ¬ ((x - r.offset).toNat < r.size ∧ (x - q.offset).toNat < q.size)

/-- What a term becomes: it denotes what it did, is a literal if and only if the constraints leave it one
value, and is the same term if they leave it several. -/
structure Solved (A : List Term) (t t' : Value) : Prop where
  eval : ∀ ν, Satisfies ν A → t'.eval ν = t.eval ν
  literal : t'.isConcrete = true ↔ Determined A t
  kept : ¬ Determined A t → t' = t

theorem Register.IsSolved.not_skipped (h : r.IsSolved) : ¬ (r.hasParent = true ∨ r.size < 8) := by
  rintro (hparent | hsize)
  · rw [h.1] at hparent
    cases hparent
  · exact absurd h.2 hsize.not_ge

theorem solveRegister_of_skipped (h : ¬ r.IsSolved) : Cpu.solveRegister M A ctx r = ctx := by
  rw [Cpu.solveRegister, if_pos]
  by_contra hskipped
  obtain ⟨hparent, hsize⟩ := not_or.mp hskipped
  exact h ⟨Bool.eq_false_iff.mpr hparent, Nat.le_of_not_lt hsize⟩

theorem readRegister_stays (hr : 0 < r.size) (hpresent : ctx.Present statePage r.offset r.size) :
    (Cpu.readRegister M r ctx).2 = ctx := by
  rw [Cpu.readRegister, Nat.mul_comm]
  exact (Context.read_congr hr hpresent fun _ _ => rfl).1

theorem readRegister_congr (hr : 0 < r.size) (hpresent : ctx.Present statePage r.offset r.size)
    (ctx' : Context) (hsame : ∀ i < r.size, (ctx'.memory statePage).find (r.offset + BitVec.ofNat 64 i)
      = (ctx.memory statePage).find (r.offset + BitVec.ofNat 64 i)) :
    (Cpu.readRegister M r ctx').1 = (Cpu.readRegister M r ctx).1 := by
  rw [Cpu.readRegister, Cpu.readRegister, Nat.mul_comm]
  exact (Context.read_congr hr hpresent hsame).2

theorem readRegister_writeRegister {v : Value} (hsize : v.size = 8 * r.size) (hr : 0 < r.size)
    (hfits : r.size < 256) :
    (Cpu.readRegister M r (Cpu.writeRegister M r v ctx)).1 = v.simplify M.solver := by
  rw [Cpu.readRegister, Nat.mul_comm]
  exact Context.read_write_self v hsize hr hfits

/-- What solving a register that was written does. -/
theorem solveRegister_eq (hS : M.solver.Sound) (hr : r.IsSolved)
    (hpresent : ctx.Present statePage r.offset r.size) (hwf : ctx.memory.WF) :
    ∃ checks, let t := (Cpu.readRegister M r ctx).1
      let value := (t.simplifyUnder M.solver A ctx.checks).1
      value.size = 8 * r.size ∧ Cpu.solveRegister M A ctx r =
        if value.isConcrete then Cpu.writeRegister M r value { ctx with checks := checks }
        else { ctx with checks := checks } := by
  have hpos : 0 < r.size := Nat.lt_of_lt_of_le (by decide) hr.2
  have hsame : (Cpu.readRegister M r ctx).2 = ctx := readRegister_stays hpos hpresent
  have hsize : (Cpu.readRegister M r ctx).1.size = 8 * r.size := by
    rw [Cpu.readRegister, Nat.mul_comm]
    exact (Context.read_sound (hwf r.size) (Pointer.asUint64_simplify_concrete M.solver r.offset statePage)
      hpos).2.1
  refine ⟨((Cpu.readRegister M r ctx).1.simplifyUnder M.solver A ctx.checks).2, ?_, ?_⟩
  · rw [Value.size, Term.bits, (Value.simplifyUnder_sound hS ..).1]
    exact hsize
  · rw [Cpu.solveRegister, if_neg hr.not_skipped]
    simp only [hsame, Value.simplify_simplifyUnder]

/-- **A register that is solved.** -/
theorem solveRegister_self (hS : M.solver.Sound) (hanswers : M.solver.Answers) (hA : ∃ ν, Satisfies ν A)
    (hr : r.IsSolved) (hfits : r.size < 256) (hpresent : ctx.Present statePage r.offset r.size)
    (hwf : ctx.memory.WF) :
    Solved A (Cpu.readRegister M r ctx).1 (Cpu.readRegister M r (Cpu.solveRegister M A ctx r)).1 := by
  have hpos : 0 < r.size := Nat.lt_of_lt_of_le (by decide) hr.2
  obtain ⟨checks, hsize, heq⟩ := solveRegister_eq (A := A) hS hr hpresent hwf
  have hiff := Value.isConcrete_simplifyUnder hS hanswers hA ctx.checks (Cpu.readRegister M r ctx).1
  rw [heq]
  by_cases hconcrete :
      ((Cpu.readRegister M r ctx).1.simplifyUnder M.solver A ctx.checks).1.isConcrete = true
  · rw [if_pos hconcrete, readRegister_writeRegister hsize hpos hfits, Value.simplify_simplifyUnder]
    exact ⟨(Value.simplifyUnder_sound hS ..).2, hiff, fun hseveral => absurd (hiff.mp hconcrete) hseveral⟩
  · have hsame : (Cpu.readRegister M r { ctx with checks := checks }).1 = (Cpu.readRegister M r ctx).1 :=
      readRegister_congr hpos hpresent _ fun _ _ => rfl
    rw [if_neg hconcrete, hsame]
    refine ⟨fun _ _ => rfl, ⟨fun hliteral ν μ _ _ => Value.eval_of_isConcrete hliteral ν μ, fun hone => ?_⟩,
      fun _ => rfl⟩
    exact absurd (hiff.mpr hone) hconcrete

/-- The cells outside stay. -/
theorem solveRegister_find (hS : M.solver.Sound)
    (hpresent : r.IsSolved → ctx.Present statePage r.offset r.size) (hwf : ctx.memory.WF) {x : Addr}
    (hx : r.IsSolved → ¬ (x - r.offset).toNat < r.size) :
    ((Cpu.solveRegister M A ctx r).memory statePage).find x = (ctx.memory statePage).find x := by
  by_cases hr : r.IsSolved
  · obtain ⟨checks, hsize, heq⟩ := solveRegister_eq (A := A) hS hr (hpresent hr) hwf
    rw [heq]
    split
    · have hcount : ((Cpu.readRegister M r ctx).1.simplifyUnder M.solver A ctx.checks).1.size / 8 % 256
          ≤ r.size := by
        rw [hsize, Nat.mul_div_cancel_left _ (by decide)]
        exact Nat.mod_le ..
      rw [Cpu.writeRegister, Context.memory_write,
        Memory.find_write (Pointer.asUint64_simplify_concrete M.solver r.offset statePage), if_neg]
      exact fun hin => hx hr (hin.2.trans_le hcount)
    · rfl
  · rw [solveRegister_of_skipped hr]

/-- No cell goes away. -/
theorem solveRegister_present (hS : M.solver.Sound)
    (hr : r.IsSolved → ctx.Present statePage r.offset r.size) (hwf : ctx.memory.WF)
    (hpresent : ctx.Present statePage base k) :
    (Cpu.solveRegister M A ctx r).Present statePage base k := by
  intro i hi
  by_cases hsolved : r.IsSolved
  · obtain ⟨checks, _, heq⟩ := solveRegister_eq (A := A) hS hsolved (hr hsolved) hwf
    rw [heq]
    split
    · rw [Cpu.writeRegister, Context.memory_write,
        Memory.find_write (Pointer.asUint64_simplify_concrete M.solver r.offset statePage)]
      split
      · exact ⟨_, rfl⟩
      · exact hpresent i hi
    · exact hpresent i hi
  · rw [solveRegister_of_skipped hsolved]
    exact hpresent i hi

/-! ### All registers -/

/-- What the loop knows before a register, of those that are left. -/
structure Solvable (rs : List Register) (ctx : Context) : Prop where
  wf : ctx.memory.WF
  disjoint : rs.Pairwise fun r q => r.IsSolved → q.IsSolved → r.Disjoint q
  fits : ∀ r ∈ rs, r.size < 256
  present : ∀ r ∈ rs, r.IsSolved → ctx.Present statePage r.offset r.size

/-- One register. -/
theorem Solvable.step (hS : M.solver.Sound) (h : Solvable (r :: rs) ctx) :
    Solvable rs (Cpu.solveRegister M A ctx r) := by
  obtain ⟨hr, hrs⟩ := List.forall_mem_cons.mp h.fits
  obtain ⟨hpresent, hothers⟩ := List.forall_mem_cons.mp h.present
  exact ⟨solveRegister_wf hS hr h.wf, (List.pairwise_cons.mp h.disjoint).2, hrs, fun q hq hsolved =>
    solveRegister_present hS hpresent h.wf (hothers q hq hsolved)⟩

/-- Solving a register leaves those that lie apart from it. -/
theorem readRegister_solveRegister (hS : M.solver.Sound)
    (hr : r.IsSolved → ctx.Present statePage r.offset r.size) (hwf : ctx.memory.WF) (hq : q.IsSolved)
    (hfits : q.size < 256) (hpresent : ctx.Present statePage q.offset q.size)
    (hdisjoint : r.IsSolved → r.Disjoint q) :
    (Cpu.readRegister M q (Cpu.solveRegister M A ctx r)).1 = (Cpu.readRegister M q ctx).1 := by
  refine readRegister_congr (Nat.lt_of_lt_of_le (by decide) hq.2) hpresent _ fun i hi => ?_
  refine solveRegister_find hS hr hwf fun hsolved hin => hdisjoint hsolved _ ⟨hin, ?_⟩
  rwa [ByteMemory.toNat_add_ofNat_sub q.offset (by omega)]

theorem readRegister_foldl (hS : M.solver.Sound) (hq : q.IsSolved) (hfits : q.size < 256) :
    ∀ (rs : List Register) {ctx : Context}, Solvable rs ctx → ctx.Present statePage q.offset q.size →
      (∀ r ∈ rs, r.IsSolved → r.Disjoint q) →
      (Cpu.readRegister M q (rs.foldl (Cpu.solveRegister M A) ctx)).1 = (Cpu.readRegister M q ctx).1
  | [], _, _, _, _ => rfl
  | r :: rs, ctx, h, hpresent, hdisjoint => by
    obtain ⟨hr, hrs⟩ := List.forall_mem_cons.mp hdisjoint
    have hself := h.present r (List.mem_cons_self ..)
    rw [List.foldl_cons, readRegister_foldl hS hq hfits rs (h.step hS)
      (solveRegister_present hS hself h.wf hpresent) hrs,
      readRegister_solveRegister hS hself h.wf hq hfits hpresent hr]

/-- **The loop**, by induction on the registers that are left: the first one is settled and then left
alone, and what it does leaves the others. -/
theorem solveRegisters_solved (hS : M.solver.Sound) (hanswers : M.solver.Answers)
    (hA : ∃ ν, Satisfies ν A) : ∀ (rs : List Register) {ctx : Context}, Solvable rs ctx →
      ∀ r ∈ rs, r.IsSolved → Solved A (Cpu.readRegister M r ctx).1
        (Cpu.readRegister M r (rs.foldl (Cpu.solveRegister M A) ctx)).1
  | [], _, _, r, hr, _ => by cases hr
  | q :: rs, ctx, h, r, hr, hsolved => by
    have hself := h.present q (List.mem_cons_self ..)
    obtain ⟨hapart, _⟩ := List.pairwise_cons.mp h.disjoint
    have hfits := h.fits r hr
    have hpresent := h.present r hr hsolved
    have hnext : Solvable rs (Cpu.solveRegister M A ctx q) := h.step hS
    rw [List.foldl_cons]
    by_cases hlater : r ∈ rs
    · have hrest := solveRegisters_solved hS hanswers hA rs hnext r hlater hsolved
      rwa [readRegister_solveRegister hS hself h.wf hsolved hfits hpresent
        fun hq => hapart r hlater hq hsolved] at hrest
    · obtain rfl : r = q := (List.mem_cons.mp hr).resolve_right hlater
      have hdisjoint : ∀ p ∈ rs, p.IsSolved → p.Disjoint r := fun p hp hpsolved x hx =>
        hapart p hp hsolved hpsolved x ⟨hx.2, hx.1⟩
      rw [readRegister_foldl hS hsolved hfits rs hnext
        (solveRegister_present hS hself h.wf hpresent) hdisjoint]
      exact solveRegister_self hS hanswers hA hsolved hfits hpresent h.wf

/-- **`solve_cpu_context` is exact.** With a sound solver that never gives up, constraints that can be
satisfied, and registers that lie apart and were written: every register the loop looks at is solved. -/
theorem solveCpuContext_solved {c : Cpu} (hS : M.solver.Sound) (hanswers : M.solver.Answers)
    (hA : ∃ ν, Satisfies ν c.pathConstraints) (h : Solvable M.registers c.symex.context)
    (hr : r ∈ M.registers) (hsolved : r.IsSolved) :
    Solved c.pathConstraints (Cpu.readRegister M r c.symex.context).1
      (Cpu.readRegister M r (c.solveCpuContext M).symex.context).1 :=
  solveRegisters_solved hS hanswers hA M.registers h r hr hsolved

/-! ### The start -/

theorem initRegisters_within : ∀ (rs : List Register) (ctx : Context),
    ctx.memory.Within (initRegisters M rs ctx).memory
  | [], _ => .refl _
  | r :: rs, ctx => by
    rw [initRegisters]
    split
    · exact initRegisters_within rs ctx
    · have hrest := initRegisters_within rs
        ((ctx.symbolic (.register r) (r.size * 8)).2.write M.solver (gep statePtr r.offset)
          (ctx.symbolic (.register r) (r.size * 8)).1)
      exact (Memory.write_within ctx.memory _ _).trans hrest

/-- Presence in a larger memory. -/
theorem Context.Present.within (h : ctx.Present page base k) (hwithin : ctx.memory.Within ctx'.memory) :
    ctx'.Present page base k := fun i hi => by
  obtain ⟨cell, hcell⟩ := h i hi
  exact hwithin.exists_find hcell

/-- Every register without a parent is written. -/
theorem initRegisters_present (hS : M.solver.Sound) (hr : r.size < 256) (hparent : r.hasParent = false) :
    ∀ (rs : List Register) (ctx : Context), r ∈ rs →
      (initRegisters M rs ctx).Present statePage r.offset r.size
  | q :: rs, ctx, hmem => by
    rw [initRegisters]
    by_cases hlater : r ∈ rs
    · split
      · exact initRegisters_present hS hr hparent rs _ hlater
      · exact initRegisters_present hS hr hparent rs _ hlater
    obtain rfl : r = q := (List.mem_cons.mp hmem).resolve_right hlater
    rw [if_neg (by rw [hparent]; exact Bool.false_ne_true)]
    refine Context.Present.within (fun i hi => ?_) (initRegisters_within rs _)
    have hloadable : (Ptr.state r.offset : Ptr Name).Loadable := trivial
    have hplace := Symex.pointer_place (s := ⟨ctx, fun _ => none⟩) hS hloadable rfl fun _ => 0
    have hcount : (ctx.symbolic (.register r) (r.size * 8)).1.size / 8 % 256 = r.size := by
      show r.size * 8 / 8 % 256 = r.size
      omega
    rw [Context.memory_write, Memory.find_write hplace.2, hcount, if_pos]
    · exact ⟨_, rfl⟩
    · refine ⟨rfl, ?_⟩
      show (r.offset + BitVec.ofNat 64 i - r.offset).toNat < r.size
      rwa [ByteMemory.toNat_add_ofNat_sub r.offset (by omega)]

theorem initEnvironment_within (layout : Layout) (ctx : Context) :
    ctx.memory.Within (initEnvironment M layout ctx).memory := by
  simp only [initEnvironment, Context.memory_write]
  exact ((Memory.write_within ..).trans (Memory.write_within ..)).trans (Memory.write_within ..)

/-- The loop of `cpu::run` is entered with these registers. -/
theorem start_present (hS : M.solver.Sound) (hr : r.size < 256) (hparent : r.hasParent = false)
    (hmem : r ∈ M.registers) {layout : Layout} {image : MemPage} {opaqueSolving : Bool} {pc : Addr}
    {c₀ : Cpu} (h : start M layout image opaqueSolving pc = .ok c₀) :
    c₀.symex.context.Present statePage r.offset r.size := by
  simp only [start, Except.bind_eq_ok, Except.pure_eq_ok] at h
  obtain ⟨e, hrun, rfl⟩ := h
  have hentry := (initRegisters_present hS hr hparent M.registers
    ⟨Function.update (fun _ => .empty) globalPage image, 0, 0⟩ hmem).within (runBlock_within hrun)
  exact hentry.within (initEnvironment_within layout e.2.context)

/-! ### Where a run branches -/

section

variable {c c₀ c₁ c₃ c' : Cpu} {m : Memory} {inst : Instruction} {condition : DualValue}
  {jumpPc fallthroughPc : Addr} {side : Valuation → Prop} {ss : Snapshot}

theorem Cpu.Decides.retains (hlt : c.insertPoint < c.numBlocks) (hc : c.Retains m)
    (h : c.Decides M inst c₃) : c₃.Retains m := by
  obtain ⟨c₁, c₂, c₂', semantics, _, hrec, _, hexec, _, hrun, rfl⟩ := h
  obtain ⟨hsymex, hpaths, hinsert, hblocks⟩ := cfgRecovery_symex hrec
  have hopens := openBlock_opens (by rw [hinsert, hblocks]; exact hlt) hexec
  exact (hc.of_eq (by rw [hsymex]) hpaths).emulates hopens (runLifted_emulates hopens hrun)

theorem Cpu.Branches.retains (hlt : c.insertPoint < c.numBlocks) (hc : c.Retains m)
    (h : c.Branches M condition jumpPc fallthroughPc c₁) : c₁.Retains m := by
  cases h with
  | conditional hdecides _ _ hget => exact getCondition_retains (hdecides.retains hlt hc) hget
  | @indirect _ c₃ _ next _ _ _ _ _ hdecides _ _ _ _ _ _ _ _ hexec _ =>
    have hrewrite : (c₃.rewriteTarget M next).Retains m :=
      (hdecides.retains hlt hc).of_eq (congrArg Context.memory (Symex.context_setOperand ..)) rfl
    have htargets : ((c₃.enumerateTarget M next).setTargets [jumpPc, fallthroughPc]).Retains m :=
      hrewrite.of_eq rfl rfl
    exact htargets.exec hexec

/-- One side of a fork in state `c`: it goes on under one more constraint, and if its constraints can be
satisfied, then every register the loop looks at is solved by them. -/
structure SolvedSide (M : Machine) (c : Cpu) (side : Valuation → Prop) (ss : Snapshot) : Prop where
  constraint : ∃ t : Term, ss.pathConstraints = c.pathConstraints ++ [t] ∧ ∀ ν, t.eval ν = 1 ↔ side ν
  solved : (∃ ν, Satisfies ν ss.pathConstraints) → ∀ r ∈ M.registers, r.IsSolved →
    ∀ ctx : Context, ctx.memory = ss.memory → Solved ss.pathConstraints
      (Cpu.readRegister M r c.symex.context).1 (Cpu.readRegister M r ctx).1

/-- A side of a fork. -/
theorem ForkSide.settles (hS : M.solver.Sound) (hanswers : M.solver.Answers)
    (hsolvable : Solvable M.registers c.symex.context) {pc : Addr} (h : ForkSide M c side pc ss) :
    SolvedSide M c side ss := by
  refine ⟨h.constraint, fun hA r hr hsolved ctx hctx => ?_⟩
  obtain ⟨ctx₀, hctx₀, hmemory⟩ := h.solved
  have hpos : 0 < r.size := Nat.lt_of_lt_of_le (by decide) hsolved.2
  have hpresent := hsolvable.present r hr hsolved
  have hsolvable₀ : Solvable M.registers ctx₀ :=
    ⟨hctx₀ ▸ hsolvable.wf, hsolvable.disjoint, hsolvable.fits, fun q hq hsolved =>
      (hsolvable.present q hq hsolved).within (hctx₀ ▸ .refl _)⟩
  have hloop := solveRegisters_solved hS hanswers hA M.registers hsolvable₀ r hr hsolved
  -- the loop starts and ends in contexts with other counters
  have hbefore : (Cpu.readRegister M r ctx₀).1 = (Cpu.readRegister M r c.symex.context).1 :=
    readRegister_congr hpos hpresent _ fun i _ => by rw [hctx₀]
  have hafter : (Cpu.readRegister M r ctx).1 = (Cpu.readRegister M r
      (M.registers.foldl (Cpu.solveRegister M ss.pathConstraints) ctx₀)).1 := by
    refine readRegister_congr hpos (Context.Present.within hpresent ?_) _ fun i _ => ?_
    · exact hctx₀ ▸ solveRegisters_within M.registers ctx₀
    · rw [hctx, hmemory]
  rw [hafter, ← hbefore]
  exact hloop

/-- A branch whose condition is not solved forks. -/
theorem branching_forkPath (hS : M.solver.Sound) (jumpPc fallthroughPc : Addr)
    (hsolving : c.opaqueSolving = true → ¬ (condition.v.simplify M.solver).isConcrete = true) :
    ∃ v : Value, (∀ ν, v.holds ν ↔ condition.v.holds ν) ∧
      branching M condition jumpPc fallthroughPc c
        = .ok (forkPath M ⟨condition.l, v⟩ jumpPc fallthroughPc c) := by
  rw [branching]
  split
  · next hon =>
    refine ⟨condition.v.simplify M.solver, fun ν => Value.holds_simplify hS ν _, ?_⟩
    simp only [opaqueSolver, if_neg (hsolving hon)]
    rfl
  · exact ⟨condition.v, fun _ => Iff.rfl, rfl⟩

/-- **A fork settles the registers on both sides.** In every state of a run from the start of
`cpu::run`, with a sound solver that never gives up and no callback: where the run branches and the
condition is not solved, each side goes on under one more constraint, and every register of eight bytes
or more that has no parent reads there as a term that denotes what it did, that is a literal if and only
if the constraints of the side leave it one value, and that is the term of before if they leave it
several. -/
theorem branching_settles (hS : M.solver.Sound) (hanswers : M.solver.Answers) (hM : M.RegistersFit)
    (hsilent : M.Silent)
    (hapart : M.registers.Pairwise fun r q => r.IsSolved → q.IsSolved → r.Disjoint q)
    {layout : Layout} {image : MemPage} (himage : ∀ k x cell, image.find x = some cell → cell.WFAt k)
    {opaqueSolving : Bool} {pc : Addr} (hstart : start M layout image opaqueSolving pc = .ok c₀)
    {calls : List Cpu} {ended : List PathEnd} (h : Explores M c₀ calls ended c)
    (hbranches : c.Branches M condition jumpPc fallthroughPc c₁)
    (hsolving : c₁.opaqueSolving = true → ¬ (condition.v.simplify M.solver).isConcrete = true) :
    ∃ c' ss, branching M condition jumpPc fallthroughPc c₁ = .ok c' ∧
      c'.unexploredPaths = ss :: c₁.unexploredPaths ∧
      SolvedSide M c₁ (fun ν => condition.v.holds ν) (c'.takeSnapshot c'.pc c'.insertPoint) ∧
      SolvedSide M c₁ (fun ν => ¬ condition.v.holds ν) ss := by
  obtain ⟨hbuilt, hmaps⟩ := start_built hstart
  have hlt := (Built.explores hbuilt hmaps h).2.lt _ (List.mem_cons_self ..)
  have hregular := (start_regular hS hM himage hstart).explores hS hM hbuilt hmaps h
  have hwf := hbranches.wf hS hlt hregular
  -- what was written before the loop is there
  obtain ⟨_, _, _, _, _, hunexplored⟩ := start_eq hstart
  have hholds₀ : c₀.Retains c₀.symex.context.memory :=
    ⟨.refl _, fun ss hss => by rw [hunexplored] at hss; cases hss⟩
  have hholds := hbranches.retains hlt (hholds₀.explores hbuilt hmaps h)
  have hsolvable : Solvable M.registers c₁.symex.context :=
    ⟨hwf, hapart, hM, fun r hr hsolved =>
      (start_present hS (hM r hr) hsolved.1 hr hstart).within hholds.current⟩
  obtain ⟨v, hv, hbranch⟩ := branching_forkPath hS jumpPc fallthroughPc hsolving
  obtain ⟨ss, hpaths, htaken, hfall⟩ :=
    forkPath_sides hS hM hsilent ⟨condition.l, v⟩ jumpPc fallthroughPc hwf
  simp only [hv] at htaken hfall
  exact ⟨_, ss, hbranch, hpaths, htaken.settles hS hanswers hsolvable, hfall.settles hS hanswers hsolvable⟩

end

/-! ### A comparison -/

theorem comparedIsFive_holds (ν : Valuation) :
    comparedIsFive.holds ν ↔ ν comparedSymbol % 2 ^ 64 = 5 := by
  have hsort : comparedIsFive.term.sort = .bv 1 := rfl
  have hwidth : comparedSymbol.width = 64 := rfl
  have hbit : comparedIsFive.term.eval ν = if ν comparedSymbol % 2 ^ 64 = 5 then 1 else 0 := by
    by_cases h : ν comparedSymbol % 18446744073709551616 = 5
    · simp [comparedIsFive, Value.extract, Value.zext, Value.ofTerm, Term.eval, BinaryKind.eval, hwidth, h]
    · simp [comparedIsFive, Value.extract, Value.zext, Value.ofTerm, Term.eval, BinaryKind.eval, hwidth, h]
  rw [Value.holds, Value.asExprBool, hsort]
  rw [Term.eval_equal, hbit]
  simp [Term.eval]

/-- Where it is taken, the register is a literal. -/
theorem branching_settles_comparing : ∃ c₀ condition c₁ c' ss,
    start comparing ⟨0, 8⟩ .empty false 0x1000 = .ok c₀ ∧
    c₀.Branches comparing condition 0 0x1002 c₁ ∧
    branching comparing condition 0 0x1002 c₁ = .ok c' ∧ c'.unexploredPaths = ss :: c₁.unexploredPaths ∧
    (Cpu.readRegister comparing comparedRegister c'.symex.context).1.isConcrete = true := by
  obtain ⟨c₀, c₁, hstart, condition, hbranches, hoff, hempty, hfive, hread⟩ := comparing_branches
  have hapart : comparing.registers.Pairwise fun r q => r.IsSolved → q.IsSolved → r.Disjoint q := by
    refine List.pairwise_pair.mpr fun _ _ x hx => ?_
    change (x - 16).toNat < 8 ∧ (x - 24).toNat < 8 at hx
    bv_omega
  have himage : ∀ k x cell, MemPage.empty.find x = some cell → cell.WFAt k := fun _ _ _ h => by cases h
  obtain ⟨c', ss, hbranch, hpaths, htaken, _⟩ := branching_settles Solver.deciding_sound
    Solver.deciding_answers comparing_registersFit (fun _ _ => rfl) hapart himage hstart .start hbranches
    fun hon => absurd (hoff.symm.trans hon) Bool.false_ne_true
  obtain ⟨t, hconstraints, ht⟩ := htaken.constraint
  rw [hempty, List.nil_append] at hconstraints
  have hiff : ∀ ν, Satisfies ν (c'.takeSnapshot c'.pc c'.insertPoint).pathConstraints ↔
      ν comparedSymbol % 2 ^ 64 = 5 := by
    intro ν
    rw [hconstraints, satisfies_singleton, ht, hfive, comparedIsFive_holds]
  have hresult := htaken.solved ⟨fun _ => 5, (hiff _).mpr rfl⟩ comparedRegister (List.mem_cons_self ..)
    ⟨rfl, by decide⟩ c'.symex.context rfl
  refine ⟨c₀, _, c₁, c', ss, hstart, hbranches, hbranch, hpaths, hresult.literal.mpr fun ν μ hν hμ => ?_⟩
  rw [Value.eval, Value.eval, hread]
  exact ((hiff ν).mp hν).trans ((hiff μ).mp hμ).symm

end Vexa
