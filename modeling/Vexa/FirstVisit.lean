import Vexa.UnsolvedFlow

/-!
# The visit a block is lifted in

A block is lifted in the state of the path that comes to its program counter first. When the constraints
of this path can be satisfied and the solver always answers, the addresses its accesses are made for are
those they have in the states of this path, and so are the targets of an indirect jump. When they can
not, no enumeration finds anything: an address that rewriting makes a literal of is kept, and every other
access goes through its register.

## Main definitions

* `Semantics.accesses` — the addresses an instruction accesses
* `Cpu.Shares` — every address and target is one that some state of the path has
* `Cpu.SharesLiterals` — every address and target that is a literal on the path is the same
* `Cpu.Admits` — the first or the second, by whether the constraints can be satisfied

## Main results

* `Cpu.Emulates.covered_of_shares`, `Cpu.Emulates.covered_of_literals` — the accesses
* `JumpFinds.mem_of_satisfies`, `JumpFinds.mem_of_literals` — the targets
-/

namespace Vexa

variable {M : Machine} {S : Solver} {pathConstraints : List Term} {types : Types Name} {ν : Valuation}
  {σ m : Bytes} {c c' c₁ c₂ : Cpu} {semantics : Semantics} {inst : Instruction}

/-! ### The addresses of straight-line code -/

section

variable {N : Type} [DecidableEq N] {rs : List Resolution}

/-- The addresses straight-line code accesses, in their order. -/
def addresses : List (Inst N) → IrState N → List Addr
  | [], _ => []
  | i :: is, s =>
    (i.address.map fun a => BitVec.ofNat 64 (a.eval s.env)).toList ++ addresses is (i.exec s)

theorem covered_iff : ∀ {insts : List (Inst N)} {rs : List Resolution} {s : IrState N},
    Covered insts rs s ↔ ∀ (k : ℕ) (a : Addr), (addresses insts s)[k]? = some a →
      ∃ r, rs[k]? = some r ∧ r.Covers a
  | [], _, _ => by simp [Covered, addresses]
  | i :: is, rs, s => by
    cases haddress : i.address with
    | none =>
      simp only [Covered, addresses, haddress, Option.map_none, Option.toList_none, List.nil_append]
      exact covered_iff
    | some a =>
      simp only [addresses, haddress, Option.map_some, Option.toList_some, List.singleton_append]
      cases rs with
      | nil =>
        simp only [Covered, haddress, false_iff]
        intro hall
        obtain ⟨r, hr, _⟩ := hall 0 _ rfl
        cases hr
      | cons r rs =>
        simp only [Covered, haddress, covered_iff]
        constructor
        · rintro ⟨hfirst, hrest⟩ k b hb
          cases k with
          | zero => exact ⟨r, rfl, Option.some.inj hb ▸ hfirst⟩
          | succ k => exact hrest k b hb
        · intro hall
          refine ⟨?_, fun k b hb => hall (k + 1) b hb⟩
          obtain ⟨_, hr, hcovers⟩ := hall 0 _ rfl
          exact Option.some.inj hr ▸ hcovers

/-- Accesses are covered when each goes to an address it has in a state in which they are. -/
theorem Covered.of_addresses {insts : List (Inst N)} {s : IrState N}
    (h : ∀ (k : ℕ) (a : Addr), (addresses insts s)[k]? = some a →
      ∃ t, (addresses insts t)[k]? = some a ∧ Covered insts rs t) : Covered insts rs s := by
  refine covered_iff.mpr fun k a ha => ?_
  obtain ⟨t, ht, hcovered⟩ := h k a ha
  exact covered_iff.mp hcovered k a ht

theorem addresses_of_direct : ∀ {insts : List (Inst N)} {s : IrState N},
    (∀ i ∈ insts, i.address = none) → addresses insts s = []
  | [], _, _ => rfl
  | i :: is, s, h => by
    obtain ⟨hi, his⟩ := List.forall_mem_cons.mp h
    rw [addresses, hi, addresses_of_direct his]
    rfl

theorem covered_of_direct {insts : List (Inst N)} {s : IrState N} (h : ∀ i ∈ insts, i.address = none) :
    Covered insts rs s := by
  refine covered_iff.mpr fun k a ha => ?_
  rw [addresses_of_direct h] at ha
  cases ha

end

/-- The addresses an instruction accesses from memory `m`, in their order. -/
def Semantics.accesses (semantics : Semantics) (pc : Addr) (m : Bytes) : List Addr :=
  addresses semantics.insts (Semantics.entry pc m)

/-! ### What a visit admits -/

/-- A memory the path has when it comes to this state. -/
def Cpu.ComesWith (c : Cpu) (m : Bytes) : Prop :=
  ∃ ν σ, Unwritten ν σ ∧ Satisfies ν c.pathConstraints ∧ c.symex.context.memory.denote ν σ = m

/-- From memory `m`, each access of the instruction goes to an address that the same access has in some
state of the path, and an indirect jump to a target it has in some state of the path. -/
structure Cpu.Shares (c : Cpu) (inst : Instruction) (semantics : Semantics) (m : Bytes) : Prop where
  accesses : ∀ (k : ℕ) (a : Addr), (semantics.accesses c.pc m)[k]? = some a →
    ∃ m', c.ComesWith m' ∧ (semantics.accesses c.pc m')[k]? = some a
  target : inst.category = .indirectJump → ∃ m', c.ComesWith m' ∧
    inst.target (semantics.effect c.pc m') = inst.target (semantics.effect c.pc m)

/-- If rewriting makes a literal of the operand, it is `a`. -/
def Symex.LiteralIs (S : Solver) (s : Symex) (value : Operand Name) (a : Addr) : Prop :=
  ∀ v b, s.get value = .ok v → (v.simplify S).asUint64 = some b → b = a

/-- Where rewriting makes a literal of the address of an access while the code is emulated from `s`, it is
the address the access has when the code is executed from `t`. -/
def SameLiterals (S : Solver) (pathConstraints : List Term) :
    List (Inst Name) → Symex → IrState Name → Prop
  | [], _, _ => True
  | i :: is, s, t =>
    (∀ a, i.address = some a → s.LiteralIs S a (BitVec.ofNat 64 (a.eval t.env))) ∧
    ∀ r, Emulator.run S pathConstraints i s = .ok r → SameLiterals S pathConstraints is r.2 (i.exec t)

section

variable (M : Machine)

/-- The symbolic state in which the block of an instruction is emulated. -/
def Cpu.emulatedFrom (c : Cpu) : Except String Symex :=
  visit M.solver c.pathConstraints (.store 64 (.const 64 c.pc.toNat) .nextPc) c.symex

/-- From memory `m`, each access of the instruction whose address is a literal on the path goes to this
address, and an indirect jump whose target is one goes to this target. -/
structure Cpu.SharesLiterals (c : Cpu) (inst : Instruction) (semantics : Semantics) (m : Bytes) :
    Prop where
  accesses : ∀ s, c.emulatedFrom M = .ok s → SameLiterals M.solver c.pathConstraints
    (semantics.inBlock c.numBlocks c.pc) s ⟨fun _ => 0, m⟩
  target : inst.category = .indirectJump → ∀ s r, c.emulatedFrom M = .ok s →
    runBlock M.solver c.pathConstraints (semantics.inBlock c.numBlocks c.pc) s = .ok r →
    ∀ w value, lastStore .nextPc (semantics.inBlock c.numBlocks c.pc) = some (w, value) →
      r.2.LiteralIs M.solver value (inst.target (semantics.effect c.pc m))

/-- What a block lifted in this state is good for. -/
structure Cpu.Admits (c : Cpu) (inst : Instruction) (semantics : Semantics) (m : Bytes) : Prop where
  shares : (∃ ν, Satisfies ν c.pathConstraints) → c.Shares inst semantics m
  literals : (¬ ∃ ν, Satisfies ν c.pathConstraints) → c.SharesLiterals M inst semantics m

end

/-- The path without constraints comes with every memory the symbolic one stands for. -/
theorem Cpu.comesWith_of_nil (h : c.pathConstraints = []) (hσ : Unwritten ν σ) :
    c.ComesWith (c.symex.context.memory.denote ν σ) := by
  refine ⟨ν, σ, hσ, ?_, rfl⟩
  rw [h]
  exact satisfies_nil ν

/-- From some state of the path the accesses go to the same addresses. -/
theorem Cpu.Shares.of_accesses {m' : Bytes} (hm' : c.ComesWith m')
    (hsame : semantics.accesses c.pc m = semantics.accesses c.pc m')
    (hcategory : inst.category ≠ .indirectJump) : c.Shares inst semantics m :=
  ⟨fun _ _ ha => ⟨m', hm', hsame ▸ ha⟩, fun hjump => absurd hjump hcategory⟩

theorem sameLiterals_of_direct : ∀ {insts : List (Inst Name)} {s : Symex} {t : IrState Name},
    (∀ i ∈ insts, i.address = none) → SameLiterals S pathConstraints insts s t
  | [], _, _, _ => trivial
  | i :: is, s, t, h => by
    obtain ⟨hi, his⟩ := List.forall_mem_cons.mp h
    refine ⟨fun a ha => ?_, fun r _ => sameLiterals_of_direct his⟩
    rw [hi] at ha
    cases ha

/-- An instruction that accesses no memory by an address and has no computed target is always admitted. -/
theorem Cpu.Admits.of_direct (hinsts : ∀ i ∈ semantics.insts, i.address = none)
    (hcategory : inst.category ≠ .indirectJump) : c.Admits M inst semantics m where
  shares _ := by
    refine ⟨fun k a ha => ?_, fun hjump => absurd hjump hcategory⟩
    rw [Semantics.accesses, addresses_of_direct hinsts] at ha
    cases ha
  literals _ := by
    refine ⟨fun s _ => sameLiterals_of_direct ?_, fun hjump => absurd hjump hcategory⟩
    refine List.forall_mem_cons.mpr ⟨rfl, List.forall_mem_map.mpr fun i hi => ?_⟩
    have haddress := hinsts i hi
    cases i <;> first | rfl | cases haddress

/-! ### Emulation without a model

Nothing is found for a term when the constraints can not be satisfied, so only rewriting makes literals. -/

/-- The operand holds the rewritten value, and rewriting it again changes nothing. -/
theorem Symex.LiteralIs.setOperand {s : Symex} {address : Operand Name} {a : Addr} {v : Value}
    (hv : s.get address = .ok v) (ha : s.LiteralIs S address a) (s' : Symex) :
    (s'.setOperand address (v.simplify S)).LiteralIs S address a := by
  intro v' b hv' hb
  obtain rfl := Except.ok.inj ((Symex.get_setOperand_simplify hv s').symm.trans hv')
  rw [Value.simplify_simplify] at hb
  exact ha v b hv hb

theorem Value.asUint64_of_ok {v : Value} {a : Addr} (h : v.asUint64? = .ok a) : v.asUint64 = some a := by
  rw [Value.asUint64?] at h
  split at h
  · next hsome => exact Except.ok.inj h ▸ hsome
  · cases h

section

variable (hS : S.Sound) (hno : ¬ ∃ ν, Satisfies ν pathConstraints)

include hS hno

theorem possibleValues_of_unsat (checks : ℕ) (t : Term) :
    (possibleValues S pathConstraints checks t).1 = [] := by
  refine List.eq_nil_iff_forall_not_mem.mpr fun e he => ?_
  obtain ⟨μ, hμ, _⟩ := (possibleValues_sound hS pathConstraints checks t).2.2.1 e he
  exact hno ⟨μ, hμ⟩

theorem Value.simplifyUnder_of_unsat (checks : ℕ) (v : Value) :
    (v.simplifyUnder S pathConstraints checks).1 = v.simplify S := by
  rw [Value.simplifyUnder]
  split
  · rfl
  · cases hcheck : S.checkSat checks pathConstraints with
    | sat m => exact absurd ⟨m, hS.sat hcheck⟩ hno
    | unsat | unknown => rfl

theorem enumerateAddress_of_unsat (address : Operand Name) (addrSym : Value) (s : Symex) :
    ∃ checks, enumerateAddress S pathConstraints address addrSym s
      = (none, { s with context.checks := checks }) := by
  rw [enumerateAddress]
  split
  · exact ⟨s.context.checks, rfl⟩
  · refine ⟨(possibleValues S pathConstraints s.context.checks addrSym.term).2.2, ?_⟩
    simp only [possibleValues_of_unsat hS hno, List.length_nil, Nat.not_lt_zero, false_and, if_false]

variable {s : Symex} {address : Operand Name} {a : Addr} {r : Resolution × Symex}

theorem valueToPointer_of_unsat (h : valueToPointer S pathConstraints address s = .ok r)
    (ha : s.LiteralIs S address a) : r.1.Covers a := by
  simp only [valueToPointer, Except.bind_eq_ok] at h
  obtain ⟨v, hv, h⟩ := h
  simp only [Value.simplifyUnder_of_unsat hS hno, possibleValues_of_unsat hS hno, ne_eq,
    not_true_eq_false, if_false] at h
  split at h
  · simp only [Except.bind_eq_ok, Except.pure_eq_ok] at h
    obtain ⟨b, hb, rfl⟩ := h
    exact (ha v b hv (Value.asUint64_of_ok hb)).symm
  · obtain rfl := Except.ok.inj h
    trivial

theorem readMemoryIntrinsic_of_unsat {dst : Name} {size : ℕ}
    (h : readMemoryIntrinsic S pathConstraints dst size address s = .ok r)
    (ha : s.LiteralIs S address a) : r.1.Covers a := by
  simp only [readMemoryIntrinsic, Except.bind_eq_ok] at h
  obtain ⟨v, hv, h⟩ := h
  obtain ⟨checks, henum⟩ := enumerateAddress_of_unsat hS hno address (v.simplify S)
    (s.setOperand address (v.simplify S))
  simp only [henum, Except.bind_eq_ok, Except.pure_eq_ok] at h
  obtain ⟨ptr, hptr, _, _, rfl⟩ := h
  show ptr.1.Covers a
  refine valueToPointer_of_unsat hS hno hptr ?_
  exact ha.setOperand hv s

theorem writeMemoryIntrinsic_of_unsat {size : ℕ} {value : Operand Name}
    (h : writeMemoryIntrinsic S pathConstraints size address value s = .ok r)
    (ha : s.LiteralIs S address a) : r.1.Covers a := by
  simp only [writeMemoryIntrinsic, Except.bind_eq_ok] at h
  obtain ⟨v, hv, h⟩ := h
  set addrSym := v.simplifyUnder S pathConstraints s.context.checks
  obtain ⟨checks, henum⟩ := enumerateAddress_of_unsat hS hno address addrSym.1
    (Symex.setOperand { s with context.checks := addrSym.2 } address (v.simplify S))
  simp only [henum, Except.bind_eq_ok, Except.pure_eq_ok] at h
  obtain ⟨ptr, hptr, _, _, _, _, _, _, rfl⟩ := h
  show ptr.1.Covers a
  refine valueToPointer_of_unsat hS hno hptr ?_
  exact ha.setOperand hv { s with context.checks := addrSym.2 }

/-- **Without a model** the accesses go where the code was made for, when they go to the literals found. -/
theorem runBlock_of_unsat : ∀ {insts : List (Inst Name)} {types : Types Name} {s : Symex}
    {t : IrState Name} {r : Emitted × Symex}, Typed types insts →
    runBlock S pathConstraints insts s = .ok r → SameLiterals S pathConstraints insts s t →
    Covered insts r.1.resolutions t
  | [], _, _, _, _, _, _, _ => trivial
  | i :: is, types, s, t, r, ⟨hi, _, hrest⟩, hrun, ⟨hsame, hnext⟩ => by
    have hterm : ¬ i.isTerminator = true := by
      intro hterm
      cases i <;> first | exact hi.elim | cases hterm
    rw [runBlock, if_neg hterm] at hrun
    simp only [Except.bind_eq_ok, Except.pure_eq_ok] at hrun
    obtain ⟨first, hfirst, rest, hrestRun, rfl⟩ := hrun
    have hcovered := runBlock_of_unsat hrest hrestRun (hnext first hfirst)
    cases i with
    | readMemory dst size a =>
      simp only [Emulator.run, Except.bind_eq_ok, Except.pure_eq_ok] at hfirst
      obtain ⟨read, hread, rfl⟩ := hfirst
      exact ⟨readMemoryIntrinsic_of_unsat hS hno hread (hsame a rfl), hcovered⟩
    | writeMemory dst size a v =>
      simp only [Emulator.run, Except.bind_eq_ok, Except.pure_eq_ok] at hfirst
      obtain ⟨write, hwrite, rfl⟩ := hfirst
      exact ⟨writeMemoryIntrinsic_of_unsat hS hno hwrite (hsame a rfl), hcovered⟩
    | _ =>
      simp only [Emulator.run, Except.bind_eq_ok, Except.pure_eq_ok] at hfirst
      obtain ⟨s', _, rfl⟩ := hfirst
      exact hcovered

end

/-! ### The accesses of a block -/

/-- **The accesses of a block** that was lifted on a path go where it was made for, when they go where
those of the path go. -/
theorem Cpu.Emulates.covered_of_shares (hS : M.solver.Sound) (hA : M.solver.Answers)
    (hwf : c.symex.context.memory.WF) (hopens : c.Opens M c₁) (h : c.Emulates M semantics c₁ c₂)
    (hshares : c.Shares inst semantics m) :
    Covered semantics.insts (c₂.function c.numBlocks).resolutions (Semantics.entry c.pc m) := by
  refine Covered.of_addresses fun k a ha => ?_
  obtain ⟨m', ⟨ν, σ, hσ, hν, hm'⟩, ha'⟩ := hshares.accesses k a ha
  have hcovered := (h.covered hS hA hσ hν hopens (t := ⟨fun _ => 0, m'⟩) ⟨hm', hwf⟩).2
  exact ⟨_, ha', hcovered⟩

theorem Cpu.Emulates.covered_of_literals (hS : M.solver.Sound)
    (hno : ¬ ∃ ν, Satisfies ν c.pathConstraints) (hopens : c.Opens M c₁)
    (h : c.Emulates M semantics c₁ c₂) (hshares : c.SharesLiterals M inst semantics m) :
    Covered semantics.insts (c₂.function c.numBlocks).resolutions (Semantics.entry c.pc m) := by
  obtain ⟨rs, code, hrun, rfl, rfl⟩ := h.run
  have hcovered := runBlock_of_unsat hS hno (semantics.inBlock_typed c.numBlocks c.pc) hrun
    (hshares.accesses c₁.symex hopens.symex)
  exact ((runBlock_lowers hrun).renamed ⟨fun _ => 0, m⟩).2.mp hcovered

/-! ### The targets of a jump -/

section

variable {next : DualValue} {targets : List Addr}

/-- **The targets of an indirect jump** that was lifted on a path are those the path has. -/
theorem JumpFinds.mem_of_satisfies (hS : M.solver.Sound) (hA : M.solver.Answers)
    (hν : Satisfies ν c.pathConstraints) {u : IrState Name} (hden : c.symex.Denotes ν σ types u)
    (hholds : HoldsVariables types u (c.function c.block).insts) (hnext : getNextPc c = .ok next)
    (h : JumpFinds M next c targets) :
    BitVec.ofNat 64 (u.mem.load (nextPcPage, 0) 8) ∈ targets := by
  obtain ⟨w, hlast, hget⟩ := getNextPc_eq hnext
  obtain ⟨rfl, hwidth, hnextPc⟩ := hholds.nextPc hlast
  obtain ⟨hsort, heval⟩ := hden.operand hwidth hget
  rw [hnextPc, ← heval]
  rcases h with ⟨target, hconcrete, htarget, rfl⟩ | ⟨_, hlen, hfound⟩
  · have hsort' : (next.v.simplify M.solver).term.sort = .bv 64 :=
      (Value.sort_simplify hS next.v).trans hsort
    have heq := asUint64?_eq hconcrete hsort' htarget ν
    rw [Value.eval_simplify hS] at heq
    exact List.mem_singleton.mpr heq.symm
  · obtain ⟨ns, hns, _, _, hcomplete⟩ := exists_targets hS hsort c
    have hmem := hcomplete (possibleValues_of_answers hS hA hlen) ν hν
    rw [hns] at hfound
    obtain rfl : ns.map (BitVec.ofNat 64) = targets :=
      Except.ok.inj ((mapM_asUint64? ns).symm.trans hfound)
    exact List.mem_map_of_mem hmem

/-- Without a model its one target is a literal. -/
theorem JumpFinds.mem_of_literals (hS : M.solver.Sound) (hno : ¬ ∃ ν, Satisfies ν c.pathConstraints)
    {a : Addr} (hnext : getNextPc c = .ok next)
    (hliteral : ∀ w value, lastStore .nextPc (c.function c.block).insts = some (w, value) →
      c.symex.LiteralIs M.solver value a)
    (h : JumpFinds M next c targets) : a ∈ targets := by
  obtain ⟨w, hlast, hget⟩ := getNextPc_eq hnext
  rcases h with ⟨target, _, htarget, rfl⟩ | ⟨hfound, _⟩
  · rw [hliteral w next.l hlast next.v target hget (Value.asUint64_of_ok htarget)]
    exact List.mem_singleton_self a
  · exact absurd (possibleValues_of_unsat hS hno _ _) hfound

end

end Vexa
