import Vexa.SymbolicExecution

/-!
# Accesses with several addresses

An access whose address has several values, all of them found, is split: a chain of guarded loads and
stores in the code, and the same chain on terms in the symbolic memory. The ranges may overlap and lie
on either page. Each round rewrites bytes earlier rounds have written, and still both chains are one
access at the address the term denotes.

Reading a byte nobody has written makes a symbol for it. The code is therefore run from the memory the
symbolic memory denotes once these symbols are filled in, and no valuation is left out.

## Main definitions

* `SeveralAddresses` — the enumeration of an address is complete and has several values
* `SplitsWrite`, `SplitsRead` — an access that is split

## Main results

* `splitWrite_agrees`, `splitRead_agrees` — one access, in both views
* `splitAccesses_agree`
-/

namespace Vexa

variable {S : Solver} {pathConstraints : List Term} {ν : Valuation} {σ : Bytes} {types : Types Name}
  {s s' : Symex} {t : IrState Name} {size : ℕ} {address value : Operand Name} {dst : Name}

/-- The solver listed all values of the address, and there are several. -/
structure SeveralAddresses (S : Solver) (pathConstraints : List Term) (checks : ℕ) (addr : Value) :
    Prop where
  symbolic : ¬ addr.isConcrete = true
  several : 1 < (possibleValues S pathConstraints checks addr.term).1.length
  complete : (possibleValues S pathConstraints checks addr.term).2.1 = .unsat

/-- `write_memory_intrinsic` finds several values of the address. -/
def SplitsWrite (S : Solver) (pathConstraints : List Term) (address : Operand Name) (s : Symex) : Prop :=
  ∃ addr, s.get address = .ok addr ∧
    SeveralAddresses S pathConstraints (addr.simplifyUnder S pathConstraints s.context.checks).2
      (addr.simplifyUnder S pathConstraints s.context.checks).1

/-- `read_memory_intrinsic` finds several values of the address. -/
def SplitsRead (S : Solver) (pathConstraints : List Term) (address : Operand Name) (s : Symex) : Prop :=
  ∃ addr, s.get address = .ok addr ∧
    SeveralAddresses S pathConstraints s.context.checks (addr.simplify S)

/-- The place an access goes to. -/
def Operand.place (address : Operand Name) (env : Name → ℕ) : PageId × Addr :=
  locate (BitVec.ofNat 64 (address.eval env))

/-! ### The addresses -/

theorem SeveralAddresses.enumerateAddress {addr : Value}
    (h : SeveralAddresses S pathConstraints s.context.checks addr) (address : Operand Name) :
    enumerateAddress S pathConstraints address addr s =
      (some (possibleValues S pathConstraints s.context.checks addr.term).1,
        { s with context.checks :=
            (possibleValues S pathConstraints s.context.checks addr.term).2.2 }) := by
  rw [Vexa.enumerateAddress, if_neg h.symbolic]
  exact if_pos ⟨h.several, h.complete⟩

/-- The address is one of the values listed. -/
theorem SeveralAddresses.exists_addresses (hS : S.Sound) {checks : ℕ} {addr : Value}
    (h : SeveralAddresses S pathConstraints checks addr) (hsort : addr.term.sort = .bv 64)
    (hν : Satisfies ν pathConstraints) :
    ∃ ns : List ℕ, (possibleValues S pathConstraints checks addr.term).1 = ns.map addressTerm ∧
      1 < ns.length ∧ ns.Nodup ∧ (∀ n ∈ ns, n < 2 ^ 64) ∧ addr.eval ν ∈ ns := by
  obtain ⟨ns, hns, hnodup, hfeasible, hcomplete⟩ :=
    Vexa.exists_addresses hS hsort pathConstraints checks
  refine ⟨ns, hns, ?_, hnodup, fun n hn => (hfeasible n hn).1, hcomplete h.complete ν hν⟩
  have hlen := h.several
  rwa [hns, List.length_map] at hlen

theorem mem_addresses {ns : List ℕ} {addr : Value} {a : ℕ} (hmem : addr.eval ν ∈ ns)
    (heval : addr.eval ν = a) : (Resolution.among (ns.map (BitVec.ofNat 64))).Covers (BitVec.ofNat 64 a) :=
  List.mem_map_of_mem (heval ▸ hmem)

/-- The bytes of an access. -/
theorem size_of_mem (hsize : size ∈ [8, 16, 32, 64]) :
    8 * (size / 8) = size ∧ 0 < size / 8 ∧ size / 8 < 256 := by
  obtain ⟨hmod, hpos, hlt⟩ := byteWidth_of_mem hsize
  omega

/-- The loop of `read_memory_intrinsic` ends when that of `read_memory` does. -/
theorem readValues_of_readLoop {addr : Value} {page : PageId} :
    ∀ {values : List Term} (j : ℕ) {acc : Value} {s : Symex} {r : Value} {c : Context},
      readLoop S ⟨addr, page⟩ size values acc s.context = .ok (r, c) →
      ∃ vars, readValues S dst size addr j values acc s = .ok (r, ⟨c, vars⟩)
  | [], j, acc, s, r, c, h => by
    obtain ⟨rfl, rfl⟩ := Prod.mk.inj (Except.ok.inj h)
    exact ⟨s.vars, rfl⟩
  | value :: values, j, acc, s, r, c, h => by
    simp only [readLoop, Except.bind_eq_ok] at h
    obtain ⟨ptr, hptr, h⟩ := h
    obtain ⟨vars, hvars⟩ := readValues_of_readLoop (j + 1)
      (s := Symex.set { s with context := (s.context.read S ptr size).2 } (dst.temp j 1)
        (s.context.read S ptr size).1) h
    exact ⟨vars, by simp only [readValues, hptr, Except.ok_bind]; exact hvars⟩

/-! ### Stores -/

section

variable (hS : S.Sound) (hν : Satisfies ν pathConstraints) (h : s.Denotes ν σ types t)
  (htypes : LiftedTypes types) (hsize : size ∈ [8, 16, 32, 64])
  (haddress : address.width types = some 64)

include hS hν h htypes hsize haddress

/-- **A split store** is the store, in the code and in the symbolic memory. -/
theorem splitWrite_agrees (hvalue : value.width types = some size)
    (hsplit : SplitsWrite S pathConstraints address s) (dst : Name) :
    ∃ e s', Emulator.run S pathConstraints (.writeMemory dst size address value) s = .ok (e, s') ∧
      ∃ F, Context.Filling ν s.context.fresh F ∧ ∀ bg,
        s'.context.memory.denote ν bg = (s.context.memory.denote ν (F bg)).store
          (address.place t.env).1 (address.place t.env).2 (size / 8) (value.eval t.env) ∧
        (execAll e.insts ⟨t.env, s.context.memory.denote ν (F bg)⟩).mem =
          (s.context.memory.denote ν (F bg)).store
            (address.place t.env).1 (address.place t.env).2 (size / 8) (value.eval t.env) := by
  obtain ⟨addr, haddr, hseveral⟩ := hsplit
  obtain ⟨hsort, heval⟩ := h.operand haddress haddr
  obtain ⟨hsort', heval'⟩ := Value.simplifyUnder_sound hS pathConstraints s.context.checks addr
  set addrSym := addr.simplifyUnder S pathConstraints s.context.checks with haddrSym
  have heval₁ : addrSym.1.eval ν = address.eval t.env := (heval' ν hν).trans heval
  obtain ⟨ns, hns, hlen, hnodup, hlt, hmem⟩ :=
    hseveral.exists_addresses hS (hsort'.trans hsort) hν
  obtain ⟨hwidth, hpos, hbytes⟩ := size_of_mem hsize
  -- the symbolic state in which the values are written
  set s₁ := Symex.setOperand { s with context.checks := addrSym.2 } address (addr.simplify S)
    with hs₁
  have hden₁ : s₁.Denotes ν σ types t := (h.withChecks addrSym.2).setOperand haddress
    ((Value.sort_simplify hS addr).trans hsort) ((Value.eval_simplify hS ν addr).trans heval)
  have hcontext : s₁.context = { s.context with checks := addrSym.2 } := Symex.context_setOperand ..
  have hchecks : s₁.context.checks = addrSym.2 := by rw [hcontext]
  obtain ⟨val, hval⟩ := hden₁.exists_get hvalue
  obtain ⟨-, hvalEval⟩ := hden₁.operand hvalue hval
  have hvalSize : val.size = 8 * (size / 8) := (hden₁.size_operand hvalue hval).trans hwidth.symm
  have henum := (hchecks ▸ hseveral : SeveralAddresses S pathConstraints s₁.context.checks
    addrSym.1).enumerateAddress address
  rw [hchecks, hns] at henum
  obtain ⟨c', hloop, _, _, _, hstore⟩ := writeLoop_sound (p := ⟨addrSym.1, globalPage⟩) hS hpos
    hvalSize ns (c := { s₁.context with
      checks := (possibleValues S pathConstraints addrSym.2 addrSym.1.term).2.2 }) hnodup hlt
    (hden₁.context.wf.wfFor _)
  obtain ⟨F, hF, hstore⟩ := hstore ν
  rw [← writeValues_eq hS globalPage] at hloop
  have hrun : writeMemoryIntrinsic S pathConstraints size address value s =
      .ok (.among (ns.map (BitVec.ofNat 64)), ⟨c', s₁.vars⟩) := by
    have hassert : ∀ text, vexaAssert (val.size = size) text = .ok () := fun text => by
      rw [vexaAssert, if_pos (decide_eq_true (hvalSize.trans hwidth))]
      rfl
    have hval' : Symex.get ⟨{ s₁.context with
        checks := (possibleValues S pathConstraints addrSym.2 addrSym.1.term).2.2 }, s₁.vars⟩ value
        = .ok val := hval
    simp only [writeMemoryIntrinsic, haddr, Except.ok_bind, ← haddrSym, ← hs₁, henum, hval', hassert,
      hloop, mapM_asUint64?]
    rfl
  refine ⟨_, _, by simp only [Emulator.run, hrun, Except.ok_bind]; rfl, F, ?_, fun bg => ⟨?_, ?_⟩⟩
  · rwa [hcontext] at hF
  · rw [hstore bg, if_pos hmem, Nat.mod_eq_of_lt hbytes, hvalEval, hcontext]
    change ((s.context.memory.denote ν (F bg)).store (locate (BitVec.ofNat 64 (addrSym.1.eval ν))).1
      _ _ _ : Bytes) = _
    rw [heval₁]
    rfl
  · exact (lowerWrite_exec dst size (htypes.operand haddress) (htypes.operand hvalue)
      (s := ⟨t.env, s.context.memory.denote ν (F bg)⟩) (mem_addresses hmem heval₁)).2

/-! ### Loads -/

/-- **A split load** loads what is at the address, in the code and in the symbolic memory. -/
theorem splitRead_agrees (hdst : dst.Lifted) (hnew : types dst = none)
    (hsplit : SplitsRead S pathConstraints address s) :
    ∃ e s' v, Emulator.run S pathConstraints (.readMemory dst size address) s = .ok (e, s') ∧
      s'.vars dst = some v ∧
      ∃ F, Context.Filling ν s.context.fresh F ∧ ∀ bg,
        s'.context.memory.denote ν bg = s.context.memory.denote ν (F bg) ∧
        v.eval ν = (s.context.memory.denote ν (F bg)).load (address.place t.env) (size / 8) ∧
        (execAll e.insts ⟨t.env, s.context.memory.denote ν (F bg)⟩).env dst =
          (s.context.memory.denote ν (F bg)).load (address.place t.env) (size / 8) ∧
        (execAll e.insts ⟨t.env, s.context.memory.denote ν (F bg)⟩).mem =
          s.context.memory.denote ν (F bg) := by
  obtain ⟨addr, haddr, hseveral⟩ := hsplit
  obtain ⟨hsort, heval⟩ := h.operand haddress haddr
  set addrSym := addr.simplify S with haddrSym
  have heval₁ : addrSym.eval ν = address.eval t.env := (Value.eval_simplify hS ν addr).trans heval
  obtain ⟨ns, hns, hlen, hnodup, hlt, hmem⟩ := hseveral.exists_addresses hS
    ((Value.sort_simplify hS addr).trans hsort) hν
  obtain ⟨n, ns, rfl⟩ := List.exists_cons_of_ne_nil (List.ne_nil_of_mem hmem)
  obtain ⟨hwidth, hpos, _⟩ := size_of_mem hsize
  set s₁ := s.setOperand address addrSym with hs₁
  have hcontext : s₁.context = s.context := Symex.context_setOperand ..
  have henum := (hcontext ▸ hseveral : SeveralAddresses S pathConstraints s₁.context.checks
    addrSym).enumerateAddress address
  rw [hcontext, hns] at henum
  set c₁ : Context := { s.context with
    checks := (possibleValues S pathConstraints s.context.checks addrSym.term).2.2 }
  have hden₁ : Context.Denotes ν σ c₁ t.mem := h.context.checks _
  -- the first address
  obtain ⟨ptr, hptr, hpage, hbase⟩ := calculatePointer_sound hS n
  obtain ⟨hgrow₁, hsize₁, heval₂⟩ := Context.read_sound (hden₁.wf (size / 8)) hbase hpos
  rw [hwidth] at hgrow₁ hsize₁ heval₂
  set first := c₁.read S ptr size
  -- the rest of the addresses
  obtain ⟨res, c₂, hloop, hgrow₂, _, hevalR⟩ := readLoop_sound (p := ⟨addrSym, globalPage⟩) hS hpos ns
    first.1 (c := first.2) (fun m hm => hlt m (List.mem_cons_of_mem _ hm)) (hsize₁.trans hwidth.symm)
    (hgrow₁.wf hden₁.wf _)
  rw [hwidth] at hloop
  obtain ⟨vars, hfinal⟩ := readValues_of_readLoop 1
    (s := Symex.set { s₁ with context := first.2 } (dst.temp 0 1) first.1) hloop
  have hrun : readMemoryIntrinsic S pathConstraints dst size address s =
      .ok (.among ((n :: ns).map (BitVec.ofNat 64)),
        Symex.set ⟨c₂, vars⟩ dst (res.simplify S)) := by
    simp only [readMemoryIntrinsic, haddr, Except.ok_bind, ← haddrSym, ← hs₁, henum, List.map_cons,
      hptr]
    rw [hfinal, Except.ok_bind]
    have haddresses := mapM_asUint64? (n :: ns)
    rw [List.map_cons] at haddresses
    rw [haddresses]
    rfl
  obtain ⟨F, hF, hgrown⟩ := (hgrow₁.trans hgrow₂).exists_filling ν
  refine ⟨_, _, res.simplify S, by simp only [Emulator.run, hrun, Except.ok_bind]; rfl,
    Function.update_self .., F, hF, fun bg => ⟨hgrown bg, ?_, ?_⟩⟩
  · have hplace : address.place t.env = locate (BitVec.ofNat 64 (addrSym.eval ν)) := by
      rw [heval₁]
      rfl
    rw [Value.eval_simplify hS, hevalR ν bg, hplace]
    change (if addrSym.eval ν ∈ ns then _ else _) = _
    split
    · exact congrArg (fun m : Bytes => m.load (locate (BitVec.ofNat 64 (addrSym.eval ν))) (size / 8))
        (hgrown bg)
    · next hnotin =>
      -- what the first address loads is still there at the end
      rw [heval₂ ν (c₂.memory.denote ν bg), hgrow₂.denote_denote, hpage, hgrown bg,
        (List.mem_cons.mp hmem).resolve_right hnotin]
      rfl
  · have havoids : address.Avoids dst := by
      rintro name rfl
      refine ⟨htypes name 64 haddress, ?_⟩
      rintro rfl
      cases hnew.symm.trans haddress
    have hproper : (Resolution.among ((n :: ns).map (BitVec.ofNat 64))).Proper := by
      rw [Resolution.Proper, List.length_map]
      exact hlen
    obtain ⟨hsame, hload⟩ := lowerRead_exec size hdst havoids hproper
      (s := ⟨t.env, s.context.memory.denote ν (F bg)⟩) (mem_addresses hmem heval₁)
    exact ⟨hload, hsame.mem⟩

/-- **Both views of a split access are one access** at the address the term denotes. -/
theorem splitAccesses_agree :
    (∀ dst value, value.width types = some size → SplitsWrite S pathConstraints address s →
      ∃ e s', Emulator.run S pathConstraints (.writeMemory dst size address value) s = .ok (e, s') ∧
        ∃ F, Context.Filling ν s.context.fresh F ∧ ∀ bg,
          s'.context.memory.denote ν bg = (s.context.memory.denote ν (F bg)).store
            (address.place t.env).1 (address.place t.env).2 (size / 8) (value.eval t.env) ∧
          (execAll e.insts ⟨t.env, s.context.memory.denote ν (F bg)⟩).mem =
            (s.context.memory.denote ν (F bg)).store
              (address.place t.env).1 (address.place t.env).2 (size / 8) (value.eval t.env)) ∧
    (∀ dst : Name, dst.Lifted → types dst = none → SplitsRead S pathConstraints address s →
      ∃ e s' v, Emulator.run S pathConstraints (.readMemory dst size address) s = .ok (e, s') ∧
        s'.vars dst = some v ∧
        ∃ F, Context.Filling ν s.context.fresh F ∧ ∀ bg,
          s'.context.memory.denote ν bg = s.context.memory.denote ν (F bg) ∧
          v.eval ν = (s.context.memory.denote ν (F bg)).load (address.place t.env) (size / 8) ∧
          (execAll e.insts ⟨t.env, s.context.memory.denote ν (F bg)⟩).env dst =
            (s.context.memory.denote ν (F bg)).load (address.place t.env) (size / 8) ∧
          (execAll e.insts ⟨t.env, s.context.memory.denote ν (F bg)⟩).mem =
            s.context.memory.denote ν (F bg)) :=
  ⟨fun dst _ hvalue hsplit =>
    splitWrite_agrees hS hν h htypes hsize haddress hvalue hsplit dst,
    fun _ hdst hnew hsplit => splitRead_agrees hS hν h htypes hsize haddress hdst hnew hsplit⟩

end

/-- A solver that always answers lists several values when there are two and few. -/
theorem severalAddresses_of_answers (hS : S.Sound) (hA : S.Answers) (checks : ℕ) {addr : Value}
    (hsort : addr.term.sort = .bv 64) {ν μ : Valuation} (hν : Satisfies ν pathConstraints)
    (hμ : Satisfies μ pathConstraints) (hne : addr.eval ν ≠ addr.eval μ)
    (hfew : ∀ ξ, Satisfies ξ pathConstraints → addr.eval ξ < 19) :
    SeveralAddresses S pathConstraints checks addr := by
  obtain ⟨ns, hns, hnodup, hfeasible, hcomplete⟩ :=
    Vexa.exists_addresses hS hsort pathConstraints checks
  have hsub : ns ⊆ List.range 19 := fun n hn => by
    obtain ⟨-, ξ, hξ, rfl⟩ := hfeasible n hn
    exact List.mem_range.mpr (hfew ξ hξ)
  have hlen : ns.length ≤ 19 := by
    have hle := (hnodup.subperm hsub).length_le
    rwa [List.length_range] at hle
  have hcount : (possibleValues S pathConstraints checks addr.term).1.length = ns.length := by
    rw [hns, List.length_map]
  have hunsat : (possibleValues S pathConstraints checks addr.term).2.1 = .unsat :=
    possibleValues_of_answers hS hA (by rw [hcount]; omega)
  refine ⟨fun hconcrete => hne (Value.eval_of_isConcrete hconcrete ν μ), ?_, hunsat⟩
  rw [hcount]
  match ns, hcomplete hunsat ν hν, hcomplete hunsat μ hμ with
  | [n], hn, hn' => exact absurd ((List.mem_singleton.mp hn).trans (List.mem_singleton.mp hn').symm) hne
  | _ :: _ :: _, _, _ => exact Nat.succ_lt_succ (Nat.succ_pos _)

/-- An address that is zero or one, and a condition that makes it so. -/
def lowAddress : Symex where
  context := .ofBytes (fun _ _ => 0) 0
  vars := fun name => if name = Name.lifted 0 0 then some (.symbolic ⟨.read, 0, 64⟩) else none

def lowTypes : Types Name := fun name => if name = Name.lifted 0 0 then some 64 else none

theorem lowTypes_lifted : LiftedTypes lowTypes := by
  intro name w hname
  rw [lowTypes] at hname
  split at hname
  · next heq => exact heq ▸ rfl
  · cases hname

def lowCondition : Term := .binary .bvUlt (.const ⟨.read, 0, 64⟩) (.value 64 2)

theorem satisfies_lowCondition {n : ℕ} (hn : n < 2) : Satisfies (fun _ => n) [lowCondition] := by
  rw [satisfies_singleton]
  obtain rfl | rfl : n = 0 ∨ n = 1 := by omega
  · decide
  · decide

theorem lowAddress_several {addr : Value} (checks : ℕ) (hsort : addr.term.sort = .bv 64)
    (heval : ∀ ν, Satisfies ν [lowCondition] → addr.eval ν = Value.eval ν (.symbolic ⟨.read, 0, 64⟩)) :
    SeveralAddresses .deciding [lowCondition] checks addr := by
  refine severalAddresses_of_answers Solver.deciding_sound Solver.deciding_answers checks hsort
    (satisfies_lowCondition Nat.zero_lt_two) (satisfies_lowCondition Nat.one_lt_two) ?_ fun ξ hξ => ?_
  · rw [heval _ (satisfies_lowCondition Nat.zero_lt_two),
      heval _ (satisfies_lowCondition Nat.one_lt_two)]
    decide
  · rw [heval ξ hξ]
    have hlt := (satisfies_singleton _ _).mp hξ
    have hone : ((BitVec.ofNat 64 (ξ ⟨.read, 0, 64⟩ % 2 ^ 64)).ult 2).toNat = 1 := hlt
    rw [BitVec.ult_eq_decide, Bool.toNat_eq_one, decide_eq_true_eq] at hone
    have hnat : (BitVec.ofNat 64 (ξ ⟨.read, 0, 64⟩ % 2 ^ 64)).toNat < 2 := hone
    rw [BitVec.toNat_ofNat, Nat.mod_mod] at hnat
    change ξ ⟨.read, 0, 64⟩ % 2 ^ 64 < 19
    omega

/-- The two ranges of eight bytes overlap. -/
theorem splitAccesses_agree_overlapping :
    (∃ e s', Emulator.run .deciding [lowCondition]
        (.writeMemory (Name.lifted 0 1) 64 (.ssa (Name.lifted 0 0)) (.const 64 7)) lowAddress
          = .ok (e, s') ∧
      ∃ F, Context.Filling (fun _ => 1) 0 F ∧ ∀ bg,
        s'.context.memory.denote (fun _ => 1) bg =
          (lowAddress.context.memory.denote (fun _ => 1) (F bg)).store (locate 1).1 (locate 1).2 8 7 ∧
        (execAll e.insts ⟨fun _ => 1, lowAddress.context.memory.denote (fun _ => 1) (F bg)⟩).mem =
          (lowAddress.context.memory.denote (fun _ => 1) (F bg)).store (locate 1).1 (locate 1).2 8 7) := by
  have hsplit : SplitsWrite .deciding [lowCondition] (.ssa (Name.lifted 0 0)) lowAddress := by
    obtain ⟨hsort, heval⟩ := Value.simplifyUnder_sound Solver.deciding_sound [lowCondition] 0
      (.symbolic ⟨.read, 0, 64⟩)
    exact ⟨_, rfl, lowAddress_several _ hsort heval⟩
  have hden : lowAddress.Denotes (fun _ => 1) (fun _ _ => 0) lowTypes ⟨fun _ => 1, fun _ _ => 0⟩ := by
    refine ⟨fun name w hname => ?_, Context.denote_ofBytes _ _ _, Context.ofBytes_wf _ _⟩
    rw [lowTypes] at hname
    split at hname
    · next heq =>
      obtain rfl := Option.some.inj hname
      exact ⟨_, if_pos heq, rfl, rfl⟩
    · cases hname
  exact (splitAccesses_agree Solver.deciding_sound
    (satisfies_lowCondition Nat.one_lt_two) hden lowTypes_lifted (by decide)
    rfl).1 _ (.const 64 7) rfl hsplit

end Vexa
