import Vexa.MemoryInvariant

/-!
# Cells are never lost

A byte of a page that has a cell keeps one. Reads make the cells they miss, writes put new ones over the
old, and a snapshot that is restored was taken after the start: whatever was written before the loop of
`cpu::run` is there in every state of the run, on every path. So a register is never read as a symbol
that was not there from the start.

Neither the solver nor the widths of the code matter here.

## Main definitions

* `Memory.Within` — every cell of the one memory is there in the other
* `Cpu.Retains` — the memory of the path that is followed, and of those that wait

## Main results

* `runBlock_within` — a block that is emulated
* `Cpu.Retains.explores` — every state of a run
-/

namespace Vexa

variable {S : Solver} {pathConstraints : List Term} {m m' m'' : Memory} {ctx ctx' : Context}
  {s s' : Symex} {M : Machine} {c c' c₀ c₁ : Cpu}

/-- Every cell of `m` is there in `m'`. -/
structure Memory.Within (m m' : Memory) : Prop where
  find : ∀ p x, (m' p).find x = none → (m p).find x = none

namespace Memory.Within

theorem refl (m : Memory) : m.Within m := ⟨fun _ _ h => h⟩

theorem trans (h : m.Within m') (h' : m'.Within m'') : m.Within m'' :=
  ⟨fun p x hnone => h.find p x (h'.find p x hnone)⟩

/-- A cell of the smaller memory. -/
theorem exists_find (h : m.Within m') {p : PageId} {x : Addr} {cell : MemCell}
    (hcell : (m p).find x = some cell) : ∃ cell', (m' p).find x = some cell' := by
  cases hfind : (m' p).find x with
  | some cell' => exact ⟨cell', rfl⟩
  | none =>
    rw [h.find p x hfind] at hcell
    cases hcell

end Memory.Within

/-! ### Reads and writes -/

theorem Memory.write_within (m : Memory) (ptr : Pointer) (val : Value) :
    m.Within (m.write S ptr val) := by
  refine ⟨fun p x hnone => ?_⟩
  cases hbase : (ptr.simplify S).asUint64 with
  | none => rwa [Memory.write_of_symbolic hbase] at hnone
  | some base =>
    rw [Memory.find_write hbase] at hnone
    split at hnone
    · cases hnone
    · exact hnone

namespace Context

theorem readByte_within (ctx : Context) (page : PageId) (a : Addr) :
    ctx.memory.Within (ctx.readByte page a).2.memory := by
  refine ⟨fun p x hnone => ?_⟩
  rw [readByte] at hnone
  split at hnone
  · exact hnone
  · by_cases hp : p = page
    · subst hp
      simp only [Function.update_self, MemPage.find_write] at hnone
      split at hnone
      · cases hnone
      · exact hnone
    · simpa only [Function.update_of_ne hp] using hnone

theorem readCells_within (page : PageId) (base : Addr) : ∀ (n : ℕ) (ctx : Context),
    ctx.memory.Within (ctx.readCells page base n).2.memory
  | 0, _ => .refl _
  | n + 1, ctx => (ctx.readByte_within page _).trans (readCells_within page base n _)

theorem read_within (ctx : Context) (ptr : Pointer) (size : ℕ) :
    ctx.memory.Within (ctx.read S ptr size).2.memory := by
  rw [read]
  split
  · exact (ctx.readByte_within ..).trans (readCells_within ..)
  · exact .refl _

end Context

theorem readLoop_within {p : Pointer} {size : ℕ} : ∀ {addresses : List Term} {final : Value}
    {ctx : Context} {r : Value × Context}, readLoop S p size addresses final ctx = .ok r →
    ctx.memory.Within r.2.memory
  | [], final, ctx, r, h => by
    obtain rfl := Except.ok.inj h
    exact .refl _
  | address :: addresses, final, ctx, r, h => by
    simp only [readLoop, Except.bind_eq_ok] at h
    obtain ⟨ptr, _, h⟩ := h
    exact (ctx.read_within ptr size).trans (readLoop_within h)

theorem readMemory_within {p : Pointer} {size : ℕ} {r : Value × Context}
    (h : readMemory S pathConstraints ctx p size = .ok r) : ctx.memory.Within r.2.memory := by
  have hread : ∀ n ptr, ctx.memory.Within (Context.read S { ctx with checks := n } ptr size).2.memory :=
    fun n ptr => Context.read_within { ctx with checks := n } ptr size
  simp only [readMemory] at h
  split at h
  · obtain rfl := Except.ok.inj h
    exact ctx.read_within ..
  split at h
  · simp only [Except.bind_eq_ok, Except.pure_eq_ok] at h
    obtain ⟨ptr, _, rfl⟩ := h
    exact hread ..
  · split at h
    · simp only [Except.bind_eq_ok] at h
      obtain ⟨ptr, _, h⟩ := h
      exact (hread ..).trans (readLoop_within h)
    · obtain rfl := Except.ok.inj h
      exact hread ..
  · obtain rfl := Except.ok.inj h
    exact hread ..

theorem writeLoop_within {p : Pointer} {val : Value} : ∀ {addresses : List Term} {ctx ctx' : Context},
    writeLoop S p val addresses ctx = .ok ctx' → ctx.memory.Within ctx'.memory
  | [], ctx, ctx', h => by
    obtain rfl := Except.ok.inj h
    exact .refl _
  | address :: addresses, ctx, ctx', h => by
    simp only [writeLoop, Except.bind_eq_ok] at h
    obtain ⟨ptr, _, h⟩ := h
    exact ((ctx.read_within ptr _).trans (Memory.write_within ..)).trans (writeLoop_within h)

theorem writeMemory_within {p : Pointer} {val : Value}
    (h : writeMemory S pathConstraints ctx p val = .ok ctx') : ctx.memory.Within ctx'.memory := by
  simp only [writeMemory] at h
  split at h
  · obtain rfl := Except.ok.inj h
    exact Memory.write_within ..
  split at h
  · simp only [Except.bind_eq_ok, Except.pure_eq_ok] at h
    obtain ⟨ptr, _, rfl⟩ := h
    exact Memory.write_within ..
  · split at h
    · have hloop := writeLoop_within h
      exact hloop
    · obtain rfl := Except.ok.inj h
      exact Memory.write_within ..

/-! ### Instructions -/

theorem visitLoad_within {dst : Name} {w : ℕ} {ptr : Ptr Name}
    (h : visitLoad S pathConstraints dst w ptr s = .ok s') :
    s.context.memory.Within s'.context.memory := by
  simp only [visitLoad, Except.bind_eq_ok, Except.pure_eq_ok] at h
  obtain ⟨p, _, r, hread, rfl⟩ := h
  exact readMemory_within hread

theorem visitStore_within {value : Operand Name} {ptr : Ptr Name}
    (h : visitStore S pathConstraints value ptr s = .ok s') :
    s.context.memory.Within s'.context.memory := by
  simp only [visitStore, Except.bind_eq_ok, Except.pure_eq_ok] at h
  obtain ⟨p, _, v, _, ctx', hwrite, rfl⟩ := h
  exact writeMemory_within hwrite

theorem visit_within {i : Inst Name} (h : visit S pathConstraints i s = .ok s') :
    s.context.memory.Within s'.context.memory := by
  cases i with
  | load dst w ptr => exact visitLoad_within h
  | store w value ptr => exact visitStore_within h
  | cast dst op src w a =>
    cases op <;>
    · simp only [visit, Except.bind_eq_ok, Except.pure_eq_ok] at h
      obtain ⟨v, _, _, _, rfl⟩ := h
      exact .refl _
  | binary dst op w a b | icmp dst p w a b =>
    simp only [visit, Except.bind_eq_ok, Except.pure_eq_ok] at h
    obtain ⟨v, _, v', _, rfl⟩ := h
    exact .refl _
  | select dst w a b b' =>
    simp only [visit, Except.bind_eq_ok, Except.pure_eq_ok] at h
    obtain ⟨v, _, v', _, v'', _, rfl⟩ := h
    exact .refl _
  | freeze dst w a =>
    simp only [visit, Except.bind_eq_ok, Except.pure_eq_ok] at h
    obtain ⟨v, _, rfl⟩ := h
    exact .refl _
  | readMemory | writeMemory =>
    obtain rfl := Except.ok.inj h
    exact .refl _
  | _ => cases h

/-! ### The intrinsics -/

/-- The memory stays. -/
theorem enumerateAddress_memory (address : Operand Name) (addr : Value) (s : Symex) :
    (enumerateAddress S pathConstraints address addr s).2.context.memory = s.context.memory := by
  rw [enumerateAddress]
  split
  · rfl
  simp only
  split
  · rfl
  split
  · rw [Symex.context_setOperand]
  · rfl

theorem valueToPointer_memory {address : Operand Name} {r : Resolution × Symex}
    (h : valueToPointer S pathConstraints address s = .ok r) :
    r.2.context.memory = s.context.memory := by
  simp only [valueToPointer, Except.bind_eq_ok] at h
  obtain ⟨v, _, h⟩ := h
  split at h
  · simp only [Except.bind_eq_ok, Except.pure_eq_ok] at h
    obtain ⟨a, _, rfl⟩ := h
    rw [Symex.context_setOperand]
  · split at h
    · simp only [Except.bind_eq_ok, Except.pure_eq_ok] at h
      obtain ⟨a, _, rfl⟩ := h
      simp only [Symex.context_setOperand]
    · obtain rfl := Except.ok.inj h
      simp only [Symex.context_setOperand]

theorem readValues_within {dst : Name} {size : ℕ} {addr : Value} : ∀ {values : List Term} {j : ℕ}
    {final : Value} {s : Symex} {r : Value × Symex},
    readValues S dst size addr j values final s = .ok r → s.context.memory.Within r.2.context.memory
  | [], j, final, s, r, h => by
    obtain rfl := Except.ok.inj h
    exact .refl _
  | value :: values, j, final, s, r, h => by
    simp only [readValues, Except.bind_eq_ok] at h
    obtain ⟨ptr, _, h⟩ := h
    exact (s.context.read_within ptr size).trans (readValues_within h)

theorem writeValues_within {addr val : Value} : ∀ {values : List Term} {ctx ctx' : Context},
    writeValues S addr val values ctx = .ok ctx' → ctx.memory.Within ctx'.memory
  | [], ctx, ctx', h => by
    obtain rfl := Except.ok.inj h
    exact .refl _
  | value :: values, ctx, ctx', h => by
    simp only [writeValues, Except.bind_eq_ok] at h
    obtain ⟨ptr, _, h⟩ := h
    exact ((ctx.read_within ptr _).trans (Memory.write_within ..)).trans (writeValues_within h)

theorem readMemoryIntrinsic_within {dst : Name} {size : ℕ} {address : Operand Name}
    {r : Resolution × Symex} (h : readMemoryIntrinsic S pathConstraints dst size address s = .ok r) :
    s.context.memory.Within r.2.context.memory := by
  simp only [readMemoryIntrinsic, Except.bind_eq_ok] at h
  obtain ⟨addr, _, h⟩ := h
  have hmemory : (enumerateAddress S pathConstraints address (addr.simplify S)
      (s.setOperand address (addr.simplify S))).2.context.memory = s.context.memory := by
    rw [enumerateAddress_memory, Symex.context_setOperand]
  split at h
  · next s₁ henum =>
    rw [henum] at hmemory
    obtain rfl := Except.ok.inj h
    exact hmemory ▸ .refl _
  · next value values s₁ henum =>
    rw [henum] at hmemory
    simp only [Except.bind_eq_ok, Except.pure_eq_ok] at h
    obtain ⟨ptr, _, final, hfinal, addresses, _, rfl⟩ := h
    exact hmemory ▸ (s₁.context.read_within ptr size).trans (readValues_within hfinal)
  · next s₁ henum =>
    rw [henum] at hmemory
    simp only [Except.bind_eq_ok, Except.pure_eq_ok] at h
    obtain ⟨ptr, hptr, s₂, hload, rfl⟩ := h
    rw [← hmemory, ← valueToPointer_memory hptr]
    exact visitLoad_within hload

theorem writeMemoryIntrinsic_within {size : ℕ} {address value : Operand Name} {r : Resolution × Symex}
    (h : writeMemoryIntrinsic S pathConstraints size address value s = .ok r) :
    s.context.memory.Within r.2.context.memory := by
  simp only [writeMemoryIntrinsic, Except.bind_eq_ok] at h
  obtain ⟨addr, _, h⟩ := h
  have hmemory : (enumerateAddress S pathConstraints address
      (addr.simplifyUnder S pathConstraints s.context.checks).1
      ({ s with
        context.checks := (addr.simplifyUnder S pathConstraints s.context.checks).2 }.setOperand address
        (addr.simplify S))).2.context.memory = s.context.memory := by
    rw [enumerateAddress_memory, Symex.context_setOperand]
  split at h
  · next values s₁ henum =>
    rw [henum] at hmemory
    simp only [Except.bind_eq_ok, Except.pure_eq_ok] at h
    obtain ⟨val, _, _, _, ctx', hloop, addresses, _, rfl⟩ := h
    exact hmemory ▸ writeValues_within hloop
  · next s₁ henum =>
    rw [henum] at hmemory
    simp only [Except.bind_eq_ok, Except.pure_eq_ok] at h
    obtain ⟨ptr, hptr, val, _, _, _, s₂, hstore, rfl⟩ := h
    rw [← hmemory, ← valueToPointer_memory hptr]
    exact visitStore_within hstore

/-- **A block that is emulated.** -/
theorem runBlock_within : ∀ {insts : List (Inst Name)} {s : Symex} {r : Emitted × Symex},
    runBlock S pathConstraints insts s = .ok r → s.context.memory.Within r.2.context.memory
  | [], s, r, h => by
    obtain rfl := Except.ok.inj h
    exact .refl _
  | i :: insts, s, r, h => by
    rw [runBlock] at h
    split at h
    · simp only [Except.bind_eq_ok, Except.pure_eq_ok] at h
      obtain ⟨rest, hrest, rfl⟩ := h
      have hwithin := runBlock_within hrest
      exact hwithin
    simp only [Except.bind_eq_ok, Except.pure_eq_ok] at h
    obtain ⟨first, hfirst, rest, hrest, rfl⟩ := h
    have hinst : s.context.memory.Within first.2.context.memory := by
      cases i with
      | readMemory dst size a =>
        simp only [Emulator.run, Except.bind_eq_ok, Except.pure_eq_ok] at hfirst
        obtain ⟨read, hread, rfl⟩ := hfirst
        exact readMemoryIntrinsic_within hread
      | writeMemory dst size a v =>
        simp only [Emulator.run, Except.bind_eq_ok, Except.pure_eq_ok] at hfirst
        obtain ⟨write, hwrite, rfl⟩ := hfirst
        exact writeMemoryIntrinsic_within hwrite
      | _ =>
        simp only [Emulator.run, Except.bind_eq_ok, Except.pure_eq_ok] at hfirst
        obtain ⟨s', hvisit, rfl⟩ := hfirst
        exact visit_within hvisit
    have hwithin := runBlock_within hrest
    exact hinst.trans hwithin

/-! ### The steps of the cpu -/

/-- The cells of `m` are there on the path that is followed and on those that wait. -/
structure Cpu.Retains (m : Memory) (c : Cpu) : Prop where
  current : m.Within c.symex.context.memory
  pending : ∀ ss ∈ c.unexploredPaths, m.Within ss.memory

namespace Cpu.Retains

/-- A state with the same memory and the same pending paths. -/
theorem of_eq (h : c.Retains m) (hmemory : c'.symex.context.memory = c.symex.context.memory)
    (hpaths : c'.unexploredPaths = c.unexploredPaths) : c'.Retains m :=
  ⟨hmemory ▸ h.current, hpaths ▸ h.pending⟩

/-- A state with a larger memory and the same pending paths. -/
theorem of_within (h : c.Retains m) (hwithin : c.symex.context.memory.Within c'.symex.context.memory)
    (hpaths : c'.unexploredPaths = c.unexploredPaths) : c'.Retains m :=
  ⟨h.current.trans hwithin, hpaths ▸ h.pending⟩

theorem exec (h : c.Retains m) {i : Inst Name} (hexec : c.exec M i = .ok c') : c'.Retains m := by
  obtain ⟨s, hvisit, rfl⟩ := Cpu.exec_eq hexec
  exact h.of_within (visit_within hvisit) rfl

end Cpu.Retains

theorem solveRegister_within {A : List Term} (r : Register) (ctx : Context) :
    ctx.memory.Within (Cpu.solveRegister M A ctx r).memory := by
  have hread : ctx.memory.Within (Cpu.readRegister M r ctx).2.memory := ctx.read_within ..
  rw [Cpu.solveRegister]
  split
  · exact .refl _
  simp only
  split
  · rw [Cpu.writeRegister, Context.memory_write]
    exact hread.trans (Memory.write_within ..)
  · exact hread

theorem solveRegisters_within {A : List Term} : ∀ (rs : List Register) (ctx : Context),
    ctx.memory.Within (rs.foldl (Cpu.solveRegister M A) ctx).memory
  | [], _ => .refl _
  | r :: rs, ctx => (solveRegister_within r ctx).trans (solveRegisters_within rs _)

theorem materialize_retains {side : ℕ} : ∀ {wrappers : List (Inst Name)} {value : Operand Name} {c : Cpu}
    {r : Operand Name × Cpu}, c.Retains m → materialize M side wrappers value c = .ok r → r.2.Retains m
  | [], value, c, r, hc, h => by
    obtain rfl := Except.ok.inj h
    exact hc
  | wrapper :: wrappers, value, c, r, hc, h => by
    simp only [materialize, Except.bind_eq_ok] at h
    obtain ⟨c₁, hexec, h⟩ := h
    exact materialize_retains (hc.exec hexec) h

theorem handleConditionalMoves_retains (hc : c.Retains m) {inst : Instruction}
    (h : handleConditionalMoves M inst c = .ok c') : c'.Retains m := by
  rw [handleConditionalMoves] at h
  split at h
  · cases h
  next move _ =>
  simp only [Except.bind_eq_ok] at h
  obtain ⟨cond, _, ⟨trueVal, c₁⟩, htrue, ⟨falseVal, c₂⟩, hfalse, ⟨verdict, v⟩, _, h⟩ := h
  have hc₂ : c₂.Retains m := materialize_retains (materialize_retains hc htrue) hfalse
  cases verdict with
  | some result =>
    have hdelete : (c₂.deleteLater c.block move.position).Retains m := hc₂.of_eq rfl rfl
    exact hdelete.exec h
  | none =>
    simp only [forkMove, Except.bind_eq_ok, Except.pure_eq_ok] at h
    obtain ⟨c₃, h₃, c₄, h₄, rfl⟩ := h
    set forked := ((c₂.basicBlock none).basicBlock none).create
      (.condBr move.condition c₂.numBlocks (c₂.basicBlock none).numBlocks)
    have hforked : (forked.setInsertPoint (c₂.basicBlock none).numBlocks).Retains m := hc₂.of_eq rfl rfl
    have hc₃ : c₃.Retains m := hforked.exec h₃
    -- the side that waits has the cells of its store, the other starts from the memory before
    have hrestored : Cpu.Retains m (Cpu.setInsertPoint (Cpu.restoreSnapshot { c₃ with
        unexploredPaths := c₃.takeSnapshot inst.nextPc (c₂.basicBlock none).numBlocks ::
          c₃.unexploredPaths } (c₂.takeSnapshot c₂.pc c.block)) c₂.numBlocks) :=
      ⟨hc₂.current, List.forall_mem_cons.mpr ⟨hc₃.current, hc₃.pending⟩⟩
    exact (hrestored.exec h₄).of_eq rfl rfl

theorem forkPath_retains (hc : c.Retains m) (condition : DualValue) (jumpPc fallthroughPc : Addr) :
    (forkPath M condition jumpPc fallthroughPc c).Retains m := by
  have hsolve : ∀ (A : List Term) {ctx : Context}, ctx.memory = c.symex.context.memory →
      m.Within (M.registers.foldl (Cpu.solveRegister M A) ctx).memory := fun A ctx hctx =>
    (hctx ▸ hc.current).trans (solveRegisters_within M.registers ctx)
  exact ⟨hsolve _ rfl, List.forall_mem_cons.mpr ⟨hsolve _ rfl, hc.pending⟩⟩

theorem branching_retains (hc : c.Retains m) {condition : DualValue} {jumpPc fallthroughPc : Addr}
    (h : branching M condition jumpPc fallthroughPc c = .ok c') : c'.Retains m := by
  rcases branching_cases h with ⟨v, taken, _, _, rfl⟩ | ⟨v, _, rfl⟩
  · exact hc.of_eq rfl rfl
  · exact forkPath_retains hc _ _ _

theorem getCondition_retains (hc : c.Retains m) {r : DualValue × Cpu} (h : getCondition M c = .ok r) :
    r.2.Retains m := by
  obtain ⟨_, _, _, hexec, _⟩ := getCondition_eq h
  exact hc.exec hexec

theorem indirectJump_retains (hc : c.Retains m) {r : Outcome × Cpu} (h : indirectJump M c = .ok r) :
    r.2.Retains m := by
  obtain ⟨next, _, hcases⟩ := indirectJump_cases h
  have hrewrite : (c.rewriteTarget M next).Retains m :=
    hc.of_eq (congrArg Context.memory (Symex.context_setOperand ..)) rfl
  have henum : (c.enumerateTarget M next).Retains m := hrewrite.of_eq rfl rfl
  rcases hcases with ⟨target, _, _, rfl⟩ | ⟨_, ⟨addr, target, _, _, rfl⟩ |
    ⟨front, back, jumpPc, fallthroughPc, c₁, cond, c₂, _, _, _, hexec, _, hbranch, rfl⟩ |
    ⟨_, _, rfl⟩⟩
  · exact hrewrite.of_eq rfl rfl
  · exact henum.of_eq rfl rfl
  · have htargets : ((c.enumerateTarget M next).setTargets [jumpPc, fallthroughPc]).Retains m :=
      henum.of_eq rfl rfl
    exact branching_retains (htargets.exec hexec) hbranch
  · exact henum

theorem controlFlow_retains (hc : c.Retains m) {inst : Instruction} {r : Outcome × Cpu}
    (h : controlFlow M inst c = .ok r) : r.2.Retains m := by
  rcases controlFlow_cases h with ⟨_, ⟨cond, c₁⟩, c₂, hcond, hbranch, rfl⟩ | ⟨_, rfl⟩ | ⟨_, hjump⟩ |
    ⟨_, _, c₁, hmove, rfl⟩ | ⟨_, _, rfl⟩
  · exact branching_retains (getCondition_retains hc hcond) hbranch
  · exact hc.of_eq rfl rfl
  · exact indirectJump_retains hc hjump
  · exact (handleConditionalMoves_retains hc hmove).of_eq rfl rfl
  · exact hc.of_eq rfl rfl

theorem Cpu.Retains.opens (hc : c.Retains m) (h : c.Opens M c₁) : c₁.Retains m :=
  hc.of_within (visit_within h.symex) h.unexploredPaths

theorem Cpu.Retains.emulates {semantics : Semantics} {c₂ : Cpu} (hc : c.Retains m) (hopens : c.Opens M c₁)
    (h : c.Emulates M semantics c₁ c₂) : (saveBlock M c₂).Retains m := by
  obtain ⟨rs, code, hrun, _⟩ := h.run
  obtain ⟨hsymex, _, _, hpaths⟩ := saveBlock_symex (M := M) c₂
  refine (hc.opens hopens).of_within ?_ ?_
  · rw [hsymex]
    exact runBlock_within hrun
  · rw [hpaths, h.unexploredPaths, hopens.unexploredPaths]

theorem liftInstruction_retains (hlt : c.insertPoint < c.numBlocks) (hc : c.Retains m) {inst : Instruction}
    {r : Outcome × Cpu} (h : liftInstruction M inst c = .ok r) : r.2.Retains m := by
  obtain ⟨c₁, hopens, hrest⟩ := liftInstruction_block hlt h
  rcases hrest with ⟨_, rfl⟩ | ⟨semantics, c₂, _, hemulates, hflow⟩
  · exact (hc.opens hopens).of_eq rfl rfl
  · exact controlFlow_retains (hc.emulates hopens hemulates) hflow

/-- **One call of `process_instruction`.** -/
theorem processInstruction_retains (hlt : c.insertPoint < c.numBlocks) (hc : c.Retains m)
    {outcome : Outcome} (h : processInstruction M c = .ok (outcome, c')) : c'.Retains m := by
  rcases processInstruction_cases h with ⟨_, _, rfl⟩ | ⟨_, target, _, hrec⟩ |
    ⟨_, c₁, hrec, ⟨_, rfl⟩ | ⟨inst, _, hlift⟩⟩
  · exact hc
  · obtain ⟨hsymex, hpaths, _⟩ := cfgRecovery_symex hrec
    exact hc.of_eq (by rw [hsymex]) hpaths
  · obtain ⟨hsymex, hpaths, _⟩ := cfgRecovery_symex hrec
    exact hc.of_eq (by rw [hsymex]) hpaths
  · obtain ⟨hsymex, hpaths, hinsert, hblocks⟩ := cfgRecovery_symex hrec
    refine liftInstruction_retains ?_ (hc.of_eq (by rw [hsymex]) hpaths) hlift
    rwa [hinsert, hblocks]

/-- **Every state of a run**, by induction on the run: going on from a path that waits restores a memory
that has the cells as well. -/
theorem Cpu.Retains.explores (h₀ : c₀.Retains m) (hbuilt₀ : Built c₀ (c₀.insertPoint :: c₀.pendingBlocks))
    (hmaps₀ : c₀.MapsBuilt) {calls : List Cpu} {ended : List PathEnd}
    (h : Explores M c₀ calls ended c) : c.Retains m := by
  induction h with
  | start => exact h₀
  | successful hexplores hcall hstatus ih =>
    have hlt := (Built.explores hbuilt₀ hmaps₀ hexplores).2.lt _ (List.mem_cons_self ..)
    exact processInstruction_retains hlt ih hcall
  | explore hexplores hcall hstatus hpaths ih =>
    have hlt := (Built.explores hbuilt₀ hmaps₀ hexplores).2.lt _ (List.mem_cons_self ..)
    have hc' := processInstruction_retains hlt ih hcall
    rename_i outcome before after path
    have hpath : ∀ ss ∈ before ++ path :: after, m.Within ss.memory := hpaths ▸ hc'.pending
    refine ⟨hpath path (by simp), fun ss hss => hpath ss ?_⟩
    rcases List.mem_append.mp hss with hss | hss
    · exact List.mem_append_left _ hss
    · exact List.mem_append_right _ (List.mem_cons_of_mem _ hss)

end Vexa
