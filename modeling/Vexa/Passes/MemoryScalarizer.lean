import Vexa.Passes.Function

/-!
# `memory_scalarizer`

Loads and stores of `alloca`s that are wider than a byte are replaced by one access for each byte: a
store by shifts and truncations, a load by extensions and shifts that are or-ed together.

The bytes are addressed by a `getelementptr` with an index of type `i8`, which LLVM sign-extends. Byte
128 of a value is therefore looked for 128 bytes *before* it, and the pass is right for the types of up
to 128 bytes and for no wider one.

## Main definitions

* `scalarizeInst`, `PassFunction.scalarize` — the pass
* `Scalarizes` — the states of the function before and after it

## Main results

* `runAll_scalarizeStore`, `runAll_scalarizeLoad` — what the emitted code does, for any width
* `scalarize_exact_iff`
-/

namespace Vexa

open PassInst LittleEndian

variable {N : Type}

/-! ### The pass -/

/-- `is_alloca`. -/
def PassPtr.isAlloca (p : PassPtr N) : Bool :=
  match p.region with
  | .alloca _ => true
  | .state | .memory => false

/-- `uint8_t size_in_bytes`. -/
def sizeInBytes (width : ℕ) : ℕ := typeStoreSize width % 2 ^ 8

/-- `CreateInBoundsGEP(getInt8Ty(), pointer_operand, getInt8(i))`. -/
def PassPtr.byteAt (p : PassPtr N) (i : ℕ) : PassPtr N := .gep int8Type p [⟨1, 8, .const 8 i⟩]

section

variable (block : BlockId) (index : ℕ)

/-- The code for byte `i` of a store. -/
def scalarizeStoreByte (width : ℕ) (value : Operand (PassName N)) (ptr : PassPtr (PassName N))
    (i : ℕ) : List (PassInst (PassName N)) :=
  if i = 0 then
    [.cast (.temp block index i 1) .trunc width 8 value, .store 8 (.ssa (.temp block index i 1)) ptr]
  else
    [.binary (.temp block index i 0) .lshr width value (.const (sizeInBytes width * 8) (i * 8)),
      .cast (.temp block index i 1) .trunc width 8 (.ssa (.temp block index i 0)),
      .store 8 (.ssa (.temp block index i 1)) (ptr.byteAt i)]

/-- The name of `value` after byte `i` of a load. The last one takes the place of the load. -/
def partialValue (width : ℕ) (dst : N) (i : ℕ) : PassName N :=
  if i + 1 = sizeInBytes width then .old dst else .temp block index i 3

/-- The code for byte `i` of a load. -/
def scalarizeLoadByte (width : ℕ) (dst : N) (ptr : PassPtr (PassName N)) (i : ℕ) :
    List (PassInst (PassName N)) :=
  if i = 0 then
    [.load (.temp block index i 0) 8 ptr,
      .cast (partialValue block index width dst i) .zext 8 width (.ssa (.temp block index i 0))]
  else
    [.load (.temp block index i 0) 8 (ptr.byteAt i),
      .cast (.temp block index i 1) .zext 8 width (.ssa (.temp block index i 0)),
      .binary (.temp block index i 2) .shl width (.ssa (.temp block index i 1))
        (.const (sizeInBytes width * 8) (i * 8)),
      .binary (partialValue block index width dst i) .or width
        (.ssa (partialValue block index width dst (i - 1))) (.ssa (.temp block index i 2))]

/-- What the pass makes of an instruction. -/
def scalarizeInst (i : PassInst N) : List (PassInst (PassName N)) :=
  match i with
  | .store width value ptr =>
    if typeStoreSize width ≤ 1 ∨ ¬ ptr.isAlloca = true then [i.map .old]
    else (List.range (sizeInBytes width)).flatMap
      (scalarizeStoreByte block index width (value.map .old) (ptr.map .old))
  | .load dst width ptr =>
    if typeStoreSize width ≤ 1 ∨ ¬ ptr.isAlloca = true then [i.map .old]
    else (List.range (sizeInBytes width)).flatMap
      (scalarizeLoadByte block index width dst (ptr.map .old))
  | i => [i.map .old]

end

def PassBlock.scalarize (block : BlockId) (b : PassBlock N) : PassBlock (PassName N) where
  insts := b.insts.zipIdx.flatMap fun (i, index) => scalarizeInst block index i
  terminator := b.terminator.map .old

/-- `memory_scalarizer::run`. -/
def PassFunction.scalarize (f : PassFunction N) : PassFunction (PassName N) where
  order := f.order
  block b := (f.block b).scalarize b
  nodup := f.nodup
  nonempty := f.nonempty
  closed b hb c hc := f.closed b hb c (by rwa [PassBlock.scalarize, Terminator.successors_map] at hc)

/-! ### States before and after -/

/-- A state of the function after the pass: the same memory, and the same values under the old names. -/
structure Scalarizes (t : PassState (PassName N)) (s : PassState N) : Prop where
  mem : t.mem = s.mem
  env : ∀ name, t.env (.old name) = s.env name

section

variable [DecidableEq N] {t : PassState (PassName N)} {s : PassState N}

theorem Scalarizes.set (h : Scalarizes t s) (dst : N) (n : ℕ) :
    Scalarizes (t.set (.old dst) n) (s.set dst n) where
  mem := h.mem
  env name := by
    by_cases hname : name = dst
    · subst hname
      rw [PassState.env_set, PassState.env_set, Function.update_self, Function.update_self]
    · have hne : PassName.old name ≠ .old dst := fun heq => hname (PassName.old.inj heq)
      rw [PassState.env_set, PassState.env_set, Function.update_of_ne hne,
        Function.update_of_ne hname, h.env]

omit [DecidableEq N] in
theorem Scalarizes.store (h : Scalarizes t s) (r : PassRegion) (a : Addr) (k n : ℕ) :
    Scalarizes (t.store r a k n) (s.store r a k n) where
  mem := by rw [PassState.store, PassState.store, h.mem]
  env := h.env

/-- An instruction the pass leaves. -/
theorem Scalarizes.exec_map (h : Scalarizes t s) (i : PassInst N) :
    Scalarizes ((i.map .old).exec t) (i.exec s) := by
  cases i with
  | binary dst op w a b =>
    rw [PassInst.map, exec, exec, Operand.eval_map h.env, Operand.eval_map h.env]
    exact h.set dst _
  | cast dst op src w a =>
    rw [PassInst.map, exec, exec, Operand.eval_map h.env]
    exact h.set dst _
  | other dst args compute =>
    have hargs : (args.map (Operand.map .old)).map (fun a => a.eval t.env)
        = args.map fun a => a.eval s.env := by
      rw [List.map_map]
      exact List.map_congr_left fun a _ => Operand.eval_map h.env a
    rw [PassInst.map, exec, exec, hargs]
    exact h.set dst _
  | load dst w ptr =>
    rw [PassInst.map, exec, exec, PassPtr.region_map, PassPtr.offset_map h.env, h.mem]
    exact h.set dst _
  | store w a ptr =>
    rw [PassInst.map, exec, exec, PassPtr.region_map, PassPtr.offset_map h.env,
      Operand.eval_map h.env]
    exact h.store ..

theorem Scalarizes.runAll_map (h : Scalarizes t s) (i : PassInst N) :
    Scalarizes (runAll [i.map .old] t).2 (i.exec s) := h.exec_map i

/-! ### The emitted code -/

/-- Where the `getelementptr` looks for byte `i`. -/
def byteIndex (i : ℕ) : Addr := (BitVec.ofNat 8 i).signExtend 64

omit [DecidableEq N] in
theorem PassPtr.offset_byteAt (p : PassPtr N) (env : N → ℕ) (i : ℕ) :
    (p.byteAt i).offset env = p.offset env + byteIndex i := by
  have hscale : GepIndex.scale (N := N) ⟨1, 8, .const 8 i⟩ (i % 2 ^ 8) = byteIndex i := by
    rw [GepIndex.scale, byteIndex, show BitVec.ofNat 8 (i % 2 ^ 8) = BitVec.ofNat 8 i by
      apply BitVec.eq_of_toNat_eq; simp]
    exact BitVec.one_mul _
  rw [byteAt, offset, gepOffset, List.map_singleton, List.sum_singleton]
  exact congrArg _ hscale

theorem byteIndex_zero : byteIndex 0 = 0 := rfl

/-- The first 128 bytes are where they should be. -/
theorem byteIndex_of_lt {i : ℕ} (hi : i < 128) : byteIndex i = BitVec.ofNat 64 i := by
  have hmsb : (BitVec.ofNat 8 i).msb = false := by
    rw [BitVec.msb_eq_decide, BitVec.toNat_ofNat]
    simp only [Nat.reduceSub, decide_eq_false_iff_not, not_le]
    omega
  rw [byteIndex, BitVec.signExtend_eq_setWidth_of_msb_false hmsb]
  apply BitVec.eq_of_toNat_eq
  rw [BitVec.toNat_setWidth, BitVec.toNat_ofNat, BitVec.toNat_ofNat]
  omega

/-- Nothing is addressed at byte 128. -/
theorem byteIndex_ne (i : ℕ) : byteIndex i ≠ BitVec.ofNat 64 128 := by
  have hall : ∀ x : BitVec 8, x.signExtend 64 ≠ BitVec.ofNat 64 128 := by decide
  exact hall _

variable {block : BlockId} {index width i : ℕ} {env : N → ℕ}

omit [DecidableEq N] in
theorem shift_eval (hw : width = 8 * sizeInBytes width) (hi : i < sizeInBytes width)
    (env : PassName N → ℕ) :
    (BitVec.ofNat width ((Operand.const (sizeInBytes width * 8) (i * 8)).eval env)).toNat = 8 * i := by
  have hlt : i * 8 < 2 ^ (8 * sizeInBytes width) := by
    have := Nat.lt_two_pow_self (n := 8 * sizeInBytes width)
    omega
  rw [← hw] at hlt
  rw [Operand.eval, Nat.mul_comm (sizeInBytes width), ← hw, Nat.mod_eq_of_lt hlt, BitVec.toNat_ofNat,
    Nat.mod_eq_of_lt hlt, Nat.mul_comm]

omit [DecidableEq N] in
/-- The names of before the pass do not see the values of the emitted code. -/
theorem env_update_temp {env' : PassName N → ℕ} [DecidableEq (PassName N)]
    (h : ∀ name, env' (.old name) = env name) (block : BlockId) (index byte part n : ℕ) (name : N) :
    Function.update env' (.temp block index byte part) n (.old name) = env name := by
  have hne : PassName.old name ≠ .temp block index byte part := nofun
  rw [Function.update_of_ne hne, h]

omit [DecidableEq N] in
@[simp] theorem PassPtr.region_byteAt (p : PassPtr N) (i : ℕ) : (p.byteAt i).region = p.region := rfl

omit [DecidableEq N] in
/-- A byte that is written is the low byte of the number. -/
theorem PassState.mem_store_one (s : PassState N) (r : PassRegion) (a : Addr) {x y : ℕ}
    (h : x % 256 = y % 256) : (s.store r a 1 x).mem = (s.store r a 1 y).mem := by
  rw [PassState.store, PassState.store, ← ByteMemory.store_mod _ _ _ x, pow_one, h,
    ← ByteMemory.store_mod _ _ _ y, pow_one]

omit [DecidableEq N] in
/-- Byte `i` of a value, shifted down. -/
theorem lshr_eval (hw : width = 8 * sizeInBytes width) (hi : i < sizeInBytes width) (x : ℕ)
    (env : PassName N → ℕ) :
    Opcode.lshr.eval width x ((Operand.const (sizeInBytes width * 8) (i * 8)).eval env)
      = x % 2 ^ width / 256 ^ i := by
  simp only [Opcode.eval]
  rw [BitVec.ushiftRight_eq', shift_eval hw hi, BitVec.toNat_ushiftRight, BitVec.toNat_ofNat,
    Nat.shiftRight_eq_div_pow, two_pow_eight_mul]

/-- **Byte `i` of a store.** -/
theorem runAll_scalarizeStoreByte (hw : width = 8 * sizeInBytes width) (hi : i < sizeInBytes width)
    (henv : ∀ name, t.env (.old name) = env name) (value : Operand N) (ptr : PassPtr N) :
    (runAll (scalarizeStoreByte block index width (value.map .old) (ptr.map .old) i) t).2.mem
        = (t.store ptr.region (ptr.offset env + byteIndex i) 1
            (value.eval env % 2 ^ width / 256 ^ i)).mem ∧
      ∀ name, (runAll (scalarizeStoreByte block index width (value.map .old) (ptr.map .old) i)
        t).2.env (.old name) = env name := by
  rw [scalarizeStoreByte]
  split
  · next h0 =>
    subst h0
    have htemp := env_update_temp henv block index 0 1
    have hdvd : 256 ∣ 2 ^ width := by
      rw [hw, two_pow_eight_mul]
      exact dvd_pow_self 256 (Nat.ne_of_gt hi)
    simp only [runAll_cons, runAll_nil, exec, PassState.env_set, Operand.eval_map henv,
      PassPtr.region_map, PassPtr.offset_map (htemp _), PassState.env_store, Operand.eval_ssa,
      Function.update_self, CastOp.eval, byteIndex_zero, add_zero, pow_zero, Nat.div_one]
    refine ⟨PassState.mem_store_one _ _ _ ?_, htemp _⟩
    rw [Nat.mod_mod_of_dvd _ hdvd]
    omega
  · next h0 =>
    have hshift := env_update_temp henv block index i 0
    have htemp := fun n m => env_update_temp (hshift n) block index i 1 m
    simp only [runAll_cons, runAll_nil, exec, PassState.env_set, Operand.eval_map henv,
      PassPtr.region_byteAt, PassPtr.region_map, PassPtr.offset_byteAt, PassPtr.offset_map (htemp _ _),
      PassState.env_store, lshr_eval hw hi]
    refine ⟨PassState.mem_store_one _ _ _ ?_, htemp _ _⟩
    simp only [Operand.eval_ssa, Function.update_self, CastOp.eval]
    omega

/-- **A store**: the low bytes of the value, one after the other, each where the `getelementptr` looks. -/
theorem runAll_scalarizeStore (block : BlockId) (index : ℕ) (hw : width = 8 * sizeInBytes width)
    (henv : ∀ name, t.env (.old name) = env name) (value : Operand N) (ptr : PassPtr N) :
    ∀ k ≤ sizeInBytes width,
      (runAll ((List.range k).flatMap
        (scalarizeStoreByte block index width (value.map .old) (ptr.map .old))) t).2.mem
          = Function.update t.mem ptr.region ((List.range k).foldl (fun m i =>
              ByteMemory.store m (ptr.offset env + byteIndex i) 1
                (value.eval env % 2 ^ width / 256 ^ i)) (t.mem ptr.region)) ∧
      ∀ name, (runAll ((List.range k).flatMap
        (scalarizeStoreByte block index width (value.map .old) (ptr.map .old))) t).2.env (.old name)
          = env name := by
  intro k
  induction k with
  | zero => exact fun _ => ⟨(Function.update_eq_self ..).symm, henv⟩
  | succ k ih =>
    intro hk
    obtain ⟨hmem, hold⟩ := ih (Nat.le_of_succ_le hk)
    rw [List.range_succ, List.flatMap_append, List.flatMap_singleton, runAll_append,
      List.foldl_append, List.foldl_cons, List.foldl_nil]
    obtain ⟨hmem', hold'⟩ := runAll_scalarizeStoreByte hw hk hold value ptr
    refine ⟨?_, hold'⟩
    rw [hmem', PassState.store, hmem]
    simp only [Function.update_self, Function.update_idem]

/-- The first `k` bytes of a load, each from where the `getelementptr` looks. -/
def partialLoad (m : ByteMemory.Memory 64) (a : Addr) (k : ℕ) : ℕ :=
  ofBytes ((List.range k).map fun i => m (a + byteIndex i))

omit [DecidableEq N] in
theorem partialLoad_lt (m : ByteMemory.Memory 64) (a : Addr) (k : ℕ) : partialLoad m a k < 256 ^ k := by
  simpa [partialLoad] using ofBytes_lt ((List.range k).map fun i => m (a + byteIndex i))

theorem partialLoad_succ (m : ByteMemory.Memory 64) (a : Addr) (k : ℕ) :
    partialLoad m a (k + 1) = partialLoad m a k + 256 ^ k * (m (a + byteIndex k)).toNat := by
  rw [partialLoad, List.range_succ, List.map_append, ofBytes_append, List.length_map, List.length_range]
  simp [partialLoad]

/-- A byte that is read. -/
theorem load_byte (m : ByteMemory.Memory 64) (a : Addr) :
    ByteMemory.load m a (typeStoreSize 8) % 2 ^ 8 = (m a).toNat := by
  rw [show typeStoreSize 8 = 0 + 1 from rfl, ByteMemory.load_succ, ByteMemory.load]
  simpa using (m a).isLt

omit [DecidableEq N] in
/-- Byte `i` of a value, shifted up. -/
theorem shl_eval (hw : width = 8 * sizeInBytes width) (hi : i < sizeInBytes width) (x : BitVec 8)
    (env : PassName N → ℕ) :
    Opcode.shl.eval width x.toNat ((Operand.const (sizeInBytes width * 8) (i * 8)).eval env)
      = 256 ^ i * x.toNat := by
  have hlt : 256 ^ i * x.toNat < 2 ^ width := by
    rw [hw, two_pow_eight_mul]
    calc 256 ^ i * x.toNat < 256 ^ i * 256 := Nat.mul_lt_mul_of_pos_left x.isLt (Nat.pow_pos (by decide))
      _ = 256 ^ (i + 1) := (pow_succ 256 i).symm
      _ ≤ 256 ^ sizeInBytes width := Nat.pow_le_pow_right (by decide) hi
  have hx : x.toNat < 2 ^ width :=
    (Nat.le_mul_of_pos_left x.toNat (Nat.pow_pos (by decide))).trans_lt hlt
  simp only [Opcode.eval]
  rw [BitVec.shiftLeft_eq', shift_eval hw hi, BitVec.toNat_shiftLeft, BitVec.toNat_ofNat,
    Nat.mod_eq_of_lt hx, Nat.shiftLeft_eq, two_pow_eight_mul, Nat.mul_comm, Nat.mod_eq_of_lt hlt]

/-- The bytes below `i`, and byte `i`, or-ed together. -/
theorem or_eval (hw : width = 8 * sizeInBytes width) (hi : i < sizeInBytes width) {x : ℕ}
    (hx : x < 256 ^ i) (y : BitVec 8) :
    Opcode.or.eval width x (256 ^ i * y.toNat) = x + 256 ^ i * y.toNat := by
  have hle : 256 ^ i ≤ 2 ^ width := by
    rw [hw, two_pow_eight_mul]
    exact Nat.pow_le_pow_right (by decide) (Nat.le_of_lt hi)
  have hshift := shl_eval (N := Unit) hw hi y fun _ => 0
  have hlt : 256 ^ i * y.toNat < 2 ^ width := by
    rw [← hshift]
    exact BitVec.isLt _
  simp only [Opcode.eval]
  rw [BitVec.toNat_or, BitVec.toNat_ofNat, BitVec.toNat_ofNat, Nat.mod_eq_of_lt (hx.trans_le hle),
    Nat.mod_eq_of_lt hlt, Nat.or_comm, Nat.mul_comm, ← two_pow_eight_mul, ← Nat.shiftLeft_eq,
    ← Nat.shiftLeft_add_eq_or_of_lt (by rwa [two_pow_eight_mul]), Nat.add_comm]

/-- **Byte `i` of a load.** -/
theorem runAll_scalarizeLoadByte (hw : width = 8 * sizeInBytes width) (hi : i < sizeInBytes width)
    (henv : ∀ name, t.env (.old name) = env name) (dst : N) (ptr : PassPtr N)
    (hsofar : 0 < i → t.env (partialValue block index width dst (i - 1))
      = partialLoad (t.mem ptr.region) (ptr.offset env) i) :
    ∃ t', (runAll (scalarizeLoadByte block index width dst (ptr.map .old) i) t).2 = t' ∧
      t'.mem = t.mem ∧
      t'.env (partialValue block index width dst i)
        = partialLoad (t.mem ptr.region) (ptr.offset env) (i + 1) ∧
      ∀ name, .old name ≠ partialValue block index width dst i → t'.env (.old name) = env name := by
  rw [scalarizeLoadByte]
  split
  · next h0 =>
    subst h0
    have hload := env_update_temp henv block index 0 0
    simp only [runAll_cons, runAll_nil, exec, PassState.env_set, PassPtr.region_map,
      PassPtr.offset_map henv, Operand.eval_ssa, Function.update_self, CastOp.eval]
    refine ⟨_, rfl, rfl, ?_, fun name hname => ?_⟩
    · rw [PassState.env_set, Function.update_self, load_byte, partialLoad_succ, byteIndex_zero, add_zero,
        pow_zero, Nat.one_mul]
      exact (Nat.zero_add _).symm
    · rw [PassState.env_set, Function.update_of_ne hname, PassState.env_set, hload]
  · next h0 =>
    have hprev : partialValue block index width dst (i - 1) = .temp block index (i - 1) 3 :=
      if_neg (by omega)
    have hne : ∀ part, PassName.temp (N := N) block index (i - 1) 3 ≠ .temp block index i part := by
      intro part heq
      injection heq with _ _ hbyte _
      omega
    have hload := env_update_temp henv block index i 0
    have hzext := fun n m => env_update_temp (hload n) block index i 1 m
    have hshl := fun n m l => env_update_temp (hzext n m) block index i 2 l
    simp only [runAll_cons, runAll_nil, exec, PassState.env_set, PassPtr.region_map,
      PassPtr.region_byteAt, PassPtr.offset_byteAt, PassPtr.offset_map henv, load_byte, Operand.eval_ssa,
      Function.update_self, CastOp.eval, shl_eval hw hi]
    refine ⟨_, rfl, rfl, ?_, fun name hname => ?_⟩
    · rw [PassState.env_set, Function.update_self, hprev, Function.update_of_ne (hne 2),
        Function.update_of_ne (hne 1), Function.update_of_ne (hne 0), ← hprev,
        hsofar (Nat.pos_of_ne_zero h0), or_eval hw hi (partialLoad_lt ..), partialLoad_succ]
    · rw [PassState.env_set, Function.update_of_ne hname, PassState.env_set, PassState.env_set,
        PassState.env_set]
      exact hshl ..

/-- **A load**: the bytes from where the `getelementptr` looks, under the name of the load. -/
theorem runAll_scalarizeLoad (block : BlockId) (index : ℕ) (hw : width = 8 * sizeInBytes width)
    (hpos : 0 < sizeInBytes width) (h : Scalarizes t s) (dst : N) (ptr : PassPtr N) :
    Scalarizes (runAll ((List.range (sizeInBytes width)).flatMap
        (scalarizeLoadByte block index width dst (ptr.map .old))) t).2
      (s.set dst (partialLoad (s.mem ptr.region) (ptr.offset s.env) (sizeInBytes width))) := by
  have hbytes : ∀ k < sizeInBytes width, ∃ t', (runAll ((List.range k).flatMap
      (scalarizeLoadByte block index width dst (ptr.map .old))) t).2 = t' ∧ t'.mem = t.mem ∧
      (∀ name, t'.env (.old name) = s.env name) ∧
      (0 < k → t'.env (partialValue block index width dst (k - 1))
        = partialLoad (t.mem ptr.region) (ptr.offset s.env) k) := by
    intro k
    induction k with
    | zero => exact fun _ => ⟨t, rfl, rfl, h.env, fun h0 => absurd h0 (Nat.lt_irrefl 0)⟩
    | succ k ih =>
      intro hk
      obtain ⟨t₁, hrun, hmem, hold, hsofar⟩ := ih (Nat.lt_of_succ_lt hk)
      rw [← hmem] at hsofar
      obtain ⟨t₂, hrun₂, hmem₂, hvalue, hold₂⟩ :=
        runAll_scalarizeLoadByte hw (Nat.lt_of_succ_lt hk) hold dst ptr hsofar
      have htemp : partialValue block index width dst k = .temp block index k 3 :=
        if_neg (Nat.ne_of_lt hk)
      refine ⟨t₂, ?_, hmem₂.trans hmem, fun name => hold₂ name ?_, fun _ => ?_⟩
      · rw [List.range_succ, List.flatMap_append, List.flatMap_singleton, runAll_append, hrun, hrun₂]
      · rw [htemp]
        nofun
      · rw [Nat.add_sub_cancel, hvalue, hmem]
  obtain ⟨k, hk⟩ := Nat.exists_eq_succ_of_ne_zero (Nat.ne_of_gt hpos)
  obtain ⟨t₁, hrun, hmem, hold, hsofar⟩ := hbytes k (by omega)
  rw [← hmem] at hsofar
  obtain ⟨t₂, hrun₂, hmem₂, hvalue, hold₂⟩ :=
    runAll_scalarizeLoadByte hw (by omega) hold dst ptr hsofar
  have hlast : partialValue block index width dst k = .old dst := if_pos hk.symm
  rw [hk, List.range_succ, List.flatMap_append, List.flatMap_singleton, runAll_append, hrun, hrun₂]
  refine ⟨hmem₂.trans (hmem.trans h.mem), fun name => ?_⟩
  by_cases hname : name = dst
  · rw [hname, PassState.env_set, Function.update_self, ← hlast, hvalue, hmem, h.mem]
  · rw [PassState.env_set, Function.update_of_ne hname]
    exact hold₂ name (hlast ▸ fun heq => hname (PassName.old.inj heq))

/-! ### Types of up to 128 bytes -/

theorem foldl_store_eq (m : ByteMemory.Memory 64) (a : Addr) (x : ℕ) {k : ℕ} (hk : k ≤ 128) :
    (List.range k).foldl (fun m i => ByteMemory.store m (a + byteIndex i) 1 (x / 256 ^ i)) m
      = ByteMemory.store m a k x := by
  induction k with
  | zero =>
    funext y
    exact (ByteMemory.store_of_not_lt _ (Nat.not_lt_zero _)).symm
  | succ k ih =>
    rw [List.range_succ, List.foldl_append, ih (Nat.le_of_succ_le hk), List.foldl_cons, List.foldl_nil,
      byteIndex_of_lt hk, ByteMemory.store_succ _ _ (by omega)]

theorem partialLoad_eq (m : ByteMemory.Memory 64) (a : Addr) {k : ℕ} (hk : k ≤ 128) :
    partialLoad m a k = ByteMemory.load m a k := by
  rw [partialLoad, ByteMemory.load]
  congr 1
  refine List.map_congr_left fun i hi => ?_
  rw [byteIndex_of_lt ((List.mem_range.mp hi).trans_le hk)]

/-- The width of the access, if it is one of an `alloca`. -/
def PassInst.allocaWidth : PassInst N → Option ℕ
  | load _ w ptr | store w _ ptr => if ptr.isAlloca then some w else none
  | _ => none

omit [DecidableEq N] in
theorem sizeInBytes_of_fits {k : ℕ} (hk : k ≤ 255) : sizeInBytes (8 * k) = k := by
  rw [sizeInBytes, typeStoreSize_eight_mul]
  omega

/-- What the pass makes of the instruction does the same, from every state. -/
def PassInst.ScalarizedExactly (i : PassInst N) : Prop :=
  ∀ (block : BlockId) (index : ℕ) (s : PassState N) (t : PassState (PassName N)),
    Scalarizes t s → Scalarizes (runAll (scalarizeInst block index i) t).2 (i.exec s)

theorem scalarizedExactly_of_narrow {i : PassInst N}
    (hfit : ∀ w, i.allocaWidth = some w → ∃ k ≤ 255, w = 8 * k)
    (hnarrow : ∀ w, i.allocaWidth = some w → w ≤ 1024) : i.ScalarizedExactly := by
  intro block index s t h
  cases i with
  | binary dst op w a b => exact h.runAll_map (.binary dst op w a b)
  | cast dst op src w a => exact h.runAll_map (.cast dst op src w a)
  | other dst args compute => exact h.runAll_map (.other dst args compute)
  | load dst w ptr =>
    rw [scalarizeInst]
    split
    · exact h.runAll_map _
    · next hcond =>
      obtain ⟨hwide, halloca⟩ := not_or.mp hcond
      have hwidth : (PassInst.load dst w ptr).allocaWidth = some w := if_pos (not_not.mp halloca)
      obtain ⟨k, hk, rfl⟩ := hfit w hwidth
      have hle := hnarrow _ hwidth
      rw [typeStoreSize_eight_mul] at hwide
      have hsize := sizeInBytes_of_fits hk
      have hload := runAll_scalarizeLoad block index (by rw [hsize]) (by omega) h dst ptr
      rw [hsize, partialLoad_eq _ _ (by omega)] at hload
      rw [hsize, exec, typeStoreSize_eight_mul, Nat.mod_eq_of_lt]
      · exact hload
      · rw [two_pow_eight_mul]
        exact ByteMemory.load_lt ..
  | store w value ptr =>
    rw [scalarizeInst]
    split
    · exact h.runAll_map _
    · next hcond =>
      obtain ⟨hwide, halloca⟩ := not_or.mp hcond
      have hwidth : (PassInst.store w value ptr).allocaWidth = some w := if_pos (not_not.mp halloca)
      obtain ⟨k, hk, rfl⟩ := hfit w hwidth
      have hle := hnarrow _ hwidth
      have hsize := sizeInBytes_of_fits hk
      obtain ⟨hmem, hold⟩ := runAll_scalarizeStore block index (by rw [hsize]) h.env value ptr _
        (Nat.le_refl (sizeInBytes (8 * k)))
      refine ⟨?_, hold⟩
      rw [hmem, hsize, foldl_store_eq _ _ _ (by omega), exec, typeStoreSize_eight_mul, h.mem]
      rfl

/-! ### Wider types -/

/-- The byte at distance 128 is not written. -/
theorem foldl_store_apply (m : ByteMemory.Memory 64) (a : Addr) (x : ℕ) (is : List ℕ) :
    is.foldl (fun m i => ByteMemory.store m (a + byteIndex i) 1 (x / 256 ^ i)) m
      (a + BitVec.ofNat 64 128) = m (a + BitVec.ofNat 64 128) := by
  induction is generalizing m with
  | nil => rfl
  | cons i is ih =>
    rw [List.foldl_cons, ih, ByteMemory.store_of_not_lt]
    intro h
    have heq := ByteMemory.add_ofNat_toNat_sub (a + byteIndex i) (a + BitVec.ofNat 64 128)
    rw [Nat.lt_one_iff.mp h, BitVec.add_zero] at heq
    exact byteIndex_ne i (add_left_cancel heq)

omit [DecidableEq N] in
theorem partialLoad_eq_zero {m : ByteMemory.Memory 64} {a : Addr}
    (hm : ∀ x, x ≠ a + BitVec.ofNat 64 128 → m x = 0) (k : ℕ) : partialLoad m a k = 0 := by
  induction k with
  | zero => rfl
  | succ k ih =>
    have hne : a + byteIndex k ≠ a + BitVec.ofNat 64 128 := fun h => byteIndex_ne k (add_left_cancel h)
    rw [partialLoad_succ, ih, hm _ hne]
    rfl

theorem not_scalarizedExactly_of_wide {i : PassInst N}
    (hfit : ∀ w, i.allocaWidth = some w → ∃ k ≤ 255, w = 8 * k) {w : ℕ} (hw : i.allocaWidth = some w)
    (hwide : 1024 < w) : ¬ i.ScalarizedExactly := by
  intro h
  obtain ⟨k, hk, rfl⟩ := hfit w hw
  have hsize := sizeInBytes_of_fits hk
  have hbytes : ¬ typeStoreSize (8 * k) ≤ 1 := by
    rw [typeStoreSize_eight_mul]
    omega
  have halloca : ∀ (ptr : PassPtr N) (w : ℕ),
      (if ptr.isAlloca = true then some w else none) = some (8 * k) → w = 8 * k ∧ ptr.isAlloca = true := by
    intro ptr w hw
    by_cases h : ptr.isAlloca = true
    · exact ⟨Option.some.inj ((if_pos h).symm.trans hw), h⟩
    · exact nomatch (if_neg h).symm.trans hw
  cases i with
  | binary | cast | other => cases hw
  | load dst w ptr =>
    obtain ⟨rfl, hptr⟩ := halloca ptr w hw
    -- the only byte that is not zero is the one at distance 128
    set a := ptr.offset fun _ => 0 with ha
    set m : ByteMemory.Memory 64 := fun x => if x = a + BitVec.ofNat 64 128 then 1 else 0 with hm
    have hst : Scalarizes (N := N) ⟨fun _ => 0, fun _ => m⟩ ⟨fun _ => 0, fun _ => m⟩ := ⟨rfl, fun _ => rfl⟩
    have hnew := runAll_scalarizeLoad 0 0 (by rw [hsize]) (by omega) hst dst ptr
    have hold := h 0 0 _ _ hst
    rw [scalarizeInst, if_neg (not_or.mpr ⟨hbytes, not_not.mpr hptr⟩)] at hold
    have heq := (hold.env dst).symm.trans (hnew.env dst)
    rw [exec, PassState.env_set, Function.update_self, PassState.env_set, Function.update_self,
      typeStoreSize_eight_mul, two_pow_eight_mul, Nat.mod_eq_of_lt (ByteMemory.load_lt ..),
      partialLoad_eq_zero fun x hx => if_neg hx] at heq
    have hbyte := ByteMemory.byte_load m a (show 128 < k by omega)
    rw [heq, hm] at hbyte
    simp [byte] at hbyte
  | store w value ptr =>
    obtain ⟨rfl, hptr⟩ := halloca ptr w hw
    set a := ptr.offset fun _ => 0 with ha
    set x := value.eval (fun _ => 0) % 2 ^ (8 * k) with hx
    -- the byte at distance 128 is another one than the value has there
    set m : ByteMemory.Memory 64 := fun _ => byte x 128 + 1 with hm
    have hst : Scalarizes (N := N) ⟨fun _ => 0, fun _ => m⟩ ⟨fun _ => 0, fun _ => m⟩ := ⟨rfl, fun _ => rfl⟩
    obtain ⟨hnew, _⟩ := runAll_scalarizeStore 0 0 (by rw [hsize]) hst.env value ptr _
      (Nat.le_refl (sizeInBytes (8 * k)))
    have hold := h 0 0 _ _ hst
    rw [scalarizeInst, if_neg (not_or.mpr ⟨hbytes, not_not.mpr hptr⟩)] at hold
    have heq := congrFun (congrFun (hold.mem.symm.trans hnew) ptr.region) (a + BitVec.ofNat 64 128)
    have hdist := ByteMemory.toNat_add_ofNat_sub a (show 128 < 2 ^ 64 by decide)
    rw [exec, PassState.mem_store_self, typeStoreSize_eight_mul, Function.update_self, foldl_store_apply,
      ByteMemory.store_of_lt _ (by rw [hdist]; omega), hdist] at heq
    exact absurd (left_eq_add.mp heq) (by decide)

/-! ### The function -/

/-- Every replaced access is replaced by code that does the same, and so every run ends with the values
and the memory it had before the pass. -/
def PassFunction.ScalarizedExactly (f : PassFunction N) : Prop :=
  (∀ b ∈ f.order, ∀ i ∈ (f.block b).insts, i.ScalarizedExactly) ∧
  ∀ (n : ℕ), ∀ b ∈ f.order, ∀ (s : PassState N) (t : PassState (PassName N)), Scalarizes t s →
    BlockRun.Exit.Related (fun _ s t => Scalarizes t s) (fun s t => Scalarizes t s)
      (BlockRun.run f.step n b s).2 (BlockRun.run f.scalarize.step n b t).2

theorem runAll_scalarize (block : BlockId) : ∀ {insts : List (PassInst N)} (index : ℕ)
    {s : PassState N} {t : PassState (PassName N)}, (∀ i ∈ insts, i.ScalarizedExactly) → Scalarizes t s →
    Scalarizes (runAll ((insts.zipIdx index).flatMap fun (i, index) => scalarizeInst block index i) t).2
      (runAll insts s).2
  | [], _, _, _, _, h => h
  | i :: insts, index, s, t, hexact, h => by
    obtain ⟨hi, hinsts⟩ := List.forall_mem_cons.mp hexact
    rw [List.zipIdx_cons, List.flatMap_cons, runAll_append]
    exact runAll_scalarize block (index + 1) hinsts (hi block index s t h)

/-- **Which functions `memory_scalarizer` keeps**: those whose `alloca`s are accessed with types of up to
128 bytes. -/
theorem scalarize_exact_iff (f : PassFunction N)
    (hfit : ∀ b ∈ f.order, ∀ i ∈ (f.block b).insts, ∀ w, i.allocaWidth = some w →
      ∃ k ≤ 255, w = 8 * k) :
    f.ScalarizedExactly ↔
      ∀ b ∈ f.order, ∀ i ∈ (f.block b).insts, ∀ w, i.allocaWidth = some w → w ≤ 1024 := by
  constructor
  · rintro ⟨hexact, _⟩ b hb i hi w hw
    exact Nat.not_lt.mp fun hwide =>
      not_scalarizedExactly_of_wide (hfit b hb i hi) hw hwide (hexact b hb i hi)
  · intro hnarrow
    have hexact : ∀ b ∈ f.order, ∀ i ∈ (f.block b).insts, i.ScalarizedExactly := fun b hb i hi =>
      scalarizedExactly_of_narrow (hfit b hb i hi) (hnarrow b hb i hi)
    have hblock : ∀ b (s : PassState N) (t : PassState (PassName N)), b ∈ f.order ∧ Scalarizes t s →
        BlockRun.Exit.Related (fun b s t => b ∈ f.order ∧ Scalarizes t s) (fun s t => Scalarizes t s)
          (f.step b s).2 (f.scalarize.step b t).2 := by
      rintro b s t ⟨hb, h⟩
      have hend := runAll_scalarize b 0 (hexact b hb) h
      exact Terminator.exit_map hend.env _ (fun c hc => ⟨f.closed b hb c hc, hend⟩) hend
    refine ⟨hexact, fun n b hb s t h => ?_⟩
    obtain ⟨_, hrun⟩ := BlockRun.run_related (O := fun _ _ => True) (P := fun _ _ => True) trivial
      (fun _ _ => trivial) (fun b s t h _ => ⟨trivial, hblock b s t h⟩) n ⟨hb, h⟩ fun _ _ _ => trivial
    exact hrun.mono (fun _ _ _ => And.right) fun _ _ => id

end

/-- One access of the `alloca` of a function. -/
def accessing (i : PassInst ℕ) : PassFunction ℕ :=
  ⟨[0], fun _ => ⟨[i], .ret⟩, List.nodup_singleton 0, List.cons_ne_nil 0 [],
    fun _ _ _ h => absurd h List.not_mem_nil⟩

theorem accessing_fits {i : PassInst ℕ} {k : ℕ} (hk : k ≤ 255) (hi : i.allocaWidth = some (8 * k)) :
    ∀ b ∈ (accessing i).order, ∀ j ∈ ((accessing i).block b).insts, ∀ w, j.allocaWidth = some w →
      ∃ k ≤ 255, w = 8 * k := by
  intro b _ j hj w hw
  rw [List.mem_singleton.mp hj, hi] at hw
  exact ⟨k, hk, (Option.some.inj hw).symm⟩

/-- A load of 16 bits. -/
theorem scalarize_exact_iff_halfword :
    (accessing (.load 0 16 (.base (.alloca 0)))).ScalarizedExactly ↔
      ∀ b ∈ [0], ∀ i ∈ ((accessing (.load 0 16 (.base (.alloca 0)))).block b).insts,
        ∀ w, i.allocaWidth = some w → w ≤ 1024 :=
  scalarize_exact_iff _ (accessing_fits (k := 2) (by decide) rfl)

/-- A store of 129 bytes: the last of them is written 128 bytes before the first. -/
theorem wide_store_misplaced : ¬ ∀ f : PassFunction ℕ,
    (∀ b ∈ f.order, ∀ i ∈ (f.block b).insts, ∀ w, i.allocaWidth = some w → ∃ k ≤ 255, w = 8 * k) →
    f.ScalarizedExactly := by
  intro h
  have hfit : ∀ b ∈ [0], ∀ i ∈ ((accessing (.store 1032 (.const 1032 0) (.base (.alloca 0)))).block b).insts,
      ∀ w, i.allocaWidth = some w → ∃ k ≤ 255, w = 8 * k :=
    accessing_fits (k := 129) (by decide) rfl
  have hself := List.mem_singleton_self (PassInst.store (N := ℕ) 1032 (.const 1032 0) (.base (.alloca 0)))
  have hexact := (h (accessing (.store 1032 (.const 1032 0) (.base (.alloca 0)))) hfit).1 0
    (List.mem_singleton_self 0) _ hself
  exact not_scalarizedExactly_of_wide (hfit 0 (List.mem_singleton_self 0) _ hself) rfl (by decide) hexact

end Vexa
