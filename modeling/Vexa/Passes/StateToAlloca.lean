import Vexa.Passes.Function

/-!
# `state2alloca`

Every register without a parent gets an `alloca`, and so do the four bytes at offset 2080. They are copied
from the state at the entry and back at every return, and the `getelementptr`s of the state are
redirected: one at the offset of an `alloca` to the `alloca`, one at the offset of a register with a
parent into the `alloca` of the outermost parent. All others keep pointing into the state.

## Where a byte lives

The pass looks at the offset of an access and not at its width. An access is right when all its bytes live
where it goes, and nowhere else: an access that begins inside a register where no other register begins,
one that is wider than the register, and one that touches the four bytes at 2080 from another offset,
are not. Offsets are kept in 32 bits.

## Main definitions

* `StateRegister`, `StateAlloca`, `offsetToAlloca`, `stateToAlloca` — the pass
* `MeetsAlloca` — an access that goes where its bytes live
* `InAllocas` — the states before and after

## Main results

* `InAllocas.exec` — one instruction
* `stateToAlloca_keeps`
-/

namespace Vexa

open PassInst

variable {N : Type}

/-! ### The pass -/

/-- A `remill::Register` with its parents. Sizes are in bytes. -/
inductive StateRegister
  | root (offset : Addr) (size : ℕ)
  | sub (offset : Addr) (size : ℕ) (parent : StateRegister)
deriving DecidableEq, Repr

namespace StateRegister

def offset : StateRegister → Addr
  | root offset _ | sub offset _ _ => offset

/-- The register reached by following `parent`. -/
def top : StateRegister → StateRegister
  | root offset size => root offset size
  | sub _ _ parent => parent.top

end StateRegister

/-- An entry of `offset_to_alloca`, with the offset in the state and the bytes it was made for. -/
structure StateAlloca where
  key : BitVec 32
  start : Addr
  size : ℕ
  id : ℕ
deriving DecidableEq, Repr

def findAlloca (allocas : List StateAlloca) (key : BitVec 32) : Option StateAlloca :=
  allocas.find? fun a => a.key = key

/-- `offset_to_alloca[offset] = alloca`. -/
def insertAlloca (allocas : List StateAlloca) (a : StateAlloca) : List StateAlloca :=
  a :: allocas.filter fun b => b.key ≠ a.key

/-- The four bytes at offset 2080. -/
def slotAlloca (fresh : ℕ) : StateAlloca := ⟨2080, 2080, 4, fresh⟩

/-- The `alloca` of a register without a parent. -/
def registerAlloca (fresh : ℕ) (offset : Addr) (size : ℕ) : StateAlloca :=
  ⟨offset.setWidth 32, offset, size, fresh + 1 + offset.toNat⟩

/-- `offset_to_alloca`; the `alloca`s it makes have identities from `fresh` on. -/
def offsetToAlloca (fresh : ℕ) (registers : List StateRegister) : List StateAlloca :=
  registers.foldl (fun allocas r =>
    match r with
    | .root offset size => insertAlloca allocas (registerAlloca fresh offset size)
    | .sub .. => allocas) [slotAlloca fresh]

/-- `sub_to_parent`. -/
def subToParent (registers : List StateRegister) (offset : BitVec 32) : Option StateRegister :=
  registers.foldl (fun parent r => if offset.setWidth 64 = r.offset then some r.top else parent) none

/-- `CreateInBoundsGEP(getInt8Ty(), p, getInt64(offset))`. -/
def PassPtr.at (p : PassPtr N) (offset : Addr) : PassPtr N :=
  .gep int8Type p [⟨1, 64, .const 64 offset.toNat⟩]

section

variable (allocas : List StateAlloca) (registers : List StateRegister)

/-- What a `getelementptr` of the state at this offset is replaced by. -/
def redirect (offset : Addr) : Option (PassPtr N) :=
  match findAlloca allocas (offset.setWidth 32) with
  | some a => some (.base (.alloca a.id))
  | none => do
    let parent ← subToParent registers (offset.setWidth 32)
    let a ← findAlloca allocas (parent.offset.setWidth 32)
    return .at (.base (.alloca a.id)) (offset - parent.offset)

/-- The pointer with its `getelementptr` of the state replaced. -/
def PassPtr.redirect : PassPtr N → PassPtr N
  | base r => base r
  | gep source (.base .state) indices =>
    ((accumulateConstantOffset indices).bind (Vexa.redirect allocas registers)).getD
      (gep source (.base .state) indices)
  | gep source ptr indices => gep source ptr.redirect indices

def PassInst.redirect : PassInst N → PassInst N
  | load dst w ptr => load dst w (ptr.redirect allocas registers)
  | store w value ptr => store w value (ptr.redirect allocas registers)
  | i => i

end

/-- A load and a store of all bytes. -/
def copyCode (temp : PassName N) (size : ℕ) (src dst : PassPtr (PassName N)) :
    List (PassInst (PassName N)) :=
  [.load temp (size * 8) src, .store (size * 8) (.ssa temp) dst]

/-- `init_alloca`, at position `i` of the registers. -/
def initAlloca (allocas : List StateAlloca) (entry : BlockId) (i : ℕ) :
    StateRegister → List (PassInst (PassName N))
  | .root offset size =>
    match findAlloca allocas (offset.setWidth 32) with
    | some a => copyCode (.temp entry (i + 1) 0 0) size (.at (.base .state) offset) (.base (.alloca a.id))
    | none => []
  | .sub .. => []

/-- The entry block. -/
def entryCode (fresh : ℕ) (registers : List StateRegister) (entry : BlockId) :
    List (PassInst (PassName N)) :=
  copyCode (.temp entry 0 0 0) 4 (.at (.base .state) 2080) (.base (.alloca fresh)) ++
    registers.zipIdx.flatMap fun (r, i) => initAlloca (offsetToAlloca fresh registers) entry i r

/-- The copy back before a return. -/
def writeBack (b : BlockId) (i : ℕ) (a : StateAlloca) : List (PassInst (PassName N)) :=
  copyCode (.temp b i 0 1) a.size (.base (.alloca a.id)) (.at (.base .state) (a.key.setWidth 64))

/-- A block of the function; `order` is the order in which `offset_to_alloca` is listed. -/
def PassBlock.stateToAlloca (fresh : ℕ) (registers : List StateRegister) (order : List StateAlloca)
    (b : BlockId) (block : PassBlock N) : PassBlock (PassName N) where
  insts := block.insts.map (fun i =>
      (i.redirect (offsetToAlloca fresh registers) registers).map .old) ++
    match block.terminator with
    | .ret => order.zipIdx.flatMap fun (a, i) => writeBack b i a
    | .switch .. | .unreachable => []
  terminator := block.terminator.map .old

/-- `state2alloca::run`. -/
def PassFunction.stateToAlloca (f : PassFunction N) (fresh : ℕ) (registers : List StateRegister)
    (order : List StateAlloca) (entry : BlockId) (hentry : entry ∉ f.order) :
    PassFunction (PassName N) where
  order := entry :: f.order
  block b :=
    if b = entry then ⟨entryCode fresh registers entry, .switch (.const 1 0) [] f.entry⟩
    else (f.block b).stateToAlloca fresh registers order b
  nodup := List.nodup_cons.mpr ⟨hentry, f.nodup⟩
  nonempty := List.cons_ne_nil _ _
  closed b hb c hc := by
    split at hc
    · rw [List.mem_singleton.mp hc]
      exact List.mem_cons_of_mem _ (List.head_mem f.nonempty)
    · next hne =>
      rw [PassBlock.stateToAlloca, Terminator.successors_map] at hc
      exact List.mem_cons_of_mem _ (f.closed b ((List.mem_cons.mp hb).resolve_left hne) c hc)

/-! ### The table of `alloca`s -/

/-- The bytes of the state an `alloca` was made for. -/
def StateAlloca.Covers (a : StateAlloca) (x : Addr) : Prop := (x - a.start).toNat < a.size

/-- A table with one entry for each offset. -/
structure AllocasWF (fresh : ℕ) (allocas : List StateAlloca) : Prop where
  key : ∀ a ∈ allocas, a.key = a.start.setWidth 32
  id : ∀ a ∈ allocas, a = slotAlloca fresh ∨ a.id = fresh + 1 + a.start.toNat
  unique : ∀ a ∈ allocas, ∀ b ∈ allocas, a.key = b.key → a = b

variable {fresh : ℕ} {allocas : List StateAlloca} {registers : List StateRegister}

theorem findAlloca_mem {key : BitVec 32} {a : StateAlloca} (h : findAlloca allocas key = some a) :
    a ∈ allocas ∧ a.key = key := by
  rw [findAlloca] at h
  exact ⟨List.mem_of_find?_eq_some h, by simpa using List.find?_some h⟩

namespace AllocasWF

theorem slot (fresh : ℕ) : AllocasWF fresh [slotAlloca fresh] where
  key a ha := by rw [List.mem_singleton.mp ha]; rfl
  id a ha := .inl (List.mem_singleton.mp ha)
  unique a ha b hb _ := (List.mem_singleton.mp ha).trans (List.mem_singleton.mp hb).symm

theorem insert (h : AllocasWF fresh allocas) (offset : Addr) (size : ℕ) :
    AllocasWF fresh (insertAlloca allocas (registerAlloca fresh offset size)) where
  key a ha := by
    rcases List.mem_cons.mp ha with rfl | ha
    · rfl
    · exact h.key a (List.mem_of_mem_filter ha)
  id a ha := by
    rcases List.mem_cons.mp ha with rfl | ha
    · exact .inr rfl
    · exact h.id a (List.mem_of_mem_filter ha)
  unique a ha b hb hkey := by
    rcases List.mem_cons.mp ha with rfl | ha <;> rcases List.mem_cons.mp hb with rfl | hb
    · rfl
    · exact absurd hkey.symm (of_decide_eq_true (List.mem_filter.mp hb).2)
    · exact absurd hkey (of_decide_eq_true (List.mem_filter.mp ha).2)
    · exact h.unique a (List.mem_of_mem_filter ha) b (List.mem_of_mem_filter hb) hkey

theorem offsetToAlloca (fresh : ℕ) (registers : List StateRegister) :
    AllocasWF fresh (offsetToAlloca fresh registers) := by
  rw [Vexa.offsetToAlloca]
  generalize hinit : [slotAlloca fresh] = allocas
  have h : AllocasWF fresh allocas := hinit ▸ slot fresh
  clear hinit
  induction registers generalizing allocas with
  | nil => exact h
  | cons r registers ih =>
    cases r with
    | root offset size => exact ih _ (h.insert offset size)
    | sub offset size parent => exact ih _ h

theorem fresh_le (h : AllocasWF fresh allocas) {a : StateAlloca} (ha : a ∈ allocas) : fresh ≤ a.id := by
  rcases h.id a ha with rfl | hid
  · exact Nat.le_refl _
  · omega

/-- Different entries have different `alloca`s. -/
theorem id_inj (h : AllocasWF fresh allocas) {a b : StateAlloca} (ha : a ∈ allocas) (hb : b ∈ allocas)
    (hid : a.id = b.id) : a = b := by
  refine h.unique a ha b hb ?_
  rcases h.id a ha with rfl | hida <;> rcases h.id b hb with rfl | hidb
  · rfl
  · change fresh = b.id at hid
    omega
  · change a.id = fresh at hid
    omega
  · rw [h.key a ha, h.key b hb, BitVec.eq_of_toNat_eq (show a.start.toNat = b.start.toNat by omega)]

theorem find (h : AllocasWF fresh allocas) {a : StateAlloca} (ha : a ∈ allocas) :
    findAlloca allocas a.key = some a := by
  cases hfind : findAlloca allocas a.key with
  | none => exact absurd (List.find?_eq_none.mp hfind a ha) (by simp)
  | some b =>
    obtain ⟨hb, hkey⟩ := findAlloca_mem hfind
    rw [h.unique b hb a ha hkey]

end AllocasWF

/-! ### Where an access goes -/

theorem PassPtr.offset_at (p : PassPtr N) (env : N → ℕ) (offset : Addr) :
    (p.at offset).offset env = p.offset env + offset := by
  have hscale :
      GepIndex.scale (N := N) ⟨1, 64, .const 64 offset.toNat⟩ (offset.toNat % 2 ^ 64) = offset := by
    rw [GepIndex.scale, Nat.mod_eq_of_lt offset.isLt, BitVec.ofNat_toNat, BitVec.setWidth_eq,
      BitVec.signExtend_eq]
    exact BitVec.one_mul _
  rw [PassPtr.at, PassPtr.offset, gepOffset, List.map_singleton, List.sum_singleton]
  exact congrArg _ hscale

/-- The entry an access at this offset goes to, and the offset in its `alloca`. -/
def allocaPlace (allocas : List StateAlloca) (registers : List StateRegister) (offset : Addr) :
    Option (StateAlloca × Addr) :=
  match findAlloca allocas (offset.setWidth 32) with
  | some a => some (a, 0)
  | none => do
    let parent ← subToParent registers (offset.setWidth 32)
    let a ← findAlloca allocas (parent.offset.setWidth 32)
    return (a, offset - parent.offset)

theorem redirect_of_none {offset : Addr} (h : allocaPlace allocas registers offset = none) :
    redirect (N := N) allocas registers offset = none := by
  rw [allocaPlace] at h
  rw [redirect]
  cases hfind : findAlloca allocas (offset.setWidth 32) with
  | some a =>
    rw [hfind] at h
    cases h
  | none =>
    rw [hfind] at h
    cases hparent : subToParent registers (offset.setWidth 32) with
    | none => rfl
    | some parent =>
      rw [hparent] at h
      cases hroot : findAlloca allocas (parent.offset.setWidth 32) with
      | none => simp [hroot]
      | some a => simp [hroot] at h

theorem redirect_of_some {offset delta : Addr} {a : StateAlloca}
    (h : allocaPlace allocas registers offset = some (a, delta)) :
    a ∈ allocas ∧ ∃ p, redirect (N := N) allocas registers offset = some p ∧ p.region = .alloca a.id ∧
      ∀ env, p.offset env = delta := by
  rw [allocaPlace] at h
  rw [redirect]
  cases hfind : findAlloca allocas (offset.setWidth 32) with
  | some b =>
    rw [hfind] at h
    obtain ⟨rfl, rfl⟩ := Prod.mk.inj (Option.some.inj h)
    exact ⟨(findAlloca_mem hfind).1, _, rfl, rfl, fun _ => rfl⟩
  | none =>
    rw [hfind] at h
    simp only [Option.bind_eq_bind, Option.bind_eq_some_iff, Option.pure_def, Option.some.injEq,
      Prod.mk.injEq] at h
    obtain ⟨parent, hparent, b, hroot, rfl, rfl⟩ := h
    refine ⟨(findAlloca_mem hroot).1, .at (.base (.alloca b.id)) (offset - parent.offset),
      by simp [hparent, hroot], rfl, fun env => ?_⟩
    rw [PassPtr.offset_at]
    exact BitVec.zero_add _

/-- The offset of a pointer that is a `getelementptr` of the state. -/
def PassPtr.stateOffset : PassPtr N → Option Addr
  | gep _ (base .state) indices => accumulateConstantOffset indices
  | _ => none

/-- An access of `k` bytes that goes where its bytes live: into an `alloca` that holds all of them, or
into the state, and no other `alloca` holds any. -/
def MeetsAlloca (allocas : List StateAlloca) (registers : List StateRegister) (offset : Addr) (k : ℕ) :
    Prop :=
  match allocaPlace allocas registers offset with
  | none => ∀ a ∈ allocas, ∀ x : Addr, (x - offset).toNat < k → ¬ a.Covers x
  | some (a, delta) => offset = a.start + delta ∧ delta.toNat + k ≤ a.size ∧
    ∀ b ∈ allocas, b ≠ a → ∀ x : Addr, (x - offset).toNat < k → ¬ b.Covers x

/-- The instruction, if it is an access of the state: the offset and the bytes. -/
def PassInst.stateAccess : PassInst N → Option (Addr × ℕ)
  | load _ w ptr | store w _ ptr => ptr.stateOffset.map fun offset => (offset, typeStoreSize w)
  | _ => none

/-- The pointer is to the state through a `getelementptr` with a constant offset, or to something else that
was there before the pass. -/
structure PassPtr.Placed (fresh : ℕ) (ptr : PassPtr N) : Prop where
  state : ptr.region = .state → ∃ offset, ptr.stateOffset = some offset
  old : ∀ id, ptr.region = .alloca id → id < fresh

/-- The pointers of the instruction. -/
def PassInst.Placed (fresh : ℕ) : PassInst N → Prop
  | load _ _ ptr | store _ _ ptr => ptr.Placed fresh
  | _ => True

theorem PassPtr.eq_of_stateOffset {ptr : PassPtr N} {offset : Addr} (h : ptr.stateOffset = some offset) :
    ∃ source indices, ptr = .gep source (.base .state) indices ∧
      accumulateConstantOffset indices = some offset := by
  cases ptr with
  | base r => cases h
  | gep source ptr indices =>
    cases ptr with
    | base r =>
      cases r with
      | state => exact ⟨source, indices, rfl, h⟩
      | memory | alloca => cases h
    | gep => cases h

/-- Pointers to other objects stay. -/
theorem PassPtr.redirect_of_ne : ∀ {ptr : PassPtr N}, ptr.region ≠ .state →
    ptr.redirect allocas registers = ptr
  | base _, _ => rfl
  | gep source (base .state) indices, h => absurd rfl h
  | gep source (base .memory) indices, _ => rfl
  | gep source (base (.alloca _)) indices, _ => rfl
  | gep source (gep source' ptr indices') indices, h => by
    have hinner : (gep source' ptr indices').redirect allocas registers = gep source' ptr indices' :=
      redirect_of_ne h
    exact congrArg (fun p => gep source p indices) hinner

/-- Where the pointer of an access of the state points after the pass. -/
theorem PassPtr.redirect_place (allocas : List StateAlloca) (registers : List StateRegister)
    {ptr : PassPtr N} {offset : Addr} (h : ptr.stateOffset = some offset) (env : N → ℕ) :
    (allocaPlace allocas registers offset = none ∧
      (ptr.redirect allocas registers).region = .state ∧
      (ptr.redirect allocas registers).offset env = offset) ∨
    ∃ a ∈ allocas, ∃ delta, allocaPlace allocas registers offset = some (a, delta) ∧
      (ptr.redirect allocas registers).region = .alloca a.id ∧
      (ptr.redirect allocas registers).offset env = delta := by
  obtain ⟨source, indices, rfl, hoffset⟩ := eq_of_stateOffset h
  rw [PassPtr.redirect, hoffset, Option.bind_some]
  cases hplace : allocaPlace allocas registers offset with
  | none =>
    refine .inl ⟨rfl, ?_⟩
    rw [redirect_of_none hplace, Option.getD_none]
    exact ⟨rfl, (BitVec.zero_add _).trans (gepOffset_of_accumulate env hoffset)⟩
  | some place =>
    obtain ⟨a, delta⟩ := place
    obtain ⟨ha, p, hp, hregion, hdelta⟩ := redirect_of_some (N := N) hplace
    refine .inr ⟨a, ha, delta, rfl, ?_⟩
    rw [hp, Option.getD_some]
    exact ⟨hregion, hdelta env⟩

theorem PassPtr.offset_of_stateOffset {ptr : PassPtr N} {offset : Addr}
    (h : ptr.stateOffset = some offset) (env : N → ℕ) :
    ptr.region = .state ∧ ptr.offset env = offset := by
  obtain ⟨source, indices, rfl, hoffset⟩ := eq_of_stateOffset h
  exact ⟨rfl, (BitVec.zero_add _).trans (gepOffset_of_accumulate env hoffset)⟩

/-! ### States before and after -/

/-- A state of the function after the pass, between the entry and the return: what the entries of the
table cover is in their `alloca`s, the rest of the state is where it was. -/
structure InAllocas (fresh : ℕ) (allocas : List StateAlloca) (s : PassState N)
    (t : PassState (PassName N)) : Prop where
  env : ∀ name, t.env (.old name) = s.env name
  other : ∀ r, r ≠ .state → (∀ id, r = .alloca id → id < fresh) → t.mem r = s.mem r
  state : ∀ x, (∀ a ∈ allocas, ¬ a.Covers x) → t.mem .state x = s.mem .state x
  alloca : ∀ a ∈ allocas, ∀ i : Addr, i.toNat < a.size →
    t.mem (.alloca a.id) i = s.mem .state (a.start + i)

namespace InAllocas

variable {s : PassState N} {t : PassState (PassName N)}

/-- The bytes an access reads. -/
theorem load (h : InAllocas fresh allocas s t) {ptr : PassPtr N} (hplaced : ptr.Placed fresh) {k : ℕ}
    (hmeets : ∀ offset, ptr.stateOffset = some offset → MeetsAlloca allocas registers offset k) :
    ByteMemory.load (t.mem (ptr.redirect allocas registers).region)
        ((ptr.redirect allocas registers).offset s.env) k
      = ByteMemory.load (s.mem ptr.region) (ptr.offset s.env) k := by
  by_cases hregion : ptr.region = .state
  · obtain ⟨offset, hoffset⟩ := hplaced.state hregion
    have hmeets := hmeets offset hoffset
    obtain ⟨_, hold⟩ := ptr.offset_of_stateOffset hoffset s.env
    rw [hregion, hold]
    rcases PassPtr.redirect_place allocas registers hoffset s.env with ⟨hplace, hnew, hnewOffset⟩ |
      ⟨a, ha, delta, hplace, hnew, hnewOffset⟩
    · rw [MeetsAlloca, hplace] at hmeets
      rw [hnew, hnewOffset]
      refine ByteMemory.load_congr fun i hi => h.state _ fun a ha => hmeets a ha _ ?_
      rw [BitVec.add_comm, BitVec.add_sub_cancel, BitVec.toNat_ofNat]
      exact (Nat.mod_le ..).trans_lt hi
    · rw [MeetsAlloca, hplace] at hmeets
      obtain ⟨rfl, hfit, _⟩ := hmeets
      rw [hnew, hnewOffset]
      refine ByteMemory.load_eq fun i hi => ?_
      rw [h.alloca a ha, BitVec.add_assoc]
      rw [BitVec.toNat_add, BitVec.toNat_ofNat]
      have := Nat.mod_le (delta.toNat + i % 2 ^ 64) (2 ^ 64)
      have := Nat.mod_le i (2 ^ 64)
      omega
  · rw [PassPtr.redirect_of_ne hregion, h.other _ hregion hplaced.old]

theorem set [DecidableEq N] (h : InAllocas fresh allocas s t) (dst : N) (n : ℕ) :
    InAllocas fresh allocas (s.set dst n) (t.set (.old dst) n) where
  env name := by
    by_cases hname : name = dst
    · subst hname
      rw [PassState.env_set, PassState.env_set, Function.update_self, Function.update_self]
    · have hne : PassName.old name ≠ .old dst := fun heq => hname (PassName.old.inj heq)
      rw [PassState.env_set, PassState.env_set, Function.update_of_ne hne,
        Function.update_of_ne hname, h.env]
  other := h.other
  state := h.state
  alloca := h.alloca

/-- A store to another object. -/
theorem store_other (hwf : AllocasWF fresh allocas) (h : InAllocas fresh allocas s t) {r : PassRegion}
    (hr : r ≠ .state) (hid : ∀ id, r = .alloca id → id < fresh) (offset : Addr) (k n : ℕ) :
    InAllocas fresh allocas (s.store r offset k n) (t.store r offset k n) where
  env := h.env
  other r' hr' hid' := by
    by_cases heq : r' = r
    · rw [heq, PassState.mem_store_self, PassState.mem_store_self, h.other r hr hid]
    · rw [PassState.mem_store_of_ne _ heq, PassState.mem_store_of_ne _ heq, h.other r' hr' hid']
  state x hx := by
    rw [PassState.mem_store_of_ne _ hr.symm, PassState.mem_store_of_ne _ hr.symm, h.state x hx]
  alloca a ha i hi := by
    have hne : PassRegion.alloca a.id ≠ r := fun heq =>
      absurd (hwf.fresh_le ha) (Nat.not_le.mpr (hid a.id heq.symm))
    rw [PassState.mem_store_of_ne _ hne, PassState.mem_store_of_ne _ hr.symm, h.alloca a ha i hi]

/-- A store to the state that no entry covers any byte of. -/
theorem store_state (h : InAllocas fresh allocas s t) {offset : Addr} {k : ℕ}
    (hfree : ∀ a ∈ allocas, ∀ x : Addr, (x - offset).toNat < k → ¬ a.Covers x) (n : ℕ) :
    InAllocas fresh allocas (s.store .state offset k n) (t.store .state offset k n) where
  env := h.env
  other r hr hid := by
    rw [PassState.mem_store_of_ne _ hr, PassState.mem_store_of_ne _ hr, h.other r hr hid]
  state x hx := by
    rw [PassState.mem_store_apply, PassState.mem_store_apply, h.state x hx]
  alloca a ha i hi := by
    have hout : ¬ (a.start + i - offset).toNat < k := fun hlt =>
      hfree a ha _ hlt (by rwa [StateAlloca.Covers, BitVec.add_comm, BitVec.add_sub_cancel])
    have hne : PassRegion.alloca a.id ≠ .state := nofun
    rw [PassState.mem_store_of_ne _ hne, PassState.mem_store_apply, if_neg fun hand => hout hand.2,
      h.alloca a ha i hi]

/-- A store to bytes that one entry covers. -/
theorem store_alloca (hwf : AllocasWF fresh allocas) (h : InAllocas fresh allocas s t) {a : StateAlloca}
    (ha : a ∈ allocas) {delta : Addr} {k : ℕ} (hfit : delta.toNat + k ≤ a.size)
    (hfree : ∀ b ∈ allocas, b ≠ a → ∀ x : Addr, (x - (a.start + delta)).toNat < k → ¬ b.Covers x)
    (n : ℕ) :
    InAllocas fresh allocas (s.store .state (a.start + delta) k n) (t.store (.alloca a.id) delta k n) where
  env := h.env
  other r hr hid := by
    have hne : r ≠ .alloca a.id := fun heq =>
      absurd (hwf.fresh_le ha) (Nat.not_le.mpr (hid a.id heq))
    rw [PassState.mem_store_of_ne _ hr, PassState.mem_store_of_ne _ hne, h.other r hr hid]
  state x hx := by
    -- what is stored to is covered
    have hout : ¬ (x - (a.start + delta)).toNat < k := by
      intro hlt
      apply hx a ha
      have hsum : x - a.start = x - (a.start + delta) + delta := by ring
      rw [StateAlloca.Covers, hsum, BitVec.toNat_add]
      have := Nat.mod_le ((x - (a.start + delta)).toNat + delta.toNat) (2 ^ 64)
      omega
    have hne : PassRegion.state ≠ .alloca a.id := nofun
    rw [PassState.mem_store_of_ne _ hne, PassState.mem_store_apply, if_neg fun hand => hout hand.2,
      h.state x hx]
  alloca b hb i hi := by
    by_cases heq : b = a
    · subst heq
      have hdist : b.start + i - (b.start + delta) = i - delta := by ring
      rw [PassState.mem_store_apply, PassState.mem_store_apply, hdist, h.alloca b hb i hi]
      simp only [true_and]
    · have hne : PassRegion.alloca b.id ≠ .alloca a.id := fun hid =>
        heq (hwf.id_inj hb ha (PassRegion.alloca.inj hid))
      have hout : ¬ (b.start + i - (a.start + delta)).toNat < k := fun hlt =>
        hfree b hb heq _ hlt (by rwa [StateAlloca.Covers, BitVec.add_comm, BitVec.add_sub_cancel])
      rw [PassState.mem_store_of_ne _ hne, PassState.mem_store_apply, if_neg fun hand => hout hand.2,
        h.alloca b hb i hi]

/-- A store that goes where its bytes live. -/
theorem store (hwf : AllocasWF fresh allocas) (h : InAllocas fresh allocas s t) {ptr : PassPtr N}
    (hplaced : ptr.Placed fresh) {k : ℕ}
    (hmeets : ∀ offset, ptr.stateOffset = some offset → MeetsAlloca allocas registers offset k) (n : ℕ) :
    InAllocas fresh allocas (s.store ptr.region (ptr.offset s.env) k n)
      (t.store (ptr.redirect allocas registers).region
        ((ptr.redirect allocas registers).offset s.env) k n) := by
  by_cases hregion : ptr.region = .state
  · obtain ⟨offset, hoffset⟩ := hplaced.state hregion
    have hmeets := hmeets offset hoffset
    obtain ⟨_, hold⟩ := ptr.offset_of_stateOffset hoffset s.env
    rw [hregion, hold]
    rcases PassPtr.redirect_place allocas registers hoffset s.env with
      ⟨hplace, hnew, hnewOffset⟩ | ⟨a, ha, delta, hplace, hnew, hnewOffset⟩
    · rw [MeetsAlloca, hplace] at hmeets
      rw [hnew, hnewOffset]
      exact h.store_state hmeets n
    · rw [MeetsAlloca, hplace] at hmeets
      obtain ⟨rfl, hfit, hfree⟩ := hmeets
      rw [hnew, hnewOffset]
      exact h.store_alloca hwf ha hfit hfree n
  · rw [PassPtr.redirect_of_ne hregion]
    exact h.store_other hwf hregion hplaced.old _ k n

/-- **One instruction.** -/
theorem exec [DecidableEq N] (hwf : AllocasWF fresh allocas) (h : InAllocas fresh allocas s t)
    {i : PassInst N} (hplaced : i.Placed fresh)
    (hmeets : ∀ offset k, i.stateAccess = some (offset, k) → MeetsAlloca allocas registers offset k) :
    ((i.redirect allocas registers).map .old).loaded t
        = (i.loaded s).map (fun e => (.old e.1, e.2)) ∧
      InAllocas fresh allocas (i.exec s) (((i.redirect allocas registers).map .old).exec t) := by
  cases i with
  | binary dst op w a b =>
    refine ⟨rfl, ?_⟩
    simp only [PassInst.redirect, PassInst.map, PassInst.exec, Operand.eval_map h.env]
    exact h.set dst _
  | cast dst op src w a =>
    refine ⟨rfl, ?_⟩
    simp only [PassInst.redirect, PassInst.map, PassInst.exec, Operand.eval_map h.env]
    exact h.set dst _
  | other dst args compute =>
    have hargs : (args.map (Operand.map .old)).map (fun a => a.eval t.env)
        = args.map fun a => a.eval s.env := by
      rw [List.map_map]
      exact List.map_congr_left fun a _ => Operand.eval_map h.env a
    refine ⟨rfl, ?_⟩
    simp only [PassInst.redirect, PassInst.map, PassInst.exec, hargs]
    exact h.set dst _
  | load dst w ptr =>
    have hload : ByteMemory.load (t.mem (ptr.redirect allocas registers).region)
        ((ptr.redirect allocas registers).offset s.env) (typeStoreSize w)
        = ByteMemory.load (s.mem ptr.region) (ptr.offset s.env) (typeStoreSize w) :=
      h.load hplaced fun offset hoffset =>
        hmeets offset (typeStoreSize w) (by rw [PassInst.stateAccess, hoffset]; rfl)
    simp only [PassInst.redirect, PassInst.map, PassInst.exec, PassInst.loaded, PassPtr.region_map,
      PassPtr.offset_map h.env, hload]
    exact ⟨rfl, h.set dst _⟩
  | store w value ptr =>
    refine ⟨rfl, ?_⟩
    simp only [PassInst.redirect, PassInst.map, PassInst.exec, PassPtr.region_map,
      PassPtr.offset_map h.env, Operand.eval_map h.env]
    exact h.store hwf hplaced (fun offset hoffset =>
      hmeets offset (typeStoreSize w) (by rw [PassInst.stateAccess, hoffset]; rfl)) _

end InAllocas

/-! ### Copying -/

/-- The load, if it was there before the pass. -/
def oldLoad : PassName N × ℕ → Option (N × ℕ)
  | (.old name, n) => some (name, n)
  | (.temp .., _) => none

theorem filterMap_oldLoad (out : List (N × ℕ)) :
    (out.map fun e => (PassName.old e.1, e.2)).filterMap oldLoad = out := by
  rw [List.filterMap_map]
  exact List.filterMap_some

section

variable [DecidableEq N] {t : PassState (PassName N)}

/-- The code has no load and gives no value to a name that was there before the pass. -/
structure Quiet (insts : List (PassInst (PassName N))) (t : PassState (PassName N)) : Prop where
  loaded : (runAll insts t).1.filterMap oldLoad = []
  env : ∀ name, (runAll insts t).2.env (.old name) = t.env (.old name)

theorem Quiet.nil (t : PassState (PassName N)) : Quiet [] t := ⟨rfl, fun _ => rfl⟩

theorem Quiet.append {is js : List (PassInst (PassName N))} (h : Quiet is t)
    (h' : Quiet js (runAll is t).2) : Quiet (is ++ js) t where
  loaded := by rw [runAll_append, List.filterMap_append, h.loaded, h'.loaded, List.append_nil]
  env name := by rw [runAll_append, h'.env, h.env]

theorem copyCode_quiet (t : PassState (PassName N)) (block : BlockId) (index byte part k : ℕ)
    (src dst : PassPtr (PassName N)) : Quiet (copyCode (.temp block index byte part) k src dst) t where
  loaded := rfl
  env name := by
    have hne : PassName.old name ≠ .temp block index byte part := nofun
    rw [copyCode, runAll_cons, runAll_cons, runAll_nil, PassInst.exec, PassInst.exec, PassState.env_store,
      PassState.env_set, Function.update_of_ne hne]

/-- A copy of `k` bytes from `a` to `b`. -/
theorem copyCode_mem (t : PassState (PassName N)) (temp : PassName N) (k : ℕ)
    (src dst : PassPtr (PassName N)) {a b : Addr} (hsrc : ∀ env, src.offset env = a)
    (hdst : ∀ env, dst.offset env = b) :
    (runAll (copyCode temp k src dst) t).2.mem
      = Function.update t.mem dst.region fun x =>
        if (x - b).toNat < k then t.mem src.region (a + (x - b)) else t.mem dst.region x := by
  have hsize : typeStoreSize (k * 8) = k := by rw [Nat.mul_comm, typeStoreSize_eight_mul]
  have hpow : 2 ^ (k * 8) = 256 ^ k := by rw [Nat.mul_comm, LittleEndian.two_pow_eight_mul]
  simp only [copyCode, runAll_cons, runAll_nil, PassInst.exec, hsrc, hdst, PassState.env_set,
    Operand.eval_ssa, Function.update_self, PassState.store, PassState.mem_set, hsize, hpow, Nat.mod_mod]
  rw [Nat.mod_eq_of_lt (ByteMemory.load_lt ..)]
  congr 1
  funext x
  rw [ByteMemory.store]
  split
  · next hlt => rw [ByteMemory.byte_load _ _ hlt, BitVec.ofNat_toNat, BitVec.setWidth_eq]
  · rfl

/-- The `alloca` holds what the state holds. -/
def StateAlloca.Holds (a : StateAlloca) (m : ByteMemory.Memory 64)
    (mem : PassRegion → ByteMemory.Memory 64) :
    Prop :=
  ∀ i : Addr, i.toNat < a.size → mem (.alloca a.id) i = m (a.start + i)

/-- The copy of some bytes of the state into the `alloca` of an entry. -/
theorem copyIn (hwf : AllocasWF fresh allocas) {b : StateAlloca} (hb : b ∈ allocas) (temp : PassName N)
    (k : ℕ) (t : PassState (PassName N)) :
    (∀ r, (∀ id, r = .alloca id → id < fresh) →
      (runAll (copyCode temp k (.at (.base .state) b.start) (.base (.alloca b.id))) t).2.mem r = t.mem r) ∧
    ∀ a ∈ allocas, a.Holds (t.mem .state) t.mem ∨ (a = b ∧ b.size ≤ k) →
      a.Holds (t.mem .state)
        (runAll (copyCode temp k (.at (.base .state) b.start) (.base (.alloca b.id))) t).2.mem := by
  have hmem := copyCode_mem t temp k (.at (.base .state) b.start) (.base (.alloca b.id))
    (fun env => (PassPtr.offset_at ..).trans (BitVec.zero_add _)) (PassPtr.offset_base _)
  rw [hmem]
  constructor
  · intro r hr
    exact Function.update_of_ne (fun heq => absurd (hwf.fresh_le hb) (Nat.not_le.mpr (hr _ heq))) ..
  · intro a ha h i hi
    by_cases heq : a = b
    · subst heq
      change Function.update t.mem (.alloca a.id) _ (.alloca a.id) i = _
      rw [Function.update_self]
      split
      · rw [sub_zero]
        rfl
      · next hlt =>
        rw [sub_zero] at hlt
        rcases h with h | ⟨_, hk⟩
        · exact h i hi
        · omega
    · have hne : PassRegion.alloca a.id ≠ .alloca b.id := fun hid =>
        heq (hwf.id_inj ha hb (PassRegion.alloca.inj hid))
      change Function.update t.mem (.alloca b.id) _ (.alloca a.id) i = _
      rw [Function.update_of_ne hne]
      exact h.elim (fun h => h i hi) fun h => absurd h.1 heq

/-- An offset that fits in 32 bits. -/
theorem setWidth_of_fits {offset : Addr} (h : offset.toNat < 2 ^ 32) :
    (offset.setWidth 32).setWidth 64 = offset := by
  apply BitVec.eq_of_toNat_eq
  rw [BitVec.toNat_setWidth, BitVec.toNat_setWidth]
  omega

theorem start_of_key (hwf : AllocasWF fresh allocas) (hfit : ∀ a ∈ allocas, a.start.toNat < 2 ^ 32)
    {a : StateAlloca} (ha : a ∈ allocas) : a.key.setWidth 64 = a.start := by
  rw [hwf.key a ha, setWidth_of_fits (hfit a ha)]

/-- **The entry**: every register of the list is copied. -/
theorem initAllocas (hwf : AllocasWF fresh allocas) (hfit : ∀ a ∈ allocas, a.start.toNat < 2 ^ 32)
    (entry : BlockId) : ∀ (rs : List (StateRegister × ℕ)) (t : PassState (PassName N)),
    (∀ offset size i, (.root offset size, i) ∈ rs → offset.toNat < 2 ^ 32) →
    Quiet (rs.flatMap fun (r, i) => initAlloca allocas entry i r) t ∧
    (∀ r, (∀ id, r = .alloca id → id < fresh) →
      (runAll (rs.flatMap fun (r, i) => initAlloca allocas entry i r) t).2.mem r = t.mem r) ∧
    ∀ a ∈ allocas, a.Holds (t.mem .state) t.mem ∨ (∃ i, (.root a.start a.size, i) ∈ rs) →
      a.Holds (t.mem .state) (runAll (rs.flatMap fun (r, i) => initAlloca allocas entry i r) t).2.mem
  | [], t, _ => ⟨Quiet.nil t, fun _ _ => rfl, fun a _ h => h.elim id nofun⟩
  | (r, i) :: rs, t, hrs => by
    have htail : ∀ offset size i, (.root offset size, i) ∈ rs → offset.toNat < 2 ^ 32 :=
      fun offset size j hj => hrs offset size j (List.mem_cons_of_mem _ hj)
    rw [List.flatMap_cons, runAll_append]
    have hstep : Quiet (initAlloca allocas entry i r) t ∧
        (∀ r', (∀ id, r' = .alloca id → id < fresh) →
          (runAll (initAlloca allocas entry i r) t).2.mem r' = t.mem r') ∧
        ∀ a ∈ allocas, a.Holds (t.mem .state) t.mem ∨ r = .root a.start a.size →
          a.Holds (t.mem .state) (runAll (initAlloca allocas entry i r) t).2.mem := by
      cases r with
      | sub => exact ⟨Quiet.nil t, fun _ _ => rfl, fun a _ h => h.elim id nofun⟩
      | root offset size =>
        have hoffset := setWidth_of_fits (hrs offset size i (List.mem_cons_self ..))
        rw [initAlloca]
        cases hfind : findAlloca allocas (offset.setWidth 32) with
        | none =>
          refine ⟨Quiet.nil t, fun _ _ => rfl, fun a ha h => h.elim id fun heq => ?_⟩
          obtain ⟨rfl, _⟩ := StateRegister.root.inj heq
          rw [← hwf.key a ha, hwf.find ha] at hfind
          cases hfind
        | some b =>
          obtain ⟨hb, hkey⟩ := findAlloca_mem hfind
          have hstart : offset = b.start := by rw [← start_of_key hwf hfit hb, hkey, hoffset]
          subst hstart
          obtain ⟨hother, hholds⟩ := copyIn hwf hb (.temp entry (i + 1) 0 0) size t
          refine ⟨copyCode_quiet .., hother, fun a ha h => hholds a ha (h.imp_right fun heq => ?_)⟩
          obtain ⟨hstart, hsize⟩ := StateRegister.root.inj heq
          have heq : a = b := hwf.unique a ha b hb (by rw [hwf.key a ha, hwf.key b hb, hstart])
          exact ⟨heq, by rw [hsize, heq]⟩
    obtain ⟨hquiet, hother, hholds⟩ := hstep
    obtain ⟨hquiet', hother', hholds'⟩ := initAllocas hwf hfit entry rs
      (runAll (initAlloca allocas entry i r) t).2 htail
    have hstate : (runAll (initAlloca allocas entry i r) t).2.mem .state = t.mem .state :=
      hother _ nofun
    rw [hstate] at hholds'
    refine ⟨hquiet.append hquiet', fun r' hr' => (hother' r' hr').trans (hother r' hr'), fun a ha h => ?_⟩
    apply hholds' a ha
    rcases h with h | ⟨j, hj⟩
    · exact .inl (hholds a ha (.inl h))
    · rcases List.mem_cons.mp hj with heq | hj
      · exact .inl (hholds a ha (.inr (Prod.mk.inj heq).1.symm))
      · exact .inr ⟨j, hj⟩

/-- **The return**: all entries are copied back. -/
theorem writeBacks (hwf : AllocasWF fresh allocas) (hfit : ∀ a ∈ allocas, a.start.toNat < 2 ^ 32)
    (b : BlockId) (m : ByteMemory.Memory 64) : ∀ (as : List (StateAlloca × ℕ))
    (t : PassState (PassName N)), (∀ a i, (a, i) ∈ as → a ∈ allocas) →
    (∀ a ∈ allocas, a.Holds m t.mem) →
    Quiet (as.flatMap fun (a, i) => writeBack b i a) t ∧
    ∀ x, t.mem .state x = m x ∨ (∃ a i, (a, i) ∈ as ∧ a.Covers x) →
      (runAll (as.flatMap fun (a, i) => writeBack b i a) t).2.mem .state x = m x
  | [], t, _, _ => ⟨Quiet.nil t, fun x h => h.elim id nofun⟩
  | (a, i) :: as, t, has, hholds => by
    have ha := has a i (List.mem_cons_self ..)
    have hmem := copyCode_mem t (.temp b i 0 1) a.size (.base (.alloca a.id))
      (.at (.base .state) (a.key.setWidth 64)) (PassPtr.offset_base _) fun env =>
        (PassPtr.offset_at ..).trans ((BitVec.zero_add _).trans (start_of_key hwf hfit ha))
    rw [List.flatMap_cons, runAll_append]
    have hstate : ∀ x, t.mem .state x = m x ∨ a.Covers x →
        (runAll (writeBack b i a) t).2.mem .state x = m x := by
      intro x hx
      rw [writeBack, hmem]
      change Function.update t.mem .state _ .state x = m x
      rw [Function.update_self]
      split
      · next hlt =>
        change t.mem (.alloca a.id) (0 + (x - a.start)) = m x
        rw [zero_add, hholds a ha _ hlt, add_sub_cancel]
      · next hlt => exact hx.resolve_right hlt
    have hholds' : ∀ c ∈ allocas, c.Holds m (runAll (writeBack b i a) t).2.mem := by
      intro c hc j hj
      have hne : PassRegion.alloca c.id ≠ .state := nofun
      rw [writeBack, hmem]
      exact (congrFun (Function.update_of_ne hne ..) j).trans (hholds c hc j hj)
    obtain ⟨hquiet, hback⟩ := writeBacks hwf hfit b m as (runAll (writeBack b i a) t).2
      (fun c j hj => has c j (List.mem_cons_of_mem _ hj)) hholds'
    refine ⟨(copyCode_quiet ..).append hquiet, fun x hx => hback x ?_⟩
    rcases hx with hx | ⟨c, j, hj, hcovers⟩
    · exact .inl (hstate x (.inl hx))
    · rcases List.mem_cons.mp hj with heq | hj
      · obtain ⟨rfl, rfl⟩ := Prod.mk.inj heq
        exact .inl (hstate x (.inr hcovers))
      · exact .inr ⟨c, j, hj, hcovers⟩

/-- Straight-line code of the function. -/
theorem InAllocas.runAll (hwf : AllocasWF fresh allocas) : ∀ {is : List (PassInst N)} {s : PassState N}
    {t : PassState (PassName N)}, InAllocas fresh allocas s t →
    (∀ i ∈ is, i.Placed fresh) →
    (∀ i ∈ is, ∀ offset k, i.stateAccess = some (offset, k) → MeetsAlloca allocas registers offset k) →
    (PassInst.runAll (is.map fun i => (i.redirect allocas registers).map .old) t).1
        = (PassInst.runAll is s).1.map (fun e => (.old e.1, e.2)) ∧
      InAllocas fresh allocas (PassInst.runAll is s).2
        (PassInst.runAll (is.map fun i => (i.redirect allocas registers).map .old) t).2
  | [], _, _, h, _, _ => ⟨rfl, h⟩
  | i :: is, s, t, h, hplaced, hmeets => by
    obtain ⟨hplacedHead, hplaced⟩ := List.forall_mem_cons.mp hplaced
    obtain ⟨hmeetsHead, hmeets⟩ := List.forall_mem_cons.mp hmeets
    obtain ⟨hloaded, hnext⟩ := h.exec hwf hplacedHead hmeetsHead
    obtain ⟨hout, hend⟩ := hnext.runAll hwf hplaced hmeets
    rw [List.map_cons, runAll_cons, runAll_cons, hloaded, List.map_append]
    exact ⟨congrArg _ hout, hend⟩

/-! ### The function -/

omit [DecidableEq N] in
theorem mem_offsetToAlloca {a : StateAlloca} (ha : a ∈ offsetToAlloca fresh registers) :
    a = slotAlloca fresh ∨ .root a.start a.size ∈ registers := by
  have hfold : ∀ (rs : List StateRegister) (allocas : List StateAlloca), a ∈ rs.foldl (fun allocas r =>
      match r with
      | .root offset size => insertAlloca allocas (registerAlloca fresh offset size)
      | .sub .. => allocas) allocas → a ∈ allocas ∨ .root a.start a.size ∈ rs := by
    intro rs
    induction rs with
    | nil => exact fun _ => .inl
    | cons r rs ih =>
      intro allocas ha
      rcases ih _ ha with ha | ha
      · cases r with
        | root offset size =>
          rcases List.mem_cons.mp ha with rfl | ha
          · exact .inr (List.mem_cons_self ..)
          · exact .inl (List.mem_of_mem_filter ha)
        | sub => exact .inl ha
      · exact .inr (List.mem_cons_of_mem _ ha)
  exact (hfold registers _ ha).imp_left List.mem_singleton.mp

omit [DecidableEq N] in
theorem start_lt (hfit : ∀ offset size, .root offset size ∈ registers → offset.toNat < 2 ^ 32)
    {a : StateAlloca} (ha : a ∈ offsetToAlloca fresh registers) : a.start.toNat < 2 ^ 32 := by
  rcases mem_offsetToAlloca ha with rfl | hroot
  · exact (show 2080 < 2 ^ 32 by decide)
  · exact hfit a.start a.size hroot

/-- The state behind the entry. -/
theorem entryCode_inAllocas (registers : List StateRegister)
    (hfit : ∀ offset size, .root offset size ∈ registers → offset.toNat < 2 ^ 32)
    (entry : BlockId) {s : PassState N} {t : PassState (PassName N)}
    (henv : ∀ name, t.env (.old name) = s.env name) (hmem : t.mem = s.mem) :
    Quiet (entryCode fresh registers entry) t ∧
    InAllocas fresh (offsetToAlloca fresh registers) s (runAll (entryCode fresh registers entry) t).2 := by
  have hwf := AllocasWF.offsetToAlloca fresh registers
  rw [entryCode, runAll_append]
  -- the four bytes at 2080, whether their entry is still in the table or not
  obtain ⟨hother, hslot⟩ := copyIn (AllocasWF.slot fresh) (List.mem_singleton_self _)
    (.temp entry 0 0 0) 4 t
  have hquiet := copyCode_quiet t entry 0 0 0 4 (.at (.base .state) 2080) (.base (.alloca fresh))
  set t₁ := (runAll (copyCode (.temp entry 0 0 0) 4 (.at (.base .state) 2080) (.base (.alloca fresh))) t).2
  obtain ⟨hquiet', hother', hholds⟩ := initAllocas hwf (fun a => start_lt hfit) entry registers.zipIdx t₁
    fun offset size i hi => hfit offset size (List.fst_mem_of_mem_zipIdx hi)
  have hstate : t₁.mem .state = t.mem .state := hother _ nofun
  refine ⟨hquiet.append hquiet', fun name => by rw [hquiet'.env, hquiet.env, henv], fun r _ hr => ?_,
    fun x _ => ?_, fun a ha i hi => ?_⟩
  · exact ((hother' r hr).trans (hother r hr)).trans (congrFun hmem r)
  · rw [hother' .state nofun, hstate, hmem]
  · rw [← hmem, ← hstate]
    refine hholds a ha ?_ i hi
    rcases mem_offsetToAlloca ha with rfl | hroot
    · left
      rw [hstate]
      exact hslot _ (List.mem_singleton_self _) (.inr ⟨rfl, Nat.le_refl 4⟩)
    · obtain ⟨j, hj, hget⟩ := List.mem_iff_getElem.mp hroot
      exact .inr ⟨j, List.mk_mem_zipIdx_iff_getElem?.mpr (List.getElem?_eq_some_iff.mpr ⟨hj, hget⟩)⟩

/-- **`state2alloca`** keeps every load and, at every return, the whole state, as long as every access of a
block that is reached goes where its bytes live. -/
theorem stateToAlloca_keeps (f : PassFunction N) (registers : List StateRegister)
    {order : List StateAlloca} {entry : BlockId} (hentry : entry ∉ f.order)
    (horder : order.Perm (offsetToAlloca fresh registers))
    (hfit : ∀ offset size, .root offset size ∈ registers → offset.toNat < 2 ^ 32)
    (hplaced : ∀ b, ∀ i ∈ (f.block b).insts, i.Placed fresh)
    {s : PassState N} {t : PassState (PassName N)} (henv : ∀ name, t.env (.old name) = s.env name)
    (hmem : t.mem = s.mem)
    (hmeets : ∀ b s', BlockRun.Reaches f.step f.entry s b s' → ∀ i ∈ (f.block b).insts, ∀ offset k,
      i.stateAccess = some (offset, k) →
        MeetsAlloca (offsetToAlloca fresh registers) registers offset k) (n : ℕ) :
    (BlockRun.run (f.stateToAlloca fresh registers order entry hentry).step (n + 1) entry t).1.filterMap
        oldLoad = (BlockRun.run f.step n f.entry s).1 ∧
    BlockRun.Exit.Related (fun _ s t => ∀ name, t.env (.old name) = s.env name)
      (fun s t => (∀ name, t.env (.old name) = s.env name) ∧ t.mem .state = s.mem .state)
      (BlockRun.run f.step n f.entry s).2
      (BlockRun.run (f.stateToAlloca fresh registers order entry hentry).step (n + 1) entry t).2 := by
  have hwf := AllocasWF.offsetToAlloca fresh registers
  set f' := f.stateToAlloca fresh registers order entry hentry with hf'
  obtain ⟨hquiet, hstart⟩ := entryCode_inAllocas registers hfit entry henv hmem
  have hfirst : f'.step entry t = ((runAll (entryCode fresh registers entry) t).1,
      .goto f.entry (runAll (entryCode fresh registers entry) t).2) := by
    rw [PassFunction.step, hf', PassFunction.stateToAlloca]
    simp only [if_true]
    rfl
  have hblock : ∀ b s t, b ∈ f.order ∧ InAllocas fresh (offsetToAlloca fresh registers) s t →
      (∀ i ∈ (f.block b).insts, ∀ offset k, i.stateAccess = some (offset, k) →
        MeetsAlloca (offsetToAlloca fresh registers) registers offset k) →
      (f'.step b t).1.filterMap oldLoad = (f.step b s).1 ∧
      BlockRun.Exit.Related
        (fun b s t => b ∈ f.order ∧ InAllocas fresh (offsetToAlloca fresh registers) s t)
        (fun s t => (∀ name, t.env (.old name) = s.env name) ∧ t.mem .state = s.mem .state)
        (f.step b s).2 (f'.step b t).2 := by
    rintro b s t ⟨hb, h⟩ hmeets
    have hne : b ≠ entry := fun heq => hentry (heq ▸ hb)
    obtain ⟨hout, hin⟩ := h.runAll hwf (hplaced b) hmeets
    have hclosed := f.closed b hb
    have hself : f'.block b = (f.block b).stateToAlloca fresh registers order b := if_neg hne
    rw [PassFunction.step, PassFunction.step, hself, PassBlock.stateToAlloca]
    cases hterminator : (f.block b).terminator with
    | switch value cases default =>
      rw [hterminator] at hclosed
      rw [List.append_nil, hout, filterMap_oldLoad, Terminator.map, Terminator.exit, Terminator.exit,
        Operand.eval_map hin.env]
      exact ⟨rfl, .goto
        ⟨hclosed _ (Terminator.mem_successors (s := (runAll (f.block b).insts s).2) rfl), hin⟩⟩
    | ret =>
      obtain ⟨hquiet, hback⟩ := writeBacks hwf (fun a => start_lt hfit) b
        ((runAll (f.block b).insts s).2.mem .state) order.zipIdx _
        (fun a i hi => horder.mem_iff.mp (List.fst_mem_of_mem_zipIdx hi)) hin.alloca
      rw [runAll_append, List.filterMap_append, hout, filterMap_oldLoad, hquiet.loaded, List.append_nil]
      refine ⟨rfl, .ret ⟨fun name => (hquiet.env name).trans (hin.env name), funext fun x => hback x ?_⟩⟩
      by_cases hx : ∀ a ∈ offsetToAlloca fresh registers, ¬ a.Covers x
      · exact .inl (hin.state x hx)
      · simp only [not_forall, not_not] at hx
        obtain ⟨a, ha, hcovers⟩ := hx
        obtain ⟨i, hi, hget⟩ := List.mem_iff_getElem.mp (horder.mem_iff.mpr ha)
        exact .inr ⟨a, i, List.mk_mem_zipIdx_iff_getElem?.mpr
          (List.getElem?_eq_some_iff.mpr ⟨hi, hget⟩), hcovers⟩
    | unreachable =>
      rw [List.append_nil, hout, filterMap_oldLoad]
      exact ⟨rfl, .stuck⟩
  have hentryMem : f.entry ∈ f.order := List.head_mem f.nonempty
  obtain ⟨hout, hend⟩ := BlockRun.run_related (O := fun out out' => out'.filterMap oldLoad = out) rfl
    (fun h h' => by rw [List.filterMap_append, h, h']) (fun b s t h hP => hblock b s t h hP) n
    ⟨hentryMem, hstart⟩ hmeets
  rw [BlockRun.run_succ_goto hfirst, List.filterMap_append, hquiet.loaded, List.nil_append]
  exact ⟨hout, hend.mono (fun _ _ _ h => h.2.env) fun _ _ h => h⟩

end

/-! ### Examples -/

/-- RAX, with AH at its second byte. -/
def accumulator : List StateRegister := [.root 2216 8, .sub 2217 1 (.root 2216 8)]

/-- A function that writes one byte of the state. -/
def writingByte (offset : ℕ) : PassFunction ℕ where
  order := [0]
  block _ := ⟨[.store 8 (.const 8 5) (.gep int8Type (.base .state) [⟨1, 64, .const 64 offset⟩])], .ret⟩
  nodup := nodup_entryOnly
  nonempty := entryOnly_ne_nil
  closed _ _ _ h := absurd h List.not_mem_nil

theorem writingByte_placed (offset : ℕ) :
    ∀ b, ∀ i ∈ ((writingByte offset).block b).insts, i.Placed 0 := by
  intro b i hi
  rw [List.mem_singleton.mp hi]
  exact ⟨fun _ => ⟨_, rfl⟩, nofun⟩

/-- AH is written where it lives. -/
theorem meetsAlloca_ah : MeetsAlloca (offsetToAlloca 0 accumulator) accumulator 2217 1 := by
  have hplace : allocaPlace (offsetToAlloca 0 accumulator) accumulator 2217
      = some (registerAlloca 0 2216 8, 1) := by decide +kernel
  rw [MeetsAlloca, hplace]
  refine ⟨rfl, by decide, fun b hb hne x hx hcovers => ?_⟩
  have hall : offsetToAlloca 0 accumulator = [registerAlloca 0 2216 8, slotAlloca 0] := by decide +kernel
  rw [hall] at hb
  rcases List.mem_cons.mp hb with rfl | hb
  · exact hne rfl
  · rw [List.mem_singleton.mp hb] at hcovers
    change (x - 2080).toNat < 4 at hcovers
    bv_omega

theorem stateToAlloca_keeps_ah :
    ∃ hentry : 1 ∉ (writingByte 2217).order,
    (BlockRun.run ((writingByte 2217).stateToAlloca 0 accumulator (offsetToAlloca 0 accumulator) 1
        hentry).step 2 1 ⟨fun _ => 0, fun _ _ => 0⟩).1.filterMap oldLoad
      = (BlockRun.run (writingByte 2217).step 1 (writingByte 2217).entry ⟨fun _ => 0, fun _ _ => 0⟩).1 ∧
    BlockRun.Exit.Related (fun _ s t => ∀ name, t.env (.old name) = s.env name)
      (fun s t => (∀ name, t.env (.old name) = s.env name) ∧ t.mem .state = s.mem .state)
      (BlockRun.run (writingByte 2217).step 1 (writingByte 2217).entry ⟨fun _ => 0, fun _ _ => 0⟩).2
      (BlockRun.run ((writingByte 2217).stateToAlloca 0 accumulator (offsetToAlloca 0 accumulator) 1
        hentry).step 2 1 ⟨fun _ => 0, fun _ _ => 0⟩).2 := by
  refine ⟨by decide, stateToAlloca_keeps (writingByte 2217) accumulator _ (List.Perm.refl _) ?_
    (writingByte_placed 2217) (fun _ => rfl) rfl ?_ 1⟩
  · intro offset size h
    rcases List.mem_cons.mp h with heq | h
    · obtain ⟨rfl, _⟩ := StateRegister.root.inj heq
      decide
    · cases List.mem_singleton.mp h
  · intro b s' _ i hi offset k haccess
    rw [List.mem_singleton.mp hi] at haccess
    obtain ⟨rfl, rfl⟩ := Prod.mk.inj (Option.some.inj haccess)
    exact meetsAlloca_ah

/-- The third byte of RAX stays in the state, and the copy back undoes the write. -/
theorem byte_of_register_lost : ¬ ∀ (f : PassFunction ℕ) (registers : List StateRegister)
    (entry : BlockId) (hentry : entry ∉ f.order),
    (∀ b, ∀ i ∈ (f.block b).insts, i.Placed 0) →
    ∀ (s : PassState ℕ) (t : PassState (PassName ℕ)), (∀ name, t.env (.old name) = s.env name) →
    t.mem = s.mem → ∀ n,
    BlockRun.Exit.Related (fun _ s t => ∀ name, t.env (.old name) = s.env name)
      (fun s t => (∀ name, t.env (.old name) = s.env name) ∧ t.mem .state = s.mem .state)
      (BlockRun.run f.step n f.entry s).2
      (BlockRun.run (f.stateToAlloca 0 registers (offsetToAlloca 0 registers) entry hentry).step (n + 1)
        entry t).2 := by
  intro h
  have hrun := h (writingByte 2218) accumulator 1 (by decide) (writingByte_placed 2218)
    ⟨fun _ => 0, fun _ _ => 0⟩ ⟨fun _ => 0, fun _ _ => 0⟩ (fun _ => rfl) rfl 1
  change BlockRun.Exit.Related _ _ (.ret _) (.ret _) at hrun
  cases hrun with
  | ret hret => exact absurd (congrFun hret.2 2218) (by decide +kernel)

end Vexa
