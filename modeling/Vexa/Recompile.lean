import Vexa.MergeSimulation

/-!
# The recompiled function

`builder::recompile` puts a naked function in front of the lifted one, the text of which is assembly: it
makes room for remill's `State` on the stack, copies the registers into it, calls the lifted function
with a pointer to it, and copies the registers back. The stack pointer is the only register that is copied
in and not out.

## Main definitions

* `Native`, `AsmInst` — the machine the text is for, as far as the text uses it
* `recompile` — the text
* `StateStruct` — remill's registers lie apart in the struct
* `Compiled` — the code generator kept the meaning of the lifted function

## Main results

* `atCall_entered` — the struct holds the registers when the lifted function is called
* `recompile_simulates` — the registers afterwards are those the program ends with
-/

namespace Vexa

/-! ### The machine -/

/-- The 64-bit registers by the assembler's names, the base of the `FS` segment, and memory. -/
structure Native where
  reg : String → Addr
  fsBase : Addr
  mem : ByteMemory.Memory 64

namespace Native

def set (n : Native) (r : String) (v : Addr) : Native := { n with reg := Function.update n.reg r v }

def load (n : Native) (a : Addr) : Addr := BitVec.ofNat 64 (ByteMemory.load n.mem a 8)

def store (n : Native) (a v : Addr) : Native := { n with mem := ByteMemory.store n.mem a 8 v.toNat }

variable (n : Native) (r : String) (v a : Addr)

@[simp] theorem reg_set_self : (n.set r v).reg r = v := Function.update_self ..

@[simp] theorem reg_set_of_ne {r q : String} (h : q ≠ r) : (n.set r v).reg q = n.reg q :=
  Function.update_of_ne h ..

@[simp] theorem mem_set : (n.set r v).mem = n.mem := rfl

@[simp] theorem fsBase_set : (n.set r v).fsBase = n.fsBase := rfl

@[simp] theorem reg_store : (n.store a v).reg = n.reg := rfl

@[simp] theorem fsBase_store : (n.store a v).fsBase = n.fsBase := rfl

@[simp] theorem mem_store : (n.store a v).mem = ByteMemory.store n.mem a 8 v.toNat := rfl

/-- The machine after an aligned or unaligned store of eight bytes reads them back. -/
theorem load_store_self : (n.store a v).load a = v := by
  have hlt : v.toNat < 256 ^ 8 := v.isLt
  rw [load, mem_store, ByteMemory.load_store_self (by decide), Nat.mod_eq_of_lt hlt, BitVec.ofNat_toNat,
    BitVec.setWidth_eq]

end Native

/-- The instructions of the text. -/
inductive AsmInst
  | subRsp (n : ℕ)
  | addRsp (n : ℕ)
  | store (offset : Addr) (r : String)
  | load (r : String) (offset : Addr)
  | addAt (offset : Addr) (n : ℕ)
  | mov (dst src : String)
  | xor (r : String)
  | lea (r symbol : String)
  | rdfsbase (r : String)
  | call (function : String)
deriving DecidableEq, Repr

namespace AsmInst

def text : AsmInst → String
  | subRsp n => s!"sub rsp, {n}\n"
  | addRsp n => s!"add rsp, {n}\n"
  | store offset r => "mov qword ptr [rsp + " ++ toString offset.toNat ++ "], " ++ r ++ "\n"
  | load r offset => "mov " ++ r ++ ", qword ptr [rsp + " ++ toString offset.toNat ++ "]\n"
  | addAt offset n => "add qword ptr [rsp + " ++ toString offset.toNat ++ "], " ++ toString n ++ "\n"
  | mov dst src => s!"mov {dst}, {src}\n"
  | xor r => s!"xor {r}, {r}\n"
  | lea r symbol => "lea " ++ r ++ ", [rip + " ++ symbol ++ "]\n"
  | rdfsbase r => s!"rdfsbase {r}\n"
  | call function => s!"call {function}\n"

variable (address : String → Addr) (function : String → Native → Native)

/-- What an instruction does, given where the linker put the symbols and what the functions do until they
return. -/
def exec : AsmInst → Native → Native
  | subRsp k, n => n.set "rsp" (n.reg "rsp" - BitVec.ofNat 64 k)
  | addRsp k, n => n.set "rsp" (n.reg "rsp" + BitVec.ofNat 64 k)
  | store offset r, n => n.store (n.reg "rsp" + offset) (n.reg r)
  | load r offset, n => n.set r (n.load (n.reg "rsp" + offset))
  | addAt offset k, n =>
    n.store (n.reg "rsp" + offset) (n.load (n.reg "rsp" + offset) + BitVec.ofNat 64 k)
  | mov dst src, n => n.set dst (n.reg src)
  | xor r, n => n.set r (n.reg r ^^^ n.reg r)
  | lea r symbol, n => n.set r (address symbol)
  | rdfsbase r, n => n.set r n.fsBase
  | call f, n => function f n

end AsmInst

section

variable (address : String → Addr) (function : String → Native → Native)

def execAsm (asm : List AsmInst) (n : Native) : Native :=
  asm.foldl (fun n i => i.exec address function n) n

theorem execAsm_append (asm asm' : List AsmInst) (n : Native) :
    execAsm address function (asm ++ asm') n
      = execAsm address function asm' (execAsm address function asm n) := List.foldl_append ..

theorem execAsm_cons (i : AsmInst) (asm : List AsmInst) (n : Native) :
    execAsm address function (i :: asm) n
      = execAsm address function asm (i.exec address function n) := rfl

end

/-! ### The text -/

/-- The name of a register in the text. -/
def Register.asmName (r : Register) : String := r.name.map Char.toLower

/-- The registers that are copied into the struct. -/
def Register.isCopied (r : Register) : Bool :=
  !r.hasParent && r.name != "RIP" && !r.name.endsWith "BASE" && r.size == 8 && !r.name.startsWith "MM"

def copiedRegisters (registers : List Register) : List Register := registers.filter Register.isCopied

/-- Those that are copied back. -/
def restoredRegisters (registers : List Register) : List Register :=
  (copiedRegisters registers).filter fun r => r.name != "RSP"

/-- The text up to the call. -/
def recompileEntry (registers : List Register) (sp fsBase : Register) (size : ℕ) : List AsmInst :=
  .subRsp size :: ((copiedRegisters registers).map (fun r => .store r.offset r.asmName) ++
    [.addAt sp.offset size, .mov "rdi" "rsp", .xor "rsi", .lea "rdx" "IMAGE_BASE", .rdfsbase "rax",
      .store fsBase.offset "rax"])

/-- The text after the call. -/
def recompileExit (registers : List Register) (size : ℕ) : List AsmInst :=
  (restoredRegisters registers).map (fun r => .load r.asmName r.offset) ++ [.addRsp size]

/-- The text of `builder::recompile`, for a lifted function of that name; `sp` and `fsBase` are the
entries of `cpu::registers` for `SP` and `FSBASE`. -/
def recompile (registers : List Register) (sp fsBase : Register) (size : ℕ) (name : String) :
    List AsmInst :=
  recompileEntry registers sp fsBase size ++ .call name :: recompileExit registers size

def recompileText (registers : List Register) (sp fsBase : Register) (size : ℕ) (name : String) : String :=
  ".intel_syntax noprefix\n" ++ String.join ((recompile registers sp fsBase size name).map AsmInst.text)

/-! ### The struct -/

/-- Two registers share no byte. -/
def Register.Apart (r q : Register) : Prop :=
  r.offset.toNat + 8 ≤ q.offset.toNat ∨ q.offset.toNat + 8 ≤ r.offset.toNat

/-- The registers that are copied and the base of `FS` lie apart in the struct, the copied ones have names
of their own, and one of them is the stack pointer, which begins where `SP` does. -/
structure StateStruct (registers : List Register) (sp fsBase : Register) (size : ℕ) : Prop where
  size_le : size ≤ 2 ^ 64
  fits : ∀ r ∈ copiedRegisters registers, r.offset.toNat + 8 ≤ size
  fsBase_fits : fsBase.offset.toNat + 8 ≤ size
  apart : ∀ r ∈ copiedRegisters registers, ∀ q ∈ copiedRegisters registers, r ≠ q → r.Apart q
  fsBase_apart : ∀ r ∈ copiedRegisters registers, r.Apart fsBase
  names : ∀ r ∈ copiedRegisters registers, ∀ q ∈ copiedRegisters registers, r ≠ q → r.asmName ≠ q.asmName
  rsp : ∃ r ∈ copiedRegisters registers, r.name = "RSP" ∧ r.offset = sp.offset

variable {registers rs : List Register} {sp fsBase r q : Register} {size : ℕ}
  {address : String → Addr} {function : String → Native → Native} {n n' : Native} {name : String}

theorem Register.asmName_rsp (h : r.name = "RSP") : r.asmName = "rsp" := by
  rw [Register.asmName, h]
  decide +kernel

theorem Register.Apart.disjoint (h : r.Apart q) (hr : r.offset.toNat + 8 ≤ 2 ^ 64)
    (hq : q.offset.toNat + 8 ≤ 2 ^ 64) (base x : Addr) :
    ¬ ((x - (base + r.offset)).toNat < 8 ∧ (x - (base + q.offset)).toNat < 8) := by
  rw [Register.Apart] at h
  bv_omega

theorem Native.load_store_of_apart (n : Native) (h : r.Apart q) (hr : r.offset.toNat + 8 ≤ 2 ^ 64)
    (hq : q.offset.toNat + 8 ≤ 2 ^ 64) (base v : Addr) :
    (n.store (base + q.offset) v).load (base + r.offset) = n.load (base + r.offset) := by
  rw [Native.load, Native.mem_store,
    ByteMemory.load_store_of_disjoint _ (by decide) (h.disjoint hr hq base), ← Native.load]

/-- A store into the struct leaves the bytes outside alone. -/
theorem Native.mem_store_of_outside (n : Native) (hq : q.offset.toNat + 8 ≤ size) (hsize : size ≤ 2 ^ 64)
    {base x : Addr} (hx : ¬ (x - base).toNat < size) (v : Addr) :
    (n.store (base + q.offset) v).mem x = n.mem x := by
  refine ByteMemory.store_of_not_lt _ ?_
  bv_omega

/-! ### Copying in -/

section

variable (address function)

theorem reg_storeAll (rs : List Register) (n : Native) :
    (execAsm address function (rs.map fun r => .store r.offset r.asmName) n).reg = n.reg ∧
    (execAsm address function (rs.map fun r => .store r.offset r.asmName) n).fsBase = n.fsBase := by
  induction rs generalizing n with
  | nil => exact ⟨rfl, rfl⟩
  | cons r rs ih =>
    rw [List.map_cons, execAsm_cons]
    exact ih (n.store (n.reg "rsp" + r.offset) (n.reg r.asmName))

theorem load_storeAll_of_apart (hr : r.offset.toNat + 8 ≤ 2 ^ 64)
    (hapart : ∀ q ∈ rs, r.Apart q ∧ q.offset.toNat + 8 ≤ 2 ^ 64) (n : Native) :
    (execAsm address function (rs.map fun r => .store r.offset r.asmName) n).load (n.reg "rsp" + r.offset)
      = n.load (n.reg "rsp" + r.offset) := by
  induction rs generalizing n with
  | nil => rfl
  | cons q rs ih =>
    obtain ⟨⟨hq, hfits⟩, hrest⟩ := List.forall_mem_cons.mp hapart
    rw [List.map_cons, execAsm_cons]
    exact (ih hrest (n.store (n.reg "rsp" + q.offset) (n.reg q.asmName))).trans
      (n.load_store_of_apart hq hr hfits (n.reg "rsp") (n.reg q.asmName))

theorem load_storeAll (hapart : ∀ r ∈ rs, ∀ q ∈ rs, r ≠ q → r.Apart q)
    (hfits : ∀ r ∈ rs, r.offset.toNat + 8 ≤ 2 ^ 64) (hr : r ∈ rs) (n : Native) :
    (execAsm address function (rs.map fun r => .store r.offset r.asmName) n).load (n.reg "rsp" + r.offset)
      = n.reg r.asmName := by
  induction rs generalizing n with
  | nil => cases hr
  | cons q rs ih =>
    have hrest : ∀ p ∈ rs, p ∈ q :: rs := fun p hp => List.mem_cons_of_mem _ hp
    rw [List.map_cons, execAsm_cons]
    by_cases hmem : r ∈ rs
    · exact ih (fun p hp p' hp' => hapart p (hrest p hp) p' (hrest p' hp')) (fun p hp => hfits p (hrest p hp))
        hmem (n.store (n.reg "rsp" + q.offset) (n.reg q.asmName))
    · obtain rfl : r = q := (List.mem_cons.mp hr).resolve_right hmem
      -- no later store goes there
      refine (load_storeAll_of_apart address function (hfits r hr) (fun p hp => ⟨?_, hfits p (hrest p hp)⟩)
        (n.store (n.reg "rsp" + r.offset) (n.reg r.asmName))).trans (n.load_store_self ..)
      exact hapart r hr p (hrest p hp) fun heq => hmem (heq ▸ hp)

theorem mem_storeAll_of_outside (hsize : size ≤ 2 ^ 64) (hfits : ∀ r ∈ rs, r.offset.toNat + 8 ≤ size)
    (n : Native) {x : Addr} (hx : ¬ (x - n.reg "rsp").toNat < size) :
    (execAsm address function (rs.map fun r => .store r.offset r.asmName) n).mem x = n.mem x := by
  induction rs generalizing n with
  | nil => rfl
  | cons q rs ih =>
    obtain ⟨hq, hrest⟩ := List.forall_mem_cons.mp hfits
    rw [List.map_cons, execAsm_cons]
    exact (ih hrest (n.store (n.reg "rsp" + q.offset) (n.reg q.asmName)) hx).trans
      (n.mem_store_of_outside hq hsize hx _)

/-- The machine when the lifted function is called. -/
def atCall (registers : List Register) (sp fsBase : Register) (size : ℕ) (n : Native) : Native :=
  execAsm address function (recompileEntry registers sp fsBase size) n

/-- The registers copied in, before the stack pointer is put right. -/
def afterStores (registers : List Register) (size : ℕ) (n : Native) : Native :=
  execAsm address function ((copiedRegisters registers).map fun r => .store r.offset r.asmName)
    (n.set "rsp" (n.reg "rsp" - BitVec.ofNat 64 size))

theorem afterStores_rsp (registers : List Register) (size : ℕ) (n : Native) :
    (afterStores address function registers size n).reg "rsp" = n.reg "rsp" - BitVec.ofNat 64 size := by
  rw [afterStores, (reg_storeAll ..).1, Native.reg_set_self]

theorem atCall_mem (registers : List Register) (sp fsBase : Register) (size : ℕ) (n : Native) :
    let m := afterStores address function registers size n
    let base := n.reg "rsp" - BitVec.ofNat 64 size
    (atCall address function registers sp fsBase size n).mem =
      ((m.store (base + sp.offset) (m.load (base + sp.offset) + BitVec.ofNat 64 size)).store
        (base + fsBase.offset) n.fsBase).mem := by
  have hrsp := afterStores_rsp address function registers size n
  have hfs : (afterStores address function registers size n).fsBase = n.fsBase := by
    rw [afterStores, (reg_storeAll ..).2, Native.fsBase_set]
  rw [atCall, recompileEntry, execAsm_cons, execAsm_append, AsmInst.exec, ← afterStores]
  simp [execAsm, AsmInst.exec, hrsp, hfs]

theorem atCall_reg (registers : List Register) (sp fsBase : Register) (size : ℕ) (n : Native) :
    let n' := atCall address function registers sp fsBase size n
    n'.reg "rdi" = n.reg "rsp" - BitVec.ofNat 64 size ∧ n'.reg "rsp" = n'.reg "rdi" ∧ n'.reg "rsi" = 0 ∧
      n'.reg "rdx" = address "IMAGE_BASE" := by
  have hrsp := afterStores_rsp address function registers size n
  rw [atCall, recompileEntry, execAsm_cons, execAsm_append, AsmInst.exec, ← afterStores]
  simp [execAsm, AsmInst.exec, hrsp]

end

/-- What the lifted function is called with: the struct at the top of the stack holds the registers, and
nothing else was written. -/
structure Entered (address : String → Addr) (registers : List Register) (fsBase : Register) (size : ℕ)
    (n n' : Native) : Prop where
  rdi : n'.reg "rdi" = n.reg "rsp" - BitVec.ofNat 64 size
  rsp : n'.reg "rsp" = n'.reg "rdi"
  rsi : n'.reg "rsi" = 0
  rdx : n'.reg "rdx" = address "IMAGE_BASE"
  copied : ∀ r ∈ copiedRegisters registers, n'.load (n'.reg "rdi" + r.offset) = n.reg r.asmName
  fsBase : n'.load (n'.reg "rdi" + fsBase.offset) = n.fsBase
  frame : ∀ x, ¬ (x - n'.reg "rdi").toNat < size → n'.mem x = n.mem x

theorem Native.load_congr {m m' : Native} (h : m.mem = m'.mem) (a : Addr) : m.load a = m'.load a := by
  rw [Native.load, Native.load, h]

/-- What the stores of the registers left. -/
theorem afterStores_load (h : StateStruct registers sp fsBase size) (n : Native)
    (hr : r ∈ copiedRegisters registers) :
    (afterStores address function registers size n).load
        (n.reg "rsp" - BitVec.ofNat 64 size + r.offset)
      = (n.set "rsp" (n.reg "rsp" - BitVec.ofNat 64 size)).reg r.asmName := by
  have hload := load_storeAll address function h.apart (fun r hr => (h.fits r hr).trans h.size_le) hr
    (n.set "rsp" (n.reg "rsp" - BitVec.ofNat 64 size))
  rwa [Native.reg_set_self] at hload

/-- **The struct holds the registers** when the lifted function is called, the stack pointer as it was
before there was a struct. -/
theorem atCall_entered (address : String → Addr) (function : String → Native → Native)
    (h : StateStruct registers sp fsBase size) (n : Native) :
    Entered address registers fsBase size n (atCall address function registers sp fsBase size n) := by
  obtain ⟨hrdi, hrsp, hrsi, hrdx⟩ := atCall_reg address function registers sp fsBase size n
  have hmem := atCall_mem address function registers sp fsBase size n
  simp only at hrdi hrsp hrsi hrdx hmem
  obtain ⟨q, hq, hqname, hqoffset⟩ := h.rsp
  have hqasm := Register.asmName_rsp hqname
  have hle : ∀ r ∈ copiedRegisters registers, r.offset.toNat + 8 ≤ 2 ^ 64 := fun r hr =>
    (h.fits r hr).trans h.size_le
  have hfsle : fsBase.offset.toNat + 8 ≤ 2 ^ 64 := h.fsBase_fits.trans h.size_le
  refine ⟨hrdi, hrsp, hrsi, hrdx, fun r hr => ?_, ?_, fun x hx => ?_⟩
  · rw [hrdi, Native.load_congr hmem, Native.load_store_of_apart _ (h.fsBase_apart r hr) (hle r hr) hfsle,
      ← hqoffset]
    by_cases heq : r = q
    · -- the stack pointer was moved before it was stored
      subst heq
      rw [Native.load_store_self, afterStores_load h n hr, hqasm, Native.reg_set_self, BitVec.sub_add_cancel]
    · have hne : r.asmName ≠ "rsp" := hqasm ▸ h.names r hr q hq heq
      rw [Native.load_store_of_apart _ (h.apart r hr q hq heq) (hle r hr) (hle q hq),
        afterStores_load h n hr, Native.reg_set_of_ne _ _ hne]
  · rw [hrdi, Native.load_congr hmem, Native.load_store_self]
  · rw [hrdi] at hx
    have hstores : (afterStores address function registers size n).mem x = n.mem x := by
      refine mem_storeAll_of_outside address function h.size_le h.fits _ ?_
      rwa [Native.reg_set_self]
    rw [hmem, Native.mem_store_of_outside _ h.fsBase_fits h.size_le hx, ← hqoffset,
      Native.mem_store_of_outside _ (h.fits q hq) h.size_le hx, hstores]

/-! ### Copying out -/

theorem execAsm_loadAll (address : String → Addr) (function : String → Native → Native)
    (hnames : ∀ r ∈ rs, ∀ q ∈ rs, r ≠ q → r.asmName ≠ q.asmName)
    (hrsp : ∀ r ∈ rs, r.asmName ≠ "rsp") (n : Native) :
    let n' := execAsm address function (rs.map fun r => .load r.asmName r.offset) n
    n'.mem = n.mem ∧ (∀ s, (∀ r ∈ rs, r.asmName ≠ s) → n'.reg s = n.reg s) ∧
      ∀ r ∈ rs, n'.reg r.asmName = n.load (n.reg "rsp" + r.offset) := by
  induction rs generalizing n with
  | nil => exact ⟨rfl, fun _ _ => rfl, fun r hr => by cases hr⟩
  | cons q rs ih =>
    have hrest : ∀ p ∈ rs, p ∈ q :: rs := fun p hp => List.mem_cons_of_mem _ hp
    obtain ⟨hmem, hothers, hloads⟩ := ih (fun p hp p' hp' => hnames p (hrest p hp) p' (hrest p' hp'))
      (fun p hp => hrsp p (hrest p hp)) (n.set q.asmName (n.load (n.reg "rsp" + q.offset)))
    have hsame : (n.set q.asmName (n.load (n.reg "rsp" + q.offset))).reg "rsp" = n.reg "rsp" :=
      Native.reg_set_of_ne _ _ (hrsp q (List.mem_cons_self ..)).symm
    simp only [List.map_cons, execAsm_cons, AsmInst.exec]
    refine ⟨hmem, fun s hs => ?_, fun r hr => ?_⟩
    · obtain ⟨hq, hs⟩ := List.forall_mem_cons.mp hs
      rw [hothers s hs, Native.reg_set_of_ne _ _ hq.symm]
    · by_cases hlater : r ∈ rs
      · rw [hloads r hlater, hsame]
        rfl
      · obtain rfl : r = q := (List.mem_cons.mp hr).resolve_right hlater
        rw [hothers r.asmName fun p hp => hnames p (hrest p hp) r hr fun heq => hlater (heq ▸ hp),
          Native.reg_set_self]

/-- **What the text does after the call** that left `n`: the registers are those in the struct, and the
stack pointer that of the call less the struct. -/
theorem execAsm_recompileExit (address : String → Addr) (function : String → Native → Native)
    (h : StateStruct registers sp fsBase size) (n : Native) :
    let n' := execAsm address function (recompileExit registers size) n
    n'.mem = n.mem ∧ n'.reg "rsp" = n.reg "rsp" + BitVec.ofNat 64 size ∧
      ∀ r ∈ copiedRegisters registers, r.name ≠ "RSP" →
        n'.reg r.asmName = n.load (n.reg "rsp" + r.offset) := by
  obtain ⟨q, hq, hqname, _⟩ := h.rsp
  have hqasm := Register.asmName_rsp hqname
  have hmem : ∀ r ∈ restoredRegisters registers, r ∈ copiedRegisters registers ∧ r.name ≠ "RSP" := by
    intro r hr
    obtain ⟨hr, hne⟩ := List.mem_filter.mp hr
    exact ⟨hr, bne_iff_ne.mp hne⟩
  have hrsp : ∀ r ∈ copiedRegisters registers, r.name ≠ "RSP" → r.asmName ≠ "rsp" := fun r hr hne =>
    hqasm ▸ h.names r hr q hq fun heq => hne (heq ▸ hqname)
  obtain ⟨hkeeps, hothers, hloads⟩ := execAsm_loadAll address function
    (fun r hr q hq => h.names r (hmem r hr).1 q (hmem q hq).1)
    (fun r hr => hrsp r (hmem r hr).1 (hmem r hr).2) n
  simp only [recompileExit, execAsm_append, execAsm_cons, AsmInst.exec]
  refine ⟨hkeeps, ?_, fun r hr hne => ?_⟩
  · rw [execAsm, List.foldl_nil, Native.reg_set_self, hothers "rsp" fun r hr => hrsp r (hmem r hr).1 (hmem r hr).2]
  · rw [execAsm, List.foldl_nil, Native.reg_set_of_ne _ _ (hrsp r hr hne)]
    exact hloads r (List.mem_filter.mpr ⟨hr, bne_iff_ne.mpr hne⟩)

/-! ### The lifted function -/

/-- What the code generator is relied on for: called with `State` at `RDI`, the code of `f` keeps the stack
pointer, and where `f` returns from `s₀`, whose state is that struct, it leaves the state `f` returns with
there. -/
structure Compiled (f : Function) (size : ℕ) (s₀ : IrState Name) (n n' : Native) : Prop where
  rsp : n'.reg "rsp" = n.reg "rsp"
  state : ∀ pcs b t t', Visits f (0, s₀) pcs (b, t) → execInsts (f b).insts t = (t', some .ret) →
    ∀ i < size, n'.mem (n.reg "rdi" + BitVec.ofNat 64 i) = t'.mem statePage (BitVec.ofNat 64 i)

/-- The same bytes in the struct and in the state. -/
theorem Native.load_struct (m : ByteMemory.Memory 64) {base : Addr}
    (hsame : ∀ i < size, n.mem (base + BitVec.ofNat 64 i) = m (BitVec.ofNat 64 i))
    (hfits : r.offset.toNat + 8 ≤ size) :
    n.load (base + r.offset) = BitVec.ofNat 64 (ByteMemory.load m r.offset 8) := by
  have hbytes : ∀ i < 8, n.mem (base + r.offset + BitVec.ofNat 64 i) = m (r.offset + BitVec.ofNat 64 i) := by
    intro i hi
    have hoffset : BitVec.ofNat 64 (r.offset.toNat + i) = r.offset + BitVec.ofNat 64 i := by
      rw [BitVec.ofNat_add, BitVec.ofNat_toNat, BitVec.setWidth_eq]
    have hbyte := hsame (r.offset.toNat + i) (by omega)
    rwa [hoffset, ← BitVec.add_assoc] at hbyte
  rw [Native.load, ByteMemory.load_eq hbytes]

/-- The registers when the lifted function is entered. -/
theorem load_of_atCall {s₀ : IrState Name} (h : StateStruct registers sp fsBase size) (n : Native)
    (hstate : ∀ i < size, (atCall address function registers sp fsBase size n).mem
      ((atCall address function registers sp fsBase size n).reg "rdi" + BitVec.ofNat 64 i)
        = s₀.mem statePage (BitVec.ofNat 64 i)) {r : Register} (hr : r ∈ copiedRegisters registers) :
    s₀.mem.load (statePage, r.offset) 8 = (n.reg r.asmName).toNat := by
  have hentered := atCall_entered address function h n
  rw [← hentered.copied r hr, Native.load_struct (s₀.mem statePage) hstate (h.fits r hr), BitVec.toNat_ofNat]
  exact (Nat.mod_eq_of_lt (ByteMemory.load_lt (s₀.mem statePage) r.offset 8)).symm

/-- **Where the lifted function returns**, the text leaves the registers as it does, but the stack pointer
as it was. -/
theorem recompile_returns {f : Function} {s₀ t t' : IrState Name} {pcs : List Addr} {b : BlockId}
    (h : StateStruct registers sp fsBase size) (n : Native)
    (hcompiled : Compiled f size s₀ (atCall address function registers sp fsBase size n)
      (function name (atCall address function registers sp fsBase size n)))
    (hvisits : Visits f (0, s₀) pcs (b, t)) (hret : execInsts (f b).insts t = (t', some .ret)) :
    let n' := execAsm address function (recompile registers sp fsBase size name) n
    n'.reg "rsp" = n.reg "rsp" ∧ ∀ r ∈ copiedRegisters registers, r.name ≠ "RSP" →
      (n'.reg r.asmName).toNat = t'.mem.load (statePage, r.offset) 8 := by
  have hentered := atCall_entered address function h n
  have hleft := hcompiled.state pcs b t t' hvisits hret
  obtain ⟨_, hrsp, hloads⟩ := execAsm_recompileExit address function h
    (function name (atCall address function registers sp fsBase size n))
  refine ⟨?_, fun r hr hne => ?_⟩
  · rw [recompile, execAsm_append, execAsm_cons, ← atCall]
    exact hrsp.trans (by rw [hcompiled.rsp, hentered.rsp, hentered.rdi, BitVec.sub_add_cancel])
  · rw [recompile, execAsm_append, execAsm_cons, ← atCall]
    refine (congrArg BitVec.toNat (hloads r hr hne)).trans ?_
    rw [hcompiled.rsp, hentered.rsp, Native.load_struct (t'.mem statePage) hleft (h.fits r hr),
      BitVec.toNat_ofNat]
    exact Nat.mod_eq_of_lt (ByteMemory.load_lt (t'.mem statePage) r.offset 8)

/-- **The recompiled function does to the registers what the program does.** The lifted function replays a
run of the program to its end, from a state whose registers are those of the machine. Then the text leaves
every register that is copied with the value the program leaves it with, but the stack pointer, which it
leaves as it was. -/
theorem recompile_simulates {f : Function} {s₀ : IrState Name} {pcs : List Addr} {p : Addr × Bytes}
    (h : StateStruct registers sp fsBase size) (n : Native)
    (hstate : ∀ i < size, (atCall address function registers sp fsBase size n).mem
      ((atCall address function registers sp fsBase size n).reg "rdi" + BitVec.ofNat 64 i)
        = s₀.mem statePage (BitVec.ofNat 64 i))
    (hcompiled : Compiled f size s₀ (atCall address function registers sp fsBase size n)
      (function name (atCall address function registers sp fsBase size n)))
    (hreplays : Replays f s₀ pcs p) (hend : p.1 = 0) :
    (∀ r ∈ copiedRegisters registers, s₀.mem.load (statePage, r.offset) 8 = (n.reg r.asmName).toNat) ∧
    let n' := execAsm address function (recompile registers sp fsBase size name) n
    n'.reg "rsp" = n.reg "rsp" ∧ ∀ r ∈ copiedRegisters registers, r.name ≠ "RSP" →
      (n'.reg r.asmName).toNat = p.2.load (statePage, r.offset) 8 := by
  obtain ⟨pcs', b, t, t', hvisits, hret, _, hmem⟩ := hreplays.2 hend
  exact ⟨fun r hr => load_of_atCall h n hstate hr, hmem ▸ recompile_returns h n hcompiled hvisits hret⟩

/-! ### A function that sets a register -/

/-- Three registers that are copied, and three that are not. -/
def fewRegisters : List Register :=
  [⟨"RAX", 0, 8, false⟩, ⟨"RBX", 8, 8, false⟩, ⟨"RSP", 16, 8, false⟩, ⟨"SP", 16, 2, true⟩,
    ⟨"FSBASE", 24, 8, false⟩, ⟨"RIP", 32, 8, false⟩]

theorem fewRegisters_struct : StateStruct fewRegisters ⟨"SP", 16, 2, true⟩ ⟨"FSBASE", 24, 8, false⟩ 40 := by
  have hcopied : copiedRegisters fewRegisters
      = [⟨"RAX", 0, 8, false⟩, ⟨"RBX", 8, 8, false⟩, ⟨"RSP", 16, 8, false⟩] := by decide +kernel
  constructor
  · decide
  · rw [hcopied]
    decide
  · decide
  · rw [hcopied]
    simp [Register.Apart]
  · rw [hcopied]
    simp [Register.Apart]
  · rw [hcopied]
    decide +kernel
  · rw [hcopied]
    exact ⟨_, List.mem_cons_of_mem _ (List.mem_cons_of_mem _ (List.mem_singleton_self _)), rfl, rfl⟩

/-- `MOV RAX, 5`, lifted. -/
def setRax : Function := fun _ => ⟨none, [.store 64 (.const 64 5) (.state 0), .ret], [], []⟩

/-- And compiled. -/
def compiledSetRax (n : Native) : Native := (n.store (n.reg "rdi") 5).set "rax" (n.reg "rdi")

theorem setRax_compiled {n : Native} {s₀ : IrState Name}
    (hstate : ∀ i < 40, n.mem (n.reg "rdi" + BitVec.ofNat 64 i) = s₀.mem statePage (BitVec.ofNat 64 i)) :
    Compiled setRax 40 s₀ n (compiledSetRax n) := by
  refine ⟨Native.reg_set_of_ne _ _ (by decide), fun pcs b t t' hvisits hret i hi => ?_⟩
  obtain rfl : s₀ = t := by
    cases hvisits with
    | refl => rfl
    | step hvisits hexec => cases hexec
  cases hret
  have hdist : (n.reg "rdi" + BitVec.ofNat 64 i - n.reg "rdi").toNat = i :=
    ByteMemory.toNat_add_ofNat_sub _ (by omega)
  have hoffset : (BitVec.ofNat 64 i - 0 : Addr).toNat = i := by
    simpa using Nat.mod_eq_of_lt (show i < 2 ^ 64 by omega)
  show ByteMemory.store n.mem (n.reg "rdi") 8 5 _ = ByteMemory.store (s₀.mem statePage) 0 8 5 _
  rw [ByteMemory.store, ByteMemory.store, hdist, hoffset, hstate i hi]

/-- A machine, and what it calls the function with. -/
def someNative : Native := ⟨fun r => if r = "rsp" then 0x7000 else 3, 0, fun _ => 0⟩

def setRaxCall : Native :=
  atCall (fun _ => 0x400000) (fun _ => compiledSetRax) fewRegisters ⟨"SP", 16, 2, true⟩
    ⟨"FSBASE", 24, 8, false⟩ 40 someNative

/-- The struct as the state of the lifted function. -/
def setRaxState : IrState Name :=
  ⟨fun _ => 0, fun p a => if p = statePage then setRaxCall.mem (setRaxCall.reg "rdi" + a) else 0⟩

theorem recompile_simulates_setRax :
    let n' := execAsm (fun _ => 0x400000) (fun _ => compiledSetRax)
      (recompile fewRegisters ⟨"SP", 16, 2, true⟩ ⟨"FSBASE", 24, 8, false⟩ 40 "vexa_lifted") someNative
    n'.reg "rsp" = 0x7000 ∧ (n'.reg "rax").toNat = 5 ∧ (n'.reg "rbx").toNat = 3 := by
  have hcopied : copiedRegisters fewRegisters
      = [⟨"RAX", 0, 8, false⟩, ⟨"RBX", 8, 8, false⟩, ⟨"RSP", 16, 8, false⟩] := by decide +kernel
  have hrax : ⟨"RAX", 0, 8, false⟩ ∈ copiedRegisters fewRegisters := by
    rw [hcopied]
    exact List.mem_cons_self ..
  have hrbx : ⟨"RBX", 8, 8, false⟩ ∈ copiedRegisters fewRegisters := by
    rw [hcopied]
    exact List.mem_cons_of_mem _ (List.mem_cons_self ..)
  have hstate : ∀ i < 40, setRaxCall.mem (setRaxCall.reg "rdi" + BitVec.ofNat 64 i)
      = setRaxState.mem statePage (BitVec.ofNat 64 i) := fun _ _ => rfl
  have hreplays : Replays setRax setRaxState [] (0, (setRaxState.store (statePage, 0) 8 5).mem) :=
    ⟨fun hne => absurd rfl hne, fun _ => ⟨[], 0, setRaxState, _, .refl _, rfl, rfl, rfl⟩⟩
  obtain ⟨hbefore, hrsp, hafter⟩ := recompile_simulates fewRegisters_struct someNative hstate
    (setRax_compiled hstate) hreplays rfl
  have hnames : Register.asmName ⟨"RAX", 0, 8, false⟩ = "rax" ∧ Register.asmName ⟨"RBX", 8, 8, false⟩ = "rbx" :=
    ⟨by decide +kernel, by decide +kernel⟩
  refine ⟨hrsp, ?_, ?_⟩
  · have hload := hafter _ hrax (by decide)
    rw [hnames.1] at hload
    refine hload.trans ?_
    show ByteMemory.load ((setRaxState.mem.store statePage 0 8 5) statePage) 0 8 = 5
    rw [Bytes.store_self, ByteMemory.load_store_self (by decide)]
    rfl
  · have hload := hafter _ hrbx (by decide)
    have hkept := hbefore _ hrbx
    rw [hnames.2] at hload hkept
    refine hload.trans (Eq.trans ?_ hkept)
    show ByteMemory.load ((setRaxState.mem.store statePage 0 8 5) statePage) 8 8 = _
    rw [Bytes.store_self, ByteMemory.load_store_of_disjoint _ (by decide) (by bv_omega)]
    rfl

end Vexa
