import Vexa.Passes.ByteSafety
import Vexa.Passes.ConstantPropagation
import Vexa.Passes.Function

/-!
# Functions with the definitions of their memory

What `constant_propagation` looks at in a function: its instructions by name, what they read, and the
accesses MemorySSA has for them.

## Execution

A name has no value before its instruction was executed, and an instruction that reads such a name, or
`undef`, is not executed at all. A call that reads or writes memory does what `callee` allows. `FreeStep`
follows every edge of the graph whatever the condition of the branch says, and `Step` the one that is
taken. Volatile and atomic accesses are left out, and so is what LLVM leaves undefined.

## MemorySSA

LLVM gives every load, store and call that writes the access that defines the memory before it. What it
guarantees is in `MemorySSA`: a block begins with its phi, or with what all its predecessors end with.

## Main results

* `Reaches.mem_liveOnEntry`, `Reaches.mem_definition` — behind an access memory is as the access left it
* `Reaches.env_some` — the value of a name was given to it by its instruction
-/

namespace Vexa

open Relation

/-! ### Functions -/

/-- The types of what is loaded and stored. -/
inductive AccessType
  | int (width : ℕ)
  | pointer
deriving DecidableEq, Repr

def AccessType.bits : AccessType → ℕ
  | int width => width
  | pointer => 64

/-- `DataLayout::getTypeStoreSize`. -/
def AccessType.storeSize (type : AccessType) : ℕ := typeStoreSize type.bits

/-- The width, if the type is an integer type. -/
def AccessType.width? : AccessType → Option ℕ
  | int width => some width
  | pointer => none

/-- The instructions told apart. A `call` reads memory, or writes it; an `operation` does neither, and
computes its value from its operands. -/
inductive MemInst
  | load (type : AccessType) (ptr : SsaOperand ℕ)
  | store (type : AccessType) (value ptr : SsaOperand ℕ)
  | call (type : Option ℕ) (args : List (SsaOperand ℕ)) (writes : Bool)
  | phi (type : Option ℕ) (incoming : List (BlockId × SsaOperand ℕ))
  | operation (type : Option ℕ) (args : List (SsaOperand ℕ)) (compute : List ℕ → ℕ)

inductive MemTerminator
  | switch (value : SsaOperand ℕ) (cases : List (ℕ × BlockId)) (default : BlockId)
  | ret
  | unreachable
deriving DecidableEq, Repr

def MemTerminator.successors : MemTerminator → List BlockId
  | switch _ cases default => default :: cases.map Prod.snd
  | ret | unreachable => []

/-- An `llvm::MemoryDef`. -/
def MemInst.isDefinition : MemInst → Bool
  | store .. => true
  | call _ _ writes => writes
  | load .. | phi .. | operation .. => false

def MemInst.isPhi : MemInst → Bool
  | phi .. => true
  | load .. | store .. | call .. | operation .. => false

def MemInst.operands : MemInst → List (SsaOperand ℕ)
  | load _ ptr => [ptr]
  | store _ value ptr => [value, ptr]
  | call _ args _ | operation _ args _ => args
  | phi _ incoming => incoming.map Prod.snd

def MemTerminator.operands : MemTerminator → List (SsaOperand ℕ)
  | switch value _ _ => [value]
  | ret | unreachable => []

/-- The pointer of a load or store, and the type of what is accessed. -/
def MemInst.access? : MemInst → Option (SsaOperand ℕ × AccessType)
  | load type ptr | store type _ ptr => some (ptr, type)
  | call .. | phi .. | operation .. => none

/-- A function: its blocks in order, the names in each of them, and the instruction of a name. No type
has more than `IntegerType::MAX_INT_BITS` bits. -/
structure MemFunction where
  order : List BlockId
  entry : BlockId
  phis : BlockId → List ℕ
  insts : BlockId → List ℕ
  inst : ℕ → Option MemInst
  parent : ℕ → BlockId
  terminator : BlockId → MemTerminator
  entry_mem : entry ∈ order
  closed : ∀ b ∈ order, ∀ c ∈ (terminator b).successors, c ∈ order
  phi_of_mem : ∀ b, ∀ i ∈ phis b, ∃ type incoming, inst i = some (.phi type incoming)
  inst_of_mem : ∀ b, ∀ i ∈ insts b, ∃ x, inst i = some x ∧ x.isPhi = false
  mem_order : ∀ i x, inst i = some x → i ∈ order.flatMap fun b => phis b ++ insts b
  bits_le : ∀ i x ptr type, inst i = some x → x.access? = some (ptr, type) → type.bits ≤ 2 ^ 23

namespace MemFunction

variable (F : MemFunction)

/-- The instructions in the order of the function. -/
def names : List ℕ := F.order.flatMap fun b => F.phis b ++ F.insts b

/-- `llvm::pred_size`, which counts edges. -/
def predSize (b : BlockId) : ℕ := (F.order.flatMap fun p => (F.terminator p).successors).count b

def isDefinition (i : ℕ) : Bool := (F.inst i).any MemInst.isDefinition

/-- The blocks there is a path to. -/
def Reachable : BlockId → Prop := ReflTransGen (fun b c => c ∈ (F.terminator b).successors) F.entry

theorem Reachable.mem_order {b : BlockId} (h : F.Reachable b) : b ∈ F.order := by
  induction h with
  | refl => exact F.entry_mem
  | tail _ hsucc ih => exact F.closed _ ih _ hsucc

/-- The access behind some instructions of a block. -/
def accessAfter : MemoryAccess → List ℕ → MemoryAccess
  | A, [] => A
  | A, i :: is => accessAfter (if F.isDefinition i then .definition i else A) is

theorem accessAfter_append (A : MemoryAccess) (is js : List ℕ) :
    F.accessAfter A (is ++ js) = F.accessAfter (F.accessAfter A is) js := by
  induction is generalizing A with
  | nil => rfl
  | cons i is ih => exact ih _

end MemFunction

/-- The accesses LLVM has computed: of the begin of each block, and the defining access of each load,
store and call. What it does in blocks that are not reachable is not said. -/
structure MemorySSA (F : MemFunction) where
  blockAccess : BlockId → MemoryAccess
  definingAccess : ℕ → MemoryAccess
  depth : ℕ → ℕ
  blockAccess_entry : blockAccess F.entry = .liveOnEntry
  blockAccess_succ : ∀ b, F.Reachable b → ∀ c ∈ (F.terminator b).successors,
    blockAccess c = .phi c ∨ blockAccess c = F.accessAfter (blockAccess b) (F.insts b)
  definingAccess_eq : ∀ b, F.Reachable b → ∀ done i rest, F.insts b = done ++ i :: rest →
    definingAccess i = F.accessAfter (blockAccess b) done
  depth_defining : ∀ d e, definingAccess d = .definition e → depth e < depth d
  isDefinition_defining : ∀ d e, definingAccess d = .definition e → F.isDefinition e = true

/-! ### Execution -/

/-- What pointers point to, the constants and arguments, and what calls do. -/
structure MemMachine where
  args : ℕ → ℕ
  constants : ℕ → ℕ
  place : ℕ → MemoryAddress
  callee : ℕ → List ℕ → (PageId → ByteMemory.Memory 64) → ℕ → (PageId → ByteMemory.Memory 64) → Prop

/-- The values of the names that have one, and memory. -/
@[ext]
structure MemState where
  env : ℕ → Option ℕ
  mem : PageId → ByteMemory.Memory 64

def MemMachine.eval (M : MemMachine) (env : ℕ → Option ℕ) : SsaOperand ℕ → Option ℕ
  | .inst i => env i
  | .int c => some (c.value % 2 ^ c.width)
  | .constant id => some (M.constants id)
  | .argument id => some (M.args id)
  | .undef => none

namespace MemState

def set (s : MemState) (i n : ℕ) : MemState := { s with env := Function.update s.env i (some n) }

def read (s : MemState) (a : MemoryAddress) (type : AccessType) : ℕ :=
  ByteMemory.load (s.mem a.page) a.offset type.storeSize % 2 ^ type.bits

def write (s : MemState) (a : MemoryAddress) (type : AccessType) (n : ℕ) : MemState :=
  { s with
    mem := Function.update s.mem a.page
      (ByteMemory.store (s.mem a.page) a.offset type.storeSize (n % 2 ^ type.bits)) }

@[simp] theorem mem_set (s : MemState) (i n : ℕ) : (s.set i n).mem = s.mem := rfl

@[simp] theorem env_write (s : MemState) (a : MemoryAddress) (type : AccessType) (n : ℕ) :
    (s.write a type n).env = s.env := rfl

theorem env_set_self (s : MemState) (i n : ℕ) : (s.set i n).env i = some n := Function.update_self ..

theorem env_set_of_ne (s : MemState) {i j : ℕ} (h : j ≠ i) (n : ℕ) : (s.set i n).env j = s.env j :=
  Function.update_of_ne h ..

/-- One byte after a store. -/
theorem mem_write (s : MemState) (a x : MemoryAddress) (type : AccessType) (n : ℕ) :
    (s.write a type n).mem x.page x.offset =
      if x.page = a.page ∧ (x.offset - a.offset).toNat < type.storeSize then
        LittleEndian.byte (n % 2 ^ type.bits) (x.offset - a.offset).toNat
      else s.mem x.page x.offset := by
  rw [write]
  by_cases hpage : x.page = a.page
  · simp only [hpage, Function.update_self, ByteMemory.store, true_and]
  · simp only [Function.update_of_ne hpage, hpage, false_and, if_false]

end MemState

/-- Where execution is: the block, the instructions of it that are left, and the state. -/
structure MemPoint where
  block : BlockId
  rest : List ℕ
  state : MemState

namespace MemFunction

variable (F : MemFunction) (M : MemMachine)

/-- What an instruction that is no phi does. -/
inductive Effect (i : ℕ) (s : MemState) : MemState → Prop
  | load {type : AccessType} {ptr : SsaOperand ℕ} {p : ℕ} (hinst : F.inst i = some (.load type ptr))
      (hptr : M.eval s.env ptr = some p) : Effect i s (s.set i (s.read (M.place p) type))
  | store {type : AccessType} {value ptr : SsaOperand ℕ} {n p : ℕ}
      (hinst : F.inst i = some (.store type value ptr)) (hvalue : M.eval s.env value = some n)
      (hptr : M.eval s.env ptr = some p) : Effect i s (s.write (M.place p) type n)
  | call {type : Option ℕ} {args : List (SsaOperand ℕ)} {writes : Bool} {ns : List ℕ} {n : ℕ}
      {mem : PageId → ByteMemory.Memory 64} (hinst : F.inst i = some (.call type args writes))
      (hargs : args.mapM (M.eval s.env) = some ns) (hcall : M.callee i ns s.mem n mem)
      (hmem : writes = false → mem = s.mem) : Effect i s ({ s with mem := mem }.set i n)
  | operation {type : Option ℕ} {args : List (SsaOperand ℕ)} {compute : List ℕ → ℕ} {ns : List ℕ}
      (hinst : F.inst i = some (.operation type args compute))
      (hargs : args.mapM (M.eval s.env) = some ns) : Effect i s (s.set i (compute ns))

/-- The value of a phi of a block that is entered from `b`. -/
def incoming (env : ℕ → Option ℕ) (b : BlockId) (i : ℕ) : Option ℕ :=
  match F.inst i with
  | some (.phi _ incoming) => (incoming.lookup b).bind (M.eval env)
  | _ => none

/-- The state behind the phis of a block, which are executed all at once. -/
def enter (b c : BlockId) (s : MemState) : MemState :=
  { s with env := fun i => if i ∈ F.phis c then F.incoming M s.env b i else s.env i }

/-- Where the terminator goes. -/
def target (env : ℕ → Option ℕ) : MemTerminator → Option BlockId
  | .switch value cases default => (M.eval env value).map fun n => (cases.lookup n).getD default
  | .ret | .unreachable => none

/-- One instruction, or an edge to a successor, whichever the condition chooses. -/
inductive FreeStep : MemPoint → MemPoint → Prop
  | inst {b : BlockId} {i : ℕ} {rest : List ℕ} {s s' : MemState} (heffect : F.Effect M i s s') :
      FreeStep ⟨b, i :: rest, s⟩ ⟨b, rest, s'⟩
  | edge {b c : BlockId} {s : MemState} (hsucc : c ∈ (F.terminator b).successors) :
      FreeStep ⟨b, [], s⟩ ⟨c, F.insts c, F.enter M b c s⟩

/-- One instruction, or the edge that is taken. -/
inductive Step : MemPoint → MemPoint → Prop
  | inst {b : BlockId} {i : ℕ} {rest : List ℕ} {s s' : MemState} (heffect : F.Effect M i s s') :
      Step ⟨b, i :: rest, s⟩ ⟨b, rest, s'⟩
  | edge {b c : BlockId} {s : MemState} (htarget : target M s.env (F.terminator b) = some c) :
      Step ⟨b, [], s⟩ ⟨c, F.insts c, F.enter M b c s⟩

/-- The begin of the function, with this memory. -/
def start (mem : PageId → ByteMemory.Memory 64) : MemPoint :=
  ⟨F.entry, F.insts F.entry, ⟨fun _ => none, mem⟩⟩

/-- The points on the paths through the graph. -/
def Reaches (mem : PageId → ByteMemory.Memory 64) : MemPoint → Prop :=
  ReflTransGen (F.FreeStep M) (F.start mem)

/-- The points of the run. -/
def Runs (mem : PageId → ByteMemory.Memory 64) : MemPoint → Prop :=
  ReflTransGen (F.Step M) (F.start mem)

variable {F M}

theorem mem_successors_of_target {env : ℕ → Option ℕ} {t : MemTerminator} {c : BlockId}
    (h : target M env t = some c) : c ∈ t.successors := by
  cases t with
  | switch value cases default =>
    obtain ⟨n, -, rfl⟩ := Option.map_eq_some_iff.mp h
    rw [MemTerminator.successors]
    cases hlookup : cases.lookup n with
    | none => exact List.mem_cons_self ..
    | some d =>
      obtain ⟨front, back, hcases, -⟩ := List.lookup_eq_some_iff.mp hlookup
      rw [hcases, List.map_append, List.map_cons]
      exact List.mem_cons_of_mem _ (List.mem_append_right _ (List.mem_cons_self ..))
  | ret => exact absurd h (by simp [target])
  | unreachable => exact absurd h (by simp [target])

theorem Step.free {p q : MemPoint} (h : F.Step M p q) : F.FreeStep M p q := by
  cases h with
  | inst heffect => exact .inst heffect
  | edge htarget => exact .edge (mem_successors_of_target htarget)

/-- A run follows a path. -/
theorem Runs.reaches {mem : PageId → ByteMemory.Memory 64} {p : MemPoint} (h : F.Runs M mem p) :
    F.Reaches M mem p :=
  ReflTransGen.mono (fun _ _ hstep => hstep.free) _ _ h

/-! ### What an instruction changes -/

section Inversion

variable {i : ℕ} {s s' : MemState}

theorem effect_load_iff {type : AccessType} {ptr : SsaOperand ℕ}
    (hinst : F.inst i = some (.load type ptr)) : F.Effect M i s s' ↔
      ∃ p, M.eval s.env ptr = some p ∧ s' = s.set i (s.read (M.place p) type) := by
  constructor
  · intro h
    cases h with
    | load h₁ h₂ =>
      rw [hinst] at h₁
      cases h₁
      exact ⟨_, h₂, rfl⟩
    | store h₁ | call h₁ | operation h₁ => rw [hinst] at h₁; cases h₁
  · rintro ⟨p, hptr, rfl⟩
    exact .load hinst hptr

theorem effect_store_iff {type : AccessType} {value ptr : SsaOperand ℕ}
    (hinst : F.inst i = some (.store type value ptr)) : F.Effect M i s s' ↔
      ∃ n p, M.eval s.env value = some n ∧ M.eval s.env ptr = some p ∧
        s' = s.write (M.place p) type n := by
  constructor
  · intro h
    cases h with
    | store h₁ h₂ h₃ =>
      rw [hinst] at h₁
      cases h₁
      exact ⟨_, _, h₂, h₃, rfl⟩
    | load h₁ | call h₁ | operation h₁ => rw [hinst] at h₁; cases h₁
  · rintro ⟨n, p, hvalue, hptr, rfl⟩
    exact .store hinst hvalue hptr

theorem effect_call_iff {type : Option ℕ} {args : List (SsaOperand ℕ)} {writes : Bool}
    (hinst : F.inst i = some (.call type args writes)) : F.Effect M i s s' ↔
      ∃ ns n mem, args.mapM (M.eval s.env) = some ns ∧ M.callee i ns s.mem n mem ∧
        (writes = false → mem = s.mem) ∧ s' = { s with mem := mem }.set i n := by
  constructor
  · intro h
    cases h with
    | call h₁ h₂ h₃ h₄ =>
      rw [hinst] at h₁
      cases h₁
      exact ⟨_, _, _, h₂, h₃, h₄, rfl⟩
    | load h₁ | store h₁ | operation h₁ => rw [hinst] at h₁; cases h₁
  · rintro ⟨ns, n, mem, hargs, hcall, hmem, rfl⟩
    exact .call hinst hargs hcall hmem

theorem effect_operation_iff {type : Option ℕ} {args : List (SsaOperand ℕ)} {compute : List ℕ → ℕ}
    (hinst : F.inst i = some (.operation type args compute)) : F.Effect M i s s' ↔
      ∃ ns, args.mapM (M.eval s.env) = some ns ∧ s' = s.set i (compute ns) := by
  constructor
  · intro h
    cases h with
    | operation h₁ h₂ =>
      rw [hinst] at h₁
      cases h₁
      exact ⟨_, h₂, rfl⟩
    | load h₁ | store h₁ | call h₁ => rw [hinst] at h₁; cases h₁
  · rintro ⟨ns, hargs, rfl⟩
    exact .operation hinst hargs

/-- Nothing else is executed. -/
theorem not_effect (hinst : ∀ x, F.inst i = some x → x.isPhi = true) : ¬ F.Effect M i s s' := by
  intro h
  cases h with
  | load h₁ | store h₁ | call h₁ | operation h₁ => exact absurd (hinst _ h₁) (by simp [MemInst.isPhi])

theorem Effect.exists_inst (h : F.Effect M i s s') : ∃ x, F.inst i = some x := by
  cases h with
  | load hinst => exact ⟨_, hinst⟩
  | store hinst => exact ⟨_, hinst⟩
  | call hinst => exact ⟨_, hinst⟩
  | operation hinst => exact ⟨_, hinst⟩

/-- An instruction gives a value to its own name only. -/
theorem Effect.env_of_ne {j : ℕ} (h : F.Effect M i s s') (hne : j ≠ i) : s'.env j = s.env j := by
  cases h with
  | load => exact s.env_set_of_ne hne _
  | store => rfl
  | call => exact MemState.env_set_of_ne _ hne _
  | operation => exact s.env_set_of_ne hne _

/-- Only a definition changes memory. -/
theorem Effect.mem_eq (h : F.Effect M i s s') (hdef : F.isDefinition i = false) : s'.mem = s.mem := by
  cases h with
  | load => rfl
  | store hinst => simp [isDefinition, hinst, MemInst.isDefinition] at hdef
  | call hinst _ _ hmem =>
    refine hmem ?_
    simpa [isDefinition, hinst, MemInst.isDefinition] using hdef
  | operation => rfl

end Inversion

/-! ### What holds along a path -/

/-- The block is reachable, and the instructions left are its last ones. -/
theorem Reaches.split {mem : PageId → ByteMemory.Memory 64} {p : MemPoint} (h : F.Reaches M mem p) :
    F.Reachable p.block ∧ ∃ done, F.insts p.block = done ++ p.rest := by
  induction h with
  | refl => exact ⟨.refl, [], rfl⟩
  | tail _ hstep ih =>
    cases hstep with
    | inst heffect =>
      obtain ⟨hreachable, done, hdone⟩ := ih
      exact ⟨hreachable, done ++ [_], by rw [hdone, List.append_assoc, List.singleton_append]⟩
    | edge hsucc => exact ⟨ih.1.tail hsucc, [], rfl⟩

/-- **Where a value comes from**: its instruction was executed, and left it. -/
theorem Reaches.env_some {mem : PageId → ByteMemory.Memory 64} {p : MemPoint} (h : F.Reaches M mem p)
    {i n : ℕ} (hphi : ∀ type incoming, F.inst i ≠ some (.phi type incoming))
    (hi : p.state.env i = some n) :
    ∃ b rest s s', F.Reaches M mem ⟨b, i :: rest, s⟩ ∧ F.Effect M i s s' ∧ s'.env i = some n := by
  induction h with
  | refl => exact absurd hi (by simp [start])
  | tail hreach hstep ih =>
    cases hstep with
    | inst heffect =>
      rename_i b j rest s s'
      by_cases hij : i = j
      · subst hij
        exact ⟨b, rest, s, s', hreach, heffect, hi⟩
      · rw [heffect.env_of_ne hij] at hi
        exact ih hi
    | edge hsucc =>
      rename_i b c s
      have hkeep : i ∉ F.phis c := by
        intro hmem
        obtain ⟨type, incoming, hinst⟩ := F.phi_of_mem c i hmem
        exact hphi type incoming hinst
      rw [show (F.enter M b c s).env i = s.env i from if_neg hkeep] at hi
      exact ih hi

end MemFunction

/-! ### Memory behind an access -/

namespace MemorySSA

open MemFunction

variable {F : MemFunction} {M : MemMachine} (H : MemorySSA F)

/-- The access that defines memory at a point. -/
def accessAt (p : MemPoint) : MemoryAccess :=
  F.accessAfter (H.blockAccess p.block)
    ((F.insts p.block).take ((F.insts p.block).length - p.rest.length))

theorem accessAt_eq {p : MemPoint} {done : List ℕ} (h : F.insts p.block = done ++ p.rest) :
    H.accessAt p = F.accessAfter (H.blockAccess p.block) done := by
  have hlen : (F.insts p.block).length - p.rest.length = done.length := by
    rw [h, List.length_append]
    omega
  rw [accessAt, hlen, h, List.take_left]

/-- The memory at the first instruction of a block is the one the block begins with. -/
theorem accessAt_begin {b : BlockId} {s : MemState} : H.accessAt ⟨b, F.insts b, s⟩ = H.blockAccess b := by
  have hdone : F.insts b = [] ++ F.insts b := (List.nil_append _).symm
  exact H.accessAt_eq (p := ⟨b, F.insts b, s⟩) hdone

/-- The defining access of an instruction about to be executed. -/
theorem accessAt_inst {mem : PageId → ByteMemory.Memory 64} {b : BlockId} {i : ℕ} {rest : List ℕ}
    {s : MemState} (h : F.Reaches M mem ⟨b, i :: rest, s⟩) :
    H.accessAt ⟨b, i :: rest, s⟩ = H.definingAccess i := by
  obtain ⟨hreachable, done, hdone⟩ := h.split
  rw [H.accessAt_eq hdone, H.definingAccess_eq b hreachable done i rest hdone]

/-- **One step**: a definition defines memory behind it, a block its phi, and everything else leaves
memory and the access that defines it. -/
theorem accessAt_step {mem : PageId → ByteMemory.Memory 64} {p q : MemPoint}
    (h : F.Reaches M mem p) (hstep : F.FreeStep M p q) :
    (H.accessAt q = H.accessAt p ∧ q.state.mem = p.state.mem) ∨
      (∃ i rest, p.rest = i :: rest ∧ F.isDefinition i = true ∧ H.accessAt q = .definition i ∧
        F.Effect M i p.state q.state) ∨
      H.accessAt q = .phi q.block := by
  obtain ⟨hreachable, done, hdone⟩ := h.split
  cases hstep with
  | inst heffect =>
    rename_i b i rest s s'
    have hnext : F.insts b = (done ++ [i]) ++ rest := by
      rw [List.append_assoc, List.singleton_append, hdone]
    have haccess : H.accessAt ⟨b, rest, s'⟩ =
        if F.isDefinition i then .definition i else H.accessAt ⟨b, i :: rest, s⟩ := by
      rw [H.accessAt_eq hnext, H.accessAt_eq hdone, accessAfter_append]
      rfl
    cases hdef : F.isDefinition i with
    | true =>
      right; left
      refine ⟨i, rest, rfl, hdef, ?_, heffect⟩
      rw [haccess, hdef, if_pos rfl]
    | false =>
      left
      refine ⟨?_, heffect.mem_eq hdef⟩
      rw [haccess, hdef, if_neg Bool.false_ne_true]
  | edge hsucc =>
    rename_i b c s
    have hend : F.insts b = done := by rw [hdone, List.append_nil]
    have hbegin : H.accessAt ⟨c, F.insts c, F.enter M b c s⟩ = H.blockAccess c := H.accessAt_begin
    rcases H.blockAccess_succ b hreachable c hsucc with hphi | hsame
    · right; right
      rw [hbegin, hphi]
    · left
      refine ⟨?_, rfl⟩
      rw [hbegin, hsame, H.accessAt_eq (p := ⟨b, [], s⟩) hdone, hend]

/-- Memory that nothing defined is what the function was entered with. -/
theorem mem_liveOnEntry {mem : PageId → ByteMemory.Memory 64} {p : MemPoint}
    (h : F.Reaches M mem p) (haccess : H.accessAt p = .liveOnEntry) : p.state.mem = mem := by
  induction h with
  | refl => rfl
  | tail hreach hstep ih =>
    rcases H.accessAt_step hreach hstep with ⟨hsame, hmem⟩ | ⟨i, rest, -, -, hdef, -⟩ | hphi
    · rw [hmem]
      exact ih (hsame ▸ haccess)
    · rw [hdef] at haccess
      cases haccess
    · rw [hphi] at haccess
      cases haccess

/-- **Memory behind a definition** is what it left when it was executed last. -/
theorem mem_definition {mem : PageId → ByteMemory.Memory 64} {p : MemPoint} {d : ℕ}
    (h : F.Reaches M mem p) (haccess : H.accessAt p = .definition d) :
    ∃ b rest s s', F.Reaches M mem ⟨b, d :: rest, s⟩ ∧ F.Effect M d s s' ∧ p.state.mem = s'.mem := by
  induction h with
  | refl =>
    have hbegin : H.accessAt (F.start mem) = H.blockAccess F.entry := H.accessAt_begin
    rw [hbegin, H.blockAccess_entry] at haccess
    cases haccess
  | tail hreach hstep ih =>
    rename_i q r
    rcases H.accessAt_step hreach hstep with ⟨hsame, hmem⟩ | ⟨i, rest, hrest, -, hdef, heffect⟩ | hphi
    · rw [hmem]
      exact ih (hsame ▸ haccess)
    · rw [hdef] at haccess
      cases haccess
      obtain ⟨b, is, s⟩ := q
      obtain rfl : is = d :: rest := hrest
      exact ⟨b, rest, s, r.state, hreach, heffect, rfl⟩
    · rw [hphi] at haccess
      cases haccess

end MemorySSA

end Vexa
