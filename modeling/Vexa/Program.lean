import Vexa.Cpu
import Vexa.StraightLine

/-!
# Programs

What the lifted function is compared with. A program is a map from program counters to instructions;
what an instruction does to the registers and the memory is remill's semantics of it, run on the
pages the page translation uses. Where it goes next depends on its category, and for branches and
indirect jumps on what the semantics leave in the two variables of remill's calling convention.

## Main definitions

* `Program`, `Machine.Decodes`
* `Semantics.effect`, `Instruction.target` — one instruction
* `ProgramStep`, `Executes` — runs of a program, with the program counters it visits

## Main results

* `lastStore_load` — the last store to a variable is what the variable holds
-/

namespace Vexa

/-- A program that does not modify its own code. -/
abbrev Program := Addr → Option Instruction

/-- Decoding yields the instruction of the program, whatever the bytes there. -/
def Machine.Decodes (M : Machine) (program : Program) : Prop :=
  ∀ pc bytes, M.decodeInstruction pc bytes = program pc

/-- The state in which the semantics of the instruction at `pc` start. -/
def Semantics.entry (pc : Addr) (m : Bytes) : IrState ℕ :=
  ⟨fun _ => 0, m.store nextPcPage 0 8 pc.toNat⟩

/-- The memory after the semantics of the instruction at `pc`. -/
def Semantics.effect (semantics : Semantics) (pc : Addr) (m : Bytes) : Bytes :=
  (execAll semantics.insts (Semantics.entry pc m)).mem

/-- Where control goes after an instruction, given the memory it leaves. A branch is taken when the
low bit of `BRANCH_TAKEN` is set. -/
def Instruction.target (inst : Instruction) (m : Bytes) : Addr :=
  match inst.category with
  | .normal => inst.nextPc
  | .directJump => inst.branchTakenPc
  | .conditionalBranch =>
    if m.load (branchTakenPage, 0) 1 % 2 = 1 then inst.branchTakenPc else inst.branchNotTakenPc
  | .indirectJump => BitVec.ofNat 64 (m.load (nextPcPage, 0) 8)

/-- The program goes from `(pc, m)` to `(pc', m')`. It stops at program counter zero. -/
structure ProgramStep (M : Machine) (program : Program) (inst : Instruction)
    (semantics : Semantics) (s s' : Addr × Bytes) : Prop where
  pc_ne : s.1 ≠ 0
  decoded : program s.1 = some inst
  lifted : M.liftIntoBlock inst = some semantics
  mem : s'.2 = semantics.effect s.1 s.2
  pc : s'.1 = inst.target s'.2

/-- A run of a program, with the program counters of the instructions it executed. -/
inductive Executes (M : Machine) (program : Program) (s₀ : Addr × Bytes) :
    List Addr → Addr × Bytes → Prop
  | start : Executes M program s₀ [] s₀
  | step {pcs : List Addr} {s s' : Addr × Bytes} {inst : Instruction} {semantics : Semantics} :
      Executes M program s₀ pcs s → ProgramStep M program inst semantics s s' →
      Executes M program s₀ (pcs ++ [s.1]) s'

/-! ### The variables of the calling convention -/

/-- The two variables. -/
def Ptr.Variable {N : Type} : Ptr N → Prop
  | nextPc | branchTaken => True
  | _ => False

variable {types : Types Name} {s : IrState Name} {ptr : Ptr Name} {i : Inst Name}
  {insts : List (Inst Name)} {stored : ℕ × Operand Name}

/-- Code stores to a variable only through its own pointer. -/
theorem Ptr.Variable.place_ne (h : ptr.Variable) {w : ℕ} {p : Ptr Name} (hp : p.Storable w)
    (hne : p ≠ ptr) (env : Name → ℕ) : (ptr.place env).1 ≠ (p.place env).1 := by
  cases ptr with
  | nextPc | branchTaken =>
    cases p with
    | intToPtr value => exact hp.elim
    | nextPc | branchTaken => first | exact absurd rfl hne | exact nofun
    | _ => exact nofun
  | _ => exact h.elim

theorem Ptr.Variable.place_eq (h : ptr.Variable) (env env' : Name → ℕ) :
    ptr.place env = ptr.place env' := by
  cases ptr with
  | nextPc | branchTaken => rfl
  | _ => exact h.elim

/-- The page translation does not reach the variables. -/
theorem Ptr.Variable.locate_ne (h : ptr.Variable) (env : Name → ℕ) (a : Addr) :
    (ptr.place env).1 ≠ (locate a).1 := by
  rw [locate]
  cases ptr with
  | nextPc | branchTaken => split <;> exact fun heq => by cases heq
  | _ => exact h.elim

/-- What the instruction stores to the pointer. -/
def storedTo (ptr : Ptr Name) : Inst Name → Option (ℕ × Operand Name)
  | .store w value p => if p = ptr then some (w, value) else none
  | _ => none

theorem lastStore_cons (ptr : Ptr Name) (i : Inst Name) (insts : List (Inst Name)) :
    lastStore ptr (i :: insts) = (lastStore ptr insts).or (storedTo ptr i) := by
  rw [lastStore, lastStore, List.reverse_cons, List.findSome?_append]
  congr 1
  rw [List.findSome?_singleton]
  cases i <;> rfl

/-- The variable holds the stored operand. -/
structure HoldsStored (ptr : Ptr Name) (stored : ℕ × Operand Name) (types : Types Name)
    (s : IrState Name) : Prop where
  storable : ptr.Storable stored.1
  width : stored.2.width types = some stored.1
  load : s.mem.load (ptr.place s.env) (stored.1 / 8)
    = stored.2.eval s.env % 256 ^ (stored.1 / 8)

/-- An instruction that does not store to a variable leaves its bytes alone. -/
theorem Inst.mem_variable (hptr : ptr.Variable) (hi : i.OperandsTyped types)
    (hnone : storedTo ptr i = none) (s : IrState Name) :
    (i.exec s).mem (ptr.place s.env).1 = s.mem (ptr.place s.env).1 := by
  cases i with
  | store w a p =>
    have hne : p ≠ ptr := by
      rintro rfl
      rw [storedTo, if_pos rfl] at hnone
      cases hnone
    exact Bytes.store_of_ne _ (hptr.place_ne hi.2.2 hne s.env) ..
  | writeMemory dst size a v => exact Bytes.store_of_ne _ (hptr.locate_ne s.env _) ..
  | _ => rfl

/-- A name in use keeps its value, and its width. -/
theorem Operand.exec_eq {a : Operand Name} {w : ℕ} (ha : a.width types = some w)
    (hnew : ∀ dst w, i.result = some (dst, w) → types dst = none) :
    a.eval (i.exec s).env = a.eval s.env ∧ a.width (i.extend types) = some w := by
  cases a with
  | const w n => exact ⟨rfl, ha⟩
  | ssa name =>
    have hne : ∀ dst w, i.result = some (dst, w) → name ≠ dst := by
      rintro dst w hdst rfl
      rw [Operand.width, hnew name w hdst] at ha
      cases ha
    constructor
    · cases i <;> first | rfl | exact Function.update_of_ne (hne _ _ rfl) ..
    · rw [Operand.width, Inst.extend]
      cases hdst : i.result with
      | none => exact ha
      | some r =>
        rw [← ha]
        exact Function.update_of_ne (hne r.1 r.2 hdst) ..

theorem HoldsStored.exec (h : HoldsStored ptr stored types s) (hptr : ptr.Variable)
    (hi : i.OperandsTyped types) (hnew : ∀ dst w, i.result = some (dst, w) → types dst = none)
    (hnone : storedTo ptr i = none) : HoldsStored ptr stored (i.extend types) (i.exec s) := by
  obtain ⟨heval, hwidth⟩ := Operand.exec_eq (s := s) h.width hnew
  refine ⟨h.storable, hwidth, ?_⟩
  rw [heval, ← h.load, hptr.place_eq (i.exec s).env s.env, Bytes.load, Bytes.load,
    Inst.mem_variable hptr hi hnone]

/-- Code that does not store to the variable. -/
theorem HoldsStored.execAll (hptr : ptr.Variable) : ∀ {insts : List (Inst Name)}
    {types : Types Name} {s : IrState Name}, HoldsStored ptr stored types s → Typed types insts →
    lastStore ptr insts = none → HoldsStored ptr stored (finalTypes types insts) (execAll insts s)
  | [], _, _, h, _, _ => h
  | i :: insts, _, _, h, ⟨hi, hnew, hrest⟩, hnone => by
    rw [lastStore_cons, Option.or_eq_none_iff] at hnone
    exact (h.exec hptr hi hnew hnone.2).execAll hptr hrest hnone.1

/-- **The last store to a variable is what the variable holds.** -/
theorem lastStore_load (hptr : ptr.Variable) : ∀ {insts : List (Inst Name)} {types : Types Name}
    (s : IrState Name), Typed types insts → lastStore ptr insts = some stored →
    HoldsStored ptr stored (finalTypes types insts) (execAll insts s)
  | [], _, _, _, h => nomatch h
  | i :: insts, types, s, ⟨hi, hnew, hrest⟩, h => by
    rw [lastStore_cons] at h
    cases hlast : lastStore ptr insts with
    | some r =>
      rw [hlast, Option.some_or] at h
      exact lastStore_load hptr (i.exec s) hrest (hlast.trans h)
    | none =>
      rw [hlast, Option.none_or] at h
      rw [finalTypes_cons, execAll_cons]
      refine HoldsStored.execAll hptr ?_ hrest hlast
      cases i with
      | store w a p =>
        rw [storedTo] at h
        split at h
        · next hp =>
          subst hp
          obtain rfl := Option.some.inj h
          refine ⟨hi.2.2, hi.2.1, ?_⟩
          have hw : w / 8 ≤ 2 ^ 64 := by
            have hlt := hi.1.2.2
            omega
          show Bytes.load (s.mem.store (p.place s.env).1 (p.place s.env).2 (w / 8) (a.eval s.env))
            (p.place s.env) (w / 8) = _
          rw [Bytes.load, Bytes.store_self]
          exact ByteMemory.load_store_self hw
        · cases h
      | _ => cases h

end Vexa
