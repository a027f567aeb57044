import Vexa.MergedBlocks

/-!
# Splitting a conditional move

`handle_conditional_moves` takes the last store of a block that stores a choice, perhaps behind casts and
`and`s. It clones what is around the choice for either side and stores the value of each side at the end of
its own block, or, when the condition is solved, the value of one side at the end of the same block. The
store of the choice is erased.

The block has been emulated before, so that the symbolic state already contains what was stored. Each side
stores over it.

## Main definitions

* `Scoped` — code in which every operand is defined before
* `AvoidsAll` — no access of the code touches a place
* `Wraps`, `Inst.rewrap` — what is around a choice, applied to another value
* `Cpu.Clones`, `Cpu.Sides` — the lifter with clones for one side, and for both
* `Cpu.AtMove` — the lifter behind a conditional move, and a run of its block
* `Cpu.Preserves` — where the run goes on after the split

## Main results

* `Scoped.definitions` — every name holds what its instruction computes
* `peelSelect_wraps` — what is stored is the choice, wrapped
* `materialize_denotes` — the clones compute the wrapped value of one side
* `execAll_store_avoids` — a store can wait until the end of code that avoids its place
* `handleConditionalMoves_splits` — the split preserves the move
* `Cpu.atMove_of_runBlock` — a move between registers, as the emulator leaves it
-/

namespace Vexa

/-! ### What names hold -/

/-- The instruction computes a value from its operands. -/
def Inst.Computes {N : Type} : Inst N → Prop
  | binary .. | icmp .. | cast .. | select .. | freeze .. => True
  | _ => False

/-- The value it computes. -/
def Inst.value {N : Type} (env : N → ℕ) : Inst N → ℕ
  | binary _ op w a b => op.eval w (a.eval env) (b.eval env)
  | icmp _ p w a b => (p.eval w (a.eval env) (b.eval env)).toNat
  | cast _ op src w a => op.eval src w (a.eval env)
  | select _ _ c a b => if c.eval env = 1 then a.eval env else b.eval env
  | freeze _ _ a => a.eval env
  | _ => 0

/-- The operands are defined with the widths the instruction needs. Unlike in remill's semantics, the
pointer of an access may be a number. -/
def Inst.Scoped (types : Types Name) : Inst Name → Prop
  | .load _ w ptr => ByteWidth w ∧ ptr.Addressed types
  | .store w a ptr => ByteWidth w ∧ a.width types = some w ∧ ptr.Addressed types
  | i => i.OperandsTyped types

/-- Straight-line code in which every operand is defined before, and every name once. -/
def Scoped (types : Types Name) : List (Inst Name) → Prop
  | [] => True
  | i :: is =>
    i.Scoped types ∧ (∀ dst w, i.result = some (dst, w) → types dst = none) ∧ Scoped (i.extend types) is

section

variable {types : Types Name} {i : Inst Name} {dst : Name} {w : ℕ}

theorem Inst.Computes.exec_eq (h : i.Computes) (hres : i.result = some (dst, w)) (s : IrState Name) :
    i.exec s = s.set dst (i.value s.env) := by
  cases i with
  | binary | icmp | cast | select | freeze =>
    cases hres
    rfl
  | _ => exact h.elim

theorem Inst.Computes.not_terminator (h : i.Computes) : i.isTerminator = false := by
  cases i <;> first | rfl | exact h.elim

theorem Inst.Computes.address (h : i.Computes) : i.address = none := by
  cases i <;> first | rfl | exact h.elim

/-- Only the result gets a symbolic value. -/
theorem visit_computes {S : Solver} {A : List Term} {s s' : Symex} (h : i.Computes)
    (hres : i.result = some (dst, w)) (hvisit : visit S A i s = .ok s') : ∃ v, s' = s.set dst v := by
  cases i with
  | binary | icmp | select | freeze =>
    cases hres
    simp only [visit, Except.bind_eq_ok, Except.pure_eq_ok] at hvisit
    grind
  | cast dst op src w a =>
    cases hres
    cases op <;> simp only [visit, Except.bind_eq_ok, Except.pure_eq_ok] at hvisit <;> grind
  | _ => exact h.elim

theorem Inst.Scoped.not_terminator (h : i.Scoped types) : i.isTerminator = false := by
  cases i <;> first | rfl | exact h.elim

theorem Inst.Scoped.operandsTyped (h : i.Scoped types) (hi : i.Computes) : i.OperandsTyped types := by
  cases i <;> first | exact h | exact hi.elim

theorem Inst.Scoped.mono {types' : Types Name}
    (hle : ∀ {name : Name} {w : ℕ}, types name = some w → types' name = some w) (h : i.Scoped types) :
    i.Scoped types' := by
  have hptr : ∀ {ptr : Ptr Name}, ptr.Addressed types → ptr.Addressed types' := by
    intro ptr hptr
    cases ptr with
    | intToPtr a => exact Operand.width_le hle hptr
    | _ => trivial
  have hmono : i.OperandsTyped types → i.OperandsTyped types' := Inst.OperandsTyped.mono hle
  cases i with
  | load dst w ptr => exact ⟨h.1, hptr h.2⟩
  | store w a ptr => exact ⟨h.1, Operand.width_le hle h.2.1, hptr h.2.2⟩
  | _ => exact hmono h

/-- The value only depends on the operands. -/
theorem Inst.value_congr (hi : i.OperandsTyped types) {env env' : Name → ℕ}
    (henv : ∀ name w, types name = some w → env' name = env name) : i.value env' = i.value env := by
  have hop : ∀ {a : Operand Name} {w : ℕ}, a.width types = some w → a.eval env' = a.eval env := by
    intro a w ha
    cases a with
    | const w n => rfl
    | ssa name => exact henv name w ha
  cases i with
  | binary dst op w a b => simp only [value, hop hi.2.1, hop hi.2.2]
  | icmp dst p w a b => simp only [value, hop hi.1, hop hi.2]
  | cast dst op src w a =>
    cases op with
    | zext | sext | trunc => simp only [value, hop hi.2]
  | select dst w c a b => simp only [value, hop hi.1, hop hi.2.1, hop hi.2.2]
  | freeze dst w a => exact hop hi
  | _ => rfl

end

namespace Scoped

theorem straight : ∀ {insts : List (Inst Name)} {types : Types Name}, Scoped types insts → Straight insts
  | [], _, _ => Straight.nil
  | _ :: _, _, ⟨hi, _, hrest⟩ => straight_cons.mpr ⟨hi.not_terminator, hrest.straight⟩

theorem append : ∀ {front rest : List (Inst Name)} {types : Types Name}, Scoped types (front ++ rest) →
    Scoped types front ∧ Scoped (finalTypes types front) rest
  | [], _, _, h => ⟨trivial, h⟩
  | _ :: front, _, _, ⟨hi, hnew, hrest⟩ => by
    obtain ⟨hfront, hrest⟩ := append hrest
    exact ⟨⟨hi, hnew, hfront⟩, hrest⟩

theorem final_le : ∀ {insts : List (Inst Name)} {types : Types Name}, Scoped types insts →
    ∀ {name : Name} {w : ℕ}, types name = some w → finalTypes types insts name = some w
  | [], _, _, _, _, h => h
  | _ :: _, _, ⟨_, hnew, hrest⟩, _, _, h => hrest.final_le (Inst.extend_le hnew h)

/-- Every instruction is scoped in the names of the whole code. -/
theorem final : ∀ {insts : List (Inst Name)} {types : Types Name}, Scoped types insts →
    ∀ i ∈ insts, i.Scoped (finalTypes types insts) ∧
      ∀ dst w, i.result = some (dst, w) → finalTypes types insts dst = some w
  | i :: insts, types, ⟨hi, hnew, hrest⟩, j, hj => by
    rcases List.mem_cons.mp hj with rfl | hj
    · refine ⟨hi.mono fun h => hrest.final_le (Inst.extend_le hnew h), fun dst w hdst => ?_⟩
      refine hrest.final_le ?_
      rw [Inst.extend, hdst]
      exact Function.update_self ..
    · exact hrest.final j hj

/-- A name in use keeps its value. -/
theorem execAll_env : ∀ {insts : List (Inst Name)} {types : Types Name} {s : IrState Name},
    Scoped types insts → ∀ name w, types name = some w → (execAll insts s).env name = s.env name
  | [], _, _, _, _, _, _ => rfl
  | i :: insts, types, s, ⟨_, hnew, hrest⟩, name, w, hname => by
    have hoperand : (Operand.ssa name).width types = some w := hname
    obtain ⟨heval, hwidth⟩ := Operand.exec_eq (s := s) hoperand hnew
    rw [execAll_cons, hrest.execAll_env name w hwidth]
    exact heval

theorem eval_execAll {insts : List (Inst Name)} {types : Types Name} {s : IrState Name}
    (h : Scoped types insts) {a : Operand Name} {w : ℕ} (ha : a.width types = some w) :
    a.eval (execAll insts s).env = a.eval s.env := by
  cases a with
  | const w n => rfl
  | ssa name => exact h.execAll_env name w ha

/-- **Every name holds what its instruction computes.** -/
theorem definitions : ∀ {insts : List (Inst Name)} {types : Types Name} {s : IrState Name},
    Scoped types insts → ∀ i ∈ insts, i.Computes → ∀ dst w, i.result = some (dst, w) →
    (execAll insts s).env dst = i.value (execAll insts s).env
  | j :: insts, types, s, ⟨hj, hnew, hrest⟩, i, hi, hcomputes, dst, w, hres => by
    rw [execAll_cons]
    rcases List.mem_cons.mp hi with rfl | hi
    · have hdst : (i.extend types) dst = some w := by
        rw [Inst.extend, hres]
        exact Function.update_self ..
      rw [hrest.execAll_env dst w hdst, hcomputes.exec_eq hres]
      refine (Function.update_self ..).trans
        (Inst.value_congr (hj.operandsTyped hcomputes) fun name w' hname => ?_).symm
      have hoperand : (Operand.ssa name).width types = some w' := hname
      obtain ⟨heval, hwidth⟩ := Operand.exec_eq (s := s) hoperand hnew
      rw [← hcomputes.exec_eq hres, hrest.execAll_env name w' hwidth]
      exact heval
    · exact hrest.definitions i hi hcomputes dst w hres

end Scoped

/-- Code that only computes. -/
theorem execAll_computes : ∀ {insts : List (Inst Name)}, (∀ i ∈ insts, i.Computes) →
    ∀ {s t : IrState Name}, t.env = s.env →
      (execAll insts t).env = (execAll insts s).env ∧ (execAll insts s).mem = s.mem
  | [], _, _, _, h => ⟨h, rfl⟩
  | i :: insts, hinsts, s, t, h => by
    obtain ⟨hi, hinsts⟩ := List.forall_mem_cons.mp hinsts
    obtain ⟨dst, w, hres⟩ : ∃ dst w, i.result = some (dst, w) := by
      cases i with
      | binary | icmp | cast | select | freeze => exact ⟨_, _, rfl⟩
      | _ => exact hi.elim
    have henv : (i.exec t).env = (i.exec s).env := by
      rw [hi.exec_eq hres, hi.exec_eq hres, IrState.env_set, IrState.env_set, h]
    obtain ⟨henv', hmem⟩ := execAll_computes hinsts henv
    refine ⟨henv', hmem.trans ?_⟩
    rw [hi.exec_eq hres]
    rfl

/-! ### Code that avoids a place -/

/-- The two ranges of bytes have nothing in common. -/
def Apart (place : PageId × Addr) (k : ℕ) (place' : PageId × Addr) (k' : ℕ) : Prop :=
  place.1 = place'.1 → ∀ x : Addr, ¬ ((x - place.2).toNat < k ∧ (x - place'.2).toNat < k')

/-- The instruction, executed in `s`, accesses nothing of a range. -/
def Inst.Avoids (place : PageId × Addr) (k : ℕ) (s : IrState Name) : Inst Name → Prop
  | .load _ w ptr => Apart place k (ptr.place s.env) (w / 8)
  | .store w _ ptr => Apart place k (ptr.place s.env) (w / 8)
  | .readMemory _ size a => Apart place k (locate (BitVec.ofNat 64 (a.eval s.env))) (size / 8)
  | .writeMemory _ size a _ => Apart place k (locate (BitVec.ofNat 64 (a.eval s.env))) (size / 8)
  | _ => True

/-- Nothing that is executed from `s` accesses the range. -/
def AvoidsAll (place : PageId × Addr) (k : ℕ) : List (Inst Name) → IrState Name → Prop
  | [], _ => True
  | i :: is, s => i.Avoids place k s ∧ AvoidsAll place k is (i.exec s)

section

variable {place : PageId × Addr} {k n : ℕ} {s : IrState Name}

/-- A load from elsewhere. -/
theorem Bytes.load_store_apart {place' : PageId × Addr} {k' : ℕ} (m : Bytes)
    (h : Apart place k place' k') (hk' : k' ≤ 2 ^ 64) :
    (m.store place.1 place.2 k n).load place' k' = m.load place' k' := by
  rw [Bytes.load, Bytes.load]
  by_cases hp : place.1 = place'.1
  · rw [hp, Bytes.store_self]
    refine ByteMemory.load_congr fun i hi => ByteMemory.store_of_not_lt _ fun hlt => ?_
    refine h hp _ ⟨hlt, ?_⟩
    rwa [ByteMemory.toNat_add_ofNat_sub place'.2 (hi.trans_le hk')]
  · rw [Bytes.store_of_ne _ (Ne.symm hp)]

/-- A store before an instruction that avoids its place can as well come after it. -/
theorem Inst.exec_store_avoids {types : Types Name} {i : Inst Name} (hi : i.Scoped types)
    (h : i.Avoids place k s) : i.exec (s.store place k n) = (i.exec s).store place k n := by
  have hload : ∀ {place' : PageId × Addr} {w : ℕ}, ByteWidth w → Apart place k place' (w / 8) →
      (s.mem.store place.1 place.2 k n).load place' (w / 8) = s.mem.load place' (w / 8) := by
    rintro place' w ⟨-, -, hw⟩ hapart
    exact Bytes.load_store_apart s.mem hapart (by omega)
  cases i with
  | load dst w ptr =>
    rw [Inst.exec, Inst.exec, IrState.env_store, IrState.mem_store, hload hi.1 h]
    rfl
  | readMemory dst size a =>
    rw [Inst.exec, Inst.exec, IrState.env_store, IrState.mem_store, hload (byteWidth_of_mem hi.1) h]
    rfl
  | store w a ptr =>
    rw [Inst.exec, Inst.exec, IrState.env_store]
    exact congrArg (IrState.mk s.env) (Bytes.store_comm s.mem h _ _)
  | writeMemory dst size a v =>
    rw [Inst.exec, Inst.exec, IrState.env_store]
    exact congrArg (IrState.mk s.env) (Bytes.store_comm s.mem h _ _)
  | _ => rfl

/-- **A store can wait** until the end of code that avoids its place. -/
theorem execAll_store_avoids : ∀ {insts : List (Inst Name)} {types : Types Name} {s : IrState Name},
    Scoped types insts → AvoidsAll place k insts (s.store place k n) →
    execAll insts (s.store place k n) = (execAll insts s).store place k n
  | [], _, _, _, _ => rfl
  | i :: insts, types, s, ⟨hi, _, hrest⟩, h => by
    obtain ⟨havoids, hothers⟩ := h
    have hsame : i.Avoids place k s := by cases i <;> exact havoids
    rw [Inst.exec_store_avoids hi hsame] at hothers
    rw [execAll_cons, execAll_cons, Inst.exec_store_avoids hi hsame]
    exact execAll_store_avoids hrest hothers

end

/-! ### What is around a choice -/

/-- The widths a cast can be between. -/
def CastOp.Admits (op : CastOp) (src w : ℕ) : Prop :=
  match op with
  | .zext | .sext => src < w
  | .trunc => 0 < w ∧ w < src

/-- Casts and `and`s, innermost first, that can be put around a value of `w` bits and make one of
`w₀`. -/
def Wraps (types : Types Name) : List (Inst Name) → ℕ → ℕ → Prop
  | [], w, w₀ => w = w₀
  | .cast _ op src w' _ :: is, w, w₀ => src = w ∧ op.Admits src w' ∧ Wraps types is w' w₀
  | .binary _ .and v _ b :: is, w, w₀ =>
    v = w ∧ 0 < w ∧ b.width types = some w ∧ Wraps types is w w₀
  | _ :: _, _, _ => False

/-- The value of a wrapper when its first operand is `x`. -/
def Inst.rewrap (env : Name → ℕ) (x : ℕ) : Inst Name → ℕ
  | .cast _ op src w _ => op.eval src w x
  | .binary _ op w _ b => op.eval w x (b.eval env)
  | _ => x

section

variable {types types₁ : Types Name} {w w₀ w₁ : ℕ} {code : List (Inst Name)}

theorem Wraps.append {i : Inst Name} (hi : Wraps types [i] w₁ w₀) :
    ∀ {is : List (Inst Name)} {w : ℕ}, Wraps types is w w₁ → Wraps types (is ++ [i]) w w₀
  | [], w, h => by
    obtain rfl : w = w₁ := h
    exact hi
  | .cast _ _ _ _ _ :: is, w, h => ⟨h.1, h.2.1, Wraps.append hi h.2.2⟩
  | .binary _ .and _ _ _ :: is, w, h => ⟨h.1, h.2.1, h.2.2.1, Wraps.append hi h.2.2.2⟩

/-- **What is behind a chain of casts and `and`s**: the value is the choice, wrapped. -/
theorem peelSelect_wraps (t₀ : IrState Name) (h : Scoped types₁ code)
    (htypes : finalTypes types₁ code = types) : ∀ {fuel : ℕ} {value : Operand Name} {w₀ : ℕ}
      {r : Inst Name × List (Inst Name)}, value.width types = some w₀ →
      peelSelect code fuel value = some r →
      ∃ dst w c a b, r.1 = .select dst w c a b ∧ c.width types = some 1 ∧ a.width types = some w ∧
        b.width types = some w ∧ Wraps types r.2.reverse w w₀ ∧
        value.eval (execAll code t₀).env = r.2.reverse.foldl (Inst.rewrap (execAll code t₀).env)
          (if c.eval (execAll code t₀).env = 1 then a.eval (execAll code t₀).env
            else b.eval (execAll code t₀).env)
  | 0, _, _, _, _, hpeel => by simp [peelSelect] at hpeel
  | fuel + 1, .const .., _, _, _, hpeel => by simp [peelSelect] at hpeel
  | fuel + 1, .ssa name, w₀, r, hname, hpeel => by
    have hfinal : ∀ i ∈ code, i.Scoped types ∧ ∀ dst w, i.result = some (dst, w) → types dst = some w :=
      htypes ▸ h.final
    -- the instruction that defines the name, and the width of its result
    have hdefined : ∀ {i : Inst Name} {dst : Name} {w : ℕ}, definition code name = some i →
        i.result = some (dst, w) → i ∈ code ∧ dst = name ∧ w = w₀ := by
      intro i dst w hdef hres
      obtain ⟨hmem, hname'⟩ := definition_mem hdef
      rw [hres] at hname'
      obtain rfl : dst = name := Option.some.inj hname'
      exact ⟨hmem, rfl, Option.some.inj (((hfinal i hmem).2 dst w hres).symm.trans hname)⟩
    rw [peelSelect] at hpeel
    split at hpeel
    · next dst w c a b hdef =>
      obtain rfl := Option.some.inj hpeel
      obtain ⟨hmem, rfl, rfl⟩ := hdefined hdef rfl
      obtain ⟨hc, ha, hb⟩ := (hfinal _ hmem).1
      exact ⟨dst, w, c, a, b, rfl, hc, ha, hb, rfl, h.definitions _ hmem trivial dst w rfl⟩
    · next dst op src w a hdef =>
      obtain ⟨r', hr', rfl⟩ := Option.map_eq_some_iff.mp hpeel
      obtain ⟨hmem, rfl, rfl⟩ := hdefined hdef rfl
      have hoperands : op.Admits src w ∧ a.width types = some src := by
        cases op <;> exact (hfinal _ hmem).1
      obtain ⟨dst', w', c, x, y, hselect, hc, hx, hy, hwraps, heval⟩ :=
        peelSelect_wraps t₀ h htypes hoperands.2 hr'
      refine ⟨dst', w', c, x, y, hselect, hc, hx, hy, ?_, ?_⟩
      · rw [List.reverse_cons]
        have hlast : Wraps types [.cast dst op src w a] src w :=
          ⟨rfl, hoperands.1, rfl⟩
        exact hlast.append hwraps
      · rw [List.reverse_cons, List.foldl_append, ← heval]
        exact h.definitions _ hmem trivial dst w rfl
    · next dst w a b hdef =>
      obtain ⟨r', hr', rfl⟩ := Option.map_eq_some_iff.mp hpeel
      obtain ⟨hmem, rfl, rfl⟩ := hdefined hdef rfl
      obtain ⟨hpos, ha, hb⟩ := (hfinal _ hmem).1
      obtain ⟨dst', w', c, x, y, hselect, hc, hx, hy, hwraps, heval⟩ := peelSelect_wraps t₀ h htypes ha hr'
      refine ⟨dst', w', c, x, y, hselect, hc, hx, hy, ?_, ?_⟩
      · rw [List.reverse_cons]
        have hlast : Wraps types [.binary dst .and w a b] w w :=
          ⟨rfl, hpos, hb, rfl⟩
        exact hlast.append hwraps
      · rw [List.reverse_cons, List.foldl_append, ← heval]
        exact h.definitions _ hmem trivial dst w rfl
    · cases hpeel

end

/-! ### Clones -/

/-- The operand is no clone made for a side. -/
def Operand.Outside (side : ℕ) : Operand Name → Prop
  | .const .. => True
  | .ssa name => name.part ≠ (0, side)

variable {M : Machine} {c c' c₁ c₂ : Cpu} {ν : Valuation} {σ : Bytes} {side : ℕ}
  {types types' types₁ types₂ : Types Name} {s t : IrState Name} {clones clones' : List (Inst Name)}

/-- `c'` is `c` with clones for a side at the end of the current block, emulated, and everything else
keeps its value. -/
structure Cpu.Clones (ν : Valuation) (σ : Bytes) (side : ℕ) (c c' : Cpu) (types types' : Types Name)
    (s : IrState Name) (clones : List (Inst Name)) : Prop where
  computes : ∀ i ∈ clones, i.Computes
  goesOn : c.GoesOn c'
  toDelete : c'.toDelete = c.toDelete
  function : c'.function c.insertPoint = { c.function c.insertPoint with
    insts := (c.function c.insertPoint).insts ++ clones }
  denotes : c'.symex.Denotes ν σ types' (execAll clones s)
  width : ∀ a : Operand Name, a.Outside side → a.width types' = a.width types
  eval : ∀ a : Operand Name, a.Outside side → a.eval (execAll clones s).env = a.eval s.env
  get : ∀ a : Operand Name, a.Outside side → c'.symex.get a = c.symex.get a

namespace Cpu.Clones

theorem refl (hden : c.symex.Denotes ν σ types s) : c.Clones ν σ side c types types s [] where
  computes := nofun
  goesOn := .refl c
  toDelete := rfl
  function := by rw [List.append_nil]
  denotes := hden
  width _ _ := rfl
  eval _ _ := rfl
  get _ _ := rfl

theorem trans (h : c.Clones ν σ side c₁ types types₁ s clones)
    (h' : c₁.Clones ν σ side c₂ types₁ types₂ (execAll clones s) clones') :
    c.Clones ν σ side c₂ types types₂ s (clones ++ clones') where
  computes i hi := (List.mem_append.mp hi).elim (h.computes i) (h'.computes i)
  goesOn := h.goesOn.trans h'.goesOn
  toDelete := h'.toDelete.trans h.toDelete
  function := by
    have hfunction := h'.function
    rw [h.goesOn.insertPoint] at hfunction
    rw [hfunction, h.function, List.append_assoc]
  denotes := by
    rw [execAll_append]
    exact h'.denotes
  width a ha := (h'.width a ha).trans (h.width a ha)
  eval a ha := by
    rw [execAll_append, h'.eval a ha, h.eval a ha]
  get a ha := (h'.get a ha).trans (h.get a ha)

/-- One instruction that computes a name of the side. -/
theorem single (hS : M.solver.Sound) (hσ : Unwritten ν σ) (hden : c.symex.Denotes ν σ types s)
    {i : Inst Name} {dst : Name} {w : ℕ} (hi : i.Computes) (hres : i.result = some (dst, w))
    (hdst : dst.part = (0, side)) (htyped : i.OperandsTyped types) (hexec : c.exec M i = .ok c') :
    c.Clones ν σ side c' types (Function.update types dst (some w)) s [i] := by
  have hgoes := Cpu.exec_goesOn hexec hi.not_terminator
  obtain ⟨s', hvisit, rfl⟩ := Cpu.exec_eq hexec
  have hne : ∀ {name : Name}, (Operand.ssa name).Outside side → name ≠ dst := by
    rintro name hname rfl
    exact hname hdst
  have hvars : ∃ v, s' = c.symex.set dst v := visit_computes hi hres hvisit
  have hextend : Function.update types dst (some w) = i.extend types := by
    rw [Inst.extend, hres]
  refine ⟨fun j hj => List.mem_singleton.mp hj ▸ hi, hgoes, rfl, c.function_create_self i, ?_, ?_, ?_,
    ?_⟩
  · rw [hextend]
    exact visit_sound hS hσ hden htyped hi.address hvisit
  · intro a ha
    cases a with
    | const => rfl
    | ssa name => exact Function.update_of_ne (hne ha) ..
  · intro a ha
    cases a with
    | const => rfl
    | ssa name =>
      show (i.exec s).env name = s.env name
      rw [hi.exec_eq hres]
      exact Function.update_of_ne (hne ha) ..
  · intro a ha
    obtain ⟨v, rfl⟩ := hvars
    cases a with
    | const => rfl
    | ssa name =>
      show (c.symex.set dst v).get (.ssa name) = _
      simp [Symex.get, Symex.set, hne ha]

end Cpu.Clones

/-- The names of a block, with widths `types` and values `env`, where clones are made: `known` are the
widths of those that have a symbolic value. -/
structure Symex.Knows (side : ℕ) (types : Types Name) (env : Name → ℕ) (s : Symex) (known : Types Name)
    (t : IrState Name) : Prop where
  outside : ∀ (a : Operand Name) w, a.width types = some w → a.Outside side
  width : ∀ (a : Operand Name) w v, a.width types = some w → s.get a = .ok v → a.width known = some w
  eval : ∀ (a : Operand Name) w, a.width types = some w → a.eval t.env = a.eval env

variable {known known' : Types Name} {env : Name → ℕ} {w w₀ : ℕ} {wrapper : Inst Name}
  {wrappers : List (Inst Name)} {value : Operand Name}

theorem Symex.Knows.after (h : c.symex.Knows side types env known s)
    (hclones : c.Clones ν σ side c' known known' s clones) :
    c'.symex.Knows side types env known' (execAll clones s) where
  outside := h.outside
  width a w v ha hv := by
    have houtside := h.outside a w ha
    rw [hclones.get a houtside] at hv
    rw [hclones.width a houtside]
    exact h.width a w v ha hv
  eval a w ha := (hclones.eval a (h.outside a w ha)).trans (h.eval a w ha)

/-- **One clone** is the wrapper around the other value. -/
theorem exec_clone (hS : M.solver.Sound) (hσ : Unwritten ν σ)
    (hwraps : Wraps types (wrapper :: wrappers) w w₀) (h : c.symex.Knows side types env known s)
    (hden : c.symex.Denotes ν σ known s)
    (hvalue : ∀ v, c.symex.get value = .ok v → value.width known = some w)
    (hexec : c.exec M (cloneWrapper side value wrapper).2 = .ok c') :
    ∃ w' known' clone, c.Clones ν σ side c' known known' s [clone] ∧ Wraps types wrappers w' w₀ ∧
      (cloneWrapper side value wrapper).1.part = (0, side) ∧
      known' (cloneWrapper side value wrapper).1 = some w' ∧
      (execAll [clone] s).env (cloneWrapper side value wrapper).1
        = wrapper.rewrap env (value.eval s.env) := by
  obtain ⟨s', hvisit, -⟩ := Cpu.exec_eq hexec
  cases wrapper with
  | cast dst op src w' a =>
    obtain ⟨rfl, hadmits, hrest⟩ := hwraps
    obtain ⟨v, hv⟩ : ∃ v, c.symex.get value = .ok v := by
      cases op <;> simp only [cloneWrapper, visit, Except.bind_eq_ok] at hvisit <;>
        exact ⟨_, hvisit.choose_spec.1⟩
    let clone : Inst Name := .cast { dst with part := (0, side) } op src w' value
    have htyped : clone.OperandsTyped known := by
      cases op <;> exact ⟨hadmits, hvalue v hv⟩
    exact ⟨w', _, clone, .single hS hσ hden trivial rfl rfl htyped hexec, hrest, rfl,
      Function.update_self .., Function.update_self ..⟩
  | binary dst op v a b =>
    cases op with
    | and =>
      obtain ⟨rfl, hpos, hb, hrest⟩ := hwraps
      simp only [cloneWrapper, visit, Except.bind_eq_ok] at hvisit
      obtain ⟨x, hx, y, hy, -⟩ := hvisit
      let clone : Inst Name := .binary { dst with part := (0, side) } .and v value b
      have htyped : clone.OperandsTyped known := ⟨hpos, hvalue x hx, h.width b v y hb hy⟩
      refine ⟨v, _, clone, .single hS hσ hden trivial rfl rfl htyped hexec, hrest, rfl,
        Function.update_self .., (Function.update_self ..).trans ?_⟩
      exact congrArg (Opcode.eval .and v _) (h.eval b v hb)
    | _ => exact hwraps.elim
  | _ => exact hwraps.elim

/-- **The clones for a side** compute the value of that side, wrapped as what was stored. -/
theorem materialize_denotes (hS : M.solver.Sound) (hσ : Unwritten ν σ) :
    ∀ {wrappers : List (Inst Name)} {value : Operand Name} {w : ℕ} {c : Cpu} {known : Types Name}
      {s : IrState Name} {r : Operand Name × Cpu}, Wraps types wrappers w w₀ →
      c.symex.Knows side types env known s → c.symex.Denotes ν σ known s →
      (∀ v, c.symex.get value = .ok v → value.width known = some w) →
      materialize M side wrappers value c = .ok r →
      ∃ known' clones, c.Clones ν σ side r.2 known known' s clones ∧
        (∀ v, r.2.symex.get r.1 = .ok v → r.1.width known' = some w₀) ∧
        (r.1 = value ∨ ¬ r.1.Outside side) ∧
        r.1.eval (execAll clones s).env
          = wrappers.foldl (Inst.rewrap env) (value.eval s.env)
  | [], value, w, c, known, s, r, hwraps, h, hden, hvalue, hrun => by
    obtain rfl := Except.ok.inj hrun
    obtain rfl : w = w₀ := hwraps
    exact ⟨known, [], .refl hden, hvalue, .inl rfl, rfl⟩
  | wrapper :: wrappers, value, w, c, known, s, r, hwraps, h, hden, hvalue, hrun => by
    simp only [materialize, Except.bind_eq_ok] at hrun
    obtain ⟨c₁, hexec, hrun⟩ := hrun
    obtain ⟨w', known₁, clone, hclone, hrest, hpart, hwidth, heval⟩ :=
      exec_clone hS hσ hwraps h hden hvalue hexec
    have hname : (Operand.ssa (cloneWrapper side value wrapper).1).width known₁ = some w' := hwidth
    obtain ⟨known', clones, hclones, hget, hfrom, hfold⟩ := materialize_denotes hS hσ hrest
      (h.after hclone) hclone.denotes (fun _ _ => hname) hrun
    refine ⟨known', clone :: clones, hclone.trans hclones, hget, .inr ?_, ?_⟩
    · rcases hfrom with hsame | hother
      · rw [hsame]
        exact fun hout => hout hpart
      · exact hother
    · rw [List.foldl_cons, ← heval]
      exact hfold

/-! ### The lifter behind a conditional move -/

/-- The code of the current block. -/
def Cpu.code (c : Cpu) : List (Inst Name) := (c.function c.insertPoint).insts

/-- The widths of the names of the current block. -/
def Cpu.widths (c : Cpu) : Types Name := finalTypes (fun _ => none) c.code

/-- The widths of the names that have a symbolic value. -/
def Symex.restrict (s : Symex) (types : Types Name) : Types Name :=
  fun name => if (s.vars name).isSome then types name else none

/-- The lifter behind a conditional move, and a run of its block from `t₀`. The destination of a
conditional move is a register, and behind the store of the choice it is not accessed. -/
structure Cpu.AtMove (c : Cpu) (move : ConditionalMove) (ν : Valuation) (σ : Bytes)
    (t₀ : IrState Name) : Prop where
  building : c.Building
  kept : ∀ d ∈ c.toDelete, d.1 < c.insertPoint
  typed : Scoped (fun _ => none) c.code
  names : ∀ (a : Operand Name) w, a.width c.widths = some w → a.Outside 3 ∧ a.Outside 4
  found : findConditionalMove c.code = some move
  register : move.ptr.Loadable
  avoids : AvoidsAll (move.ptr.place t₀.env) (move.width / 8) (c.code.drop (move.position + 1))
    (execAll (c.code.take (move.position + 1)) t₀)
  denotes : c.symex.Denotes ν σ (c.symex.restrict c.widths) (execAll c.code t₀)

/-- Operands with a symbolic value are known. -/
theorem Symex.width_restrict {s : Symex} {a : Operand Name} {v : Value} (ha : a.width types = some w)
    (hv : s.get a = .ok v) : a.width (s.restrict types) = some w := by
  cases a with
  | const => exact ha
  | ssa name =>
    have hsome : (s.vars name).isSome = true := by
      rw [Symex.get] at hv
      split at hv
      · next heq => rw [heq]; rfl
      · cases hv
    exact (if_pos hsome).trans ha

namespace Cpu.AtMove

variable {move : ConditionalMove} {t₀ : IrState Name}

/-- **The store of the choice**: it could as well come last. -/
theorem exists_store (h : c.AtMove move ν σ t₀) : ∃ value front rest,
    c.code = front ++ .store move.width value move.ptr :: rest ∧ front.length = move.position ∧
    ByteWidth move.width ∧
    (∃ w, move.condition.width c.widths = some 1 ∧ move.trueValue.width c.widths = some w ∧
      move.falseValue.width c.widths = some w ∧ Wraps c.widths move.wrappers.reverse w move.width) ∧
    value.eval (execAll c.code t₀).env
      = move.wrappers.reverse.foldl (Inst.rewrap (execAll c.code t₀).env)
        (if move.condition.eval (execAll c.code t₀).env = 1
          then move.trueValue.eval (execAll c.code t₀).env
          else move.falseValue.eval (execAll c.code t₀).env) ∧
    execAll c.code t₀ = (execAll (front ++ rest) t₀).store (move.ptr.place t₀.env) (move.width / 8)
      (value.eval (execAll c.code t₀).env) := by
  obtain ⟨value, dst, w, hget, hpeel⟩ := findConditionalMove_eq h.found
  obtain ⟨hlt, hstore⟩ := List.getElem?_eq_some_iff.mp hget
  have hcode : c.code = c.code.take move.position ++
      .store move.width value move.ptr :: c.code.drop (move.position + 1) := by
    rw [← hstore, List.cons_getElem_drop_succ, List.take_append_drop]
  have hmem : Inst.store move.width value move.ptr ∈ c.code := List.mem_of_getElem? hget
  obtain ⟨hwidth, hvalue, -⟩ := (h.typed.final _ hmem).1
  obtain ⟨dst', w', cond, a, b, hselect, hc, ha, hb, hwraps, heval⟩ :=
    peelSelect_wraps t₀ h.typed rfl hvalue hpeel
  obtain ⟨rfl, rfl, rfl, rfl, rfl⟩ : dst = dst' ∧ w = w' ∧ move.condition = cond ∧
      move.trueValue = a ∧ move.falseValue = b := by simpa using hselect
  refine ⟨value, c.code.take move.position, c.code.drop (move.position + 1), hcode,
    List.length_take_of_le hlt.le, hwidth, ⟨w, hc, ha, hb, hwraps⟩, heval, ?_⟩
  -- the store, and what is behind it
  have htake : c.code.take (move.position + 1)
      = c.code.take move.position ++ [.store move.width value move.ptr] := by
    rw [List.take_add_one, hget]
    rfl
  have havoids := h.avoids
  rw [htake, execAll_append] at havoids
  set front := c.code.take move.position
  set rest := c.code.drop (move.position + 1)
  set s := execAll front t₀
  have htyped := h.typed
  rw [hcode] at htyped
  have hbehind : Scoped (finalTypes (fun _ => none) front) (.store move.width value move.ptr :: rest) :=
    htyped.append.2
  have hrun : execAll c.code t₀ = execAll (.store move.width value move.ptr :: rest) s := by
    rw [hcode, execAll_append]
  have hvalue₁ : value.eval (execAll c.code t₀).env = value.eval s.env := by
    rw [hrun]
    exact hbehind.eval_execAll hbehind.1.2.1
  have hexec : Inst.exec (.store move.width value move.ptr) s
      = s.store (move.ptr.place t₀.env) (move.width / 8) (value.eval s.env) := by
    rw [Inst.exec, h.register.place_congr s.env t₀.env]
  rw [execAll_cons, execAll_nil, hexec] at havoids
  calc execAll c.code t₀
    _ = execAll rest (s.store (move.ptr.place t₀.env) (move.width / 8) (value.eval s.env)) := by
      rw [hrun, execAll_cons, hexec]
    _ = (execAll rest s).store (move.ptr.place t₀.env) (move.width / 8) (value.eval s.env) :=
      execAll_store_avoids hbehind.2.2 havoids
    _ = _ := by rw [execAll_append, hvalue₁]

/-- What the clones for a side are made from is known. -/
theorem knows (h : c.AtMove move ν σ t₀) : c.symex.Knows 3 c.widths (execAll c.code t₀).env
    (c.symex.restrict c.widths) (execAll c.code t₀) where
  outside a w ha := (h.names a w ha).1
  width _ _ _ ha hv := Symex.width_restrict ha hv
  eval _ _ _ := rfl

end Cpu.AtMove

/-- `c'` is `c`, behind a conditional move, with the values `trueVal` and `falseVal` of the two sides: on
its side each is what was stored. -/
structure Cpu.Sides (ν : Valuation) (σ : Bytes) (c c' : Cpu) (move : ConditionalMove) (stored : ℕ)
    (trueVal falseVal : Operand Name) (t : IrState Name) (clones : List (Inst Name)) : Prop where
  computes : ∀ i ∈ clones, i.Computes
  goesOn : c.GoesOn c'
  toDelete : c'.toDelete = c.toDelete
  function : c'.function c.insertPoint = { c.function c.insertPoint with insts := c.code ++ clones }
  condition : move.condition.eval (execAll clones t).env = move.condition.eval t.env
  denotes : ∃ known, c'.symex.Denotes ν σ known (execAll clones t) ∧
    (∀ v, c'.symex.get trueVal = .ok v → trueVal.width known = some move.width) ∧
    ∀ v, c'.symex.get falseVal = .ok v → falseVal.width known = some move.width
  ifTrue : move.condition.eval t.env = 1 → trueVal.eval (execAll clones t).env = stored
  ifFalse : move.condition.eval t.env ≠ 1 → falseVal.eval (execAll clones t).env = stored

theorem Cpu.AtMove.sides {move : ConditionalMove} {t₀ : IrState Name} (hS : M.solver.Sound)
    (hσ : Unwritten ν σ) (h : c.AtMove move ν σ t₀) {trueVal falseVal : Operand Name × Cpu}
    (htrue : materialize M 3 move.wrappers.reverse move.trueValue c = .ok trueVal)
    (hfalse : materialize M 4 move.wrappers.reverse move.falseValue trueVal.2 = .ok falseVal)
    {value : Operand Name} {w : ℕ} (hcond : move.condition.width c.widths = some 1)
    (ha : move.trueValue.width c.widths = some w) (hb : move.falseValue.width c.widths = some w)
    (hwraps : Wraps c.widths move.wrappers.reverse w move.width)
    (hvalue : value.eval (execAll c.code t₀).env
      = move.wrappers.reverse.foldl (Inst.rewrap (execAll c.code t₀).env)
        (if move.condition.eval (execAll c.code t₀).env = 1
          then move.trueValue.eval (execAll c.code t₀).env
          else move.falseValue.eval (execAll c.code t₀).env)) :
    ∃ clones, c.Sides ν σ falseVal.2 move (value.eval (execAll c.code t₀).env) trueVal.1 falseVal.1
      (execAll c.code t₀) clones := by
  set t := execAll c.code t₀
  have hknows := h.knows
  obtain ⟨known₁, clones₁, hclones₁, hget₁, hfrom, hfold₁⟩ := materialize_denotes hS hσ hwraps
    hknows h.denotes (fun v hv => hknows.width _ _ v ha hv) htrue
  -- the names of the clones of one side are not those of the other
  have hknows₁ : trueVal.2.symex.Knows 4 c.widths t.env known₁ (execAll clones₁ t) :=
    ⟨fun a w ha => (h.names a w ha).2, (hknows.after hclones₁).width, (hknows.after hclones₁).eval⟩
  obtain ⟨known₂, clones₂, hclones₂, hget₂, -, hfold₂⟩ := materialize_denotes hS hσ hwraps hknows₁
    hclones₁.denotes (fun v hv => hknows₁.width _ _ v hb hv) hfalse
  have houtside : trueVal.1.Outside 4 := by
    rcases hfrom with heq | hclone
    · rw [heq]
      exact (h.names _ _ ha).2
    · cases hval : trueVal.1 with
      | const => trivial
      | ssa name =>
        rw [hval] at hclone
        have hpart : name.part = (0, 3) := not_not.mp hclone
        show name.part ≠ (0, 4)
        rw [hpart]
        decide
  have heval : ∀ {a : Operand Name} {w : ℕ}, a.width c.widths = some w →
      a.eval (execAll clones₁ t).env = a.eval t.env := fun ha => (hknows.after hclones₁).eval _ _ ha
  have hfunction : falseVal.2.function c.insertPoint = { c.function c.insertPoint with
      insts := c.code ++ (clones₁ ++ clones₂) } := by
    have hfunction₂ := hclones₂.function
    rw [hclones₁.goesOn.insertPoint] at hfunction₂
    rw [hfunction₂, hclones₁.function, List.append_assoc, Cpu.code]
  refine ⟨clones₁ ++ clones₂, fun i hi => ?_, hclones₁.goesOn.trans hclones₂.goesOn,
    hclones₂.toDelete.trans hclones₁.toDelete, hfunction, ?_, ⟨known₂, ?_, fun v hv => ?_, hget₂⟩,
    fun hone => ?_, fun hone => ?_⟩
  · exact (List.mem_append.mp hi).elim (hclones₁.computes i) (hclones₂.computes i)
  · rw [execAll_append, hclones₂.eval _ (h.names _ _ hcond).2, heval hcond]
  · rw [execAll_append]
    exact hclones₂.denotes
  · rw [hclones₂.width _ houtside]
    rw [hclones₂.get _ houtside] at hv
    exact hget₁ v hv
  · rw [execAll_append, hclones₂.eval _ houtside, hfold₁, hvalue, if_pos hone]
  · rw [execAll_append, hfold₂, heval hb, hvalue, if_neg hone]

/-! ### Storing a side -/

/-- A store of what is already stored there. -/
theorem visit_store_again {S : Solver} {A : List Term} {x x' : Symex} (hS : S.Sound)
    (hden : x.Denotes ν σ known s) {k : ℕ} {val : Operand Name} {ptr : Ptr Name} (hk : ByteWidth k)
    (hptr : ptr.Loadable) (hval : ∀ v, x.get val = .ok v → val.width known = some k)
    (hmem : s.mem.store (ptr.place s.env).1 (ptr.place s.env).2 (k / 8) (val.eval s.env) = s.mem)
    (hvisit : visit S A (.store k val ptr) x = .ok x') : x'.context.Denotes ν σ s.mem := by
  obtain ⟨v, hv⟩ : ∃ v, x.get val = .ok v := by
    simp only [visit, visitStore, Except.bind_eq_ok] at hvisit
    obtain ⟨_, _, v, hv, _⟩ := hvisit
    exact ⟨v, hv⟩
  have hstore := (visitStore_sound hS hden hk (hval v hv) hptr hvisit).context
  rwa [IrState.mem_store, hmem] at hstore

/-- Erasing one instruction of the current block. -/
theorem emitted_erase {b : BlockId} {n : ℕ} {front rest : List (Inst Name)} {i : Inst Name}
    (hkept : ∀ d ∈ c.toDelete, d.1 < b) (hdelete : c'.toDelete = c.toDelete ++ [(b, n)])
    (hinsts : (c'.function b).insts = front ++ i :: rest) (hn : front.length = n) :
    (c'.emitted b).insts = front ++ rest := by
  have hdeleted : ∀ p, (b, p) ∈ c'.toDelete ↔ p = n := by
    intro p
    rw [hdelete, List.mem_append, List.mem_singleton, Prod.mk.injEq]
    refine ⟨fun h => ?_, fun h => .inr ⟨rfl, h⟩⟩
    rcases h with h | h
    · exact absurd (hkept _ h) (Nat.lt_irrefl b)
    · exact h.2
  have hfront : (front.zipIdx.filter fun i => (b, i.2) ∉ c'.toDelete) = front.zipIdx := by
    refine List.filter_eq_self.mpr fun i hi => ?_
    have hlt := List.snd_lt_of_mem_zipIdx hi
    simp only [hdeleted, decide_eq_true_eq]
    omega
  have hrest : ((rest.zipIdx (n + 1)).filter fun i => (b, i.2) ∉ c'.toDelete) = rest.zipIdx (n + 1) := by
    refine List.filter_eq_self.mpr fun i hi => ?_
    have hle := List.le_snd_of_mem_zipIdx hi
    simp only [hdeleted, decide_eq_true_eq]
    omega
  have herased : ¬ (decide ((b, n) ∉ c'.toDelete) = true) := by simp [hdeleted]
  refine (eraseDeletedInstructions_insts c' b).trans ?_
  rw [hinsts, List.zipIdx_append, List.filter_append, hfront, List.zipIdx_cons, Nat.zero_add, hn,
    List.filter_cons, if_neg herased, hrest, List.map_append, List.zipIdx_map_fst, List.zipIdx_map_fst]

/-- The path a run is on behind a conditional move, as its block and its symbolic memory: the lifter's, or
the one that was saved, if there is one and the condition does not hold. -/
inductive Cpu.SplitsTo (c c' : Cpu) (nextPc : Addr) (holds : Prop) : BlockId → Memory → Prop
  | solved : c'.unexploredPaths = c.unexploredPaths →
      SplitsTo c c' nextPc holds c'.insertPoint c'.symex.context.memory
  | ifTrue {ss : Snapshot} : holds → c'.unexploredPaths = ss :: c.unexploredPaths →
      SplitsTo c c' nextPc holds c'.insertPoint c'.symex.context.memory
  | ifFalse {ss : Snapshot} : ¬ holds → c'.unexploredPaths = ss :: c.unexploredPaths →
      ss.pc = nextPc → SplitsTo c c' nextPc holds ss.bb ss.memory

variable {move : ConditionalMove} {t₀ : IrState Name} {value : Operand Name} {front rest : List (Inst Name)}
  {trueVal falseVal : Operand Name} {stored : ℕ}

/-- The emitted code of the block with the clones behind it, and a store of a value that is the stored one:
the store of the choice is erased, and the memory is the same. -/
theorem Cpu.AtMove.store_last (h : c.AtMove move ν σ t₀)
    (hlast : execAll c.code t₀
      = (execAll (front ++ rest) t₀).store (move.ptr.place t₀.env) (move.width / 8) stored)
    (hclones : ∀ i ∈ clones, i.Computes) {val : Operand Name}
    (hval : val.eval (execAll clones (execAll c.code t₀)).env = stored) :
    ((Inst.store move.width val move.ptr).exec (execAll (front ++ rest ++ clones) t₀)).mem
      = (execAll c.code t₀).mem := by
  have henv : (execAll (front ++ rest) t₀).env = (execAll c.code t₀).env := by rw [hlast]; rfl
  have hsame := (execAll_computes hclones henv).1
  have hmem := (execAll_computes hclones (s := execAll (front ++ rest) t₀) rfl).2
  rw [execAll_append, Inst.exec, IrState.mem_store, hmem, hsame, hval,
    h.register.place_congr _ t₀.env, hlast]
  rfl

/-- In the symbolic state a store of a value that is the stored one changes nothing. -/
theorem Cpu.AtMove.visit_store (hS : M.solver.Sound) (h : c.AtMove move ν σ t₀)
    (hlast : execAll c.code t₀
      = (execAll (front ++ rest) t₀).store (move.ptr.place t₀.env) (move.width / 8) stored)
    (hclones : ∀ i ∈ clones, i.Computes) (hwidth : ByteWidth move.width) {val : Operand Name}
    (hval : val.eval (execAll clones (execAll c.code t₀)).env = stored) {x x' : Symex}
    (hden : x.Denotes ν σ known (execAll clones (execAll c.code t₀)))
    (hget : ∀ v, x.get val = .ok v → val.width known = some move.width) {A : List Term}
    (hvisit : visit M.solver A (.store move.width val move.ptr) x = .ok x') :
    x'.context.memory.denote ν σ = (execAll c.code t₀).mem := by
  have hmem := (execAll_computes hclones (s := execAll c.code t₀) rfl).2
  refine Eq.trans (visit_store_again hS hden hwidth h.register hget ?_ hvisit).mem hmem
  rw [hval, hmem, h.register.place_congr _ t₀.env, hlast, IrState.mem_store, Bytes.store_store]

/-- From `t₀` the code that `c'` emits comes to the end of a block with memory `m`, and the path that goes
on at this block denotes `m`. -/
def Cpu.Preserves (ν : Valuation) (σ : Bytes) (c c' : Cpu) (nextPc : Addr) (holds : Prop)
    (t₀ : IrState Name) (m : Bytes) : Prop :=
  ∃ b memory pcs u u', c.SplitsTo c' nextPc holds b memory ∧ memory.denote ν σ = m ∧
    Visits c'.emitted (c.insertPoint, t₀) pcs (b, u) ∧
    execInsts (c'.emitted b).insts u = (u', none) ∧ u'.mem = m

/-- The emitted code of the block, up to what is put behind the clones. -/
theorem Cpu.AtMove.emitted_insts (h : c.AtMove move ν σ t₀)
    (hcode : c.code = front ++ .store move.width value move.ptr :: rest)
    (hposition : front.length = move.position) (hdelete : c'.toDelete
      = c.toDelete ++ [(c.insertPoint, move.position)]) {last : Inst Name}
    (hinsts : (c'.function c.insertPoint).insts = c.code ++ clones ++ [last]) :
    (c'.emitted c.insertPoint).insts = front ++ rest ++ clones ++ [last] := by
  rw [hcode, List.append_assoc, List.append_assoc, List.cons_append] at hinsts
  rw [emitted_erase h.kept hdelete hinsts hposition]
  simp only [List.append_assoc]

theorem Cpu.AtMove.straight (h : c.AtMove move ν σ t₀)
    (hcode : c.code = front ++ .store move.width value move.ptr :: rest)
    (hclones : ∀ i ∈ clones, i.Computes) : Straight (front ++ rest ++ clones) := by
  have hstraight := h.typed.straight
  rw [hcode] at hstraight
  obtain ⟨hfront, hrest⟩ := straight_append.mp hstraight
  have hboth : Straight (front ++ rest) := straight_append.mpr ⟨hfront, (straight_cons.mp hrest).2⟩
  exact straight_append.mpr ⟨hboth, fun i hi => (hclones i hi).not_terminator⟩

/-- **A solved move**: one store at the end of the block. -/
theorem Cpu.AtMove.solved (hS : M.solver.Sound) (h : c.AtMove move ν σ t₀)
    (hcode : c.code = front ++ .store move.width value move.ptr :: rest)
    (hposition : front.length = move.position) (hwidth : ByteWidth move.width)
    (hlast : execAll c.code t₀
      = (execAll (front ++ rest) t₀).store (move.ptr.place t₀.env) (move.width / 8) stored)
    (hsides : c.Sides ν σ c₂ move stored trueVal falseVal (execAll c.code t₀) clones) {val : Operand Name}
    (hfrom : val = trueVal ∧ move.condition.eval (execAll c.code t₀).env = 1 ∨
      val = falseVal ∧ move.condition.eval (execAll c.code t₀).env ≠ 1)
    (hrun : (c₂.deleteLater c.insertPoint move.position).exec M (.store move.width val move.ptr) = .ok c')
    (nextPc : Addr) (holds : Prop) :
    c.Preserves ν σ c' nextPc holds t₀ (execAll c.code t₀).mem := by
  obtain ⟨known, hden, htrueGet, hfalseGet⟩ := hsides.denotes
  obtain ⟨hval, hget⟩ : val.eval (execAll clones (execAll c.code t₀)).env = stored ∧
      ∀ v, c₂.symex.get val = .ok v → val.width known = some move.width := by
    rcases hfrom with ⟨rfl, hone⟩ | ⟨rfl, hone⟩
    · exact ⟨hsides.ifTrue hone, htrueGet⟩
    · exact ⟨hsides.ifFalse hone, hfalseGet⟩
  obtain ⟨s', hvisit, rfl⟩ := Cpu.exec_eq hrun
  set c₃ := c₂.deleteLater c.insertPoint move.position
  have hinsert : c₃.insertPoint = c.insertPoint := hsides.goesOn.insertPoint
  have hinsts : ((c₃.create (.store move.width val move.ptr)).function c.insertPoint).insts
      = c.code ++ clones ++ [.store move.width val move.ptr] := by
    rw [← hinsert, Cpu.function_create_self, hinsert]
    show (c₂.function c.insertPoint).insts ++ _ = _
    rw [hsides.function]
  have hemitted : (Cpu.emitted { c₃.create (.store move.width val move.ptr) with symex := s' }
      c.insertPoint).insts = front ++ rest ++ clones ++ [.store move.width val move.ptr] :=
    h.emitted_insts hcode hposition (congrArg (· ++ _) hsides.toDelete) hinsts
  refine ⟨_, _, [], t₀, _, .solved hsides.goesOn.unexploredPaths, h.visit_store hS hlast hsides.computes
    hwidth hval hden hget hvisit, ?_, ?_, h.store_last hlast hsides.computes hval⟩
  · show Visits _ _ [] (c₃.insertPoint, t₀)
    rw [hinsert]
    exact .refl _
  · show execInsts (Cpu.emitted _ c₃.insertPoint).insts t₀ = _
    rw [hinsert, hemitted, execInsts_append (h.straight hcode hsides.computes)]
    rfl

/-- **A forked move**: each side stores its own value. -/
theorem Cpu.AtMove.forked (hS : M.solver.Sound) (h : c.AtMove move ν σ t₀)
    (hcode : c.code = front ++ .store move.width value move.ptr :: rest)
    (hposition : front.length = move.position) (hwidth : ByteWidth move.width)
    (hlast : execAll c.code t₀
      = (execAll (front ++ rest) t₀).store (move.ptr.place t₀.env) (move.width / 8) stored)
    (hsides : c.Sides ν σ c₂ move stored trueVal falseVal (execAll c.code t₀) clones)
    {inst : Instruction} (hfork : ForkedMove M inst move trueVal falseVal c₂ c') :
    c.Preserves ν σ c' inst.nextPc (move.condition.eval (execAll c.code t₀).env = 1) t₀
      (execAll c.code t₀).mem := by
  obtain ⟨known, hden, htrueGet, hfalseGet⟩ := hsides.denotes
  obtain ⟨x, hfalse, htrue, hpaths⟩ := hfork.symex
  have hc₂ := hsides.goesOn.building h.building
  have hinsert := hsides.goesOn.insertPoint
  rw [hsides.goesOn.unexploredPaths] at hpaths
  set u := execAll (front ++ rest ++ clones) t₀
  -- the block branches to the side of the condition
  have hself : (c'.emitted c.insertPoint).insts = front ++ rest ++ clones ++
      [.condBr move.condition c₂.numBlocks (c₂.numBlocks + 1)] := by
    refine h.emitted_insts hcode hposition ?_ ?_
    · rw [hfork.toDelete, hsides.toDelete, hinsert]
    · rw [← hinsert, hfork.self, hinsert, hsides.function]
  have hcondition : move.condition.eval u.env = move.condition.eval (execAll c.code t₀).env := by
    have henv : (execAll (front ++ rest) t₀).env = (execAll c.code t₀).env := by rw [hlast]; rfl
    rw [← hsides.condition, show u = execAll clones (execAll (front ++ rest) t₀) from execAll_append ..,
      (execAll_computes hsides.computes henv).1]
  have hbranch : execInsts (c'.emitted c.insertPoint).insts t₀ = (u, some (.goto
      (if move.condition.eval (execAll c.code t₀).env = 1 then c₂.numBlocks else c₂.numBlocks + 1))) := by
    rw [hself, execInsts_append (h.straight hcode hsides.computes), ← hcondition]
    rfl
  -- the code of either side is its store
  have hside : ∀ {b : BlockId} {val : Operand Name}, c₂.insertPoint < b →
      c'.function b = ⟨none, [.store move.width val move.ptr], [], []⟩ →
      execInsts (c'.emitted b).insts u = ((Inst.store move.width val move.ptr).exec u, none) := by
    intro b val hlt hb
    have hkept : ∀ n, (b, n) ∉ c'.toDelete := by
      intro n hn
      rw [hfork.toDelete, hsides.toDelete] at hn
      rcases List.mem_append.mp hn with hn | hn
      · exact absurd (h.kept _ hn) (Nat.not_lt.mpr (hinsert ▸ hlt.le))
      · exact hlt.ne' (Prod.mk.inj (List.mem_singleton.mp hn)).1
    rw [Cpu.emitted_eq hkept, hb]
    rfl
  by_cases hone : move.condition.eval (execAll c.code t₀).env = 1
  · rw [if_pos hone] at hbranch
    have hval := hsides.ifTrue hone
    obtain ⟨context, rfl⟩ : ∃ context, x = { c₂.symex with context := context } := by
      simp only [visit, visitStore, Except.bind_eq_ok, Except.pure_eq_ok] at hfalse
      obtain ⟨_, _, _, _, context, _, rfl⟩ := hfalse
      exact ⟨context, rfl⟩
    have hback : Symex.Denotes ν σ known
        { c₂.symex with context := { context with memory := c₂.symex.context.memory } }
        (execAll clones (execAll c.code t₀)) :=
      ⟨hden.vars, hden.context.mem, hden.context.wf⟩
    have hvisits := (Visits.refl (c.insertPoint, t₀)).step hbranch
    have hexec := hside hc₂.lt hfork.ifTrue
    rw [← hfork.insertPoint] at hvisits hexec
    exact ⟨_, _, _, u, _, .ifTrue hone hpaths, h.visit_store hS hlast hsides.computes hwidth hval hback
      htrueGet htrue, hvisits, hexec, h.store_last hlast hsides.computes hval⟩
  · rw [if_neg hone] at hbranch
    have hval := hsides.ifFalse hone
    exact ⟨_, _, _, u, _, .ifFalse hone hpaths rfl, h.visit_store hS hlast hsides.computes hwidth hval
      hden hfalseGet hfalse, (Visits.refl (c.insertPoint, t₀)).step hbranch,
      hside (Nat.lt_succ_of_lt hc₂.lt) hfork.ifFalse, h.store_last hlast hsides.computes hval⟩

/-- An operand has a value, in the code and in the symbolic state. -/
def Cpu.Holds (c : Cpu) (ν : Valuation) (t₀ : IrState Name) (a : Operand Name) (n : ℕ) : Prop :=
  a.eval (execAll c.code t₀).env = n ∧ ∀ v, c.symex.get a = .ok v → v.eval ν = n

/-- **Splitting a conditional move preserves it.** What is made for a side is, on this side, the stored
value. Where a run goes on, the symbolic state of the path and the emitted code, in which the store of the
choice is erased, have the registers and the memory of the block before. -/
theorem handleConditionalMoves_splits (hS : M.solver.Sound) (hσ : Unwritten ν σ) {inst : Instruction}
    (h : c.AtMove move ν σ t₀) (hrun : handleConditionalMoves M inst c = .ok c') :
    ∃ value trueVal falseVal,
      c.code[move.position]? = some (.store move.width value move.ptr) ∧
      materialize M 3 move.wrappers.reverse move.trueValue c = .ok trueVal ∧
      materialize M 4 move.wrappers.reverse move.falseValue trueVal.2 = .ok falseVal ∧
      (move.condition.eval (execAll c.code t₀).env = 1 →
        falseVal.2.Holds ν t₀ trueVal.1 (value.eval (execAll c.code t₀).env)) ∧
      (move.condition.eval (execAll c.code t₀).env ≠ 1 →
        falseVal.2.Holds ν t₀ falseVal.1 (value.eval (execAll c.code t₀).env)) ∧
      (c.insertPoint, move.position) ∈ c'.toDelete ∧
      c.Preserves ν σ c' inst.nextPc (move.condition.eval (execAll c.code t₀).env = 1) t₀
        (execAll c.code t₀).mem := by
  have hfound : findConditionalMove (c.function c.insertPoint).insts = some move := h.found
  rw [handleConditionalMoves, h.building.block, hfound] at hrun
  simp only [Except.bind_eq_ok] at hrun
  obtain ⟨cond, hcond, trueVal, htrue, falseVal, hfalse, ⟨verdict, v⟩, hverdict, hrun⟩ := hrun
  obtain ⟨value, front, rest, hcode, hposition, hwidth, ⟨w, hc, ha, hb, hwraps⟩, hvalue, hlast⟩ :=
    h.exists_store
  obtain ⟨clones, hsides⟩ := h.sides hS hσ htrue hfalse hc ha hb hwraps hvalue
  obtain ⟨known, hden, htrueGet, hfalseGet⟩ := hsides.denotes
  have hcode₂ : execAll falseVal.2.code t₀ = execAll clones (execAll c.code t₀) := by
    rw [Cpu.code, hsides.goesOn.insertPoint, hsides.function, execAll_append]
  have hstore : c.code[move.position]? = some (.store move.width value move.ptr) := by
    rw [hcode, ← hposition, List.getElem?_append_right (Nat.le_refl _), Nat.sub_self]
    rfl
  refine ⟨value, trueVal, falseVal, hstore, htrue, hfalse, fun hone => ?_, fun hone => ?_, ?_⟩
  · rw [Cpu.Holds, hcode₂]
    have hval := hsides.ifTrue hone
    exact ⟨hval, fun v hv => (hden.operand (htrueGet v hv) hv).2.trans hval⟩
  · rw [Cpu.Holds, hcode₂]
    have hval := hsides.ifFalse hone
    exact ⟨hval, fun v hv => (hden.operand (hfalseGet v hv) hv).2.trans hval⟩
  cases verdict with
  | some result =>
    have hdelete : (c.insertPoint, move.position) ∈ c'.toDelete := by
      obtain ⟨_, _, rfl⟩ := Cpu.exec_eq hrun
      exact List.mem_append_right _ (List.mem_singleton_self _)
    refine ⟨hdelete, h.solved hS hcode hposition hwidth hlast hsides ?_ hrun _ _⟩
    -- what the solver says is so under every valuation
    rw [solveMove] at hverdict
    split at hverdict
    · obtain ⟨hsort, heval⟩ := h.denotes.operand (Symex.width_restrict hc hcond) hcond
      have hiff := taken_iff_of_opaqueSolver hS hsort hverdict ν
      rw [heval] at hiff
      cases result with
      | true => exact .inl ⟨rfl, hiff.mp rfl⟩
      | false => exact .inr ⟨rfl, fun hone => Bool.false_ne_true (hiff.mpr hone)⟩
    · cases hverdict
  | none =>
    rw [← hsides.goesOn.insertPoint] at hrun
    have hfork := forkMove_eq (hsides.goesOn.building h.building) hrun
    refine ⟨?_, h.forked hS hcode hposition hwidth hlast hsides hfork⟩
    rw [hfork.toDelete, hsides.goesOn.insertPoint]
    exact List.mem_append_right _ (List.mem_singleton_self _)

/-! ### Moves between registers -/

/-- The emulator leaves code without intrinsics as it is. -/
theorem runBlock_plain (hS : M.solver.Sound) (hσ : Unwritten ν σ) {A : List Term} :
    ∀ {insts : List (Inst Name)} {types : Types Name} {x : Symex} {t : IrState Name}
      {r : Emitted × Symex}, Typed types insts → (∀ i ∈ insts, i.address = none) →
      x.Denotes ν σ types t → runBlock M.solver A insts x = .ok r →
      r.1.insts = insts ∧ r.2.Denotes ν σ (finalTypes types insts) (execAll insts t)
  | [], types, x, t, r, _, _, hden, hrun => by
    obtain rfl := Except.ok.inj hrun
    exact ⟨rfl, hden⟩
  | i :: insts, types, x, t, r, ⟨hi, _, hrest⟩, hplain, hden, hrun => by
    obtain ⟨haddress, hplain⟩ := List.forall_mem_cons.mp hplain
    rw [runBlock, if_neg (by rw [hi.not_terminator]; exact Bool.false_ne_true)] at hrun
    simp only [Except.bind_eq_ok, Except.pure_eq_ok] at hrun
    obtain ⟨first, hfirst, rest, hrun, rfl⟩ := hrun
    obtain ⟨x', hvisit, rfl⟩ : ∃ x', visit M.solver A i x = .ok x' ∧ first = (⟨[i], []⟩, x') := by
      cases i with
      | readMemory | writeMemory => cases haddress
      | _ =>
        simp only [Emulator.run, Except.bind_eq_ok, Except.pure_eq_ok] at hfirst
        obtain ⟨x', hvisit, rfl⟩ := hfirst
        exact ⟨x', hvisit, rfl⟩
    obtain ⟨hinsts, hden⟩ := runBlock_plain hS hσ hrest hplain
      (visit_sound hS hσ hden hi haddress hvisit) hrun
    exact ⟨congrArg (i :: ·) hinsts, hden⟩

/-- Lifted code is scoped. -/
theorem Typed.scoped : ∀ {insts : List (Inst Name)} {types : Types Name}, Typed types insts →
    Scoped types insts
  | [], _, _ => trivial
  | i :: insts, types, ⟨hi, hnew, hrest⟩ => by
    refine ⟨?_, hnew, hrest.scoped⟩
    cases i with
    | load => exact ⟨hi.1, hi.2.addressed⟩
    | store => exact ⟨hi.1, hi.2.1, (Renamed.loadable_of_storable hi.2.2).addressed⟩
    | _ => exact hi

/-- A conditional move between registers, as it is lifted and emulated. -/
theorem Cpu.atMove_of_runBlock (hS : M.solver.Sound) (hσ : Unwritten ν σ) (hc : c.Building)
    (hkept : ∀ d ∈ c.toDelete, d.1 < c.insertPoint) {semantics : Semantics}
    (hplain : ∀ i ∈ semantics.insts, i.address = none) {pc : Addr} {x : Symex} {r : Emitted × Symex}
    {A : List Term} (hrun : runBlock M.solver A (semantics.inBlock c.insertPoint pc) x = .ok r)
    (hcode : c.code = r.1.insts) (hsymex : c.symex = r.2) (hden : x.Denotes ν σ (fun _ => none) t₀)
    (hfound : findConditionalMove c.code = some move) (hregister : move.ptr.Loadable)
    (havoids : AvoidsAll (move.ptr.place t₀.env) (move.width / 8) (c.code.drop (move.position + 1))
      (execAll (c.code.take (move.position + 1)) t₀)) : c.AtMove move ν σ t₀ := by
  have htyped := semantics.inBlock_typed c.insertPoint pc
  have hblock : ∀ i ∈ semantics.inBlock c.insertPoint pc, i.address = none := by
    intro i hi
    rcases List.mem_cons.mp hi with rfl | hi
    · rfl
    · obtain ⟨j, hj, rfl⟩ := List.mem_map.mp hi
      have hnone := hplain j hj
      cases j <;> first | rfl | cases hnone
  obtain ⟨hinsts, hdenotes⟩ := runBlock_plain hS hσ htyped hblock hden hrun
  rw [hinsts] at hcode
  refine ⟨hc, hkept, hcode ▸ htyped.scoped, fun a w ha => ?_, hfound, hregister, havoids, ?_⟩
  · cases a with
    | const => exact ⟨trivial, trivial⟩
    | ssa name =>
      rw [Cpu.widths, hcode] at ha
      have hname : semantics.types c.insertPoint pc name = some w := ha
      obtain ⟨n, rfl⟩ := Semantics.types_lifted hname
      exact ⟨nofun, nofun⟩
  · rw [Cpu.widths, hcode, hsymex]
    refine ⟨fun name w hname => hdenotes.vars name w ?_, hdenotes.context⟩
    rw [Symex.restrict] at hname
    split at hname
    · exact hname
    · cases hname

/-- A choice between two numbers by the lowest bit of a byte of the state, zero extended into `RAX`. -/
def choice : Semantics where
  insts := [.load 0 8 (.state 2065), .cast 1 .trunc 8 1 (.ssa 0),
    .select 2 32 (.ssa 1) (.const 32 7) (.const 32 9), .cast 3 .zext 32 64 (.ssa 2),
    .store 64 (.ssa 3) (.state 2216)]
  typed := by
    simp [Typed, Inst.OperandsTyped, Inst.extend, Inst.result, Operand.width, ByteWidth, Ptr.Loadable,
      Ptr.Storable, Function.update_apply]

/-- The lifter behind it. -/
def choiceCpu : Cpu where
  symex :=
    match runBlock .folding [] (choice.inBlock 1 0x1000) ⟨⟨fun _ => .empty, 0, 0⟩, fun _ => none⟩ with
    | .ok r => r.2
    | .error _ => ⟨⟨fun _ => .empty, 0, 0⟩, fun _ => none⟩
  function := Function.update (fun _ => ⟨none, [], [], []⟩) 1
    ⟨some 0x1000, choice.inBlock 1 0x1000, [], []⟩
  numBlocks := 2
  insertPoint := 1
  block := 1
  pc := 0x1000
  vpc := 0
  vjmp := false
  path _ := none
  cfg _ := none
  vcfg _ := none
  pathConstraints := []
  unexploredPaths := []
  toDelete := []
  opaqueSolving := false

def choiceMove : ConditionalMove where
  position := 5
  width := 64
  ptr := .state 2216
  condition := .ssa (Name.lifted 1 1)
  trueValue := .const 32 7
  falseValue := .const 32 9
  wrappers := [.cast (Name.lifted 1 3) .zext 32 64 (.ssa (Name.lifted 1 2))]

theorem choiceCpu_splits : ∃ c', handleConditionalMoves (Machine.bare .folding)
      ⟨"CMOV", .normal, 0, 0, 0x1007⟩ choiceCpu = .ok c' ∧ ∀ (σ : Bytes) (env : Name → ℕ),
    choiceCpu.Preserves (Valuation.withMemory (fun _ => 0) σ) σ c' 0x1007
      (choiceMove.condition.eval (execAll choiceCpu.code ⟨env, σ⟩).env = 1) ⟨env, σ⟩
      (execAll choiceCpu.code ⟨env, σ⟩).mem := by
  obtain ⟨r, hr⟩ : ∃ r, runBlock Solver.folding [] (choice.inBlock 1 0x1000)
      ⟨⟨fun _ => .empty, 0, 0⟩, fun _ => none⟩ = .ok r := Except.isOk_iff.mp (by decide +kernel)
  obtain ⟨c', hrun⟩ : ∃ c', handleConditionalMoves (Machine.bare .folding)
      ⟨"CMOV", .normal, 0, 0, 0x1007⟩ choiceCpu = .ok c' := Except.isOk_iff.mp (by decide +kernel)
  refine ⟨c', hrun, fun σ env => ?_⟩
  have hσ := unwritten_withMemory (fun _ => 0) σ
  have hden := denotes_empty (Valuation.withMemory (fun _ => 0) σ) σ env
  have hplain : ∀ i ∈ choice.insts, i.address = none := by decide
  have hblock : ∀ i ∈ choice.inBlock 1 0x1000, i.address = none := by decide
  have hcode := (runBlock_plain (M := Machine.bare .folding) Solver.folding_sound hσ
    (choice.inBlock_typed 1 0x1000) hblock hden hr).1
  have hsymex : choiceCpu.symex = r.2 := by rw [choiceCpu, hr]
  have hmove := Cpu.atMove_of_runBlock (M := Machine.bare .folding) (c := choiceCpu)
    Solver.folding_sound hσ ⟨rfl, by decide⟩ nofun hplain hr hcode.symm hsymex hden
    (show findConditionalMove choiceCpu.code = some choiceMove by rfl) trivial trivial
  obtain ⟨_, _, _, _, _, _, _, _, _, hpreserves⟩ := handleConditionalMoves_splits
    (M := Machine.bare .folding) Solver.folding_sound hσ hmove hrun
  exact hpreserves

end Vexa
