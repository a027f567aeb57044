import Vexa.Ir

/-!
# Straight-line code

Renaming the results of straight-line code along an injection changes nothing but the names. In
particular the memory that well-typed code leaves does not depend on names it does not define.

## Main definitions

* `finalTypes` — the names defined after straight-line code
* `Renamed` — one state is another with the defined names renamed

## Main results

* `Renamed.execAll` — execution commutes with renaming
* `Typed.map` — renamed code is well typed
-/

namespace Vexa

variable {N N' : Type} {f : N → N'} {types : Types N} {types' : Types N'} {s : IrState N}
  {t : IrState N'} {i : Inst N} {insts : List (Inst N)}

/-- The instructions whose results are known. -/
def Inst.Supported : Inst N → Prop
  | unsupported .. => False
  | _ => True

@[simp] theorem Operand.eval_const (env : N → ℕ) (w n : ℕ) :
    Operand.eval env (.const w n) = n % 2 ^ w := rfl

@[simp] theorem Operand.eval_ssa (env : N → ℕ) (name : N) :
    Operand.eval env (.ssa name) = env name := rfl

section

variable [DecidableEq N]

/-- The widths of the names defined after straight-line code. -/
def finalTypes (types : Types N) (insts : List (Inst N)) : Types N :=
  insts.foldl (fun types i => i.extend types) types

@[simp] theorem finalTypes_nil (types : Types N) : finalTypes types [] = types := rfl

@[simp] theorem finalTypes_cons (types : Types N) (i : Inst N) (insts : List (Inst N)) :
    finalTypes types (i :: insts) = finalTypes (i.extend types) insts := rfl

@[simp] theorem execAll_nil (s : IrState N) : execAll [] s = s := rfl

@[simp] theorem execAll_cons (i : Inst N) (insts : List (Inst N)) (s : IrState N) :
    execAll (i :: insts) s = execAll insts (i.exec s) := rfl

theorem execAll_append (insts insts' : List (Inst N)) (s : IrState N) :
    execAll (insts ++ insts') s = execAll insts' (execAll insts s) := List.foldl_append ..

end

/-- `t` is `s` with the defined names renamed along `f`. -/
structure Renamed (f : N → N') (types : Types N) (s : IrState N) (t : IrState N') : Prop where
  env : ∀ n w, types n = some w → t.env (f n) = s.env n
  mem : t.mem = s.mem

@[simp] theorem Operand.map_id (a : Operand N) : a.map id = a := by cases a <;> rfl

@[simp] theorem Ptr.map_id (ptr : Ptr N) : ptr.map id = ptr := by cases ptr <;> simp [Ptr.map]

@[simp] theorem Inst.map_id (i : Inst N) : i.map id = i := by cases i <;> simp [Inst.map]

namespace Renamed

theorem operand (h : Renamed f types s t) {a : Operand N} {w : ℕ} (ha : a.width types = some w) :
    (a.map f).eval t.env = a.eval s.env := by
  cases a with
  | const w n => rfl
  | ssa name => exact h.env name w ha

/-- Pointers that are not integers cast to a pointer point to the same place. -/
theorem place_eq {ptr : Ptr N} (env : N → ℕ) (env' : N' → ℕ) (h : ptr.Loadable) :
    (ptr.map f).place env' = ptr.place env := by
  cases ptr with
  | intToPtr value => exact h.elim
  | _ => rfl

theorem loadable_of_storable {w : ℕ} {ptr : Ptr N} (h : ptr.Storable w) : ptr.Loadable := by
  cases ptr with
  | intToPtr value => exact h.elim
  | _ => trivial

theorem store (h : Renamed f types s t) (place : PageId × Addr) (k x : ℕ) :
    Renamed f types (s.store place k x) (t.store place k x) :=
  ⟨h.env, by rw [IrState.mem_store, IrState.mem_store, h.mem]⟩

variable [DecidableEq N] [DecidableEq N']

theorem set (hf : Function.Injective f) (h : Renamed f types s t) (dst : N) (w x : ℕ) :
    Renamed f (Function.update types dst (some w)) (s.set dst x) (t.set (f dst) x) := by
  refine ⟨fun n v hn => ?_, h.mem⟩
  by_cases hd : n = dst
  · subst hd
    simp
  · rw [Function.update_of_ne hd] at hn
    rw [IrState.env_set, IrState.env_set, Function.update_of_ne (fun hc => hd (hf hc)),
      Function.update_of_ne hd]
    exact h.env n v hn

/-- **One instruction.** -/
theorem exec (hf : Function.Injective f) (h : Renamed f types s t) (hi : i.OperandsTyped types)
    (hs : i.Supported) : Renamed f (i.extend types) (i.exec s) ((i.map f).exec t) := by
  cases i with
  | binary dst op w a b =>
    rw [Inst.map, Inst.exec, Inst.exec, h.operand hi.2.1, h.operand hi.2.2]
    exact h.set hf ..
  | icmp dst p w a b =>
    rw [Inst.map, Inst.exec, Inst.exec, h.operand hi.1, h.operand hi.2]
    exact h.set hf ..
  | cast dst op src w a =>
    have ha : a.width types = some src := by cases op <;> exact hi.2
    rw [Inst.map, Inst.exec, Inst.exec, h.operand ha]
    exact h.set hf ..
  | select dst w c a b =>
    rw [Inst.map, Inst.exec, Inst.exec, h.operand hi.1, h.operand hi.2.1, h.operand hi.2.2]
    exact h.set hf ..
  | freeze dst w a =>
    rw [Inst.map, Inst.exec, Inst.exec, h.operand hi]
    exact h.set hf ..
  | load dst w ptr =>
    rw [Inst.map, Inst.exec, Inst.exec, place_eq s.env t.env hi.2, h.mem]
    exact h.set hf ..
  | store w a ptr =>
    rw [Inst.map, Inst.exec, Inst.exec, place_eq s.env t.env (loadable_of_storable hi.2.2),
      h.operand hi.2.1]
    exact h.store ..
  | readMemory dst size a =>
    rw [Inst.map, Inst.exec, Inst.exec, h.operand hi.2, h.mem]
    exact h.set hf ..
  | writeMemory dst size a v =>
    rw [Inst.map, Inst.exec, Inst.exec, h.operand hi.2.1, h.operand hi.2.2]
    exact h.store ..
  | unsupported dst w opcode => exact hs.elim
  | br target => exact hi.elim
  | condBr c ifTrue ifFalse => exact hi.elim
  | ret => exact hi.elim
  | unreachable => exact hi.elim

/-- **Straight-line code.** -/
theorem execAll (hf : Function.Injective f) : ∀ {insts : List (Inst N)} {types : Types N}
    {s : IrState N} {t : IrState N'}, Renamed f types s t → Typed types insts →
    (∀ i ∈ insts, i.Supported) →
    Renamed f (finalTypes types insts) (execAll insts s) (execAll (insts.map (Inst.map f)) t)
  | [], _, _, _, h, _, _ => h
  | i :: _, _, _, _, h, ⟨hi, _, hrest⟩, hs =>
    (h.exec hf hi (hs i (List.mem_cons_self ..))).execAll hf hrest
      fun i hi => hs i (List.mem_cons_of_mem _ hi)

end Renamed

/-! ### Types of renamed code -/

theorem Operand.width_map (h : ∀ n, types' (f n) = types n) (a : Operand N) :
    (a.map f).width types' = a.width types := by
  cases a with
  | const w n => rfl
  | ssa name => exact h name

theorem Inst.OperandsTyped.map (h : ∀ n, types' (f n) = types n) (hi : i.OperandsTyped types) :
    (i.map f).OperandsTyped types' := by
  have hptr : ∀ {ptr : Ptr N}, ptr.Loadable → (ptr.map f).Loadable := by
    intro ptr hptr
    cases ptr with
    | intToPtr value => exact hptr.elim
    | _ => trivial
  have hstore : ∀ {w : ℕ} {ptr : Ptr N}, ptr.Storable w → (ptr.map f).Storable w := by
    intro w ptr hptr
    cases ptr with
    | intToPtr value => exact hptr.elim
    | _ => exact hptr
  cases i with
  | cast dst op src w a =>
    cases op <;>
      simp only [Inst.map, Inst.OperandsTyped, Operand.width_map h] at hi ⊢ <;>
      exact hi
  | load dst w ptr => exact ⟨hi.1, hptr hi.2⟩
  | store w a ptr => exact ⟨hi.1, (Operand.width_map h a).trans hi.2.1, hstore hi.2.2⟩
  | _ =>
    simp only [Inst.map, Inst.OperandsTyped, Operand.width_map h] at hi ⊢
    try exact hi

theorem Inst.result_map (f : N → N') (i : Inst N) :
    (i.map f).result = i.result.map fun r => (f r.1, r.2) := by
  cases i <;> rfl

variable [DecidableEq N] [DecidableEq N']

theorem Inst.extend_map (hf : Function.Injective f) (h : ∀ n, types' (f n) = types n) (i : Inst N)
    (n : N) : (i.map f).extend types' (f n) = i.extend types n := by
  rw [Inst.extend, Inst.extend, Inst.result_map]
  cases i.result with
  | none => exact h n
  | some r =>
    by_cases hn : n = r.1
    · subst hn
      simp
    · simp only [Option.map_some]
      rw [Function.update_of_ne (fun hc => hn (hf hc)), Function.update_of_ne hn, h]

/-- **Renamed code is well typed.** -/
theorem Typed.map (hf : Function.Injective f) : ∀ {insts : List (Inst N)} {types : Types N}
    {types' : Types N'}, (∀ n, types' (f n) = types n) → Typed types insts →
    Typed types' (insts.map (Inst.map f))
  | [], _, _, _, _ => trivial
  | i :: _, _, types', h, ⟨hi, hnew, hrest⟩ => by
    refine ⟨hi.map h, fun dst w hdst => ?_, Typed.map hf (Inst.extend_map hf h i) hrest⟩
    rw [Inst.result_map] at hdst
    obtain ⟨r, hr, hdst⟩ := Option.map_eq_some_iff.mp hdst
    obtain ⟨rfl, rfl⟩ := Prod.mk.inj hdst
    rw [h]
    exact hnew r.1 r.2 hr

/-- The names renamed code defines. -/
theorem finalTypes_map (hf : Function.Injective f) : ∀ (insts : List (Inst N)) {types : Types N}
    {types' : Types N'}, (∀ n, types' (f n) = types n) →
    ∀ n, finalTypes types' (insts.map (Inst.map f)) (f n) = finalTypes types insts n
  | [], _, _, h => h
  | i :: insts, _, _, h => finalTypes_map hf insts (Inst.extend_map hf h i)

end Vexa
