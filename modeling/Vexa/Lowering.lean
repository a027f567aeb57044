import Vexa.Lib.ExceptBind
import Vexa.Program

/-!
# The code that replaces memory intrinsics

The emulator replaces every access of the program by loads and stores that only go where the solver
found the address to be. Wherever the address is one of these, the code does what the access does.

## Main definitions

* `Resolution.Covers` — the address is one of those the code was made for
* `Lowers` — code with its accesses replaced
* `Covered` — every access of an execution is covered

## Main results

* `lowerRead_exec`, `lowerWrite_exec` — one access
* `Lowers.exec` — straight-line code
* `runBlock_lowers` — what the emulator leaves behind
-/

namespace Vexa

/-- The access may go to the address. -/
def Resolution.Covers (r : Resolution) (a : Addr) : Prop :=
  match r with
  | literal b => a = b
  | among bs => a ∈ bs
  | unresolved => True

instance (a : Addr) : (r : Resolution) → Decidable (r.Covers a)
  | .literal b => inferInstanceAs (Decidable (a = b))
  | .among bs => inferInstanceAs (Decidable (a ∈ bs))
  | .unresolved => inferInstanceAs (Decidable True)

/-- A choice is between two addresses at least. -/
def Resolution.Proper (r : Resolution) : Prop :=
  match r with
  | among bs => 1 < bs.length
  | literal _ | unresolved => True

/-- The address an access of the program goes to. -/
def Inst.address {N : Type} : Inst N → Option (Operand N)
  | readMemory _ _ a | writeMemory _ _ a _ => some a
  | _ => none

/-- The code with its accesses replaced, one resolution for each. -/
inductive Lowers : List (Inst Name) → List Resolution → List (Inst Name) → Prop
  | nil : Lowers [] [] []
  | read {dst : Name} {size : ℕ} {a : Operand Name} {r : Resolution} {is code : List (Inst Name)}
      {rs : List Resolution} :
      r.Proper → Lowers is rs code →
      Lowers (.readMemory dst size a :: is) (r :: rs) (r.lowerRead dst size a ++ code)
  | write {dst : Name} {size : ℕ} {a v : Operand Name} {r : Resolution} {is code : List (Inst Name)}
      {rs : List Resolution} :
      Lowers is rs code →
      Lowers (.writeMemory dst size a v :: is) (r :: rs) (r.lowerWrite dst size a v ++ code)
  | plain {i : Inst Name} {is code : List (Inst Name)} {rs : List Resolution} :
      i.address = none → i.Supported → Lowers is rs code → Lowers (i :: is) rs (i :: code)

/-- Every access of the execution goes where its resolution says. -/
def Covered {N : Type} [DecidableEq N] : List (Inst N) → List Resolution → IrState N → Prop
  | [], _, _ => True
  | i :: is, rs, s =>
    match i.address, rs with
    | some a, r :: rs => r.Covers (BitVec.ofNat 64 (a.eval s.env)) ∧ Covered is rs (i.exec s)
    | some _, [] => False
    | none, rs => Covered is rs (i.exec s)

/-! ### Names -/

theorem Name.temp_ne_of_ne {name : Name} {j j' k k' : ℕ} (h : (j, k) ≠ (j', k')) :
    name.temp j k ≠ name.temp j' k' := by
  intro heq
  have hpart : (j + 1, k) = (j' + 1, k') := congrArg Name.part heq
  obtain ⟨hj, hk⟩ := Prod.mk.inj hpart
  exact h (Prod.ext (Nat.succ.inj hj) hk)

/-- The results of lifted instructions; the other names are made on the way. -/
def Name.Lifted (name : Name) : Prop := name.part.1 = 0

theorem Name.Lifted.ne_temp {name dst : Name} (h : name.Lifted) (j k : ℕ) : name ≠ dst.temp j k := by
  rintro rfl
  exact absurd h (Nat.succ_ne_zero j)

/-- The operand is not a name made on the way to `dst`, nor `dst`. -/
def Operand.Avoids (a : Operand Name) (dst : Name) : Prop :=
  ∀ name, a = .ssa name → name.Lifted ∧ name ≠ dst

/-- The operand is a constant or was made before round `j`. -/
def Operand.Before (a : Operand Name) (dst : Name) (j : ℕ) : Prop :=
  ∀ name, a = .ssa name → ∃ j' k, j' < j ∧ name = dst.temp j' k

/-- `t` is `s` but for names made on the way to `dst`, and `dst`. -/
structure SameBut (dst : Name) (s t : IrState Name) : Prop where
  mem : t.mem = s.mem
  env : ∀ name : Name, name.Lifted → name ≠ dst → t.env name = s.env name

namespace SameBut

variable {dst : Name} {s t u : IrState Name}

theorem refl (dst : Name) (s : IrState Name) : SameBut dst s s := ⟨rfl, fun _ _ _ => rfl⟩

theorem trans (h : SameBut dst s t) (h' : SameBut dst t u) : SameBut dst s u :=
  ⟨h'.mem.trans h.mem, fun name hname hne => (h'.env name hname hne).trans (h.env name hname hne)⟩

theorem set_temp (dst : Name) (s : IrState Name) (j k x : ℕ) :
    SameBut dst s (s.set (dst.temp j k) x) :=
  ⟨rfl, fun _ hname _ => Function.update_of_ne (hname.ne_temp j k) ..⟩

theorem set_self (dst : Name) (s : IrState Name) (x : ℕ) : SameBut dst s (s.set dst x) :=
  ⟨rfl, fun _ _ hne => Function.update_of_ne hne ..⟩

theorem operand (h : SameBut dst s t) {a : Operand Name} (ha : a.Avoids dst) :
    a.eval t.env = a.eval s.env := by
  cases a with
  | const w n => rfl
  | ssa name =>
    obtain ⟨hname, hne⟩ := ha name rfl
    exact h.env name hname hne

end SameBut

/-! ### Loads -/

variable {dst : Name} {size : ℕ} {address value : Operand Name} {r : Resolution} {s t : IrState Name}

theorem pagePtr_place (a : Addr) (env : Name → ℕ) : (pagePtr a).place env = locate a := by
  rw [pagePtr, locate]
  split <;> rfl

theorem eval_eq_address (x : ℕ) (a : Addr) :
    Predicate.eval .eq 64 x (a.toNat % 2 ^ 64) = decide (BitVec.ofNat 64 x = a) := by
  have ha : BitVec.ofNat 64 (a.toNat % 2 ^ 64) = a := by
    apply BitVec.eq_of_toNat_eq
    simp [a.isLt]
  show decide (BitVec.ofNat 64 x = BitVec.ofNat 64 (a.toNat % 2 ^ 64)) = _
  rw [ha]

/-- The chain of guarded loads. -/
theorem emitReads_exec (size : ℕ) (hdst : dst.Lifted) (haddress : address.Avoids dst) :
    ∀ (as : List Addr) {j : ℕ} (final : Operand Name) {s : IrState Name}, as ≠ [] →
      final.Before dst j →
      SameBut dst s (execAll (emitReads dst size address j final as) s) ∧
      (execAll (emitReads dst size address j final as) s).env dst =
        if BitVec.ofNat 64 (address.eval s.env) ∈ as then
          s.mem.load (locate (BitVec.ofNat 64 (address.eval s.env))) (size / 8)
        else final.eval s.env
  | [], _, _, _, hne, _ => absurd rfl hne
  | a :: as, j, final, s, _, hfinal => by
    -- the load, the comparison and the choice of one round
    set s₁ := s.set (dst.temp j 1) (s.mem.load (locate a) (size / 8))
    set s₂ := s₁.set (dst.temp j 2) (decide (BitVec.ofNat 64 (address.eval s.env) = a)).toNat
    have hsame₁ : SameBut dst s s₁ := SameBut.set_temp dst s j 1 _
    have hsame₂ : SameBut dst s s₂ := hsame₁.trans (SameBut.set_temp dst s₁ j 2 _)
    have hone : s₂.env (dst.temp j 1) = s.mem.load (locate a) (size / 8) := by
      rw [IrState.env_set, Function.update_of_ne (Name.temp_ne_of_ne (by simp)), IrState.env_set,
        Function.update_self]
    have htwo : s₂.env (dst.temp j 2)
        = (decide (BitVec.ofNat 64 (address.eval s.env) = a)).toNat := by
      rw [IrState.env_set, Function.update_self]
    have hold : final.eval s₂.env = final.eval s.env := by
      cases final with
      | const w n => rfl
      | ssa name =>
        obtain ⟨j', k, hj, rfl⟩ := hfinal name rfl
        have hne : ∀ k', dst.temp j' k ≠ dst.temp j k' := fun k' =>
          Name.temp_ne_of_ne fun heq => absurd (Prod.mk.inj heq).1 (Nat.ne_of_lt hj)
        rw [Operand.eval_ssa, IrState.env_set, Function.update_of_ne (hne 2), IrState.env_set,
          Function.update_of_ne (hne 1), Operand.eval_ssa]
    set chosen := if BitVec.ofNat 64 (address.eval s.env) = a then
      s.mem.load (locate a) (size / 8) else final.eval s.env with hchosen
    have hround : ∀ name, execAll [.load (dst.temp j 1) size (pagePtr a),
        .icmp (dst.temp j 2) .eq 64 address (.const 64 a.toNat),
        .select name size (.ssa (dst.temp j 2)) (.ssa (dst.temp j 1)) final] s
        = s₂.set name chosen := by
      intro name
      have hcmp : Inst.exec (.icmp (dst.temp j 2) .eq 64 address (.const 64 a.toNat)) s₁ = s₂ := by
        rw [Inst.exec, hsame₁.operand haddress, Operand.eval_const, eval_eq_address]
      have hload : Inst.exec (.load (dst.temp j 1) size (pagePtr a)) s = s₁ := by
        rw [Inst.exec, pagePtr_place]
      rw [execAll_cons, hload, execAll_cons, hcmp, execAll_cons, execAll_nil, Inst.exec]
      rw [Operand.eval_ssa, Operand.eval_ssa, hone, htwo, hold, hchosen]
      by_cases h : BitVec.ofNat 64 (address.eval s.env) = a <;> simp [h]
    rw [emitReads, execAll_append, hround]
    by_cases has : as = []
    · subst has
      rw [if_pos rfl, emitReads, execAll_nil]
      refine ⟨hsame₂.trans (SameBut.set_self dst s₂ _), ?_⟩
      rw [IrState.env_set, Function.update_self, hchosen]
      by_cases h : BitVec.ofNat 64 (address.eval s.env) = a <;> simp [h]
    · rw [if_neg has]
      have hsame₃ : SameBut dst s (s₂.set (dst.temp j 3) chosen) :=
        hsame₂.trans (SameBut.set_temp dst s₂ j 3 _)
      obtain ⟨hsame, hload⟩ := emitReads_exec size hdst haddress as (j := j + 1)
        (.ssa (dst.temp j 3)) (s := s₂.set (dst.temp j 3) chosen) has
        (fun name hname => ⟨j, 3, Nat.lt_succ_self j, (Operand.ssa.inj hname).symm⟩)
      refine ⟨hsame₃.trans hsame, ?_⟩
      rw [hload, hsame₃.operand haddress, hsame₃.mem, Operand.eval_ssa, IrState.env_set,
        Function.update_self, hchosen]
      simp only [List.mem_cons]
      by_cases h : BitVec.ofNat 64 (address.eval s.env) = a <;> simp [h]

/-- **One load.** -/
theorem lowerRead_exec (size : ℕ) (hdst : dst.Lifted) (haddress : address.Avoids dst) (hr : r.Proper)
    (hcovers : r.Covers (BitVec.ofNat 64 (address.eval s.env))) :
    SameBut dst s (execAll (r.lowerRead dst size address) s) ∧
    (execAll (r.lowerRead dst size address) s).env dst =
      s.mem.load (locate (BitVec.ofNat 64 (address.eval s.env))) (size / 8) := by
  cases r with
  | literal a =>
    obtain rfl : BitVec.ofNat 64 (address.eval s.env) = a := hcovers
    refine ⟨SameBut.set_self dst s _, ?_⟩
    rw [Resolution.lowerRead, execAll_cons, execAll_nil, Inst.exec, pagePtr_place, IrState.env_set,
      Function.update_self]
  | unresolved =>
    refine ⟨SameBut.set_self dst s _, ?_⟩
    rw [Resolution.lowerRead, execAll_cons, execAll_nil, Inst.exec, IrState.env_set,
      Function.update_self]
    rfl
  | among as =>
    cases as with
    | nil => exact absurd hr (Nat.not_lt_zero 1)
    | cons a as =>
      have has : as ≠ [] := by
        rintro rfl
        exact absurd hr (lt_irrefl 1)
      set s₁ := s.set (dst.temp 0 1) (s.mem.load (locate a) (size / 8))
      have hsame₁ : SameBut dst s s₁ := SameBut.set_temp dst s 0 1 _
      have hload : Inst.exec (.load (dst.temp 0 1) size (pagePtr a)) s = s₁ := by
        rw [Inst.exec, pagePtr_place]
      obtain ⟨hsame, heval⟩ := emitReads_exec size hdst haddress as (j := 1)
        (.ssa (dst.temp 0 1)) (s := s₁) has
        (fun name hname => ⟨0, 1, Nat.zero_lt_one, (Operand.ssa.inj hname).symm⟩)
      rw [Resolution.lowerRead, execAll_cons, hload]
      refine ⟨hsame₁.trans hsame, ?_⟩
      rw [heval, hsame₁.operand haddress, hsame₁.mem, Operand.eval_ssa, IrState.env_set,
        Function.update_self]
      rcases List.mem_cons.mp hcovers with h | h
      · rw [h, ite_self]
      · rw [if_pos h]

/-! ### Stores -/

/-- The operand is a constant or the result of a lifted instruction. -/
def Operand.Lifted (a : Operand Name) : Prop := ∀ name, a = .ssa name → name.Lifted

/-- The results of lifted instructions are the same. -/
def SameLifted (s t : IrState Name) : Prop := ∀ name : Name, name.Lifted → t.env name = s.env name

theorem SameLifted.operand (h : SameLifted s t) {a : Operand Name} (ha : a.Lifted) :
    a.eval t.env = a.eval s.env := by
  cases a with
  | const w n => rfl
  | ssa name => exact h name (ha name rfl)

/-- The chain of guarded stores. -/
theorem emitWrites_exec (dst : Name) (size : ℕ) (haddress : address.Lifted) (hvalue : value.Lifted) :
    ∀ (as : List Addr) {j : ℕ} {s : IrState Name},
      SameLifted s (execAll (emitWrites dst size address value j as) s) ∧
      (execAll (emitWrites dst size address value j as) s).mem =
        if BitVec.ofNat 64 (address.eval s.env) ∈ as then
          s.mem.store (locate (BitVec.ofNat 64 (address.eval s.env))).1
            (locate (BitVec.ofNat 64 (address.eval s.env))).2 (size / 8) (value.eval s.env)
        else s.mem
  | [], _, _ => ⟨fun _ _ => rfl, by simp [emitWrites]⟩
  | a :: as, j, s => by
    set guard := decide (BitVec.ofNat 64 (address.eval s.env) = a) with hguard
    set old := s.mem.load (locate a) (size / 8)
    set chosen := if guard then value.eval s.env else old with hchosen
    set s₁ := s.set (dst.temp j 1) guard.toNat
    set s₂ := s₁.set (dst.temp j 2) old
    set s₃ := s₂.set (dst.temp j 3) chosen
    set s₄ := s₃.store (locate a) (size / 8) chosen with hs₄
    have hlifted : SameLifted s s₃ := by
      intro name hname
      rw [IrState.env_set, Function.update_of_ne (hname.ne_temp j 3), IrState.env_set,
        Function.update_of_ne (hname.ne_temp j 2), IrState.env_set,
        Function.update_of_ne (hname.ne_temp j 1)]
    have hvalue₂ : value.eval s₂.env = value.eval s.env := by
      cases value with
      | const w n => rfl
      | ssa name =>
        have hname := hvalue name rfl
        rw [Operand.eval_ssa, IrState.env_set, Function.update_of_ne (hname.ne_temp j 2),
          IrState.env_set, Function.update_of_ne (hname.ne_temp j 1), Operand.eval_ssa]
    have hround : execAll [.icmp (dst.temp j 1) .eq 64 address (.const 64 a.toNat),
        .load (dst.temp j 2) size (pagePtr a),
        .select (dst.temp j 3) size (.ssa (dst.temp j 1)) value (.ssa (dst.temp j 2)),
        .store size (.ssa (dst.temp j 3)) (pagePtr a)] s = s₄ := by
      have hcmp : Inst.exec (.icmp (dst.temp j 1) .eq 64 address (.const 64 a.toNat)) s = s₁ := by
        rw [Inst.exec, Operand.eval_const, eval_eq_address]
      have hload : Inst.exec (.load (dst.temp j 2) size (pagePtr a)) s₁ = s₂ := by
        rw [Inst.exec, pagePtr_place]
        rfl
      have hselect : Inst.exec (.select (dst.temp j 3) size (.ssa (dst.temp j 1)) value
          (.ssa (dst.temp j 2))) s₂ = s₃ := by
        have hone : s₂.env (dst.temp j 1) = guard.toNat := by
          rw [IrState.env_set, Function.update_of_ne (Name.temp_ne_of_ne (by simp)),
            IrState.env_set, Function.update_self]
        have htwo : s₂.env (dst.temp j 2) = old := by
          rw [IrState.env_set, Function.update_self]
        rw [Inst.exec, Operand.eval_ssa, Operand.eval_ssa, hone, htwo, hvalue₂]
        cases hg : guard <;> simp [s₃, hchosen, hg]
      rw [execAll_cons, hcmp, execAll_cons, hload, execAll_cons, hselect, execAll_cons,
        execAll_nil, Inst.exec, pagePtr_place, Operand.eval_ssa, IrState.env_set,
        Function.update_self]
    -- storing back what was loaded changes nothing
    have hmem : s₄.mem = if BitVec.ofNat 64 (address.eval s.env) = a then
        s.mem.store (locate a).1 (locate a).2 (size / 8) (value.eval s.env) else s.mem := by
      rw [hs₄, IrState.mem_store, hchosen, hguard]
      by_cases h : BitVec.ofNat 64 (address.eval s.env) = a
      · simp [h, s₃, s₂, s₁]
      · simp only [h, decide_false, Bool.false_eq_true, if_false]
        exact Bytes.store_load_self s.mem (locate a).1 (locate a).2 (Nat.le_refl _)
    rw [emitWrites, execAll_append, hround]
    obtain ⟨hsame, hrest⟩ := emitWrites_exec dst size haddress hvalue as (j := j + 1) (s := s₄)
    refine ⟨fun name hname => (hsame name hname).trans (hlifted name hname), ?_⟩
    have haddress₄ : address.eval s₄.env = address.eval s.env := hlifted.operand haddress
    have hvalue₄ : value.eval s₄.env = value.eval s.env := hlifted.operand hvalue
    rw [hrest, haddress₄, hvalue₄, hmem]
    by_cases h : BitVec.ofNat 64 (address.eval s.env) = a
    · by_cases has : a ∈ as <;> simp [h, has, Bytes.store_store]
    · simp [h]

/-- **One store.** -/
theorem lowerWrite_exec (dst : Name) (size : ℕ) (haddress : address.Lifted) (hvalue : value.Lifted)
    (hcovers : r.Covers (BitVec.ofNat 64 (address.eval s.env))) :
    SameLifted s (execAll (r.lowerWrite dst size address value) s) ∧
    (execAll (r.lowerWrite dst size address value) s).mem =
      s.mem.store (locate (BitVec.ofNat 64 (address.eval s.env))).1
        (locate (BitVec.ofNat 64 (address.eval s.env))).2 (size / 8) (value.eval s.env) := by
  cases r with
  | literal a =>
    obtain rfl : BitVec.ofNat 64 (address.eval s.env) = a := hcovers
    refine ⟨fun _ _ => rfl, ?_⟩
    rw [Resolution.lowerWrite, execAll_cons, execAll_nil, Inst.exec, pagePtr_place,
      IrState.mem_store]
  | unresolved => exact ⟨fun _ _ => rfl, rfl⟩
  | among as =>
    obtain ⟨hsame, hmem⟩ := emitWrites_exec dst size haddress hvalue as
      (j := 0) (s := s)
    exact ⟨hsame, hmem.trans (if_pos hcovers)⟩

/-! ### Straight-line code -/

variable {types : Types Name} {insts code : List (Inst Name)} {rs : List Resolution} {S : Solver}
  {pathConstraints : List Term}

/-- `t` is `s` on the defined names. -/
abbrev Agrees (types : Types Name) (s t : IrState Name) : Prop := Renamed id types s t

theorem Agrees.operand (h : Agrees types s t) {a : Operand Name} {w : ℕ}
    (ha : a.width types = some w) : a.eval t.env = a.eval s.env := by
  have heq := Renamed.operand h ha
  rwa [Operand.map_id] at heq

/-- Only results of lifted instructions are defined. -/
def LiftedTypes (types : Types Name) : Prop := ∀ name w, types name = some w → name.Lifted

/-- The code is that of lifted instructions. -/
def LiftedCode (insts : List (Inst Name)) : Prop :=
  ∀ i ∈ insts, ∀ dst w, i.result = some (dst, w) → dst.Lifted

theorem LiftedTypes.operand (h : LiftedTypes types) {a : Operand Name} {w : ℕ}
    (ha : a.width types = some w) : a.Lifted := by
  rintro name rfl
  exact h name w ha

theorem LiftedTypes.extend (h : LiftedTypes types) {i : Inst Name}
    (hi : ∀ dst w, i.result = some (dst, w) → dst.Lifted) : LiftedTypes (i.extend types) := by
  intro name w hname
  rw [Inst.extend] at hname
  cases hr : i.result with
  | none =>
    rw [hr] at hname
    exact h name w hname
  | some r =>
    simp only [hr] at hname
    by_cases hd : name = r.1
    · exact hd ▸ hi r.1 r.2 hr
    · rw [Function.update_of_ne hd] at hname
      exact h name w hname

/-- **Straight-line code.** Where the accesses are covered, the code does what it replaces. -/
theorem Lowers.exec (h : Lowers insts rs code) : ∀ {types : Types Name} {s t : IrState Name},
    Typed types insts → LiftedTypes types → LiftedCode insts → Agrees types s t →
    Covered insts rs s → Agrees (finalTypes types insts) (execAll insts s) (execAll code t) := by
  induction h with
  | nil => exact fun _ _ _ h _ => h
  | plain haddress hsupported hlowers ih =>
    rename_i i is code rs
    intro types s t ⟨hi, _, hrest⟩ htypes hcode hagrees hcovered
    simp only [Covered, haddress] at hcovered
    have hstep := Renamed.exec Function.injective_id hagrees hi hsupported
    rw [Inst.map_id] at hstep
    exact ih hrest (htypes.extend (hcode i (List.mem_cons_self ..)))
      (fun i hi => hcode i (List.mem_cons_of_mem _ hi)) hstep hcovered
  | read hproper hlowers ih =>
    rename_i dst size a r is code rs
    intro types s t ⟨hi, hnew, hrest⟩ htypes hcode hagrees hcovered
    obtain ⟨hcovers, hcovered⟩ := hcovered
    have hwidth : types dst = none := hnew dst size rfl
    have hdst : dst.Lifted := hcode _ (List.mem_cons_self ..) dst size rfl
    have haddress : a.eval t.env = a.eval s.env := hagrees.operand hi.2
    have havoids : a.Avoids dst := by
      rintro name rfl
      refine ⟨htypes name 64 hi.2, ?_⟩
      rintro rfl
      exact absurd (hwidth.symm.trans hi.2) nofun
    obtain ⟨hsame, hload⟩ := lowerRead_exec size (s := t) hdst havoids hproper
      (haddress ▸ hcovers)
    rw [execAll_append]
    refine ih hrest (htypes.extend (hcode _ (List.mem_cons_self ..)))
      (fun i hi => hcode i (List.mem_cons_of_mem _ hi)) ⟨fun name w hname => ?_, ?_⟩ hcovered
    · by_cases hd : name = dst
      · subst hd
        rw [haddress, hagrees.mem] at hload
        exact hload.trans (Function.update_self (f := s.env) ..).symm
      · have hold : types name = some w := (Function.update_of_ne hd ..).symm.trans hname
        refine (hsame.env name (htypes name w hold) hd).trans ((hagrees.env name w hold).trans ?_)
        exact (Function.update_of_ne hd ..).symm
    · exact hsame.mem.trans hagrees.mem
  | write hlowers ih =>
    rename_i dst size a v r is code rs
    intro types s t ⟨hi, _, hrest⟩ htypes hcode hagrees hcovered
    obtain ⟨hcovers, hcovered⟩ := hcovered
    have haddress : a.eval t.env = a.eval s.env := hagrees.operand hi.2.1
    have hvalue : v.eval t.env = v.eval s.env := hagrees.operand hi.2.2
    obtain ⟨hsame, hmem⟩ := lowerWrite_exec dst size (s := t)
      (htypes.operand hi.2.1) (htypes.operand hi.2.2) (haddress ▸ hcovers)
    rw [execAll_append]
    refine ih hrest (htypes.extend (hcode _ (List.mem_cons_self ..)))
      (fun i hi => hcode i (List.mem_cons_of_mem _ hi)) ⟨fun name w hname => ?_, ?_⟩ hcovered
    · exact (hsame name (htypes name w hname)).trans (hagrees.env name w hname)
    · rw [hmem, haddress, hvalue, hagrees.mem]
      rfl

/-! ### The variables of the calling convention -/

variable {ptr : Ptr Name}

theorem lastStore_append (ptr : Ptr Name) (insts insts' : List (Inst Name)) :
    lastStore ptr (insts ++ insts') = (lastStore ptr insts').or (lastStore ptr insts) := by
  rw [lastStore, lastStore, lastStore, List.reverse_append, List.findSome?_append]

theorem pagePtr_ne (h : ptr.Variable) (a : Addr) : pagePtr a ≠ ptr := by
  rintro rfl
  rw [pagePtr] at h
  split at h <;> exact h

theorem lastStore_emitReads (ptr : Ptr Name) : ∀ (as : List Addr) (j : ℕ) (final : Operand Name),
    lastStore ptr (emitReads dst size address j final as) = none
  | [], _, _ => rfl
  | a :: as, j, final => by
    rw [emitReads, lastStore_append, lastStore_emitReads ptr as]
    rfl

theorem lastStore_lowerRead (ptr : Ptr Name) (r : Resolution) :
    lastStore ptr (r.lowerRead dst size address) = none := by
  cases r with
  | literal a => rfl
  | unresolved => rfl
  | among as =>
    cases as with
    | nil => rfl
    | cons a as =>
      rw [Resolution.lowerRead, lastStore_cons, lastStore_emitReads]
      rfl

theorem lastStore_emitWrites (h : ptr.Variable) : ∀ (as : List Addr) (j : ℕ),
    lastStore ptr (emitWrites dst size address value j as) = none
  | [], _ => rfl
  | a :: as, j => by
    rw [emitWrites, lastStore_append, lastStore_emitWrites h as]
    simp [lastStore, pagePtr_ne h a]

theorem lastStore_lowerWrite (h : ptr.Variable) (r : Resolution) :
    lastStore ptr (r.lowerWrite dst size address value) = none := by
  cases r with
  | literal a => simp [Resolution.lowerWrite, lastStore, pagePtr_ne h a]
  | among as => exact lastStore_emitWrites h as 0
  | unresolved =>
    have hne : .intToPtr address ≠ ptr := by
      rintro rfl
      exact h
    simp [Resolution.lowerWrite, lastStore, hne]

/-- The variables are stored to as before. -/
theorem Lowers.lastStore_eq (h : Lowers insts rs code) (hptr : ptr.Variable) :
    lastStore ptr code = lastStore ptr insts := by
  induction h with
  | nil => rfl
  | plain _ _ _ ih => rw [lastStore_cons, lastStore_cons, ih]
  | read _ _ ih =>
    rw [lastStore_append, lastStore_cons, ih, lastStore_lowerRead]
    rfl
  | write _ ih =>
    rw [lastStore_append, lastStore_cons, ih, lastStore_lowerWrite hptr]
    rfl

theorem Lowers.supported (h : Lowers insts rs code) : ∀ i ∈ insts, i.Supported := by
  induction h with
  | nil => exact nofun
  | plain _ hsupported _ ih => exact List.forall_mem_cons.mpr ⟨hsupported, ih⟩
  | read _ _ ih => exact List.forall_mem_cons.mpr ⟨trivial, ih⟩
  | write _ ih => exact List.forall_mem_cons.mpr ⟨trivial, ih⟩

/-! ### The semantics of one instruction -/

/-- The code of a block before its accesses are replaced: the program counter is stored, and
remill's semantics follow. -/
def Semantics.inBlock (semantics : Semantics) (b : BlockId) (pc : Addr) : List (Inst Name) :=
  .store 64 (.const 64 pc.toNat) .nextPc :: semantics.insts.map (Inst.map (Name.lifted b))

theorem Name.lifted_injective (b : BlockId) : Function.Injective (Name.lifted b) := by
  intro n n' h
  exact congrArg Name.index h

theorem Semantics.inBlock_typed (semantics : Semantics) (b : BlockId) (pc : Addr) :
    Typed (fun _ => none) (semantics.inBlock b pc) :=
  ⟨⟨by decide, rfl, rfl⟩, nofun,
    Typed.map (Name.lifted_injective b) (fun _ => rfl) semantics.typed⟩

theorem Semantics.inBlock_lifted (semantics : Semantics) (b : BlockId) (pc : Addr) :
    LiftedCode (semantics.inBlock b pc) := by
  intro i hi dst w hdst
  rcases List.mem_cons.mp hi with rfl | hi
  · cases hdst
  · obtain ⟨i, _, rfl⟩ := List.mem_map.mp hi
    rw [Inst.result_map] at hdst
    obtain ⟨r, _, hr⟩ := Option.map_eq_some_iff.mp hdst
    obtain ⟨rfl, _⟩ := Prod.mk.inj hr
    rfl

/-- Coverage does not depend on the names. -/
theorem Renamed.covered {N : Type} [DecidableEq N] {f : N → Name} (hf : Function.Injective f) :
    ∀ {insts : List (Inst N)} {rs : List Resolution} {types : Types N} {s : IrState N}
      {t : IrState Name}, Renamed f types s t → Typed types insts → (∀ i ∈ insts, i.Supported) →
      (Covered (insts.map (Inst.map f)) rs t ↔ Covered insts rs s)
  | [], _, _, _, _, _, _, _ => Iff.rfl
  | i :: insts, rs, types, s, t, h, ⟨hi, _, hrest⟩, hs => by
    have hstep := h.exec hf hi (hs i (List.mem_cons_self ..))
    have hs' : ∀ i ∈ insts, i.Supported := fun i hi => hs i (List.mem_cons_of_mem _ hi)
    cases i with
    | readMemory dst size a =>
      cases rs with
      | nil => exact Iff.rfl
      | cons r rs =>
        refine and_congr ?_ (hstep.covered hf hrest hs')
        rw [h.operand hi.2]
    | writeMemory dst size a v =>
      cases rs with
      | nil => exact Iff.rfl
      | cons r rs =>
        refine and_congr ?_ (hstep.covered hf hrest hs')
        rw [h.operand hi.2.1]
    | _ =>
      have hrest : Covered (insts.map (Inst.map f)) rs _ ↔ Covered insts rs _ :=
        hstep.covered hf hrest hs'
      exact hrest

theorem Semantics.renamed_entry (b : BlockId) (pc : Addr) (t : IrState Name) :
    Renamed (Name.lifted b) (fun _ => none) (Semantics.entry pc t.mem)
      (Inst.exec (.store 64 (.const 64 pc.toNat) .nextPc) t) := by
  refine ⟨nofun, ?_⟩
  rw [Inst.exec, IrState.mem_store, Operand.eval_const, Nat.mod_eq_of_lt pc.isLt]
  rfl

variable {semantics : Semantics} {b : BlockId} {pc : Addr}

/-- The block does what the semantics of the instruction do, before its accesses are replaced. -/
theorem Lowers.renamed (h : Lowers (semantics.inBlock b pc) rs code) (t : IrState Name) :
    (execAll (semantics.inBlock b pc) t).mem = semantics.effect pc t.mem ∧
    (Covered (semantics.inBlock b pc) rs t ↔
      Covered semantics.insts rs (Semantics.entry pc t.mem)) := by
  have hentry := Semantics.renamed_entry b pc t
  have hsupported : ∀ i ∈ semantics.insts, i.Supported := by
    intro i hi
    have hmap := h.supported (i.map (Name.lifted b))
      (List.mem_cons_of_mem _ (List.mem_map_of_mem hi))
    cases i <;> trivial
  exact ⟨(hentry.execAll (Name.lifted_injective b) semantics.typed hsupported).mem,
    hentry.covered (Name.lifted_injective b) semantics.typed hsupported⟩

/-- **The code of a block does what its instruction does**, where the accesses are covered. -/
theorem Lowers.effect (h : Lowers (semantics.inBlock b pc) rs code) (t : IrState Name)
    (hcovered : Covered semantics.insts rs (Semantics.entry pc t.mem)) :
    Agrees (finalTypes (fun _ => none) (semantics.inBlock b pc))
      (execAll (semantics.inBlock b pc) t) (execAll code t) ∧
    (execAll code t).mem = semantics.effect pc t.mem := by
  obtain ⟨hmem, hiff⟩ := h.renamed t
  have hagrees := h.exec (semantics.inBlock_typed b pc) (fun _ _ hname => nomatch hname)
    (semantics.inBlock_lifted b pc) ⟨fun _ _ _ => rfl, rfl⟩ (hiff.mpr hcovered)
  exact ⟨hagrees, hagrees.mem.trans hmem⟩

/-- What the block finds as the operand last stored to a variable is what the variable holds. -/
theorem Lowers.variable (h : Lowers (semantics.inBlock b pc) rs code) (t : IrState Name)
    (hcovered : Covered semantics.insts rs (Semantics.entry pc t.mem)) (hptr : ptr.Variable)
    {w : ℕ} {v : Operand Name} (hlast : lastStore ptr code = some (w, v)) :
    ptr.Storable w ∧ v.width (finalTypes (fun _ => none) (semantics.inBlock b pc)) = some w ∧
      (semantics.effect pc t.mem).load (ptr.place t.env) (w / 8)
        = v.eval (execAll code t).env % 256 ^ (w / 8) := by
  rw [h.lastStore_eq hptr] at hlast
  obtain ⟨hstorable, hwidth, hload⟩ :=
    lastStore_load hptr t (semantics.inBlock_typed b pc) hlast
  obtain ⟨hagrees, _⟩ := h.effect t hcovered
  refine ⟨hstorable, hwidth, ?_⟩
  rw [hagrees.operand hwidth, ← hload, (h.renamed t).1, hptr.place_eq t.env]

/-! ### What the emulator leaves behind -/

/-- An access is only split between two addresses or more. -/
theorem enumerateAddress_length {address : Operand Name} {addrSym : Value} {s s' : Symex}
    {values : List Term}
    (h : enumerateAddress S pathConstraints address addrSym s = (some values, s')) :
    1 < values.length := by
  rw [enumerateAddress] at h
  split at h
  · cases h
  · simp only at h
    split at h
    · next hlen =>
      have hvalues := Option.some.inj (Prod.mk.inj h).1
      exact hvalues ▸ hlen.1
    · split at h <;> cases h

theorem length_of_mapM {α β : Type} {f : α → Except String β} : ∀ {xs : List α} {ys : List β},
    xs.mapM f = .ok ys → ys.length = xs.length
  | [], ys, h => by
    obtain rfl : [] = ys := Except.ok.inj h
    rfl
  | x :: xs, ys, h => by
    simp only [List.mapM_cons, Except.bind_eq_ok, Except.pure_eq_ok] at h
    obtain ⟨y, _, zs, hzs, rfl⟩ := h
    exact congrArg Nat.succ (length_of_mapM hzs)

theorem valueToPointer_proper {addr : Operand Name} {s : Symex} {r : Resolution × Symex}
    (h : valueToPointer S pathConstraints addr s = .ok r) : r.1.Proper := by
  simp only [valueToPointer, Except.bind_eq_ok] at h
  obtain ⟨v, _, h⟩ := h
  split at h
  · simp only [Except.bind_eq_ok, Except.pure_eq_ok] at h
    obtain ⟨a, _, rfl⟩ := h
    trivial
  · split at h
    · simp only [Except.bind_eq_ok, Except.pure_eq_ok] at h
      obtain ⟨a, _, rfl⟩ := h
      trivial
    · obtain rfl := Except.ok.inj h
      trivial

theorem readMemoryIntrinsic_proper {dst : Name} {size : ℕ} {address : Operand Name} {s : Symex}
    {r : Resolution × Symex} (h : readMemoryIntrinsic S pathConstraints dst size address s = .ok r) :
    r.1.Proper := by
  simp only [readMemoryIntrinsic, Except.bind_eq_ok] at h
  obtain ⟨addr, _, h⟩ := h
  split at h
  · next henum => exact absurd (enumerateAddress_length henum) (by simp)
  · next henum =>
    simp only [Except.bind_eq_ok, Except.pure_eq_ok] at h
    obtain ⟨_, _, _, _, addresses, haddresses, rfl⟩ := h
    have hlen := enumerateAddress_length henum
    rw [← length_of_mapM haddresses] at hlen
    exact hlen
  · simp only [Except.bind_eq_ok, Except.pure_eq_ok] at h
    obtain ⟨ptr, hptr, _, _, rfl⟩ := h
    exact (valueToPointer_proper hptr :)

theorem writeMemoryIntrinsic_proper {size : ℕ} {address value : Operand Name} {s : Symex}
    {r : Resolution × Symex}
    (h : writeMemoryIntrinsic S pathConstraints size address value s = .ok r) : r.1.Proper := by
  simp only [writeMemoryIntrinsic, Except.bind_eq_ok] at h
  obtain ⟨addr, _, h⟩ := h
  split at h
  · next henum =>
    simp only [Except.bind_eq_ok, Except.pure_eq_ok] at h
    obtain ⟨_, _, _, _, _, _, addresses, haddresses, rfl⟩ := h
    have hlen := enumerateAddress_length henum
    rw [← length_of_mapM haddresses] at hlen
    exact hlen
  · simp only [Except.bind_eq_ok, Except.pure_eq_ok] at h
    obtain ⟨ptr, hptr, _, _, _, _, _, _, rfl⟩ := h
    exact (valueToPointer_proper hptr :)

/-- **The emulator replaces the accesses** and keeps everything else. -/
theorem runBlock_lowers : ∀ {insts : List (Inst Name)} {s : Symex} {r : Emitted × Symex},
    runBlock S pathConstraints insts s = .ok r → Lowers insts r.1.resolutions r.1.insts
  | [], s, r, h => by
    obtain rfl := Except.ok.inj h
    exact .nil
  | i :: is, s, r, h => by
    rw [runBlock] at h
    split at h
    · next hterm =>
      simp only [Except.bind_eq_ok, Except.pure_eq_ok] at h
      obtain ⟨rest, hrest, rfl⟩ := h
      have hplain : i.address = none ∧ i.Supported := by
        cases i <;> first | exact ⟨rfl, trivial⟩ | cases hterm
      exact .plain hplain.1 hplain.2 (runBlock_lowers hrest)
    · simp only [Except.bind_eq_ok, Except.pure_eq_ok] at h
      obtain ⟨first, hfirst, rest, hrest, rfl⟩ := h
      have hlowers := runBlock_lowers hrest
      cases i with
      | readMemory dst size a =>
        simp only [Emulator.run, Except.bind_eq_ok, Except.pure_eq_ok] at hfirst
        obtain ⟨read, hread, rfl⟩ := hfirst
        exact .read (readMemoryIntrinsic_proper hread) hlowers
      | writeMemory dst size a v =>
        simp only [Emulator.run, Except.bind_eq_ok, Except.pure_eq_ok] at hfirst
        obtain ⟨write, _, rfl⟩ := hfirst
        exact .write hlowers
      | unsupported dst w opcode =>
        simp only [Emulator.run, visit, Except.bind_eq_ok, Except.throw_ne_ok, false_and,
          exists_false] at hfirst
      | _ =>
        simp only [Emulator.run, Except.bind_eq_ok, Except.pure_eq_ok] at hfirst
        obtain ⟨_, _, rfl⟩ := hfirst
        exact .plain rfl trivial hlowers

end Vexa
