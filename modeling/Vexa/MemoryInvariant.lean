import Vexa.LiftedBlock
import Vexa.WellFormed

/-!
# Memory stays well formed along runs

Every cell of the memory, also of the saved ones, names a byte of its value, in every state a run
reaches: whatever the solver answers, with any callbacks, in every mode and with conditional moves
that fork.

A conditional move stores one side of a choice behind the casts that were around it. The clones of
these casts have the widths of the originals, so what is stored has whole bytes.

## Main definitions

* `Rewraps` — the widths along a chain of casts
* `Cpu.Regular` — the invariant

## Main results

* `handleConditionalMoves_regular`, `controlFlow_regular`, `liftInstruction_regular`
* `Regular.explores` — every state of a run
-/

namespace Vexa

variable {M : Machine} {c c' c₀ c₁ : Cpu} {types : Types Name} {s s' : Symex}

/-- The memory and the saved memories are well formed. -/
structure Cpu.Regular (c : Cpu) : Prop where
  symex : c.symex.Sized fun _ => none
  pending : ∀ ss ∈ c.unexploredPaths, ss.memory.WF

/-! ### New names -/

namespace Symex.Sized

/-- The widths of fewer names. -/
theorem forget (h : s.Sized types) : s.Sized fun _ => none := ⟨nofun, h.temps, h.wf⟩

/-- The value of a name without a width. -/
theorem setNew (h : s.Sized types) {dst : Name} (hdst : types dst = none) (hlifted : dst.Lifted)
    (v : Value) : (s.set dst v).Sized types := by
  refine ⟨fun name w hname => ?_, (h.set (w := v.size) hlifted rfl).temps, h.wf⟩
  have hne : name ≠ dst := by
    rintro rfl
    rw [hdst] at hname
    cases hname
  obtain ⟨v', hv', hsize⟩ := h.vars name w hname
  exact ⟨v', (Function.update_of_ne hne ..).trans hv', hsize⟩

/-- Another value for an operand that has one. -/
theorem setOperand_of_get (h : s.Sized fun _ => none) {a : Operand Name} {v₀ : Value}
    (hget : s.get a = .ok v₀) (v : Value) : (s.setOperand a v).Sized fun _ => none := by
  cases a with
  | const w n => exact h
  | ssa dst =>
    refine ⟨nofun, fun name hname hpart => ?_, h.wf⟩
    have hne : name ≠ dst := by
      rintro rfl
      rw [Symex.get, h.temps name hname hpart] at hget
      cases hget
    exact (Function.update_of_ne hne ..).trans (h.temps name hname hpart)

/-- An operand without a value. -/
theorem get_dead (h : s.Sized types) {a : Operand Name} (ha : a.Dead) (v : Value) :
    s.get a ≠ .ok v := by
  obtain ⟨dst, j, k, rfl, hk⟩ := ha
  rw [Symex.get, h.temps (dst.temp j k) (Nat.succ_ne_zero j) hk]
  exact fun heq => by cases heq

theorem operand_fits (h : s.Sized types) {a : Operand Name} {w : ℕ} (ha : a.Fits types w) {v : Value}
    (hv : s.get a = .ok v) : v.size = w := by
  rcases ha with ha | ha
  · exact h.operand ha hv
  · exact absurd hv (h.get_dead ha v)

end Symex.Sized

theorem Cpu.exec_symex {i : Inst Name} (h : c.exec M i = .ok c') :
    visit M.solver c.pathConstraints i c.symex = .ok c'.symex ∧
      c'.unexploredPaths = c.unexploredPaths := by
  obtain ⟨s, hs, rfl⟩ := Cpu.exec_eq h
  exact ⟨hs, rfl⟩

/-! ### Chains of casts -/

/-- Wrapping a value of `w` bits, innermost first, yields `w₀` bits. -/
def Rewraps : List (Inst Name) → ℕ → ℕ → Prop
  | [], w, w₀ => w = w₀
  | .cast _ op src w' _ :: is, _, w₀ => op.Between src w' ∧ Rewraps is w' w₀
  | .binary _ .and _ _ _ :: is, w, w₀ => Rewraps is w w₀
  | _ :: _, _, _ => False

theorem Rewraps.append {i : Inst Name} {w₁ w₀ : ℕ} (hi : Rewraps [i] w₁ w₀) :
    ∀ {is : List (Inst Name)} {w : ℕ}, Rewraps is w w₁ → Rewraps (is ++ [i]) w w₀
  | [], w, h => by
    obtain rfl : w = w₁ := h
    exact hi
  | .cast _ _ _ _ _ :: is, w, h => ⟨h.1, Rewraps.append hi h.2⟩
  | .binary _ .and _ _ _ :: is, w, h => by
    have hrest : Rewraps is w w₁ := h
    show Rewraps (is ++ [i]) w w₀
    exact Rewraps.append hi hrest

theorem definition_mem {code : List (Inst Name)} {name : Name} {i : Inst Name}
    (h : definition code name = some i) : i ∈ code ∧ i.result.map Prod.fst = some name := by
  refine ⟨List.mem_of_find?_eq_some h, ?_⟩
  simpa using List.find?_some h

/-- The choice found behind casts: its sides have its width, and the casts lead to the width of the
whole. -/
theorem peelSelect_fits (htypes : LiftedTypes types) {code : List (Inst Name)}
    (hcode : ∀ i ∈ code, i.Fits types) : ∀ {fuel : ℕ} {value : Operand Name} {w₀ : ℕ}
      {r : Inst Name × List (Inst Name)}, value.width types = some w₀ →
      peelSelect code fuel value = some r →
      ∃ dst w cond a b, r.1 = .select dst w cond a b ∧
        (cond.Dead ∨ a.width types = some w ∧ b.Fits types w) ∧ Rewraps r.2.reverse w w₀
  | 0, _, _, _, _, h => by simp [peelSelect] at h
  | fuel + 1, .const .., _, _, _, h => by simp [peelSelect] at h
  | fuel + 1, .ssa name, w₀, r, hname, h => by
    rw [peelSelect] at h
    split at h
    · next dst w cond a b hdef =>
      obtain rfl := Option.some.inj h
      obtain ⟨hmem, hres⟩ := definition_mem hdef
      obtain rfl : dst = name := Option.some.inj hres
      obtain ⟨hw, hsides⟩ := hcode _ hmem
      refine ⟨dst, w, cond, a, b, rfl, hsides, ?_⟩
      rcases hw with hw | ⟨hnot, _⟩
      · exact Option.some.inj (hw.symm.trans hname)
      · exact absurd (htypes dst w₀ hname) hnot
    · next dst op src w a hdef =>
      obtain ⟨r', hr', rfl⟩ := Option.map_eq_some_iff.mp h
      obtain ⟨hmem, hres⟩ := definition_mem hdef
      obtain rfl : dst = name := Option.some.inj hres
      obtain ⟨hw, hop, ha⟩ := hcode _ hmem
      obtain ⟨dst', w', cond, x, y, hselect, hsides, hwraps⟩ := peelSelect_fits htypes hcode ha hr'
      refine ⟨dst', w', cond, x, y, hselect, hsides, ?_⟩
      rw [List.reverse_cons]
      have hlast : Rewraps [.cast dst op src w a] src w₀ :=
        ⟨hop, Option.some.inj (hw.symm.trans hname)⟩
      exact hlast.append hwraps
    · next dst w a b hdef =>
      obtain ⟨r', hr', rfl⟩ := Option.map_eq_some_iff.mp h
      obtain ⟨hmem, hres⟩ := definition_mem hdef
      obtain rfl : dst = name := Option.some.inj hres
      obtain ⟨hw, ha⟩ := hcode _ hmem
      obtain ⟨dst', w', cond, x, y, hselect, hsides, hwraps⟩ := peelSelect_fits htypes hcode ha hr'
      refine ⟨dst', w', cond, x, y, hselect, hsides, ?_⟩
      rw [List.reverse_cons]
      have hlast : Rewraps [.binary dst .and w a b] w w₀ := Option.some.inj (hw.symm.trans hname)
      exact hlast.append hwraps
    · cases h

/-- **What a conditional move stores has whole bytes.** -/
theorem findConditionalMove_fits (htypes : LiftedTypes types) {code : List (Inst Name)}
    (hcode : ∀ i ∈ code, i.Fits types) {move : ConditionalMove}
    (h : findConditionalMove code = some move) :
    ∃ w w₀, ByteWidth w₀ ∧ move.ptr.Addressed types ∧
      (move.condition.Dead ∨
        move.trueValue.width types = some w ∧ move.falseValue.Fits types w) ∧
      Rewraps move.wrappers.reverse w w₀ := by
  obtain ⟨value, dst, w, hget, hpeel⟩ := findConditionalMove_eq h
  obtain ⟨hwidth, hptr, hvalue⟩ := hcode _ (List.mem_of_getElem? hget)
  rcases hvalue with hvalue | ⟨base, j, rfl⟩
  · obtain ⟨dst', w', cond, a, b, hselect, hsides, hwraps⟩ :=
      peelSelect_fits htypes hcode hvalue hpeel
    cases hselect
    exact ⟨w, move.width, hwidth, hptr, hsides, hwraps⟩
  · -- the choice of a guarded store: there is nothing around it
    have hnone : ∀ w', types (base.temp j 3) ≠ some w' := fun w' h =>
      Nat.succ_ne_zero j (htypes _ w' h)
    cases hfuel : code.length with
    | zero => simp [hfuel, peelSelect] at hpeel
    | succ fuel =>
      rw [hfuel, peelSelect] at hpeel
      split at hpeel
      · next hdef =>
        obtain ⟨heq, hwraps⟩ := Prod.mk.inj (Option.some.inj hpeel)
        cases heq
        obtain ⟨hmem', hres⟩ := definition_mem hdef
        obtain rfl : dst = base.temp j 3 := Option.some.inj hres
        obtain ⟨hw, hsides⟩ := hcode _ hmem'
        rcases hw with hw | ⟨_, hw⟩
        · exact absurd hw (hnone w)
        · refine ⟨w, w, hw, hptr, hsides, ?_⟩
          rw [← hwraps]
          rfl
      · next dst' op src w' a hdef =>
        obtain ⟨hmem', hres⟩ := definition_mem hdef
        obtain rfl : dst' = base.temp j 3 := Option.some.inj hres
        exact absurd (hcode _ hmem').1 (hnone w')
      · next dst' w' a b hdef =>
        obtain ⟨hmem', hres⟩ := definition_mem hdef
        obtain rfl : dst' = base.temp j 3 := Option.some.inj hres
        exact absurd (hcode _ hmem').1 (hnone w')
      · cases hpeel

/-! ### Conditional moves -/

/-- Names with a width are results of lifted instructions; the clones of casts are not. -/
def LiftedOnly (types : Types Name) : Prop := ∀ name w, types name = some w → name.part = (0, 0)

theorem LiftedOnly.liftedTypes (h : LiftedOnly types) : LiftedTypes types := fun name w hname =>
  congrArg Prod.fst (h name w hname)

theorem LiftedOnly.ne_clone (h : LiftedOnly types) {dst : Name} {side : ℕ} (hside : side ≠ 0) :
    types { dst with part := (0, side) } = none := by
  cases hw : types { dst with part := (0, side) } with
  | none => rfl
  | some w => exact absurd (congrArg Prod.snd (h _ w hw)) hside

/-- The operand is not a clone for one side of a move. -/
def Operand.Apart (side : ℕ) (a : Operand Name) : Prop := ∀ name, a = .ssa name → name.part ≠ (0, side)

theorem Operand.Fits.apart (htypes : LiftedOnly types) {a : Operand Name} {w side : ℕ}
    (h : a.Fits types w) (hside : side ≠ 0) : a.Apart side := by
  rintro name rfl hpart
  rcases h with h | ⟨dst, j, k, heq, _⟩
  · exact hside (congrArg Prod.snd (hpart.symm.trans (htypes name w h)))
  · rw [Operand.ssa.inj heq] at hpart
    exact absurd (congrArg Prod.fst hpart) (Nat.succ_ne_zero j)

theorem Symex.get_set_apart (s : Symex) {dst : Name} {side : ℕ} (v : Value) {a : Operand Name}
    (ha : a.Apart side) : (s.set { dst with part := (0, side) } v).get a = s.get a := by
  cases a with
  | const w n => rfl
  | ssa name =>
    have hne : name ≠ { dst with part := (0, side) } := by
      rintro rfl
      exact ha _ rfl rfl
    have hvars : (s.set { dst with part := (0, side) } v).vars name = s.vars name :=
      Function.update_of_ne hne ..
    rw [Symex.get, Symex.get, hvars]

/-- One clone gives a new name a value, from which the rest of the chain goes on. -/
theorem cloneWrapper_visit {S : Solver} {pathConstraints : List Term} {side w w₀ : ℕ}
    {value : Operand Name} {i : Inst Name} {is : List (Inst Name)} (hwraps : Rewraps (i :: is) w w₀)
    (hvalue : ∀ v, s.get value = .ok v → v.size = w)
    (h : visit S pathConstraints (cloneWrapper side value i).2 s = .ok s') :
    ∃ (dst : Name) (v : Value) (w' : ℕ), (cloneWrapper side value i).1 = { dst with part := (0, side) } ∧
      s' = s.set { dst with part := (0, side) } v ∧ v.size = w' ∧ Rewraps is w' w₀ := by
  cases i with
  | cast dst op src w' a =>
    obtain ⟨v, hsize, rfl⟩ := visit_cast hwraps.1 h
    exact ⟨dst, v, w', rfl, rfl, hsize, hwraps.2⟩
  | binary dst op w' a b =>
    cases op with
    | and =>
      simp only [cloneWrapper, visit, Except.bind_eq_ok, Except.pure_eq_ok] at h
      obtain ⟨v, hv, v', _, rfl⟩ := h
      exact ⟨dst, _, w, rfl, rfl, (Opcode.size_binary .and v v').trans (hvalue v hv), hwraps⟩
    | _ => exact hwraps.elim
  | _ => exact hwraps.elim

/-- What the clones of a chain of casts leave behind. -/
structure Rewrapped (types : Types Name) (side w₀ : ℕ) (value value' : Operand Name) (c c' : Cpu) :
    Prop where
  sized : c'.symex.Sized types
  pending : c'.unexploredPaths = c.unexploredPaths
  size : ∀ v, c'.symex.get value' = .ok v → v.size = w₀
  get : ∀ a : Operand Name, a.Apart side → c'.symex.get a = c.symex.get a
  result : value' = value ∨ ∃ name : Name, value' = .ssa name ∧ name.part = (0, side)

/-- **The clones of a chain of casts** have the widths of the originals. -/
theorem materialize_rewrapped (htypes : LiftedOnly types) {side w₀ : ℕ} (hside : side ≠ 0) :
    ∀ {is : List (Inst Name)} {value : Operand Name} {c : Cpu} {r : Operand Name × Cpu} {w : ℕ},
      Rewraps is w w₀ → c.symex.Sized types → (∀ v, c.symex.get value = .ok v → v.size = w) →
      materialize M side is value c = .ok r → Rewrapped types side w₀ value r.1 c r.2
  | [], value, c, r, w, hwraps, h, hvalue, hrun => by
    obtain rfl := Except.ok.inj hrun
    obtain rfl : w = w₀ := hwraps
    exact ⟨h, rfl, hvalue, fun _ _ => rfl, .inl rfl⟩
  | i :: is, value, c, r, w, hwraps, h, hvalue, hrun => by
    simp only [materialize, Except.bind_eq_ok] at hrun
    obtain ⟨c₁, hexec, hrest⟩ := hrun
    obtain ⟨hvisit, hpending⟩ := Cpu.exec_symex hexec
    obtain ⟨dst, v, w', hname, hset, hsize, hwraps⟩ := cloneWrapper_visit hwraps hvalue hvisit
    have hsized : c₁.symex.Sized types := by
      rw [hset]
      exact h.setNew (htypes.ne_clone hside) rfl v
    have hnext : ∀ v', c₁.symex.get (.ssa (cloneWrapper side value i).1) = .ok v' → v'.size = w' := by
      intro v' hv'
      rw [hset, hname, Symex.get_set_self] at hv'
      obtain rfl := Except.ok.inj hv'
      exact hsize
    have hclones := materialize_rewrapped htypes hside hwraps hsized hnext hrest
    refine ⟨hclones.sized, hclones.pending.trans hpending, hclones.size, fun a ha => ?_, .inr ?_⟩
    · rw [hclones.get a ha, hset, Symex.get_set_apart _ _ ha]
    · rcases hclones.result with heq | hresult
      · exact ⟨_, heq, by rw [hname]⟩
      · exact hresult

/-- A store of whole bytes. -/
theorem Cpu.exec_store_sized (hS : M.solver.Sound) (h : c.symex.Sized types) {w₀ w : ℕ}
    {value : Operand Name} {ptr : Ptr Name} (hw : ByteWidth w₀)
    (hvalue : ∀ v, c.symex.get value = .ok v → v.size = w₀) (hptr : ptr.Addressed types)
    (hexec : c.exec M (.store w value ptr) = .ok c') :
    c'.symex.Sized types ∧ c'.symex.vars = c.symex.vars ∧ c'.unexploredPaths = c.unexploredPaths := by
  obtain ⟨hvisit, hpending⟩ := Cpu.exec_symex hexec
  obtain ⟨hsized, hvars⟩ := visitStore_sized hS h hw hvalue hptr hvisit
  exact ⟨hsized, hvars, hpending⟩

theorem Symex.get_congr (h : s'.vars = s.vars) (a : Operand Name) : s'.get a = s.get a := by
  cases a with
  | const w n => rfl
  | ssa name => rw [Symex.get, Symex.get, h]

/-- **Conditional moves.** -/
theorem handleConditionalMoves_regular (hS : M.solver.Sound) (htypes : LiftedOnly types)
    (hsymex : c.symex.Sized types) (hpending : ∀ ss ∈ c.unexploredPaths, ss.memory.WF)
    (hcode : ∀ i ∈ (c.function c.block).insts, i.Fits types) {inst : Instruction}
    (h : handleConditionalMoves M inst c = .ok c') : c'.Regular := by
  rw [handleConditionalMoves] at h
  split at h
  · cases h
  next move hmove =>
  obtain ⟨w, w₀, hw₀, hptr, hsides, hwraps⟩ :=
    findConditionalMove_fits htypes.liftedTypes hcode hmove
  simp only [Except.bind_eq_ok] at h
  obtain ⟨cond, hcond, ⟨trueVal, c₁⟩, htrue, ⟨falseVal, c₂⟩, hfalse, ⟨verdict, v⟩, _, h⟩ := h
  obtain ⟨htrueValue, hfalseValue⟩ := hsides.resolve_left fun hdead =>
    hsymex.get_dead hdead cond hcond
  have hclones₁ := materialize_rewrapped htypes (by decide) hwraps hsymex
    (fun v hv => hsymex.operand htrueValue hv) htrue
  have hfalseApart := hfalseValue.apart htypes (show 3 ≠ 0 by decide)
  have hclones₂ := materialize_rewrapped htypes (by decide) hwraps hclones₁.sized
    (fun v hv => hsymex.operand_fits hfalseValue ((hclones₁.get _ hfalseApart).symm.trans hv)) hfalse
  have hpending₂ : c₂.unexploredPaths = c.unexploredPaths := hclones₂.pending.trans hclones₁.pending
  -- the clones of the other side do not touch the result of the first
  have htrueApart : trueVal.Apart 4 := by
    rcases hclones₁.result with heq | ⟨name, heq, hpart⟩
    · have hfits : move.trueValue.Fits types w := .inl htrueValue
      rw [show trueVal = move.trueValue from heq]
      exact hfits.apart htypes (by decide)
    · rintro name' hname' hpart'
      obtain rfl := Operand.ssa.inj (heq.symm.trans hname')
      exact absurd (hpart.symm.trans hpart') (by decide)
  have htrueSize : ∀ v, c₂.symex.get trueVal = .ok v → v.size = w₀ := fun v hv =>
    hclones₁.size v ((hclones₂.get _ htrueApart).symm.trans hv)
  cases verdict with
  | some result =>
    have hvalue : ∀ v, (c₂.deleteLater c.block move.position).symex.get
        (if result then trueVal else falseVal) = .ok v → v.size = w₀ := by
      cases result
      · exact hclones₂.size
      · exact htrueSize
    obtain ⟨hsized, _, hpaths⟩ := Cpu.exec_store_sized hS
      (c := c₂.deleteLater c.block move.position) hclones₂.sized hw₀ hvalue hptr h
    refine ⟨hsized.forget, fun ss hss => ?_⟩
    rw [hpaths, show (c₂.deleteLater c.block move.position).unexploredPaths = _ from hpending₂] at hss
    exact hpending ss hss
  | none =>
    simp only [forkMove, Except.bind_eq_ok, Except.pure_eq_ok] at h
    obtain ⟨c₃, h₃, c₄, h₄, rfl⟩ := h
    set forked := ((c₂.basicBlock none).basicBlock none).create
      (.condBr move.condition c₂.numBlocks (c₂.basicBlock none).numBlocks)
    obtain ⟨hsized₃, hvars₃, hpaths₃⟩ := Cpu.exec_store_sized hS
      (c := forked.setInsertPoint (c₂.basicBlock none).numBlocks) hclones₂.sized hw₀ hclones₂.size
      hptr h₃
    -- the other side starts from the memory before the fork
    set restored := Cpu.restoreSnapshot { c₃ with
      unexploredPaths := c₃.takeSnapshot inst.nextPc (c₂.basicBlock none).numBlocks ::
        c₃.unexploredPaths } (c₂.takeSnapshot c₂.pc c.block)
    have hvars : restored.symex.vars = c₂.symex.vars := hvars₃
    have hsized : restored.symex.Sized types := by
      refine ⟨fun name w hname => ?_, fun name hname hpart => ?_, hclones₂.sized.wf⟩
      · rw [hvars]
        exact hclones₂.sized.vars name w hname
      · rw [hvars]
        exact hclones₂.sized.temps name hname hpart
    obtain ⟨hsized₄, _, hpaths₄⟩ := Cpu.exec_store_sized hS
      (c := restored.setInsertPoint c₂.numBlocks) hsized hw₀
      (fun v hv => htrueSize v ((Symex.get_congr hvars trueVal).symm.trans hv)) hptr h₄
    refine ⟨hsized₄.forget, fun ss hss => ?_⟩
    change ss ∈ c₄.unexploredPaths at hss
    rw [hpaths₄] at hss
    rcases List.mem_cons.mp hss with rfl | hss
    · exact hsized₃.wf
    · rw [hpaths₃] at hss
      exact hpending ss (hpending₂ ▸ hss)

/-! ### Registers and branches -/

/-- Registers are smaller than the byte count of a cell. -/
def Machine.RegistersFit (M : Machine) : Prop := ∀ r ∈ M.registers, r.size < 256

theorem solveRegister_wf (hS : M.solver.Sound) {pathConstraints : List Term} {ctx : Context}
    {reg : Register} (hreg : reg.size < 256) (hc : ctx.memory.WF) :
    (Cpu.solveRegister M pathConstraints ctx reg).memory.WF := by
  rw [Cpu.solveRegister]
  split
  · exact hc
  · next hsize =>
    have hpos : 0 < reg.size := by
      have hle : ¬ reg.size < 8 := fun hlt => hsize (.inr hlt)
      omega
    have hread := Context.read_wf (S := M.solver) hc (.concrete reg.offset statePage) hpos
    rw [Nat.mul_comm] at hread
    obtain ⟨hwf, hwidth⟩ := hread
    simp only
    split
    · refine hwf.write hS ?_ hreg
      rw [Value.size_simplify hS, Value.size, Term.bits, (Value.simplifyUnder_sound hS ..).1]
      exact hwidth.trans (Nat.mul_comm ..)
    · exact hwf

theorem solveRegisters_wf (hS : M.solver.Sound) {pathConstraints : List Term} :
    ∀ (regs : List Register) {ctx : Context}, (∀ r ∈ regs, r.size < 256) →
      ctx.memory.WF → (regs.foldl (Cpu.solveRegister M pathConstraints) ctx).memory.WF
  | [], _, _, hc => hc
  | r :: regs, _, hregs, hc => by
    obtain ⟨hr, hregs⟩ := List.forall_mem_cons.mp hregs
    rw [List.foldl_cons]
    exact solveRegisters_wf hS regs hregs (solveRegister_wf hS hr hc)

namespace Cpu.Regular

/-- A state with the same symbolic state and the same pending paths. -/
theorem of_eq (h : c.Regular) (hsymex : c'.symex = c.symex)
    (hpaths : c'.unexploredPaths = c.unexploredPaths) : c'.Regular :=
  ⟨hsymex ▸ h.symex, hpaths ▸ h.pending⟩

end Cpu.Regular

theorem forkPath_regular (hS : M.solver.Sound) (hM : M.RegistersFit) (hc : c.Regular)
    (condition : DualValue) (jumpPc fallthroughPc : Addr) :
    (forkPath M condition jumpPc fallthroughPc c).Regular := by
  have hsolve : ∀ A : List Term,
      (M.registers.foldl (Cpu.solveRegister M A) c.symex.context).memory.WF := fun A =>
    solveRegisters_wf hS M.registers hM hc.symex.wf
  refine ⟨⟨nofun, hc.symex.temps, ?_⟩, ?_⟩
  · -- the registers are solved again on the side that goes on
    exact solveRegisters_wf hS M.registers hM hc.symex.wf
  · intro ss hss
    rcases List.mem_cons.mp hss with rfl | hss
    · exact hsolve _
    · exact hc.pending ss hss

theorem branching_regular (hS : M.solver.Sound) (hM : M.RegistersFit) (hc : c.Regular)
    {condition : DualValue} {jumpPc fallthroughPc : Addr}
    (h : branching M condition jumpPc fallthroughPc c = .ok c') : c'.Regular := by
  rcases branching_cases h with ⟨v, taken, _, _, rfl⟩ | ⟨v, _, rfl⟩
  · exact hc.of_eq rfl rfl
  · exact forkPath_regular hS hM hc _ _ _

theorem getCondition_regular (hc : c.Regular) {r : DualValue × Cpu}
    (h : getCondition M c = .ok r) : r.2.Regular := by
  obtain ⟨_, _, _, hexec, _⟩ := getCondition_eq h
  obtain ⟨hvisit, hpaths⟩ := Cpu.exec_symex hexec
  obtain ⟨v', _, hset⟩ := visit_cast (show CastOp.Between .trunc _ 1 from Nat.one_pos) hvisit
  refine ⟨?_, fun ss hss => hc.pending ss (hpaths ▸ hss)⟩
  rw [hset]
  exact hc.symex.setNew rfl (by rfl) v'

theorem indirectJump_regular (hS : M.solver.Sound) (hM : M.RegistersFit) (hc : c.Regular)
    {r : Outcome × Cpu} (h : indirectJump M c = .ok r) : r.2.Regular := by
  obtain ⟨next, hnext, hcases⟩ := indirectJump_cases h
  obtain ⟨_, _, hget⟩ := getNextPc_eq hnext
  have hrewrite := hc.symex.setOperand_of_get hget (next.v.simplify M.solver)
  have henum : (c.enumerateTarget M next).Regular := ⟨hrewrite.withChecks _, hc.pending⟩
  rcases hcases with ⟨target, _, _, rfl⟩ | ⟨_, ⟨addr, target, _, _, rfl⟩ |
    ⟨front, back, jumpPc, fallthroughPc, c₁, cond, c₂, _, _, _, hexec, _, hbranch, rfl⟩ |
    ⟨_, _, rfl⟩⟩
  · exact ⟨hrewrite, hc.pending⟩
  · exact henum.of_eq rfl rfl
  · refine branching_regular hS hM ?_ hbranch
    obtain ⟨hvisit, hpaths⟩ := Cpu.exec_symex hexec
    simp only [compareTarget, visit, Except.bind_eq_ok, Except.pure_eq_ok] at hvisit
    obtain ⟨v, _, v', _, hset⟩ := hvisit
    refine ⟨?_, fun ss hss => henum.pending ss (hpaths ▸ hss)⟩
    rw [← hset]
    exact henum.symex.setNew rfl (by rfl) _
  · exact henum

/-! ### One instruction -/

theorem saveBlock_symex (c : Cpu) : (saveBlock M c).symex = c.symex ∧
    (saveBlock M c).function = c.function ∧ (saveBlock M c).block = c.block ∧
    (saveBlock M c).unexploredPaths = c.unexploredPaths := by
  rw [saveBlock]
  split
  · exact ⟨rfl, rfl, rfl, rfl⟩
  · exact ⟨rfl, rfl, rfl, rfl⟩
  · split <;> exact ⟨rfl, rfl, rfl, rfl⟩
  · split <;> exact ⟨rfl, rfl, rfl, rfl⟩
  · exact ⟨rfl, rfl, rfl, rfl⟩

theorem controlFlow_regular (hS : M.solver.Sound) (hM : M.RegistersFit) (htypes : LiftedOnly types)
    (hsymex : c.symex.Sized types) (hpending : ∀ ss ∈ c.unexploredPaths, ss.memory.WF)
    (hcode : ∀ i ∈ (c.function c.block).insts, i.Fits types) {inst : Instruction}
    {r : Outcome × Cpu} (h : controlFlow M inst c = .ok r) : r.2.Regular := by
  have hc : c.Regular := ⟨hsymex.forget, hpending⟩
  rcases controlFlow_cases h with ⟨_, ⟨cond, c₁⟩, c₂, hcond, hbranch, rfl⟩ | ⟨_, rfl⟩ | ⟨_, hjump⟩ |
    ⟨_, _, c₁, hmove, rfl⟩ | ⟨_, _, rfl⟩
  · exact branching_regular hS hM (getCondition_regular hc hcond) hbranch
  · exact hc.of_eq rfl rfl
  · exact indirectJump_regular hS hM hc hjump
  · exact (handleConditionalMoves_regular hS htypes hsymex hpending hcode hmove).of_eq rfl rfl
  · exact hc.of_eq rfl rfl

theorem Semantics.liftedOnly (semantics : Semantics) (b : BlockId) (pc : Addr) :
    LiftedOnly (semantics.types b pc) := by
  intro name w h
  obtain ⟨n, rfl⟩ := Semantics.types_lifted h
  rfl

/-- The state once the program counter is stored. -/
theorem Cpu.Opens.sized (hS : M.solver.Sound) (hc : c.Regular) (h : c.Opens M c₁) :
    c₁.symex.Sized fun _ => none :=
  (visitStore_sized (w := 64) hS hc.symex (by decide) (fun v hv => hc.symex.operand rfl hv)
    (by trivial) h.symex).1

/-- The state once the block is emulated. -/
theorem Cpu.Emulates.sized {semantics : Semantics} {c₂ : Cpu} (hS : M.solver.Sound) (hc : c.Regular)
    (hopens : c.Opens M c₁) (h : c.Emulates M semantics c₁ c₂) :
    c₂.symex.Sized (semantics.types c.numBlocks c.pc) := by
  obtain ⟨rs, code, hrun, _, _⟩ := h.run
  exact runBlock_sized hS (semantics.inBlock_typed c.numBlocks c.pc) (fun _ _ h => nomatch h)
    (semantics.inBlock_lifted c.numBlocks c.pc) (hopens.sized hS hc) hrun

/-- **One instruction.** -/
theorem liftInstruction_regular (hS : M.solver.Sound) (hM : M.RegistersFit)
    (hlt : c.insertPoint < c.numBlocks) (hc : c.Regular) {inst : Instruction} {r : Outcome × Cpu}
    (h : liftInstruction M inst c = .ok r) : r.2.Regular := by
  obtain ⟨c₁, hopens, hrest⟩ := liftInstruction_block hlt h
  have hstored := hopens.sized hS hc
  have hpending : ∀ ss ∈ c₁.unexploredPaths, ss.memory.WF := fun ss hss =>
    hc.pending ss (hopens.unexploredPaths ▸ hss)
  rcases hrest with ⟨_, rfl⟩ | ⟨semantics, c₂, _, hemulates, hflow⟩
  · exact ⟨hstored, hpending⟩
  · obtain ⟨hsymex, hfunction, hblock, hpaths⟩ := saveBlock_symex (M := M) c₂
    refine controlFlow_regular hS hM (semantics.liftedOnly c.numBlocks c.pc) ?_ ?_ ?_ hflow
    · rw [hsymex]
      exact hemulates.sized hS hc hopens
    · rw [hpaths, hemulates.unexploredPaths]
      exact hc.pending
    · rw [hfunction, hblock, hemulates.block]
      exact hemulates.fits

theorem cfgRecovery_symex {r : Option BlockId × Cpu} (h : cfgRecovery M c = r) :
    r.2.symex = c.symex ∧ r.2.unexploredPaths = c.unexploredPaths ∧
      r.2.insertPoint = c.insertPoint ∧ r.2.numBlocks = c.numBlocks := by
  rw [cfgRecovery] at h
  split at h
  · split at h <;> subst h <;> exact ⟨rfl, rfl, rfl, rfl⟩
  · split at h <;> subst h <;> exact ⟨rfl, rfl, rfl, rfl⟩
  · split at h
    · subst h
      exact ⟨rfl, rfl, rfl, rfl⟩
    · split at h <;> subst h <;> exact ⟨rfl, rfl, rfl, rfl⟩
  · subst h
    exact ⟨rfl, rfl, rfl, rfl⟩

/-- **One call of `process_instruction`.** -/
theorem processInstruction_regular (hS : M.solver.Sound) (hM : M.RegistersFit)
    (hlt : c.insertPoint < c.numBlocks) (hc : c.Regular) {outcome : Outcome}
    (h : processInstruction M c = .ok (outcome, c')) : c'.Regular := by
  rcases processInstruction_cases h with ⟨_, _, rfl⟩ | ⟨_, target, _, hrec⟩ |
    ⟨_, c₁, hrec, ⟨_, rfl⟩ | ⟨inst, _, hlift⟩⟩
  · exact hc
  · obtain ⟨hsymex, hpaths, _⟩ := cfgRecovery_symex hrec
    exact hc.of_eq hsymex hpaths
  · obtain ⟨hsymex, hpaths, _⟩ := cfgRecovery_symex hrec
    exact hc.of_eq hsymex hpaths
  · obtain ⟨hsymex, hpaths, hinsert, hblocks⟩ := cfgRecovery_symex hrec
    have hlt₁ : c₁.insertPoint < c₁.numBlocks := by
      rw [hinsert, hblocks]
      exact hlt
    exact liftInstruction_regular hS hM hlt₁ (hc.of_eq hsymex hpaths) hlift

/-! ### Runs -/

theorem finishPath_symex (outcome : Outcome) (c : Cpu) :
    (finishPath outcome c).symex = c.symex := by
  rw [finishPath]
  split <;> rfl

/-- **Every state of a run is regular.** -/
theorem Cpu.Regular.explores (hS : M.solver.Sound) (hM : M.RegistersFit) (h₀ : c₀.Regular)
    (hbuilt₀ : Built c₀ (c₀.insertPoint :: c₀.pendingBlocks)) (hmaps₀ : c₀.MapsBuilt)
    {calls : List Cpu} {ended : List PathEnd} (h : Explores M c₀ calls ended c) : c.Regular := by
  induction h with
  | start => exact h₀
  | successful hexplores hcall hstatus ih =>
    have hlt := (Built.explores hbuilt₀ hmaps₀ hexplores).2.lt _ (List.mem_cons_self ..)
    exact processInstruction_regular hS hM hlt ih hcall
  | explore hexplores hcall hstatus hpaths ih =>
    have hlt := (Built.explores hbuilt₀ hmaps₀ hexplores).2.lt _ (List.mem_cons_self ..)
    have hc' := processInstruction_regular hS hM hlt ih hcall
    rename_i outcome before after path
    have hpath : ∀ ss ∈ before ++ path :: after, ss.memory.WF := hpaths ▸ hc'.pending
    refine ⟨⟨nofun, ?_, hpath path (by simp)⟩, fun ss hss => hpath ss ?_⟩
    · intro name hname hpart
      show (finishPath outcome _).symex.vars name = none
      rw [finishPath_symex]
      exact hc'.symex.temps name hname hpart
    · rcases List.mem_append.mp hss with hss | hss
      · exact List.mem_append_left _ hss
      · exact List.mem_append_right _ (List.mem_cons_of_mem _ hss)

/-! ### The start -/

theorem initRegisters_wf (hS : M.solver.Sound) : ∀ (regs : List Register) {ctx : Context},
    (∀ r ∈ regs, r.size < 256) → ctx.memory.WF →
      (initRegisters M regs ctx).memory.WF
  | [], _, _, hc => hc
  | r :: regs, _, hregs, hc => by
    obtain ⟨hr, hregs⟩ := List.forall_mem_cons.mp hregs
    rw [initRegisters]
    split
    · exact initRegisters_wf hS regs hregs hc
    · refine initRegisters_wf hS regs hregs ?_
      exact Memory.WF.write hS hc (Nat.mul_comm r.size 8) hr

/-- Memory with nothing but the image. -/
theorem image_wf {image : MemPage}
    (himage : ∀ k x cell, image.find x = some cell → cell.WFAt k) :
    Memory.WF (Function.update (fun _ => .empty) globalPage image) := by
  intro k p x cell hfind
  by_cases hp : p = globalPage
  · subst hp
    rw [Function.update_self] at hfind
    exact himage k x cell hfind
  · rw [Function.update_of_ne hp] at hfind
    cases hfind

theorem entryBlock_typed (layout : Layout) : Typed (fun _ => none) (entryBlock layout) :=
  ⟨⟨by decide, rfl, trivial⟩, nofun, ⟨by decide, rfl, trivial⟩, nofun, trivial⟩

theorem entryBlock_lifted (layout : Layout) : LiftedCode (entryBlock layout) := by
  intro i hi dst w hres
  simp only [entryBlock, List.mem_cons, List.not_mem_nil, or_false] at hi
  rcases hi with rfl | rfl <;> cases hres

/-- The loop is entered in a regular state, when the image is well formed. -/
theorem start_regular (hS : M.solver.Sound) (hM : M.RegistersFit) {layout : Layout} {image : MemPage}
    (himage : ∀ k x cell, image.find x = some cell → cell.WFAt k) {opaqueSolving : Bool} {pc : Addr}
    (h : start M layout image opaqueSolving pc = .ok c₀) : c₀.Regular := by
  simp only [start, Except.bind_eq_ok, Except.pure_eq_ok] at h
  obtain ⟨r, hrun, rfl⟩ := h
  have hentry : Symex.Sized (fun _ => none) ⟨initRegisters M M.registers ⟨_, 0, 0⟩, fun _ => none⟩ :=
    ⟨fun _ _ hnone => (by cases hnone), fun _ _ _ => rfl,
      initRegisters_wf hS M.registers hM (image_wf himage)⟩
  have hsized := runBlock_sized hS (entryBlock_typed layout) (fun _ _ hnone => by cases hnone)
    (entryBlock_lifted layout) hentry hrun
  refine ⟨⟨fun _ _ hnone => (by cases hnone), hsized.temps, ?_⟩, fun _ hss => by cases hss⟩
  refine Memory.WF.write hS (k := 8) ?_ rfl (by decide)
  refine Memory.WF.write hS (k := 8) ?_ rfl (by decide)
  exact Memory.WF.write hS (k := 8) hsized.wf rfl (by decide)

end Vexa
