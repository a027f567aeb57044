import Vexa.Passes.StrictSsa

/-!
# Replacing Remill's intrinsics

The semantics of an instruction pass the results of their comparisons and flag computations through
functions that return their first argument, and take what the processor leaves undefined from functions
without a body. Before anything is executed `replace_remill_intrinsics` replaces the calls, of the first
kind by their argument, of the second by the `UndefValue` of the type, for which `symex` has one
variable.

## The argument may be computed again

In a loop the argument of a call gets a new value before the call is executed again. An instruction that
used the call reads the argument after the pass, but not in between: the call dominates it.

## Main definitions

* `replaceCall`, `replaceRemillIntrinsics` — what is done to a function
* `IntrinsicUsers.Documented` — what the functions of Remill do
* `IntrinsicUsers.pin` — the machine on which what is undefined has the value of the variable

## Main results

* `sameRuns_replaceCall` — one call
* `replaceRemillIntrinsics_preserves` — the function that is left has runs of the function it was, those
  in which what is undefined is the value of its variable
-/

namespace Vexa

open Relation

/-! ### The calls -/

/-- The functions that return their first argument. -/
inductive Marker
  | compareEq | compareNeq | compareSgt | compareSle | compareSlt | compareSge | compareUgt | compareUge
  | compareUlt | compareUle | flagComputationCarry | flagComputationZero | flagComputationSign
  | flagComputationOverflow
deriving DecidableEq, Repr

/-- The order they are replaced in. -/
def Marker.all : List Marker :=
  [compareEq, compareNeq, compareSgt, compareSle, compareSlt, compareSge, compareUgt, compareUge,
    compareUlt, compareUle, flagComputationCarry, flagComputationZero, flagComputationSign,
    flagComputationOverflow]

/-- The widths of `undefined_64` to `undefined_8`. -/
def undefinedWidths : List ℕ := [64, 32, 16, 8]

/-- The users of Remill's functions in their order, none if the module has no such function. `undef` is
the constant that is the `UndefValue` of a width. -/
structure IntrinsicUsers where
  marker : Marker → List ℕ
  undefined : ℕ → List ℕ
  undef : ℕ → ℕ

/-- What the uses of a call become: its first argument, or a constant. -/
inductive CallValue
  | firstArg
  | undefined (id : ℕ)
deriving DecidableEq, Repr

/-- The value for a call with these arguments. -/
def CallValue.of : CallValue → List (SsaOperand ℕ) → Option (SsaOperand ℕ)
  | firstArg, args => args.head?
  | undefined id, _ => some (.constant id)

theorem CallValue.mem_or_constant {value : CallValue} {args : List (SsaOperand ℕ)} {a : SsaOperand ℕ}
    (h : value.of args = some a) : a ∈ args ∨ ∃ id, a = .constant id := by
  cases value with
  | firstArg => exact .inl (List.mem_of_mem_head? h)
  | undefined id => exact .inr ⟨id, (Option.some.inj h).symm⟩

theorem CallValue.of_map (value : CallValue) (f : SsaOperand ℕ → SsaOperand ℕ)
    {args : List (SsaOperand ℕ)} {a : SsaOperand ℕ} (h : value.of args = some a) :
    ∃ a', value.of (args.map f) = some a' := by
  cases value with
  | firstArg => exact ⟨f a, by rw [of, List.head?_map, show args.head? = some a from h]; rfl⟩
  | undefined id => exact ⟨_, rfl⟩

/-- All calls, with what they are replaced by. -/
def IntrinsicUsers.calls (U : IntrinsicUsers) : List (CallValue × ℕ) :=
  (Marker.all.flatMap fun m => (U.marker m).map fun i => (.firstArg, i)) ++
    undefinedWidths.flatMap fun w => (U.undefined w).map fun i => (.undefined (U.undef w), i)

def IntrinsicUsers.names (U : IntrinsicUsers) : List ℕ := U.calls.map Prod.snd

/-! ### The replacement -/

/-- The operand of which the uses are replaced. -/
def replaceOperand (i : ℕ) (a v : SsaOperand ℕ) : SsaOperand ℕ := if v = .inst i then a else v

namespace MemFunction

variable (F : MemFunction)

/-- `replaceAllUsesWith` and `eraseFromParent`. A value is not replaced by itself: that is asserted. -/
def replaceWith (i : ℕ) (a : SsaOperand ℕ) : Option MemFunction :=
  if a = .inst i then none else some ((F.mapUses (replaceOperand i a)).eraseFromParent i)

/-- The body of the loops over the users of a function. What is no call is skipped. -/
def replaceCall (value : CallValue) (i : ℕ) : Option MemFunction :=
  match F.inst i with
  | some (.call _ args _) => (value.of args).bind (F.replaceWith i)
  | some (.load ..) | some (.store ..) | some (.phi ..) | some (.operation ..) | none => some F

/-- `replace_with_first_arg`. -/
def replaceWithFirstArg (users : List ℕ) : Option MemFunction :=
  users.foldlM (fun F i => F.replaceCall .firstArg i) F

/-- `replace_with_undefined`, where `id` is the `UndefValue`. -/
def replaceWithUndefined (id : ℕ) (users : List ℕ) : Option MemFunction :=
  users.foldlM (fun F i => F.replaceCall (.undefined id) i) F

/-- `replace_remill_intrinsics`, in one function. -/
def replaceRemillIntrinsics (U : IntrinsicUsers) : Option MemFunction := do
  let G ← Marker.all.foldlM (fun F m => F.replaceWithFirstArg (U.marker m)) F
  undefinedWidths.foldlM (fun F w => F.replaceWithUndefined (U.undef w) (U.undefined w)) G

end MemFunction

theorem foldlM_flatMap {α β γ : Type*} (f : β → α → Option β) (g : γ → List α) (b : β) (xs : List γ) :
    (xs.flatMap g).foldlM f b = xs.foldlM (fun b x => (g x).foldlM f b) b := by
  induction xs generalizing b with
  | nil => rfl
  | cons x xs ih => simp only [List.flatMap_cons, List.foldlM_append, List.foldlM_cons, ih]

/-- One loop over all calls. -/
theorem MemFunction.replaceRemillIntrinsics_eq (F : MemFunction) (U : IntrinsicUsers) :
    F.replaceRemillIntrinsics U = U.calls.foldlM (fun F r => F.replaceCall r.1 r.2) F := by
  rw [replaceRemillIntrinsics, IntrinsicUsers.calls, List.foldlM_append, foldlM_flatMap]
  simp only [foldlM_flatMap, List.foldlM_map]
  rfl

/-! ### One call -/

/-- What is known of a call: it has the argument that is asked for, and is not unreachable. -/
structure MemFunction.Replaceable (F : MemFunction) (value : CallValue) (i : ℕ) : Prop where
  call : ∃ type args writes a, F.inst i = some (.call type args writes) ∧ value.of args = some a
  reaches : ∃ b rest, F.flow.Reaches (b, i :: rest)

/-- On this machine a call does nothing but return the value. -/
def MemMachine.Returns (M : MemMachine) (value : CallValue) (i : ℕ) : Prop :=
  ∀ env args ns mem n mem', args.mapM (M.eval env) = some ns →
    (M.callee i ns mem n mem' ↔ (value.of args).bind (M.eval env) = some n ∧ mem' = mem)

namespace MemFunction

variable {F : MemFunction} {M : MemMachine} {mem : PageId → ByteMemory.Memory 64} {value : CallValue}
  {i : ℕ}

theorem Replaceable.position_of_defines (hi : F.Replaceable value i) {p q : Position}
    (h : F.Defines p q i) : ∃ b rest, p = (b, i :: rest) := by
  cases h with
  | inst => exact ⟨_, _, rfl⟩
  | edge hphi =>
    obtain ⟨type, args, writes, a, hinst, -⟩ := hi.call
    obtain ⟨type', incoming, hinst'⟩ := F.phi_of_mem _ i hphi
    rw [hinst] at hinst'
    cases hinst'

section Call

variable {type : Option ℕ} {args : List (SsaOperand ℕ)} {writes : Bool} {a : SsaOperand ℕ}

/-- A value that is computed dominates the call. -/
theorem dominates_of_value (h : F.StrictSsa) (hinst : F.inst i = some (.call type args writes)) {j : ℕ}
    (ha : value.of args = some (.inst j)) (b : BlockId) (rest : List ℕ) :
    F.flow.Dominates j (b, i :: rest) := by
  rcases CallValue.mem_or_constant ha with hmem | ⟨id, hid⟩
  · exact h.dominates _ j (.inst hinst hmem)
  · cases hid

theorem value_ne_self (h : F.StrictSsa) (hi : F.Replaceable value i)
    (hinst : F.inst i = some (.call type args writes)) (ha : value.of args = some a) : a ≠ .inst i := by
  rintro rfl
  obtain ⟨b, rest, hreach⟩ := hi.reaches
  rcases FlowGraph.avoids_or_defines (fun _ _ => id) hreach i with havoids | ⟨r, r', -, havoids, -, hdef⟩
  · exact dominates_of_value h hinst ha b rest havoids
  · obtain ⟨c, is, rfl⟩ := hi.position_of_defines hdef
    exact dominates_of_value h hinst ha c is havoids

/-- **The call is a copy of its value.** -/
theorem copies (h : F.StrictSsa) (hi : F.Replaceable value i)
    (hinst : F.inst i = some (.call type args writes)) (ha : value.of args = some a) :
    F.flow.Copies i {j | a = .inst j} where
  dominates j hj r r' _ hdef := by
    obtain rfl : a = .inst j := hj
    obtain ⟨b, rest, rfl⟩ := hi.position_of_defines hdef
    exact dominates_of_value h hinst ha b rest
  unique j _ r r' q q' hr hrr' hdef hq hqq' hdef' := h.unique hr hrr' hdef hq hqq' hdef'
  separate j hj r r' hdef hdef' := by
    obtain ⟨b, rest, rfl⟩ := hi.position_of_defines hdef'
    obtain rfl : a = .inst j := hj
    cases hdef with
    | inst => exact value_ne_self h hi hinst ha rfl

/-- What the call leaves. -/
theorem effect_call_of_returns (hreturns : M.Returns value i) {s s' : MemState}
    (hinst : F.inst i = some (.call type args writes)) (ha : value.of args = some a)
    (heffect : F.Effect M i s s') : s'.mem = s.mem ∧ s'.env i = M.eval s.env a := by
  obtain ⟨ns, n, mem', hargs, hcall, -, rfl⟩ := (effect_call_iff hinst).mp heffect
  obtain ⟨hn, rfl⟩ := (hreturns _ _ _ _ _ _ hargs).mp hcall
  rw [ha, Option.bind_some] at hn
  exact ⟨rfl, (MemState.env_set_self _ _ _).trans hn.symm⟩

/-- **Along a run**: the name of the call has the value, or there is a path to here without the call. -/
theorem avoids_or_eq (h : F.StrictSsa) (hi : F.Replaceable value i) (hreturns : M.Returns value i)
    (hinst : F.inst i = some (.call type args writes)) (ha : value.of args = some a) {p : MemPoint}
    (hrun : F.Runs M mem p) :
    F.flow.Avoids i p.position ∨ p.state.env i = M.eval p.state.env a := by
  have hvalue : ∀ e e' : ℕ → Option ℕ, (∀ n ∈ {j | a = .inst j}, e' n = e n) →
      M.eval e' a = M.eval e a := by
    intro e e' hee'
    cases a with
    | inst j => exact hee' j rfl
    | int | constant | undef | argument => rfl
  induction hrun with
  | refl => exact .inl .refl
  | tail hrun hstep ih =>
    refine FlowGraph.copies_step hvalue (copies h hi hinst ha) (h.values hrun).1
      (hstep.executes (h.readable hrun)) (fun hdef => ?_) ih
    obtain ⟨b, rest, hpos⟩ := hi.position_of_defines hdef
    cases hstep with
    | inst heffect =>
      cases hpos
      exact (effect_call_of_returns hreturns hinst ha heffect).2
    | edge => cases hpos

theorem eval_replaceOperand (h : F.StrictSsa) (hi : F.Replaceable value i)
    (hreturns : M.Returns value i) (hinst : F.inst i = some (.call type args writes))
    (ha : value.of args = some a) {p : MemPoint} (hrun : F.Runs M mem p) {v : SsaOperand ℕ}
    (hv : F.Reads M p v) : M.eval p.state.env (replaceOperand i a v) = M.eval p.state.env v := by
  rw [replaceOperand]
  split
  · next heq =>
    subst heq
    exact ((avoids_or_eq h hi hreturns hinst ha hrun).resolve_left (h.dominates _ i hv.uses)).symm
  · rfl

theorem replaceOperand_ne (ha : a ≠ .inst i) (v : SsaOperand ℕ) : replaceOperand i a v ≠ .inst i := by
  rw [replaceOperand]
  split
  · exact ha
  · next hne => exact hne

/-- Nothing uses the call any more. -/
theorem useEmpty_mapUses (F : MemFunction) (ha : a ≠ .inst i) :
    (F.mapUses (replaceOperand i a)).useEmpty i = true := by
  refine useEmpty_iff.mpr ⟨fun j x hx v hv => ?_, fun b _ v hv => ?_⟩
  · obtain ⟨y, -, rfl⟩ := Option.map_eq_some_iff.mp hx
    rw [MemInst.operands_mapOperands] at hv
    obtain ⟨w, -, rfl⟩ := List.mem_map.mp hv
    exact replaceOperand_ne ha w
  · have hv' : v ∈ ((F.terminator b).mapOperands (replaceOperand i a)).operands := hv
    rw [MemTerminator.operands_mapOperands] at hv'
    obtain ⟨w, -, rfl⟩ := List.mem_map.mp hv'
    exact replaceOperand_ne ha w

/-- A call that only returns its value can be removed. -/
theorem removable_of_returns (hreturns : M.Returns value i)
    (hinst : F.inst i = some (.call type args writes)) (ha : value.of args = some a) :
    F.Removable M i where
  mem s s' heffect := (effect_call_of_returns hreturns hinst ha heffect).1
  exec s x hx hread := by
    rw [hinst] at hx
    cases hx
    obtain ⟨ns, hns⟩ := exists_mapM (show ∀ v ∈ args, _ from hread)
    obtain ⟨n, hn⟩ : ∃ n, M.eval s.env a = some n := by
      rcases CallValue.mem_or_constant ha with hmem | ⟨id, rfl⟩
      · exact Option.isSome_iff_exists.mp (hread a hmem)
      · exact ⟨_, rfl⟩
    have hcall := (hreturns s.env args ns s.mem n s.mem hns).mpr ⟨by rw [ha, Option.bind_some, hn], rfl⟩
    exact ⟨_, .call hinst hns hcall fun _ => rfl⟩

/-- The form is kept. -/
theorem strictSsa_replaceWith (h : F.StrictSsa) (hi : F.Replaceable value i)
    (hinst : F.inst i = some (.call type args writes)) (ha : value.of args = some a) :
    ((F.mapUses (replaceOperand i a)).eraseFromParent i).StrictSsa := by
  have hne := value_ne_self h hi hinst ha
  refine StrictSsa.eraseFromParent (h.mapUses (fun p w j hw hj => ?_) fun p w hp hw hundef => ?_)
    (useEmpty_mapUses F hne)
  · rw [replaceOperand] at hj
    split at hj
    · next heq =>
      subst heq
      exact (h.dominates p i hw).trans ((copies h hi hinst ha).dominates j hj)
    · subst hj
      exact h.dominates p j hw
  · rw [replaceOperand] at hundef
    split at hundef
    · obtain ⟨b, rest, hreach⟩ := hi.reaches
      rcases CallValue.mem_or_constant ha with hmem | ⟨id, hid⟩
      · exact h.defined _ hreach (.inst hinst (hundef ▸ hmem))
      · rw [hundef] at hid
        cases hid
    · exact h.defined p hp (hundef ▸ hw)

/-- Another call stays as it is, but for its operands. -/
theorem Replaceable.replaceWith {value' : CallValue} {j : ℕ} (hj : F.Replaceable value' j)
    (hne : j ≠ i) : ((F.mapUses (replaceOperand i a)).eraseFromParent i).Replaceable value' j where
  call := by
    obtain ⟨type, args, writes, a', hinst, ha'⟩ := hj.call
    obtain ⟨a'', ha''⟩ := value'.of_map (replaceOperand i a) ha'
    refine ⟨type, _, writes, a'', ?_, ha''⟩
    rw [eraseFromParent_inst _ hne, mapUses_inst, hinst]
    rfl
  reaches := by
    obtain ⟨b, rest, hreach⟩ := hj.reaches
    rw [← flow_mapUses F (replaceOperand i a)] at hreach
    refine ⟨b, rest.filter fun k => k ≠ i, ?_⟩
    have hreach' := reaches_eraseFromParent (i := i) hreach
    rwa [List.filter_cons_of_pos (by simpa using hne)] at hreach'

end Call

variable (M mem) in
/-- **One call.** -/
theorem sameRuns_replaceCall (h : F.StrictSsa) (hi : F.Replaceable value i) : ∃ G,
    F.replaceCall value i = some G ∧ G.StrictSsa ∧ G.inst i = none ∧
      (∀ j, F.inst j = none → G.inst j = none) ∧
      (∀ value' j, j ≠ i → F.Replaceable value' j → G.Replaceable value' j) ∧
      (M.Returns value i → SameRuns M mem [i] F G) := by
  obtain ⟨type, args, writes, a, hinst, ha⟩ := hi.call
  have hne := value_ne_self h hi hinst ha
  refine ⟨(F.mapUses (replaceOperand i a)).eraseFromParent i, ?_, strictSsa_replaceWith h hi hinst ha,
    if_pos rfl, fun j hj => ?_, fun value' j hj hother => hother.replaceWith hj, fun hreturns => ?_⟩
  · simp only [replaceCall, hinst, ha, Option.bind_some, replaceWith, if_neg hne]
  · by_cases hji : j = i
    · exact if_pos hji
    · rw [eraseFromParent_inst _ hji, mapUses_inst, hj]
      rfl
  · have hread : ∀ p, F.Runs M mem p → ∀ v, F.Reads M p v →
        M.eval p.state.env (replaceOperand i a v) = M.eval p.state.env v :=
      fun p hp v hv => eval_replaceOperand h hi hreturns hinst ha hp hv
    have hruns := runs_mapUses_iff hread
    obtain ⟨a', ha'⟩ := value.of_map (replaceOperand i a) ha
    have hinst' : (F.mapUses (replaceOperand i a)).inst i =
        some (.call type (args.map (replaceOperand i a)) writes) := by rw [mapUses_inst, hinst]; rfl
    have hread' : ∀ p, (F.mapUses (replaceOperand i a)).Runs M mem p →
        (F.mapUses (replaceOperand i a)).Readable M p := fun p hp =>
      readable_mapUses (h.readable ((hruns p).mp hp)) (hread p ((hruns p).mp hp))
    have herase := (sameRuns_eraseFromParent (useEmpty_mapUses F hne)
      (removable_of_returns hreturns hinst' ha') hread').1
    refine ⟨fun p hp => herase.forth p ((hruns p).mpr hp), fun q hq => ?_⟩
    obtain ⟨p, hp, hpq⟩ := herase.back q hq
    exact ⟨p, (hruns p).mp hp, hpq⟩

/-! ### All calls -/

variable (M mem) in
/-- **Call after call.** -/
theorem sameRuns_foldlM (calls : List (CallValue × ℕ)) : ∀ {F : MemFunction}, F.StrictSsa →
    (calls.map Prod.snd).Nodup → (∀ r ∈ calls, F.Replaceable r.1 r.2) →
    (∀ r ∈ calls, M.Returns r.1 r.2) → ∃ G, calls.foldlM (fun F r => F.replaceCall r.1 r.2) F = some G ∧
      SameRuns M mem (calls.map Prod.snd) F G ∧ (∀ r ∈ calls, G.inst r.2 = none) ∧
      ∀ j, F.inst j = none → G.inst j = none := by
  induction calls with
  | nil => exact fun {F} _ _ _ _ => ⟨F, rfl, .refl F, fun _ hr => (by cases hr), fun _ hj => hj⟩
  | cons r calls ih =>
    intro F h hnodup hcalls hreturns
    obtain ⟨hr, hnodup⟩ := List.nodup_cons.mp (List.map_cons ▸ hnodup)
    obtain ⟨G, hG, hssa, herased, hnone, hother, hsame⟩ :=
      sameRuns_replaceCall M mem h (hcalls r (by simp))
    obtain ⟨G', hG', hsame', herased', hnone'⟩ := ih hssa hnodup
      (fun r' hr' => hother r'.1 r'.2 (fun heq => hr (heq ▸ List.mem_map_of_mem hr'))
        (hcalls r' (List.mem_cons_of_mem _ hr')))
      fun r' hr' => hreturns r' (List.mem_cons_of_mem _ hr')
    refine ⟨G', ?_, (hsame (hreturns r (by simp))).trans hsame', fun r' hr' => ?_,
      fun j hj => hnone' j (hnone j hj)⟩
    · rw [List.foldlM_cons, hG]
      exact hG'
    · rcases List.mem_cons.mp hr' with rfl | hmem
      · exact hnone' _ herased
      · exact herased' r' hmem

/-- A step on a machine that allows calls to do more. -/
theorem Step.of_callee {callee : ℕ → List ℕ → (PageId → ByteMemory.Memory 64) → ℕ →
    (PageId → ByteMemory.Memory 64) → Prop} {p q : MemPoint}
    (hcallee : ∀ i x ns mem n mem', F.inst i = some x → M.callee i ns mem n mem' →
      callee i ns mem n mem') (h : F.Step M p q) : F.Step { M with callee := callee } p q := by
  cases h with
  | inst heffect =>
    refine .inst ?_
    cases heffect with
    | load hinst hptr => exact .load hinst hptr
    | store hinst hvalue hptr => exact .store hinst hvalue hptr
    | call hinst hargs hcall hmem => exact .call hinst hargs (hcallee _ _ _ _ _ _ hinst hcall) hmem
    | operation hinst hargs => exact .operation hinst hargs
  | edge htarget => exact .edge (M := { M with callee := callee }) htarget

end MemFunction

/-- What Remill's functions do. The calls of the second kind return anything of their width. -/
structure IntrinsicUsers.Documented (U : IntrinsicUsers) (M : MemMachine) : Prop where
  marker : ∀ m, ∀ i ∈ U.marker m, ∀ ns mem n mem',
    M.callee i ns mem n mem' ↔ ns.head? = some n ∧ mem' = mem
  undefined : ∀ w ∈ undefinedWidths, ∀ i ∈ U.undefined w, ∀ ns mem n mem',
    M.callee i ns mem n mem' ↔ n < 2 ^ w ∧ mem' = mem
  undef : ∀ w ∈ undefinedWidths, M.constants (U.undef w) < 2 ^ w

/-- The machine on which what is undefined has the value of the variable for its width. -/
def IntrinsicUsers.pin (U : IntrinsicUsers) (M : MemMachine) : MemMachine :=
  { M with
    callee := fun i ns mem n mem' =>
      M.callee i ns mem n mem' ∧ ∀ id, (CallValue.undefined id, i) ∈ U.calls → n = M.constants id }

namespace IntrinsicUsers

variable {U : IntrinsicUsers} {M : MemMachine}

theorem mem_calls {r : CallValue × ℕ} : r ∈ U.calls ↔
    (∃ m, ∃ i ∈ U.marker m, r = (.firstArg, i)) ∨
      ∃ w ∈ undefinedWidths, ∃ i ∈ U.undefined w, r = (.undefined (U.undef w), i) := by
  have hall : ∀ m, m ∈ Marker.all := by
    intro m
    cases m <;> decide
  simp only [calls, List.mem_append, List.mem_flatMap, List.mem_map, hall, true_and, eq_comm]

theorem head_of_mapM {f : SsaOperand ℕ → Option ℕ} {args : List (SsaOperand ℕ)} {ns : List ℕ}
    (h : args.mapM f = some ns) : args.head?.bind f = ns.head? := by
  cases args with
  | nil =>
    cases h
    rfl
  | cons v args =>
    rw [List.mapM_cons] at h
    obtain ⟨n, hn, hrest⟩ := Option.bind_eq_some_iff.mp h
    obtain ⟨ns', -, hns⟩ := Option.bind_eq_some_iff.mp hrest
    cases hns
    exact hn

/-- On this machine every call only returns its value. -/
theorem returns_pin (hdoc : U.Documented M) (hnodup : U.names.Nodup) {r : CallValue × ℕ}
    (hr : r ∈ U.calls) : (U.pin M).Returns r.1 r.2 := by
  intro env args ns mem n mem' hargs
  have hhead : args.head?.bind (M.eval env) = ns.head? := head_of_mapM hargs
  have hsame : ∀ value, (value, r.2) ∈ U.calls → value = r.1 := fun value hvalue =>
    congrArg Prod.fst (List.inj_on_of_nodup_map hnodup hvalue hr rfl)
  rcases mem_calls.mp hr with ⟨m, i, hi, rfl⟩ | ⟨w, hw, i, hi, rfl⟩
  · change (M.callee i ns mem n mem' ∧ _) ↔ args.head?.bind (M.eval env) = some n ∧ _
    rw [hdoc.marker m i hi, hhead]
    exact and_iff_left fun id hid => by cases hsame _ hid
  · change (M.callee i ns mem n mem' ∧ _) ↔ some (M.constants (U.undef w)) = some n ∧ _
    rw [hdoc.undefined w hw i hi]
    constructor
    · rintro ⟨⟨-, rfl⟩, hpin⟩
      exact ⟨by rw [hpin _ hr], rfl⟩
    · rintro ⟨hn, rfl⟩
      obtain rfl := Option.some.inj hn
      exact ⟨⟨hdoc.undef w hw, rfl⟩, fun id hid => by cases hsame _ hid; rfl⟩

end IntrinsicUsers

/-- A loop that compares a byte it loads: the call is executed in every iteration, and the branch uses
it. -/
def flagLoop : MemFunction where
  order := [0, 1, 2]
  entry := 0
  phis _ := []
  insts b := if b = 1 then [1, 2, 3, 4] else []
  inst i :=
    match i with
    | 1 => some (.load (.int 8) (.argument 0))
    | 2 => some (.call (some 8) [.inst 1] false)
    | 3 => some (.call (some 8) [] false)
    | 4 => some (.store (.int 8) (.inst 3) (.argument 0))
    | _ => none
  parent _ := 1
  terminator b :=
    if b = 0 then .switch (.int ⟨1, 0⟩) [] 1
    else if b = 1 then .switch (.inst 2) [(0, 2)] 1
    else .ret
  entry_mem := by simp
  closed b hb c hc := by
    simp only [List.mem_cons, List.not_mem_nil, or_false] at hb
    rcases hb with rfl | rfl | rfl
    · simp_all [MemTerminator.successors]
    · simp_all [MemTerminator.successors]
    · cases hc
  phi_of_mem _ i hi := by cases hi
  inst_of_mem b i hi := by
    split at hi
    · simp only [List.mem_cons, List.not_mem_nil, or_false] at hi
      rcases hi with rfl | rfl | rfl | rfl
      · exact ⟨_, rfl, rfl⟩
      · exact ⟨_, rfl, rfl⟩
      · exact ⟨_, rfl, rfl⟩
      · exact ⟨_, rfl, rfl⟩
    · cases hi
  mem_order i x hx := by
    split at hx
    · simp
    · simp
    · simp
    · simp
    · cases hx
  bits_le i x ptr type hx haccess := by
    split at hx
    · cases hx
      cases haccess
      decide
    · cases hx
      cases haccess
    · cases hx
      cases haccess
    · cases hx
      cases haccess
      decide
    · cases hx

/-- A path that avoids a name has not got past its instruction. -/
theorem flagLoop_avoids {j : ℕ} {p : Position} (hj : j ≤ 3) (hpos : 0 < j)
    (h : flagLoop.flow.Avoids j p) : p = (0, []) ∨ ∃ k < j, p = (1, [1, 2, 3, 4].drop k) := by
  induction h with
  | refl => exact .inl rfl
  | tail _ hstep ih =>
    obtain ⟨hflow, hdef⟩ := hstep
    rcases ih with rfl | ⟨k, hk, rfl⟩
    · cases hflow with
      | edge hsucc =>
        obtain rfl := List.mem_singleton.mp hsucc
        exact .inr ⟨0, hpos, rfl⟩
    · have hdrop : [1, 2, 3, 4].drop k = (k + 1) :: [1, 2, 3, 4].drop (k + 1) := by
        obtain rfl | rfl | rfl : k = 0 ∨ k = 1 ∨ k = 2 := by omega
        all_goals rfl
      rw [hdrop] at hflow hdef
      cases hflow with
      | inst =>
        refine .inr ⟨k + 1, Nat.lt_of_le_of_ne hk fun heq => hdef ?_, rfl⟩
        subst heq
        obtain rfl | rfl | rfl : k = 0 ∨ k = 1 ∨ k = 2 := by omega
        · exact .inst (x := .load (.int 8) (.argument 0)) rfl rfl
        · exact .inst (x := .call (some 8) [.inst 1] false) rfl rfl
        · exact .inst (x := .call (some 8) [] false) rfl rfl

theorem flagLoop_strictSsa : flagLoop.StrictSsa where
  nodup := by decide
  dominates p j hj havoids := by
    cases hj with
    | @inst b i rest x hinst hv =>
      have hcases : (i = 2 ∧ j = 1) ∨ (i = 4 ∧ j = 3) := by
        simp only [flagLoop] at hinst
        split at hinst
        · cases hinst
          simp [MemInst.operands] at hv
        · cases hinst
          simpa [MemInst.operands] using hv
        · cases hinst
          cases hv
        · cases hinst
          simpa [MemInst.operands] using hv
        · cases hinst
      rcases hcases with ⟨rfl, rfl⟩ | ⟨rfl, rfl⟩
      · rcases flagLoop_avoids (by decide) (by decide) havoids with heq | ⟨k, hk, heq⟩
        · cases heq
        · obtain rfl : k = 0 := by omega
          cases heq
      · rcases flagLoop_avoids (by decide) (by decide) havoids with heq | ⟨k, hk, heq⟩
        · cases heq
        · obtain rfl | rfl | rfl : k = 0 ∨ k = 1 ∨ k = 2 := by omega
          all_goals cases heq
    | @terminator b hv =>
      have hcases : b = 1 ∧ j = 2 := by
        simp only [flagLoop] at hv
        split at hv
        · simp [MemTerminator.operands] at hv
        · split at hv
          · next hb => exact ⟨hb, by simpa [MemTerminator.operands] using hv⟩
          · cases hv
      obtain ⟨rfl, rfl⟩ := hcases
      rcases flagLoop_avoids (by decide) (by decide) havoids with heq | ⟨k, hk, heq⟩
      · cases heq
      · obtain rfl | rfl : k = 0 ∨ k = 1 := by omega
        all_goals cases heq
    | phi _ hi => cases hi
  defined p _ hundef := by
    cases hundef with
    | inst hinst hv =>
      simp only [flagLoop] at hinst
      split at hinst
      · cases hinst
        simp [MemInst.operands] at hv
      · cases hinst
        simp [MemInst.operands] at hv
      · cases hinst
        cases hv
      · cases hinst
        simp [MemInst.operands] at hv
      · cases hinst
    | terminator hv =>
      simp only [flagLoop] at hv
      split at hv
      · simp [MemTerminator.operands] at hv
      · split at hv
        · simp [MemTerminator.operands] at hv
        · cases hv
    | phi _ hi => cases hi
  incoming _ _ _ _ _ _ _ hi := by cases hi

/-- The call of `__remill_compare_eq`, and the one of `__remill_undefined_8`. -/
def flagUsers : IntrinsicUsers where
  marker m := if m = .compareEq then [2] else []
  undefined w := if w = 8 then [3] else []
  undef w := w

def flagMachine : MemMachine where
  args _ := 0
  constants _ := 170
  place n := ⟨stackPage, BitVec.ofNat 64 n⟩
  callee i ns mem n mem' := ((i = 2 ∧ ns.head? = some n) ∨ (i = 3 ∧ n < 2 ^ 8)) ∧ mem' = mem

theorem flagUsers_documented : flagUsers.Documented flagMachine where
  marker m i hi ns mem n mem' := by
    have hi2 : i = 2 := by
      simp only [flagUsers] at hi
      split at hi
      · exact List.mem_singleton.mp hi
      · cases hi
    subst hi2
    simp [flagMachine]
  undefined w _ i hi ns mem n mem' := by
    have hi3 : i = 3 ∧ w = 8 := by
      simp only [flagUsers] at hi
      split at hi
      · next hw => exact ⟨List.mem_singleton.mp hi, hw⟩
      · cases hi
    obtain ⟨rfl, rfl⟩ := hi3
    simp [flagMachine]
  undef w hw := by
    have hpow : ∀ w ∈ undefinedWidths, 170 < 2 ^ w := by decide
    exact hpow w hw

theorem flagLoop_replaceable : ∀ r ∈ flagUsers.calls, flagLoop.Replaceable r.1 r.2 := by
  have hcalls : flagUsers.calls = [(.firstArg, 2), (.undefined 8, 3)] := by decide
  have hbegin : flagLoop.flow.Reaches (1, [1, 2, 3, 4]) :=
    ReflTransGen.tail .refl (MemFunction.FlowStep.edge (F := flagLoop) (b := 0) (c := 1) (by decide))
  have hcompare : flagLoop.flow.Reaches (1, [2, 3, 4]) := hbegin.tail .inst
  intro r hr
  rw [hcalls] at hr
  simp only [List.mem_cons, List.not_mem_nil, or_false] at hr
  rcases hr with rfl | rfl
  · exact ⟨⟨_, _, _, _, rfl, rfl⟩, _, _, hcompare⟩
  · exact ⟨⟨_, _, _, _, rfl, rfl⟩, _, _, hcompare.tail .inst⟩

end Vexa
