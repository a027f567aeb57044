import Vexa.Passes.MemoryFunction

/-!
# Loads that do not depend on the path

`concretize_memory_loads` replaces loads whose symbolic value is a literal. That value belongs to the
path that was explored, so a load is only replaced if `is_safe_value` finds that it is the same on every
path. The answers are kept for the whole traversal; while a value is looked at its own answer is no, and
so the recursion ends.

## The order of the questions

A load is looked at when the frame of its defining access is entered, and the operands of a store before
the frame of the store is pushed. A load asked about while another access is active is not safe, and
stays so. Which loads are safe therefore depends on the order of the traversal; that a safe load is
`Determined` does not.

## Main definitions

* `isSafeValue?`, `MemoryTraversal.step`, `traverse` — the analysis
* `Determined` — what is the same on all paths, for a reason that can be read off the function

## Main results

* `determined_of_traverse` — a value that is safe is determined
* `exists_traverse`, `isSafeValue_maxDepth` — the traversal ends, and so does the recursion
-/

namespace Vexa

open DepthFirst Relation

/-! ### What is asked -/

/-- `safety`. -/
inductive Safety
  | visiting | safe | notSafe
deriving DecidableEq, Repr

/-- `value_safety`. -/
abbrev ValueSafety := ℕ → Option Safety

/-- The state of the loop over the definitions: the roots that are left, the stack, the bytes and the
values. -/
structure MemoryTraversal where
  roots : List MemoryAccess
  stack : List (Frame MemoryAccess Checkpoint)
  safety : SafetyState
  values : ValueSafety

/-- What the pass has besides the function: the accesses of MemorySSA, what else LLVM is asked, and what
`symex` knows. -/
structure LoadAnalyses (F : MemFunction) where
  ssa : MemorySSA F
  llvm : SsaAnalyses ℕ BlockId
  solver : Solver
  symex : SsaOperand ℕ → Option SsaSymbolic

/-- A second question, which is asked if the answer to the first was yes. -/
def andSafe (first : Option (Bool × ValueSafety)) (next : ValueSafety → Option (Bool × ValueSafety)) :
    Option (Bool × ValueSafety) := do
  let r ← first
  if r.1 then next r.2 else return (false, r.2)

/-- The operands of an instruction, until one is not safe. -/
def allSafe (isSafe : ValueSafety → SsaOperand ℕ → Option (Bool × ValueSafety)) :
    ValueSafety → List (SsaOperand ℕ) → Option (Bool × ValueSafety)
  | values, [] => some (true, values)
  | values, v :: vs => andSafe (isSafe values v) fun values => allSafe isSafe values vs

namespace MemFunction

variable (F : MemFunction) (K : LoadAnalyses F)

/-- `get_memory_access`. -/
def getMemoryAccess (i : ℕ) : Option ConcreteAccess := do
  let (ptr, type) ← (← F.inst i).access?
  match ← K.symex ptr with
  | .value _ => none
  | .pointer p =>
    let offset ← (p.simplify K.solver).asUint64
    return ⟨⟨p.page, offset⟩, BitVec.ofNat 64 type.storeSize⟩

/-- The body of `is_safe_value`, for an instruction that was not looked at before. -/
def instIsSafe (isSafe : ValueSafety → SsaOperand ℕ → Option (Bool × ValueSafety))
    (active : MemoryAccess) (s : SafetyState) (values : ValueSafety) (i : ℕ) :
    Option (Bool × ValueSafety) :=
  if K.llvm.loopFor (F.parent i) then some (false, values)
  else match F.inst i with
    | some (.load _ ptr) =>
      match F.getMemoryAccess K i with
      | none => some (false, values)
      | some access =>
        if F.predSize (F.parent i) ≤ 1 ∧ K.ssa.definingAccess i = active ∧ access.size ≤ 64 then
          andSafe (isSafe values ptr) fun values => some (s.rangeIsSafe access, values)
        else some (false, values)
    | some (.operation _ args _) => allSafe isSafe values args
    | some (.phi ..) | some (.store ..) | some (.call ..) | none => some (false, values)

/-- `is_safe_value`, if it answers to this depth. -/
def isSafeValue? (active : MemoryAccess) (s : SafetyState) :
    ℕ → ValueSafety → SsaOperand ℕ → Option (Bool × ValueSafety)
  | 0, _, _ => none
  | fuel + 1, values, .inst i =>
    match values i with
    | some answer => some (answer = .safe, values)
    | none => do
      let r ← F.instIsSafe K (isSafeValue? active s fuel) active s
        (Function.update values i (some .visiting)) i
      return (r.1, Function.update r.2 i (some (if r.1 then .safe else .notSafe)))
  | _ + 1, values, .int _ | _ + 1, values, .constant _ | _ + 1, values, .undef
  | _ + 1, values, .argument _ => some (true, values)

/-- A depth at which the recursion has ended. -/
def maxDepth : ℕ := F.names.length + 1

/-- `is_safe_value`. -/
def isSafeValue (active : MemoryAccess) (s : SafetyState) (values : ValueSafety) (v : SsaOperand ℕ) :
    Bool × ValueSafety := (F.isSafeValue? K active s F.maxDepth values v).getD (false, values)

/-! ### The traversal -/

/-- The definitions of the function. The bytes of a store are safe if its flag says so. -/
def forest (flags : ℕ → Bool) : DefForest where
  insts := F.names.map fun i =>
    ⟨if F.isDefinition i then some i else none,
      match F.inst i with
      | some (.load ..) => some (K.ssa.definingAccess i)
      | _ => none⟩
  parent := K.ssa.definingAccess
  store d :=
    match F.inst d with
    | some (.store ..) => (F.getMemoryAccess K d).map fun access => (access, flags d)
    | _ => none
  depth := K.ssa.depth
  depth_parent := K.ssa.depth_defining
  closed d _ e hparent := by
    have hdef := K.ssa.isDefinition_defining d e hparent
    obtain ⟨x, hx⟩ : ∃ x, F.inst e = some x := by
      rw [isDefinition, Option.any_eq_true] at hdef
      obtain ⟨x, hx, -⟩ := hdef
      exact ⟨x, hx⟩
    rw [List.filterMap_map, List.mem_filterMap]
    exact ⟨e, F.mem_order e x hx, by simp [hdef]⟩

/-- `access_loads`. -/
def accessLoads (A : MemoryAccess) : List ℕ :=
  F.names.filter fun i =>
    match F.inst i with
    | some (.load ..) => K.ssa.definingAccess i = A
    | _ => false

/-- The loads of an access, when its frame is entered. -/
def visitLoads (A : MemoryAccess) (s : SafetyState) (values : ValueSafety) : ValueSafety :=
  (F.accessLoads K A).foldl
    (fun values i => (F.isSafeValue K A s values (.inst i)).2) values

/-- `store_is_safe`. -/
def storeIsSafe (active : MemoryAccess) (s : SafetyState) (values : ValueSafety) (d : ℕ)
    (value ptr : SsaOperand ℕ) : Bool × ValueSafety :=
  if K.llvm.loopFor (F.parent d) = false ∧ F.predSize (F.parent d) ≤ 1 then
    let r := F.isSafeValue K active s values ptr
    if r.1 then F.isSafeValue K active s r.2 value else (false, r.2)
  else (false, values)

/-- What is done before the frame of a definition is pushed. -/
def enterDefinition (active : MemoryAccess) (s : SafetyState) (values : ValueSafety) (d : ℕ) :
    SafetyState × ValueSafety :=
  match F.inst d with
  | some (.store _ value ptr) =>
    match F.getMemoryAccess K d with
    | some access =>
      let r := F.storeIsSafe K active s values d value ptr
      (s.markBytes access.address r.1 access.size.toNat 0, r.2)
    | none => ({ s with activeGeneration := .definition d, defaultByteSafety := false }, values)
  | _ => ({ s with activeGeneration := .definition d, defaultByteSafety := false }, values)

/-- `def_children`. -/
def defChildren (A : MemoryAccess) : List ℕ := (F.forest K fun _ => false).defChildren A

end MemFunction

namespace MemoryTraversal

variable {F : MemFunction} (K : LoadAnalyses F)

/-- One iteration of the loops over the roots and the stack. -/
def step (t : MemoryTraversal) : Option MemoryTraversal :=
  match t.stack with
  | [] =>
    match t.roots with
    | [] => none
    | root :: roots =>
      some ⟨roots, [Frame.new root (SafetyState.start root).checkpoint], SafetyState.start root,
        t.values⟩
  | frame :: rest =>
    let values :=
      if frame.entered then t.values
      else F.visitLoads K frame.node t.safety t.values
    match (F.defChildren K frame.node)[frame.nextChild]? with
    | some d =>
      let next := F.enterDefinition K frame.node t.safety values d
      some ⟨t.roots, Frame.new (.definition d) t.safety.checkpoint ::
        frame.visited (frame.nextChild + 1) :: rest, next.1, next.2⟩
    | none => some ⟨t.roots, rest, frame.saved.restore t.safety, values⟩

/-- The begin of the traversal. -/
def start : MemoryTraversal :=
  ⟨(F.forest K fun _ => false).roots, [], SafetyState.start .liveOnEntry, fun _ => none⟩

/-- The traversal, in so many iterations at most: what it found of the values. -/
def traverse : ℕ → MemoryTraversal → Option ValueSafety
  | 0, _ => none
  | n + 1, t =>
    match t.step K with
    | none => some t.values
    | some t => traverse n t

end MemoryTraversal

/-! ### What is the same on all paths -/

/-- What the analysis is about: the value of an operand, and a byte behind an access. -/
inductive MemFact
  | value (v : SsaOperand ℕ)
  | byte (A : MemoryAccess) (x : MemoryAddress)

namespace MemFunction

variable (F : MemFunction) (K : LoadAnalyses F)

/-- The reasons for being the same on all paths. Nothing is said about a phi, or about the bytes behind
the phi of a block. -/
inductive Determined : MemFact → Prop
  | constant {v : SsaOperand ℕ} (hv : ∀ i, v ≠ .inst i) : Determined (.value v)
  | operation {i : ℕ} {type : Option ℕ} {args : List (SsaOperand ℕ)} {compute : List ℕ → ℕ}
      (hinst : F.inst i = some (.operation type args compute))
      (hargs : ∀ v ∈ args, Determined (.value v)) : Determined (.value (.inst i))
  | load {i : ℕ} {type : AccessType} {ptr : SsaOperand ℕ} {access : ConcreteAccess}
      (hinst : F.inst i = some (.load type ptr))
      (haccess : F.getMemoryAccess K i = some access) (hptr : Determined (.value ptr))
      (hbytes : ∀ k < access.size.toNat, Determined (.byte (K.ssa.definingAccess i)
        ⟨access.address.page, access.address.offset + BitVec.ofNat 64 k⟩)) :
      Determined (.value (.inst i))
  | initial (x : MemoryAddress) : Determined (.byte .liveOnEntry x)
  | written {d : ℕ} {type : AccessType} {value ptr : SsaOperand ℕ} {access : ConcreteAccess}
      {x : MemoryAddress} (hinst : F.inst d = some (.store type value ptr))
      (haccess : F.getMemoryAccess K d = some access) (hcovers : access.Covers x)
      (hvalue : Determined (.value value)) : Determined (.byte (.definition d) x)
  | kept {d : ℕ} {type : AccessType} {value ptr : SsaOperand ℕ} {access : ConcreteAccess}
      {x : MemoryAddress} (hinst : F.inst d = some (.store type value ptr))
      (haccess : F.getMemoryAccess K d = some access) (hcovers : ¬ access.Covers x)
      (hbefore : Determined (.byte (K.ssa.definingAccess d) x)) : Determined (.byte (.definition d) x)

/-- Every value that is safe is determined. -/
def ValuesSound (values : ValueSafety) : Prop :=
  ∀ i, values i = some .safe → F.Determined K (.value (.inst i))

/-- Every byte that is safe is determined. -/
def BytesSound (A : MemoryAccess) (s : SafetyState) : Prop :=
  ∀ x, s.isSafe x = true → F.Determined K (.byte A x)

/-- What an answer says. -/
def AnswerSound (v : SsaOperand ℕ) (r : Bool × ValueSafety) : Prop :=
  (r.1 = true → F.Determined K (.value v)) ∧ F.ValuesSound K r.2

variable {F K}

/-- Nothing is known of a value that is not safe. -/
theorem ValuesSound.update_notSafe {values : ValueSafety} (h : F.ValuesSound K values) (i : ℕ)
    {answer : Safety} (hanswer : answer ≠ .safe) :
    F.ValuesSound K (Function.update values i (some answer)) := by
  intro j hj
  by_cases hij : j = i
  · subst hij
    rw [Function.update_self] at hj
    exact absurd (Option.some.inj hj) hanswer
  · rw [Function.update_of_ne hij] at hj
    exact h j hj

theorem ValuesSound.update_safe {values : ValueSafety} (h : F.ValuesSound K values) {i : ℕ}
    (hi : F.Determined K (.value (.inst i))) :
    F.ValuesSound K (Function.update values i (some .safe)) := by
  intro j hj
  by_cases hij : j = i
  · exact hij ▸ hi
  · rw [Function.update_of_ne hij] at hj
    exact h j hj

/-- A question that is answered right, if it is answered, as long as the answers known are right. -/
def QuestionSound {F : MemFunction} (K : LoadAnalyses F)
    (isSafe : ValueSafety → SsaOperand ℕ → Option (Bool × ValueSafety)) : Prop :=
  ∀ values v r, F.ValuesSound K values → isSafe values v = some r → F.AnswerSound K v r

/-- The second question is asked with what the first one left. -/
theorem andSafe_sound {v : SsaOperand ℕ} {first : Option (Bool × ValueSafety)}
    {next : ValueSafety → Option (Bool × ValueSafety)} {P : Prop}
    (h : ∀ r, first = some r → F.AnswerSound K v r)
    (hnext : ∀ values, F.ValuesSound K values → F.Determined K (.value v) →
      ∀ r, next values = some r → (r.1 = true → P) ∧ F.ValuesSound K r.2)
    {r : Bool × ValueSafety} (hr : andSafe first next = some r) :
    (r.1 = true → P) ∧ F.ValuesSound K r.2 := by
  obtain ⟨⟨safe, values⟩, hfirst, hr⟩ := Option.bind_eq_some_iff.mp hr
  obtain ⟨hdet, hvalues⟩ := h _ hfirst
  cases safe with
  | true => exact hnext values hvalues (hdet rfl) r hr
  | false =>
    obtain rfl := Option.some.inj hr
    exact ⟨fun hfalse => absurd hfalse Bool.false_ne_true, hvalues⟩

theorem QuestionSound.allSafe {isSafe : ValueSafety → SsaOperand ℕ → Option (Bool × ValueSafety)}
    (h : QuestionSound K isSafe) : ∀ (vs : List (SsaOperand ℕ)) (values : ValueSafety),
    F.ValuesSound K values → ∀ r, allSafe isSafe values vs = some r →
      (r.1 = true → ∀ v ∈ vs, F.Determined K (.value v)) ∧ F.ValuesSound K r.2
  | [], values, hvalues, r, hr => by
    obtain rfl := Option.some.inj hr
    exact ⟨fun _ v hv => absurd hv List.not_mem_nil, hvalues⟩
  | v :: vs, values, hvalues, r, hr => by
    refine andSafe_sound (fun r => h values v r hvalues) (fun values' hnext hv r' hr' => ?_) hr
    obtain ⟨hvs, hlast⟩ := h.allSafe vs values' hnext r' hr'
    refine ⟨fun hall w hw => ?_, hlast⟩
    rcases List.mem_cons.mp hw with rfl | hmem
    · exact hv
    · exact hvs hall w hmem

/-- The body of `is_safe_value`. -/
theorem QuestionSound.instIsSafe {isSafe : ValueSafety → SsaOperand ℕ → Option (Bool × ValueSafety)}
    (h : QuestionSound K isSafe) {A : MemoryAccess} {s : SafetyState}
    (hbytes : F.BytesSound K A s) {values : ValueSafety}
    (hvalues : F.ValuesSound K values) (i : ℕ) {r : Bool × ValueSafety}
    (hr : F.instIsSafe K isSafe A s values i = some r) : F.AnswerSound K (.inst i) r := by
  have hno : some (false, values) = some r → F.AnswerSound K (.inst i) r := by
    intro hr
    obtain rfl := Option.some.inj hr
    exact ⟨fun hfalse => absurd hfalse Bool.false_ne_true, hvalues⟩
  rw [MemFunction.instIsSafe] at hr
  split at hr
  · exact hno hr
  · cases hinst : F.inst i with
    | none =>
      rw [hinst] at hr
      exact hno hr
    | some x =>
      rw [hinst] at hr
      cases x with
      | phi type incoming => exact hno hr
      | store type value ptr => exact hno hr
      | call type args writes => exact hno hr
      | operation type args compute =>
        obtain ⟨hargs, hlast⟩ := h.allSafe args values hvalues r hr
        exact ⟨fun hall => .operation hinst (hargs hall), hlast⟩
      | load type ptr =>
        cases haccess : F.getMemoryAccess K i with
        | none =>
          simp only [haccess] at hr
          exact hno hr
        | some access =>
          simp only [haccess] at hr
          split at hr
          · next hasked =>
            refine andSafe_sound (fun r => h values ptr r hvalues)
              (fun values' hnext hptr r' hr' => ?_) hr
            obtain rfl := Option.some.inj hr'
            refine ⟨fun hrange => .load hinst haccess hptr fun k hk => ?_, hnext⟩
            rw [hasked.2.1]
            refine hbytes _ ?_
            have hall : s.rangeIsSafe access = true := hrange
            rw [SafetyState.rangeIsSafe, List.all_eq_true] at hall
            exact hall k (List.mem_range.mpr hk)
          · exact hno hr

/-- **A value that is safe is determined**, if the bytes and the values known are. -/
theorem isSafeValue?_sound {A : MemoryAccess} {s : SafetyState} (hbytes : F.BytesSound K A s)
    (fuel : ℕ) : QuestionSound K (F.isSafeValue? K A s fuel) := by
  induction fuel with
  | zero => exact fun values v r _ hr => absurd hr (by simp [isSafeValue?])
  | succ fuel ih =>
    intro values v r hvalues hr
    have hyes : (∀ i, v ≠ .inst i) → some (true, values) = some r → F.AnswerSound K v r := by
      intro hv hr
      obtain rfl := Option.some.inj hr
      exact ⟨fun _ => .constant hv, hvalues⟩
    cases v with
    | int c => exact hyes (by simp) hr
    | constant id => exact hyes (by simp) hr
    | undef => exact hyes (by simp) hr
    | argument id => exact hyes (by simp) hr
    | inst i =>
      rw [isSafeValue?] at hr
      cases hknown : values i with
      | some answer =>
        simp only [hknown] at hr
        obtain rfl := Option.some.inj hr
        refine ⟨fun hsafe => hvalues i ?_, hvalues⟩
        rw [hknown, of_decide_eq_true hsafe]
      | none =>
        simp only [hknown] at hr
        obtain ⟨⟨safe, values'⟩, hbody, hr⟩ := Option.bind_eq_some_iff.mp hr
        obtain rfl := Option.some.inj hr
        -- the answer is no as long as the instruction is looked at
        have hvisiting := hvalues.update_notSafe i (show Safety.visiting ≠ .safe by simp)
        obtain ⟨hdet, hnext⟩ := ih.instIsSafe hbytes hvisiting i hbody
        cases safe with
        | true => exact ⟨fun _ => hdet rfl, hnext.update_safe (hdet rfl)⟩
        | false =>
          exact ⟨fun hfalse => absurd hfalse Bool.false_ne_true, hnext.update_notSafe i (by simp)⟩

theorem isSafeValue_sound {A : MemoryAccess} {s : SafetyState} (hbytes : F.BytesSound K A s)
    {values : ValueSafety} (hvalues : F.ValuesSound K values) (v : SsaOperand ℕ) :
    F.AnswerSound K v (F.isSafeValue K A s values v) := by
  rw [isSafeValue]
  cases hr : F.isSafeValue? K A s F.maxDepth values v with
  | some r => exact isSafeValue?_sound hbytes _ values v r hvalues hr
  | none => exact ⟨fun hfalse => absurd hfalse Bool.false_ne_true, hvalues⟩

theorem visitLoads_sound {A : MemoryAccess} {s : SafetyState} (hbytes : F.BytesSound K A s)
    {values : ValueSafety} (hvalues : F.ValuesSound K values) :
    F.ValuesSound K (F.visitLoads K A s values) := by
  rw [visitLoads]
  induction F.accessLoads K A generalizing values with
  | nil => exact hvalues
  | cons i is ih => exact ih (isSafeValue_sound hbytes hvalues (.inst i)).2

theorem storeIsSafe_sound {A : MemoryAccess} {s : SafetyState} (hbytes : F.BytesSound K A s)
    {values : ValueSafety} (hvalues : F.ValuesSound K values) (d : ℕ)
    (value ptr : SsaOperand ℕ) :
    F.AnswerSound K value (F.storeIsSafe K A s values d value ptr) := by
  have hptr := isSafeValue_sound hbytes hvalues ptr
  rw [storeIsSafe]
  split
  · simp only
    split
    · exact isSafeValue_sound hbytes hptr.2 value
    · exact ⟨fun hfalse => absurd hfalse Bool.false_ne_true, hptr.2⟩
  · exact ⟨fun hfalse => absurd hfalse Bool.false_ne_true, hvalues⟩

/-! ### The bytes along the stack -/

/-- The stores with the flag write a value that is determined. -/
def Honest {F : MemFunction} (K : LoadAnalyses F) (flags : ℕ → Bool) : Prop :=
  ∀ d, flags d = true → ∀ type value ptr, F.inst d = some (.store type value ptr) →
    F.Determined K (.value value)

/-- The bytes are those of a walk back the chain of the access, for some flags. -/
def BytesOf {F : MemFunction} (K : LoadAnalyses F) (A : MemoryAccess) (s : SafetyState) : Prop :=
  ∃ flags, Honest K flags ∧ (F.forest K flags).Answers A s

/-- The bytes of every frame on the stack, when those above it are left. -/
def StackSound {F : MemFunction} (K : LoadAnalyses F) :
    List (Frame MemoryAccess Checkpoint) → SafetyState → Prop
  | [], _ => True
  | frame :: rest, s =>
    BytesOf K frame.node s ∧ StackSound K rest (frame.saved.restore s)

/-- The store of a definition, as the forest has it. -/
theorem forest_store (flags : ℕ → Bool) {d : ℕ} {type : AccessType} {value ptr : SsaOperand ℕ}
    (hinst : F.inst d = some (.store type value ptr)) :
    (F.forest K flags).store d =
      (F.getMemoryAccess K d).map fun access => (access, flags d) := by
  simp only [forest, hinst]

/-- The walk back the chain asks for the flags of earlier definitions only. -/
theorem answer_congr {flags flags' : ℕ → Bool} (n : ℕ) : ∀ A, (F.forest K flags).level A ≤ n →
    (∀ d, K.ssa.depth d < n → flags d = flags' d) → ∀ x,
    (F.forest K flags).answer A x = (F.forest K flags').answer A x := by
  induction n with
  | zero =>
    intro A hlevel _ x
    cases A with
    | liveOnEntry => simp [DefForest.answer]
    | phi b => simp [DefForest.answer]
    | definition d => exact absurd hlevel (Nat.not_succ_le_zero _)
  | succ n ih =>
    intro A hlevel hflags x
    cases A with
    | liveOnEntry => simp [DefForest.answer]
    | phi b => simp [DefForest.answer]
    | definition d =>
      have hdepth : K.ssa.depth d < n + 1 := hlevel
      have hparent := (F.forest K flags).level_parent d
      have hrest := ih (K.ssa.definingAccess d) (by
        have : (F.forest K flags).level (K.ssa.definingAccess d) < K.ssa.depth d + 1 := hparent
        omega) (fun e he => hflags e (by omega)) x
      have hstore : (F.forest K flags).store d = (F.forest K flags').store d := by
        simp only [forest, hflags d hdepth]
      rw [DefForest.answer, DefForest.answer, hstore]
      cases (F.forest K flags').store d with
      | none => rfl
      | some store =>
        simp only
        split
        · rfl
        · exact hrest

/-- **What the walk back the chain calls safe is determined.** -/
theorem determined_of_answer {flags : ℕ → Bool} (hflags : Honest K flags) (n : ℕ) :
    ∀ A, (F.forest K flags).level A ≤ n → ∀ x,
    (F.forest K flags).answer A x = true → F.Determined K (.byte A x) := by
  induction n with
  | zero =>
    intro A hlevel x hsafe
    cases A with
    | liveOnEntry => exact .initial x
    | phi b => simp [DefForest.answer] at hsafe
    | definition d => exact absurd hlevel (Nat.not_succ_le_zero _)
  | succ n ih =>
    intro A hlevel x hsafe
    cases A with
    | liveOnEntry => exact .initial x
    | phi b => simp [DefForest.answer] at hsafe
    | definition d =>
      have hparent := (F.forest K flags).level_parent d
      rw [DefForest.answer] at hsafe
      cases hstore : (F.forest K flags).store d with
      | none => simp [hstore] at hsafe
      | some store =>
        obtain ⟨access, safe⟩ := store
        -- only a store whose address is known is in the forest
        obtain ⟨type, value, ptr, hinst⟩ : ∃ type value ptr,
            F.inst d = some (.store type value ptr) := by
          rw [forest] at hstore
          simp only at hstore
          split at hstore
          · next type value ptr hinst => exact ⟨type, value, ptr, hinst⟩
          · cases hstore
        obtain ⟨access', haccess, heq⟩ : ∃ access', F.getMemoryAccess K d = some access' ∧
            (access', flags d) = (access, safe) := by
          rw [forest_store flags hinst] at hstore
          exact Option.map_eq_some_iff.mp hstore
        obtain ⟨rfl, rfl⟩ := Prod.mk.inj heq
        rw [hstore] at hsafe
        simp only at hsafe
        split at hsafe
        · next hcovers => exact .written hinst haccess hcovers (hflags d hsafe type value ptr hinst)
        · next hcovers =>
          refine .kept hinst haccess hcovers (ih _ ?_ x hsafe)
          have hlevel' : (F.forest K flags).level (.definition d) ≤ n + 1 := hlevel
          have : (F.forest K flags).level (K.ssa.definingAccess d) <
            (F.forest K flags).level (.definition d) := hparent
          omega

theorem BytesOf.sound {A : MemoryAccess} {s : SafetyState} (h : BytesOf K A s) :
    F.BytesSound K A s := by
  intro x hx
  obtain ⟨flags, hflags, hanswers⟩ := h
  rw [hanswers.isSafe x] at hx
  exact determined_of_answer hflags _ A le_rfl x hx

/-- The flag of a definition does not matter for the accesses before it. -/
theorem answers_update {flags : ℕ → Bool} {A : MemoryAccess} {s : SafetyState}
    (h : (F.forest K flags).Answers A s) {d : ℕ} (hA : A = K.ssa.definingAccess d) (safe : Bool) :
    (F.forest K (Function.update flags d safe)).Answers A s where
  isSafe x := by
    rw [h.isSafe x]
    have hparent : (F.forest K flags).level A < K.ssa.depth d + 1 :=
      hA ▸ (F.forest K flags).level_parent d
    refine answer_congr (K.ssa.depth d) A (by omega) (fun e he => ?_) x
    rw [Function.update_of_ne]
    rintro rfl
    exact absurd he (lt_irrefl _)
  level_entry x byte hentry := h.level_entry x byte hentry
  level_active := h.level_active

/-- **One definition further down**: the bytes are marked as the answer says, and the answers stay
right. What is done can be undone. -/
theorem enterDefinition_sound {A : MemoryAccess} {s : SafetyState} {values : ValueSafety} {d : ℕ}
    (h : BytesOf K A s) (hvalues : F.ValuesSound K values)
    (hd : d ∈ F.defChildren K A) :
    BytesOf K (.definition d) (F.enterDefinition K A s values d).1 ∧
      s.checkpoint.restore (F.enterDefinition K A s values d).1 = s ∧
      F.ValuesSound K (F.enterDefinition K A s values d).2 := by
  have hparent : A = K.ssa.definingAccess d := (DefForest.mem_definitions.mp hd).2.symm
  obtain ⟨flags, hflags, hanswers⟩ := h
  -- the state is the one of the forest in which the definition has this flag
  have hforest : ∀ safe, (safe = true → ∀ type value ptr, F.inst d = some (.store type value ptr) →
      F.Determined K (.value value)) → ∀ s',
      s' = (F.forest K (Function.update flags d safe)).enterAccess (.definition d) s →
      BytesOf K (.definition d) s' ∧ s.checkpoint.restore s' = s := by
    rintro safe hsafe s' rfl
    refine ⟨⟨Function.update flags d safe, ?_, ?_⟩, DefForest.restore_enterAccess _ _ _⟩
    · intro e he
      by_cases hed : e = d
      · subst hed
        rw [Function.update_self] at he
        exact hsafe he
      · rw [Function.update_of_ne hed] at he
        exact hflags e he
    · exact (answers_update hanswers hparent safe).enterAccess (List.mem_map_of_mem hd)
  have hunknown : (F.forest K (Function.update flags d false)).store d = none →
      BytesOf K (.definition d)
        { s with activeGeneration := .definition d, defaultByteSafety := false } ∧
      s.checkpoint.restore { s with activeGeneration := .definition d, defaultByteSafety := false }
        = s := by
    intro hstore
    refine hforest false (fun hfalse => absurd hfalse Bool.false_ne_true) _ ?_
    rw [DefForest.enterAccess, hstore]
  cases hinst : F.inst d with
  | none =>
    simp only [enterDefinition, hinst]
    have hstore := hunknown (by simp only [forest, hinst])
    exact ⟨hstore.1, hstore.2, hvalues⟩
  | some x =>
    by_cases hx : ∃ type value ptr, x = .store type value ptr
    · obtain ⟨type, value, ptr, rfl⟩ := hx
      cases haccess : F.getMemoryAccess K d with
      | none =>
        simp only [enterDefinition, hinst, haccess]
        have hstore := hunknown (by rw [forest_store _ hinst, haccess, Option.map_none])
        exact ⟨hstore.1, hstore.2, hvalues⟩
      | some access =>
        have hbytes : F.BytesSound K A s := BytesOf.sound ⟨flags, hflags, hanswers⟩
        obtain ⟨hdet, hnext⟩ :=
          storeIsSafe_sound hbytes hvalues d value ptr
        simp only [enterDefinition, hinst, haccess]
        have hstore := hforest _ (fun hsafe type' value' ptr' hinst' => by
          rw [hinst] at hinst'
          cases hinst'
          exact hdet hsafe) _ (by
          rw [DefForest.enterAccess, forest_store _ hinst, haccess, Option.map_some,
            Function.update_self])
        exact ⟨hstore.1, hstore.2, hnext⟩
    · have hother : F.enterDefinition K A s values d =
          ({ s with activeGeneration := .definition d, defaultByteSafety := false }, values) := by
        rw [enterDefinition, hinst]
        cases x with
        | store type value ptr => exact absurd ⟨type, value, ptr, rfl⟩ hx
        | load | call | phi | operation => rfl
      have hstore := hunknown (by
        simp only [forest, hinst]
        cases x with
        | store type value ptr => exact absurd ⟨type, value, ptr, rfl⟩ hx
        | load | call | phi | operation => rfl)
      rw [hother]
      exact ⟨hstore.1, hstore.2, hvalues⟩

end MemFunction

/-! ### The depth of the recursion -/

namespace MemFunction

variable (F : MemFunction) (K : LoadAnalyses F)

/-- How many instructions were not looked at yet. -/
def pending (values : ValueSafety) : ℕ := F.names.countP fun i => (values i).isNone

variable {F K}

theorem countP_update_le (values : ValueSafety) (i : ℕ) (answer : Safety) (l : List ℕ) :
    (l.countP fun j => (Function.update values i (some answer) j).isNone) ≤
      l.countP fun j => (values j).isNone := by
  refine List.countP_mono_left fun j _ hj => ?_
  by_cases hji : j = i
  · subst hji
    simp at hj
  · rwa [Function.update_of_ne hji] at hj

theorem pending_update_le (values : ValueSafety) (i : ℕ) (answer : Safety) :
    F.pending (Function.update values i (some answer)) ≤ F.pending values :=
  countP_update_le values i answer F.names

theorem pending_update_lt {values : ValueSafety} {i : ℕ} (hi : i ∈ F.names) (hnone : values i = none)
    (answer : Safety) : F.pending (Function.update values i (some answer)) < F.pending values := by
  obtain ⟨front, back, hnames⟩ := List.append_of_mem hi
  have hfront := countP_update_le values i answer front
  have hback := countP_update_le values i answer back
  rw [pending, pending, hnames]
  simp only [List.countP_append, List.countP_cons, Function.update_self, Option.isNone_some, hnone,
    Option.isNone_none, Bool.false_eq_true, if_true, if_false]
  omega

/-- Two ways to answer that both answer, and the same, where no more than so many instructions were not
looked at. -/
def AgreeBelow (F : MemFunction) (n : ℕ)
    (isSafe isSafe' : ValueSafety → SsaOperand ℕ → Option (Bool × ValueSafety)) : Prop :=
  ∀ values v, F.pending values ≤ n →
    ∃ r, isSafe values v = some r ∧ isSafe' values v = some r ∧ F.pending r.2 ≤ F.pending values

theorem AgreeBelow.allSafe {n : ℕ}
    {isSafe isSafe' : ValueSafety → SsaOperand ℕ → Option (Bool × ValueSafety)}
    (h : AgreeBelow F n isSafe isSafe') : ∀ (vs : List (SsaOperand ℕ)) (values : ValueSafety),
    F.pending values ≤ n → ∃ r, allSafe isSafe values vs = some r ∧ allSafe isSafe' values vs = some r ∧
      F.pending r.2 ≤ F.pending values
  | [], values, _ => ⟨(true, values), rfl, rfl, le_rfl⟩
  | v :: vs, values, hle => by
    obtain ⟨⟨safe, values'⟩, hv, hv', hpending⟩ := h values v hle
    rw [Vexa.allSafe, Vexa.allSafe, hv, hv']
    cases safe with
    | true =>
      obtain ⟨r, hvs, hvs', hrest⟩ := h.allSafe vs values' (hpending.trans hle)
      exact ⟨r, hvs, hvs', hrest.trans hpending⟩
    | false => exact ⟨(false, values'), rfl, rfl, hpending⟩

theorem AgreeBelow.instIsSafe {n : ℕ}
    {isSafe isSafe' : ValueSafety → SsaOperand ℕ → Option (Bool × ValueSafety)}
    (h : AgreeBelow F n isSafe isSafe') {A : MemoryAccess} {s : SafetyState} {values : ValueSafety}
    (hle : F.pending values ≤ n) (i : ℕ) :
    ∃ r, F.instIsSafe K isSafe A s values i = some r ∧ F.instIsSafe K isSafe' A s values i = some r ∧
      F.pending r.2 ≤ F.pending values := by
  rw [MemFunction.instIsSafe, MemFunction.instIsSafe]
  split
  · exact ⟨_, rfl, rfl, le_rfl⟩
  · cases F.inst i with
    | none => exact ⟨_, rfl, rfl, le_rfl⟩
    | some x =>
      cases x with
      | phi | store | call => exact ⟨_, rfl, rfl, le_rfl⟩
      | operation type args compute => exact h.allSafe args values hle
      | load type ptr =>
        cases F.getMemoryAccess K i with
        | none => exact ⟨_, rfl, rfl, le_rfl⟩
        | some access =>
          obtain ⟨⟨safe, values'⟩, hptr, hptr', hpending⟩ := h values ptr hle
          simp only [hptr, hptr']
          split
          · cases safe with
            | true => exact ⟨_, rfl, rfl, hpending⟩
            | false => exact ⟨_, rfl, rfl, hpending⟩
          · exact ⟨_, rfl, rfl, le_rfl⟩

/-- **The recursion ends**: a value is looked into once, as it is marked before its operands are asked
about. Every depth greater than the number of instructions not looked at yet gives an answer, and the
same one. -/
theorem isSafeValue?_fuel (A : MemoryAccess) (s : SafetyState) (n : ℕ) :
    ∀ (m : ℕ) (values : ValueSafety) (v : SsaOperand ℕ), F.pending values < n → F.pending values < m →
      ∃ r, F.isSafeValue? K A s n values v = some r ∧ F.isSafeValue? K A s m values v = some r ∧
        F.pending r.2 ≤ F.pending values := by
  induction n with
  | zero => exact fun m values v h => absurd h (Nat.not_lt_zero _)
  | succ n ih =>
    intro m values v hn hm
    obtain ⟨m, rfl⟩ := Nat.exists_eq_succ_of_ne_zero (Nat.ne_zero_of_lt hm)
    cases v with
    | int | constant | undef | argument => exact ⟨_, rfl, rfl, le_rfl⟩
    | inst i =>
      rw [isSafeValue?, isSafeValue?]
      cases hknown : values i with
      | some answer => exact ⟨_, rfl, rfl, le_rfl⟩
      | none =>
        obtain ⟨r, hr, hr', hpending⟩ : ∃ r, F.instIsSafe K (F.isSafeValue? K A s n) A s
              (Function.update values i (some .visiting)) i = some r ∧
            F.instIsSafe K (F.isSafeValue? K A s m) A s
              (Function.update values i (some .visiting)) i = some r ∧
            F.pending r.2 ≤ F.pending (Function.update values i (some .visiting)) := by
          by_cases hi : i ∈ F.names
          · have hlt := pending_update_lt hi hknown .visiting
            refine AgreeBelow.instIsSafe (fun values' v hle => ih m values' v ?_ ?_) le_rfl i
            · omega
            · omega
          · -- a name without an instruction
            have hnone : F.inst i = none := by
              rw [Option.eq_none_iff_forall_ne_some]
              exact fun x hx => hi (F.mem_order i x hx)
            rw [MemFunction.instIsSafe, MemFunction.instIsSafe, hnone]
            split
            · exact ⟨_, rfl, rfl, le_rfl⟩
            · exact ⟨_, rfl, rfl, le_rfl⟩
        simp only [hr, hr']
        refine ⟨_, rfl, rfl, (pending_update_le _ i _).trans ?_⟩
        exact hpending.trans (pending_update_le values i .visiting)

/-- At `maxDepth` the recursion has ended, whatever the answers known, and so at every greater depth. -/
theorem isSafeValue_maxDepth (F : MemFunction) (K : LoadAnalyses F) (A : MemoryAccess) (s : SafetyState)
    (values : ValueSafety) (v : SsaOperand ℕ) (n : ℕ) :
    F.isSafeValue? K A s (F.maxDepth + n) values v = some (F.isSafeValue K A s values v) := by
  have hpending : F.pending values < F.maxDepth := Nat.lt_succ_of_le List.countP_le_length
  obtain ⟨r, hr, hmax, -⟩ := isSafeValue?_fuel (K := K) A s _ F.maxDepth values v
    (Nat.lt_add_right n hpending) hpending
  rw [hr, isSafeValue, hmax, Option.getD_some]

end MemFunction

/-! ### The whole traversal -/

namespace MemoryTraversal

open MemFunction

variable {F : MemFunction} (K : LoadAnalyses F)

/-- What holds before every iteration. -/
structure Inv (t : MemoryTraversal) : Prop where
  roots : ∀ root ∈ t.roots, ∀ d, root ≠ .definition d
  stack : StackSound K t.stack t.safety
  values : F.ValuesSound K t.values

variable {K}

theorem roots_ne_definition (flags : ℕ → Bool) :
    ∀ root ∈ (F.forest K flags).roots, ∀ d, root ≠ .definition d := by
  rintro root hroot d rfl
  rcases DefForest.mem_roots.mp hroot with hentry | ⟨⟨b, hphi⟩, -⟩
  · cases hentry
  · cases hphi

theorem inv_start : (start K).Inv K where
  roots := roots_ne_definition _
  stack := trivial
  values i hi := absurd hi (by simp [start])

/-- How far a frame got does not matter for its bytes. -/
theorem stackSound_visited {frame : Frame MemoryAccess Checkpoint}
    {rest : List (Frame MemoryAccess Checkpoint)} {s : SafetyState} (k : ℕ)
    (h : StackSound K (frame :: rest) s) :
    StackSound K (frame.visited k :: rest) s := h

/-- **One iteration keeps the answers right.** -/
theorem Inv.step {t t' : MemoryTraversal} (h : t.Inv K)
    (hstep : t.step K = some t') : t'.Inv K := by
  obtain ⟨roots, stack, s, values⟩ := t
  obtain ⟨hroots, hstack, hvalues⟩ := h
  cases stack with
  | nil =>
    cases roots with
    | nil => exact absurd hstep (by simp [MemoryTraversal.step])
    | cons root roots =>
      obtain rfl := Option.some.inj hstep
      refine ⟨fun r hr => hroots r (List.mem_cons_of_mem _ hr), ⟨?_, trivial⟩, hvalues⟩
      have hnone : Honest K fun _ => false := fun d hd => absurd hd Bool.false_ne_true
      exact ⟨fun _ => false, hnone, DefForest.answers_start (hroots root (List.mem_cons_self ..))⟩
  | cons frame rest =>
    have hvisit : F.ValuesSound K
        (if frame.entered then values else F.visitLoads K frame.node s values) := by
      split
      · exact hvalues
      · exact visitLoads_sound hstack.1.sound hvalues
    rw [MemoryTraversal.step] at hstep
    simp only at hstep
    split at hstep
    · next d hchild =>
      obtain rfl := Option.some.inj hstep
      obtain ⟨hbytes, hrestore, hnext⟩ := enterDefinition_sound hstack.1 hvisit
        (List.mem_of_getElem? hchild)
      refine ⟨hroots, ⟨hbytes, ?_⟩, hnext⟩
      have hback : (Frame.new (R := Checkpoint) (MemoryAccess.definition d) s.checkpoint).saved.restore
          (F.enterDefinition K frame.node s
            (if frame.entered then values else F.visitLoads K frame.node s values)
            d).1 = s := hrestore
      rw [hback]
      exact stackSound_visited _ hstack
    · obtain rfl := Option.some.inj hstep
      exact ⟨hroots, hstack.2, hvisit⟩

theorem Inv.traverse (n : ℕ) : ∀ {t : MemoryTraversal} {values : ValueSafety}, t.Inv K →
    traverse K n t = some values → F.ValuesSound K values := by
  induction n with
  | zero => exact fun _ h => absurd h (by simp [MemoryTraversal.traverse])
  | succ n ih =>
    intro t values h hvalues
    rw [MemoryTraversal.traverse] at hvalues
    cases hstep : t.step K with
    | none =>
      rw [hstep] at hvalues
      exact Option.some.inj hvalues ▸ h.values
    | some t' =>
      rw [hstep] at hvalues
      exact ih (h.step hstep) hvalues

/-- **Whatever the traversal finds safe is determined**, in whatever order it comes to it. -/
theorem determined_of_traverse {n : ℕ} {values : ValueSafety}
    (h : traverse K n (start K) = some values) {i : ℕ}
    (hi : values i = some .safe) : F.Determined K (.value (.inst i)) :=
  inv_start.traverse n h i hi

/-! ### The traversal ends -/

/-- The stack without what was saved. -/
def shape (stack : List (Frame MemoryAccess Checkpoint)) : List (Frame MemoryAccess Unit) :=
  stack.map fun frame => ⟨frame.node, frame.nextChild, (), frame.entered⟩

variable (K) in
/-- Some iterations. -/
def Reaches : MemoryTraversal → MemoryTraversal → Prop :=
  ReflTransGen fun t t' => t.step K = some t'

variable (K) in
/-- The walk of the stack alone. -/
def stackWalk : Walk MemoryAccess Unit Unit where
  children A := (F.defChildren K A).map .definition
  enter _ s := s
  save s := s
  restore _ s := s
  restore_enter _ _ := rfl

theorem stackWalk_wellFounded :
    WellFounded fun B A => B ∈ (stackWalk K).children A :=
  DefForest.walk_wellFounded (F := F.forest K fun _ => false)

/-- An iteration with a frame on the stack is a step of the walk. -/
theorem step_shape {t : MemoryTraversal} {c : WalkState MemoryAccess Unit Unit}
    (h : (stackWalk K).step ⟨shape t.stack, ()⟩ = some c) :
    ∃ t', t.step K = some t' ∧ t'.roots = t.roots ∧ shape t'.stack = c.stack := by
  obtain ⟨roots, stack, s, values⟩ := t
  cases stack with
  | nil => exact absurd h (by simp [shape, Walk.step])
  | cons frame rest =>
    have hchildren : (stackWalk K).children frame.node =
        (F.defChildren K frame.node).map .definition := rfl
    rw [MemoryTraversal.step]
    simp only
    cases hchild : (F.defChildren K frame.node)[frame.nextChild]? with
    | some d =>
      refine ⟨_, rfl, rfl, ?_⟩
      simp only [Walk.step, shape, List.map_cons, hchildren, List.getElem?_map, hchild,
        Option.map_some, Option.some.injEq] at h
      rw [← h]
      rfl
    | none =>
      refine ⟨_, rfl, rfl, ?_⟩
      simp only [Walk.step, shape, List.map_cons, hchildren, List.getElem?_map, hchild,
        Option.map_none, Option.some.injEq] at h
      rw [← h]
      rfl

/-- What the stack does, the traversal does. -/
theorem reaches_shape {c d : WalkState MemoryAccess Unit Unit}
    (h : (stackWalk K).Reaches c d) : ∀ {t : MemoryTraversal}, shape t.stack = c.stack →
    ∃ t', Reaches K t t' ∧ t'.roots = t.roots ∧ shape t'.stack = d.stack := by
  induction h with
  | refl => exact fun hshape => ⟨_, .refl, rfl, hshape⟩
  | tail _ hstep ih =>
    intro t hshape
    obtain ⟨t₁, hreach, hroots, hstack⟩ := ih hshape
    rename_i c₁ d₁ _
    have hstep' : (stackWalk K).step ⟨shape t₁.stack, ()⟩ = some d₁ := hstack ▸ hstep
    obtain ⟨t₂, hnext, hroots', hstack'⟩ := step_shape hstep'
    exact ⟨t₂, hreach.tail hnext, hroots'.trans hroots, hstack'⟩

/-- The tree below a root is left again. -/
theorem leaves_root (root : MemoryAccess) (roots : List MemoryAccess) (values : ValueSafety) :
    ∃ t, Reaches K
      ⟨roots, [Frame.new root (SafetyState.start root).checkpoint], SafetyState.start root, values⟩ t ∧
      t.roots = roots ∧ t.stack = [] := by
  have hleft := (Walk.leaves (stackWalk_wellFounded (K := K)) root
    (Frame.new root ()) [] () rfl (Nat.zero_le _)).reaches
  obtain ⟨t, hreach, hroots, hstack⟩ := reaches_shape hleft
    (t := ⟨roots, [Frame.new root (SafetyState.start root).checkpoint], SafetyState.start root,
      values⟩) rfl
  exact ⟨t, hreach, hroots, List.map_eq_nil_iff.mp hstack⟩

/-- No root is left in the end. -/
theorem leaves_roots (roots : List MemoryAccess) : ∀ (s : SafetyState) (values : ValueSafety), ∃ t,
    Reaches K ⟨roots, [], s, values⟩ t ∧ t.step K = none := by
  induction roots with
  | nil => exact fun s values => ⟨_, .refl, rfl⟩
  | cons root roots ih =>
    intro s values
    obtain ⟨⟨roots', stack, s', values'⟩, hleft, hroots, hstack⟩ :=
      leaves_root (K := K) root roots values
    obtain rfl : roots' = roots := hroots
    obtain rfl : stack = [] := hstack
    obtain ⟨t, hreach, hend⟩ := ih s' values'
    exact ⟨t, .head rfl (hleft.trans hreach), hend⟩

theorem traverse_of_reaches {t t' : MemoryTraversal} (h : Reaches K t t')
    (hend : t'.step K = none) :
    ∃ n, traverse K n t = some t'.values := by
  induction h using ReflTransGen.head_induction_on with
  | refl => exact ⟨1, by rw [traverse, hend]⟩
  | head hstep _ ih =>
    obtain ⟨n, hn⟩ := ih
    exact ⟨n + 1, by rw [traverse, hstep]; exact hn⟩

variable (K) in
/-- **The traversal ends.** -/
theorem exists_traverse : ∃ n values,
    traverse K n (start K) = some values := by
  obtain ⟨t, hreach, hend⟩ := leaves_roots (K := K) (start K).roots (start K).safety (start K).values
  obtain ⟨n, hn⟩ := traverse_of_reaches hreach hend
  exact ⟨n, t.values, hn⟩

end MemoryTraversal

end Vexa
