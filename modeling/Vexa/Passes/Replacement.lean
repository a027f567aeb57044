import Vexa.Passes.MemoryFunction

/-!
# Replacing operands and erasing instructions

Two things a pass does with instructions it knows the values of: their uses are replaced by operands with
these values, and when nothing uses them any more they are erased. Neither is seen in the runs of the
function, if the operands are right and what is erased only gives a value to its own name.

## What is read

A run that reads a name without a value stops, and after the replacement it might not. `Readable` says
that this does not happen, as LLVM has every instruction dominate its uses.

## Main definitions

* `MemFunction.mapUses`, `MemFunction.replaceAllUses`, `MemFunction.eraseDeadInstructions` — what is done
  to the function
* `MemPoint.Without`, `SameRuns` — the same runs, but for the names that were erased

## Main results

* `runs_mapUses_iff`, `runs_replaceAllUses_iff` — a function with its uses replaced has the runs it had
* `sameRuns_eraseDeadInstructions` — so has one from which unused instructions were erased
-/

namespace Vexa

open Relation

/-! ### Replacing and erasing -/

def MemInst.mapOperands (f : SsaOperand ℕ → SsaOperand ℕ) : MemInst → MemInst
  | load type ptr => load type (f ptr)
  | store type value ptr => store type (f value) (f ptr)
  | call type args writes => call type (args.map f) writes
  | phi type incoming => phi type (incoming.map fun r => (r.1, f r.2))
  | operation type args compute => operation type (args.map f) compute

def MemTerminator.mapOperands (f : SsaOperand ℕ → SsaOperand ℕ) : MemTerminator → MemTerminator
  | switch value cases default => switch (f value) cases default
  | ret => ret
  | unreachable => unreachable

theorem MemTerminator.successors_mapOperands (f : SsaOperand ℕ → SsaOperand ℕ) (t : MemTerminator) :
    (t.mapOperands f).successors = t.successors := by cases t <;> rfl

theorem MemTerminator.operands_mapOperands (f : SsaOperand ℕ → SsaOperand ℕ) (t : MemTerminator) :
    (t.mapOperands f).operands = t.operands.map f := by cases t <;> rfl

theorem MemInst.isPhi_mapOperands (f : SsaOperand ℕ → SsaOperand ℕ) (x : MemInst) :
    (x.mapOperands f).isPhi = x.isPhi := by cases x <;> rfl

theorem MemInst.operands_mapOperands (f : SsaOperand ℕ → SsaOperand ℕ) (x : MemInst) :
    (x.mapOperands f).operands = x.operands.map f := by
  cases x with
  | phi type incoming => simp [mapOperands, operands, Function.comp_def]
  | load | store | call | operation => rfl

theorem MemInst.access_mapOperands {f : SsaOperand ℕ → SsaOperand ℕ} {x : MemInst}
    {ptr : SsaOperand ℕ} {type : AccessType} (h : (x.mapOperands f).access? = some (ptr, type)) :
    ∃ ptr', x.access? = some (ptr', type) := by
  cases x with
  | load | store =>
    cases h
    exact ⟨_, rfl⟩
  | call | phi | operation => cases h

namespace MemFunction

variable (F : MemFunction)

/-- Every operand replaced by another one. -/
def mapUses (f : SsaOperand ℕ → SsaOperand ℕ) : MemFunction where
  order := F.order
  entry := F.entry
  phis := F.phis
  insts := F.insts
  inst i := (F.inst i).map (MemInst.mapOperands f)
  parent := F.parent
  terminator b := (F.terminator b).mapOperands f
  entry_mem := F.entry_mem
  closed b hb c hc := F.closed b hb c (MemTerminator.successors_mapOperands _ _ ▸ hc)
  phi_of_mem b i hi := by
    obtain ⟨type, incoming, hinst⟩ := F.phi_of_mem b i hi
    exact ⟨type, _, by rw [hinst]; rfl⟩
  inst_of_mem b i hi := by
    obtain ⟨x, hx, hphi⟩ := F.inst_of_mem b i hi
    exact ⟨_, by rw [hx]; rfl, MemInst.isPhi_mapOperands _ x ▸ hphi⟩
  mem_order i x h := by
    obtain ⟨y, hy, -⟩ := Option.map_eq_some_iff.mp h
    exact F.mem_order i y hy
  bits_le i x ptr type h haccess := by
    obtain ⟨y, hy, rfl⟩ := Option.map_eq_some_iff.mp h
    obtain ⟨ptr', hptr'⟩ := MemInst.access_mapOperands haccess
    exact F.bits_le i y ptr' type hy hptr'

/-- `replaceAllUsesWith` for the instructions of a log, each by its constant. -/
def replaceAllUses (log : List (ℕ × ConstantInt)) : MemFunction := F.mapUses (substitute log)

/-- `eraseFromParent`. -/
def eraseFromParent (i : ℕ) : MemFunction where
  order := F.order
  entry := F.entry
  phis b := (F.phis b).filter fun j => j ≠ i
  insts b := (F.insts b).filter fun j => j ≠ i
  inst j := if j = i then none else F.inst j
  parent := F.parent
  terminator := F.terminator
  entry_mem := F.entry_mem
  closed := F.closed
  phi_of_mem b j hj := by
    obtain ⟨hmem, hne⟩ := List.mem_filter.mp hj
    rw [if_neg (of_decide_eq_true hne)]
    exact F.phi_of_mem b j hmem
  inst_of_mem b j hj := by
    obtain ⟨hmem, hne⟩ := List.mem_filter.mp hj
    rw [if_neg (of_decide_eq_true hne)]
    exact F.inst_of_mem b j hmem
  mem_order j x h := by
    split at h
    · cases h
    · next hne =>
      obtain ⟨b, hb, hj⟩ := List.mem_flatMap.mp (F.mem_order j x h)
      refine List.mem_flatMap.mpr ⟨b, hb, ?_⟩
      rw [← List.filter_append]
      exact List.mem_filter.mpr ⟨hj, decide_eq_true hne⟩
  bits_le j x ptr type h := by
    split at h
    · cases h
    · exact F.bits_le j x ptr type h

/-- `use_empty`. -/
def useEmpty (i : ℕ) : Bool :=
  (F.names.all fun j => (F.inst j).all fun x => x.operands.all fun v => v ≠ .inst i) &&
    F.order.all fun b => (F.terminator b).operands.all fun v => v ≠ .inst i

/-- `erase_dead_instructions`, the last one first. -/
def eraseDeadInstructions (instructions : List ℕ) : MemFunction :=
  instructions.foldr (fun i G => if G.useEmpty i then G.eraseFromParent i else G) F

end MemFunction

/-! ### Runs after a replacement -/

/-- What is read next has a value: the operands of the instruction or of the terminator, and those of the
phis of the block that is entered. LLVM has an instruction dominate its uses. -/
structure MemFunction.Readable (F : MemFunction) (M : MemMachine) (p : MemPoint) : Prop where
  inst : ∀ i rest x, p.rest = i :: rest → F.inst i = some x → ∀ v ∈ x.operands,
    (M.eval p.state.env v).isSome = true
  terminator : p.rest = [] → ∀ v ∈ (F.terminator p.block).operands, (M.eval p.state.env v).isSome = true
  phis : p.rest = [] → ∀ c, target M p.state.env (F.terminator p.block) = some c → ∀ i ∈ F.phis c,
    (F.incoming M p.state.env p.block i).isSome = true

/-- What is read next. -/
inductive MemFunction.Reads (F : MemFunction) (M : MemMachine) (p : MemPoint) (v : SsaOperand ℕ) : Prop
  | inst {i : ℕ} {rest : List ℕ} {x : MemInst} (hrest : p.rest = i :: rest)
      (hinst : F.inst i = some x) (hv : v ∈ x.operands)
  | terminator (hrest : p.rest = []) (hv : v ∈ (F.terminator p.block).operands)
  | phi {c : BlockId} {i : ℕ} {type : Option ℕ} {incoming : List (BlockId × SsaOperand ℕ)}
      (hrest : p.rest = []) (htarget : target M p.state.env (F.terminator p.block) = some c)
      (hi : i ∈ F.phis c) (hinst : F.inst i = some (.phi type incoming))
      (hlookup : incoming.lookup p.block = some v)

/-- The names of a log have their constants, if they have a value. -/
def LogHolds (log : List (ℕ × ConstantInt)) (env : ℕ → Option ℕ) : Prop :=
  ∀ r ∈ log, ∀ n, env r.1 = some n → n = r.2.value % 2 ^ r.2.width

namespace MemFunction

variable {F : MemFunction} {M : MemMachine} {log : List (ℕ × ConstantInt)} {env : ℕ → Option ℕ}

theorem Readable.reads {p : MemPoint} (h : F.Readable M p) {v : SsaOperand ℕ} (hv : F.Reads M p v) :
    (M.eval p.state.env v).isSome = true := by
  cases hv with
  | inst hrest hinst hv => exact h.inst _ _ _ hrest hinst v hv
  | terminator hrest hv => exact h.terminator hrest v hv
  | phi hrest htarget hi hinst hlookup =>
    have hsome := h.phis hrest _ htarget _ hi
    simpa only [incoming, hinst, hlookup, Option.bind_some] using hsome

section Uses

variable {f : SsaOperand ℕ → SsaOperand ℕ}

theorem mapM_map_eq {args : List (SsaOperand ℕ)}
    (h : ∀ v ∈ args, M.eval env (f v) = M.eval env v) :
    (args.map f).mapM (M.eval env) = args.mapM (M.eval env) := by
  induction args with
  | nil => rfl
  | cons v args ih =>
    rw [List.map_cons, List.mapM_cons, List.mapM_cons, h v (by simp),
      ih fun w hw => h w (List.mem_cons_of_mem _ hw)]

theorem mapUses_inst (F : MemFunction) (f : SsaOperand ℕ → SsaOperand ℕ) (i : ℕ) :
    (F.mapUses f).inst i = (F.inst i).map (MemInst.mapOperands f) := rfl

/-- **An instruction does what it did**, if its operands have the values they had. -/
theorem effect_mapUses_iff {i : ℕ} {s s' : MemState}
    (hread : ∀ x, F.inst i = some x → ∀ v ∈ x.operands, M.eval s.env (f v) = M.eval s.env v) :
    (F.mapUses f).Effect M i s s' ↔ F.Effect M i s s' := by
  cases hinst : F.inst i with
  | none =>
    have hnone : (F.mapUses f).inst i = none := by rw [mapUses_inst, hinst]; rfl
    exact iff_of_false (not_effect (by simp [hnone])) (not_effect (by simp [hinst]))
  | some x =>
    have hinst' : (F.mapUses f).inst i = some (x.mapOperands f) := by
      rw [mapUses_inst, hinst, Option.map_some]
    have hread' := hread x hinst
    cases x with
    | load type ptr =>
      have hptr := hread' ptr (by simp [MemInst.operands])
      rw [effect_load_iff hinst, effect_load_iff hinst', hptr]
    | store type value ptr =>
      have hvalue := hread' value (by simp [MemInst.operands])
      have hptr := hread' ptr (by simp [MemInst.operands])
      rw [effect_store_iff hinst, effect_store_iff hinst', hvalue, hptr]
    | call type args writes =>
      have hargs := mapM_map_eq (show ∀ v ∈ args, _ from hread')
      rw [effect_call_iff hinst, effect_call_iff hinst', hargs]
    | operation type args compute =>
      have hargs := mapM_map_eq (show ∀ v ∈ args, _ from hread')
      rw [effect_operation_iff hinst, effect_operation_iff hinst', hargs]
    | phi type incoming =>
      refine iff_of_false (not_effect ?_) (not_effect ?_)
      · simp [hinst', MemInst.mapOperands, MemInst.isPhi]
      · simp [hinst, MemInst.isPhi]

theorem target_mapOperands {t : MemTerminator}
    (hread : ∀ v ∈ t.operands, M.eval env (f v) = M.eval env v) :
    target M env (t.mapOperands f) = target M env t := by
  cases t with
  | switch value cases default =>
    rw [MemTerminator.mapOperands, target, target, hread value (by simp [MemTerminator.operands])]
  | ret => rfl
  | unreachable => rfl

/-- The operand of a phi for an edge. -/
theorem lookup_mapOperands (f : SsaOperand ℕ → SsaOperand ℕ) (b : BlockId) :
    ∀ incoming : List (BlockId × SsaOperand ℕ),
      (incoming.map fun r => (r.1, f r.2)).lookup b = (incoming.lookup b).map f
  | [] => rfl
  | (c, v) :: incoming => by
    rw [List.map_cons, List.lookup_cons, List.lookup_cons, lookup_mapOperands f b incoming]
    cases b == c <;> rfl

theorem incoming_mapUses {b : BlockId} {i : ℕ}
    (hread : ∀ type incoming v, F.inst i = some (.phi type incoming) → incoming.lookup b = some v →
      M.eval env (f v) = M.eval env v) :
    (F.mapUses f).incoming M env b i = F.incoming M env b i := by
  rw [incoming, incoming, mapUses_inst]
  cases hinst : F.inst i with
  | none => rfl
  | some x =>
    cases x with
    | load | store | call | operation => rfl
    | phi type incoming =>
      simp only [Option.map_some, MemInst.mapOperands, lookup_mapOperands]
      cases hlookup : incoming.lookup b with
      | none => rfl
      | some v => exact hread type incoming v hinst hlookup

/-- The state behind the phis is the state it was. -/
theorem enter_mapUses {p : MemPoint}
    (hread : ∀ v, F.Reads M p v → M.eval p.state.env (f v) = M.eval p.state.env v)
    (hrest : p.rest = []) {c : BlockId} (hc : target M p.state.env (F.terminator p.block) = some c) :
    (F.mapUses f).enter M p.block c p.state = F.enter M p.block c p.state := by
  rw [enter, enter]
  congr 1
  funext i
  have hphis : (F.mapUses f).phis c = F.phis c := rfl
  rw [hphis]
  split
  · next hi =>
    exact incoming_mapUses fun type incoming v hinst hlookup =>
      hread v (.phi hrest hc hi hinst hlookup)
  · rfl

/-- **One step is the step it was.** -/
theorem step_mapUses_iff {p q : MemPoint}
    (hread : ∀ v, F.Reads M p v → M.eval p.state.env (f v) = M.eval p.state.env v) :
    (F.mapUses f).Step M p q ↔ F.Step M p q := by
  obtain ⟨b, rest, s⟩ := p
  cases rest with
  | cons i rest =>
    have heffect : ∀ s', (F.mapUses f).Effect M i s s' ↔ F.Effect M i s s' := fun s' =>
      effect_mapUses_iff fun x hx v hv => hread v (.inst rfl hx hv)
    constructor
    · intro h
      cases h with
      | inst h => exact .inst ((heffect _).mp h)
    · intro h
      cases h with
      | inst h => exact .inst ((heffect _).mpr h)
  | nil =>
    have htarget : target M s.env ((F.mapUses f).terminator b) = target M s.env (F.terminator b) :=
      target_mapOperands fun v hv => hread v (.terminator rfl hv)
    have henter : ∀ c, target M s.env (F.terminator b) = some c →
        (F.mapUses f).enter M b c s = F.enter M b c s := fun c => enter_mapUses hread rfl
    constructor
    · intro h
      cases h with
      | edge hc =>
        rw [htarget] at hc
        rw [henter _ hc]
        exact .edge hc
    · intro h
      cases h with
      | edge hc =>
        rw [← henter _ hc]
        exact .edge (htarget.trans hc)

/-- **The runs are the runs they were**, if what is read always has the value it had. -/
theorem runs_mapUses_iff {mem : PageId → ByteMemory.Memory 64}
    (hread : ∀ p, F.Runs M mem p → ∀ v, F.Reads M p v → M.eval p.state.env (f v) = M.eval p.state.env v)
    (p : MemPoint) : (F.mapUses f).Runs M mem p ↔ F.Runs M mem p := by
  constructor
  · intro h
    induction h with
    | refl => exact .refl
    | tail _ hstep ih => exact ReflTransGen.tail ih ((step_mapUses_iff (hread _ ih)).mp hstep)
  · intro h
    induction h with
    | refl => exact .refl
    | tail hrun hstep ih => exact ReflTransGen.tail ih ((step_mapUses_iff (hread _ hrun)).mpr hstep)

/-- What is read still has a value. -/
theorem readable_mapUses {p : MemPoint} (h : F.Readable M p)
    (hread : ∀ v, F.Reads M p v → M.eval p.state.env (f v) = M.eval p.state.env v) :
    (F.mapUses f).Readable M p where
  inst i rest x hrest hinst v hv := by
    obtain ⟨y, hy, rfl⟩ := Option.map_eq_some_iff.mp hinst
    rw [MemInst.operands_mapOperands] at hv
    obtain ⟨w, hw, rfl⟩ := List.mem_map.mp hv
    rw [hread w (.inst hrest hy hw)]
    exact h.inst i rest y hrest hy w hw
  terminator hrest v hv := by
    change v ∈ ((F.terminator p.block).mapOperands f).operands at hv
    rw [MemTerminator.operands_mapOperands] at hv
    obtain ⟨w, hw, rfl⟩ := List.mem_map.mp hv
    rw [hread w (.terminator hrest hw)]
    exact h.terminator hrest w hw
  phis hrest c hc i hi := by
    have hc' : target M p.state.env (F.terminator p.block) = some c := by
      rw [← target_mapOperands fun v hv => hread v (.terminator hrest hv)]
      exact hc
    rw [incoming_mapUses fun type incoming v hinst hlookup => hread v (.phi hrest hc' hi hinst hlookup)]
    exact h.phis hrest c hc' i hi

end Uses

/-! ### Runs after uses were replaced by constants -/

/-- **An operand has the value it had.** -/
theorem eval_substitute (hlog : LogHolds log env) {v : SsaOperand ℕ}
    (h : (M.eval env v).isSome = true) : M.eval env (substitute log v) = M.eval env v := by
  obtain ⟨n, hn⟩ := Option.isSome_iff_exists.mp h
  by_cases hinst : ∃ i, v = .inst i
  · obtain ⟨i, rfl⟩ := hinst
    rcases substitute_inst i log with ⟨-, hi⟩ | ⟨c, hc, hi⟩
    · rw [hi]
    · rw [hi, hn, hlog (i, c) hc n hn]
      rfl
  · rw [substitute_of_ne fun i hi => hinst ⟨i, hi⟩]

theorem replaceAllUses_inst (F : MemFunction) (log : List (ℕ × ConstantInt)) (i : ℕ) :
    (F.replaceAllUses log).inst i = (F.inst i).map (MemInst.mapOperands (substitute log)) := rfl

/-- **The runs are the runs they were**, if the constants are the values on every path. -/
theorem runs_replaceAllUses_iff {mem : PageId → ByteMemory.Memory 64}
    (hread : ∀ p, F.Runs M mem p → F.Readable M p)
    (hlog : ∀ p, F.Runs M mem p → LogHolds log p.state.env) (p : MemPoint) :
    (F.replaceAllUses log).Runs M mem p ↔ F.Runs M mem p :=
  runs_mapUses_iff (fun p hp _ hv => eval_substitute (hlog p hp) ((hread p hp).reads hv)) p

theorem readable_replaceAllUses {p : MemPoint} (hread : F.Readable M p)
    (hlog : LogHolds log p.state.env) : (F.replaceAllUses log).Readable M p :=
  readable_mapUses hread fun _ hv => eval_substitute hlog (hread.reads hv)

end MemFunction

/-- Two replacements are one. -/
theorem MemFunction.replaceAllUses_append (F : MemFunction) (log log' : List (ℕ × ConstantInt)) (i : ℕ) :
    ((F.replaceAllUses log).replaceAllUses log').inst i = (F.replaceAllUses (log ++ log')).inst i := by
  rw [replaceAllUses_inst, replaceAllUses_inst, replaceAllUses_inst, Option.map_map]
  congr 1
  funext x
  cases x <;> simp [MemInst.mapOperands, substitute_append, Function.comp_def]

/-- The runs after two replacements. -/
theorem MemFunction.runs_replaceAllUses {F : MemFunction} {M : MemMachine}
    {mem : PageId → ByteMemory.Memory 64} {log log' : List (ℕ × ConstantInt)}
    (hread : ∀ p, F.Runs M mem p → F.Readable M p)
    (hlog : ∀ p, F.Runs M mem p → LogHolds (log ++ log') p.state.env) :
    (∀ p, ((F.replaceAllUses log).replaceAllUses log').Runs M mem p ↔ F.Runs M mem p) ∧
      ∀ p, ((F.replaceAllUses log).replaceAllUses log').Runs M mem p →
        ((F.replaceAllUses log).replaceAllUses log').Readable M p := by
  have hfirst : ∀ p, F.Runs M mem p → LogHolds log p.state.env :=
    fun p hp r hr => hlog p hp r (List.mem_append_left _ hr)
  have hsecond : ∀ p, F.Runs M mem p → LogHolds log' p.state.env :=
    fun p hp r hr => hlog p hp r (List.mem_append_right _ hr)
  have hruns := runs_replaceAllUses_iff hread hfirst
  have hruns' := runs_replaceAllUses_iff (F := F.replaceAllUses log)
    (fun p hp => readable_replaceAllUses (hread p ((hruns p).mp hp)) (hfirst p ((hruns p).mp hp)))
    fun p hp => hsecond p ((hruns p).mp hp)
  refine ⟨fun p => (hruns' p).trans (hruns p), fun p hp => ?_⟩
  have hp' := (hruns p).mp ((hruns' p).mp hp)
  exact readable_replaceAllUses (readable_replaceAllUses (hread p hp') (hfirst p hp')) (hsecond p hp')

/-! ### Runs after an erasure -/

/-- The same point without some names. -/
structure MemPoint.Without (dead : List ℕ) (p q : MemPoint) : Prop where
  block : q.block = p.block
  rest : q.rest = p.rest.filter fun j => j ∉ dead
  mem : q.state.mem = p.state.mem
  env : ∀ j ∉ dead, q.state.env j = p.state.env j

/-- The runs of two functions, of which the second lacks some names. -/
structure SameRuns (M : MemMachine) (mem : PageId → ByteMemory.Memory 64) (dead : List ℕ)
    (F G : MemFunction) : Prop where
  forth : ∀ p, F.Runs M mem p → ∃ q, G.Runs M mem q ∧ p.Without dead q
  back : ∀ q, G.Runs M mem q → ∃ p, F.Runs M mem p ∧ p.Without dead q

/-- An instruction that only gives a value to its name. -/
def MemInst.isComputation : MemInst → Bool
  | load .. | operation .. => true
  | store .. | call .. | phi .. => false

theorem MemInst.isComputation_mapOperands (f : SsaOperand ℕ → SsaOperand ℕ) (x : MemInst) :
    (x.mapOperands f).isComputation = x.isComputation := by cases x <;> rfl

theorem MemPoint.Without.trans {dead dead' : List ℕ} {p q r : MemPoint} (h : p.Without dead q)
    (h' : q.Without dead' r) : p.Without (dead ++ dead') r where
  block := h'.block.trans h.block
  rest := by
    rw [h'.rest, h.rest, List.filter_filter]
    refine List.filter_congr fun j _ => ?_
    simp [Bool.and_comm]
  mem := h'.mem.trans h.mem
  env j hj := by
    rw [List.mem_append, not_or] at hj
    exact (h'.env j hj.2).trans (h.env j hj.1)

theorem MemPoint.Without.refl (p : MemPoint) : p.Without [] p where
  block := rfl
  rest := by simp
  mem := rfl
  env _ _ := rfl

theorem SameRuns.refl {M : MemMachine} {mem : PageId → ByteMemory.Memory 64} (F : MemFunction) :
    SameRuns M mem [] F F where
  forth p h := ⟨p, h, .refl p⟩
  back p h := ⟨p, h, .refl p⟩

theorem SameRuns.trans {M : MemMachine} {mem : PageId → ByteMemory.Memory 64} {dead dead' : List ℕ}
    {F G G' : MemFunction} (h : SameRuns M mem dead F G) (h' : SameRuns M mem dead' G G') :
    SameRuns M mem (dead ++ dead') F G' where
  forth p hp := by
    obtain ⟨q, hq, hpq⟩ := h.forth p hp
    obtain ⟨r, hr, hqr⟩ := h'.forth q hq
    exact ⟨r, hr, hpq.trans hqr⟩
  back r hr := by
    obtain ⟨q, hq, hqr⟩ := h'.back r hr
    obtain ⟨p, hp, hpq⟩ := h.back q hq
    exact ⟨p, hp, hpq.trans hqr⟩

namespace MemFunction

variable {F : MemFunction} {M : MemMachine} {mem : PageId → ByteMemory.Memory 64} {i : ℕ}

/-- No instruction reads the name, and no terminator. -/
theorem useEmpty_iff : F.useEmpty i = true ↔
    (∀ j x, F.inst j = some x → ∀ v ∈ x.operands, v ≠ .inst i) ∧
      ∀ b ∈ F.order, ∀ v ∈ (F.terminator b).operands, v ≠ .inst i := by
  simp only [useEmpty, Bool.and_eq_true, List.all_eq_true, Option.all_eq_true, decide_eq_true_eq]
  refine and_congr_left fun _ => ⟨fun h j x hx => h j (F.mem_order j x hx) x hx, fun h j _ => h j⟩

/-- An instruction of two functions, executed in states that agree on what it reads. -/
theorem Effect.transfer {F G : MemFunction} {j : ℕ} {s s' t : MemState} (h : F.Effect M j s s')
    (hinst : G.inst j = F.inst j) (hmem : t.mem = s.mem)
    (hread : ∀ x, F.inst j = some x → ∀ v ∈ x.operands, M.eval t.env v = M.eval s.env v) :
    ∃ t', G.Effect M j t t' ∧ t'.mem = s'.mem ∧ ∀ k, t.env k = s.env k → t'.env k = s'.env k := by
  have hset : ∀ (u w : MemState) (n k : ℕ), w.env k = u.env k → (w.set j n).env k = (u.set j n).env k := by
    intro u w n k heq
    by_cases hk : k = j
    · subst hk
      rw [MemState.env_set_self, MemState.env_set_self]
    · rw [MemState.env_set_of_ne _ hk, MemState.env_set_of_ne _ hk, heq]
  have hargs : ∀ args : List (SsaOperand ℕ), (∀ v ∈ args, M.eval t.env v = M.eval s.env v) →
      args.mapM (M.eval t.env) = args.mapM (M.eval s.env) := by
    intro args
    induction args with
    | nil => exact fun _ => rfl
    | cons v args ih =>
      intro heq
      rw [List.mapM_cons, List.mapM_cons, heq v (by simp),
        ih fun w hw => heq w (List.mem_cons_of_mem _ hw)]
  cases h with
  | @load type ptr p h₁ h₂ =>
    have hptr := hread _ h₁ ptr (by simp [MemInst.operands])
    refine ⟨_, .load (hinst.trans h₁) (hptr.trans h₂), hmem, fun k hk => ?_⟩
    have hsame : t.read (M.place p) type = s.read (M.place p) type := by
      rw [MemState.read, MemState.read, hmem]
    rw [hsame]
    exact hset s t _ k hk
  | @store type value ptr n p h₁ h₂ h₃ =>
    have hvalue := hread _ h₁ value (by simp [MemInst.operands])
    have hptr := hread _ h₁ ptr (by simp [MemInst.operands])
    refine ⟨_, .store (hinst.trans h₁) (hvalue.trans h₂) (hptr.trans h₃), ?_, fun k hk => hk⟩
    rw [MemState.write, MemState.write, hmem]
  | call h₁ h₂ h₃ h₄ =>
    refine ⟨_, .call (hinst.trans h₁) ((hargs _ (hread _ h₁)).trans h₂) (hmem ▸ h₃) (hmem ▸ h₄), rfl,
      fun k hk => ?_⟩
    exact hset _ _ _ k hk
  | operation h₁ h₂ =>
    refine ⟨_, .operation (hinst.trans h₁) ((hargs _ (hread _ h₁)).trans h₂), hmem, fun k hk => ?_⟩
    exact hset s t _ k hk

/-- An instruction that is not missed when nothing uses its name: it is always executed, and leaves
memory as it is. -/
structure Removable (F : MemFunction) (M : MemMachine) (i : ℕ) : Prop where
  mem : ∀ s s', F.Effect M i s s' → s'.mem = s.mem
  exec : ∀ s x, F.inst i = some x → (∀ v ∈ x.operands, (M.eval s.env v).isSome = true) →
    ∃ s', F.Effect M i s s'

/-- Operands with values have a list of values. -/
theorem exists_mapM {args : List (SsaOperand ℕ)} {env : ℕ → Option ℕ}
    (h : ∀ v ∈ args, (M.eval env v).isSome = true) : ∃ ns, args.mapM (M.eval env) = some ns := by
  induction args with
  | nil => exact ⟨[], rfl⟩
  | cons v args ih =>
    obtain ⟨n, hn⟩ := Option.isSome_iff_exists.mp (h v (by simp))
    obtain ⟨ns, hns⟩ := ih fun w hw => h w (List.mem_cons_of_mem _ hw)
    exact ⟨n :: ns, by rw [List.mapM_cons, hn, hns]; rfl⟩

/-- A computation can be removed. -/
theorem removable_of_isComputation (hcomp : ∀ x, F.inst i = some x → x.isComputation = true) :
    F.Removable M i where
  mem s s' h := by
    obtain ⟨x, hx⟩ := h.exists_inst
    refine h.mem_eq ?_
    have hx' := hcomp x hx
    rw [isDefinition, hx, Option.any_some]
    cases x with
    | load | operation => rfl
    | store | call | phi => cases hx'
  exec s x hinst hread := by
    have hx := hcomp x hinst
    cases x with
    | load type ptr =>
      obtain ⟨p, hp⟩ := Option.isSome_iff_exists.mp (hread ptr (by simp [MemInst.operands]))
      exact ⟨_, .load hinst hp⟩
    | operation type args compute =>
      obtain ⟨ns, hns⟩ := exists_mapM (show ∀ v ∈ args, _ from hread)
      exact ⟨_, .operation hinst hns⟩
    | store | call | phi => cases hx

section Erasure

variable (hempty : F.useEmpty i = true) (hremovable : F.Removable M i)

theorem eraseFromParent_inst (F : MemFunction) {i j : ℕ} (h : j ≠ i) :
    (F.eraseFromParent i).inst j = F.inst j := if_neg h

/-- What is not read is not missed. -/
theorem eval_without {dead : List ℕ} {p q : MemPoint} (hpq : p.Without dead q) {v : SsaOperand ℕ}
    (hv : ∀ j ∈ dead, v ≠ .inst j) : M.eval q.state.env v = M.eval p.state.env v := by
  cases v with
  | inst j => exact hpq.env j fun hmem => hv j hmem rfl
  | int | constant | undef | argument => rfl

/-- The erased instruction is passed over. -/
theorem without_skip {b : BlockId} {rest : List ℕ} {s s' : MemState} {q : MemPoint}
    (hremovable : F.Removable M i)
    (hpq : MemPoint.Without [i] ⟨b, i :: rest, s⟩ q) (heffect : F.Effect M i s s') :
    MemPoint.Without [i] ⟨b, rest, s'⟩ q where
  block := hpq.block
  rest := by
    rw [hpq.rest]
    exact List.filter_cons_of_neg (by simp)
  mem := by rw [hpq.mem, hremovable.mem s s' heffect]
  env j hj := by
    rw [hpq.env j hj]
    exact (heffect.env_of_ne (by simpa using hj)).symm

include hempty in
/-- The edge that is taken, and the state behind the phis, but for the erased name. -/
theorem edge_without {b c : BlockId} {s : MemState} {q : MemPoint} (hb : b ∈ F.order)
    (hpq : MemPoint.Without [i] ⟨b, [], s⟩ q) :
    target M q.state.env ((F.eraseFromParent i).terminator q.block) =
        target M s.env (F.terminator b) ∧
      MemPoint.Without [i] ⟨c, F.insts c, F.enter M b c s⟩
        ⟨c, (F.eraseFromParent i).insts c, (F.eraseFromParent i).enter M q.block c q.state⟩ := by
  obtain ⟨huses, hterms⟩ := useEmpty_iff.mp hempty
  have hblock : q.block = b := hpq.block
  constructor
  · have hterm : (F.eraseFromParent i).terminator q.block = F.terminator b := by rw [hblock]; rfl
    rw [hterm]
    cases hswitch : F.terminator b with
    | switch value cases default =>
      have hv := hterms b hb value (by rw [hswitch]; simp [MemTerminator.operands])
      rw [target, target, eval_without hpq (by simpa using hv)]
    | ret => rfl
    | unreachable => rfl
  · refine ⟨rfl, List.filter_congr fun j _ => by simp, hpq.mem, fun j hj => ?_⟩
    have hne : j ≠ i := by simpa using hj
    have hphis : j ∈ (F.eraseFromParent i).phis c ↔ j ∈ F.phis c := by
      change j ∈ (F.phis c).filter _ ↔ _
      simp [hne]
    simp only [enter, hphis]
    split
    · rw [incoming, incoming, eraseFromParent_inst F hne]
      cases hinst : F.inst j with
      | none => rfl
      | some x =>
        cases x with
        | load | store | call | operation => rfl
        | phi type incoming =>
          simp only [hblock]
          cases hlookup : incoming.lookup b with
          | none => rfl
          | some v =>
            obtain ⟨front, back, hincoming, -⟩ := List.lookup_eq_some_iff.mp hlookup
            have hv := huses j _ hinst v (by simp [MemInst.operands, hincoming])
            exact eval_without hpq (by simpa using hv)
    · exact hpq.env j hj

include hempty in
/-- An instruction that stays does in both functions the same. -/
theorem effect_without {p q : MemPoint} {j : ℕ} (hj : j ≠ i) (hpq : p.Without [i] q) :
    (∀ s', F.Effect M j p.state s' → ∃ t', (F.eraseFromParent i).Effect M j q.state t' ∧
      t'.mem = s'.mem ∧ ∀ k, k ≠ i → t'.env k = s'.env k) ∧
    ∀ t', (F.eraseFromParent i).Effect M j q.state t' → ∃ s', F.Effect M j p.state s' ∧
      t'.mem = s'.mem ∧ ∀ k, k ≠ i → t'.env k = s'.env k := by
  have heval : ∀ x, F.inst j = some x → ∀ v ∈ x.operands,
      M.eval q.state.env v = M.eval p.state.env v := by
    intro x hx v hv
    have hne := (useEmpty_iff.mp hempty).1 j x hx v hv
    exact eval_without hpq (by simpa using hne)
  have hinst := eraseFromParent_inst F hj
  have henv : ∀ k, k ≠ i → q.state.env k = p.state.env k := fun k hk => hpq.env k (by simpa using hk)
  constructor
  · intro s' h
    obtain ⟨t', ht', hmem, hkeep⟩ := h.transfer hinst hpq.mem heval
    exact ⟨t', ht', hmem, fun k hk => hkeep k (henv k hk)⟩
  · intro t' h
    obtain ⟨s', hs', hmem, hkeep⟩ := h.transfer hinst.symm hpq.mem.symm fun x hx v hv =>
      (heval x (hinst ▸ hx) v hv).symm
    exact ⟨s', hs', hmem.symm, fun k hk => (hkeep k (henv k hk).symm).symm⟩

include hempty hremovable in
/-- **One step of the function** is a step without the name, or none. -/
theorem step_without {p p' q : MemPoint} (hp : F.Runs M mem p) (hpq : p.Without [i] q)
    (hstep : F.Step M p p') :
    p'.Without [i] q ∨ ∃ q', (F.eraseFromParent i).Step M q q' ∧ p'.Without [i] q' := by
  cases hstep with
  | inst heffect =>
    rename_i b j rest s s'
    by_cases hj : j = i
    · subst hj
      exact .inl (without_skip hremovable hpq heffect)
    · right
      obtain ⟨t', ht', hmem, henv⟩ := (effect_without hempty hj hpq).1 s' heffect
      obtain ⟨c, is, t⟩ := q
      have hblock : c = b := hpq.block
      have hrest : is = j :: rest.filter fun k => k ∉ [i] := by
        rw [show is = _ from hpq.rest, List.filter_cons_of_pos (by simpa using hj)]
      subst hblock hrest
      exact ⟨_, .inst ht', ⟨rfl, rfl, hmem, fun k hk => henv k (by simpa using hk)⟩⟩
  | edge htarget =>
    rename_i b c s
    right
    obtain ⟨htarget', hnext⟩ := edge_without (c := c) hempty hp.reaches.split.1.mem_order hpq
    obtain ⟨d, is, t⟩ := q
    obtain rfl : is = [] := hpq.rest
    exact ⟨_, .edge (htarget'.trans htarget), hnext⟩

include hremovable in
/-- The erased instructions in front are executed. -/
theorem exists_stripped (hread : ∀ p, F.Runs M mem p → F.Readable M p) (rest : List ℕ) :
    ∀ {b : BlockId} {s : MemState} {q : MemPoint}, F.Runs M mem ⟨b, rest, s⟩ →
      MemPoint.Without [i] ⟨b, rest, s⟩ q →
      ∃ p, F.Runs M mem p ∧ p.Without [i] q ∧ ∀ is, p.rest ≠ i :: is := by
  induction rest with
  | nil => exact fun hp hpq => ⟨_, hp, hpq, fun is heq => by cases heq⟩
  | cons j rest ih =>
    intro b s q hp hpq
    by_cases hj : j = i
    · subst hj
      obtain ⟨-, done, hdone⟩ := hp.reaches.split
      obtain ⟨x, hx, -⟩ := F.inst_of_mem b j (by rw [show F.insts b = _ from hdone]; simp)
      obtain ⟨s', heffect⟩ := hremovable.exec s x hx ((hread _ hp).inst j rest x rfl hx)
      exact ih (hp.tail (.inst heffect)) (without_skip hremovable hpq heffect)
    · exact ⟨_, hp, hpq, fun is heq => hj (List.cons.inj heq).1⟩

include hempty in
/-- **One step without the name** is a step of the function. -/
theorem step_of_without {p q q' : MemPoint} (hp : F.Runs M mem p) (hpq : p.Without [i] q)
    (hstripped : ∀ is, p.rest ≠ i :: is) (hstep : (F.eraseFromParent i).Step M q q') :
    ∃ p', F.Step M p p' ∧ p'.Without [i] q' := by
  obtain ⟨b, rest, s⟩ := p
  cases rest with
  | cons j rest =>
    have hj : j ≠ i := fun heq => hstripped rest (heq ▸ rfl)
    have hrest : q.rest = j :: rest.filter fun k => k ∉ [i] := by
      rw [hpq.rest, List.filter_cons_of_pos (by simpa using hj)]
    have heffects := (effect_without (M := M) hempty hj hpq).2
    cases hstep with
    | inst heffect =>
      obtain ⟨rfl, rfl⟩ := List.cons.inj hrest
      obtain ⟨s', hs', hmem, henv⟩ := heffects _ heffect
      exact ⟨_, .inst hs', ⟨hpq.block, rfl, hmem, fun k hk => henv k (by simpa using hk)⟩⟩
    | edge => cases hrest
  | nil =>
    have hrest : q.rest = [] := hpq.rest
    cases hstep with
    | inst => cases hrest
    | edge htarget =>
      rename_i d c t
      obtain ⟨htarget', hnext⟩ := edge_without (M := M) (c := c) hempty hp.reaches.split.1.mem_order hpq
      exact ⟨_, .edge (htarget'.symm.trans htarget), hnext⟩

include hempty hremovable in
/-- **Erasing an instruction that nothing uses.** -/
theorem sameRuns_eraseFromParent (hread : ∀ p, F.Runs M mem p → F.Readable M p) :
    SameRuns M mem [i] F (F.eraseFromParent i) ∧
      ∀ q, (F.eraseFromParent i).Runs M mem q → (F.eraseFromParent i).Readable M q := by
  have hstart : (F.start mem).Without [i] ((F.eraseFromParent i).start mem) :=
    ⟨rfl, List.filter_congr fun j _ => by simp, rfl, fun _ _ => rfl⟩
  have hforth : ∀ p, F.Runs M mem p →
      ∃ q, (F.eraseFromParent i).Runs M mem q ∧ p.Without [i] q := by
    intro p hp
    induction hp with
    | refl => exact ⟨_, .refl, hstart⟩
    | tail hrun hstep ih =>
      obtain ⟨q, hq, hpq⟩ := ih
      rcases step_without hempty hremovable hrun hpq hstep with hsame | ⟨q', hstep', hpq'⟩
      · exact ⟨q, hq, hsame⟩
      · exact ⟨q', hq.tail hstep', hpq'⟩
  -- behind the erased instructions the two points read the same
  have hback : ∀ q, (F.eraseFromParent i).Runs M mem q →
      ∃ p, F.Runs M mem p ∧ p.Without [i] q ∧ ∀ is, p.rest ≠ i :: is := by
    intro q hq
    induction hq with
    | refl => exact exists_stripped hremovable hread _ .refl hstart
    | tail _ hstep ih =>
      obtain ⟨p, hp, hpq, hstripped⟩ := ih
      obtain ⟨p', hstep', hpq'⟩ := step_of_without hempty hp hpq hstripped hstep
      exact exists_stripped hremovable hread _ (hp.tail hstep') hpq'
  refine ⟨⟨hforth, fun q hq => ?_⟩, fun q hq => ?_⟩
  · obtain ⟨p, hp, hpq, -⟩ := hback q hq
    exact ⟨p, hp, hpq⟩
  · obtain ⟨⟨b, rest, s⟩, hp, hpq, hstripped⟩ := hback q hq
    obtain ⟨huses, hterms⟩ := useEmpty_iff.mp hempty
    have hreadp := hread _ hp
    have horder := hp.reaches.split.1.mem_order
    have hblock : q.block = b := hpq.block
    have hnil : q.rest = [] → rest = [] := by
      intro hq
      cases rest with
      | nil => rfl
      | cons j rest =>
        have hj : j ≠ i := fun heq => hstripped rest (heq ▸ rfl)
        rw [hpq.rest, List.filter_cons_of_pos (by simpa using hj)] at hq
        cases hq
    refine ⟨fun j is x hrest hinst v hv => ?_, fun hrest v hv => ?_, fun hrest c hc j hj => ?_⟩
    · cases rest with
      | nil => rw [hpq.rest] at hrest; cases hrest
      | cons k rest =>
        have hk : k ≠ i := fun heq => hstripped rest (heq ▸ rfl)
        rw [hpq.rest, List.filter_cons_of_pos (by simpa using hk)] at hrest
        obtain ⟨rfl, -⟩ := List.cons.inj hrest
        rw [eraseFromParent_inst F hk] at hinst
        rw [eval_without hpq (by simpa using huses k x hinst v hv)]
        exact hreadp.inst k rest x rfl hinst v hv
    · have hv' : v ∈ (F.terminator b).operands := hblock ▸ hv
      rw [eval_without hpq (by simpa using hterms b horder v hv')]
      exact hreadp.terminator (hnil hrest) v hv'
    · obtain rfl := hnil hrest
      obtain ⟨htarget, hnext⟩ := edge_without (M := M) (c := c) hempty horder hpq
      have hphi : j ∈ F.phis c ∧ j ≠ i := by
        obtain ⟨hmem, hne⟩ := List.mem_filter.mp hj
        exact ⟨hmem, of_decide_eq_true hne⟩
      have hsome := hreadp.phis rfl c (htarget.symm.trans hc) j hphi.1
      have hsame := hnext.env j (by simpa using hphi.2)
      simp only [enter, hj, hphi.1, if_true] at hsame
      rwa [hsame]

end Erasure

/-- **Erasing instructions**, the last one first, as far as nothing uses them. -/
theorem sameRuns_eraseDeadInstructions (hread : ∀ p, F.Runs M mem p → F.Readable M p)
    (instructions : List ℕ)
    (hcomp : ∀ i ∈ instructions, ∀ x, F.inst i = some x → x.isComputation = true) :
    ∃ dead ⊆ instructions, SameRuns M mem dead F (F.eraseDeadInstructions instructions) ∧
      (∀ q, (F.eraseDeadInstructions instructions).Runs M mem q →
        (F.eraseDeadInstructions instructions).Readable M q) ∧
      ∀ j x, (F.eraseDeadInstructions instructions).inst j = some x → F.inst j = some x := by
  induction instructions with
  | nil => exact ⟨[], List.nil_subset _, .refl F, hread, fun _ _ h => h⟩
  | cons i instructions ih =>
    obtain ⟨dead, hdead, hsame, hreadG, hinst⟩ := ih fun j hj => hcomp j (List.mem_cons_of_mem _ hj)
    have hstep : F.eraseDeadInstructions (i :: instructions) =
        if (F.eraseDeadInstructions instructions).useEmpty i then
          (F.eraseDeadInstructions instructions).eraseFromParent i
        else F.eraseDeadInstructions instructions := rfl
    rw [hstep]
    split
    · next hempty =>
      have hcompG : ∀ x, (F.eraseDeadInstructions instructions).inst i = some x →
          x.isComputation = true := fun x hx => hcomp i (by simp) x (hinst i x hx)
      obtain ⟨herase, hreadG'⟩ := sameRuns_eraseFromParent hempty (removable_of_isComputation hcompG) hreadG
      refine ⟨dead ++ [i], ?_, hsame.trans herase, hreadG', fun j x hx => ?_⟩
      · intro j hj
        rcases List.mem_append.mp hj with hmem | hmem
        · exact List.mem_cons_of_mem _ (hdead hmem)
        · exact List.mem_singleton.mp hmem ▸ List.mem_cons_self ..
      · change (if j = i then none else _) = some x at hx
        split at hx
        · cases hx
        · exact hinst j x hx
    · exact ⟨dead, fun j hj => List.mem_cons_of_mem _ (hdead hj), hsame, hreadG, hinst⟩

end MemFunction

end Vexa
