import Mathlib.Data.List.MinMax
import Vexa.Bitwuzla.Term
import Vexa.Lib.DepthFirst
import Vexa.Lib.Journal

/-!
# Byte safety along the store chain

Before loads are folded, `concretize_memory_loads` goes depth first through the definitions of
MemorySSA and keeps, for the definition whose frame is on top, which bytes of memory were last written
by a store that is understood. There is one map for all of them: a store that is known marks its bytes,
a definition that is not starts a generation of its own in which no byte is safe, and the marks of older
generations stay in the map without counting. An undo log takes the marks back when a frame is left.

What the map says at a definition is what walking back the chain of its parents would say.

## Main definitions

* `DefForest` — the definitions of a function, with what is known of the store of each one
* `SafetyState` — the map, the active generation and the answer for all other bytes
* `DefForest.walk` — the traversal
* `DefForest.answer` — the walk back the chain

## Main results

* `walk_answers`
-/

namespace Vexa

open DepthFirst Relation

/-! ### The forest of definitions -/

/-- An access of MemorySSA that defines memory. -/
inductive MemoryAccess
  | liveOnEntry
  | phi (id : ℕ)
  | definition (id : ℕ)
deriving DecidableEq, Repr

/-- `memory_address`. -/
@[ext]
structure MemoryAddress where
  page : PageId
  offset : Addr
deriving DecidableEq, Repr

/-- `concrete_memory_access`. -/
structure ConcreteAccess where
  address : MemoryAddress
  size : BitVec 64
deriving DecidableEq, Repr

/-- The bytes of an access, which ends with the page. -/
def ConcreteAccess.Covers (access : ConcreteAccess) (x : MemoryAddress) : Prop :=
  x.page = access.address.page ∧ access.address.offset.toNat ≤ x.offset.toNat ∧
    x.offset.toNat < access.address.offset.toNat + access.size.toNat

instance ConcreteAccess.decidableCovers (access : ConcreteAccess) (x : MemoryAddress) :
    Decidable (access.Covers x) :=
  inferInstanceAs (Decidable (_ ∧ _))

/-- What MemorySSA has for an instruction: the definition it is, and the access a load depends on. -/
structure MemoryInst where
  definition : Option ℕ
  load : Option MemoryAccess
deriving DecidableEq, Repr

/-- The instructions in the order of the function, the parent of each definition, and the access of its
store with whether the store is safe, if the access is known. The chain of parents ends, and does not
leave the function. -/
structure DefForest where
  insts : List MemoryInst
  parent : ℕ → MemoryAccess
  store : ℕ → Option (ConcreteAccess × Bool)
  depth : ℕ → ℕ
  depth_parent : ∀ d e, parent d = .definition e → depth e < depth d
  closed : ∀ d ∈ insts.filterMap MemoryInst.definition, ∀ e, parent d = .definition e →
    e ∈ insts.filterMap MemoryInst.definition

/-- `add_root`. -/
def addRoot (roots : List MemoryAccess) : MemoryAccess → List MemoryAccess
  | .phi i => if .phi i ∈ roots then roots else roots ++ [.phi i]
  | _ => roots

namespace DefForest

variable (F : DefForest)

/-- The definitions in the order of the function. -/
def definitions : List ℕ := F.insts.filterMap MemoryInst.definition

/-- `def_children`. -/
def defChildren (A : MemoryAccess) : List ℕ := F.definitions.filter fun d => F.parent d = A

/-- `roots`: liveOnEntry, and each phi something depends on. -/
def roots : List MemoryAccess :=
  F.insts.foldl (fun roots i =>
    i.load.toList.foldl addRoot ((i.definition.map F.parent).toList.foldl addRoot roots)) [.liveOnEntry]

/-- How many definitions stand above an access, at most. -/
def level : MemoryAccess → ℕ
  | .liveOnEntry | .phi _ => 0
  | .definition d => F.depth d + 1

theorem level_parent (d : ℕ) : F.level (F.parent d) < F.level (.definition d) := by
  cases hparent : F.parent d with
  | liveOnEntry => exact Nat.succ_pos _
  | phi i => exact Nat.succ_pos _
  | definition e => exact Nat.succ_lt_succ (F.depth_parent d e hparent)

/-- Whether a byte is safe at an access, by walking back the chain: liveOnEntry is safe, a phi and a
definition that is not understood are not, a store answers for the bytes it writes. -/
def answer : MemoryAccess → MemoryAddress → Bool
  | .liveOnEntry, _ => true
  | .phi _, _ => false
  | .definition d, x =>
    match F.store d with
    | none => false
    | some (access, safe) => if access.Covers x then safe else answer (F.parent d) x
termination_by A => F.level A
decreasing_by exact F.level_parent d

end DefForest

/-! ### The map -/

/-- `byte_state`. -/
structure ByteState where
  generation : MemoryAccess
  safe : Bool
deriving DecidableEq, Repr

/-- `byte_safety` with `undo_log`, `active_generation` and `default_byte_safety`. -/
structure SafetyState where
  byteSafety : Journal MemoryAddress ByteState
  activeGeneration : MemoryAccess
  defaultByteSafety : Bool

namespace SafetyState

/-- Whether a byte is safe: its entry counts if it is of the active generation. -/
def isSafe (s : SafetyState) (x : MemoryAddress) : Bool :=
  match s.byteSafety.entries x with
  | some byte => if byte.generation = s.activeGeneration then byte.safe else s.defaultByteSafety
  | none => s.defaultByteSafety

/-- `range_is_safe`. -/
def rangeIsSafe (s : SafetyState) (access : ConcreteAccess) : Bool :=
  (List.range access.size.toNat).all fun offset =>
    s.isSafe ⟨access.address.page, access.address.offset + BitVec.ofNat 64 offset⟩

/-- `set_byte_safety`. -/
def setByteSafety (s : SafetyState) (address : MemoryAddress) (safe : Bool) : SafetyState :=
  if s.isSafe address = safe then s
  else if safe = s.defaultByteSafety then { s with byteSafety := s.byteSafety.write address none }
  else { s with byteSafety := s.byteSafety.write address (some ⟨s.activeGeneration, safe⟩) }

/-- The loop over the bytes of a store, of which so many are left. It stops at the end of the page. -/
def markBytes (address : MemoryAddress) (safe : Bool) : ℕ → ℕ → SafetyState → SafetyState
  | 0, _, s => s
  | left + 1, offset, s =>
    let byteOffset := address.offset + BitVec.ofNat 64 offset
    if byteOffset < address.offset then s
    else markBytes address safe left (offset + 1) (s.setByteSafety ⟨address.page, byteOffset⟩ safe)

/-- The state at the begin of the traversal from a root. -/
def start (root : MemoryAccess) : SafetyState := ⟨.empty, root, root = .liveOnEntry⟩

end SafetyState

/-- What a frame keeps of the state before it. -/
structure Checkpoint where
  rollbackCheckpoint : ℕ
  previousGeneration : MemoryAccess
  previousDefaultSafety : Bool

/-- The checkpoint of a state. -/
def SafetyState.checkpoint (s : SafetyState) : Checkpoint :=
  ⟨s.byteSafety.log.length, s.activeGeneration, s.defaultByteSafety⟩

/-- `rollback`, and the generation and the default of before. -/
def Checkpoint.restore (p : Checkpoint) (s : SafetyState) : SafetyState :=
  ⟨s.byteSafety.rollback p.rollbackCheckpoint, p.previousGeneration, p.previousDefaultSafety⟩

/-- What is done with the state before the frame of an access is pushed. -/
def DefForest.enterAccess (F : DefForest) : MemoryAccess → SafetyState → SafetyState
  | .definition d, s =>
    match F.store d with
    | none => { s with activeGeneration := .definition d, defaultByteSafety := false }
    | some (access, safe) => s.markBytes access.address safe access.size.toNat 0
  | _, s => s

namespace SafetyState

/-! ### What the marks say -/

/-- A mark changes the answer at its byte only. -/
theorem isSafe_setByteSafety (s : SafetyState) (address : MemoryAddress) (safe : Bool)
    (x : MemoryAddress) :
    (s.setByteSafety address safe).isSafe x = if x = address then safe else s.isSafe x := by
  rw [setByteSafety]
  split
  · next hsame =>
    split
    · next hx => rw [hx, hsame]
    · rfl
  · next hother =>
    by_cases hx : x = address
    · subst hx
      rw [if_pos rfl]
      split
      · next hdefault => simp [isSafe, hdefault]
      · simp [isSafe]
    · rw [if_neg hx]
      split <;> simp [isSafe, Function.update_of_ne hx]

@[simp] theorem activeGeneration_setByteSafety (s : SafetyState) (address : MemoryAddress) (safe : Bool) :
    (s.setByteSafety address safe).activeGeneration = s.activeGeneration := by
  rw [setByteSafety]
  split_ifs <;> rfl

@[simp] theorem defaultByteSafety_setByteSafety (s : SafetyState) (address : MemoryAddress)
    (safe : Bool) : (s.setByteSafety address safe).defaultByteSafety = s.defaultByteSafety := by
  rw [setByteSafety]
  split_ifs <;> rfl

/-- The entries after a mark: the old ones, and one of the active generation. -/
theorem entry_setByteSafety {s : SafetyState} {address x : MemoryAddress} {safe : Bool} {byte : ByteState}
    (h : (s.setByteSafety address safe).byteSafety.entries x = some byte) :
    s.byteSafety.entries x = some byte ∨ byte.generation = s.activeGeneration := by
  rw [setByteSafety] at h
  by_cases hx : x = address
  · subst hx
    split_ifs at h with hsame hdefault
    · exact .inl h
    · rw [Journal.write_entries, Function.update_self] at h
      exact absurd h nofun
    · rw [Journal.write_entries, Function.update_self] at h
      exact .inr (Option.some.inj h ▸ rfl)
  · split_ifs at h
    · exact .inl h
    · rw [Journal.write_entries, Function.update_of_ne hx] at h
      exact .inl h
    · rw [Journal.write_entries, Function.update_of_ne hx] at h
      exact .inl h

theorem changes_setByteSafety (s : SafetyState) (address : MemoryAddress) (safe : Bool) :
    Journal.Changes s.byteSafety (s.setByteSafety address safe).byteSafety := by
  rw [setByteSafety]
  split_ifs
  · exact .refl
  · exact .single ⟨address, none, rfl⟩
  · exact .single ⟨address, _, rfl⟩

/-- Marking is a sequence of marks: what each of them keeps is kept. -/
theorem markBytes_induction {P : SafetyState → Prop} (address : MemoryAddress) (safe : Bool)
    (hset : ∀ s a, P s → P (s.setByteSafety a safe)) (left : ℕ) :
    ∀ (offset : ℕ) (s : SafetyState), P s → P (s.markBytes address safe left offset) := by
  induction left with
  | zero => exact fun _ _ h => h
  | succ left ih =>
    intro offset s h
    rw [markBytes]
    split
    · exact h
    · exact ih _ _ (hset _ _ h)

/-- The bytes of a store are answered by it, all others as before. -/
theorem isSafe_markBytes (address : MemoryAddress) (safe : Bool) (x : MemoryAddress) (left : ℕ) :
    ∀ (offset : ℕ) (s : SafetyState), offset + left < 2 ^ 64 →
    (s.markBytes address safe left offset).isSafe x =
      if x.page = address.page ∧ address.offset.toNat + offset ≤ x.offset.toNat ∧
        x.offset.toNat < address.offset.toNat + (offset + left) then safe else s.isSafe x := by
  induction left with
  | zero =>
    intro offset s _
    rw [markBytes, if_neg (by omega)]
  | succ left ih =>
    intro offset s hlt
    have hoffset : (BitVec.ofNat 64 offset).toNat = offset :=
      Nat.mod_eq_of_lt (by omega)
    have hend : address.offset.toNat < 2 ^ 64 := address.offset.isLt
    have hbyte : (address.offset + BitVec.ofNat 64 offset).toNat
        = (address.offset.toNat + offset) % 2 ^ 64 := by rw [BitVec.toNat_add, hoffset]
    have hx : x.offset.toNat < 2 ^ 64 := x.offset.isLt
    rw [markBytes]
    split
    · next hwrap =>
      rw [BitVec.lt_def, hbyte] at hwrap
      rw [if_neg]
      rintro ⟨-, hle, -⟩
      rw [Nat.mod_eq_of_lt (by omega)] at hwrap
      omega
    · next hfits =>
      rw [BitVec.lt_def, hbyte] at hfits
      have hin : address.offset.toNat + offset < 2 ^ 64 := by
        by_contra hout
        rw [Nat.mod_eq_sub_mod (by omega), Nat.mod_eq_of_lt (by omega)] at hfits
        omega
      rw [Nat.mod_eq_of_lt hin] at hbyte
      have hhere : x = ⟨address.page, address.offset + BitVec.ofNat 64 offset⟩ ↔
          x.page = address.page ∧ x.offset.toNat = address.offset.toNat + offset := by
        rw [← hbyte, BitVec.toNat_inj, MemoryAddress.ext_iff]
      rw [ih _ _ (by omega), isSafe_setByteSafety]
      by_cases hpage : x.page = address.page
      · simp only [hhere, hpage, true_and]
        split_ifs <;> first | rfl | omega
      · simp only [hhere, hpage, false_and, if_false]

end SafetyState

namespace DefForest

open SafetyState

variable (F : DefForest)

/-- What is done for a frame can be undone. -/
theorem restore_enterAccess (A : MemoryAccess) (s : SafetyState) :
    s.checkpoint.restore (F.enterAccess A s) = s := by
  have hkeep : ∀ j : Journal MemoryAddress ByteState, Journal.Changes s.byteSafety j →
      j.rollback s.byteSafety.log.length = s.byteSafety := fun _ => Journal.rollback_of_changes
  have hchanges : Journal.Changes s.byteSafety (F.enterAccess A s).byteSafety := by
    cases A with
    | liveOnEntry => exact .refl
    | phi i => exact .refl
    | definition d =>
      rw [enterAccess]
      cases F.store d with
      | none => exact .refl
      | some store =>
        exact markBytes_induction (P := fun t => Journal.Changes s.byteSafety t.byteSafety)
          store.1.address store.2 (fun t a h => ReflTransGen.trans h (changes_setByteSafety t a store.2))
          _ _ s .refl
  rw [Checkpoint.restore, checkpoint, hkeep _ hchanges]

/-- The traversal. -/
def walk : Walk MemoryAccess SafetyState Checkpoint where
  children A := (F.defChildren A).map .definition
  enter := F.enterAccess
  save := SafetyState.checkpoint
  restore := Checkpoint.restore
  restore_enter := F.restore_enterAccess

/-- The stack and the state at the begin of the traversal from a root. -/
def walkStart (root : MemoryAccess) : WalkState MemoryAccess SafetyState Checkpoint :=
  ⟨[Frame.new root (SafetyState.start root).checkpoint], SafetyState.start root⟩

/-- The state answers for an access, and all that is in the map was left by the access or by those above
it. -/
structure Answers (A : MemoryAccess) (s : SafetyState) : Prop where
  isSafe : ∀ x, s.isSafe x = F.answer A x
  level_entry : ∀ x byte, s.byteSafety.entries x = some byte → F.level byte.generation ≤ F.level A
  level_active : F.level s.activeGeneration ≤ F.level A

variable {F}

theorem mem_definitions {A : MemoryAccess} {d : ℕ} :
    d ∈ F.defChildren A ↔ d ∈ F.definitions ∧ F.parent d = A := by
  rw [defChildren, List.mem_filter, decide_eq_true_iff]

/-- Nothing is in the map at the begin. -/
theorem answers_start {root : MemoryAccess} (hroot : ∀ d, root ≠ .definition d) :
    F.Answers root (SafetyState.start root) where
  isSafe x := by
    cases root with
    | liveOnEntry => rw [answer]; rfl
    | phi i => rw [answer]; rfl
    | definition d => exact absurd rfl (hroot d)
  level_entry x byte h := absurd h nofun
  level_active := le_rfl

/-- A definition that is not understood: its generation is new, so that no entry counts. -/
theorem Answers.unknown {s : SafetyState} {d : ℕ} (h : F.Answers (F.parent d) s)
    (hstore : F.store d = none) :
    F.Answers (.definition d) { s with activeGeneration := .definition d, defaultByteSafety := false } where
  isSafe x := by
    rw [answer, hstore, SafetyState.isSafe]
    cases hentry : s.byteSafety.entries x with
    | none => rfl
    | some byte =>
      have hold : byte.generation ≠ .definition d := by
        intro hnew
        have hle := h.level_entry x byte hentry
        rw [hnew] at hle
        exact absurd hle (F.level_parent d).not_ge
      simp only [if_neg hold]
  level_entry x byte hentry := (h.level_entry x byte hentry).trans (F.level_parent d).le
  level_active := le_rfl

/-- A store that is known answers for its bytes. -/
theorem Answers.known {s : SafetyState} {d : ℕ} {access : ConcreteAccess} {safe : Bool}
    (h : F.Answers (F.parent d) s) (hstore : F.store d = some (access, safe)) :
    F.Answers (.definition d) (s.markBytes access.address safe access.size.toNat 0) := by
  have hlevels := markBytes_induction
    (P := fun t => t.activeGeneration = s.activeGeneration ∧
      ∀ x byte, t.byteSafety.entries x = some byte → F.level byte.generation ≤ F.level (F.parent d))
    access.address safe
    (by
      rintro t a ⟨hactive, hentries⟩
      refine ⟨by rw [activeGeneration_setByteSafety, hactive], fun x byte hentry => ?_⟩
      rcases entry_setByteSafety hentry with hold | hnew
      · exact hentries x byte hold
      · rw [hnew, hactive]
        exact h.level_active)
    access.size.toNat 0 s ⟨rfl, h.level_entry⟩
  refine ⟨fun x => ?_, fun x byte hentry => ?_, ?_⟩
  · rw [isSafe_markBytes _ _ _ _ _ _ (by have := access.size.isLt; omega), answer, hstore, h.isSafe]
    refine if_congr ?_ rfl rfl
    rw [Nat.add_zero, Nat.zero_add, ConcreteAccess.Covers]
  · exact (hlevels.2 x byte hentry).trans (F.level_parent d).le
  · rw [hlevels.1]
    exact h.level_active.trans (F.level_parent d).le

/-- One definition further down the chain. -/
theorem Answers.enterAccess {A B : MemoryAccess} {s : SafetyState} (h : F.Answers A s)
    (hB : B ∈ F.walk.children A) : F.Answers B (F.enterAccess B s) := by
  obtain ⟨d, hd, rfl⟩ := List.mem_map.mp hB
  obtain rfl := (mem_definitions.mp hd).2
  rw [DefForest.enterAccess]
  cases hstore : F.store d with
  | none => exact h.unknown hstore
  | some store => exact h.known hstore

/-- A load is looked at byte by byte. -/
theorem Answers.rangeIsSafe_iff {A : MemoryAccess} {s : SafetyState} (h : F.Answers A s)
    (access : ConcreteAccess) :
    s.rangeIsSafe access = true ↔ ∀ offset < access.size.toNat,
      F.answer A ⟨access.address.page, access.address.offset + BitVec.ofNat 64 offset⟩ = true := by
  simp only [rangeIsSafe, List.all_eq_true, List.mem_range, h.isSafe]

/-! ### Every access is visited -/

theorem mem_addRoot {roots : List MemoryAccess} {A B : MemoryAccess} :
    B ∈ addRoot roots A ↔ B ∈ roots ∨ (B = A ∧ ∃ i, A = .phi i) := by
  cases A with
  | liveOnEntry => simp [addRoot]
  | definition d => simp [addRoot]
  | phi i =>
    rw [addRoot]
    split
    · next hmem =>
      refine ⟨.inl, fun h => h.elim id ?_⟩
      rintro ⟨rfl, -⟩
      exact hmem
    · simp

/-- The roots are liveOnEntry and the phis that are a parent or that a load depends on. -/
theorem mem_roots {B : MemoryAccess} : B ∈ F.roots ↔ B = .liveOnEntry ∨ ((∃ i, B = .phi i) ∧
    ∃ inst ∈ F.insts, inst.load = some B ∨ ∃ d, inst.definition = some d ∧ F.parent d = B) := by
  have hfold : ∀ (insts : List MemoryInst) (roots : List MemoryAccess),
      B ∈ insts.foldl (fun roots i => i.load.toList.foldl addRoot
          ((i.definition.map F.parent).toList.foldl addRoot roots)) roots ↔
        B ∈ roots ∨ ((∃ i, B = .phi i) ∧ ∃ inst ∈ insts,
          inst.load = some B ∨ ∃ d, inst.definition = some d ∧ F.parent d = B) := by
    intro insts
    induction insts with
    | nil => simp
    | cons inst insts ih =>
      intro roots
      have hinst : B ∈ inst.load.toList.foldl addRoot
            ((inst.definition.map F.parent).toList.foldl addRoot roots) ↔
          B ∈ roots ∨ ((∃ i, B = .phi i) ∧
            (inst.load = some B ∨ ∃ d, inst.definition = some d ∧ F.parent d = B)) := by
        obtain ⟨definition, load⟩ := inst
        cases definition <;> cases load <;>
          simp only [Option.map_none, Option.map_some, Option.toList_none, Option.toList_some,
            List.foldl_nil, List.foldl_cons, mem_addRoot, Option.some.injEq, reduceCtorEq]
        all_goals grind
      rw [List.foldl_cons, ih, hinst]
      grind
  rw [roots, hfold, List.mem_singleton]

/-- The chain of parents of a definition ends at a root, from which it is walked down. -/
theorem exists_root (n : ℕ) : ∀ d ∈ F.definitions, F.depth d < n → ∃ root ∈ F.roots,
    ReflTransGen (fun A B => B ∈ F.walk.children A) root (.definition d) := by
  induction n with
  | zero => exact fun _ _ h => absurd h (Nat.not_lt_zero _)
  | succ n ih =>
    intro d hd hdepth
    have hchild : MemoryAccess.definition d ∈ F.walk.children (F.parent d) :=
      List.mem_map_of_mem (mem_definitions.mpr ⟨hd, rfl⟩)
    obtain ⟨inst, hinst, hdef⟩ := List.mem_filterMap.mp hd
    cases hparent : F.parent d with
    | liveOnEntry => exact ⟨_, mem_roots.mpr (.inl rfl), .single (hparent ▸ hchild)⟩
    | phi i =>
      exact ⟨_, mem_roots.mpr (.inr ⟨⟨i, rfl⟩, inst, hinst, .inr ⟨d, hdef, hparent⟩⟩),
        .single (hparent ▸ hchild)⟩
    | definition e =>
      have hlt := F.depth_parent d e hparent
      obtain ⟨root, hroot, hchain⟩ := ih e (F.closed d hd e hparent) (by omega)
      exact ⟨root, hroot, hchain.tail (hparent ▸ hchild)⟩

theorem walk_wellFounded : WellFounded fun B A => B ∈ F.walk.children A := by
  obtain ⟨bound, hbound⟩ : ∃ bound, ∀ d ∈ F.definitions, F.depth d ≤ bound := by
    refine ⟨(F.definitions.map F.depth).foldr max 0, fun d hd => ?_⟩
    exact List.le_max_of_le' 0 (List.mem_map_of_mem hd) le_rfl
  refine Subrelation.wf (r := InvImage (· < ·) fun A => bound + 1 - F.level A) ?_
    (InvImage.wf _ Nat.lt_wfRel.wf)
  intro B A hB
  obtain ⟨d, hd, rfl⟩ := List.mem_map.mp hB
  obtain ⟨hmem, rfl⟩ := mem_definitions.mp hd
  have hle : F.level (.definition d) ≤ bound + 1 := Nat.succ_le_succ (hbound d hmem)
  have hlt := F.level_parent d
  simp only [InvImage]
  omega

variable (F)

/-- **Byte safety**: the traversal comes to every access, and whenever the frame of an access is on top
the map answers as the walk back its chain. A frame that is pushed is left again, and then the map is
the one there was before. -/
theorem walk_answers :
    (∀ A, (A ∈ F.roots ∨ ∃ d ∈ F.definitions, A = .definition d) →
      ∃ root ∈ F.roots, ∃ c, F.walk.Reaches (walkStart root) c ∧ c.Enters A) ∧
    ∀ root ∈ F.roots, ∀ c, F.walk.Reaches (walkStart root) c →
      (∀ A, c.top = some A → ∀ x, c.state.isSafe x = F.answer A x) ∧
      ∀ f rest d, c.stack = f :: rest → (F.defChildren f.node)[f.nextChild]? = some d →
        ∃ c', F.walk.step c = some c' ∧ c'.Enters (.definition d) ∧
          F.walk.Above (rest.length + 1) c' ⟨f.visited (f.nextChild + 1) :: rest, c.state⟩ := by
  refine ⟨fun A hA => ?_, fun root hroot c hreach => ⟨fun A htop => ?_, fun f rest d hstack hd => ?_⟩⟩
  · have hpath : ∃ root ∈ F.roots, ReflTransGen (fun A B => B ∈ F.walk.children A) root A := by
      rcases hA with hroot | ⟨d, hd, rfl⟩
      · exact ⟨A, hroot, .refl⟩
      · exact exists_root _ d hd (Nat.lt_succ_self _)
    obtain ⟨root, hroot, hchain⟩ := hpath
    exact ⟨root, hroot, Walk.enters walk_wellFounded ⟨_, _, rfl⟩ hchain⟩
  · have hdefinition : ∀ d, root ≠ .definition d := by
      rintro d rfl
      rcases mem_roots.mp hroot with h | ⟨⟨i, h⟩, -⟩ <;> exact absurd h nofun
    exact (Walk.reaches_induction (answers_start hdefinition)
      (fun A s h B hB => h.enterAccess hB) hreach htop).isSafe
  · obtain ⟨stack, s⟩ := c
    obtain rfl : stack = f :: rest := hstack
    have hchild : (F.walk.children f.node)[f.nextChild]? = some (.definition d) := by
      rw [walk, List.getElem?_map, hd, Option.map_some]
    exact Walk.leaves_child walk_wellFounded rest s hchild

end DefForest

end Vexa
