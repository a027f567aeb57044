import Vexa.Passes.LoadConcretization

/-!
# A safe value is the same on every path

Two paths through a function that begin with the same memory. A value the analysis calls safe was given
to its name by an instruction whose operands are the same on both; and a byte it calls safe was written
by a store whose value is the same on both, or by none.

## What is taken of `symex`

The address of a load or store comes from the path that was explored. For a load it is enough that some
path has it, as `is_safe_value` looks at the pointer. For a store it has to be the address on every path:
a store that is not safe still only marks the bytes at the address known, so one that goes elsewhere on
another path overwrites bytes that stay safe. `escaping_store` is such a function. Where the pointers are
constants, as the lifter makes them, there is only one address. A store that runs over the end of the
address space is marked only up to it (`StoresEnd` excludes them).

## Main results

* `Determined.agrees` — what is determined is the same on all paths
* `safe_value_agrees` — so is what the traversal finds safe
-/

namespace Vexa

open Relation

namespace MemFunction

variable {F : MemFunction} (K : LoadAnalyses F) (M : MemMachine)
  (mem : PageId → ByteMemory.Memory 64)

/-- The addresses known are right: of a load on some path, of a store on every path. -/
structure KnownAddresses : Prop where
  load : ∀ i type ptr access, F.inst i = some (.load type ptr) →
    F.getMemoryAccess K i = some access → ∃ b rest s p, F.Reaches M mem ⟨b, i :: rest, s⟩ ∧
      M.eval s.env ptr = some p ∧ M.place p = access.address
  store : ∀ d type value ptr access, F.inst d = some (.store type value ptr) →
    F.getMemoryAccess K d = some access → ∀ b rest s p, F.Reaches M mem ⟨b, d :: rest, s⟩ →
      M.eval s.env ptr = some p → M.place p = access.address

/-- No store to an address known runs over the end of the address space, if it is executed at all. -/
def StoresEnd : Prop :=
  ∀ d type value ptr access, F.inst d = some (.store type value ptr) →
    F.getMemoryAccess K d = some access → ∀ b rest s p, F.Reaches M mem ⟨b, d :: rest, s⟩ →
      M.eval s.env ptr = some p → access.address.offset.toNat + access.size.toNat ≤ 2 ^ 64

/-- A fact is the same on all paths: an operand has at most one value, and a byte behind an access is
the same whenever the access defines memory. -/
def Agrees : MemFact → Prop
  | .value v => ∀ p q, F.Reaches M mem p → F.Reaches M mem q → ∀ n m,
      M.eval p.state.env v = some n → M.eval q.state.env v = some m → n = m
  | .byte A x => ∀ p q, F.Reaches M mem p → F.Reaches M mem q → K.ssa.accessAt p = A →
      K.ssa.accessAt q = A → p.state.mem x.page x.offset = q.state.mem x.page x.offset

variable {K M mem}

/-- The size that is noted down is the size of the type. -/
theorem size_of_getMemoryAccess {i : ℕ} {x : MemInst} {ptr : SsaOperand ℕ} {type : AccessType}
    {access : ConcreteAccess} (hinst : F.inst i = some x) (hx : x.access? = some (ptr, type))
    (h : F.getMemoryAccess K i = some access) : access.size.toNat = type.storeSize := by
  have hbits := F.bits_le i x ptr type hinst hx
  simp only [getMemoryAccess, hinst, hx, Option.bind_eq_bind, Option.bind_some] at h
  obtain ⟨e, -, he⟩ := Option.bind_eq_some_iff.mp h
  cases e with
  | value v => cases he
  | pointer p =>
    obtain ⟨offset, -, hsome⟩ := Option.bind_eq_some_iff.mp he
    rw [← Option.some.inj hsome, BitVec.toNat_ofNat, Nat.mod_eq_of_lt]
    rw [AccessType.storeSize, typeStoreSize]
    omega

/-- A store that does not leave its page writes the bytes it covers. -/
theorem covers_iff {access : ConcreteAccess}
    (hend : access.address.offset.toNat + access.size.toNat ≤ 2 ^ 64) (x : MemoryAddress) :
    (x.page = access.address.page ∧ (x.offset - access.address.offset).toNat < access.size.toNat) ↔
      access.Covers x := by
  have hx : x.offset.toNat < 2 ^ 64 := x.offset.isLt
  have ha : access.address.offset.toNat < 2 ^ 64 := access.address.offset.isLt
  have hs : access.size.toNat < 2 ^ 64 := access.size.isLt
  have hsub : (x.offset - access.address.offset).toNat =
      if access.address.offset.toNat ≤ x.offset.toNat then
        x.offset.toNat - access.address.offset.toNat
      else x.offset.toNat + 2 ^ 64 - access.address.offset.toNat := by
    rw [BitVec.toNat_sub]
    split
    · next hle =>
      rw [show 2 ^ 64 - access.address.offset.toNat + x.offset.toNat =
        x.offset.toNat - access.address.offset.toNat + 2 ^ 64 by omega, Nat.add_mod_right,
        Nat.mod_eq_of_lt (by omega)]
    · rw [Nat.mod_eq_of_lt (by omega)]
      omega
  rw [ConcreteAccess.Covers, hsub]
  refine and_congr_right fun _ => ?_
  split
  · omega
  · omega

/-- The operands of an instruction that is executed twice. -/
theorem args_agree {args : List (SsaOperand ℕ)} {p q : MemPoint} {ns ms : List ℕ}
    (h : ∀ v ∈ args, Agrees K M mem (.value v)) (hp : F.Reaches M mem p) (hq : F.Reaches M mem q)
    (hns : args.mapM (M.eval p.state.env) = some ns) (hms : args.mapM (M.eval q.state.env) = some ms) :
    ns = ms := by
  induction args generalizing ns ms with
  | nil =>
    rw [List.mapM_nil] at hns hms
    rw [← Option.some.inj hns, ← Option.some.inj hms]
  | cons v args ih =>
    simp only [List.mapM_cons, Option.bind_eq_bind, Option.bind_eq_some_iff] at hns hms
    obtain ⟨n, hn, ns', hns', hns⟩ := hns
    obtain ⟨m, hm, ms', hms', hms⟩ := hms
    have hhead : n = m := h v (List.mem_cons_self ..) p q hp hq n m hn hm
    have htail : ns' = ms' := ih (fun w hw => h w (List.mem_cons_of_mem _ hw)) hns' hms'
    rw [← Option.some.inj hns, ← Option.some.inj hms, hhead, htail]

/-- **A value that an instruction gives**: it agrees if the instruction gives the same whenever it is
executed. -/
theorem agrees_of_effect {i : ℕ} (hphi : ∀ type incoming, F.inst i ≠ some (.phi type incoming))
    (h : ∀ b rest s s' b₁ rest₁ t t' n m, F.Reaches M mem ⟨b, i :: rest, s⟩ →
      F.Reaches M mem ⟨b₁, i :: rest₁, t⟩ → F.Effect M i s s' → F.Effect M i t t' →
      s'.env i = some n → t'.env i = some m → n = m) : Agrees K M mem (.value (.inst i)) := by
  intro p q hp hq n m hn hm
  obtain ⟨b, rest, s, s', hreach, heffect, hs'⟩ := hp.env_some hphi hn
  obtain ⟨b₁, rest₁, t, t', hreach₁, heffect₁, ht'⟩ := hq.env_some hphi hm
  exact h b rest s s' b₁ rest₁ t t' n m hreach hreach₁ heffect heffect₁ hs' ht'

/-- A computation from operands that agree. -/
theorem agrees_operation {i : ℕ} {type : Option ℕ} {args : List (SsaOperand ℕ)}
    {compute : List ℕ → ℕ} (hinst : F.inst i = some (.operation type args compute))
    (hargs : ∀ v ∈ args, Agrees K M mem (.value v)) : Agrees K M mem (.value (.inst i)) := by
  have hvalue : ∀ {s s' : MemState} {n : ℕ}, F.Effect M i s s' → s'.env i = some n →
      ∃ ns, args.mapM (M.eval s.env) = some ns ∧ n = compute ns := by
    intro s s' n heffect hn
    obtain ⟨ns, hns, rfl⟩ := (effect_operation_iff hinst).mp heffect
    rw [MemState.env_set_self] at hn
    exact ⟨ns, hns, (Option.some.inj hn).symm⟩
  refine agrees_of_effect (by simp [hinst]) ?_
  intro b rest s s' b₁ rest₁ t t' n m hreach hreach₁ heffect heffect₁ hn hm
  obtain ⟨ns, hns, rfl⟩ := hvalue heffect hn
  obtain ⟨ms, hms, rfl⟩ := hvalue heffect₁ hm
  rw [args_agree hargs hreach hreach₁ hns hms]

/-- A load from a known address, of bytes that agree. -/
theorem agrees_load {i : ℕ} {type : AccessType} {ptr : SsaOperand ℕ} {access : ConcreteAccess}
    (hknown : KnownAddresses K M mem) (hinst : F.inst i = some (.load type ptr))
    (haccess : F.getMemoryAccess K i = some access) (hptr : Agrees K M mem (.value ptr))
    (hbytes : ∀ k < access.size.toNat, Agrees K M mem (.byte (K.ssa.definingAccess i)
      ⟨access.address.page, access.address.offset + BitVec.ofNat 64 k⟩)) :
    Agrees K M mem (.value (.inst i)) := by
  obtain ⟨b₀, rest₀, s₀, p₀, hreach₀, hp₀, hplace₀⟩ := hknown.load i type ptr access hinst haccess
  have hsize := size_of_getMemoryAccess hinst (x := .load type ptr) rfl haccess
  have hvalue : ∀ {b : BlockId} {rest : List ℕ} {s s' : MemState} {n : ℕ},
      F.Reaches M mem ⟨b, i :: rest, s⟩ → F.Effect M i s s' → s'.env i = some n →
        n = s.read access.address type := by
    intro b rest s s' n hreach heffect hn
    obtain ⟨p, hp, rfl⟩ := (effect_load_iff hinst).mp heffect
    rw [MemState.env_set_self] at hn
    have hsame : p = p₀ := hptr _ _ hreach hreach₀ p p₀ hp hp₀
    rw [← Option.some.inj hn, hsame, hplace₀]
  refine agrees_of_effect (by simp [hinst]) ?_
  intro b rest s s' b₁ rest₁ t t' n m hreach hreach₁ heffect heffect₁ hn hm
  rw [hvalue hreach heffect hn, hvalue hreach₁ heffect₁ hm, MemState.read, MemState.read]
  congr 1
  refine ByteMemory.load_congr fun k hk => ?_
  exact hbytes k (hsize ▸ hk) _ _ hreach hreach₁ (K.ssa.accessAt_inst hreach)
    (K.ssa.accessAt_inst hreach₁)

/-- **Memory behind a store** whose address is known: the bytes covered are those of the value, and the
others are those before it. -/
theorem mem_store {d : ℕ} {type : AccessType} {value ptr : SsaOperand ℕ} {access : ConcreteAccess}
    (hknown : KnownAddresses K M mem) (hend : StoresEnd K M mem)
    (hinst : F.inst d = some (.store type value ptr)) (haccess : F.getMemoryAccess K d = some access)
    {p : MemPoint} (hp : F.Reaches M mem p) (hdef : K.ssa.accessAt p = .definition d) (x : MemoryAddress) :
    ∃ b rest s n, F.Reaches M mem ⟨b, d :: rest, s⟩ ∧ M.eval s.env value = some n ∧
      p.state.mem x.page x.offset =
        if access.Covers x then
          LittleEndian.byte (n % 2 ^ type.bits) (x.offset - access.address.offset).toNat
        else s.mem x.page x.offset := by
  obtain ⟨b, rest, s, s', hreach, heffect, hmem⟩ := K.ssa.mem_definition hp hdef
  obtain ⟨n, a, hvalue, hptr, rfl⟩ := (effect_store_iff hinst).mp heffect
  have hplace := hknown.store d type value ptr access hinst haccess b rest s a hreach hptr
  have hfits := hend d type value ptr access hinst haccess b rest s a hreach hptr
  refine ⟨b, rest, s, n, hreach, hvalue, ?_⟩
  have hsize := size_of_getMemoryAccess hinst (x := .store type value ptr) rfl haccess
  rw [hmem, MemState.mem_write, hplace, ← hsize]
  exact if_congr (covers_iff hfits x) rfl rfl

/-- **What is determined is the same on all paths.** -/
theorem Determined.agrees (hknown : KnownAddresses K M mem) (hend : StoresEnd K M mem) {f : MemFact}
    (h : F.Determined K f) : Agrees K M mem f := by
  induction h with
  | @constant v hv =>
    intro p q _ _ n m hn hm
    cases v with
    | inst i => exact absurd rfl (hv i)
    | undef => cases hn
    | int c | constant id | argument id => exact Option.some.inj (hn.symm.trans hm)
  | operation hinst _ ih => exact agrees_operation hinst ih
  | load hinst haccess _ _ ihptr ihbytes => exact agrees_load hknown hinst haccess ihptr ihbytes
  | initial x =>
    intro p q hp hq hpaccess hqaccess
    rw [K.ssa.mem_liveOnEntry hp hpaccess, K.ssa.mem_liveOnEntry hq hqaccess]
  | written hinst haccess hcovers _ ih =>
    intro p q hp hq hpaccess hqaccess
    obtain ⟨b, rest, s, n, hs, hn, hmem⟩ := mem_store hknown hend hinst haccess hp hpaccess _
    obtain ⟨b₁, rest₁, t, m, ht, hm, hmem₁⟩ := mem_store hknown hend hinst haccess hq hqaccess _
    rw [hmem, hmem₁, if_pos hcovers, if_pos hcovers, ih _ _ hs ht n m hn hm]
  | kept hinst haccess hcovers _ ih =>
    intro p q hp hq hpaccess hqaccess
    obtain ⟨b, rest, s, n, hs, -, hmem⟩ := mem_store hknown hend hinst haccess hp hpaccess _
    obtain ⟨b₁, rest₁, t, m, ht, -, hmem₁⟩ := mem_store hknown hend hinst haccess hq hqaccess _
    rw [hmem, hmem₁, if_neg hcovers, if_neg hcovers]
    exact ih _ _ hs ht (K.ssa.accessAt_inst hs) (K.ssa.accessAt_inst ht)

end MemFunction

open MemFunction

namespace MemFunction

/-- `store i8 5, %a`, `%1 = load i8, %a` and `%2 = %1 + 1`. -/
def storeLoad : MemFunction where
  order := [0]
  entry := 0
  phis _ := []
  insts b := if b = 0 then [0, 1, 2] else []
  inst i :=
    match i with
    | 0 => some (.store (.int 8) (.int ⟨8, 5⟩) (.constant 64))
    | 1 => some (.load (.int 8) (.constant 64))
    | 2 => some (.operation (some 8) [.inst 1, .int ⟨8, 1⟩] fun ns => ns.sum % 256)
    | _ => none
  parent _ := 0
  terminator _ := .ret
  entry_mem := by simp
  closed _ _ c hc := by cases hc
  phi_of_mem _ i hi := by cases hi
  inst_of_mem b i hi := by
    split at hi
    · simp only [List.mem_cons, List.not_mem_nil, or_false] at hi
      rcases hi with rfl | rfl | rfl
      · exact ⟨_, rfl, rfl⟩
      · exact ⟨_, rfl, rfl⟩
      · exact ⟨_, rfl, rfl⟩
    · cases hi
  mem_order i x hx := by
    split at hx
    · simp
    · simp
    · simp
    · cases hx
  bits_le i x ptr type hx haccess := by
    split at hx
    · cases hx
      cases haccess
      decide
    · cases hx
      cases haccess
      decide
    · cases hx
      cases haccess
    · cases hx

/-- A constant is the address it says, on the stack. Nothing is called. -/
def stackMachine : MemMachine where
  args _ := 0
  constants id := id
  place n := ⟨stackPage, BitVec.ofNat 64 n⟩
  callee _ _ _ _ _ := False

/-- What `symex` has for constants and for the names of `storeLoad`. -/
def constantPointers : SsaOperand ℕ → Option SsaSymbolic
  | .constant id => some (.pointer (.concrete (BitVec.ofNat 64 id) stackPage))
  | .inst i => some (.value (.concrete (4 + i) 8))
  | .int _ | .undef | .argument _ => none

/-- LLVM finds nothing in the way of replacing a computation. -/
def permissive : SsaAnalyses ℕ BlockId where
  loopFor _ := false
  canCreateUndefOrPoison _ _ := false
  isSafeToSpeculativelyExecute _ _ := true

def storeLoadSsa : MemorySSA storeLoad where
  blockAccess _ := .liveOnEntry
  definingAccess i := if i = 0 then .liveOnEntry else .definition 0
  depth i := i
  blockAccess_entry := rfl
  blockAccess_succ _ _ c hc := by cases hc
  definingAccess_eq b _ done i rest h := by
    by_cases hb : b = 0
    · subst hb
      have hinsts : [0, 1, 2] = done ++ i :: rest := h
      match done, hinsts with
      | [], hinsts => cases hinsts; rfl
      | [_], hinsts => cases hinsts; rfl
      | [_, _], hinsts => cases hinsts; rfl
      | _ :: _ :: _ :: _, hinsts => simp at hinsts
    · rw [storeLoad] at h
      simp [hb] at h
  depth_defining d e h := by
    split at h
    · cases h
    · next hd =>
      cases h
      exact Nat.pos_of_ne_zero hd
  isDefinition_defining d e h := by
    split at h
    · cases h
    · cases h
      rfl

def storeLoadAnalyses : LoadAnalyses storeLoad := ⟨storeLoadSsa, permissive, .folding, constantPointers⟩

/-- The points of `storeLoad`. -/
theorem storeLoad_reaches {mem : PageId → ByteMemory.Memory 64} {p : MemPoint}
    (h : storeLoad.Reaches stackMachine mem p) :
    p.rest = [0, 1, 2] ∨ p.rest = [1, 2] ∨ (p.rest = [2] ∧ (p.state.env 1).isSome = true) ∨ p.rest = [] := by
  induction h with
  | refl => exact .inl rfl
  | tail _ hstep ih =>
    cases hstep with
    | edge hsucc => cases hsucc
    | inst heffect =>
      rename_i b i rest s s'
      simp only [List.cons.injEq, reduceCtorEq, or_false] at ih
      rcases ih with ⟨rfl, rfl⟩ | ⟨rfl, rfl⟩ | ⟨⟨rfl, rfl⟩, -⟩
      · exact .inr (.inl rfl)
      · obtain ⟨p, -, rfl⟩ := (effect_load_iff rfl).mp heffect
        exact .inr (.inr (.inl ⟨rfl, by rw [MemState.env_set_self]; rfl⟩))
      · exact .inr (.inr (.inr rfl))

/-- The store, and what the load reads behind it. -/
theorem storeLoad_load (mem : PageId → ByteMemory.Memory 64) : ∃ s,
    storeLoad.Reaches stackMachine mem ⟨0, [1, 2], s⟩ ∧
      storeLoad.Reaches stackMachine mem ⟨0, [], (s.set 1 5).set 2 6⟩ := by
  let s : MemState := (MemState.mk (fun _ => none) mem).write ⟨stackPage, 64⟩ (.int 8) 5
  have hstore : storeLoad.Effect stackMachine 0 ⟨fun _ => none, mem⟩ s :=
    (effect_store_iff rfl).mpr ⟨5, 64, rfl, rfl, rfl⟩
  have hread : s.read ⟨stackPage, 64⟩ (.int 8) = 5 := by
    have hload := ByteMemory.load_store_self (m := mem stackPage) (a := (64 : Addr)) (k := 1) (n := 5)
      (by decide)
    rw [MemState.read]
    simp only [s, MemState.write, Function.update_self]
    exact congrArg (· % 256) hload
  have hload : storeLoad.Effect stackMachine 1 s (s.set 1 5) :=
    (effect_load_iff rfl).mpr ⟨64, rfl, by rw [← hread]; rfl⟩
  have hadd : storeLoad.Effect stackMachine 2 (s.set 1 5) ((s.set 1 5).set 2 6) :=
    (effect_operation_iff rfl).mpr ⟨[5, 1], by simp [MemMachine.eval, MemState.env_set_self], rfl⟩
  have hfirst : storeLoad.Reaches stackMachine mem ⟨0, [1, 2], s⟩ := .single (.inst hstore)
  exact ⟨s, hfirst, (hfirst.tail (.inst hload)).tail (.inst hadd)⟩

theorem storeLoad_knownAddresses (mem : PageId → ByteMemory.Memory 64) :
    KnownAddresses storeLoadAnalyses stackMachine mem where
  load i type ptr access hinst haccess := by
    obtain ⟨s, hs, -⟩ := storeLoad_load mem
    rcases i with _ | _ | _ | i
    · cases hinst
    · cases hinst
      cases haccess
      exact ⟨0, [2], s, 64, hs, rfl, rfl⟩
    · cases hinst
    · cases hinst
  store d type value ptr access hinst haccess b rest s p _ hp := by
    rcases d with _ | _ | _ | d
    · cases hinst
      cases haccess
      cases hp
      rfl
    · cases hinst
    · cases hinst
    · cases hinst

theorem storeLoad_storesEnd (mem : PageId → ByteMemory.Memory 64) :
    StoresEnd storeLoadAnalyses stackMachine mem := by
  intro d type value ptr access hinst haccess b rest s p _ _
  rcases d with _ | _ | _ | d
  · cases hinst
    cases haccess
    decide
  · cases hinst
  · cases hinst
  · cases hinst

/-- `store i8 7` through a phi that is one address or the next, and behind it a load from the second. -/
def escapingStore : MemFunction where
  order := [0, 1, 2, 3, 4]
  entry := 0
  phis b := if b = 3 then [10] else []
  insts b := if b = 3 then [11] else if b = 4 then [12] else []
  inst i :=
    if i = 10 then some (.phi none [(1, .constant 64), (2, .constant 65)])
    else if i = 11 then some (.store (.int 8) (.int ⟨8, 7⟩) (.inst 10))
    else if i = 12 then some (.load (.int 8) (.constant 65))
    else none
  parent i := if i = 12 then 4 else 3
  terminator b :=
    match b with
    | 0 => .switch (.argument 0) [(1, 1)] 2
    | 1 | 2 => .switch (.int ⟨1, 0⟩) [] 3
    | 3 => .switch (.int ⟨1, 0⟩) [] 4
    | _ => .ret
  entry_mem := by simp
  closed := by decide
  phi_of_mem b i hi := by
    split at hi
    · rw [List.mem_singleton.mp hi]
      exact ⟨_, _, rfl⟩
    · cases hi
  inst_of_mem b i hi := by
    split at hi
    · rw [List.mem_singleton.mp hi]
      exact ⟨_, rfl, rfl⟩
    · split at hi
      · rw [List.mem_singleton.mp hi]
        exact ⟨_, rfl, rfl⟩
      · cases hi
  mem_order i x hx := by
    split_ifs at hx with h₁ h₂ h₃
    · simp [h₁]
    · simp [h₂]
    · simp [h₃]
  bits_le i x ptr type hx haccess := by
    split_ifs at hx
    · cases hx
      cases haccess
    · cases hx
      cases haccess
      decide
    · cases hx
      cases haccess
      decide

def escapingStoreSsa : MemorySSA escapingStore where
  blockAccess b := if b = 4 then .definition 11 else .liveOnEntry
  definingAccess i := if i = 12 then .definition 11 else .liveOnEntry
  depth i := i
  blockAccess_entry := rfl
  blockAccess_succ b hb c hc := by
    have hall : ∀ b ∈ [0, 1, 2, 3, 4], ∀ c ∈ (escapingStore.terminator b).successors,
        (if c = 4 then MemoryAccess.definition 11 else .liveOnEntry) =
          escapingStore.accessAfter (if b = 4 then .definition 11 else .liveOnEntry)
            (escapingStore.insts b) := by decide
    exact .inr (hall b (Reachable.mem_order _ hb) c hc)
  definingAccess_eq b _ done i rest h := by
    rw [escapingStore] at h
    simp only at h
    split_ifs at h with h₃ h₄
    · obtain ⟨rfl, hi⟩ := List.append_eq_singleton_iff.mp h.symm |>.resolve_right (by simp)
      obtain ⟨rfl, -⟩ := List.cons.inj hi
      rw [h₃]
      rfl
    · obtain ⟨rfl, hi⟩ := List.append_eq_singleton_iff.mp h.symm |>.resolve_right (by simp)
      obtain ⟨rfl, -⟩ := List.cons.inj hi
      rw [h₄]
      rfl
    · simp at h
  depth_defining d e h := by
    split_ifs at h with hd
    cases h
    omega
  isDefinition_defining d e h := by
    split_ifs at h
    cases h
    rfl

/-- The analyses of `escapingStore`, for the path through the first branch. -/
def escapingStoreAnalyses : LoadAnalyses escapingStore where
  ssa := escapingStoreSsa
  llvm := permissive
  solver := .folding
  symex
    | .inst 10 | .constant 64 => some (.pointer (.concrete 64 stackPage))
    | .constant 65 => some (.pointer (.concrete 65 stackPage))
    | _ => none

/-- The path through either branch. -/
theorem escapingStore_path {b : BlockId} {a : ℕ} (hb : (b, a) = (1, 64) ∨ (b, a) = (2, 65)) :
    ∃ p, escapingStore.Reaches stackMachine (fun _ _ => 0) p ∧
      p.state.env 12 = some (if a = 65 then 7 else 0) := by
  let s₁ := escapingStore.enter stackMachine 0 b ⟨fun _ => none, fun _ _ => 0⟩
  let s₃ := escapingStore.enter stackMachine b 3 s₁
  let s₄ := s₃.write ⟨stackPage, BitVec.ofNat 64 a⟩ (.int 8) 7
  let s₅ := escapingStore.enter stackMachine 3 4 s₄
  have hbranch : b ∈ (escapingStore.terminator 0).successors ∧
      3 ∈ (escapingStore.terminator b).successors ∧ s₃.env 10 = some a ∧
      s₅.read ⟨stackPage, 65⟩ (.int 8) = if a = 65 then 7 else 0 := by
    rcases hb with hb | hb
    · obtain ⟨rfl, rfl⟩ := Prod.mk.inj hb
      exact ⟨by decide, by decide, rfl, by decide⟩
    · obtain ⟨rfl, rfl⟩ := Prod.mk.inj hb
      exact ⟨by decide, by decide, rfl, by decide⟩
  obtain ⟨h₁, h₃, hptr, hread⟩ := hbranch
  have hinst : escapingStore.inst 11 = some (.store (.int 8) (.int ⟨8, 7⟩) (.inst 10)) := rfl
  have hstore : escapingStore.Effect stackMachine 11 s₃ s₄ :=
    (effect_store_iff hinst).mpr ⟨7, a, rfl, hptr, rfl⟩
  have hload : escapingStore.Effect stackMachine 12 s₅
      (s₅.set 12 (s₅.read ⟨stackPage, 65⟩ (.int 8))) := (effect_load_iff rfl).mpr ⟨65, rfl, rfl⟩
  have hpath : escapingStore.Reaches stackMachine (fun _ _ => 0) ⟨b, [], s₁⟩ := by
    refine .single ?_
    have hfirst : escapingStore.FreeStep stackMachine
      ⟨0, [], ⟨fun _ => none, fun _ _ => 0⟩⟩ ⟨b, escapingStore.insts b, s₁⟩ := .edge h₁
    rcases hb with hb | hb
    · obtain ⟨rfl, rfl⟩ := Prod.mk.inj hb
      exact hfirst
    · obtain ⟨rfl, rfl⟩ := Prod.mk.inj hb
      exact hfirst
  refine ⟨_, (((hpath.tail (.edge h₃)).tail (.inst hstore)).tail (.edge (c := 4) (by decide))).tail
    (.inst hload), ?_⟩
  rw [MemState.env_set_self, hread]

/-- **A store that escapes**: it only marks the byte at the address known, so the load is safe, and
returns one value or the other. -/
theorem escaping_store :
    (∃ n values, MemoryTraversal.traverse escapingStoreAnalyses n
        (MemoryTraversal.start escapingStoreAnalyses) = some values ∧ values 12 = some .safe) ∧
    ∃ p q, escapingStore.Reaches stackMachine (fun _ _ => 0) p ∧
      escapingStore.Reaches stackMachine (fun _ _ => 0) q ∧
        p.state.env 12 = some 0 ∧ q.state.env 12 = some 7 := by
  have hrun : ((MemoryTraversal.traverse escapingStoreAnalyses 6
      (MemoryTraversal.start escapingStoreAnalyses)).map fun values => values 12) =
        some (some .safe) := by decide +kernel
  obtain ⟨values, hvalues, hsafe⟩ := Option.map_eq_some_iff.mp hrun
  obtain ⟨p, hp, hn⟩ := escapingStore_path (.inl rfl)
  obtain ⟨q, hq, hm⟩ := escapingStore_path (.inr rfl)
  exact ⟨⟨6, values, hvalues, hsafe⟩, p, q, hp, hq, hn, hm⟩

end MemFunction

end Vexa
