import Vexa.Passes.Function
import Vexa.Lib.Worklist

/-!
# `state_cleanup`

Stores to the state that nothing loads are erased. For each store the pass goes through the blocks that
can follow, breadth first, and looks for a load. It recognises a load, and a store that overwrites, by the
operation and the constant offset of their `getelementptr`.

## What it does not see

* The block of the store counts as visited from the start, but only what stands behind the store is
  looked at. In a loop the loads in front of it are missed.
* Loads of some of the stored bytes at another offset, or through another kind of pointer.
* A store of fewer bytes at the same offset, or at the same offset of another object, hides what follows
  it in its block.
* Stores to a part of the return register that does not start where the register does.

A store is therefore erased that may still be read. The pass changes nothing as long as no byte is read
while the last store that wrote it is an erased one.

## Main definitions

* `PassFunction.isAlive`, `cleanupBlock`, `stateCleanup` — the pass
* `PassFunction.Overlooked` — the stores it erases
* `PassFunction.tracked` — execution with the last writer of every byte

## Main results

* `isAlive_iff` — what the search finds
* `stateCleanup_block` — what is erased
* `stateCleanup_keeps`
-/

namespace Vexa

open PassInst Relation

variable {N : Type}

/-! ### The pass -/

/-- A `getelementptr` whose offset is constant: the type it counts in, the types of its indices, its
pointer and the offset. -/
structure ConstantGep (N : Type) where
  source : TypeId
  widths : List ℕ
  ptr : PassPtr N
  offset : Addr
deriving DecidableEq, Repr

/-- The pointer as a `GetElementPtrInst` with a constant offset. -/
def PassPtr.constantGep : PassPtr N → Option (ConstantGep N)
  | base _ => none
  | gep source ptr indices =>
    (accumulateConstantOffset indices).map fun offset =>
      ⟨source, indices.map GepIndex.width, ptr, offset⟩

/-- `isSameOperationAs`, and the same offset. The pointers are operands and are not compared. -/
def ConstantGep.same (g h : ConstantGep N) : Bool :=
  g.source = h.source ∧ g.widths = h.widths ∧ g.offset = h.offset

/-- The instructions from an iterator to the end of its block: whether a load stands there that is not
behind a store. -/
def scanBlock (g : ConstantGep N) : List (PassInst N) → Bool
  | [] => false
  | .store _ _ ptr :: is =>
    if ptr.constantGep.any g.same then false else scanBlock g is
  | .load _ _ ptr :: is =>
    if ptr.constantGep.any g.same then true else scanBlock g is
  | _ :: is => scanBlock g is

/-- The loop over the queue of iterators. -/
def aliveLoop (f : PassFunction N) (g : ConstantGep N) :
    ℕ → List (BlockId × List (PassInst N)) → List BlockId → Bool → Bool
  | 0, _, _, alive => alive
  | _ + 1, [], _, alive => alive
  | n + 1, (b, insts) :: queue, visited, alive =>
    if b ∈ visited then aliveLoop f g n queue visited alive
    else aliveLoop f g n
      (queue ++ (f.block b).terminator.successors.map fun c => (c, (f.block c).insts))
      (b :: visited) (alive || scanBlock g insts)

/-- More steps than the queue ever holds iterators. -/
def PassFunction.searchFuel (f : PassFunction N) : ℕ :=
  (f.order.map fun b => (f.block b).terminator.successors.length).sum + 2

/-- `is_alive` for the store at position `k` of the block. -/
def PassFunction.isAlive (f : PassFunction N) (g : ConstantGep N) (b : BlockId) (k : ℕ) : Bool :=
  aliveLoop f g f.searchFuel [(b, (f.block b).insts.drop (k + 1))] [] false

/-- The pointer is `state_ptr`. -/
def PassPtr.isState : PassPtr N → Bool
  | base .state => true
  | _ => false

/-- The pointer of the instruction if it is a store to the state that is not to the return register. -/
def PassInst.candidate (ret : Register) : PassInst N → Option (ConstantGep N)
  | store _ _ ptr =>
    ptr.constantGep.bind fun g => if g.ptr.isState ∧ g.offset ≠ ret.offset then some g else none
  | _ => none

/-- The instruction at this position goes to `dead_stores`. -/
def PassFunction.isDead (f : PassFunction N) (ret : Register) (b : BlockId) (k : ℕ) : Bool :=
  ((f.block b).insts[k]?.bind (PassInst.candidate ret)).any fun g => !f.isAlive g b k

/-- The block without the instructions at some positions. -/
def PassBlock.erase (b : PassBlock N) (dead : ℕ → Bool) : PassBlock N where
  insts := (b.insts.zipIdx.filter fun i => !dead i.2).map Prod.fst
  terminator := b.terminator

/-- The function without some instructions. -/
def PassFunction.erase (f : PassFunction N) (dead : BlockId → ℕ → Bool) : PassFunction N where
  order := f.order
  block b := (f.block b).erase (dead b)
  nodup := f.nodup
  nonempty := f.nonempty
  closed := f.closed

/-- One block: its dead stores are collected, then erased. -/
def PassFunction.cleanupBlock (ret : Register) (f : PassFunction N) (b : BlockId) : PassFunction N :=
  f.erase fun c k => decide (c = b) && f.isDead ret b k

/-- `state_cleanup::run`. -/
def PassFunction.stateCleanup (f : PassFunction N) (ret : Register) : PassFunction N :=
  f.order.foldl (PassFunction.cleanupBlock ret) f

/-- The function when the block is about to be looked at. -/
def PassFunction.cleanedBefore (f : PassFunction N) (ret : Register) (b : BlockId) : PassFunction N :=
  (f.order.takeWhile (· ≠ b)).foldl (PassFunction.cleanupBlock ret) f

/-! ### What the search finds -/

/-- There is a way from one block to another. -/
def PassFunction.Leads (f : PassFunction N) : BlockId → BlockId → Prop :=
  ReflTransGen fun b c => c ∈ (f.block b).terminator.successors

/-- A load of this offset stands behind position `k` of its block, or in another block that can follow,
and no store of this offset in front of it. -/
def PassFunction.FindsLoad (f : PassFunction N) (g : ConstantGep N) (b : BlockId) (k : ℕ) : Prop :=
  scanBlock g ((f.block b).insts.drop (k + 1)) = true ∨
    ∃ c, c ≠ b ∧ f.Leads b c ∧ scanBlock g (f.block c).insts = true

/-- When every iterator in the queue is the begin of its block, the loop is the search for a block. -/
theorem aliveLoop_eq (f : PassFunction N) (g : ConstantGep N) : ∀ (n : ℕ) (queue visited : List BlockId)
    (alive : Bool),
    aliveLoop f g n (queue.map fun c => (c, (f.block c).insts)) visited alive
      = (alive || Worklist.search (fun b => (f.block b).terminator.successors)
          (fun b => scanBlock g (f.block b).insts) n queue visited)
  | 0, _, _, alive => (Bool.or_false alive).symm
  | _ + 1, [], _, alive => (Bool.or_false alive).symm
  | n + 1, b :: queue, visited, alive => by
    rw [List.map_cons, aliveLoop, Worklist.search]
    split
    · exact aliveLoop_eq f g n queue visited alive
    · rw [← List.map_append, aliveLoop_eq f g n, Bool.or_assoc]

/-- **The search for a load.** -/
theorem isAlive_iff (f : PassFunction N) (g : ConstantGep N) {b : BlockId} (hb : b ∈ f.order) (k : ℕ) :
    f.isAlive g b k = true ↔ f.FindsLoad g b k := by
  set succ := fun b => (f.block b).terminator.successors with hsucc
  have hsum : ∑ x ∈ f.order.toFinset, (succ x).length = (f.order.map fun b => (succ b).length).sum :=
    List.sum_toFinset _ f.nodup
  have hleft : Worklist.remaining succ f.order.toFinset ([] ++ succ b) [b] + 1
      = Worklist.remaining succ f.order.toFinset [b] [] :=
    Worklist.remaining_visit (List.mem_toFinset.mpr hb) List.not_mem_nil
  have hall : Worklist.remaining succ f.order.toFinset [b] []
      = 1 + ∑ x ∈ f.order.toFinset, (succ x).length := by
    rw [Worklist.remaining, List.toFinset_nil, Finset.sdiff_empty]
    rfl
  rw [hall, hsum, List.nil_append] at hleft
  have hloop : f.isAlive g b k = (scanBlock g ((f.block b).insts.drop (k + 1)) ||
      Worklist.search succ (fun b => scanBlock g (f.block b).insts)
        ((f.order.map fun b => (succ b).length).sum + 1) (succ b) [b]) := by
    rw [PassFunction.isAlive, PassFunction.searchFuel, aliveLoop, if_neg List.not_mem_nil, List.nil_append,
      aliveLoop_eq, Bool.false_or]
  have hclosed : ∀ x ∈ f.order.toFinset, ∀ y ∈ succ x, y ∈ f.order.toFinset := fun x hx y hy =>
    List.mem_toFinset.mpr (f.closed x (List.mem_toFinset.mp hx) y hy)
  have hmarked : ∀ x ∈ [b], ∀ y ∈ succ x, y ∈ [b] ∨ y ∈ succ b := by
    intro x hx y hy
    rw [List.mem_singleton.mp hx] at hy
    exact .inr hy
  rw [hloop, Bool.or_eq_true, Worklist.search_iff hclosed _ (hclosed b (List.mem_toFinset.mpr hb)) hmarked
    (by omega), PassFunction.FindsLoad]
  refine or_congr_right ⟨?_, ?_⟩
  · rintro ⟨c, hc, hfound, q, hq, hreach⟩
    exact ⟨c, fun h => hc (List.mem_singleton.mpr h), .head hq hreach, hfound⟩
  · rintro ⟨c, hc, hreach, hfound⟩
    rcases ReflTransGen.cases_head hreach with heq | ⟨q, hq, hrest⟩
    · exact absurd heq.symm hc
    · exact ⟨c, fun h => hc (List.mem_singleton.mp h), hfound, q, hq, hrest⟩

/-! ### What is erased -/

/-- The store at this position is erased: it stores to the state, not to the return register, and no load
is found for it in the function as it is when its block is looked at. -/
def PassFunction.Overlooked (f : PassFunction N) (ret : Register) (b : BlockId) (k : ℕ) : Prop :=
  ∃ i g, (f.block b).insts[k]? = some i ∧ i.candidate ret = some g ∧
    ¬ (f.cleanedBefore ret b).FindsLoad g b k

/-- The positions that are erased. -/
def PassFunction.dead (f : PassFunction N) (ret : Register) (b : BlockId) (k : ℕ) : Bool :=
  decide (b ∈ f.order) && (f.cleanedBefore ret b).isDead ret b k

theorem PassBlock.erase_none (b : PassBlock N) {dead : ℕ → Bool} (h : ∀ k, dead k = false) :
    b.erase dead = b := by
  have hall : (b.insts.zipIdx.filter fun i => !dead i.2) = b.insts.zipIdx :=
    List.filter_eq_self.mpr fun i _ => by rw [h, Bool.not_false]
  rw [erase, hall, List.zipIdx_map_fst]

@[simp] theorem PassFunction.erase_block (f : PassFunction N) (dead : BlockId → ℕ → Bool) (b : BlockId) :
    (f.erase dead).block b = (f.block b).erase (dead b) := rfl

theorem cleanupBlock_of_ne (ret : Register) (f : PassFunction N) {b c : BlockId} (h : c ≠ b) :
    (f.cleanupBlock ret b).block c = f.block c := by
  rw [PassFunction.cleanupBlock, PassFunction.erase_block]
  exact PassBlock.erase_none _ fun k => by rw [decide_eq_false h, Bool.false_and]

theorem cleanupBlock_self (ret : Register) (f : PassFunction N) (b : BlockId) :
    (f.cleanupBlock ret b).block b = (f.block b).erase (f.isDead ret b) := by
  rw [PassFunction.cleanupBlock, PassFunction.erase_block]
  congr 1
  funext k
  rw [decide_eq_true rfl, Bool.true_and]

theorem foldl_cleanup_of_notMem (ret : Register) {c : BlockId} : ∀ {bs : List BlockId}
    (f : PassFunction N), c ∉ bs → (bs.foldl (PassFunction.cleanupBlock ret) f).block c = f.block c
  | [], _, _ => rfl
  | b :: bs, f, h => by
    obtain ⟨hne, hbs⟩ := not_or.mp (mt List.mem_cons.mpr h)
    rw [List.foldl_cons, foldl_cleanup_of_notMem ret _ hbs, cleanupBlock_of_ne ret f hne]

theorem foldl_cleanup_order (ret : Register) : ∀ (bs : List BlockId) (f : PassFunction N),
    (bs.foldl (PassFunction.cleanupBlock ret) f).order = f.order
  | [], _ => rfl
  | b :: bs, f => (foldl_cleanup_order ret bs (f.cleanupBlock ret b)).trans rfl

/-- The blocks before `b` in the order, and the ones behind it. -/
theorem order_split (f : PassFunction N) {b : BlockId} (hb : b ∈ f.order) :
    ∃ after, f.order = f.order.takeWhile (· ≠ b) ++ b :: after ∧ b ∉ f.order.takeWhile (· ≠ b) ∧
      b ∉ after := by
  obtain ⟨before, after, horder⟩ := List.append_of_mem hb
  have hnodup := f.nodup
  rw [horder, List.nodup_append, List.nodup_cons] at hnodup
  obtain ⟨_, ⟨hafter, _⟩, hdisjoint⟩ := hnodup
  have hbefore : b ∉ before := fun h => hdisjoint b h b (List.mem_cons_self ..) rfl
  have htake : f.order.takeWhile (· ≠ b) = before := by
    rw [horder, List.takeWhile_append_of_pos fun c hc => decide_eq_true (ne_of_mem_of_not_mem hc hbefore),
      List.takeWhile_cons_of_neg (by simp), List.append_nil]
  exact ⟨after, by rw [htake, horder], htake ▸ hbefore, hafter⟩

theorem cleanedBefore_block (f : PassFunction N) (ret : Register) {b : BlockId} (hb : b ∈ f.order) :
    (f.cleanedBefore ret b).block b = f.block b := by
  obtain ⟨_, _, hbefore, _⟩ := order_split f hb
  exact foldl_cleanup_of_notMem ret f hbefore

/-- **What the pass leaves**: the function without the stores that were dead when their block was looked
at. -/
theorem stateCleanup_block (f : PassFunction N) (ret : Register) (b : BlockId) :
    (f.stateCleanup ret).block b = (f.erase (f.dead ret)).block b := by
  by_cases hb : b ∈ f.order
  · obtain ⟨after, horder, hbefore, hafter⟩ := order_split f hb
    rw [PassFunction.stateCleanup, horder, List.foldl_append, List.foldl_cons,
      foldl_cleanup_of_notMem ret _ hafter, cleanupBlock_self, foldl_cleanup_of_notMem ret f hbefore,
      PassFunction.erase_block]
    congr 1
    funext k
    rw [PassFunction.dead, decide_eq_true hb, Bool.true_and]
    rfl
  · rw [PassFunction.stateCleanup, foldl_cleanup_of_notMem ret f hb, PassFunction.erase_block,
      PassBlock.erase_none]
    exact fun k => by rw [PassFunction.dead, decide_eq_false hb, Bool.false_and]

theorem dead_iff_overlooked (f : PassFunction N) (ret : Register) {b : BlockId} (hb : b ∈ f.order)
    (k : ℕ) : f.dead ret b k = true ↔ f.Overlooked ret b k := by
  have hb' : b ∈ (f.cleanedBefore ret b).order := by
    rwa [PassFunction.cleanedBefore, foldl_cleanup_order]
  have hsearch : ∀ g, (!(f.cleanedBefore ret b).isAlive g b k) = true ↔
      ¬ (f.cleanedBefore ret b).FindsLoad g b k := by
    intro g
    rw [Bool.not_eq_true', ← Bool.not_eq_true, isAlive_iff _ g hb' k]
  rw [PassFunction.dead, decide_eq_true hb, Bool.true_and, PassFunction.isDead,
    cleanedBefore_block f ret hb,
    Option.any_eq_true]
  constructor
  · rintro ⟨g, hg, hdead⟩
    obtain ⟨i, hi, hcand⟩ := Option.bind_eq_some_iff.mp hg
    exact ⟨i, g, hi, hcand, (hsearch g).mp hdead⟩
  · rintro ⟨i, g, hi, hcand, hfinds⟩
    exact ⟨g, Option.bind_eq_some_iff.mpr ⟨i, hi, hcand⟩, (hsearch g).mpr hfinds⟩

/-! ### The last writer of a byte -/

/-- A state, and for every byte that was stored the position of the store that wrote it last. -/
structure Attributed (N : Type) where
  state : PassState N
  writer : PassRegion → Addr → Option (BlockId × ℕ)

section

variable [DecidableEq N]

/-- The instruction at position `k` of block `b`. -/
def PassInst.track (b : BlockId) (k : ℕ) (i : PassInst N) (t : Attributed N) : Attributed N where
  state := i.exec t.state
  writer :=
    match i with
    | store w _ ptr => fun r x =>
      if r = ptr.region ∧ (x - ptr.offset t.state.env).toNat < typeStoreSize w then some (b, k)
      else t.writer r x
    | _ => t.writer

/-- Straight-line execution from position `k` of block `b` on. -/
def trackAll (b : BlockId) : ℕ → List (PassInst N) → Attributed N → List (N × ℕ) × Attributed N
  | _, [], t => ([], t)
  | k, i :: is, t =>
    (i.loaded t.state ++ (trackAll b (k + 1) is (i.track b k t)).1,
      (trackAll b (k + 1) is (i.track b k t)).2)

/-- One block, with the last writers. -/
def PassFunction.tracked (f : PassFunction N) (b : BlockId) (t : Attributed N) :
    List (N × ℕ) × BlockRun.Exit BlockId (Attributed N) :=
  let end' := trackAll b 0 (f.block b).insts t
  (end'.1, ((f.block b).terminator.exit end'.2.state).map fun _ => end'.2)

theorem trackAll_eq (b : BlockId) : ∀ (k : ℕ) (is : List (PassInst N)) (t : Attributed N),
    (trackAll b k is t).1 = (runAll is t.state).1 ∧
      (trackAll b k is t).2.state = (runAll is t.state).2
  | _, [], _ => ⟨rfl, rfl⟩
  | k, i :: is, t => by
    obtain ⟨hout, hstate⟩ := trackAll_eq b (k + 1) is (i.track b k t)
    exact ⟨congrArg _ hout, hstate⟩

/-- If the instruction is a load, none of the bytes it reads was written last at a lost position. -/
def PassInst.ReadsNone (lost : BlockId → ℕ → Prop) (i : PassInst N) (t : Attributed N) : Prop :=
  match i with
  | load _ w ptr => ∀ x, (x - ptr.offset t.state.env).toNat < typeStoreSize w →
    ∀ b k, t.writer ptr.region x = some (b, k) → ¬ lost b k
  | _ => True

def ReadsNoneAll (lost : BlockId → ℕ → Prop) (b : BlockId) : ℕ → List (PassInst N) → Attributed N → Prop
  | _, [], _ => True
  | k, i :: is, t => i.ReadsNone lost t ∧ ReadsNoneAll lost b (k + 1) is (i.track b k t)

/-- Executing the block from this state, no load reads what a lost store wrote, and if it returns no byte
of the return register is what a lost store wrote. -/
structure PassFunction.Spares (f : PassFunction N) (ret : Register) (lost : BlockId → ℕ → Prop)
    (b : BlockId) (t : Attributed N) : Prop where
  loads : ReadsNoneAll lost b 0 (f.block b).insts t
  returns : (f.block b).terminator = .ret → ∀ x : Addr, (x - ret.offset).toNat < ret.size →
    ∀ c k, (trackAll b 0 (f.block b).insts t).2.writer .state x = some (c, k) → ¬ lost c k

/-! ### The run without the erased stores -/

/-- A state of the function without the lost stores: the values are the same, and so is every byte whose
last writer is still there. -/
structure Attributed.Keeps (lost : BlockId → ℕ → Prop) (t : Attributed N) (s : PassState N) : Prop where
  env : s.env = t.state.env
  mem : ∀ r x, (∀ b k, t.writer r x = some (b, k) → ¬ lost b k) → s.mem r x = t.state.mem r x

variable {lost : BlockId → ℕ → Prop} {t : Attributed N} {s : PassState N} {b : BlockId} {k : ℕ}

/-- An instruction that stays. -/
theorem Attributed.Keeps.track (h : t.Keeps lost s) {i : PassInst N} (hreads : i.ReadsNone lost t) :
    i.loaded s = i.loaded t.state ∧ (i.track b k t).Keeps lost (i.exec s) := by
  cases i with
  | binary dst op w x y | cast dst op src w x | other dst args compute =>
    refine ⟨rfl, ?_, h.mem⟩
    simp only [exec, PassInst.track, PassState.env_set, h.env]
  | load dst w ptr =>
    have hload : ByteMemory.load (s.mem ptr.region) (ptr.offset s.env) (typeStoreSize w)
        = ByteMemory.load (t.state.mem ptr.region) (ptr.offset t.state.env) (typeStoreSize w) := by
      rw [h.env]
      refine ByteMemory.load_congr fun i hi => h.mem _ _ (hreads _ ?_)
      rw [BitVec.add_comm, BitVec.add_sub_cancel, BitVec.toNat_ofNat]
      exact (Nat.mod_le ..).trans_lt hi
    refine ⟨by rw [loaded, loaded, hload], ?_, h.mem⟩
    change (exec (.load dst w ptr) s).env = (exec (.load dst w ptr) t.state).env
    rw [exec, exec, PassState.env_set, PassState.env_set, hload, h.env]
  | store w value ptr =>
    refine ⟨rfl, h.env, fun r x hx => ?_⟩
    simp only [PassInst.track] at hx ⊢
    rw [exec, exec, PassState.mem_store_apply, PassState.mem_store_apply, h.env]
    split
    · rfl
    · next hout =>
      rw [if_neg hout] at hx
      exact h.mem r x hx

/-- A store that is erased. -/
theorem Attributed.Keeps.track_erased (h : t.Keeps lost s) {w : ℕ} {value : Operand N} {ptr : PassPtr N}
    (hlost : lost b k) : ((PassInst.store w value ptr).track b k t).Keeps lost s := by
  refine ⟨h.env, fun r x hx => ?_⟩
  simp only [PassInst.track] at hx ⊢
  rw [exec, PassState.mem_store_apply]
  split
  · next hin =>
    rw [if_pos hin] at hx
    exact absurd hlost (hx b k rfl)
  · next hout =>
    rw [if_neg hout] at hx
    exact h.mem r x hx

/-- Straight-line code without some of its stores. -/
theorem Attributed.Keeps.trackAll {dead : ℕ → Bool} (hdead : ∀ k, dead k = true ↔ lost b k) :
    ∀ {k : ℕ} {is : List (PassInst N)} {t : Attributed N} {s : PassState N}, t.Keeps lost s →
      (∀ i ∈ is.zipIdx k, dead i.2 = true → ∃ w value ptr, i.1 = .store w value ptr) →
      ReadsNoneAll lost b k is t →
      (runAll (((is.zipIdx k).filter fun i => !dead i.2).map Prod.fst) s).1 = (Vexa.trackAll b k is t).1 ∧
        (Vexa.trackAll b k is t).2.Keeps lost
          (runAll (((is.zipIdx k).filter fun i => !dead i.2).map Prod.fst) s).2
  | _, [], _, _, h, _, _ => ⟨rfl, h⟩
  | k, i :: is, _, _, h, hstores, hreads => by
    obtain ⟨hfirst, hrest⟩ := hreads
    rw [List.zipIdx_cons] at hstores ⊢
    obtain ⟨hhead, htail⟩ := List.forall_mem_cons.mp hstores
    by_cases hk : dead k = true
    · obtain ⟨w, value, ptr, rfl⟩ := hhead hk
      rw [List.filter_cons_of_neg (by simp [hk])]
      exact (h.track_erased ((hdead k).mp hk)).trackAll hdead htail hrest
    · obtain ⟨hloaded, hnext⟩ := h.track (b := b) (k := k) hfirst
      obtain ⟨hout, hkeeps⟩ := hnext.trackAll hdead htail hrest
      rw [List.filter_cons_of_pos (by simp [hk]), List.map_cons, runAll_cons, hloaded]
      exact ⟨congrArg _ hout, hkeeps⟩

theorem tracked_eq (f : PassFunction N) (b : BlockId) (t : Attributed N) :
    f.step b t.state = ((f.tracked b t).1, (f.tracked b t).2.map Attributed.state) := by
  obtain ⟨hout, hstate⟩ := trackAll_eq b 0 (f.block b).insts t
  rw [PassFunction.step, PassFunction.tracked, hout, hstate]
  congr 1
  cases (f.block b).terminator with
  | switch | ret => simp only [Terminator.exit, BlockRun.Exit.map, hstate]
  | unreachable => rfl

omit [DecidableEq N] in
theorem store_of_candidate {ret : Register} {i : PassInst N} {g : ConstantGep N}
    (h : i.candidate ret = some g) : ∃ w value ptr, i = .store w value ptr := by
  cases i with
  | store w value ptr => exact ⟨w, value, ptr, rfl⟩
  | _ => cases h

/-- **`state_cleanup`** changes no load and no byte of the return register, as long as no load reads and
no return leaves in the return register what a store wrote that the search found no load for. -/
theorem stateCleanup_keeps (f : PassFunction N) (ret : Register) {b : BlockId} (hb : b ∈ f.order)
    (s : PassState N)
    (hspares : ∀ c t, BlockRun.Reaches f.tracked b ⟨s, fun _ _ => none⟩ c t →
      f.Spares ret (f.Overlooked ret) c t) (n : ℕ) :
    (BlockRun.run f.step n b s).1 = (BlockRun.run (f.stateCleanup ret).step n b s).1 ∧
    BlockRun.Exit.Related (fun _ _ _ => True)
      (fun s t => ∀ x : Addr, (x - ret.offset).toNat < ret.size → s.mem .state x = t.mem .state x)
      (BlockRun.run f.step n b s).2 (BlockRun.run (f.stateCleanup ret).step n b s).2 := by
  have hblock : ∀ c (t : Attributed N) (s : PassState N),
      c ∈ f.order ∧ t.Keeps (f.Overlooked ret) s → f.Spares ret (f.Overlooked ret) c t →
      (f.tracked c t).1 = ((f.stateCleanup ret).step c s).1 ∧
      BlockRun.Exit.Related (fun c t s => c ∈ f.order ∧ t.Keeps (f.Overlooked ret) s)
        (fun t s => ∀ x : Addr, (x - ret.offset).toNat < ret.size →
          t.state.mem .state x = s.mem .state x)
        (f.tracked c t).2 ((f.stateCleanup ret).step c s).2 := by
    rintro c t s ⟨hc, hkeeps⟩ ⟨hloads, hreturns⟩
    have hstores : ∀ i ∈ (f.block c).insts.zipIdx, f.dead ret c i.2 = true →
        ∃ w value ptr, i.1 = .store w value ptr := by
      intro i hi hdead
      obtain ⟨j, g, hj, hcand, _⟩ := (dead_iff_overlooked f ret hc i.2).mp hdead
      rw [List.mem_zipIdx_iff_getElem?.mp hi] at hj
      exact store_of_candidate (Option.some.inj hj ▸ hcand)
    obtain ⟨hout, hkeeps'⟩ := hkeeps.trackAll (dead_iff_overlooked f ret hc) hstores hloads
    have hclosed := f.closed c hc
    rw [PassFunction.tracked, PassFunction.step, stateCleanup_block, PassFunction.erase_block,
      PassBlock.erase]
    refine ⟨hout.symm, ?_⟩
    cases hterminator : (f.block c).terminator with
    | switch value cases default =>
      rw [Terminator.exit, Terminator.exit, hkeeps'.env]
      rw [hterminator] at hclosed
      exact .goto
        ⟨hclosed _ (Terminator.mem_successors (s := (Vexa.trackAll c 0 _ t).2.state) rfl), hkeeps'⟩
    | ret => exact .ret fun x hx => (hkeeps'.mem .state x (hreturns hterminator x hx)).symm
    | unreachable => exact .stuck
  obtain ⟨hout, hend⟩ := BlockRun.run_related (O := Eq) rfl (fun h h' => congrArg₂ _ h h') hblock n
    ⟨hb, rfl, fun _ _ _ => rfl⟩ hspares
  rw [BlockRun.run_map (tracked_eq f) n b ⟨s, fun _ _ => none⟩]
  exact ⟨hout, (hend.mono (fun _ _ _ _ => trivial) fun _ _ h => h).of_map⟩

end

/-! ### Examples -/

/-- The register at this offset. -/
def registerPtr (offset : ℕ) : PassPtr ℕ := .gep int8Type (.base .state) [⟨1, 64, .const 64 offset⟩]

def returnRegister : Register := ⟨"RAX", 0, 8, false⟩

/-- A register is written twice, then read. -/
def writtenTwice : PassFunction ℕ where
  order := [0]
  block _ := ⟨[.store 64 (.const 64 1) (registerPtr 8), .store 64 (.const 64 2) (registerPtr 8),
    .load 0 64 (registerPtr 8)], .ret⟩
  nodup := nodup_entryOnly
  nonempty := entryOnly_ne_nil
  closed _ _ _ h := absurd h List.not_mem_nil

def zeroState : PassState ℕ := ⟨fun _ => 0, fun _ _ => 0⟩

theorem stateCleanup_keeps_writtenTwice :
    (BlockRun.run writtenTwice.step 1 0 zeroState).1
      = (BlockRun.run (writtenTwice.stateCleanup returnRegister).step 1 0 zeroState).1 ∧
    BlockRun.Exit.Related (fun _ _ _ => True)
      (fun s t => ∀ x : Addr, (x - returnRegister.offset).toNat < returnRegister.size →
        s.mem .state x = t.mem .state x)
      (BlockRun.run writtenTwice.step 1 0 zeroState).2
      (BlockRun.run (writtenTwice.stateCleanup returnRegister).step 1 0 zeroState).2 := by
  refine stateCleanup_keeps writtenTwice returnRegister (List.mem_singleton_self 0) zeroState ?_ 1
  rintro c t ⟨n, hn⟩
  cases n with
  | zero =>
    obtain ⟨rfl, rfl⟩ := BlockRun.Exit.goto.inj hn
    have hlast : ¬ writtenTwice.Overlooked returnRegister 0 1 := by
      rw [← dead_iff_overlooked writtenTwice returnRegister (List.mem_singleton_self 0)]
      decide
    refine ⟨⟨trivial, trivial, fun x hx b k hk => ?_, trivial⟩, fun _ x hx b k hk => ?_⟩
    · simp only [PassInst.track] at hk
      rw [if_pos ⟨trivial, hx⟩] at hk
      obtain ⟨rfl, rfl⟩ := Prod.mk.inj (Option.some.inj hk)
      exact hlast
    · have hout : ¬ (x - 8).toNat < 8 := by
        change (x - 0).toNat < 8 at hx
        bv_omega
      change (if PassRegion.state = .state ∧ (x - 8).toNat < 8 then some (0, 1)
        else if PassRegion.state = .state ∧ (x - 8).toNat < 8 then some (0, 0)
        else none) = some (b, k) at hk
      rw [if_neg fun h => hout h.2, if_neg fun h => hout h.2] at hk
      cases hk
  | succ n => cases hn

/-- A register counts the turns of a loop of one block. -/
def countingLoop : PassFunction ℕ where
  order := [0, 1, 2]
  block
    | 0 => ⟨[], .switch (.const 1 0) [] 1⟩
    | 1 => ⟨[.load 0 64 (registerPtr 8), .binary 1 .add 64 (.ssa 0) (.const 64 1),
        .store 64 (.ssa 1) (registerPtr 8)], .switch (.ssa 0) [(0, 1)] 2⟩
    | _ => ⟨[], .ret⟩
  nodup := by decide
  nonempty := by decide
  closed := by decide

/-- The store is erased, and the second turn reads what the first one did. -/
theorem loop_store_erased : ¬ ∀ (f : PassFunction ℕ) (ret : Register) (b : BlockId), b ∈ f.order →
    ∀ (s : PassState ℕ) (n : ℕ),
    (BlockRun.run f.step n b s).1 = (BlockRun.run (f.stateCleanup ret).step n b s).1 ∧
    BlockRun.Exit.Related (fun _ _ _ => True)
      (fun s t => ∀ x : Addr, (x - ret.offset).toNat < ret.size → s.mem .state x = t.mem .state x)
      (BlockRun.run f.step n b s).2 (BlockRun.run (f.stateCleanup ret).step n b s).2 := by
  intro h
  exact absurd (h countingLoop returnRegister 0 (by decide) zeroState 3).1 (by decide +kernel)

end Vexa
