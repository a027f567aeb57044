import Vexa.SharedMemory
import Mathlib.Tactic.Abel

/-!
# Snapshots are isolated

`PlainMemory` says what `vexa::memory` is for: pages are values, and a snapshot is a copy of them.
Nothing is shared and nothing is counted, so no step can touch a snapshot. `Simulates` relates the
shared memory to it; `step_simulates` carries the relation over every operation, and what a restore
yields is read off the plain level.

## Main definitions

* `PlainMemory`, `PlainMemory.step`
* `SharedMemory.Simulates` — the relation, with the accounting of holders

## Main results

* `SharedMemory.step_simulates`, `SharedMemory.run_simulates` — the simulation
* `SharedMemory.restoreSnapshot_isolated` — what a restore yields
-/

namespace Vexa

/-! ### The plain memory -/

/-- A memory whose pages are values and whose snapshots are copies. -/
structure PlainMemory where
  context : Context
  pages : List PageId
  handles : List PageId
  snapshots : List (ℕ × List (PageId × Storage))
  taken : ℕ
  next : PageId

namespace PlainMemory

def empty : PlainMemory := ⟨⟨fun _ => .empty, 0, 0⟩, [], [], [], 0, 0⟩

/-- Replace one page. -/
def update (m : PlainMemory) (p : PageId) (new : MemPage) : PlainMemory :=
  { m with context.memory := Function.update m.context.memory p new }

@[simp] theorem memory_update (m : PlainMemory) (p : PageId) (new : MemPage) :
    (m.update p new).context.memory = Function.update m.context.memory p new := rfl

/-- Put the copies back. -/
def restorePages : Memory → List (PageId × Storage) → Memory
  | m, [] => m
  | m, st :: state => restorePages (Function.update m st.1 { m st.1 with memory := st.2 }) state

def step (S : Solver) (m : PlainMemory) : MemoryOp → Option Value × PlainMemory
  | .allocate =>
    (none, { m.update m.next .empty with
      pages := m.pages ++ [m.next], handles := m.next :: m.handles, next := m.next + 1 })
  | .copyHandle p =>
    if p ∈ m.handles then (none, { m with handles := p :: m.handles }) else (none, m)
  | .dropHandle p =>
    if p ∈ m.handles then (none, { m with handles := m.handles.erase p }) else (none, m)
  | .initializeAt p a v =>
    if p ∈ m.handles then (none, m.update p ((m.context.memory p).initializeAt a v)) else (none, m)
  | .sealPage p =>
    if p ∈ m.handles then (none, m.update p (m.context.memory p).sealPage) else (none, m)
  | .write addr val =>
    if addr.page ∈ m.handles then (none, { m with context := m.context.write S addr val })
    else (none, m)
  | .read addr size =>
    if addr.page ∈ m.handles then
      ((m.context.read S addr size).1, { m with context := (m.context.read S addr size).2 })
    else (none, m)
  | .takeSnapshot =>
    (none, { m with
      snapshots := (m.taken, m.pages.map fun p => (p, (m.context.memory p).memory)) :: m.snapshots
      taken := m.taken + 1 })
  | .restoreSnapshot id =>
    match m.snapshots.lookup id with
    | some state =>
      (none, { m with
        context.memory := restorePages m.context.memory state, pages := state.map Prod.fst })
    | none => (none, m)
  | .dropSnapshot id => (none, { m with snapshots := m.snapshots.eraseP (·.1 == id) })

end PlainMemory

/-! ### The relation -/

namespace SharedMemory

/-- The holders of pages: the list, the pointers and the snapshots. -/
def pageHolders (s : SharedMemory) : Multiset ℕ :=
  ↑s.pages + ↑s.handles + ↑(s.snapshots.flatMap fun ss => ss.2.map PageState.page)

/-- The holders of storages other than pages: the snapshots. -/
def storageHolders (s : SharedMemory) : Multiset ℕ :=
  ↑(s.snapshots.flatMap fun ss => ss.2.map PageState.memory)

/-- What a snapshot contains. -/
def contents (o : Objects) (state : List PageState) : List (PageId × Storage) :=
  state.map fun st => (st.page, o.storage st.memory)

/-- The shared memory `s` implements the plain memory `m`. -/
structure Simulates (s : SharedMemory) (m : PlainMemory) : Prop where
  /-- Use counts agree with the holders. -/
  held : s.objects.Held s.pageHolders s.storageHolders
  pages : m.pages = s.pages
  handles : m.handles = s.handles
  taken : m.taken = s.taken
  next : m.next = s.objects.pages.next
  fresh : m.context.fresh = s.fresh
  /-- Every page that is held contains what it does on the plain level. -/
  page : ∀ p ∈ s.pageHolders, s.objects.page p = m.context.memory p
  /-- Every snapshot does. -/
  snapshots : m.snapshots = s.snapshots.map fun ss => (ss.1, contents s.objects ss.2)

variable {S : Solver} {s : SharedMemory} {m : PlainMemory}

theorem empty_simulates : Simulates .empty .empty where
  held := Objects.Held.empty
  pages := rfl
  handles := rfl
  taken := rfl
  next := rfl
  fresh := rfl
  page := by simp [empty, pageHolders]
  snapshots := rfl

theorem mem_pageHolders_of_handle {p : PageId} (hp : p ∈ s.handles) : p ∈ s.pageHolders :=
  Multiset.mem_add.mpr (.inl (Multiset.mem_add.mpr (.inr hp)))

theorem mem_pageHolders_of_page {p : PageId} (hp : p ∈ s.pages) : p ∈ s.pageHolders :=
  Multiset.mem_add.mpr (.inl (Multiset.mem_add.mpr (.inl hp)))

/-- What snapshots contain depends on the storages they hold only. -/
theorem contents_congr {o o' : Objects}
    (h : ∀ l ∈ s.storageHolders, o'.storage l = o.storage l) :
    (s.snapshots.map fun ss => (ss.1, contents o' ss.2))
      = s.snapshots.map fun ss => (ss.1, contents o ss.2) := by
  refine List.map_congr_left fun ss hss => ?_
  refine congrArg (Prod.mk ss.1) (List.map_congr_left fun st hst => ?_)
  rw [h st.memory]
  exact List.mem_flatMap.mpr ⟨ss, hss, List.mem_map_of_mem hst⟩

/-- Replacing one page on both levels. -/
theorem Simulates.update (h : Simulates s m) {o : Objects} {p : PageId} {new : MemPage}
    (ho : s.objects.Updated o s.pageHolders s.storageHolders p new) :
    Simulates { s with objects := o } (m.update p new) where
  held := ho.held
  pages := h.pages
  handles := h.handles
  taken := h.taken
  next := h.next.trans ho.next.symm
  fresh := h.fresh
  page q hq := by
    by_cases hne : q = p
    · subst hne
      rw [PlainMemory.memory_update, Function.update_self]
      exact ho.self
    · rw [PlainMemory.memory_update, Function.update_of_ne hne, ← h.page q hq]
      exact ho.other q hq hne
  snapshots := h.snapshots.trans (contents_congr ho.storage).symm

/-! ### Reads -/

theorem Simulates.readByte (h : Simulates s m) {p : PageId} (hp : p ∈ s.handles) (a : Addr) :
    (s.readByte p a).1 = (m.context.readByte p a).1 ∧
      Simulates (s.readByte p a).2 { m with context := (m.context.readByte p a).2 } ∧
      (s.readByte p a).2.handles = s.handles := by
  have hpage := h.page p (mem_pageHolders_of_handle hp)
  rw [SharedMemory.readByte, Context.readByte, ← hpage, h.fresh]
  cases hfind : (s.objects.page p).find a with
  | some cell => exact ⟨rfl, h, rfl⟩
  | none =>
    have hup := h.update (h.held.writeCell (mem_pageHolders_of_handle hp) a
      (Context.uninitCell p a s.fresh))
    exact ⟨rfl, ⟨hup.held, hup.pages, hup.handles, hup.taken, hup.next, rfl, hup.page,
      hup.snapshots⟩, rfl⟩

theorem Simulates.readCells {p : PageId} (base : Addr) : ∀ (n : ℕ) {s : SharedMemory}
    {m : PlainMemory}, Simulates s m → p ∈ s.handles →
    (s.readCells p base n).1 = (m.context.readCells p base n).1 ∧
      Simulates (s.readCells p base n).2 { m with context := (m.context.readCells p base n).2 }
  | 0, s, m, h, _ => ⟨rfl, h⟩
  | n + 1, s, m, h, hp => by
    obtain ⟨hcell, hsim, hhandles⟩ := h.readByte hp (base + BitVec.ofNat 64 n)
    obtain ⟨hcells, hsim'⟩ := Simulates.readCells base n hsim (hhandles ▸ hp)
    exact ⟨congrArg₂ List.cons hcell hcells, hsim'⟩

theorem Simulates.read (h : Simulates s m) {addr : Pointer} (hp : addr.page ∈ s.handles)
    (size : ℕ) :
    (s.read S addr size).1 = (m.context.read S addr size).1 ∧
      Simulates (s.read S addr size).2 { m with context := (m.context.read S addr size).2 } := by
  rw [SharedMemory.read, Context.read]
  cases (addr.simplify S).asUint64 with
  | none =>
    simp only [Context.symbolic, h.fresh]
    exact ⟨trivial, ⟨h.held, h.pages, h.handles, h.taken, h.next, rfl, h.page, h.snapshots⟩⟩
  | some base =>
    obtain ⟨hcell, hsim, hhandles⟩ := h.readByte hp (base + BitVec.ofNat 64 (size / 8) - 1)
    obtain ⟨hcells, hsim'⟩ := Simulates.readCells base (size / 8 - 1) hsim (hhandles ▸ hp)
    exact ⟨congrArg₂ (Context.assemble · · size (size / 8)) hcell hcells, hsim'⟩

theorem Simulates.write (h : Simulates s m) {addr : Pointer} (hp : addr.page ∈ s.handles)
    (val : Value) :
    Simulates (s.write S addr val) { m with context := m.context.write S addr val } := by
  rw [SharedMemory.write, Context.write, Memory.write]
  cases (addr.simplify S).asUint64 with
  | none => exact h
  | some base =>
    simp only
    rw [← h.page addr.page (mem_pageHolders_of_handle hp)]
    exact h.update (h.held.writeCells (mem_pageHolders_of_handle hp) base _ _ _)

/-! ### Snapshots -/

/-- Looking a snapshot up does not look into it. -/
theorem lookup_map {σ τ : Type*} (f : σ → τ) (id : ℕ) : ∀ l : List (ℕ × σ),
    (l.map fun ss => (ss.1, f ss.2)).lookup id = (l.lookup id).map f
  | [] => rfl
  | ss :: l => by
    rw [List.map_cons, List.lookup_cons, List.lookup_cons, lookup_map f id l]
    split <;> rfl

/-- A snapshot that is found is one of the list, and the others stay when it is dropped. -/
theorem perm_of_lookup {σ : Type*} {id : ℕ} {st : σ} : ∀ {l : List (ℕ × σ)},
    l.lookup id = some st → l.Perm ((id, st) :: l.eraseP (·.1 == id))
  | [], h => by cases h
  | ss :: l, h => by
    rw [List.lookup_cons] at h
    by_cases hid : id = ss.1
    · subst hid
      rw [beq_self_eq_true] at h
      obtain rfl := Option.some.inj h
      rw [List.eraseP_cons_of_pos (by simp)]
    · rw [beq_eq_false_iff_ne.mpr hid] at h
      rw [List.eraseP_cons_of_neg (by simpa using Ne.symm hid)]
      exact ((perm_of_lookup h).cons ss).trans (List.Perm.swap _ _ _)

theorem eraseP_of_lookup_eq_none {σ : Type*} {id : ℕ} : ∀ {l : List (ℕ × σ)},
    l.lookup id = none → l.eraseP (·.1 == id) = l
  | [], _ => rfl
  | ss :: l, h => by
    rw [List.lookup_cons] at h
    by_cases hid : id = ss.1
    · subst hid; rw [beq_self_eq_true] at h; cases h
    · rw [beq_eq_false_iff_ne.mpr hid] at h
      rw [List.eraseP_cons_of_neg (by simpa using Ne.symm hid), eraseP_of_lookup_eq_none h]

/-- The snapshot dropped next gives back its share of the holders. -/
theorem holders_of_lookup {id : ℕ} {state : List PageState}
    (h : s.snapshots.lookup id = some state) :
    s.pageHolders = ↑(state.map PageState.page)
        + { s with snapshots := s.snapshots.eraseP (·.1 == id) }.pageHolders ∧
      s.storageHolders = ↑(state.map PageState.memory)
        + { s with snapshots := s.snapshots.eraseP (·.1 == id) }.storageHolders := by
  have hperm := perm_of_lookup h
  have hpages := Multiset.coe_eq_coe.mpr (hperm.flatMap_right fun ss => ss.2.map PageState.page)
  have hmems := Multiset.coe_eq_coe.mpr (hperm.flatMap_right fun ss => ss.2.map PageState.memory)
  rw [List.flatMap_cons, ← Multiset.coe_add] at hpages hmems
  constructor
  · rw [pageHolders, hpages, pageHolders, add_left_comm]
  · rw [storageHolders, hmems, storageHolders]

/-- The loop of `restore_snapshot`: the slots are released one by one, and the pages of the
snapshot take their place. -/
theorem restorePages_simulates : ∀ {state : List PageState} {slots : List PageId} {o : Objects}
    {P Q : Multiset ℕ} {M : Memory}, o.Held (↑slots + P) Q → slots.length ≤ state.length →
    (∀ st ∈ state, st.page ∈ P ∧ st.memory ∈ Q) → (∀ q ∈ P, o.page q = M q) →
      (o.restorePages slots state).Held (↑(state.map PageState.page) + P) Q ∧
      (∀ q ∈ P, (o.restorePages slots state).page q
        = PlainMemory.restorePages M (contents o state) q) ∧
      (∀ l ∈ Q, (o.restorePages slots state).storage l = o.storage l) ∧
      (o.restorePages slots state).pages.next = o.pages.next
  | [], slots, o, P, Q, M, h, hlen, _, hmem => by
    obtain rfl : slots = [] := List.length_eq_zero_iff.mp (Nat.le_zero.mp hlen)
    exact ⟨h, hmem, fun _ _ => rfl, rfl⟩
  | st :: state, slots, o, P, Q, M, h, hlen, hstate, hmem => by
    obtain ⟨hpage, hstorage⟩ := hstate st (List.mem_cons_self ..)
    -- after the slot has been handed over, whatever was in it
    obtain ⟨o₁, htail, hheld, hsame, hnext, hunfold⟩ : ∃ o₁, slots.tail.length ≤ state.length ∧
        o₁.Held (↑slots.tail + (st.page ::ₘ P)) Q ∧ o.Same o₁ P Q ∧ o₁.pages.next = o.pages.next ∧
        o.restorePages slots (st :: state)
          = (o₁.assignMemory st.page st.memory).restorePages slots.tail state := by
      cases slots with
      | nil =>
        have hret := h.retainPage (Multiset.mem_add.mpr (.inr hpage))
        rw [← Multiset.add_cons] at hret
        exact ⟨o.retainPage st.page, Nat.zero_le _, hret, ⟨fun _ _ => rfl, fun _ _ => rfl⟩, rfl, rfl⟩
      | cons old slots =>
        have hret := h.retainPage (Multiset.mem_add.mpr (.inr hpage))
        rw [← Multiset.cons_coe, Multiset.cons_add, Multiset.cons_swap, ← Multiset.add_cons] at hret
        obtain ⟨hrel, hsame⟩ := hret.releasePage
        refine ⟨_, Nat.le_of_succ_le_succ hlen, hrel, ⟨fun q hq => ?_, hsame.storage⟩,
          Objects.next_releasePage _ _, rfl⟩
        exact hsame.page q (Multiset.mem_add.mpr (.inr (Multiset.mem_cons_of_mem hq)))
    have hassign := hheld.assignMemory
      (Multiset.mem_add.mpr (.inr (Multiset.mem_cons_self _ _))) hstorage
    have hnew : ∀ q ∈ st.page ::ₘ P, (o₁.assignMemory st.page st.memory).page q
        = Function.update M st.page
            { M st.page with memory := o.storage st.memory } q := by
      intro q hq
      by_cases hne : q = st.page
      · subst hne
        rw [hassign.self, Function.update_self, hsame.page _ hpage, hsame.storage _ hstorage,
          hmem _ hpage]
      · have hqP : q ∈ P := (Multiset.mem_cons.mp hq).resolve_left hne
        rw [hassign.other q (Multiset.mem_add.mpr (.inr hq)) hne, hsame.page q hqP,
          Function.update_of_ne hne, hmem q hqP]
    have hkeep : ∀ l ∈ Q, (o₁.assignMemory st.page st.memory).storage l = o.storage l := fun l hl =>
      (hassign.storage l hl).trans (hsame.storage l hl)
    obtain ⟨hrest, hpages, hstorages, hnext'⟩ := restorePages_simulates hassign.held htail
      (fun st' hst' => ⟨Multiset.mem_cons_of_mem (hstate st' (List.mem_cons_of_mem _ hst')).1,
        (hstate st' (List.mem_cons_of_mem _ hst')).2⟩) hnew
    have hcontents : contents (o₁.assignMemory st.page st.memory) state = contents o state :=
      List.map_congr_left fun st' hst' => by
        rw [hkeep _ (hstate st' (List.mem_cons_of_mem _ hst')).2]
    rw [hcontents] at hpages
    rw [hunfold]
    refine ⟨?_, fun q hq => hpages q (Multiset.mem_cons_of_mem hq),
      fun l hl => (hstorages l hl).trans (hkeep l hl), hnext'.trans (hassign.next.trans hnext)⟩
    rw [Multiset.add_cons, ← Multiset.cons_add, Multiset.cons_coe] at hrest
    exact hrest

/-! ### The simulation -/

theorem Simulates.allocate (h : Simulates s m) :
    Simulates s.allocate (m.step S .allocate).2 := by
  obtain ⟨hmade, hsame, hempty⟩ := h.held.makePage
  have hheld := hmade.retainPage (Multiset.mem_cons_self _ _)
  have hholders : s.allocate.pageHolders
      = s.objects.pages.next ::ₘ s.objects.pages.next ::ₘ s.pageHolders := by
    simp only [pageHolders, SharedMemory.allocate, ← Multiset.coe_add, ← Multiset.cons_coe,
      ← Multiset.singleton_add]
    abel
  refine ⟨hholders ▸ hheld, ?_, ?_, h.taken, congrArg (· + 1) h.next, h.fresh, fun q hq => ?_,
    h.snapshots.trans (contents_congr hsame.storage).symm⟩
  · rw [SharedMemory.allocate, PlainMemory.step, h.pages, h.next]
  · rw [SharedMemory.allocate, PlainMemory.step, h.handles, h.next]
  · change s.objects.makePage.page q = Function.update m.context.memory m.next .empty q
    rw [hholders] at hq
    by_cases hne : q = s.objects.pages.next
    · rw [hne, hempty, h.next, Function.update_self]
    · have hq' : q ∈ s.pageHolders :=
        (Multiset.mem_cons.mp ((Multiset.mem_cons.mp hq).resolve_left hne)).resolve_left hne
      rw [h.next, Function.update_of_ne hne, hsame.page q hq', h.page q hq']

theorem Simulates.copyHandle (h : Simulates s m) {p : PageId} (hp : p ∈ s.handles) :
    Simulates { s with objects := s.objects.retainPage p, handles := p :: s.handles }
      { m with handles := p :: m.handles } := by
  have hholders : pageHolders
      { s with objects := s.objects.retainPage p, handles := p :: s.handles }
        = p ::ₘ s.pageHolders := by
    simp only [pageHolders, ← Multiset.cons_coe, Multiset.add_cons, Multiset.cons_add]
  refine ⟨hholders ▸ h.held.retainPage (mem_pageHolders_of_handle hp), h.pages,
    congrArg (p :: ·) h.handles, h.taken, h.next, h.fresh, fun q hq => ?_, h.snapshots⟩
  rw [hholders, Multiset.mem_cons, or_iff_right_of_imp] at hq
  · exact h.page q hq
  · rintro rfl
    exact mem_pageHolders_of_handle hp

theorem Simulates.dropHandle (h : Simulates s m) {p : PageId} (hp : p ∈ s.handles) :
    Simulates { s with objects := s.objects.releasePage p, handles := s.handles.erase p }
      { m with handles := m.handles.erase p } := by
  have hholders : s.pageHolders = p ::ₘ pageHolders
      { s with objects := s.objects.releasePage p, handles := s.handles.erase p } := by
    have hperm := Multiset.coe_eq_coe.mpr (List.perm_cons_erase hp)
    simp only [pageHolders, hperm, ← Multiset.cons_coe, Multiset.add_cons, Multiset.cons_add]
  have hheld := h.held
  rw [hholders] at hheld
  obtain ⟨hrel, hsame⟩ := hheld.releasePage
  refine ⟨hrel, h.pages, congrArg (·.erase p) h.handles, h.taken,
    h.next.trans (Objects.next_releasePage _ _).symm, h.fresh, fun q hq => ?_,
    h.snapshots.trans (contents_congr hsame.storage).symm⟩
  rw [hsame.page q hq]
  exact h.page q (hholders ▸ Multiset.mem_cons_of_mem hq)

/-- Every page of the list is alive, so every one is in the snapshot. -/
theorem contents_pageStates (h : Simulates s m) : ∀ {ps : List PageId}, (∀ p ∈ ps, p ∈ s.pages) →
    (s.objects.pageStates ps).map PageState.page = ps ∧
      contents s.objects (s.objects.pageStates ps)
        = ps.map fun p => (p, (m.context.memory p).memory)
  | [], _ => ⟨rfl, rfl⟩
  | p :: ps, hps => by
    have hp := mem_pageHolders_of_page (hps p (List.mem_cons_self ..))
    obtain ⟨page, hpage⟩ := h.held.pages.exists_cell hp
    obtain ⟨ihpages, ihcontents⟩ := contents_pageStates h fun q hq => hps q (List.mem_cons_of_mem _ hq)
    have hcons : s.objects.pageStates (p :: ps)
        = ⟨p, page.memory⟩ :: s.objects.pageStates ps := by
      rw [Objects.pageStates, List.filterMap_cons, hpage]
      rfl
    rw [hcons, List.map_cons, ihpages, List.map_cons, ← ihcontents, ← h.page p hp,
      Objects.page_of_cell hpage]
    exact ⟨rfl, rfl⟩

theorem Simulates.takeSnapshot (h : Simulates s m) :
    Simulates s.takeSnapshot (m.step S .takeSnapshot).2 := by
  set state := s.objects.pageStates s.pages with hstate
  obtain ⟨hpages, hcontents⟩ := contents_pageStates h fun p (hp : p ∈ s.pages) => hp
  obtain ⟨hheld, hstorages, hcells, hnext⟩ := h.held.retainStates state fun st hst => by
    obtain ⟨p, hp, hcell⟩ := List.mem_filterMap.mp hst
    obtain ⟨page, hpage, rfl⟩ := Option.map_eq_some_iff.mp hcell
    exact ⟨mem_pageHolders_of_page hp, h.held.memory_mem hpage⟩
  have hsame : ∀ l, s.takeSnapshot.objects.storage l = s.objects.storage l := fun l =>
    Objects.storage_congr (congrFun hstorages l)
  have hholders : s.takeSnapshot.pageHolders = ↑(state.map PageState.page) + s.pageHolders := by
    simp only [pageHolders, SharedMemory.takeSnapshot, List.flatMap_cons, ← Multiset.coe_add]
    abel
  have hstorageHolders :
      s.takeSnapshot.storageHolders = ↑(state.map PageState.memory) + s.storageHolders := by
    simp only [storageHolders, SharedMemory.takeSnapshot, List.flatMap_cons, ← Multiset.coe_add]
    rfl
  refine ⟨by rw [hholders, hstorageHolders]; exact hheld, h.pages, h.handles,
    congrArg (· + 1) h.taken, h.next.trans hnext.symm, h.fresh, fun q hq => ?_, ?_⟩
  · rw [hholders, hpages] at hq
    exact (Objects.page_eq (congrFun hcells q) fun page _ => congrFun hstorages _).trans
      (h.page q ((Multiset.mem_add.mp hq).elim mem_pageHolders_of_page id))
  · have hnew : contents s.takeSnapshot.objects state
        = m.pages.map fun p => (p, (m.context.memory p).memory) := by
      rw [h.pages, ← hcontents]
      exact List.map_congr_left fun st _ => by rw [hsame]
    change (m.taken, _) :: m.snapshots
      = (s.taken, contents s.takeSnapshot.objects state) :: s.snapshots.map _
    rw [h.taken, h.snapshots, hnew, contents_congr fun l _ => hsame l]

theorem Simulates.dropSnapshot (h : Simulates s m) (id : ℕ) :
    Simulates (s.dropSnapshot id) (m.step S (.dropSnapshot id)).2 := by
  have hmsnap : (m.step S (.dropSnapshot id)).2.snapshots
      = (s.snapshots.eraseP (·.1 == id)).map fun ss => (ss.1, contents s.objects ss.2) := by
    change m.snapshots.eraseP _ = _
    rw [h.snapshots, List.eraseP_map]
    rfl
  rw [SharedMemory.dropSnapshot]
  cases hlookup : s.snapshots.lookup id with
  | none =>
    rw [eraseP_of_lookup_eq_none hlookup] at hmsnap
    exact ⟨h.held, h.pages, h.handles, h.taken, h.next, h.fresh, h.page, hmsnap⟩
  | some state =>
    obtain ⟨hpages, hmems⟩ := holders_of_lookup hlookup
    have hheld := h.held
    rw [hpages, hmems] at hheld
    obtain ⟨hrel, hsame, hnext⟩ := hheld.releaseStates
    refine ⟨hrel, h.pages, h.handles, h.taken, h.next.trans hnext.symm, h.fresh, fun q hq => ?_, ?_⟩
    · rw [hsame.page q hq]
      exact h.page q (hpages ▸ Multiset.mem_add.mpr (.inr hq))
    · rw [hmsnap]
      exact (contents_congr (s := { s with snapshots := s.snapshots.eraseP (·.1 == id) })
        hsame.storage).symm

theorem Simulates.restoreSnapshot (h : Simulates s m) (id : ℕ) :
    Simulates (s.restoreSnapshot id) (m.step S (.restoreSnapshot id)).2 := by
  have hlookup' : m.snapshots.lookup id = (s.snapshots.lookup id).map (contents s.objects) := by
    rw [h.snapshots, lookup_map]
  rw [SharedMemory.restoreSnapshot, PlainMemory.step, hlookup']
  cases hlookup : s.snapshots.lookup id with
  | none => exact h
  | some state =>
    have hin := (perm_of_lookup hlookup).mem_iff.mpr (List.mem_cons_self ..)
    set rest := (↑s.handles : Multiset ℕ)
      + ↑(s.snapshots.flatMap fun ss => ss.2.map PageState.page) with hrest
    have hsplit : s.pageHolders = ↑(s.pages.drop state.length)
        + (↑(s.pages.take state.length) + rest) := by
      have hperm : (s.pages.take state.length ++ s.pages.drop state.length).Perm
          (s.pages.drop state.length ++ s.pages.take state.length) := List.perm_append_comm
      rw [List.take_append_drop] at hperm
      rw [pageHolders, Multiset.coe_eq_coe.mpr hperm, ← Multiset.coe_add, hrest]
      abel
    have hheld := h.held
    rw [hsplit] at hheld
    obtain ⟨hrel, hsame, hnext⟩ := hheld.releasePages
    have hstate : ∀ st ∈ state, st.page ∈ rest ∧ st.memory ∈ s.storageHolders := fun st hst =>
      ⟨Multiset.mem_add.mpr (.inr (List.mem_flatMap.mpr ⟨_, hin, List.mem_map_of_mem hst⟩)),
        List.mem_flatMap.mpr ⟨_, hin, List.mem_map_of_mem hst⟩⟩
    obtain ⟨hheld', hpages, hstorages, hnext'⟩ := restorePages_simulates hrel
      (List.length_take_le _ _) hstate (M := m.context.memory) fun q hq => by
        rw [hsame.page q (Multiset.mem_add.mpr (.inr hq))]
        exact h.page q (hsplit ▸ Multiset.mem_add.mpr (.inr (Multiset.mem_add.mpr (.inr hq))))
    have hcontents : contents ((s.pages.drop state.length).foldl Objects.releasePage s.objects)
        state = contents s.objects state :=
      List.map_congr_left fun st hst => by rw [hsame.storage _ (hstate st hst).2]
    rw [hcontents] at hpages
    refine ⟨?_, ?_, h.handles, h.taken, h.next.trans (hnext'.trans hnext).symm, h.fresh,
      fun q hq => hpages q ?_, ?_⟩
    · rw [hrest, ← add_assoc] at hheld'
      exact hheld'
    · simp [contents]
    · -- a page of the snapshot is held by the snapshot as well
      rcases Multiset.mem_add.mp hq with hq | hq
      · rcases Multiset.mem_add.mp hq with hq | hq
        · obtain ⟨st, hst, rfl⟩ := List.mem_map.mp hq
          exact (hstate st hst).1
        · exact Multiset.mem_add.mpr (.inl hq)
      · exact Multiset.mem_add.mpr (.inr hq)
    · exact h.snapshots.trans (contents_congr fun l hl =>
        (hstorages l hl).trans (hsame.storage l hl)).symm

/-- **The simulation.** Every operation returns what it does on plain values, and keeps the
relation. -/
theorem step_simulates (h : Simulates s m) (op : MemoryOp) :
    (s.step S op).1 = (m.step S op).1 ∧ Simulates (s.step S op).2 (m.step S op).2 := by
  have hhandles : ∀ p, p ∈ m.handles ↔ p ∈ s.handles := fun p => by rw [h.handles]
  cases op with
  | allocate => exact ⟨rfl, h.allocate⟩
  | takeSnapshot => exact ⟨rfl, h.takeSnapshot⟩
  | dropSnapshot id => exact ⟨rfl, h.dropSnapshot id⟩
  | restoreSnapshot id =>
    refine ⟨?_, h.restoreSnapshot id⟩
    rw [PlainMemory.step]
    split <;> rfl
  | copyHandle p =>
    by_cases hp : p ∈ s.handles
    · simpa only [step, PlainMemory.step, hhandles, if_pos hp] using ⟨trivial, h.copyHandle hp⟩
    · simpa only [step, PlainMemory.step, hhandles, if_neg hp] using ⟨trivial, h⟩
  | dropHandle p =>
    by_cases hp : p ∈ s.handles
    · simpa only [step, PlainMemory.step, hhandles, if_pos hp] using ⟨trivial, h.dropHandle hp⟩
    · simpa only [step, PlainMemory.step, hhandles, if_neg hp] using ⟨trivial, h⟩
  | initializeAt p a v =>
    by_cases hp : p ∈ s.handles
    · simp only [step, PlainMemory.step, hhandles, if_pos hp]
      rw [← h.page p (mem_pageHolders_of_handle hp)]
      exact ⟨trivial, h.update (h.held.initializeAt (mem_pageHolders_of_handle hp) a v)⟩
    · simpa only [step, PlainMemory.step, hhandles, if_neg hp] using ⟨trivial, h⟩
  | sealPage p =>
    by_cases hp : p ∈ s.handles
    · simp only [step, PlainMemory.step, hhandles, if_pos hp]
      rw [← h.page p (mem_pageHolders_of_handle hp)]
      exact ⟨trivial, h.update (h.held.sealPage (mem_pageHolders_of_handle hp))⟩
    · simpa only [step, PlainMemory.step, hhandles, if_neg hp] using ⟨trivial, h⟩
  | write addr val =>
    by_cases hp : addr.page ∈ s.handles
    · simpa only [step, PlainMemory.step, hhandles, if_pos hp] using ⟨trivial, h.write hp val⟩
    · simpa only [step, PlainMemory.step, hhandles, if_neg hp] using ⟨trivial, h⟩
  | read addr size =>
    by_cases hp : addr.page ∈ s.handles
    · simp only [step, PlainMemory.step, hhandles, if_pos hp]
      obtain ⟨hvalue, hsim⟩ := h.read (S := S) hp size
      exact ⟨congrArg some hvalue, hsim⟩
    · simpa only [step, PlainMemory.step, hhandles, if_neg hp] using ⟨trivial, h⟩

end SharedMemory

/-! ### Isolation on the plain level -/

namespace PlainMemory

variable {S : Solver} {m : PlainMemory} {id : ℕ}

/-- The state after a sequence of operations. -/
def run (S : Solver) (m : PlainMemory) (ops : List MemoryOp) : PlainMemory :=
  ops.foldl (fun m op => (m.step S op).2) m

/-- No page is listed twice, here or in a snapshot, and the next page is a new one. -/
structure WF (m : PlainMemory) : Prop where
  nodup : m.pages.Nodup
  lt_next : ∀ p ∈ m.pages, p < m.next
  snapshots : ∀ ss ∈ m.snapshots, (ss.2.map Prod.fst).Nodup ∧ ∀ st ∈ ss.2, st.1 < m.next

theorem empty_wf : WF empty := ⟨List.nodup_nil, by simp [empty], by simp [empty]⟩

theorem WF.step (h : WF m) (op : MemoryOp) : WF (m.step S op).2 := by
  have hlater : ∀ p, p < m.next → p < m.next + 1 := fun p hp => Nat.lt_succ_of_lt hp
  cases op with
  | allocate =>
    refine ⟨?_, fun p hp => ?_, fun ss hss => ⟨(h.snapshots ss hss).1, fun st hst =>
      hlater _ ((h.snapshots ss hss).2 st hst)⟩⟩
    · exact List.nodup_append.mpr ⟨h.nodup, List.nodup_singleton _, fun p hp q hq =>
        List.mem_singleton.mp hq ▸ (h.lt_next p hp).ne⟩
    · rcases List.mem_append.mp hp with hp | hp
      · exact hlater p (h.lt_next p hp)
      · exact List.mem_singleton.mp hp ▸ Nat.lt_succ_self _
  | copyHandle p | dropHandle p | initializeAt p _ _ | sealPage p | write _ _ | read _ _ =>
    rw [PlainMemory.step]
    split <;> exact ⟨h.nodup, h.lt_next, h.snapshots⟩
  | takeSnapshot =>
    refine ⟨h.nodup, h.lt_next, fun ss hss => ?_⟩
    rcases List.mem_cons.mp hss with rfl | hss
    · refine ⟨?_, fun st hst => ?_⟩
      · rw [List.map_map]
        exact (List.map_id' m.pages).symm ▸ h.nodup
      · obtain ⟨p, hp, rfl⟩ := List.mem_map.mp hst
        exact h.lt_next p hp
    · exact h.snapshots ss hss
  | restoreSnapshot id =>
    rw [PlainMemory.step]
    split
    · next state hlookup =>
      have hin := (SharedMemory.perm_of_lookup hlookup).mem_iff.mpr (List.mem_cons_self ..)
      obtain ⟨hnodup, hlt⟩ := h.snapshots _ hin
      refine ⟨hnodup, fun p hp => ?_, h.snapshots⟩
      obtain ⟨st, hst, rfl⟩ := List.mem_map.mp hp
      exact hlt st hst
    · exact h
  | dropSnapshot id =>
    exact ⟨h.nodup, h.lt_next, fun ss hss => h.snapshots ss (List.mem_of_mem_eraseP hss)⟩

theorem restorePages_of_notMem {p : PageId} : ∀ {state : List (PageId × Storage)} {M : Memory},
    p ∉ state.map Prod.fst → restorePages M state p = M p
  | [], _, _ => rfl
  | st :: state, M, h => by
    rw [List.map_cons, List.mem_cons, not_or] at h
    rw [restorePages, restorePages_of_notMem h.2, Function.update_of_ne h.1]

theorem restorePages_of_mem {p : PageId} {storage : Storage} :
    ∀ {state : List (PageId × Storage)} {M : Memory}, (state.map Prod.fst).Nodup →
      (p, storage) ∈ state → restorePages M state p = { M p with memory := storage }
  | st :: state, M, hnodup, h => by
    rw [List.map_cons, List.nodup_cons] at hnodup
    rcases List.mem_cons.mp h with rfl | h
    · rw [restorePages, restorePages_of_notMem hnodup.1, Function.update_self]
    · have hne : p ≠ st.1 := fun heq =>
        hnodup.1 (heq ▸ List.mem_map_of_mem (f := Prod.fst) h)
      rw [restorePages, restorePages_of_mem hnodup.2 h, Function.update_of_ne hne]

theorem initialMemory_restorePages (state : List (PageId × Storage)) (M : Memory) (p : PageId) :
    (restorePages M state p).initialMemory = (M p).initialMemory := by
  induction state generalizing M with
  | nil => rfl
  | cons st state ih =>
    rw [restorePages, ih]
    by_cases hp : p = st.1
    · rw [hp, Function.update_self]
    · rw [Function.update_of_ne hp]

/-! Nothing but `initialize` on an unsealed page touches the initial memory. -/

theorem initialMemory_writeCells (p : MemPage) (base : Addr) (val : Value) (n : ℕ) :
    ∀ i, (p.writeCells base val n i).initialMemory = p.initialMemory
  | 0 => rfl
  | i + 1 => initialMemory_writeCells p base val n i

theorem initialMemory_readByte (c : Context) (page p : PageId) (a : Addr) :
    ((c.readByte page a).2.memory p).initialMemory = (c.memory p).initialMemory := by
  rw [Context.readByte]
  split
  · rfl
  · by_cases hp : p = page
    · subst hp; simp only [Function.update_self]; rfl
    · simp only [Function.update_of_ne hp]

theorem initialMemory_readCells (page : PageId) (base : Addr) (p : PageId) :
    ∀ (n : ℕ) (c : Context),
      ((c.readCells page base n).2.memory p).initialMemory = (c.memory p).initialMemory
  | 0, _ => rfl
  | n + 1, c => (initialMemory_readCells page base p n _).trans (initialMemory_readByte c page p _)

theorem initialMemory_read (c : Context) (addr : Pointer) (size : ℕ) (p : PageId) :
    ((c.read S addr size).2.memory p).initialMemory = (c.memory p).initialMemory := by
  rw [Context.read]
  split
  · exact (initialMemory_readCells _ _ p _ _).trans (initialMemory_readByte c _ p _)
  · rfl

theorem initialMemory_write (c : Context) (addr : Pointer) (val : Value) (p : PageId) :
    ((c.write S addr val).memory p).initialMemory = (c.memory p).initialMemory := by
  rw [Context.memory_write, Memory.write]
  cases (addr.simplify S).asUint64 with
  | none => rfl
  | some base =>
    by_cases hp : p = addr.page
    · subst hp
      simp only [Function.update_self]
      exact initialMemory_writeCells _ _ _ _ _
    · simp only [Function.update_of_ne hp]

/-- Snapshot `id` still is `state`, and the pages there were still have their initial memory. -/
structure Keeps (id : ℕ) (state : List (PageId × Storage)) (initial : PageId → Storage)
    (bound : PageId) (m : PlainMemory) : Prop where
  lookup : m.snapshots.lookup id = some state
  lt_taken : id < m.taken
  le_next : bound ≤ m.next
  initial : ∀ p < bound, (m.context.memory p).initialMemory = initial p

theorem lookup_eraseP_of_ne {σ : Type*} {k : ℕ} (hne : id ≠ k) : ∀ l : List (ℕ × σ),
    (l.eraseP (·.1 == k)).lookup id = l.lookup id
  | [] => rfl
  | ss :: l => by
    by_cases hk : ss.1 = k
    · rw [List.eraseP_cons_of_pos (by simpa using hk), List.lookup_cons,
        beq_eq_false_iff_ne.mpr fun h => hne (h.trans hk)]
    · rw [List.eraseP_cons_of_neg (by simpa using hk), List.lookup_cons, List.lookup_cons,
        lookup_eraseP_of_ne hne l]

/-- No step touches a snapshot except the one that drops it. -/
theorem Keeps.step {state : List (PageId × Storage)} {initial : PageId → Storage} {bound : PageId}
    (h : Keeps id state initial bound m) {op : MemoryOp} (hrun : op.Running)
    (hdrop : op ≠ .dropSnapshot id) : Keeps id state initial bound (m.step S op).2 := by
  have hsame : ∀ {M : Memory}, (∀ p, (M p).initialMemory = (m.context.memory p).initialMemory) →
      ∀ p < bound, (M p).initialMemory = initial p := fun hmem p hp =>
    (hmem p).trans (h.initial p hp)
  cases op with
  | allocate =>
    refine ⟨h.lookup, h.lt_taken, Nat.le_succ_of_le h.le_next, fun p hp => ?_⟩
    change (Function.update m.context.memory m.next .empty p).initialMemory = _
    rw [Function.update_of_ne (hp.trans_le h.le_next).ne]
    exact h.initial p hp
  | copyHandle p | dropHandle p =>
    rw [PlainMemory.step]
    split <;> exact ⟨h.lookup, h.lt_taken, h.le_next, h.initial⟩
  | initializeAt p a v => exact hrun.elim
  | sealPage p =>
    rw [PlainMemory.step]
    split
    · refine ⟨h.lookup, h.lt_taken, h.le_next, hsame fun q => ?_⟩
      rw [memory_update]
      by_cases hq : q = p
      · subst hq; rw [Function.update_self]; rfl
      · rw [Function.update_of_ne hq]
    · exact h
  | write addr val =>
    rw [PlainMemory.step]
    split
    · exact ⟨h.lookup, h.lt_taken, h.le_next, hsame (initialMemory_write _ _ _)⟩
    · exact h
  | read addr size =>
    rw [PlainMemory.step]
    split
    · exact ⟨h.lookup, h.lt_taken, h.le_next, hsame (initialMemory_read _ _ _)⟩
    · exact h
  | takeSnapshot =>
    refine ⟨?_, Nat.lt_succ_of_lt h.lt_taken, h.le_next, h.initial⟩
    rw [PlainMemory.step, List.lookup_cons, beq_eq_false_iff_ne.mpr h.lt_taken.ne]
    exact h.lookup
  | restoreSnapshot k =>
    rw [PlainMemory.step]
    split
    · exact ⟨h.lookup, h.lt_taken, h.le_next, hsame (initialMemory_restorePages _ _)⟩
    · exact h
  | dropSnapshot k =>
    refine ⟨?_, h.lt_taken, h.le_next, h.initial⟩
    exact (lookup_eraseP_of_ne (fun heq => hdrop (congrArg _ heq.symm)) _).trans h.lookup

theorem Keeps.run {state : List (PageId × Storage)} {initial : PageId → Storage} {bound : PageId} :
    ∀ {ops : List MemoryOp} {m : PlainMemory}, Keeps id state initial bound m →
      (∀ op ∈ ops, op.Running ∧ op ≠ .dropSnapshot id) →
        Keeps id state initial bound (m.run S ops)
  | [], _, h, _ => h
  | op :: ops, m, h, hops => by
    obtain ⟨hrun, hdrop⟩ := hops op (List.mem_cons_self ..)
    have hstep : Keeps id state initial bound (m.step S op).2 := h.step hrun hdrop
    exact hstep.run fun op' hop' => hops op' (List.mem_cons_of_mem _ hop')

theorem WF.run (hwf : WF m) (ops : List MemoryOp) : WF (m.run S ops) := by
  induction ops generalizing m with
  | nil => exact hwf
  | cons op ops ih => exact ih (hwf.step op)

end PlainMemory

/-! ### Isolation -/

namespace SharedMemory

variable {S : Solver} {s : SharedMemory} {m : PlainMemory}

theorem run_simulates (h : Simulates s m) (ops : List MemoryOp) :
    Simulates (s.run S ops) (m.run S ops) := by
  induction ops generalizing s m with
  | nil => exact h
  | cons op ops ih => exact ih (step_simulates h op).2

/-- **Snapshots are isolated.** Whatever is done before a snapshot is taken, and whatever is done
afterwards short of dropping it, a restore brings back the list of live pages and, on each of
them, every cell; and none of these pages or their storages has been destroyed meanwhile. -/
theorem restoreSnapshot_isolated (S : Solver) (before after : List MemoryOp)
    (hafter : ∀ op ∈ after, op.Running ∧ op ≠ .dropSnapshot (run S .empty before).taken) :
    (((run S .empty before).takeSnapshot.run S after).restoreSnapshot
        (run S .empty before).taken).pages = (run S .empty before).pages ∧
    ∀ p ∈ (run S .empty before).pages,
      (((run S .empty before).takeSnapshot.run S after).restoreSnapshot
        (run S .empty before).taken).objects.Alive p ∧
      ∀ a, ((((run S .empty before).takeSnapshot.run S after).restoreSnapshot
          (run S .empty before).taken).objects.page p).find a
        = ((run S .empty before).objects.page p).find a := by
  set s₀ := run S .empty before
  set m₀ := PlainMemory.run S .empty before
  have h₀ : Simulates s₀ m₀ := run_simulates empty_simulates before
  have hwf₀ : m₀.WF := PlainMemory.empty_wf.run before
  set state := m₀.pages.map fun p => (p, (m₀.context.memory p).memory) with hstate
  set m := (m₀.step S .takeSnapshot).2.run S after
  -- the snapshot at the end is the one that was taken
  have hkeeps : m.Keeps s₀.taken state (fun p => (m₀.context.memory p).initialMemory) m₀.next := by
    refine PlainMemory.Keeps.run ⟨?_, ?_, Nat.le_refl _, fun _ _ => rfl⟩ hafter
    · rw [PlainMemory.step, h₀.taken, List.lookup_cons, beq_self_eq_true]
    · rw [PlainMemory.step, h₀.taken]
      exact Nat.lt_succ_self _
  have hsim : Simulates (s₀.takeSnapshot.run S after) m :=
    run_simulates (h₀.takeSnapshot) after
  have hrestore := hsim.restoreSnapshot (S := S) s₀.taken
  have hmrestore : (m.step S (.restoreSnapshot s₀.taken)).2 = { m with
      context.memory := PlainMemory.restorePages m.context.memory state
      pages := state.map Prod.fst } := by
    rw [PlainMemory.step, hkeeps.lookup]
  rw [hmrestore] at hrestore
  have hpages : state.map Prod.fst = s₀.pages := by
    rw [hstate, List.map_map, ← h₀.pages]
    exact List.map_id' _
  have hlist := hrestore.pages.symm.trans hpages
  refine ⟨hlist, fun p hp => ?_⟩
  have hholder := mem_pageHolders_of_page (hlist ▸ hp :
    p ∈ ((s₀.takeSnapshot.run S after).restoreSnapshot s₀.taken).pages)
  refine ⟨hrestore.held.alive hholder, fun a => ?_⟩
  have hp' : p ∈ m₀.pages := h₀.pages ▸ hp
  have hin : (p, (m₀.context.memory p).memory) ∈ state := List.mem_map_of_mem hp'
  have hback := PlainMemory.restorePages_of_mem (M := m.context.memory)
    (hpages ▸ h₀.pages ▸ hwf₀.nodup) hin
  rw [hrestore.page p hholder, h₀.page p (mem_pageHolders_of_page hp)]
  change (PlainMemory.restorePages m.context.memory state p).find a = _
  rw [hback]
  simp only [MemPage.find, hkeeps.initial p (hwf₀.lt_next p hp')]

/-- A byte written, a snapshot, then an overwrite, a read that makes a symbol, a second page and a
second snapshot that is restored and dropped. -/
theorem restoreSnapshot_isolated_overwrite :
    let s₀ := run .folding .empty [.allocate, .write (.concrete 16 0) (.concrete 7 8)]
    let s := s₀.takeSnapshot.run .folding
      [.write (.concrete 16 0) (.concrete 8 8), .read (.concrete 40 0) 16, .allocate,
        .takeSnapshot, .restoreSnapshot 1, .dropSnapshot 1]
    (s.restoreSnapshot s₀.taken).pages = s₀.pages ∧
      ∀ p ∈ s₀.pages, (s.restoreSnapshot s₀.taken).objects.Alive p ∧
        ∀ a, ((s.restoreSnapshot s₀.taken).objects.page p).find a = (s₀.objects.page p).find a :=
  restoreSnapshot_isolated .folding [.allocate, .write (.concrete 16 0) (.concrete 7 8)]
    [.write (.concrete 16 0) (.concrete 8 8), .read (.concrete 40 0) 16, .allocate,
      .takeSnapshot, .restoreSnapshot 1, .dropSnapshot 1]
    (by
      have htaken : (run .folding .empty
          [.allocate, .write (.concrete 16 0) (.concrete 7 8)]).taken = 0 := rfl
      intro op hop
      rw [htaken]
      simp only [List.mem_cons, List.not_mem_nil, or_false] at hop
      obtain rfl | rfl | rfl | rfl | rfl | rfl := hop <;> exact ⟨trivial, by simp⟩)

end SharedMemory

end Vexa
