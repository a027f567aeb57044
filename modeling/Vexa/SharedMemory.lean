import Vexa.Memory
import Vexa.Lib.RefHeap

/-!
# Shared storages and snapshots

`vexa::memory` with its `shared_ptr`s spelled out: pages and storages are objects of two
reference-counted heaps, `mem_page::write` copies a storage only when its use count is not one,
and a snapshot holds a page and a storage for every page of the list.

## Holders of a page

A page is held by the list of live pages, by the snapshots, and by the pointers to it
(`SharedMemory.handles`). An access needs a pointer, so an operation on a page without one changes
nothing.

## Main definitions

* `Objects` — the two heaps, with the operations of `mem_page`
* `Objects.Held` — use counts agree with the holders
* `SharedMemory`, `MemoryOp`, `SharedMemory.step`

## Main results

* `Objects.Held.writeCell` — copy on write changes one page and nothing else
* `Objects.Held.releasePage` — releasing changes nothing that is still held
-/

namespace Vexa

/-! ### Objects -/

/-- A `mem_page` object; `memory` is the location of its storage. -/
structure SharedPage where
  initialMemory : Storage
  memory : ℕ
  sealed : Bool

/-- The storages a page holds. -/
def SharedPage.refs (p : SharedPage) : Multiset ℕ := {p.memory}

/-- `mem_state::page_state`. -/
structure PageState where
  page : PageId
  memory : ℕ

/-- The objects behind the `shared_ptr`s. -/
structure Objects where
  storages : RefHeap Storage
  pages : RefHeap SharedPage

namespace Objects

/-- What a storage contains. -/
def storage (o : Objects) (l : ℕ) : Storage := (o.storages.cells l).getD fun _ => none

/-- What a page contains. -/
def page (o : Objects) (p : PageId) : MemPage :=
  match o.pages.cells p with
  | some page => ⟨page.initialMemory, o.storage page.memory, page.sealed⟩
  | none => .empty

/-- The page and its storage have not been destroyed. -/
def Alive (o : Objects) (p : PageId) : Prop :=
  ∃ page, o.pages.cells p = some page ∧ (o.storages.cells page.memory).isSome

/-- `std::make_shared<mem_page>`: a page with a storage of its own. -/
def makePage (o : Objects) : Objects :=
  ⟨o.storages.make fun _ => none, o.pages.make ⟨fun _ => none, o.storages.next, false⟩⟩

def retainPage (o : Objects) (p : PageId) : Objects := { o with pages := o.pages.retain p }

def retainStorage (o : Objects) (l : ℕ) : Objects := { o with storages := o.storages.retain l }

def releaseStorage (o : Objects) (l : ℕ) : Objects := { o with storages := o.storages.release l }

/-- The last holder of a page destroys it, and with it the page's share of its storage. -/
def releasePage (o : Objects) (p : PageId) : Objects :=
  match o.pages.cells p with
  | some page =>
    ⟨if o.pages.unique p then o.storages.release page.memory else o.storages, o.pages.release p⟩
  | none => o

/-- Assignment to `mem_page::memory`: the new storage gains a holder, the old one loses one. -/
def assignMemory (o : Objects) (p : PageId) (l : ℕ) : Objects :=
  match o.pages.cells p with
  | some page =>
    ⟨(o.storages.retain l).release page.memory, o.pages.set p { page with memory := l }⟩
  | none => o

/-- The first half of `mem_page::write`: copy the storage unless it is unique. -/
def ownMemory (o : Objects) (p : PageId) : Objects :=
  match o.pages.cells p with
  | some page =>
    if o.storages.unique page.memory then o
    else ⟨(o.storages.make (o.storage page.memory)).release page.memory,
      o.pages.set p { page with memory := o.storages.next }⟩
  | none => o

/-- The second half of `mem_page::write`: insert into the storage in place. -/
def insertCell (o : Objects) (p : PageId) (address : Addr) (cell : MemCell) : Objects :=
  match o.pages.cells p with
  | some page =>
    let written := Function.update (o.storage page.memory) address (some cell)
    { o with storages := o.storages.set page.memory written }
  | none => o

/-- `mem_page::write`. -/
def writeCell (o : Objects) (p : PageId) (address : Addr) (cell : MemCell) : Objects :=
  (o.ownMemory p).insertCell p address cell

/-- `mem_page::initialize`. -/
def initializeAt (o : Objects) (p : PageId) (address : Addr) (value : Value) : Objects :=
  match o.pages.cells p with
  | some page =>
    if page.sealed then o.writeCell p address ⟨value, 1, 0⟩
    else
      let initial := Function.update page.initialMemory address (some ⟨value, 1, 0⟩)
      { o with pages := o.pages.set p { page with initialMemory := initial } }
  | none => o

/-- `mem_page::seal`. -/
def sealPage (o : Objects) (p : PageId) : Objects :=
  match o.pages.cells p with
  | some page => { o with pages := o.pages.set p { page with sealed := true } }
  | none => o

/-- The cells `memory::write` puts down, as in `MemPage.writeCells`. -/
def writeCells (o : Objects) (p : PageId) (base : Addr) (val : Value) (n : ℕ) : ℕ → Objects
  | 0 => o
  | i + 1 => (writeCells o p base val n i).writeCell p (base + BitVec.ofNat 64 i) ⟨val, n, i⟩

/-- Both halves of a `page_state`. -/
def retainState (o : Objects) (st : PageState) : Objects :=
  (o.retainPage st.page).retainStorage st.memory

/-- Members are destroyed in reverse order. -/
def releaseState (o : Objects) (st : PageState) : Objects :=
  (o.releaseStorage st.memory).releasePage st.page

/-- The `page_state`s of a list of pages. -/
def pageStates (o : Objects) (ps : List PageId) : List PageState :=
  ps.filterMap fun p => (o.pages.cells p).map fun page => ⟨p, page.memory⟩

/-- The loop of `memory::restore_snapshot`. `slots` are the entries of `pages` from the current
index on; past its end they are the null pointers `resize` has put there. -/
def restorePages : Objects → (slots : List PageId) → List PageState → Objects
  | o, _, [] => o
  | o, [], st :: rest => restorePages ((o.retainPage st.page).assignMemory st.page st.memory) [] rest
  | o, old :: slots, st :: rest =>
    restorePages (((o.retainPage st.page).releasePage old).assignMemory st.page st.memory) slots rest

/-! ### Holders

`P` are the holders of pages, and `Q` the holders of storages other than pages. -/

structure Held (o : Objects) (P Q : Multiset ℕ) : Prop where
  pages : o.pages.Counted P
  storages : o.storages.Counted (o.pages.held SharedPage.refs + Q)

/-- Everything held still contains what it did. -/
structure Same (o o' : Objects) (P Q : Multiset ℕ) : Prop where
  page : ∀ p ∈ P, o'.page p = o.page p
  storage : ∀ l ∈ Q, o'.storage l = o.storage l

theorem Same.refl (o : Objects) (P Q : Multiset ℕ) : Same o o P Q :=
  ⟨fun _ _ => rfl, fun _ _ => rfl⟩

theorem Same.trans {o o' o'' : Objects} {P Q P' Q' : Multiset ℕ} (h : Same o o' P Q)
    (h' : Same o' o'' P' Q') (hP : P ⊆ P') (hQ : Q ⊆ Q') : Same o o'' P Q :=
  ⟨fun p hp => (h'.page p (hP hp)).trans (h.page p hp),
    fun l hl => (h'.storage l (hQ hl)).trans (h.storage l hl)⟩

theorem storage_congr {o o' : Objects} {l : ℕ} (h : o'.storages.cells l = o.storages.cells l) :
    o'.storage l = o.storage l := by
  rw [storage, storage, h]

theorem page_of_cell {o : Objects} {p : PageId} {page : SharedPage}
    (h : o.pages.cells p = some page) :
    o.page p = ⟨page.initialMemory, o.storage page.memory, page.sealed⟩ := by
  rw [Objects.page, h]

/-- Pages agree when their objects and their storages do. -/
theorem page_eq {o o' : Objects} {p : PageId} (hcell : o'.pages.cells p = o.pages.cells p)
    (hstorage : ∀ page, o.pages.cells p = some page →
      o'.storages.cells page.memory = o.storages.cells page.memory) :
    o'.page p = o.page p := by
  cases hpage : o.pages.cells p with
  | none => rw [Objects.page, Objects.page, hcell, hpage]
  | some page =>
    rw [page_of_cell hpage, page_of_cell (hcell.trans hpage),
      storage_congr (hstorage page hpage)]

/-- The holders stay, page `p` now contains `new`, and nothing else changes. -/
structure Updated (o o' : Objects) (P Q : Multiset ℕ) (p : PageId) (new : MemPage) : Prop where
  held : Held o' P Q
  self : o'.page p = new
  other : ∀ q ∈ P, q ≠ p → o'.page q = o.page q
  storage : ∀ k ∈ Q, o'.storage k = o.storage k
  next : o'.pages.next = o.pages.next

theorem Updated.trans {o o' o'' : Objects} {P Q : Multiset ℕ} {p : PageId} {new new' : MemPage}
    (h : Updated o o' P Q p new) (h' : Updated o' o'' P Q p new') : Updated o o'' P Q p new' where
  held := h'.held
  self := h'.self
  other q hq hne := (h'.other q hq hne).trans (h.other q hq hne)
  storage k hk := (h'.storage k hk).trans (h.storage k hk)
  next := h'.next.trans h.next

@[simp] theorem next_retainState (o : Objects) (st : PageState) :
    (o.retainState st).pages.next = o.pages.next := rfl

@[simp] theorem next_releasePage (o : Objects) (p : PageId) :
    (o.releasePage p).pages.next = o.pages.next := by
  rw [releasePage]
  split
  · exact RefHeap.next_release _ _
  · rfl

@[simp] theorem next_ownMemory (o : Objects) (p : PageId) :
    (o.ownMemory p).pages.next = o.pages.next := by
  rw [ownMemory]
  split
  · split <;> rfl
  · rfl

namespace Held

variable {o : Objects} {P Q : Multiset ℕ} {p : PageId} {l : ℕ} {page : SharedPage}

theorem empty : Held ⟨.empty, .empty⟩ 0 0 :=
  ⟨RefHeap.Counted.empty, RefHeap.Counted.empty⟩

/-- The storage of a held page is held, by the page. -/
theorem memory_mem (h : Held o P Q) (hp : o.pages.cells p = some page) :
    page.memory ∈ o.pages.held SharedPage.refs :=
  RefHeap.mem_held (h.pages.bound p (h.pages.mem_of_cell hp)) hp (Multiset.mem_singleton_self _)

theorem alive (h : Held o P Q) (hp : p ∈ P) : o.Alive p := by
  obtain ⟨page, hpage⟩ := h.pages.exists_cell hp
  exact ⟨page, hpage, (h.storages.live _).mp (Multiset.mem_add.mpr (.inl (h.memory_mem hpage)))⟩

theorem makePage (h : Held o P Q) :
    Held o.makePage (o.pages.next ::ₘ P) Q ∧ Same o o.makePage P Q ∧
      o.makePage.page o.pages.next = .empty := by
  have hheld : o.makePage.pages.held SharedPage.refs + Q
      = o.storages.next ::ₘ (o.pages.held SharedPage.refs + Q) := by
    rw [Objects.makePage, RefHeap.held_make, SharedPage.refs, Multiset.singleton_add,
      Multiset.cons_add]
  refine ⟨⟨h.pages.make _, hheld ▸ h.storages.make _⟩, ⟨fun p hp => ?_, fun l hl => ?_⟩, ?_⟩
  · exact page_eq (h.pages.cells_make_of_mem hp _) fun page hpage =>
      h.storages.cells_make_of_mem (Multiset.mem_add.mpr (.inl (h.memory_mem hpage))) _
  · exact storage_congr (h.storages.cells_make_of_mem (Multiset.mem_add.mpr (.inr hl)) _)
  · rw [page_of_cell (RefHeap.cells_make_self ..), storage]
    exact congrArg₂ (MemPage.mk _ · ·) (congrArg (Option.getD · _) (RefHeap.cells_make_self ..)) rfl

theorem retainPage (h : Held o P Q) (hp : p ∈ P) : Held (o.retainPage p) (p ::ₘ P) Q :=
  ⟨h.pages.retain hp, h.storages⟩

theorem retainStorage (h : Held o P Q) (hl : l ∈ o.pages.held SharedPage.refs + Q) :
    Held (o.retainStorage l) P (l ::ₘ Q) := by
  refine ⟨h.pages, ?_⟩
  rw [Objects.retainStorage, Multiset.add_cons]
  exact h.storages.retain hl

theorem releaseStorage (h : Held o P (l ::ₘ Q)) :
    Held (o.releaseStorage l) P Q ∧ Same o (o.releaseStorage l) P Q := by
  have hst := h.storages
  rw [Multiset.add_cons] at hst
  refine ⟨⟨h.pages, hst.release⟩, ⟨fun p hp => ?_, fun k hk => ?_⟩⟩
  · exact page_eq rfl fun page hpage =>
      hst.cells_release_of_mem (Multiset.mem_add.mpr (.inl (h.memory_mem hpage)))
  · exact storage_congr (hst.cells_release_of_mem (Multiset.mem_add.mpr (.inr hk)))

/-- Releasing a page changes nothing that is still held, also when it destroys the page. -/
theorem releasePage (h : Held o (p ::ₘ P) Q) :
    Held (o.releasePage p) P Q ∧ Same o (o.releasePage p) P Q := by
  obtain ⟨page, hpage⟩ := h.pages.exists_cell (Multiset.mem_cons_self p P)
  have hlt := h.pages.bound p (Multiset.mem_cons_self p P)
  have hcount : 1 ≤ o.pages.count p := by
    rw [h.pages.count_eq, Multiset.count_cons_self]
    omega
  rw [Objects.releasePage, hpage]
  cases hu : o.pages.unique p with
  | false =>
    -- another holder is left: only the use count goes down
    have hshared : ¬ o.pages.count p ≤ 1 := by
      rw [RefHeap.unique, decide_eq_false_iff_not] at hu
      omega
    refine ⟨⟨h.pages.release, ?_⟩, ⟨fun q hq => ?_, fun _ _ => rfl⟩⟩
    · simp only [Bool.false_eq_true, if_false]
      rw [RefHeap.held_release_of_shared hshared]
      exact h.storages
    · exact page_eq (h.pages.cells_release_of_mem hq) fun _ _ => rfl
  | true =>
    -- the last holder: the page goes, and with it one holder of its storage
    have hlast : o.pages.count p ≤ 1 := by
      rw [RefHeap.unique, decide_eq_true_iff] at hu
      omega
    have hst := h.storages
    rw [← RefHeap.held_release_of_last hlt hpage hlast, SharedPage.refs,
      Multiset.singleton_add, Multiset.cons_add] at hst
    have hP : Held ⟨o.storages.release page.memory, o.pages.release p⟩ P Q :=
      ⟨h.pages.release, hst.release⟩
    refine ⟨hP, ⟨fun q hq => ?_, fun k hk => ?_⟩⟩
    · have hcell := h.pages.cells_release_of_mem hq
      refine page_eq hcell fun page' hpage' => hst.cells_release_of_mem ?_
      exact Multiset.mem_add.mpr (.inl (hP.memory_mem (hcell.trans hpage')))
    · exact storage_congr (hst.cells_release_of_mem (Multiset.mem_add.mpr (.inr hk)))

/-- Exchanging the storage of a page: the new one has a holder already, the old one loses one. -/
theorem exchange (h : Held o P Q) (hpage : o.pages.cells p = some page)
    {st : RefHeap Storage} (hst : st.Counted (l ::ₘ (o.pages.held SharedPage.refs + Q))) :
    Held ⟨st.release page.memory, o.pages.set p { page with memory := l }⟩ P Q ∧
      ∀ k ∈ (o.pages.set p { page with memory := l }).held SharedPage.refs + Q,
        (st.release page.memory).cells k = st.cells k := by
  have hp := h.pages.mem_of_cell hpage
  have hheld := RefHeap.held_set (R := SharedPage.refs) (h.pages.bound p hp) hpage
    { page with memory := l }
  have hcons : l ::ₘ (o.pages.held SharedPage.refs + Q) = page.memory ::ₘ
      ((o.pages.set p { page with memory := l }).held SharedPage.refs + Q) := by
    rw [← Multiset.cons_add, ← Multiset.cons_add, ← Multiset.singleton_add,
      ← Multiset.singleton_add, add_comm ({l} : Multiset ℕ),
      add_comm ({page.memory} : Multiset ℕ)]
    exact congrArg (· + Q) hheld.symm
  rw [hcons] at hst
  exact ⟨⟨h.pages.set hp _, hst.release⟩, fun k hk => hst.cells_release_of_mem hk⟩

theorem assignMemory (h : Held o P Q) (hp : p ∈ P) (hl : l ∈ Q) :
    Updated o (o.assignMemory p l) P Q p { o.page p with memory := o.storage l } := by
  obtain ⟨page, hpage⟩ := h.pages.exists_cell hp
  have hassign : o.assignMemory p l =
      ⟨(o.storages.retain l).release page.memory, o.pages.set p { page with memory := l }⟩ := by
    rw [Objects.assignMemory, hpage]
  obtain ⟨hheld, hcells⟩ :=
    h.exchange hpage (h.storages.retain (Multiset.mem_add.mpr (.inr hl)))
  have hQ : ∀ k ∈ Q, (o.assignMemory p l).storage k = o.storage k := fun k hk =>
    storage_congr (hassign ▸ hcells k (Multiset.mem_add.mpr (.inr hk)))
  refine ⟨hassign ▸ hheld, ?_, fun q hq hne => ?_, hQ, by rw [hassign]; rfl⟩
  · have hcell : (o.assignMemory p l).pages.cells p = some { page with memory := l } := by
      rw [hassign]
      exact RefHeap.cells_set_self ..
    rw [page_of_cell hcell, page_of_cell hpage, hQ l hl]
  · rw [hassign]
    have hcell := RefHeap.cells_set_of_ne o.pages hne { page with memory := l }
    refine page_eq hcell fun page' hpage' => hcells _ (Multiset.mem_add.mpr (.inl ?_))
    exact hheld.memory_mem (hcell.trans hpage')

/-- After `ownMemory` nobody else holds the storage of the page. -/
theorem ownMemory (h : Held o P Q) (hp : p ∈ P) :
    Held (o.ownMemory p) P Q ∧ Same o (o.ownMemory p) P Q ∧
      ∃ page, (o.ownMemory p).pages.cells p = some page ∧
        (o.ownMemory p).storages.unique page.memory = true := by
  obtain ⟨page, hpage⟩ := h.pages.exists_cell hp
  cases hu : o.storages.unique page.memory with
  | true =>
    rw [Objects.ownMemory, hpage]
    simp only [hu, if_true]
    exact ⟨h, Same.refl o P Q, page, hpage, hu⟩
  | false =>
    have hown : o.ownMemory p = ⟨(o.storages.make (o.storage page.memory)).release page.memory,
        o.pages.set p { page with memory := o.storages.next }⟩ := by
      rw [Objects.ownMemory, hpage]
      simp [hu]
    have hmade := h.storages.make (o.storage page.memory)
    obtain ⟨hheld, hcells⟩ := h.exchange hpage hmade
    have hnew : (o.ownMemory p).pages.cells p
        = some { page with memory := o.storages.next } := by
      rw [hown]
      exact RefHeap.cells_set_self ..
    have hkeep : ∀ k ∈ (o.ownMemory p).pages.held SharedPage.refs + Q, k ≠ o.storages.next →
        (o.ownMemory p).storages.cells k = o.storages.cells k := by
      intro k hk hne
      rw [hown] at hk ⊢
      rw [hcells k hk, RefHeap.cells_make_of_ne _ hne]
    rw [← hown] at hheld
    refine ⟨hheld, ⟨fun q hq => ?_, fun k hk => ?_⟩, _, hnew, ?_⟩
    · by_cases hne : q = p
      · subst hne
        have hmem := Multiset.mem_add.mpr (.inl (b := o.storages.next ∈ Q) (hheld.memory_mem hnew))
        rw [hown] at hmem
        have hcopy : (o.ownMemory q).storage o.storages.next = o.storage page.memory := by
          rw [storage, hown, hcells _ hmem, RefHeap.cells_make_self, Option.getD_some]
        rw [page_of_cell hnew, page_of_cell hpage, hcopy]
      · have hcell : (o.ownMemory p).pages.cells q = o.pages.cells q := by
          rw [hown]
          exact RefHeap.cells_set_of_ne _ hne _
        refine page_eq hcell fun page' hpage' => hkeep _ ?_ ?_
        · exact Multiset.mem_add.mpr (.inl (hheld.memory_mem (hcell.trans hpage')))
        · rintro heq
          exact h.storages.next_notMem
            (heq ▸ Multiset.mem_add.mpr (.inl (h.memory_mem hpage')))
    · refine storage_congr (hkeep k (Multiset.mem_add.mpr (.inr hk)) ?_)
      rintro rfl
      exact h.storages.next_notMem (Multiset.mem_add.mpr (.inr hk))
    · -- the new storage has one holder, the page
      have hold : o.storages.next ≠ page.memory := by
        rintro heq
        exact h.storages.next_notMem (heq ▸ Multiset.mem_add.mpr (.inl (h.memory_mem hpage)))
      rw [hown, RefHeap.unique_release_of_ne _ hold, RefHeap.unique_make_self]

/-- Writing in place is seen through no other page and no snapshot. -/
theorem insertCell (h : Held o P Q) (hpage : o.pages.cells p = some page)
    (hu : o.storages.unique page.memory = true) (a : Addr) (cell : MemCell) :
    Updated o (o.insertCell p a cell) P Q p ((o.page p).write a cell) := by
  set written := Function.update (o.storage page.memory) a (some cell) with hwritten
  have hins : o.insertCell p a cell = ⟨o.storages.set page.memory written, o.pages⟩ := by
    rw [Objects.insertCell, hpage]
  have hone : (o.pages.held SharedPage.refs + Q).count page.memory = 1 := by
    rw [← h.storages.count_eq]
    exact of_decide_eq_true hu
  have hlt := h.pages.bound p (h.pages.mem_of_cell hpage)
  have hself : (o.pages.held SharedPage.refs).count page.memory ≥ 1 :=
    Multiset.one_le_count_iff_mem.mpr (h.memory_mem hpage)
  rw [Multiset.count_add] at hone
  rw [hins]
  refine ⟨⟨h.pages, h.storages.set (Multiset.mem_add.mpr (.inl (h.memory_mem hpage))) _⟩,
    ?_, fun q hq hne => ?_, fun k hk => ?_, rfl⟩
  · rw [page_of_cell hpage, page_of_cell (o := ⟨o.storages.set page.memory written, o.pages⟩) hpage,
      storage, RefHeap.cells_set_self]
    rfl
  · refine page_eq rfl fun page' hpage' => RefHeap.cells_set_of_ne _ ?_ _
    -- a second page with this storage would be a second holder
    intro heq
    have htwo := Multiset.count_le_of_le page.memory (RefHeap.refs_add_refs_le_held
      (R := SharedPage.refs) hne hlt hpage (h.pages.bound q hq) hpage')
    rw [SharedPage.refs, SharedPage.refs, heq, Multiset.count_add,
      Multiset.count_singleton_self] at htwo
    omega
  · refine storage_congr (RefHeap.cells_set_of_ne _ ?_ _)
    rintro rfl
    have := Multiset.one_le_count_iff_mem.mpr hk
    omega

/-- **Copy on write** changes one page and nothing else. -/
theorem writeCell (h : Held o P Q) (hp : p ∈ P) (a : Addr) (cell : MemCell) :
    Updated o (o.writeCell p a cell) P Q p ((o.page p).write a cell) := by
  obtain ⟨hown, hsame, page, hpage, hu⟩ := h.ownMemory hp
  have hins := hown.insertCell hpage hu a cell
  refine ⟨hins.held, ?_, fun q hq hne => ?_, fun k hk => ?_,
    hins.next.trans (next_ownMemory o p)⟩
  · rw [Objects.writeCell, hins.self, hsame.page p hp]
  · rw [Objects.writeCell, hins.other q hq hne, hsame.page q hq]
  · rw [Objects.writeCell, hins.storage k hk, hsame.storage k hk]

/-- Changing a page without changing its storage. -/
theorem setPage (h : Held o P Q) (hpage : o.pages.cells p = some page) (initial : Storage)
    (sealed : Bool) :
    Updated o { o with pages := o.pages.set p ⟨initial, page.memory, sealed⟩ } P Q p
      ⟨initial, (o.page p).memory, sealed⟩ := by
  have hp := h.pages.mem_of_cell hpage
  have hheld := RefHeap.held_set (R := SharedPage.refs) (h.pages.bound p hp) hpage
    ⟨initial, page.memory, sealed⟩
  refine ⟨⟨h.pages.set hp _, ?_⟩, ?_, fun q _ hne => ?_, fun _ _ => rfl, rfl⟩
  · rw [add_right_cancel hheld]
    exact h.storages
  · rw [page_of_cell (RefHeap.cells_set_self ..), page_of_cell hpage]
    rfl
  · exact page_eq (RefHeap.cells_set_of_ne _ hne _) fun _ _ => rfl

theorem initializeAt (h : Held o P Q) (hp : p ∈ P) (a : Addr) (v : Value) :
    Updated o (o.initializeAt p a v) P Q p ((o.page p).initializeAt a v) := by
  obtain ⟨page, hpage⟩ := h.pages.exists_cell hp
  have hsealed : (o.page p).sealed = page.sealed := by rw [page_of_cell hpage]
  rw [Objects.initializeAt, hpage, MemPage.initializeAt, hsealed]
  simp only
  split
  · exact h.writeCell hp a _
  · have hset := h.setPage hpage (Function.update page.initialMemory a (some ⟨v, 1, 0⟩)) page.sealed
    rw [page_of_cell hpage] at hset ⊢
    exact hset

theorem sealPage (h : Held o P Q) (hp : p ∈ P) :
    Updated o (o.sealPage p) P Q p (o.page p).sealPage := by
  obtain ⟨page, hpage⟩ := h.pages.exists_cell hp
  rw [Objects.sealPage, hpage]
  have hset := h.setPage hpage page.initialMemory true
  rw [page_of_cell hpage] at hset ⊢
  exact hset

/-! ### The loops -/

theorem writeCells (h : Held o P Q) (hp : p ∈ P) (base : Addr) (val : Value) (n : ℕ) :
    ∀ i, Updated o (o.writeCells p base val n i) P Q p ((o.page p).writeCells base val n i)
  | 0 => ⟨h, rfl, fun _ _ _ => rfl, fun _ _ => rfl, rfl⟩
  | i + 1 => by
    have hprev := writeCells h hp base val n i
    have hstep := hprev.held.writeCell hp (base + BitVec.ofNat 64 i) ⟨val, n, i⟩
    rw [hprev.self] at hstep
    exact hprev.trans hstep

theorem retainStates : ∀ (state : List PageState) {o : Objects} {P Q : Multiset ℕ}, Held o P Q →
    (∀ st ∈ state, st.page ∈ P ∧ st.memory ∈ o.pages.held SharedPage.refs) →
      Held (state.foldl Objects.retainState o) (↑(state.map PageState.page) + P)
        (↑(state.map PageState.memory) + Q) ∧
      (state.foldl Objects.retainState o).storages.cells = o.storages.cells ∧
      (state.foldl Objects.retainState o).pages.cells = o.pages.cells ∧
      (state.foldl Objects.retainState o).pages.next = o.pages.next
  | [], o, P, Q, h, _ => ⟨by simpa using h, rfl, rfl, rfl⟩
  | st :: state, o, P, Q, h, hstate => by
    obtain ⟨hpage, hmem⟩ := hstate st (List.mem_cons_self ..)
    have hone : Held (o.retainState st) (st.page ::ₘ P) (st.memory ::ₘ Q) :=
      (h.retainPage hpage).retainStorage (Multiset.mem_add.mpr (.inl hmem))
    obtain ⟨hheld, hstorages, hpages, hnext⟩ := retainStates state hone fun st' hst' =>
      ⟨Multiset.mem_cons_of_mem (hstate st' (List.mem_cons_of_mem _ hst')).1,
        (hstate st' (List.mem_cons_of_mem _ hst')).2⟩
    refine ⟨?_, hstorages, hpages, hnext⟩
    rw [Multiset.add_cons, Multiset.add_cons, ← Multiset.cons_add, ← Multiset.cons_add] at hheld
    exact hheld

theorem releasePages : ∀ {ps : List PageId} {o : Objects}, Held o (↑ps + P) Q →
    Held (ps.foldl Objects.releasePage o) P Q ∧ Same o (ps.foldl Objects.releasePage o) P Q ∧
      (ps.foldl Objects.releasePage o).pages.next = o.pages.next
  | [], o, h => ⟨by simpa using h, Same.refl o P Q, rfl⟩
  | p :: ps, o, h => by
    rw [← Multiset.cons_coe, Multiset.cons_add] at h
    obtain ⟨hone, hsame⟩ := h.releasePage
    obtain ⟨hrest, hsame', hnext⟩ := releasePages hone
    exact ⟨hrest, ⟨fun q hq => (hsame'.page q hq).trans (hsame.page q (Multiset.mem_add.mpr (.inr hq))),
      fun l hl => (hsame'.storage l hl).trans (hsame.storage l hl)⟩,
      hnext.trans (next_releasePage o p)⟩

theorem releaseStates : ∀ {state : List PageState} {o : Objects},
    Held o (↑(state.map PageState.page) + P) (↑(state.map PageState.memory) + Q) →
      Held (state.foldl Objects.releaseState o) P Q ∧
      Same o (state.foldl Objects.releaseState o) P Q ∧
      (state.foldl Objects.releaseState o).pages.next = o.pages.next
  | [], o, h => ⟨by simpa using h, Same.refl o P Q, rfl⟩
  | st :: state, o, h => by
    rw [List.map_cons, List.map_cons, ← Multiset.cons_coe, ← Multiset.cons_coe, Multiset.cons_add,
      Multiset.cons_add] at h
    obtain ⟨hmem, hsame⟩ := h.releaseStorage
    obtain ⟨hone, hsame'⟩ := hmem.releasePage
    obtain ⟨hrest, hsame'', hnext⟩ := releaseStates hone
    refine ⟨hrest, ⟨fun q hq => ?_, fun l hl => ?_⟩, hnext.trans (next_releasePage _ _)⟩
    · have hq' : q ∈ ↑(state.map PageState.page) + P := Multiset.mem_add.mpr (.inr hq)
      exact (hsame''.page q hq).trans ((hsame'.page q hq').trans
        (hsame.page q (Multiset.mem_cons_of_mem hq')))
    · have hl' : l ∈ ↑(state.map PageState.memory) + Q := Multiset.mem_add.mpr (.inr hl)
      exact (hsame''.storage l hl).trans ((hsame'.storage l hl').trans (hsame.storage l hl'))

end Held

end Objects

/-! ### The memory -/

/-- `vexa::memory`, with the pages its callers hold pointers to and the snapshots they keep. Each
snapshot has the number of snapshots taken before it as its name. -/
structure SharedMemory where
  objects : Objects
  pages : List PageId
  handles : List PageId
  snapshots : List (ℕ × List PageState)
  taken : ℕ
  fresh : ℕ

/-- What can be done with a memory. -/
inductive MemoryOp
  | allocate
  | copyHandle (page : PageId)
  | dropHandle (page : PageId)
  | initializeAt (page : PageId) (address : Addr) (value : Value)
  | sealPage (page : PageId)
  | write (addr : Pointer) (val : Value)
  | read (addr : Pointer) (size : ℕ)
  | takeSnapshot
  | restoreSnapshot (id : ℕ)
  | dropSnapshot (id : ℕ)

/-- Pages are initialised before the run. -/
def MemoryOp.Running : MemoryOp → Prop
  | .initializeAt .. => False
  | _ => True

namespace SharedMemory

def empty : SharedMemory := ⟨⟨.empty, .empty⟩, [], [], [], 0, 0⟩

/-- `memory::allocate`; the caller keeps the pointer it returns. -/
def allocate (s : SharedMemory) : SharedMemory :=
  let page := s.objects.pages.next
  { s with
    objects := s.objects.makePage.retainPage page
    pages := s.pages ++ [page]
    handles := page :: s.handles }

/-- `memory::write`. -/
def write (S : Solver) (s : SharedMemory) (addr : Pointer) (val : Value) : SharedMemory :=
  match (addr.simplify S).asUint64 with
  | some base =>
    let byteSize := val.size / 8 % 256
    { s with objects := s.objects.writeCells addr.page base (val.simplify S) byteSize byteSize }
  | none => s

/-- `read_byte` of `memory::read`. -/
def readByte (s : SharedMemory) (page : PageId) (address : Addr) : MemCell × SharedMemory :=
  match (s.objects.page page).find address with
  | some cell => (cell, s)
  | none =>
    let cell := Context.uninitCell page address s.fresh
    (cell, { s with objects := s.objects.writeCell page address cell, fresh := s.fresh + 1 })

/-- The cells at `base + n - 1` down to `base`, in this order. -/
def readCells (s : SharedMemory) (page : PageId) (base : Addr) : ℕ → List MemCell × SharedMemory
  | 0 => ([], s)
  | n + 1 =>
    let last := s.readByte page (base + BitVec.ofNat 64 n)
    let rest := last.2.readCells page base n
    (last.1 :: rest.1, rest.2)

/-- `memory::read`. -/
def read (S : Solver) (s : SharedMemory) (addr : Pointer) (size : ℕ) : Value × SharedMemory :=
  match (addr.simplify S).asUint64 with
  | some base =>
    let byteSize := size / 8
    let last := s.readByte addr.page (base + BitVec.ofNat 64 byteSize - 1)
    let rest := last.2.readCells addr.page base (byteSize - 1)
    (Context.assemble last.1 rest.1 size byteSize, rest.2)
  | none => (.symbolic ⟨.read, s.fresh, size⟩, { s with fresh := s.fresh + 1 })

/-- `memory::take_snapshot`. -/
def takeSnapshot (s : SharedMemory) : SharedMemory :=
  let state := s.objects.pageStates s.pages
  { s with
    objects := state.foldl Objects.retainState s.objects
    snapshots := (s.taken, state) :: s.snapshots
    taken := s.taken + 1 }

/-- `memory::restore_snapshot`. -/
def restoreSnapshot (s : SharedMemory) (id : ℕ) : SharedMemory :=
  match s.snapshots.lookup id with
  | some state =>
    -- `pages.resize`
    let resized := (s.pages.drop state.length).foldl Objects.releasePage s.objects
    { s with
      objects := resized.restorePages (s.pages.take state.length) state
      pages := state.map PageState.page }
  | none => s

/-- The destructor of a snapshot. -/
def dropSnapshot (s : SharedMemory) (id : ℕ) : SharedMemory :=
  match s.snapshots.lookup id with
  | some state =>
    { s with
      objects := state.foldl Objects.releaseState s.objects
      snapshots := s.snapshots.eraseP (·.1 == id) }
  | none => s

/-- One operation, with what it returns. -/
def step (S : Solver) (s : SharedMemory) : MemoryOp → Option Value × SharedMemory
  | .allocate => (none, s.allocate)
  | .copyHandle p =>
    if p ∈ s.handles then
      (none, { s with objects := s.objects.retainPage p, handles := p :: s.handles })
    else (none, s)
  | .dropHandle p =>
    if p ∈ s.handles then
      (none, { s with objects := s.objects.releasePage p, handles := s.handles.erase p })
    else (none, s)
  | .initializeAt p a v =>
    if p ∈ s.handles then (none, { s with objects := s.objects.initializeAt p a v })
    else (none, s)
  | .sealPage p =>
    if p ∈ s.handles then (none, { s with objects := s.objects.sealPage p }) else (none, s)
  | .write addr val => if addr.page ∈ s.handles then (none, s.write S addr val) else (none, s)
  | .read addr size =>
    if addr.page ∈ s.handles then ((s.read S addr size).1, (s.read S addr size).2) else (none, s)
  | .takeSnapshot => (none, s.takeSnapshot)
  | .restoreSnapshot id => (none, s.restoreSnapshot id)
  | .dropSnapshot id => (none, s.dropSnapshot id)

/-- The state after a sequence of operations. -/
def run (S : Solver) (s : SharedMemory) (ops : List MemoryOp) : SharedMemory :=
  ops.foldl (fun s op => (s.step S op).2) s

end SharedMemory

end Vexa
