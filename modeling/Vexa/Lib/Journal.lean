import Mathlib.Algebra.Order.Group.Nat
import Mathlib.Logic.Function.Basic
import Mathlib.Logic.Relation

/-!
# A map with an undo log

Every change of the map notes the entry it replaces, and that there was none. Rolling back to an
earlier length of the log undoes the changes made since, the last one first.

## Main results

* `Journal.rollback_of_changes` — rolling back to where the log was gives the map back as it was
-/

open Relation

variable {K V : Type*} [DecidableEq K]

/-- A map and the log of the entries that were replaced, the last change first. -/
@[ext]
structure Journal (K V : Type*) where
  entries : K → Option V
  log : List (K × Option V)

namespace Journal

/-- The empty map, with nothing to undo. -/
def empty : Journal K V := ⟨fun _ => none, []⟩

/-- Sets or erases an entry. -/
def write (j : Journal K V) (k : K) (v : Option V) : Journal K V :=
  ⟨Function.update j.entries k v, (k, j.entries k) :: j.log⟩

/-- Undoes the changes of a log that are later than the checkpoint. -/
def undo (checkpoint : ℕ) : (K → Option V) → List (K × Option V) → Journal K V
  | entries, [] => ⟨entries, []⟩
  | entries, (k, old) :: log =>
    if checkpoint < log.length + 1 then undo checkpoint (Function.update entries k old) log
    else ⟨entries, (k, old) :: log⟩

/-- Undoes every change made since the log had this length. -/
def rollback (checkpoint : ℕ) (j : Journal K V) : Journal K V := undo checkpoint j.entries j.log

/-- The second one comes from the first by changes. -/
def Changes : Journal K V → Journal K V → Prop :=
  ReflTransGen fun i j => ∃ k v, j = i.write k v

@[simp] theorem write_entries (j : Journal K V) (k : K) (v : Option V) :
    (j.write k v).entries = Function.update j.entries k v := rfl

omit [DecidableEq K] in
@[simp] theorem empty_entries (k : K) : (empty : Journal K V).entries k = none := rfl

/-- Where the log has the length of the checkpoint, there is nothing to undo. -/
theorem rollback_self (j : Journal K V) : j.rollback j.log.length = j := by
  obtain ⟨entries, log⟩ := j
  cases log with
  | nil => rfl
  | cons record log => exact if_neg (lt_irrefl _)

theorem rollback_write {checkpoint : ℕ} (j : Journal K V) (k : K) (v : Option V)
    (h : checkpoint ≤ j.log.length) : (j.write k v).rollback checkpoint = j.rollback checkpoint := by
  have hundone : Function.update (Function.update j.entries k v) k (j.entries k) = j.entries := by
    rw [Function.update_idem, Function.update_eq_self]
  rw [rollback, write, undo, if_pos (Nat.lt_succ_of_le h), hundone, rollback]

theorem Changes.length_le {i j : Journal K V} (h : Changes i j) : i.log.length ≤ j.log.length := by
  induction h with
  | refl => exact le_rfl
  | tail _ hlast ih =>
    obtain ⟨k, v, rfl⟩ := hlast
    exact ih.trans (Nat.le_succ _)

/-- **Rolling back** undoes the changes. -/
theorem rollback_of_changes {i j : Journal K V} (h : Changes i j) : j.rollback i.log.length = i := by
  induction h with
  | refl => exact rollback_self i
  | tail hchanges hlast ih =>
    obtain ⟨k, v, rfl⟩ := hlast
    rw [rollback_write _ k v (Changes.length_le hchanges), ih]

end Journal
