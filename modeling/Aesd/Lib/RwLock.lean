import Mathlib.Data.List.Count
import Mathlib.Data.List.Nodup

/-!
# A readers-writer lock

The holders of a readers-writer lock, for threads named by numbers.  A value of `RwLock` cannot have
a writer beside a reader, nor a reader listed twice: the structure carries both as fields.

`rdlock` and `wrlock` answer `none` while the lock is not to be had, which is when the thread waits.
Nothing is said about the order in which waiting threads get it.
-/

set_option autoImplicit false

/-- A readers-writer lock and who holds it. -/
structure RwLock where
  /-- The threads that hold it for reading. -/
  readers : List ℕ
  /-- The thread that holds it for writing. -/
  writer : Option ℕ
  /-- A writer holds it alone. -/
  excl : writer ≠ none → readers = []
  /-- Nobody reads twice. -/
  nodup : readers.Nodup
deriving DecidableEq

namespace RwLock

variable {l m : RwLock} {i j : ℕ}

/-- The lock that nobody holds. -/
def free : RwLock := ⟨[], none, fun _ ↦ rfl, List.nodup_nil⟩

/-- The thread holds the lock for reading. -/
def Reading (l : RwLock) (i : ℕ) : Prop := i ∈ l.readers

/-- The thread holds the lock for writing. -/
def Writing (l : RwLock) (i : ℕ) : Prop := l.writer = some i

/-- The thread holds the lock. -/
def Held (l : RwLock) (i : ℕ) : Prop := l.Reading i ∨ l.Writing i

instance (l : RwLock) (i : ℕ) : Decidable (l.Reading i) := inferInstanceAs (Decidable (_ ∈ _))

instance (l : RwLock) (i : ℕ) : Decidable (l.Writing i) := inferInstanceAs (Decidable (_ = _))

instance (l : RwLock) (i : ℕ) : Decidable (l.Held i) := inferInstanceAs (Decidable (_ ∨ _))

/-- Take the lock for reading. -/
def rdlock (l : RwLock) (i : ℕ) : Option RwLock :=
  if h : l.writer = none ∧ i ∉ l.readers then
    some ⟨i :: l.readers, none, fun hw ↦ absurd rfl hw, List.nodup_cons.2 ⟨h.2, l.nodup⟩⟩
  else none

/-- Take the lock for writing. -/
def wrlock (l : RwLock) (i : ℕ) : Option RwLock :=
  if l.writer = none ∧ l.readers = [] then some ⟨[], some i, fun _ ↦ rfl, List.nodup_nil⟩ else none

/-- Give the lock back. -/
def unlock (l : RwLock) (i : ℕ) : RwLock :=
  if l.writer = some i then free
  else ⟨l.readers.erase i, l.writer, fun hw ↦ by rw [l.excl hw]; rfl, l.nodup.erase i⟩

theorem not_reading_free : ¬ free.Reading i := List.not_mem_nil

theorem not_writing_free : ¬ free.Writing i := by simp [Writing, free]

/-! ## Mutual exclusion -/

theorem Writing.unique (hi : l.Writing i) (hj : l.Writing j) : i = j :=
  Option.some_inj.1 (hi.symm.trans hj)

theorem Writing.not_reading (hi : l.Writing i) : ¬ l.Reading j := by
  rw [Reading, l.excl (by rw [hi]; simp)]
  exact List.not_mem_nil

theorem Reading.writer_eq (hi : l.Reading i) : l.writer = none := by
  by_contra hw
  rw [Reading, l.excl hw] at hi
  exact List.not_mem_nil hi

/-! ## What the calls do -/

theorem rdlock_eq_some (h : l.rdlock i = some m) :
    l.writer = none ∧ m.writer = none ∧ ∀ j, m.Reading j ↔ j = i ∨ l.Reading j := by
  rw [rdlock] at h
  split at h
  · rename_i hw
    obtain rfl := Option.some_inj.1 h
    exact ⟨hw.1, rfl, fun j ↦ List.mem_cons⟩
  · exact absurd h (by simp)

theorem wrlock_eq_some (h : l.wrlock i = some m) :
    l.writer = none ∧ l.readers = [] ∧ m.writer = some i ∧ m.readers = [] := by
  rw [wrlock] at h
  split at h
  · rename_i hw
    obtain rfl := Option.some_inj.1 h
    exact ⟨hw.1, hw.2, rfl, rfl⟩
  · exact absurd h (by simp)

theorem writing_unlock : (l.unlock i).Writing j ↔ l.Writing j ∧ j ≠ i := by
  rw [unlock, Writing, Writing]
  split
  · rename_i hw
    rw [hw]
    simp only [free, Option.some_inj, reduceCtorEq, false_iff]
    rintro ⟨rfl, hne⟩
    exact hne rfl
  · rename_i hw
    refine ⟨fun hj ↦ ⟨hj, ?_⟩, And.left⟩
    rintro rfl
    exact hw hj

theorem reading_unlock : (l.unlock i).Reading j ↔ l.Reading j ∧ j ≠ i := by
  rw [unlock]
  split
  · rename_i hw
    refine ⟨fun hj ↦ absurd hj not_reading_free, fun hj ↦ ?_⟩
    exact absurd hj.1 (Writing.not_reading hw)
  · rw [Reading, Reading, List.Nodup.mem_erase_iff l.nodup, and_comm]

end RwLock
