import Mathlib.Data.List.DropRight
import Mathlib.Data.List.Perm.Basic
import Mathlib.Data.Nat.ModEq

/-!
# Walking round an array

`Ring.walk v k m` are the `m` slots of the array `v` met from index `k` on, with the index wrapping
at the array's length: the contents of a ring buffer whose window starts at `k` and has `m` slots.

The two operations of a bounded queue are `walk_set_end`, which writes the first slot behind a
window that is not yet the whole array, and `walk_set_start`, which overwrites the oldest slot of a
window that is, and moves the window on by one.
-/

set_option autoImplicit false

namespace Ring

variable {α : Type*} {n : ℕ} [NeZero n] {v : Vector α n} {a : α} {i j k m : ℕ}

/-- The slot at index `k`, counted round the array. -/
def slot (v : Vector α n) (k : ℕ) : α := v[(⟨k % n, Nat.mod_lt _ (Nat.pos_of_neZero n)⟩ : Fin n)]

/-- The `m` slots met from index `k` on. -/
def walk (v : Vector α n) : ℕ → ℕ → List α
  | _, 0 => []
  | k, m + 1 => slot v k :: walk v (k + 1) m

theorem slot_of_lt (hk : k < n) : slot v k = v[k] := by
  simp [slot, Nat.mod_eq_of_lt hk]

theorem slot_congr (h : i % n = j % n) : slot v i = slot v j := by
  simp [slot, h]

theorem slot_set : slot (v.setIfInBounds j a) k = if k % n = j then a else slot v k := by
  simp only [slot, Fin.getElem_fin, Vector.getElem_setIfInBounds, eq_comm]

@[simp] theorem length_walk (v : Vector α n) (k m : ℕ) : (walk v k m).length = m := by
  induction m generalizing k with
  | zero => rfl
  | succ m ih => rw [walk, List.length_cons, ih]

/-- Only the place on the ring matters, not how often the index went round. -/
theorem walk_congr (h : i % n = j % n) : walk v i m = walk v j m := by
  induction m generalizing i j with
  | zero => rfl
  | succ m ih => rw [walk, walk, slot_congr h, ih (Nat.ModEq.add_right 1 h)]

theorem walk_add (v : Vector α n) (k i m : ℕ) :
    walk v k (i + m) = walk v k i ++ walk v (k + i) m := by
  induction i generalizing k with
  | zero => simp [walk]
  | succ i ih =>
    rw [Nat.add_right_comm, walk, walk, ih (k + 1), List.cons_append, Nat.add_assoc,
      Nat.add_comm 1 i]

theorem walk_concat (v : Vector α n) (k m : ℕ) :
    walk v k (m + 1) = walk v k m ++ [slot v (k + m)] := by
  rw [walk_add, walk, walk]

theorem getElem_walk (hi : i < (walk v k m).length) : (walk v k m)[i] = slot v (k + i) := by
  induction m generalizing i k with
  | zero => simp at hi
  | succ m ih =>
    cases i with
    | zero => rfl
    | succ i =>
      simp only [walk, List.getElem_cons_succ]
      rw [ih, Nat.add_right_comm, Nat.add_assoc]

theorem mem_walk {x : α} : x ∈ walk v k m ↔ ∃ i < m, x = slot v (k + i) := by
  rw [List.mem_iff_getElem]
  constructor
  · rintro ⟨i, hi, rfl⟩
    exact ⟨i, by simpa using hi, getElem_walk _⟩
  · rintro ⟨i, hi, rfl⟩
    exact ⟨i, by simpa using hi, getElem_walk _⟩

/-- A write outside the window is not seen. -/
theorem walk_set_of_ne (h : ∀ i < m, (k + i) % n ≠ j) :
    walk (v.setIfInBounds j a) k m = walk v k m := by
  refine List.ext_getElem (by simp) fun i h1 h2 ↦ ?_
  rw [getElem_walk, getElem_walk, slot_set, if_neg (h i (by simpa using h1))]

omit [NeZero n] in
/-- Different places of a window are different slots. -/
theorem add_mod_ne (hij : i < j) (hj : j < n) : (k + i) % n ≠ (k + j) % n := by
  intro h
  have h' : i % n = j % n := Nat.ModEq.add_left_cancel' k h
  rw [Nat.mod_eq_of_lt (hij.trans hj), Nat.mod_eq_of_lt hj] at h'
  omega

/-- Writing behind the window and taking the slot in. -/
theorem walk_set_end (hjk : j = (k + m) % n) (hm : m < n) :
    walk (v.setIfInBounds j a) k (m + 1) = walk v k m ++ [a] := by
  rw [walk_concat, walk_set_of_ne fun i hi ↦ hjk ▸ add_mod_ne hi hm, slot_set, if_pos hjk.symm]

/-- Overwriting the oldest slot of a full window, which then starts one later. -/
theorem walk_set_start (hjk : j = k % n) :
    walk (v.setIfInBounds j a) (k + 1) n = (walk v k n).tail ++ [a] := by
  obtain ⟨m, rfl⟩ : ∃ m, n = m + 1 := Nat.exists_eq_succ_of_ne_zero (NeZero.ne n)
  rw [walk_set_end (by rw [hjk, Nat.add_assoc, Nat.add_comm 1 m, Nat.add_mod_right])
    (Nat.lt_succ_self m)]
  rfl

/-- Wherever it starts, a full walk meets every slot once. -/
theorem walk_perm (v : Vector α n) (k : ℕ) : (walk v k n).Perm (walk v 0 n) := by
  induction k with
  | zero => exact .refl _
  | succ k ih =>
    refine .trans ?_ ih
    obtain ⟨m, hm⟩ : ∃ m, n = m + 1 := Nat.exists_eq_succ_of_ne_zero (NeZero.ne n)
    have hlast : slot v (k + 1 + m) = slot v k := by
      rw [Nat.add_assoc, Nat.add_comm 1 m, ← hm]
      exact slot_congr (Nat.add_mod_right k n)
    have hend : walk v (k + 1) n = walk v (k + 1) m ++ [slot v k] := by
      rw [show walk v (k + 1) n = walk v (k + 1) (m + 1) by rw [← hm], walk_concat, hlast]
    have hstart : walk v k n = slot v k :: walk v (k + 1) m := by
      rw [show walk v k n = walk v k (m + 1) by rw [← hm], walk]
    rw [hend, hstart]
    exact List.perm_append_singleton ..

/-! ## The last elements of a growing list -/

omit [NeZero n] in
theorem rtake_concat_of_lt {l : List α} (hl : l.length < n) :
    (l ++ [a]).rtake n = l ++ [a] := by
  rw [List.rtake, List.length_append, List.length_singleton, Nat.sub_eq_zero_of_le hl,
    List.drop_zero]

theorem rtake_concat_of_eq {l : List α} (hl : l.length = n) :
    (l ++ [a]).rtake n = l.tail ++ [a] := by
  have hn : 0 < n := Nat.pos_of_neZero n
  rw [List.rtake, List.length_append, List.length_singleton, hl, Nat.add_sub_cancel_left,
    List.drop_append_of_le_length (by omega), List.drop_one]

/-- Keeping the last `n` all along is the same as keeping the last `n` once. -/
theorem rtake_rtake_concat (l : List α) : ((l.rtake n) ++ [a]).rtake n = (l ++ [a]).rtake n := by
  rcases Nat.lt_or_ge l.length n with h | h
  · rw [show l.rtake n = l by rw [List.rtake, Nat.sub_eq_zero_of_le h.le, List.drop_zero]]
  · have hn : 0 < n := Nat.pos_of_neZero n
    have hlen : (l.rtake n).length = n := by rw [List.rtake, List.length_drop]; omega
    rw [rtake_concat_of_eq hlen, List.rtake, List.rtake, List.tail_drop, List.length_append,
      List.length_singleton, List.drop_append_of_le_length (by omega)]
    congr 2
    omega

end Ring
