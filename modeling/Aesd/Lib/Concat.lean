import Mathlib.Algebra.BigOperators.Group.List.Basic
import Mathlib.Algebra.GroupWithZero.Nat
import Mathlib.Algebra.Order.Group.Nat

/-!
# Positions in a concatenation

A position in the concatenation of several pieces is the same as a piece and a position in it.
`Concat.locate` computes the second from the first by walking the pieces' lengths, and
`locate_eq_some` says that adding up the lengths of the earlier pieces goes back.
-/

set_option autoImplicit false

namespace Concat

variable {α : Type*} {ss : List ℕ} {off k r : ℕ}

/-- The piece that position `off` falls into, and the place in it. -/
def locate : List ℕ → ℕ → Option (ℕ × ℕ)
  | [], _ => none
  | s :: ss, off =>
    if off < s then some (0, off) else (locate ss (off - s)).map fun x ↦ (x.1 + 1, x.2)

/-- The position before a piece. -/
def before (ss : List ℕ) (k : ℕ) : ℕ := (ss.take k).sum

@[simp] theorem before_zero (ss : List ℕ) : before ss 0 = 0 := by simp [before]

@[simp] theorem before_cons_succ (s : ℕ) (ss : List ℕ) (k : ℕ) :
    before (s :: ss) (k + 1) = s + before ss k := by
  simp [before]

theorem before_succ (hk : k < ss.length) : before ss (k + 1) = before ss k + ss[k] := by
  rw [before, before, List.take_succ_eq_append_getElem hk, List.sum_append, List.sum_singleton]

/-- **Going back from a piece and a place in it.** -/
theorem locate_eq_some :
    locate ss off = some (k, r) ↔ ∃ h : k < ss.length, r < ss[k] ∧ off = before ss k + r := by
  induction ss generalizing off k with
  | nil => simp [locate]
  | cons s ss ih =>
    rw [locate]
    split
    · rename_i hlt
      cases k with
      | zero => simp; omega
      | succ k =>
        simp only [Option.some.injEq, Prod.mk.injEq, List.length_cons, before_cons_succ,
          List.getElem_cons_succ]
        constructor
        · rintro ⟨h, -⟩; exact absurd h (by simp)
        · rintro ⟨-, -, h⟩; omega
    · rename_i hge
      rw [Option.map_eq_some_iff]
      constructor
      · rintro ⟨⟨k', r'⟩, hloc, h⟩
        simp only [Prod.mk.injEq] at h
        obtain ⟨rfl, rfl⟩ := h
        obtain ⟨hk, hr, hoff⟩ := ih.1 hloc
        refine ⟨by simpa using hk, by simpa using hr, ?_⟩
        rw [before_cons_succ]
        omega
      · rintro ⟨hk, hr, hoff⟩
        cases k with
        | zero => simp at hr hoff; omega
        | succ k =>
          rw [before_cons_succ] at hoff
          exact ⟨(k, r), ih.2 ⟨by simpa using hk, by simpa using hr, by omega⟩, rfl⟩

/-- Every position of the concatenation falls into a piece, and no other does. -/
theorem locate_eq_none : locate ss off = none ↔ ss.sum ≤ off := by
  induction ss generalizing off with
  | nil => simp [locate]
  | cons s ss ih =>
    rw [locate, List.sum_cons]
    split
    · rename_i hlt
      simp only [reduceCtorEq, false_iff]
      omega
    · rename_i hge
      rw [Option.map_eq_none_iff, ih]
      omega

theorem exists_locate (h : off < ss.sum) : ∃ x, locate ss off = some x := by
  rcases hl : locate ss off with _ | x
  · exact absurd (locate_eq_none.1 hl) (by omega)
  · exact ⟨x, rfl⟩

theorem before_le_sum (ss : List ℕ) (k : ℕ) : before ss k ≤ ss.sum := by
  conv_rhs => rw [← List.take_append_drop k ss, List.sum_append]
  exact Nat.le_add_right _ _

/-! ## Pieces that are lists -/

variable {ls : List (List α)}

theorem before_map_length (ls : List (List α)) (k : ℕ) :
    before (ls.map List.length) k = (ls.take k).flatten.length := by
  rw [before, ← List.map_take, List.length_flatten]

/-- What the concatenation holds from a place in a piece on. -/
theorem drop_flatten (hk : k < ls.length) (hr : r ≤ ls[k].length) :
    ls.flatten.drop (before (ls.map List.length) k + r)
      = ls[k].drop r ++ (ls.drop (k + 1)).flatten := by
  have hls : ls.flatten = (ls.take k).flatten ++ (ls[k] ++ (ls.drop (k + 1)).flatten) := by
    rw [← List.flatten_cons, ← List.drop_eq_getElem_cons hk, ← List.flatten_append,
      List.take_append_drop]
  rw [hls, before_map_length, ← List.drop_drop, List.drop_left, List.drop_append_of_le_length hr]

/-- The same, with the piece counted among what follows. -/
theorem drop_flatten_take (hk : k < ls.length) (hr : r ≤ ls[k].length) :
    ls.flatten.drop ((ls.take k).flatten.length + r) = (ls.drop k).flatten.drop r := by
  rw [← before_map_length, drop_flatten hk hr, List.drop_eq_getElem_cons hk, List.flatten_cons,
    List.drop_append_of_le_length hr]

/-- Reading on from where one is. -/
theorem isPrefix_drop_append {l a b : List α} {p : ℕ} (ha : a <+: l.drop p)
    (hb : b <+: l.drop (p + a.length)) : a ++ b <+: l.drop p := by
  obtain ⟨rest, hrest⟩ := ha
  rw [← List.drop_drop, ← hrest, List.drop_left] at hb
  rw [← hrest]
  exact (List.prefix_append_right_inj a).2 hb

/-! ## Pieces that are cut short -/

/-- What is taken of some pieces, of each its first elements up to a count. -/
def taken (xs : List (List α × ℕ)) : List α := xs.flatMap fun x ↦ x.1.take x.2

/-- All that the pieces hold. -/
def whole (xs : List (List α × ℕ)) : List α := xs.flatMap Prod.fst

variable {xs ys : List (List α × ℕ)}

@[simp] theorem taken_nil : taken ([] : List (List α × ℕ)) = [] := rfl

@[simp] theorem whole_nil : whole ([] : List (List α × ℕ)) = [] := rfl

@[simp] theorem taken_cons (x : List α × ℕ) (xs : List (List α × ℕ)) :
    taken (x :: xs) = x.1.take x.2 ++ taken xs := List.flatMap_cons

@[simp] theorem whole_cons (x : List α × ℕ) (xs : List (List α × ℕ)) :
    whole (x :: xs) = x.1 ++ whole xs := List.flatMap_cons

theorem taken_append : taken (xs ++ ys) = taken xs ++ taken ys := List.flatMap_append

theorem whole_append : whole (xs ++ ys) = whole xs ++ whole ys := List.flatMap_append

theorem length_taken_le (xs : List (List α × ℕ)) : (taken xs).length ≤ (whole xs).length := by
  induction xs with
  | nil => simp
  | cons x xs ih =>
    have hx := List.length_take_le' x.2 x.1
    rw [taken_cons, whole_cons, List.length_append, List.length_append]
    omega

/-- **Nothing is lost just when nothing is cut off.**  What is cut off one piece is not made up for
by the others. -/
theorem taken_eq_whole_iff : taken xs = whole xs ↔ ∀ x ∈ xs, x.1.length ≤ x.2 := by
  induction xs with
  | nil => simp
  | cons x xs ih =>
    rw [taken_cons, whole_cons, List.forall_mem_cons, ← ih]
    constructor
    · intro h
      have hlen := congrArg List.length h
      have hx := List.length_take_le' x.2 x.1
      have hxs := length_taken_le xs
      rw [List.length_append, List.length_append] at hlen
      obtain ⟨hcut, hrest⟩ := List.append_inj h (by omega)
      exact ⟨List.take_eq_self_iff x.1 |>.1 hcut, hrest⟩
    · rintro ⟨hcut, hrest⟩
      rw [List.take_of_length_le hcut, hrest]

end Concat
