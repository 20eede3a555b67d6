import Mathlib.Data.List.DropRight
import Mathlib.Data.List.Infix

/-!
# Following a window on a growing sequence

A sequence that grows at its end and is kept only from some place on: `Window`.  What is dropped at
the front is gone (`Window.Slides`).  A reader counts from the front of what is kept, and is not
told when something is dropped; `Window.Follows` is what can still be said of all it has read.

It has read nothing twice and nothing out of order, and missed no more than was dropped.
`Window.last` is the window on a sequence of pieces of which a number is kept.
-/

set_option autoImplicit false

variable {α : Type*}

/-- A sequence, at the place where it is cut. -/
structure Window (α : Type*) where
  /-- What was dropped. -/
  dropped : List α
  /-- What is kept. -/
  kept : List α

namespace Window

/-- All of it. -/
def history (w : Window α) : List α := w.dropped ++ w.kept

/-- The sequence grows, and the window moves on. -/
structure Slides (v w : Window α) : Prop where
  /-- What was dropped is not there again. -/
  dropped : v.dropped <+: w.dropped
  /-- The sequence only grows. -/
  history : v.history <+: w.history

/-- Something was read by a reader that starts each time as many places behind the front as it has
read before. -/
structure Follows (w : Window α) (told : List α) : Prop where
  /-- It is a part of the sequence up to a place, in order, and no more is left out of it than was
  dropped. -/
  sublist : ∃ n ≤ w.dropped.length + told.length, told.Sublist (w.history.take n)
  /-- Nothing is left out as long as nothing is dropped. -/
  whole : w.dropped = [] → told <+: w.history

variable {v w : Window α} {told x : List α}

theorem follows_nil (w : Window α) : w.Follows [] where
  sublist := ⟨0, Nat.zero_le _, List.nil_sublist _⟩
  whole _ := List.nil_prefix

/-- The window moves on. -/
theorem Follows.slides (h : v.Follows told) (hs : v.Slides w) : w.Follows told where
  sublist := by
    obtain ⟨n, hn, hsub⟩ := h.sublist
    exact ⟨n, hn.trans (Nat.add_le_add_right hs.dropped.length_le _),
      hsub.trans (hs.history.take n).sublist⟩
  whole hnil := by
    have hdropped := hs.dropped
    rw [hnil, List.prefix_nil] at hdropped
    exact (h.whole hdropped).trans hs.history

/-- The reader goes on. -/
theorem Follows.reads (h : w.Follows told) (hx : x <+: w.kept.drop told.length) :
    w.Follows (told ++ x) := by
  have hrest : w.kept.drop told.length = w.history.drop (w.dropped.length + told.length) := by
    rw [history, List.drop_append]
    simp
  refine ⟨⟨w.dropped.length + told.length + x.length, ?_, ?_⟩, fun hnil ↦ ?_⟩
  · rw [List.length_append, Nat.add_assoc]
  · obtain ⟨n, hn, hsub⟩ := h.sublist
    rw [List.take_add, ← hrest, ← List.prefix_iff_eq_take.1 hx]
    exact (hsub.trans (List.take_prefix_take_left hn).sublist).append (List.Sublist.refl x)
  · obtain ⟨more, hmore⟩ := h.whole hnil
    obtain ⟨rest, hrest'⟩ := hx
    rw [hrest, hnil, ← hmore] at hrest'
    refine ⟨rest, ?_⟩
    simp only [List.length_nil, Nat.zero_add, List.drop_left] at hrest'
    rw [List.append_assoc, hrest', hmore]

/-- What it has left out is not more than what was dropped. -/
theorem Follows.missed (h : w.Follows told) (hall : w.kept.drop told.length = []) :
    told.Sublist w.history ∧ w.history.length ≤ told.length + w.dropped.length := by
  obtain ⟨n, -, hsub⟩ := h.sublist
  refine ⟨hsub.trans (List.take_sublist _ _), ?_⟩
  rw [List.drop_eq_nil_iff] at hall
  rw [history, List.length_append]
  omega

/-! ## The last of some pieces -/

/-- The last `n` pieces of a sequence of pieces are kept. -/
def last (n : ℕ) (pieces : List (List α)) : Window α :=
  ⟨(pieces.rdrop n).flatten, (pieces.rtake n).flatten⟩

variable {n : ℕ} {pieces : List (List α)}

@[simp] theorem history_last (n : ℕ) (pieces : List (List α)) :
    (last n pieces).history = pieces.flatten := by
  rw [history, last, ← List.flatten_append, List.rdrop_eq_reverse_drop_reverse,
    List.rtake_eq_reverse_take_reverse, ← List.reverse_append, List.take_append_drop,
    List.reverse_reverse]

theorem dropped_last (h : pieces.length ≤ n) : (last n pieces).dropped = [] := by
  rw [last, List.rdrop, Nat.sub_eq_zero_of_le h]
  rfl

/-- One more piece. -/
theorem slides_last (n : ℕ) (pieces : List (List α)) (piece : List α) :
    (last n pieces).Slides (last n (pieces ++ [piece])) where
  dropped := by
    refine List.IsPrefix.flatten ?_
    rw [List.rdrop, List.rdrop, List.take_append]
    refine (List.take_prefix_take_left (Nat.sub_le_sub_right ?_ n)).trans (List.prefix_append _ _)
    rw [List.length_append]
    exact Nat.le_add_right _ _
  history := by
    rw [history_last, history_last, List.flatten_append]
    exact List.prefix_append _ _

end Window
