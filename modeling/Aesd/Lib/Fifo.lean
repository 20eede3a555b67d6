import Mathlib.Data.List.Basic

/-!
# A queue that drops its oldest

A queue of at most `n` elements: a new one goes to the end, and if there were `n` already the first
one goes.  Nothing is lost that way but what is handed out, in order: `Fifo.pushAll_append`.
-/

set_option autoImplicit false

namespace Fifo

variable {α : Type*} {n : ℕ} {l : List α} {a : α}

/-- Add an element: what goes for it, if anything, and the queue. -/
def push (n : ℕ) (l : List α) (a : α) : Option α × List α :=
  if l.length = n then (l.head?, l.tail ++ [a]) else (none, l ++ [a])

/-- Add elements one after the other: what went for them, in order, and the queue. -/
def pushAll (n : ℕ) : List α → List α → List α × List α
  | l, [] => ([], l)
  | l, a :: as =>
    let (out, l) := push n l a
    let (outs, l) := pushAll n l as
    (out.toList ++ outs, l)

theorem push_of_ne (h : l.length ≠ n) : push n l a = (none, l ++ [a]) := if_neg h

theorem push_of_eq (h : l.length = n) : push n l a = (l.head?, l.tail ++ [a]) := if_pos h

/-- What goes was there before. -/
theorem push_append (hn : 0 < n) (l : List α) (a : α) :
    (push n l a).1.toList ++ (push n l a).2 = l ++ [a] := by
  by_cases h : l.length = n
  · rw [push_of_eq h]
    cases l with
    | nil => exact absurd h (by simp; omega)
    | cons b l => rfl
  · rw [push_of_ne h]
    rfl

/-- **What goes and what stays**, one after the other, is what there was and what was added. -/
theorem pushAll_append (hn : 0 < n) (l as : List α) :
    (pushAll n l as).1 ++ (pushAll n l as).2 = l ++ as := by
  induction as generalizing l with
  | nil => simp [pushAll]
  | cons a as ih =>
    show (push n l a).1.toList ++ (pushAll n (push n l a).2 as).1
      ++ (pushAll n (push n l a).2 as).2 = l ++ a :: as
    rw [List.append_assoc, ih, ← List.append_assoc, push_append hn, List.append_assoc]
    rfl

end Fifo
