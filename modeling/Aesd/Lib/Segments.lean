import Mathlib.Data.List.Basic
import Mathlib.Data.List.Infix

/-!
# Cutting a list after every terminator

`Segments.split p l` cuts `l` after each element that satisfies `p`.  It is the reading of a
newline-terminated stream (`p` says that a byte is the newline) and of a sequence of chunks that
are collected until one of them ends a record (`p` says that a chunk does).

`segments p l` are the pieces that were terminated, in order, and `rest p l` is what follows the
last terminator.  `segments_flatten_append_rest` and `isSegment_of_mem` say that this is a cutting
of `l`.
-/

set_option autoImplicit false

namespace Segments

variable {α : Type*} (p : α → Prop)

/-- A piece that was terminated: its last element, and only that one, is a terminator. -/
def IsSegment (s : List α) : Prop := ∃ b x, s = b ++ [x] ∧ (∀ y ∈ b, ¬ p y) ∧ p x

variable {p} in
theorem IsSegment.ne_nil {s : List α} (hs : IsSegment p s) : s ≠ [] := by
  obtain ⟨b, x, rfl, -, -⟩ := hs
  simp

variable {p} in
/-- Prolonging a segment at its start by elements that are no terminators. -/
theorem IsSegment.append {s b : List α} (hb : ∀ x ∈ b, ¬ p x) (hs : IsSegment p s) :
    IsSegment p (b ++ s) := by
  obtain ⟨c, x, rfl, hc, hx⟩ := hs
  refine ⟨b ++ c, x, by rw [List.append_assoc], fun y hy ↦ ?_, hx⟩
  rcases List.mem_append.1 hy with hy | hy
  · exact hb y hy
  · exact hc y hy

variable {p} in
/-- A segment cut in two: its end is a segment, and before it there is no terminator. -/
theorem IsSegment.cut {a b : List α} (hs : IsSegment p (a ++ b)) (hb : b ≠ []) :
    (∀ x ∈ a, ¬ p x) ∧ IsSegment p b := by
  obtain ⟨c, x, heq, hc, hx⟩ := hs
  obtain ⟨b, y, rfl⟩ := (List.eq_nil_or_concat' b).resolve_left hb
  rw [← List.append_assoc] at heq
  obtain ⟨rfl, hxy⟩ := List.append_inj' heq rfl
  obtain rfl := List.singleton_injective hxy
  exact ⟨fun z hz ↦ hc z (List.mem_append_left b hz), b, y, rfl,
    fun z hz ↦ hc z (List.mem_append_right a hz), hx⟩

variable [DecidablePred p]

/-- Take one more element: it ends the current piece if it is a terminator. -/
def feed (s : List (List α) × List α) (x : α) : List (List α) × List α :=
  if p x then (s.1 ++ [s.2 ++ [x]], []) else (s.1, s.2 ++ [x])

/-- The terminated pieces of a list, and what is left over. -/
def split (l : List α) : List (List α) × List α := l.foldl (feed p) ([], [])

/-- The terminated pieces of a list, in order. -/
def segments (l : List α) : List (List α) := (split p l).1

/-- What follows the last terminator. -/
def rest (l : List α) : List α := (split p l).2

/-! ## One element more -/

@[simp] theorem segments_nil : segments p [] = [] := rfl

@[simp] theorem rest_nil : rest p [] = [] := rfl

theorem split_concat (l : List α) (x : α) : split p (l ++ [x]) = feed p (split p l) x := by
  rw [split, List.foldl_append]; rfl

theorem segments_concat (l : List α) (x : α) :
    segments p (l ++ [x]) = if p x then segments p l ++ [rest p l ++ [x]] else segments p l := by
  rw [segments, split_concat, feed, apply_ite Prod.fst]; rfl

theorem rest_concat (l : List α) (x : α) :
    rest p (l ++ [x]) = if p x then [] else rest p l ++ [x] := by
  rw [rest, split_concat, feed, apply_ite Prod.snd]; rfl

/-! ## Many elements more -/

variable {p} {l b : List α}

theorem rest_append (hb : ∀ x ∈ b, ¬ p x) : rest p (l ++ b) = rest p l ++ b := by
  induction b using List.reverseRecOn with
  | nil => simp
  | append_singleton b x ih =>
    have hx : ¬ p x := hb x (by simp)
    rw [← List.append_assoc, rest_concat, if_neg hx, ih fun y hy ↦ hb y (by simp [hy]),
      List.append_assoc]

theorem segments_append (hb : ∀ x ∈ b, ¬ p x) : segments p (l ++ b) = segments p l := by
  induction b using List.reverseRecOn with
  | nil => simp
  | append_singleton b x ih =>
    have hx : ¬ p x := hb x (by simp)
    rw [← List.append_assoc, segments_concat, if_neg hx, ih fun y hy ↦ hb y (by simp [hy])]

/-- Appending up to the next terminator completes one segment. -/
theorem segments_append_isSegment (hb : IsSegment p b) :
    segments p (l ++ b) = segments p l ++ [rest p l ++ b] := by
  obtain ⟨c, x, rfl, hc, hx⟩ := hb
  rw [← List.append_assoc, segments_concat, if_pos hx, segments_append hc, rest_append hc,
    List.append_assoc]

theorem rest_append_isSegment (hb : IsSegment p b) : rest p (l ++ b) = [] := by
  obtain ⟨c, x, rfl, -, hx⟩ := hb
  rw [← List.append_assoc, rest_concat, if_pos hx]

theorem segments_mono (l b : List α) : segments p l <+: segments p (l ++ b) := by
  induction b using List.reverseRecOn with
  | nil => simp
  | append_singleton b x ih =>
    rw [← List.append_assoc, segments_concat]
    split
    · exact ih.trans (List.prefix_append _ _)
    · exact ih

/-- Every terminator ends one segment. -/
theorem length_segments (l : List α) : (segments p l).length = l.countP fun x ↦ decide (p x) := by
  induction l using List.reverseRecOn with
  | nil => rfl
  | append_singleton l x ih =>
    rw [segments_concat, List.countP_append, ← ih]
    by_cases hx : p x
    · rw [if_pos hx, List.length_append, List.countP_singleton, if_pos (by simpa using hx)]
      rfl
    · rw [if_neg hx, List.countP_singleton, if_neg (by simpa using hx), Nat.add_zero]

theorem countP_isSegment {s : List α} (hs : IsSegment p s) :
    s.countP (fun x ↦ decide (p x)) = 1 := by
  obtain ⟨b, x, rfl, hb, hx⟩ := hs
  rw [List.countP_append, List.countP_eq_zero.2 (by simpa using hb), List.countP_singleton,
    if_pos (by simpa using hx)]

/-! ## It is a cutting, and the only one -/

/-- **Nothing is lost, repeated or moved.** -/
theorem segments_flatten_append_rest (l : List α) :
    (segments p l).flatten ++ rest p l = l := by
  induction l using List.reverseRecOn with
  | nil => rfl
  | append_singleton l x ih =>
    rw [segments_concat, rest_concat]
    split
    · rw [List.flatten_append, List.append_nil, List.flatten_singleton, ← List.append_assoc, ih]
    · rw [← List.append_assoc, ih]

theorem not_of_mem_rest (l : List α) : ∀ x ∈ rest p l, ¬ p x := by
  induction l using List.reverseRecOn with
  | nil => simp
  | append_singleton l x ih =>
    intro y
    rw [rest_concat]
    split
    · simp
    · rename_i hx
      rw [List.mem_append, List.mem_singleton]
      rintro (hy | rfl)
      · exact ih y hy
      · exact hx

theorem isSegment_of_mem (l : List α) : ∀ s ∈ segments p l, IsSegment p s := by
  induction l using List.reverseRecOn with
  | nil => simp
  | append_singleton l x ih =>
    intro s
    rw [segments_concat]
    split
    · rename_i hx
      rw [List.mem_append, List.mem_singleton]
      rintro (hs | rfl)
      · exact ih s hs
      · exact ⟨rest p l, x, rfl, not_of_mem_rest l, hx⟩
    · exact ih s

/-! ## A list that comes in chunks -/

/-- From a list that holds a terminator on, only what follows counts. -/
theorem rest_append_of_mem (l : List α) {x : α} (hx : x ∈ b) (hp : p x) :
    rest p (l ++ b) = rest p b := by
  induction b using List.reverseRecOn with
  | nil => simp at hx
  | append_singleton b y ih =>
    rw [← List.append_assoc, rest_concat, rest_concat]
    by_cases hy : p y
    · rw [if_pos hy, if_pos hy]
    · have hxb : x ∈ b := by
        rcases List.mem_append.1 hx with hx | hx
        · exact hx
        · exact absurd (List.mem_singleton.1 hx ▸ hp) hy
      rw [if_neg hy, if_neg hy, ih hxb]

theorem rest_eq_self (hb : ∀ x ∈ b, ¬ p x) : rest p b = b := by
  have h := rest_append hb (l := [])
  rwa [List.nil_append] at h

variable (p) in
/-- One chunk more: what was left over before goes on unless there is a terminator in the chunk, and
what follows the chunk's last terminator is left over too. -/
def keep (ls : List (List α)) (c : List α) : List (List α) :=
  (if ∃ x ∈ c, p x then [] else ls) ++ if rest p c = [] then [] else [rest p c]

variable (p) in
/-- What the chunks leave over after the last terminator, each chunk's part by itself. -/
def tails (cs : List (List α)) : List (List α) := cs.foldl (keep p) []

theorem tails_concat (cs : List (List α)) (c : List α) :
    tails p (cs ++ [c]) = keep p (tails p cs) c := by
  rw [tails, List.foldl_append]
  rfl

/-- A chunk whose first part `b` ends with a terminator or is empty, and goes on without one. -/
theorem tails_concat_append (cs : List (List α)) {c : List α} (hb : rest p b = [])
    (hc : ∀ x ∈ c, ¬ p x) : tails p (cs ++ [b ++ c])
      = (if ∃ x ∈ b, p x then [] else tails p cs) ++ if c = [] then [] else [c] := by
  have hmem : (∃ x ∈ b ++ c, p x) ↔ ∃ x ∈ b, p x := by
    constructor
    · rintro ⟨x, hx, hp⟩
      exact ⟨x, (List.mem_append.1 hx).resolve_right fun hxc ↦ hc x hxc hp, hp⟩
    · rintro ⟨x, hx, hp⟩
      exact ⟨x, List.mem_append_left c hx, hp⟩
  rw [tails_concat, keep, rest_append hc, hb, List.nil_append]
  simp only [hmem]

/-- **The parts left over are the rest of the list.** -/
theorem flatten_tails (cs : List (List α)) : (tails p cs).flatten = rest p cs.flatten := by
  induction cs using List.reverseRecOn with
  | nil => rfl
  | append_singleton cs c ih =>
    have hlast : (if rest p c = [] then [] else [rest p c]).flatten = rest p c := by
      split
      · rename_i hnil
        rw [hnil, List.flatten_nil]
      · rw [List.flatten_singleton]
    rw [tails_concat, keep, List.flatten_append, List.flatten_append, List.flatten_singleton, hlast]
    by_cases hc : ∃ x ∈ c, p x
    · obtain ⟨x, hx, hp⟩ := hc
      rw [if_pos ⟨x, hx, hp⟩, List.flatten_nil, List.nil_append, rest_append_of_mem _ hx hp]
    · have hnot : ∀ x ∈ c, ¬ p x := fun x hx hp ↦ hc ⟨x, hx, hp⟩
      rw [if_neg hc, ih, rest_append hnot, rest_eq_self hnot]

end Segments
