import Mathlib.Data.List.Perm.Subperm
import Aesd.Lib.Heap

/-!
# Linked lists in a heap

`Linked next h p l` says that the pointer `p` starts a linked list in the heap `h` whose nodes, with
their identities, are those of `l`; `next` is the node's pointer to the next one.  The list ends
with a null pointer, so a cyclic list is no linked list in this sense, and a loop that follows the
pointers meets as many nodes as were ever allocated, at most (`Linked.length_le`).
-/

set_option autoImplicit false

variable {α : Type*} (next : α → Option ℕ)

/-- The nodes met from the pointer `p` on, up to a null pointer. -/
def Linked (h : Heap α) : Option ℕ → List (ℕ × α) → Prop
  | p, [] => p = none
  | p, x :: l => p = some x.1 ∧ h.get? x.1 = some x.2 ∧ Linked h (next x.2) l

namespace Linked

variable {next} {h h' : Heap α} {p : Option ℕ} {l m : List (ℕ × α)} {q : ℕ} {a b : α}

@[simp] theorem nil_iff : Linked next h p [] ↔ p = none := Iff.rfl

theorem cons_iff : Linked next h p ((q, a) :: l) ↔
    p = some q ∧ h.get? q = some a ∧ Linked next h (next a) l := Iff.rfl

/-- Only the list's own nodes matter. -/
theorem congr (hl : Linked next h p l) (hc : ∀ x ∈ l, h'.get? x.1 = h.get? x.1) :
    Linked next h' p l := by
  induction l generalizing p with
  | nil => exact hl
  | cons x l ih =>
    obtain ⟨hp, hx, hl⟩ := hl
    exact ⟨hp, by rw [hc x (by simp), hx], ih hl fun y hy ↦ hc y (by simp [hy])⟩

/-- Another end: the last node is overwritten and leads to the nodes of `m`. -/
theorem replace_last (hl : Linked next h p (l ++ [(q, a)]))
    (hc : ∀ x ∈ l, h'.get? x.1 = h.get? x.1) (hq : h'.get? q = some b)
    (hm : Linked next h' (next b) m) : Linked next h' p (l ++ (q, b) :: m) := by
  induction l generalizing p with
  | nil => exact ⟨hl.1, hq, hm⟩
  | cons x l ih =>
    obtain ⟨hp, hx, hl⟩ := hl
    exact ⟨hp, by rw [hc x (by simp), hx], ih hl fun y hy ↦ hc y (by simp [hy])⟩

/-- The list from a node on. -/
theorem drop_left (hl : Linked next h p (l ++ (q, a) :: m)) :
    Linked next h (some q) ((q, a) :: m) := by
  induction l generalizing p with
  | nil => exact ⟨rfl, hl.2⟩
  | cons x l ih => exact ih hl.2.2

theorem next_last (hl : Linked next h p (l ++ [(q, a)])) : next a = none := hl.drop_left.2.2

theorem get?_of_mem (hl : Linked next h p l) {x : ℕ × α} (hx : x ∈ l) :
    h.get? x.1 = some x.2 := by
  induction l generalizing p with
  | nil => simp at hx
  | cons y l ih =>
    rcases List.mem_cons.1 hx with rfl | hx
    · exact hl.2.1
    · exact ih hl.2.2 hx

/-- A loop along the list meets at most as many nodes as were ever allocated. -/
theorem length_le (hl : Linked next h p l) (hn : (l.map Prod.fst).Nodup) :
    l.length ≤ h.next := by
  have hsub : l.map Prod.fst ⊆ List.range h.next := by
    intro q hq
    obtain ⟨x, hx, rfl⟩ := List.mem_map.1 hq
    exact List.mem_range.2 (Heap.live_of_get? (hl.get?_of_mem hx)).1
  have hle := (hn.subperm hsub).length_le
  rwa [List.length_map, List.length_range] at hle

end Linked
