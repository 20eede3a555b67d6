import Mathlib.Data.List.Nodup

/-!
# Lists whose nodes point back to the slot before them

A tail queue keeps a pointer to its first node and, instead of its last node, the place where the
next node is going to be stored: a *slot*.  Each node has the pointer to the next one and the
address of the slot that points to it.  So there are two kinds of slots, the queue's own and that of
a node, and an edit of the list needs no case for its first node.

`Slot.Chain fwd bwd p l q` says that from the slot `p` on the slots hold the nodes of `l`, each of
which points back, and that `q` is the slot after the last one.  What the slots and the nodes hold
is given by two partial functions, `none` where there is no memory, so that a list in memory that
was freed is no list.  The edits are `Slot.Chain.concat` and `Slot.Chain.unlink`.
-/

set_option autoImplicit false

/-- A place where a pointer to a node is stored. -/
inductive Slot (ι : Type*)
  /-- In the queue itself. -/
  | first
  /-- In a node, where the pointer to the next node is. -/
  | next (node : ι)
deriving DecidableEq, Repr

namespace Slot

variable {ι : Type*} {p : Slot ι} {l : List ι} {i : ι}

/-- The slot behind the nodes of a list that starts in a slot. -/
def behind (p : Slot ι) : List ι → Slot ι
  | [] => p
  | i :: l => behind (.next i) l

@[simp] theorem behind_nil (p : Slot ι) : p.behind [] = p := rfl

@[simp] theorem behind_cons (p : Slot ι) (i : ι) (l : List ι) :
    p.behind (i :: l) = (Slot.next i).behind l := rfl

@[simp] theorem behind_append (p : Slot ι) (l m : List ι) :
    p.behind (l ++ m) = (p.behind l).behind m := by
  induction l generalizing p with
  | nil => rfl
  | cons i l ih => exact ih _

/-- The slot behind a list is where it starts, or that of one of its nodes. -/
theorem behind_mem (p : Slot ι) (l : List ι) : p.behind l = p ∨ ∃ i ∈ l, p.behind l = .next i := by
  induction l generalizing p with
  | nil => exact Or.inl rfl
  | cons i l ih =>
    rcases ih (.next i) with h | ⟨j, hj, h⟩
    · exact Or.inr ⟨i, List.mem_cons_self .., h⟩
    · exact Or.inr ⟨j, List.mem_cons_of_mem _ hj, h⟩

theorem behind_ne (hp : p ≠ .next i) (hi : i ∉ l) : p.behind l ≠ .next i := by
  rcases behind_mem p l with h | ⟨j, hj, h⟩
  · rwa [h]
  · rw [h]
    rintro ⟨⟩
    exact hi hj

/-! ## Chains -/

section Chains

variable (fwd : Slot ι → Option (Option ι)) (bwd : ι → Option (Option (Slot ι)))

/-- From the slot `p` on the slots hold the nodes of `l`, and each node points back. -/
def Linking : Slot ι → List ι → Prop
  | _, [] => True
  | p, i :: l => fwd p = some (some i) ∧ bwd i = some (some p) ∧ Linking (.next i) l

/-- The list ends there: the slot `q` behind it holds a null pointer. -/
def Chain (p : Slot ι) (l : List ι) (q : Slot ι) : Prop :=
  Linking fwd bwd p l ∧ p.behind l = q ∧ fwd q = some none

variable {fwd bwd} {fwd' : Slot ι → Option (Option ι)} {bwd' : ι → Option (Option (Slot ι))}
  {q : Slot ι} {m : List ι} {j : ι}

@[simp] theorem linking_nil : Linking fwd bwd p [] := trivial

theorem linking_cons : Linking fwd bwd p (i :: l) ↔
    fwd p = some (some i) ∧ bwd i = some (some p) ∧ Linking fwd bwd (.next i) l := Iff.rfl

/-- Both halves of a list, and the slot between them. -/
theorem linking_append : Linking fwd bwd p (l ++ m) ↔
    Linking fwd bwd p l ∧ Linking fwd bwd (p.behind l) m := by
  induction l generalizing p with
  | nil => simp
  | cons i l ih =>
    rw [List.cons_append, linking_cons, linking_cons, ih, behind_cons]
    tauto

/-- Only the slots in front of the nodes matter, and the nodes' pointers back. -/
theorem Linking.congr (h : Linking fwd bwd p l) (hp : l ≠ [] → fwd' p = fwd p)
    (hf : ∀ i ∈ l.dropLast, fwd' (.next i) = fwd (.next i)) (hb : ∀ i ∈ l, bwd' i = bwd i) :
    Linking fwd' bwd' p l := by
  induction l generalizing p with
  | nil => trivial
  | cons i l ih =>
    obtain ⟨h1, h2, h3⟩ := h
    refine ⟨(hp (by simp)).trans h1, (hb i (by simp)).trans h2, ih h3 (fun hne ↦ ?_)
      (fun j hj ↦ hf j ?_) fun j hj ↦ hb j (by simp [hj])⟩
    · exact hf i (by rw [List.dropLast_cons_of_ne_nil hne]; simp)
    · have hne : l ≠ [] := by
        rintro rfl
        simp at hj
      rw [List.dropLast_cons_of_ne_nil hne]
      exact List.mem_cons_of_mem _ hj

/-- The list stays when the slot behind it is overwritten. -/
theorem Linking.congr_behind (h : Linking fwd bwd p l) (hn : l.Nodup) (hp : ∀ i ∈ l, p ≠ .next i)
    (hf : ∀ r, r = p ∨ (∃ i ∈ l, r = .next i) → r ≠ p.behind l → fwd' r = fwd r)
    (hb : ∀ i ∈ l, bwd' i = bwd i) : Linking fwd' bwd' p l := by
  rcases List.eq_nil_or_concat l with rfl | ⟨l, j, rfl⟩
  · trivial
  rw [List.concat_eq_append] at *
  have hbehind : p.behind (l ++ [j]) = .next j := by simp
  have hj : j ∉ l := fun hj ↦ (List.nodup_append.1 hn).2.2 j hj j (by simp) rfl
  refine h.congr (fun _ ↦ hf p (Or.inl rfl) ?_) (fun i hi ↦ ?_) hb
  · rw [hbehind]
    exact hp j (by simp)
  · rw [List.dropLast_concat] at hi
    refine hf _ (Or.inr ⟨i, by simp [hi], rfl⟩) ?_
    rw [hbehind]
    rintro ⟨⟩
    exact hj hi

namespace Chain

theorem nil_iff : Chain fwd bwd p [] q ↔ q = p ∧ fwd q = some none := by
  simp [Chain, eq_comm]

/-- The next node of a node of the list. -/
theorem next_eq (h : Chain fwd bwd p (l ++ i :: m) q) : fwd (.next i) = some m.head? := by
  obtain ⟨hl, hq, hend⟩ := h
  have hm := (linking_append.1 hl).2.2.2
  cases m with
  | nil =>
    rw [behind_append] at hq
    rw [show Slot.next i = q from hq, hend, List.head?_nil]
  | cons j m => exact hm.1

/-- The pointer to the first node. -/
theorem first_eq (h : Chain fwd bwd p l q) : fwd p = some l.head? := by
  cases l with
  | nil => obtain ⟨rfl, hend⟩ := nil_iff.1 h; exact hend
  | cons i l => exact h.1.1

/-- Every node of the list is in memory. -/
theorem mem (h : Chain fwd bwd p l q) (hi : i ∈ l) :
    (∃ n, fwd (.next i) = some n) ∧ ∃ r, bwd i = some (some r) := by
  obtain ⟨a, b, rfl⟩ := List.append_of_mem hi
  exact ⟨⟨_, h.next_eq⟩, _, (linking_append.1 h.1).2.2.1⟩

/-- **A node is added at the end**: the slot behind the list gets it, its own slot is the new one
behind the list, and nothing else changes. -/
theorem concat (h : Chain fwd bwd p l q) (hn : l.Nodup) (hp : ∀ i ∈ l, p ≠ .next i) (hj : j ∉ l)
    (hpj : p ≠ .next j) (hq : fwd' q = some (some j)) (hnext : fwd' (.next j) = some none)
    (hprev : bwd' j = some (some q)) (hf : ∀ r, r ≠ q → r ≠ .next j → fwd' r = fwd r)
    (hb : ∀ i, i ≠ j → bwd' i = bwd i) : Chain fwd' bwd' p (l ++ [j]) (.next j) := by
  obtain ⟨hl, rfl, hend⟩ := h
  refine ⟨linking_append.2 ⟨?_, hq, hprev, trivial⟩, by simp, hnext⟩
  refine hl.congr_behind hn hp (fun r hr hne ↦ hf r hne ?_) fun i hi ↦ hb i ?_
  · rcases hr with rfl | ⟨i, hi, rfl⟩
    · exact hpj
    · rintro ⟨⟩
      exact hj hi
  · rintro rfl
    exact hj hi

/-- **A node is taken out**: the slot before it gets what its own slot holds, the node after it
points back to that slot, or the slot is the new one behind the list, and nothing else changes. -/
theorem unlink (h : Chain fwd bwd p (l ++ i :: m) q) (hn : (l ++ i :: m).Nodup)
    (hp : ∀ j ∈ l ++ i :: m, p ≠ .next j) (hslot : fwd' (p.behind l) = some m.head?)
    (hprev : ∀ j, m.head? = some j → bwd' j = some (some (p.behind l)))
    (hf : ∀ r, r ≠ p.behind l → r ≠ .next i → fwd' r = fwd r)
    (hb : ∀ j, j ≠ i → m.head? ≠ some j → bwd' j = bwd j) :
    Chain fwd' bwd' p (l ++ m) (if m = [] then p.behind l else q) := by
  obtain ⟨hl, rfl, hend⟩ := h
  obtain ⟨h1, -, -, h2⟩ := linking_append.1 hl
  obtain ⟨hnl, hnm, hdisj⟩ := List.nodup_append.1 hn
  obtain ⟨him, hnm⟩ := List.nodup_cons.1 hnm
  have hil : i ∉ l := fun hi ↦ hdisj i hi i (List.mem_cons_self ..) rfl
  have hlm : ∀ j ∈ l, j ∉ m := fun j hj hm ↦ hdisj j hj j (List.mem_cons_of_mem _ hm) rfl
  have hleft : Linking fwd' bwd' p l := by
    refine h1.congr_behind hnl (fun j hj ↦ hp j (by simp [hj])) (fun r hr hne ↦ hf r hne ?_)
      fun j hj ↦ hb j ?_ ?_
    · rcases hr with rfl | ⟨j, hj, rfl⟩
      · exact hp i (by simp)
      · rintro ⟨⟩
        exact hil hj
    · rintro rfl
      exact hil hj
    · exact fun hm ↦ hlm j hj (List.mem_of_head? hm)
  cases m with
  | nil => exact ⟨linking_append.2 ⟨hleft, trivial⟩, by simp, hslot⟩
  | cons j m =>
    obtain ⟨-, -, h3⟩ := h2
    -- the slots behind the node that goes are none of those that change
    have hne : ∀ k ∈ j :: m, Slot.next k ≠ p.behind l ∧ Slot.next k ≠ .next i := by
      intro k hk
      refine ⟨(behind_ne (hp k (by simp [List.mem_cons.1 hk])) fun hkl ↦ hlm k hkl hk).symm, ?_⟩
      rintro ⟨⟩
      exact him hk
    have hright : Linking fwd' bwd' (.next j) m := by
      refine h3.congr (fun _ ↦ hf _ (hne j (by simp)).1 (hne j (by simp)).2) (fun k hk ↦ ?_)
        fun k hk ↦ hb k ?_ ?_
      · have hk := List.mem_cons_of_mem j (List.dropLast_subset m hk)
        exact hf _ (hne k hk).1 (hne k hk).2
      · rintro rfl
        exact him (List.mem_cons_of_mem _ hk)
      · rintro ⟨⟩
        exact (List.nodup_cons.1 hnm).1 hk
    refine ⟨linking_append.2 ⟨hleft, hslot, hprev j rfl, hright⟩, by simp, ?_⟩
    rw [if_neg (by simp), behind_append, behind_cons, behind_cons]
    have hlast : (Slot.next j).behind m ≠ p.behind l ∧ (Slot.next j).behind m ≠ .next i := by
      rcases behind_mem (.next j) m with heq | ⟨k, hk, heq⟩
      · rw [heq]
        exact hne j (by simp)
      · rw [heq]
        exact hne k (List.mem_cons_of_mem _ hk)
    rw [hf _ hlast.1 hlast.2]
    simpa using hend

end Chain

end Chains

end Slot
