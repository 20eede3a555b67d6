import Mathlib.Data.List.Perm.Basic
import Aesd.Lib.Heap

/-!
# Owners in a table

Often the owners of a heap's blocks are the entries of a table: a function `f` says which block an
entry owns, if it owns one, and `l.filterMap f` are the blocks owned by the table `l`.  The lemmas
say how that list changes when one entry changes or one is added, in the form in which
`Heap.Owns` is kept.
-/

set_option autoImplicit false

namespace Owners

variable {α β : Type*} (f : β → Option ℕ) {l : List β} {i p : ℕ} {b b' : β} {h : Heap α} {a : α}

/-- The blocks owned by the other entries. -/
def others (l : List β) (i : ℕ) : List ℕ := (l.take i ++ l.drop (i + 1)).filterMap f

variable {f}

theorem filterMap_perm (hb : l[i]? = some b) :
    (l.filterMap f).Perm ((f b).toList ++ others f l i) := by
  obtain ⟨hi, rfl⟩ := List.getElem?_eq_some_iff.1 hb
  have hl : l.Perm (l[i] :: (l.take i ++ l.drop (i + 1))) := by
    conv_lhs => rw [← List.take_append_drop i l, List.drop_eq_getElem_cons hi]
    exact List.perm_middle
  refine (hl.filterMap f).trans ?_
  rw [others]
  cases hf : f l[i] <;> simp [hf]

theorem filterMap_set_perm (hb : l[i]? = some b) (b' : β) :
    ((l.set i b').filterMap f).Perm ((f b').toList ++ others f l i) := by
  obtain ⟨hi, -⟩ := List.getElem?_eq_some_iff.1 hb
  have hset : (l.set i b')[i]? = some b' := List.getElem?_set_self hi
  have hothers : others f (l.set i b') i = others f l i := by
    rw [others, others, List.take_set_of_le (Nat.le_refl i),
      List.drop_set_of_lt (Nat.lt_succ_self i)]
  exact hothers ▸ filterMap_perm hset

/-- An entry for which a function has the value it had. -/
theorem map_set {γ : Type*} {g : β → γ} (hb : l[i]? = some b) (hg : g b' = g b) :
    (l.set i b').map g = l.map g := by
  obtain ⟨hi, rfl⟩ := List.getElem?_eq_some_iff.1 hb
  rw [List.map_set, hg, ← List.map_set, List.set_getElem_self]

/-- An entry that owns what it owned. -/
theorem filterMap_set (hb : l[i]? = some b) (hf : f b' = f b) :
    (l.set i b').filterMap f = l.filterMap f := by
  have heq : ∀ m : List β, m.filterMap f = (m.map f).filterMap id := by
    intro m
    rw [List.filterMap_map]
    rfl
  rw [heq, map_set hb hf, ← heq]

/-- No two entries own the same block. -/
theorem eq_of_filterMap_nodup {j : ℕ} (hn : (l.filterMap f).Nodup) (hi : l[i]? = some b)
    (hj : l[j]? = some b') (hf : f b = some p) (hf' : f b' = some p) : i = j := by
  induction l generalizing i j with
  | nil => cases hi
  | cons x l ih =>
    cases i with
    | zero =>
      cases j with
      | zero => rfl
      | succ j =>
        obtain rfl : x = b := Option.some_inj.1 hi
        rw [List.filterMap_cons_some hf, List.nodup_cons] at hn
        exact absurd (List.mem_filterMap.2 ⟨b', List.mem_of_getElem? (l := l) hj, hf'⟩) hn.1
    | succ i =>
      have htail : (l.filterMap f).Nodup := by
        cases hx : f x with
        | none => rwa [List.filterMap_cons_none hx] at hn
        | some q =>
          rw [List.filterMap_cons_some hx, List.nodup_cons] at hn
          exact hn.2
      cases j with
      | zero =>
        obtain rfl : x = b' := Option.some_inj.1 hj
        rw [List.filterMap_cons_some hf', List.nodup_cons] at hn
        exact absurd (List.mem_filterMap.2 ⟨b, List.mem_of_getElem? (l := l) hi, hf⟩) hn.1
      | succ j => rw [ih htail hi hj]

/-- An entry that frees its block. -/
theorem owns_set_free (ho : h.Owns (l.filterMap f)) (hb : l[i]? = some b) (hf : f b = some p)
    (hf' : f b' = none) : (h.free p).Owns ((l.set i b').filterMap f) := by
  have h1 := ho.perm (filterMap_perm hb)
  rw [hf] at h1
  refine h1.free.perm ?_
  have h2 := filterMap_set_perm (f := f) hb b'
  rw [hf'] at h2
  exact h2.symm

/-- A new entry that owns nothing. -/
theorem owns_append_none (ho : h.Owns (l.filterMap f)) (hf : f b = none) :
    h.Owns ((l ++ [b]).filterMap f) := by
  rw [List.filterMap_append, List.filterMap_cons_none hf, List.filterMap_nil, List.append_nil]
  exact ho

/-- A new entry with a new block. -/
theorem owns_append_alloc (ho : h.Owns (l.filterMap f)) (a : α) (hf : f b = some h.next) :
    (h.alloc a).Owns ((l ++ [b]).filterMap f) := by
  refine (ho.alloc a).perm ?_
  rw [List.filterMap_append, List.filterMap_cons_some hf, List.filterMap_nil]
  exact (List.perm_append_singleton _ _).symm

/-- A block that is allocated and freed again. -/
theorem owns_alloc_free {m : List ℕ} (ho : h.Owns m) (a : α) : ((h.alloc a).free h.next).Owns m :=
  (ho.alloc a).free

end Owners
