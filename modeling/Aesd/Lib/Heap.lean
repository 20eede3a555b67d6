import Mathlib.Data.List.Basic
import Mathlib.Data.List.Nodup
import Mathlib.Data.List.Perm.Basic

/-!
# A heap with fresh identities

A model of `malloc`/`free` for ownership arguments.  Every allocation gets an identity that was
never used before, and every `free` is written down in `freed`, in the order of the calls and
whether or not the block was still allocated.  So a double free does not go unnoticed: it is an
identity that occurs twice in `freed`.

The contents of a block survive its `free` in `cells`, but `Heap.get?` no longer shows them; a use
after free is a `get?` that answers `none`.

`Heap.Sound` says that what was freed was allocated, and only once.  `Heap.Owns h l` adds that the
blocks still allocated are exactly those of the list `l`, each listed once; the `owns_*` lemmas say
how the owners' list changes with each call, which is all that a client of this file needs.
-/

set_option autoImplicit false

/-- Blocks of contents `α`, named by the order in which they were allocated. -/
structure Heap (α : Type*) where
  /-- The contents of every block ever allocated. -/
  cells : List α
  /-- The identities given to `free`, in order. -/
  freed : List ℕ
deriving DecidableEq, Repr

namespace Heap

variable {α : Type*} {h : Heap α} {l m : List ℕ} {p q : ℕ} {a : α}

/-- The heap nothing was allocated from yet. -/
def empty : Heap α := ⟨[], []⟩

/-- The identity the next allocation gets. -/
def next (h : Heap α) : ℕ := h.cells.length

/-- A new block with contents `a`. -/
def alloc (h : Heap α) (a : α) : Heap α := { h with cells := h.cells ++ [a] }

/-- Give the block `p` back. -/
def free (h : Heap α) (p : ℕ) : Heap α := { h with freed := h.freed ++ [p] }

/-- The contents of the block `p`, while it is allocated. -/
def get? (h : Heap α) (p : ℕ) : Option α := if p ∈ h.freed then none else h.cells[p]?

/-- Overwrite the block `p`. -/
def set (h : Heap α) (p : ℕ) (a : α) : Heap α := { h with cells := h.cells.set p a }

/-- The block `p` is allocated and not yet freed. -/
def Live (h : Heap α) (p : ℕ) : Prop := p < h.next ∧ p ∉ h.freed

instance (h : Heap α) (p : ℕ) : Decidable (h.Live p) := inferInstanceAs (Decidable (_ ∧ _))

theorem live_iff : h.Live p ↔ ∃ a, h.get? p = some a := by
  rw [Live, next, get?]
  by_cases hp : p ∈ h.freed
  · simp [hp]
  · simp [hp, List.getElem?_eq_some_iff]

theorem live_of_get? (hp : h.get? p = some a) : h.Live p := live_iff.2 ⟨a, hp⟩

theorem getElem?_of_get? (hp : h.get? p = some a) : h.cells[p]? = some a := by
  rw [get?] at hp
  split at hp
  · cases hp
  · exact hp

/-! ## What each call does to the blocks -/

@[simp] theorem next_empty : (empty : Heap α).next = 0 := rfl

@[simp] theorem next_alloc : (h.alloc a).next = h.next + 1 := by simp [next, alloc]

@[simp] theorem next_free : (h.free p).next = h.next := rfl

@[simp] theorem next_set : (h.set p a).next = h.next := by simp [next, set]

@[simp] theorem freed_alloc : (h.alloc a).freed = h.freed := rfl

@[simp] theorem freed_set : (h.set p a).freed = h.freed := rfl

@[simp] theorem freed_free : (h.free p).freed = h.freed ++ [p] := rfl

theorem get?_alloc_of_live (hp : h.Live p) : (h.alloc a).get? p = h.get? p := by
  rw [get?, get?, alloc, List.getElem?_append_left hp.1]

theorem get?_alloc_next (hn : h.next ∉ h.freed) : (h.alloc a).get? h.next = some a := by
  rw [get?, freed_alloc, if_neg hn]
  simp [alloc, next]

theorem get?_free_of_ne (hpq : p ≠ q) : (h.free q).get? p = h.get? p := by
  simp [get?, free, hpq]

@[simp] theorem get?_free_self : (h.free p).get? p = none := by simp [get?, free]

theorem get?_set_of_ne (hpq : p ≠ q) : (h.set q a).get? p = h.get? p := by
  rw [get?, get?, freed_set, set, List.getElem?_set_ne hpq.symm]

theorem get?_set_self (hp : h.Live p) : (h.set p a).get? p = some a := by
  rw [get?, freed_set, if_neg hp.2, set, List.getElem?_set_self hp.1]

@[simp] theorem live_set : (h.set q a).Live p ↔ h.Live p := by simp [Live]

theorem live_alloc (hn : h.next ∉ h.freed) :
    (h.alloc a).Live p ↔ p = h.next ∨ h.Live p := by
  rw [Live, next_alloc, freed_alloc, Live]
  constructor
  · rintro ⟨hp, hf⟩
    rcases Nat.lt_succ_iff_lt_or_eq.1 hp with hp | rfl
    · exact Or.inr ⟨hp, hf⟩
    · exact Or.inl rfl
  · rintro (rfl | ⟨hp, hf⟩)
    · exact ⟨Nat.lt_succ_self _, hn⟩
    · exact ⟨Nat.lt_succ_of_lt hp, hf⟩

theorem live_free : (h.free q).Live p ↔ p ≠ q ∧ h.Live p := by
  simp only [Live, next_free, freed_free, List.mem_append, List.mem_singleton]
  tauto

/-! ## Nothing freed twice -/

/-- What was freed had been allocated, and nothing was freed twice. -/
structure Sound (h : Heap α) : Prop where
  /-- Only allocated identities were freed. -/
  lt : ∀ p ∈ h.freed, p < h.next
  /-- No identity was freed twice. -/
  nodup : h.freed.Nodup

theorem Sound.next_notMem (hs : h.Sound) : h.next ∉ h.freed := fun hn ↦ Nat.lt_irrefl _ (hs.lt _ hn)

theorem sound_empty : (empty : Heap α).Sound := ⟨by simp [empty], List.nodup_nil⟩

theorem Sound.alloc (hs : h.Sound) (a : α) : (h.alloc a).Sound :=
  ⟨fun p hp ↦ Nat.lt_trans (hs.lt p hp) (by simp), hs.nodup⟩

theorem Sound.set (hs : h.Sound) (p : ℕ) (a : α) : (h.set p a).Sound :=
  ⟨fun q hq ↦ by simpa using hs.lt q hq, hs.nodup⟩

theorem Sound.free (hs : h.Sound) (hp : h.Live p) : (h.free p).Sound := by
  refine ⟨fun q hq ↦ ?_, ?_⟩
  · rw [freed_free, List.mem_append, List.mem_singleton] at hq
    rcases hq with hq | rfl
    · exact hs.lt q hq
    · exact hp.1
  · rw [freed_free, List.nodup_append]
    refine ⟨hs.nodup, List.nodup_singleton p, ?_⟩
    rintro q hq r hr rfl
    rw [List.mem_singleton] at hr
    exact hp.2 (hr ▸ hq)

/-! ## Ownership -/

/-- The blocks still allocated are exactly those of `l`, each owned once. -/
structure Owns (h : Heap α) (l : List ℕ) : Prop where
  /-- No double free. -/
  sound : h.Sound
  /-- No block has two owners. -/
  nodup : l.Nodup
  /-- Every allocated block has an owner, and only those have. -/
  live : ∀ p, p ∈ l ↔ h.Live p

theorem owns_empty : (empty : Heap α).Owns [] :=
  ⟨sound_empty, List.nodup_nil, fun p ↦ by simp [Live]⟩

theorem Owns.perm (ho : h.Owns l) (hp : l.Perm m) : h.Owns m :=
  ⟨ho.sound, hp.nodup_iff.1 ho.nodup, fun p ↦ by rw [← hp.mem_iff, ho.live]⟩

theorem Owns.set (ho : h.Owns l) (p : ℕ) (a : α) : (h.set p a).Owns l :=
  ⟨ho.sound.set p a, ho.nodup, fun q ↦ by rw [ho.live, live_set]⟩

theorem Owns.next_notMem (ho : h.Owns l) : h.next ∉ l :=
  fun hn ↦ Nat.lt_irrefl _ ((ho.live _).1 hn).1

theorem Owns.alloc (ho : h.Owns l) (a : α) : (h.alloc a).Owns (h.next :: l) := by
  refine ⟨ho.sound.alloc a, List.nodup_cons.2 ⟨ho.next_notMem, ho.nodup⟩, fun p ↦ ?_⟩
  rw [List.mem_cons, live_alloc ho.sound.next_notMem, ho.live]

theorem Owns.free (ho : h.Owns (p :: l)) : (h.free p).Owns l := by
  have hnd := List.nodup_cons.1 ho.nodup
  refine ⟨ho.sound.free ((ho.live p).1 (List.mem_cons_self ..)), hnd.2, fun q ↦ ?_⟩
  rw [live_free, ← ho.live, List.mem_cons]
  constructor
  · intro hq
    exact ⟨fun hqp ↦ hnd.1 (hqp ▸ hq), Or.inr hq⟩
  · rintro ⟨hne, rfl | hq⟩
    · exact absurd rfl hne
    · exact hq

/-- The identities allocated so far are the owned ones and the freed ones. -/
theorem Owns.mem_or_freed (ho : h.Owns l) (hp : p < h.next) : p ∈ l ∨ p ∈ h.freed := by
  by_cases hf : p ∈ h.freed
  · exact Or.inr hf
  · exact Or.inl ((ho.live p).2 ⟨hp, hf⟩)

/-- **Once nobody owns a block any more, every block was freed exactly once.** -/
theorem Owns.count_freed (ho : h.Owns []) (hp : p < h.next) : h.freed.count p = 1 :=
  List.count_eq_one_of_mem ho.sound.nodup ((ho.mem_or_freed hp).resolve_left List.not_mem_nil)

/-! ## The blocks in memory, in the order of their allocation -/

/-- The allocated blocks. -/
def liveList (h : Heap α) : List ℕ := (List.range h.next).filter fun p ↦ h.Live p

theorem mem_liveList : p ∈ h.liveList ↔ h.Live p := by
  simp only [liveList, List.mem_filter, List.mem_range, decide_eq_true_eq]
  exact and_iff_right_of_imp And.left

theorem nodup_liveList (h : Heap α) : h.liveList.Nodup := List.nodup_range.filter _

theorem sorted_liveList (h : Heap α) : h.liveList.Pairwise (· < ·) :=
  List.pairwise_lt_range.filter _

/-- The order is that of the allocations, whatever is allocated. -/
theorem liveList_congr {g : Heap α} (hn : g.next = h.next) (hl : ∀ p, g.Live p ↔ h.Live p) :
    g.liveList = h.liveList := by
  simp only [liveList, hn, hl]

theorem liveList_set : (h.set p a).liveList = h.liveList :=
  liveList_congr next_set fun _ ↦ live_set

theorem liveList_alloc (hn : h.next ∉ h.freed) : (h.alloc a).liveList = h.liveList ++ [h.next] := by
  have hold : ∀ p ∈ List.range h.next, decide ((h.alloc a).Live p) = decide (h.Live p) := by
    intro p hp
    have hne : p ≠ h.next := Nat.ne_of_lt (List.mem_range.1 hp)
    simp [live_alloc hn, hne]
  rw [liveList, next_alloc, List.range_succ, List.filter_append, List.filter_congr hold, liveList]
  simp [live_alloc hn]

theorem liveList_free (p : ℕ) : (h.free p).liveList = h.liveList.erase p := by
  rw [h.nodup_liveList.erase_eq_filter, liveList, liveList, List.filter_filter, next_free]
  refine List.filter_congr fun q _ ↦ ?_
  by_cases hq : q = p <;> simp [live_free, hq]

theorem liveList_alloc_free (hn : h.next ∉ h.freed) :
    ((h.alloc a).free h.next).liveList = h.liveList := by
  have hnew : h.next ∉ h.liveList := fun hm ↦ Nat.lt_irrefl _ (mem_liveList.1 hm).1
  rw [liveList_free, liveList_alloc hn, List.erase_append_right _ hnew, List.erase_cons_head,
    List.append_nil]

end Heap
