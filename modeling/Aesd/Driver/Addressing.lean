import Mathlib.Data.List.Nodup
import Aesd.Driver.CircularBuffer

/-!
# Positions in the ring

`aesd_circular_buffer_find_entry_offset_for_fpos` finds the entry a byte is in, and
`aesd_circular_buffer_offset_at` finds the byte again.  `AesdCircularBuffer.addressing` says that on
a well-formed ring the two are inverse to each other, between the positions below
`aesd_circular_buffer_bytes_size` and the places in live entries.

Both give their result through a pointer.  The embedding in `Aesd.Driver.CircularBuffer` returns it
when there is one; here the functions are written once more with what the pointer points to, so that
it can be said that a failing call leaves it alone.
-/

set_option autoImplicit false

namespace Aesd

namespace AesdCircularBuffer

section Cells

variable [Platform]

/-- The loop of `aesd_circular_buffer_find_entry_offset_for_fpos`, with `*entry_offset_byte_rtn`. -/
def findLoopAt (buf : AesdCircularBuffer) (charOffset entryOffsetByteRtn : ℕ) :
    ℕ → ℕ → ℕ → Except Bug (Option ℕ × ℕ)
  | 0, _, _ => .ok (none, entryOffsetByteRtn)
  | size + 1, offset, index => do
    let e ← buf.slot index
    if charOffset < SizeT.add offset e.size then .ok (some index, charOffset - offset)
    else
      findLoopAt buf charOffset entryOffsetByteRtn size (SizeT.add offset e.size) (advance index)

/-- `aesd_circular_buffer_find_entry_offset_for_fpos`: the slot, or `NULL`, and
`*entry_offset_byte_rtn` afterwards. -/
def findEntryOffsetForFposAt (buf : AesdCircularBuffer) (charOffset entryOffsetByteRtn : ℕ) :
    Except Bug (Option ℕ × ℕ) := do
  buf.assertIndices
  buf.findLoopAt charOffset entryOffsetByteRtn buf.size 0 buf.outOffs

/-- `aesd_circular_buffer_offset_at`: its result, and `*offset_rtn` afterwards. -/
def offsetAtAt (buf : AesdCircularBuffer) (entryIndex entryOffset offsetRtn : ℕ) :
    Except Bug (Bool × ℕ) := do
  if entryIndex ≥ buf.size then .ok (false, offsetRtn)
  else
    let (globalOffset, outOffs) ← buf.offsetLoop entryIndex 0 buf.outOffs
    let e ← buf.slot outOffs
    if entryOffset ≥ e.size then .ok (false, offsetRtn)
    else .ok (true, SizeT.add globalOffset entryOffset)

variable {buf : AesdCircularBuffer}

theorem findLoopAt_eq (charOffset cell n : ℕ) : ∀ offset i,
    buf.findLoopAt charOffset cell n offset i = (buf.findLoop charOffset n offset i).map
      fun x ↦ (x.map Prod.fst, (x.map Prod.snd).getD cell) := by
  induction n with
  | zero => intro offset i; rfl
  | succ n ih =>
    intro offset i
    rw [findLoopAt, findLoop]
    cases buf.slot i with
    | error bug => rfl
    | ok e =>
      simp only [ok_bind]
      split
      · rfl
      · exact ih _ _

theorem findEntryOffsetForFposAt_eq (charOffset cell : ℕ) :
    buf.findEntryOffsetForFposAt charOffset cell = (buf.findEntryOffsetForFpos charOffset).map
      fun x ↦ (x.map Prod.fst, (x.map Prod.snd).getD cell) := by
  rw [findEntryOffsetForFposAt, findEntryOffsetForFpos]
  cases buf.assertIndices with
  | error bug => rfl
  | ok _ => exact findLoopAt_eq _ _ _ _ _

theorem offsetAtAt_eq (k o cell : ℕ) : buf.offsetAtAt k o cell = (buf.offsetAt k o).map
    fun x ↦ (x.isSome, x.getD cell) := by
  rw [offsetAtAt, offsetAt]
  split
  · rfl
  · cases buf.offsetLoop k 0 buf.outOffs with
    | error bug => rfl
    | ok x =>
      simp only [ok_bind]
      cases buf.slot x.2 with
      | error bug => rfl
      | ok e =>
        simp only [ok_bind]
        split <;> rfl

end Cells

variable {buf : AesdCircularBuffer} {off k r : ℕ}

/-- Different live entries are in different slots. -/
theorem WF.index_inj (h : buf.WF) {k' : ℕ} (hk : k < buf.size) (hk' : k' < buf.size)
    (heq : buf.index k = buf.index k') : k = k' := by
  have hle := h.size_le
  rw [index, index] at heq
  unfold MAX_WRITE_OPERATIONS at *
  omega

/-- A place in a live entry. -/
def Place (buf : AesdCircularBuffer) (k r : ℕ) : Prop :=
  ∃ hk : k < buf.entries.length, r < buf.entries[k].size

instance (buf : AesdCircularBuffer) (k r : ℕ) : Decidable (buf.Place k r) :=
  inferInstanceAs (Decidable (∃ _, _))

theorem place_iff : buf.Place k r ↔ ∃ hk : k < buf.sizes.length, r < buf.sizes[k] := by
  simp [Place, sizes]

/-- Where a position falls, and where it is found again. -/
theorem locate_iff :
    Concat.locate buf.sizes off = some (k, r) ↔
      buf.Place k r ∧ off = Concat.before buf.sizes k + r := by
  rw [Concat.locate_eq_some, place_iff]
  constructor
  · rintro ⟨hk, hr, hoff⟩
    exact ⟨⟨hk, hr⟩, hoff⟩
  · rintro ⟨⟨hk, hr⟩, hoff⟩
    exact ⟨hk, hr, hoff⟩

/-- Byte `off` of the concatenation is byte `r` of piece `k`. -/
theorem getElem?_flatten_of_locate {pieces : List (List Byte)}
    (hpieces : pieces.map List.length = buf.sizes)
    (h : Concat.locate buf.sizes off = some (k, r)) :
    pieces.flatten[off]? = pieces[k]?.bind (·[r]?) := by
  rw [← hpieces] at h
  obtain ⟨hk, hr, rfl⟩ := Concat.locate_eq_some.1 h
  rw [List.length_map] at hk
  rw [List.getElem_map] at hr
  have hdrop := Concat.drop_flatten hk hr.le
  rw [List.getElem?_eq_getElem hk, Option.bind_some, ← Nat.add_zero (Concat.before _ k + r),
    ← List.getElem?_drop, hdrop, List.getElem?_append_left (by rw [List.length_drop]; omega),
    List.getElem?_drop, Nat.add_zero]

section Agreement

variable [Platform]

theorem WF.offsetAtAt_place (h : buf.WF) (hs : buf.sizes.sum < SizeT.bound) (hp : buf.Place k r)
    (cell : ℕ) : buf.offsetAtAt k r cell = .ok (true, Concat.before buf.sizes k + r) := by
  obtain ⟨hk, hr⟩ := place_iff.1 hp
  rw [offsetAtAt_eq, h.offsetAt_eq hs, List.getElem?_eq_getElem hk, Option.bind_some, if_pos hr]
  rfl

theorem WF.offsetAtAt_not_place (h : buf.WF) (hs : buf.sizes.sum < SizeT.bound)
    (hp : ¬ buf.Place k r) (cell : ℕ) : buf.offsetAtAt k r cell = .ok (false, cell) := by
  rw [place_iff] at hp
  rw [offsetAtAt_eq, h.offsetAt_eq hs]
  by_cases hk : k < buf.sizes.length
  · rw [List.getElem?_eq_getElem hk, Option.bind_some, if_neg fun hr ↦ hp ⟨hk, hr⟩]
    rfl
  · rw [List.getElem?_eq_none (by omega)]
    rfl

theorem WF.findAt_locate (h : buf.WF) (hs : buf.sizes.sum < SizeT.bound)
    (hl : Concat.locate buf.sizes off = some (k, r)) (cell : ℕ) :
    buf.findEntryOffsetForFposAt off cell = .ok (some (buf.index k), r) := by
  rw [findEntryOffsetForFposAt_eq, h.findEntryOffsetForFpos_eq hs, hl]
  rfl

/-- **The three addressing functions agree.**  With `n` bytes in a well-formed ring,

* a position is found if and only if it is below `n`, and then it is the place in a live entry that
  `offset_at` gives the position for; there the concatenation of the entries has the same byte;
* `offset_at` succeeds exactly for the places in live entries, and the position it gives is found to
  be that place.

Live entries have different slots, so the slot says which entry it is.  A call that fails writes
nothing. -/
theorem addressing (h : buf.WF) (hs : buf.sizes.sum < SizeT.bound) :
    ∃ n, buf.bytesSize = .ok n ∧
      (∀ off cell, if off < n then ∃ k r, buf.Place k r ∧
          buf.findEntryOffsetForFposAt off cell = .ok (some (buf.index k), r) ∧
          buf.slot (buf.index k) = .ok (Ring.slot buf.entry (buf.outOffs + k)) ∧
          (∀ pieces : List (List Byte), pieces.map List.length = buf.sizes →
            pieces.flatten[off]? = pieces[k]?.bind (·[r]?)) ∧
          ∀ cell', buf.offsetAtAt k r cell' = .ok (true, off)
        else buf.findEntryOffsetForFposAt off cell = .ok (none, cell)) ∧
      (∀ k o cell, if buf.Place k o then ∃ off < n, buf.offsetAtAt k o cell = .ok (true, off) ∧
          ∀ cell', buf.findEntryOffsetForFposAt off cell' = .ok (some (buf.index k), o)
        else buf.offsetAtAt k o cell = .ok (false, cell)) ∧
      ∀ k < buf.size, ∀ k' < buf.size, buf.index k = buf.index k' → k = k' := by
  refine ⟨_, h.bytesSize_eq hs, fun off cell ↦ ?_, fun k o cell ↦ ?_,
    fun k hk k' hk' heq ↦ h.index_inj hk hk' heq⟩
  · split
    · rename_i hoff
      obtain ⟨⟨k, r⟩, hl⟩ := Concat.exists_locate hoff
      obtain ⟨hp, heq⟩ := locate_iff.1 hl
      exact ⟨k, r, hp, h.findAt_locate hs hl cell, slot_index buf k,
        fun pieces hpieces ↦ getElem?_flatten_of_locate hpieces hl,
        fun cell' ↦ heq ▸ h.offsetAtAt_place hs hp cell'⟩
    · rename_i hoff
      rw [findEntryOffsetForFposAt_eq, h.findEntryOffsetForFpos_eq hs,
        Concat.locate_eq_none.2 (by omega)]
      rfl
  · split
    · rename_i hp
      have hl := locate_iff.2 ⟨hp, rfl⟩
      refine ⟨_, ?_, h.offsetAtAt_place hs hp cell, fun cell' ↦ h.findAt_locate hs hl cell'⟩
      by_contra hge
      rw [Concat.locate_eq_none.2 (by omega)] at hl
      cases hl
    · rename_i hp
      exact h.offsetAtAt_not_place hs hp cell

end Agreement

/-- A window that wraps, with an empty entry in it. -/
def wrapped : AesdCircularBuffer where
  entry := #v[⟨some 2, 0⟩, ⟨some 3, 2⟩, .null, .null, .null, .null, .null, .null, ⟨some 0, 3⟩,
    ⟨some 1, 1⟩]
  inOffs := 2
  outOffs := 8
  full := false

attribute [local instance] linux64 in
theorem addressing_wrapped : ∃ n, wrapped.bytesSize = .ok n ∧
    wrapped.findEntryOffsetForFposAt n 7 = .ok (none, 7) ∧
    wrapped.offsetAtAt 2 0 7 = .ok (false, 7) ∧
    ∃ off < n, wrapped.offsetAtAt 3 1 7 = .ok (true, off) := by
  have hwf : wrapped.WF := ⟨by decide, by decide, by decide⟩
  obtain ⟨n, hn, hfind, hoffset, -⟩ := addressing hwf (by decide)
  refine ⟨n, hn, ?_, ?_, ?_⟩
  · simpa using hfind n 7
  · have h := hoffset 2 0 7
    rwa [if_neg (by decide)] at h
  · have h := hoffset 3 1 7
    rw [if_pos (by decide)] at h
    obtain ⟨off, hlt, heq, -⟩ := h
    exact ⟨off, hlt, heq⟩

end AesdCircularBuffer

end Aesd
