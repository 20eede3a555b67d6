import Mathlib.Tactic.SplitIfs
import Aesd.Lib.Concat
import Aesd.Lib.Ring
import Aesd.Driver.Kernel

/-!
# The circular buffer of commands

`aesd-circular-buffer.c`: a ring of ten entries, the newest of which replaces the oldest once the
ring is full.  The first part embeds its functions; the callers hand them the address of the
device's own buffer, so the `NULL` buffer they also test for does not occur here.

The second part gives them their meaning.  `AesdCircularBuffer.entries` is the list of the live
entries, oldest first, and on a well-formed ring (`AesdCircularBuffer.WF`, what the source asserts)

* `addEntry_eq` appends to that list, and drops its head when it was full;
* `findEntryOffsetForFpos_eq` locates a position in the concatenation of the entries;
* `bytesSize_eq` and `offsetAt_eq` add up the sizes of all entries, or of those before one.

The three walks of the source are loops over the ring's indices.  Each is first shown to be a
recursion over the list that `Ring.walk` reads off the ring.
-/

set_option autoImplicit false

namespace Aesd

/-- `AESDCHAR_MAX_WRITE_OPERATIONS_SUPPORTED`. -/
abbrev MAX_WRITE_OPERATIONS : ℕ := 10

instance : NeZero MAX_WRITE_OPERATIONS := ⟨by decide⟩

/-- `struct aesd_buffer_entry`; `none` is the `NULL` pointer. -/
structure AesdBufferEntry where
  /-- Where the bytes of the entry are stored. -/
  buffptr : Option ℕ
  /-- How many they are. -/
  size : ℕ
deriving DecidableEq, Repr

/-- The `NULL` entry. -/
def AesdBufferEntry.null : AesdBufferEntry := ⟨none, 0⟩

/-- `struct aesd_circular_buffer`. -/
structure AesdCircularBuffer where
  /-- The slots. -/
  entry : Vector AesdBufferEntry MAX_WRITE_OPERATIONS
  /-- Where the next entry goes. -/
  inOffs : ℕ
  /-- Where the oldest entry is. -/
  outOffs : ℕ
  /-- Tells a full ring from an empty one. -/
  full : Bool
deriving DecidableEq

namespace AesdCircularBuffer

/-- `aesd_circular_buffer_init`. -/
def init : AesdCircularBuffer := ⟨Vector.replicate _ .null, 0, 0, false⟩

/-- `buffer->entry[index]`. -/
def slot (buf : AesdCircularBuffer) (index : ℕ) : Except Bug AesdBufferEntry :=
  match buf.entry[index]? with
  | some e => .ok e
  | none => .error (.outOfBounds index)

/-- The index after `index`, round the array. -/
def advance (index : ℕ) : ℕ :=
  if index + 1 = MAX_WRITE_OPERATIONS then 0 else index + 1

/-- `aesd_circular_buffer_size`. -/
def size (buf : AesdCircularBuffer) : ℕ :=
  if buf.full = false ∧ buf.inOffs ≥ buf.outOffs then buf.inOffs - buf.outOffs
  else buf.inOffs + MAX_WRITE_OPERATIONS - buf.outOffs

/-- The assertions at the start of `find_entry_offset_for_fpos` and `add_entry`. -/
def assertIndices (buf : AesdCircularBuffer) : Except Bug Unit := do
  assert (buf.inOffs < MAX_WRITE_OPERATIONS) "in_offs < MAX"
  assert (buf.outOffs < MAX_WRITE_OPERATIONS) "out_offs < MAX"
  assert (!buf.full || buf.inOffs == buf.outOffs) "!full || (in_offs == out_offs)"

/-- `aesd_circular_buffer_add_entry`: the evicted entry (or the `NULL` one) and the new ring. -/
def addEntry (buf : AesdCircularBuffer) (newEntry : AesdBufferEntry) :
    Except Bug (AesdBufferEntry × AesdCircularBuffer) := do
  buf.assertIndices
  let old ← buf.slot buf.inOffs
  let evicted := if buf.full then old else .null
  let inOffs := advance buf.inOffs
  .ok (evicted,
    { entry := buf.entry.setIfInBounds buf.inOffs newEntry
      inOffs := inOffs
      outOffs := if buf.full then inOffs else buf.outOffs
      full := if buf.full then true else inOffs == buf.outOffs })

section Walks

variable [Platform]

/-- The loop of `aesd_circular_buffer_find_entry_offset_for_fpos`. -/
def findLoop (buf : AesdCircularBuffer) (charOffset : ℕ) :
    ℕ → ℕ → ℕ → Except Bug (Option (ℕ × ℕ))
  | 0, _, _ => .ok none
  | size + 1, offset, index => do
    let e ← buf.slot index
    if charOffset < SizeT.add offset e.size then .ok (some (index, charOffset - offset))
    else findLoop buf charOffset size (SizeT.add offset e.size) (advance index)

/-- `aesd_circular_buffer_find_entry_offset_for_fpos`: the slot the position falls into and the
place in it, which is what `*entry_offset_byte_rtn` is set to; `none` is the `NULL` result, for
which nothing is written. -/
def findEntryOffsetForFpos (buf : AesdCircularBuffer) (charOffset : ℕ) :
    Except Bug (Option (ℕ × ℕ)) := do
  buf.assertIndices
  buf.findLoop charOffset buf.size 0 buf.outOffs

/-- The loop of `aesd_circular_buffer_bytes_size`. -/
def bytesLoop (buf : AesdCircularBuffer) : ℕ → ℕ → ℕ → Except Bug ℕ
  | 0, bytes, _ => .ok bytes
  | size + 1, bytes, index => do
    let e ← buf.slot index
    bytesLoop buf size (SizeT.add bytes e.size) (advance index)

/-- `aesd_circular_buffer_bytes_size`. -/
def bytesSize (buf : AesdCircularBuffer) : Except Bug ℕ := buf.bytesLoop buf.size 0 buf.outOffs

/-- The loop of `aesd_circular_buffer_offset_at`, and the index it stops at. -/
def offsetLoop (buf : AesdCircularBuffer) : ℕ → ℕ → ℕ → Except Bug (ℕ × ℕ)
  | 0, globalOffset, outOffs => .ok (globalOffset, outOffs)
  | n + 1, globalOffset, outOffs => do
    let e ← buf.slot outOffs
    offsetLoop buf n (SizeT.add globalOffset e.size) (advance outOffs)

/-- `aesd_circular_buffer_offset_at`: `some` is the result `true` and the value of `*offset_rtn`,
`none` the result `false`, for which nothing is written. -/
def offsetAt (buf : AesdCircularBuffer) (entryIndex entryOffset : ℕ) :
    Except Bug (Option ℕ) := do
  if entryIndex ≥ buf.size then .ok none
  else
    let (globalOffset, outOffs) ← buf.offsetLoop entryIndex 0 buf.outOffs
    let e ← buf.slot outOffs
    if entryOffset ≥ e.size then .ok none
    else .ok (some (SizeT.add globalOffset entryOffset))

end Walks

/-! ## Well-formed rings and their entries -/

/-- What the source asserts of a ring. -/
structure WF (buf : AesdCircularBuffer) : Prop where
  /-- The write index is a slot. -/
  in_lt : buf.inOffs < MAX_WRITE_OPERATIONS
  /-- The read index is a slot. -/
  out_lt : buf.outOffs < MAX_WRITE_OPERATIONS
  /-- The window of a full ring is the whole array. -/
  full_eq : buf.full = true → buf.inOffs = buf.outOffs

/-- The live entries, oldest first. -/
def entries (buf : AesdCircularBuffer) : List AesdBufferEntry :=
  Ring.walk buf.entry buf.outOffs buf.size

@[simp] theorem length_entries (buf : AesdCircularBuffer) : buf.entries.length = buf.size :=
  Ring.length_walk ..

theorem wf_init : init.WF := ⟨by decide, by decide, fun h ↦ rfl⟩

variable {buf : AesdCircularBuffer} {e : AesdBufferEntry} {i : ℕ}

theorem WF.size_le (h : buf.WF) : buf.size ≤ MAX_WRITE_OPERATIONS := by
  have h1 := h.in_lt
  have h2 := h.out_lt
  have h3 := h.full_eq
  rw [size]
  split
  · omega
  · cases hf : buf.full with
    | false => simp only [hf, true_and] at *; omega
    | true => have := h3 hf; omega

/-- The window ends where the next entry goes. -/
theorem WF.in_eq (h : buf.WF) : buf.inOffs = (buf.outOffs + buf.size) % MAX_WRITE_OPERATIONS := by
  have h1 := h.in_lt
  have h2 := h.out_lt
  rw [size]
  unfold MAX_WRITE_OPERATIONS at *
  split <;> omega

theorem WF.full_iff (h : buf.WF) : buf.full = true ↔ buf.size = MAX_WRITE_OPERATIONS := by
  have h1 := h.in_lt
  have h2 := h.out_lt
  have h3 := h.full_eq
  rw [size]
  cases hf : buf.full with
  | false => simp only [Bool.false_eq_true, false_iff, true_and]; split_ifs <;> omega
  | true => have := h3 hf; simp; omega

theorem advance_lt (h : i < MAX_WRITE_OPERATIONS) : advance i < MAX_WRITE_OPERATIONS := by
  rw [advance]; split <;> omega

theorem advance_eq (h : i < MAX_WRITE_OPERATIONS) :
    advance i = (i + 1) % MAX_WRITE_OPERATIONS := by
  rw [advance]
  unfold MAX_WRITE_OPERATIONS at *
  split <;> omega

theorem slot_eq (h : i < MAX_WRITE_OPERATIONS) :
    buf.slot i = .ok (Ring.slot buf.entry i) := by
  rw [slot, Vector.getElem?_eq_getElem h, Ring.slot_of_lt h]

theorem WF.assertIndices_eq (h : buf.WF) : buf.assertIndices = .ok () := by
  have h3 : (!buf.full || buf.inOffs == buf.outOffs) = true := by
    cases hf : buf.full with
    | false => rfl
    | true => simp [h.full_eq hf]
  simp only [assertIndices, h.in_lt, h.out_lt, h3, decide_true, assert_true]
  rfl

/-! ## Adding an entry -/

/-- The ring after `add_entry`. -/
def pushed (buf : AesdCircularBuffer) (e : AesdBufferEntry) : AesdCircularBuffer where
  entry := buf.entry.setIfInBounds buf.inOffs e
  inOffs := advance buf.inOffs
  outOffs := if buf.full then advance buf.inOffs else buf.outOffs
  full := if buf.full then true else advance buf.inOffs == buf.outOffs

/-- The entry `add_entry` evicts, or the `NULL` one. -/
def evicted (buf : AesdCircularBuffer) : AesdBufferEntry :=
  if buf.full then Ring.slot buf.entry buf.inOffs else .null

theorem addEntry_eq (h : buf.WF) (e : AesdBufferEntry) :
    buf.addEntry e = .ok (buf.evicted, buf.pushed e) := by
  rw [addEntry, h.assertIndices_eq, slot_eq h.in_lt]
  rfl

theorem WF.pushed (h : buf.WF) (e : AesdBufferEntry) : (buf.pushed e).WF := by
  have h1 := advance_lt h.in_lt
  refine ⟨h1, ?_, ?_⟩
  · rw [AesdCircularBuffer.pushed]
    split
    · exact h1
    · exact h.out_lt
  · simp only [AesdCircularBuffer.pushed]
    split
    · exact fun _ ↦ rfl
    · exact fun heq ↦ by simpa using heq

@[simp] theorem pushed_inOffs : (buf.pushed e).inOffs = advance buf.inOffs := rfl

theorem pushed_outOffs :
    (buf.pushed e).outOffs = if buf.full then advance buf.inOffs else buf.outOffs := rfl

theorem pushed_full (hf : buf.full = false) :
    (buf.pushed e).full = true ↔ advance buf.inOffs = buf.outOffs := by
  simp [AesdCircularBuffer.pushed, hf]

theorem WF.size_lt (h : buf.WF) (hf : buf.full = false) : buf.size < MAX_WRITE_OPERATIONS := by
  rcases Nat.eq_or_lt_of_le h.size_le with heq | hlt
  · exact absurd (h.full_iff.2 heq) (by simp [hf])
  · exact hlt

theorem WF.size_pushed (h : buf.WF) (e : AesdBufferEntry) :
    (buf.pushed e).size = if buf.full then MAX_WRITE_OPERATIONS else buf.size + 1 := by
  have hfull' := (h.pushed e).full_iff
  cases hf : buf.full with
  | true => exact hfull'.1 (by simp [AesdCircularBuffer.pushed, hf])
  | false =>
    have hin' := (h.pushed e).in_eq
    have hlt := h.size_lt hf
    have hle' := (h.pushed e).size_le
    rw [pushed_full hf] at hfull'
    rw [pushed_inOffs, pushed_outOffs, hf, if_neg (by simp)] at hin'
    rw [advance_eq h.in_lt, h.in_eq] at hfull' hin'
    have h2 := h.out_lt
    rw [if_neg (by simp)]
    unfold MAX_WRITE_OPERATIONS at *
    omega

/-- **`add_entry` appends to the entries, and drops the oldest of ten.** -/
theorem WF.entries_pushed (h : buf.WF) (e : AesdBufferEntry) :
    (buf.pushed e).entries = (buf.entries ++ [e]).rtake MAX_WRITE_OPERATIONS := by
  rw [entries, h.size_pushed, pushed_outOffs]
  cases hf : buf.full with
  | true =>
    have hsz := h.full_iff.1 hf
    have hin : buf.inOffs = buf.outOffs % MAX_WRITE_OPERATIONS := by
      rw [h.in_eq, hsz, Nat.add_mod_right]
    rw [Ring.rtake_concat_of_eq (by rw [length_entries, hsz]), if_pos rfl, if_pos rfl, entries, hsz,
      ← Ring.walk_set_start hin]
    refine Ring.walk_congr ?_
    rw [advance_eq h.in_lt, h.full_eq hf, Nat.mod_mod]
  | false =>
    rw [Ring.rtake_concat_of_lt (by rw [length_entries]; exact h.size_lt hf)]
    exact Ring.walk_set_end h.in_eq (h.size_lt hf)

theorem WF.evicted_eq (h : buf.WF) :
    buf.evicted = if buf.full then buf.entries.headD .null else .null := by
  rw [evicted]
  cases hf : buf.full with
  | false => rfl
  | true =>
    have hsz := h.full_iff.1 hf
    rw [entries, hsz, h.full_eq hf]
    rfl

/-! ## The three walks -/

/-- The sizes of the live entries, oldest first. -/
def sizes (buf : AesdCircularBuffer) : List ℕ := buf.entries.map AesdBufferEntry.size

@[simp] theorem length_sizes (buf : AesdCircularBuffer) : buf.sizes.length = buf.size := by
  rw [sizes, List.length_map, length_entries]

/-- The slot of the `k`-th oldest entry. -/
def index (buf : AesdCircularBuffer) (k : ℕ) : ℕ := (buf.outOffs + k) % MAX_WRITE_OPERATIONS

theorem index_lt (buf : AesdCircularBuffer) (k : ℕ) : buf.index k < MAX_WRITE_OPERATIONS :=
  Nat.mod_lt _ (by decide)

theorem slot_index (buf : AesdCircularBuffer) (k : ℕ) :
    buf.slot (buf.index k) = .ok (Ring.slot buf.entry (buf.outOffs + k)) := by
  rw [slot_eq (buf.index_lt k), index, Ring.slot_congr (Nat.mod_mod _ _)]

theorem getElem_entries {k : ℕ} (hk : k < buf.entries.length) :
    buf.entries[k] = Ring.slot buf.entry (buf.outOffs + k) :=
  Ring.getElem_walk hk

/-- Every slot of a full ring is live. -/
theorem exists_index (hs : buf.size = MAX_WRITE_OPERATIONS) (hi : i < MAX_WRITE_OPERATIONS) :
    ∃ k < buf.size, buf.index k = i := by
  refine ⟨(i + (MAX_WRITE_OPERATIONS - buf.outOffs % MAX_WRITE_OPERATIONS)) % MAX_WRITE_OPERATIONS,
    by rw [hs]; exact Nat.mod_lt _ (by decide), ?_⟩
  unfold index
  unfold MAX_WRITE_OPERATIONS at *
  omega

/-- The slots outside the window are `NULL`. -/
def Unused (buf : AesdCircularBuffer) : Prop :=
  ∀ i < MAX_WRITE_OPERATIONS, (∀ k < buf.size, buf.index k ≠ i) →
    Ring.slot buf.entry i = .null

theorem WF.unused_pushed (h : buf.WF) (hu : buf.Unused) (e : AesdBufferEntry) :
    (buf.pushed e).Unused := by
  intro i hi hk
  rw [h.size_pushed] at hk
  cases hf : buf.full with
  | true =>
    have hs : (buf.pushed e).size = MAX_WRITE_OPERATIONS := by rw [h.size_pushed, if_pos hf]
    obtain ⟨k, hklt, hki⟩ := exists_index hs hi
    exact absurd hki (hk k (by rw [if_pos hf, ← hs]; exact hklt))
  | false =>
    rw [hf, if_neg (by simp)] at hk
    have hout : (buf.pushed e).outOffs = buf.outOffs := by
      rw [pushed_outOffs, if_neg (by simp [hf])]
    have hindex : ∀ k, (buf.pushed e).index k = buf.index k := fun k ↦ by rw [index, index, hout]
    have hne : i % MAX_WRITE_OPERATIONS ≠ buf.inOffs := by
      rw [Nat.mod_eq_of_lt hi, h.in_eq]
      intro heq
      exact hk buf.size (Nat.lt_succ_self _) (by rw [hindex, index, heq])
    show Ring.slot (buf.entry.setIfInBounds buf.inOffs e) i = _
    rw [Ring.slot_set, if_neg hne]
    exact hu i hi fun k hklt ↦ by rw [← hindex]; exact hk k (hklt.trans (Nat.lt_succ_self _))

/-- What the walks see from `index` on, after one slot. -/
theorem walk_advance (h : i < MAX_WRITE_OPERATIONS) (n : ℕ) :
    Ring.walk buf.entry (advance i) n = Ring.walk buf.entry (i + 1) n :=
  Ring.walk_congr (by rw [advance_eq h, Nat.mod_mod])

variable [Platform]

theorem findLoop_eq (charOffset n : ℕ) :
    ∀ offset i, i < MAX_WRITE_OPERATIONS → offset ≤ charOffset →
      offset + ((Ring.walk buf.entry i n).map AesdBufferEntry.size).sum < SizeT.bound →
      buf.findLoop charOffset n offset i = .ok
        ((Concat.locate ((Ring.walk buf.entry i n).map AesdBufferEntry.size)
          (charOffset - offset)).map fun x ↦ ((i + x.1) % MAX_WRITE_OPERATIONS, x.2)) := by
  induction n with
  | zero => intro offset i _ _ _; rfl
  | succ n ih =>
    intro offset i hi hoff hsum
    rw [Ring.walk, List.map_cons, List.sum_cons] at hsum
    rw [findLoop, slot_eq hi, Ring.walk, List.map_cons, Concat.locate]
    show (if charOffset < SizeT.add offset (Ring.slot buf.entry i).size then _ else _) = _
    rw [SizeT.add_of_lt (by omega)]
    split
    · rename_i hlt
      rw [if_pos (by omega)]
      simp [Nat.mod_eq_of_lt hi]
    · rename_i hge
      rw [if_neg (by omega), ih _ _ (advance_lt hi) (by omega) (by rw [walk_advance hi]; omega),
        walk_advance hi, Option.map_map, Nat.sub_sub]
      congr 2
      funext x
      simp only [Function.comp_apply, advance_eq hi, Nat.mod_add_mod, Nat.add_assoc, Nat.add_comm 1]

/-- **`find_entry_offset_for_fpos` locates the position among the live entries.** -/
theorem WF.findEntryOffsetForFpos_eq (h : buf.WF) (hs : buf.sizes.sum < SizeT.bound)
    (charOffset : ℕ) :
    buf.findEntryOffsetForFpos charOffset =
      .ok ((Concat.locate buf.sizes charOffset).map fun x ↦ (buf.index x.1, x.2)) := by
  rw [findEntryOffsetForFpos, h.assertIndices_eq]
  exact findLoop_eq charOffset buf.size 0 buf.outOffs h.out_lt (Nat.zero_le _)
    (by rw [Nat.zero_add]; exact hs)

theorem bytesLoop_eq (n : ℕ) :
    ∀ bytes i, i < MAX_WRITE_OPERATIONS →
      bytes + ((Ring.walk buf.entry i n).map AesdBufferEntry.size).sum < SizeT.bound →
      buf.bytesLoop n bytes i
        = .ok (bytes + ((Ring.walk buf.entry i n).map AesdBufferEntry.size).sum) := by
  induction n with
  | zero => intro bytes i _ _; rfl
  | succ n ih =>
    intro bytes i hi hsum
    rw [Ring.walk, List.map_cons, List.sum_cons] at hsum ⊢
    rw [bytesLoop, slot_eq hi]
    show buf.bytesLoop n (SizeT.add bytes (Ring.slot buf.entry i).size) (advance i) = _
    rw [SizeT.add_of_lt (by omega), ih _ _ (advance_lt hi) (by rw [walk_advance hi]; omega),
      walk_advance hi, Nat.add_assoc]

/-- **`bytes_size` adds up the sizes of the live entries.** -/
theorem WF.bytesSize_eq (h : buf.WF) (hs : buf.sizes.sum < SizeT.bound) :
    buf.bytesSize = .ok buf.sizes.sum := by
  rw [bytesSize, bytesLoop_eq buf.size 0 buf.outOffs h.out_lt (by rw [Nat.zero_add]; exact hs),
    Nat.zero_add]
  rfl

theorem offsetLoop_eq (n : ℕ) :
    ∀ offset i, i < MAX_WRITE_OPERATIONS →
      offset + ((Ring.walk buf.entry i n).map AesdBufferEntry.size).sum < SizeT.bound →
      buf.offsetLoop n offset i
        = .ok (offset + ((Ring.walk buf.entry i n).map AesdBufferEntry.size).sum,
          (i + n) % MAX_WRITE_OPERATIONS) := by
  induction n with
  | zero => intro offset i hi _; rw [offsetLoop]; simp [Ring.walk, Nat.mod_eq_of_lt hi]
  | succ n ih =>
    intro offset i hi hsum
    rw [Ring.walk, List.map_cons, List.sum_cons] at hsum ⊢
    rw [offsetLoop, slot_eq hi]
    show buf.offsetLoop n (SizeT.add offset (Ring.slot buf.entry i).size) (advance i) = _
    rw [SizeT.add_of_lt (by omega), ih _ _ (advance_lt hi) (by rw [walk_advance hi]; omega),
      walk_advance hi, Nat.add_assoc, advance_eq hi, Nat.mod_add_mod, Nat.add_assoc i,
      Nat.add_comm 1]

omit [Platform] in
theorem before_sizes {k : ℕ} (hk : k ≤ buf.size) :
    Concat.before buf.sizes k
      = ((Ring.walk buf.entry buf.outOffs k).map AesdBufferEntry.size).sum := by
  obtain ⟨m, hm⟩ := Nat.exists_eq_add_of_le hk
  rw [Concat.before, sizes, entries, ← List.map_take, hm, Ring.walk_add,
    List.take_left' (Ring.length_walk ..)]

/-- **`offset_at` adds up the sizes of the entries before one**, if the place named is in it. -/
theorem WF.offsetAt_eq (h : buf.WF) (hs : buf.sizes.sum < SizeT.bound) (k o : ℕ) :
    buf.offsetAt k o
      = .ok (buf.sizes[k]?.bind fun s ↦
          if o < s then some (Concat.before buf.sizes k + o) else none) := by
  rw [offsetAt]
  split
  · rename_i hk
    rw [List.getElem?_eq_none (by simpa using hk)]
    rfl
  · rename_i hk
    have hk' : k < buf.sizes.length := by rw [length_sizes]; omega
    have hk'' : k < buf.entries.length := by rw [length_entries]; omega
    have hsum := Concat.before_le_sum buf.sizes (k + 1)
    have hbefore := before_sizes (Nat.le_of_lt (Nat.lt_of_not_le hk))
    have hsz : buf.sizes[k] = buf.entries[k].size := by simp [sizes]
    rw [Concat.before_succ hk', hsz] at hsum
    rw [offsetLoop_eq k 0 buf.outOffs h.out_lt (by omega), Nat.zero_add, ← hbefore,
      List.getElem?_eq_getElem hk', Option.bind_some, hsz]
    show (do let e ← buf.slot (buf.index k)
             if o ≥ e.size then _ else _) = _
    rw [slot_index, ← getElem_entries hk'']
    show (if o ≥ buf.entries[k].size then _ else _) = _
    by_cases ho : o < buf.entries[k].size
    · rw [if_pos ho, if_neg (by omega), SizeT.add_of_lt (by omega)]
    · rw [if_neg ho, if_pos (by omega)]

end AesdCircularBuffer

end Aesd
