import Aesd.Driver.Ownership

/-!
# The driver's assertions

In the kernel `assert` is `BUG_ON`.  Whether one fails, or an index leaves the array, rests on what
`struct aesd_dev` looks like between two calls: `Driver.Intact`, which says it without a log to
compare with.  Every run of calls leaves an intact device and meets no `Bug`
(`Driver.calls_intact`).
-/

set_option autoImplicit false

namespace Aesd

/-- The entry has a buffer, which holds as many bytes as the entry says. -/
def AesdBufferEntry.Backed (e : AesdBufferEntry) (mem : Memory) (bytes : List Byte) : Prop :=
  (∃ ptr, e.buffptr = some ptr ∧ mem.get? ptr = some bytes) ∧ e.size = bytes.length

namespace Driver

/-- **What is true of the device between two calls.** -/
structure Intact (d : Driver) : Prop where
  /-- The write index is a slot. -/
  in_lt : d.dev.buffer.inOffs < MAX_WRITE_OPERATIONS
  /-- The read index is a slot. -/
  out_lt : d.dev.buffer.outOffs < MAX_WRITE_OPERATIONS
  /-- The window of a full ring is the whole array. -/
  full_eq : d.dev.buffer.full = true → d.dev.buffer.inOffs = d.dev.buffer.outOffs
  /-- The window of any other ring starts at the first slot. -/
  start : d.dev.buffer.full = false → d.dev.buffer.outOffs = 0
  /-- The slots behind it are `NULL`. -/
  unused : d.dev.buffer.full = false → ∀ i < MAX_WRITE_OPERATIONS, d.dev.buffer.inOffs ≤ i →
    d.dev.buffer.slot i = .ok .null
  /-- A live entry has a buffer with a newline-terminated command. -/
  live : ∀ e ∈ d.dev.buffer.entries, 0 < e.size ∧
    ∃ bytes, e.Backed d.mem bytes ∧ NewlineTerminated bytes
  /-- `temp_entry` has no buffer if and only if it has no bytes. -/
  temp_null : d.dev.tempEntry.buffptr = none ↔ d.dev.tempEntry.size = 0
  /-- A pending write does not end in a newline. -/
  temp : d.dev.tempEntry.buffptr ≠ none →
    ∃ bytes, d.dev.tempEntry.Backed d.mem bytes ∧ ¬ NewlineTerminated bytes

variable [Platform] {d : Driver} {log : CommandLog}

omit [Platform] in
theorem backed_of_holds {mem : Memory} {e : AesdBufferEntry} {bytes : List Byte}
    (h : Holds mem e bytes) : e.Backed mem bytes := by
  obtain ⟨ptr, hp, hg, hs⟩ := h
  exact ⟨⟨ptr, hp, hg⟩, hs⟩

/-- The window of a ring that is not full is a part of the array that starts at the first slot. -/
theorem Stores.unused_behind {extra : List ℕ} (h : d.Stores log extra)
    (hf : d.dev.buffer.full = false) {i : ℕ} (hi : i < MAX_WRITE_OPERATIONS)
    (hle : d.dev.buffer.inOffs ≤ i) : d.dev.buffer.slot i = .ok .null := by
  have hout := h.start hf
  have hsize : d.dev.buffer.size = d.dev.buffer.inOffs := by
    rw [AesdCircularBuffer.size, if_pos ⟨hf, by omega⟩, hout, Nat.sub_zero]
  rw [AesdCircularBuffer.slot_eq hi, h.unused i hi]
  intro k hk heq
  rw [AesdCircularBuffer.index, hout, Nat.zero_add, Nat.mod_eq_of_lt (by omega)] at heq
  omega

/-- A device that represents a log is intact. -/
theorem Represents.intact (h : d.Represents log) : d.Intact where
  in_lt := h.wf.in_lt
  out_lt := h.wf.out_lt
  full_eq := h.wf.full_eq
  start := h.start
  unused := fun hf _ hi hle ↦ h.toStores.unused_behind hf hi hle
  live := by
    intro e he
    obtain ⟨k, hk, rfl⟩ := List.mem_iff_getElem.1 he
    have hk' : k < log.commands.length := h.entries.length_eq ▸ hk
    have hholds := h.entries.get hk hk'
    have hterm := h.terminated _ (List.getElem_mem hk')
    refine ⟨?_, _, backed_of_holds hholds, hterm⟩
    have hsize := hholds.size_eq
    have hpos := List.length_pos_of_ne_nil hterm.ne_nil
    simp only [List.get_eq_getElem] at hsize
    omega
  temp_null := by
    rcases h.temp with ⟨-, hnull⟩ | ⟨hne, ptr, hp, -, hs⟩
    · rw [hnull]
      exact iff_of_true rfl rfl
    · have hpos := List.length_pos_of_ne_nil hne
      exact iff_of_false (by simp [hp]) (by omega)
  temp := by
    intro hb
    rcases h.temp with ⟨-, hnull⟩ | ⟨-, hholds⟩
    · rw [hnull] at hb
      exact absurd rfl hb
    · exact ⟨_, backed_of_holds hholds, h.unterminated⟩

/-- **The driver's assertions hold.**  No run of calls from the start of the driver, with any
arguments and whatever fails in it, meets a `Bug`: no assertion fails, no index leaves the array,
and no memory is used that is not there.  After each of its calls the device is intact. -/
theorem calls_intact (cs : List Call) :
    ∃ rs s, Node.init.calls cs = .ok (rs, s) ∧ s.driver.Intact := by
  obtain ⟨rs, s, log, heq, h⟩ := Node.calls_represents (s := .init) represents_init cs
  exact ⟨rs, s, heq, h.intact⟩

end Driver

end Aesd
