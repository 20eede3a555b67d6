import Aesd.Lib.Fifo
import Aesd.Driver.CircularBuffer

/-!
# The ring is a bounded queue

`aesd_circular_buffer_add_entry` on any well-formed ring, wherever its window starts: the list of
the live entries is a queue of ten that drops its oldest, `Fifo.push`.  The entries need not be what
the driver puts there; they may be empty, or even `NULL`, so the returned entry alone does not say
whether one was dropped.
-/

set_option autoImplicit false

namespace Aesd

namespace AesdCircularBuffer

/-- Add entries one after the other: the entries returned by the calls that found ten in the ring,
and the ring. -/
def addEntries (buf : AesdCircularBuffer) :
    List AesdBufferEntry → Except Bug (List AesdBufferEntry × AesdCircularBuffer)
  | [] => .ok ([], buf)
  | e :: es => do
    let (evicted, buf') ← buf.addEntry e
    let (removed, buf'') ← addEntries buf' es
    .ok ((if buf.size = MAX_WRITE_OPERATIONS then [evicted] else []) ++ removed, buf'')

/-- One call: `t` is the ring after `e` is added to `s`, and `ret` the returned entry. -/
structure Adds (s : AesdCircularBuffer) (e ret : AesdBufferEntry) (t : AesdCircularBuffer) :
    Prop where
  /-- The ring stays well formed. -/
  wf : t.WF
  /-- It never has more than ten entries. -/
  size_le : t.size ≤ MAX_WRITE_OPERATIONS
  /-- The new entry comes last, and the first one goes if there were ten. -/
  entries : t.entries = (Fifo.push MAX_WRITE_OPERATIONS s.entries e).2
  /-- What goes is returned, else the `NULL` entry. -/
  returned : ret = (Fifo.push MAX_WRITE_OPERATIONS s.entries e).1.getD .null
  /-- Every other slot stays as it is. -/
  others : ∀ i < MAX_WRITE_OPERATIONS, i ≠ s.inOffs → Ring.slot t.entry i = Ring.slot s.entry i
  /-- The slot that is written is none of the live ones, but that of the entry that goes. -/
  written : ∀ k < s.size, s.index k = s.inOffs → k = 0 ∧ s.size = MAX_WRITE_OPERATIONS

variable {buf : AesdCircularBuffer}

/-- **`add_entry` is `Fifo.push`.** -/
theorem WF.addEntry_adds (h : buf.WF) (e : AesdBufferEntry) :
    ∃ ret buf', buf.addEntry e = .ok (ret, buf') ∧ buf.Adds e ret buf' := by
  refine ⟨_, _, addEntry_eq h e, h.pushed e, (h.pushed e).size_le, ?_, ?_, fun i hi hne ↦ ?_, ?_⟩
  · rw [h.entries_pushed]
    rcases Nat.lt_or_eq_of_le h.size_le with hlt | heq
    · rw [Ring.rtake_concat_of_lt (by rwa [length_entries]),
        Fifo.push_of_ne (by rw [length_entries]; exact Nat.ne_of_lt hlt)]
    · rw [Ring.rtake_concat_of_eq (by rw [length_entries, heq]),
        Fifo.push_of_eq (by rw [length_entries, heq])]
  · rw [h.evicted_eq]
    split
    · rename_i hfull
      rw [Fifo.push_of_eq (by rw [length_entries]; exact h.full_iff.1 hfull),
        List.headD_eq_head?_getD]
    · rename_i hfull
      rw [Fifo.push_of_ne (by rw [length_entries]; exact fun heq ↦ hfull (h.full_iff.2 heq))]
      rfl
  · show Ring.slot (buf.entry.setIfInBounds buf.inOffs e) i = _
    rw [Ring.slot_set, if_neg (by rwa [Nat.mod_eq_of_lt hi])]
  · intro k hk hindex
    have hle := h.size_le
    rw [h.in_eq, index] at hindex
    unfold MAX_WRITE_OPERATIONS at *
    omega

/-- **Adding entries is `Fifo.pushAll`.** -/
theorem WF.addEntries_eq (h : buf.WF) (es : List AesdBufferEntry) :
    ∃ buf', buf.addEntries es = .ok ((Fifo.pushAll MAX_WRITE_OPERATIONS buf.entries es).1, buf') ∧
      buf'.WF ∧ buf'.entries = (Fifo.pushAll MAX_WRITE_OPERATIONS buf.entries es).2 := by
  induction es generalizing buf with
  | nil => exact ⟨buf, rfl, h, rfl⟩
  | cons e es ih =>
    obtain ⟨ret, buf', heq, hadds⟩ := h.addEntry_adds e
    obtain ⟨buf'', heq', hwf, hentries⟩ := ih hadds.wf
    rw [hadds.entries] at heq' hentries
    refine ⟨buf'', ?_, hwf, hentries⟩
    have hremoved : (if buf.size = MAX_WRITE_OPERATIONS then [ret] else [])
        = (Fifo.push MAX_WRITE_OPERATIONS buf.entries e).1.toList := by
      rw [hadds.returned]
      split
      · rename_i hsize
        rw [Fifo.push_of_eq (by rw [length_entries, hsize])]
        cases hentries : buf.entries with
        | nil =>
          rw [← length_entries, hentries] at hsize
          cases hsize
        | cons first rest => rfl
      · rename_i hsize
        rw [Fifo.push_of_ne (by rwa [length_entries])]
        rfl
    simp only [addEntries, heq, ok_bind, heq', hremoved]
    rfl

/-- **The ring is a bounded queue**, from every well-formed state.  After any sequence of
`add_entry` calls with any entries the ring is well formed and has at most ten entries; the removed
entries, in the order they were returned, and the entries of the ring are those that were there,
followed by those that were added.  The next call again appends its entry, removes the first of ten
and returns it, or the `NULL` entry, and changes no other entry. -/
theorem bounded_queue (h : buf.WF) (es : List AesdBufferEntry) :
    ∃ removed buf', buf.addEntries es = .ok (removed, buf') ∧ buf'.WF ∧
      buf'.size ≤ MAX_WRITE_OPERATIONS ∧ removed ++ buf'.entries = buf.entries ++ es ∧
      ∀ e, ∃ ret buf'', buf'.addEntry e = .ok (ret, buf'') ∧ buf'.Adds e ret buf'' := by
  obtain ⟨buf', heq, hwf, hentries⟩ := h.addEntries_eq es
  refine ⟨_, buf', heq, hwf, hwf.size_le, ?_, hwf.addEntry_adds⟩
  rw [hentries]
  exact Fifo.pushAll_append (by decide) _ _

/-- Nine entries, the first two of them in the last slots. -/
def almostFull : AesdCircularBuffer where
  entry := Vector.ofFn fun i ↦ ⟨some i, i⟩
  inOffs := 7
  outOffs := 8
  full := false

theorem bounded_queue_almostFull : ∃ removed buf',
    almostFull.addEntries [⟨some 10, 1⟩, .null, ⟨none, 5⟩] = .ok (removed, buf') ∧
      removed ++ buf'.entries = almostFull.entries ++ [⟨some 10, 1⟩, .null, ⟨none, 5⟩] ∧
      removed.length = 2 := by
  have hwf : almostFull.WF := ⟨by decide, by decide, by decide⟩
  obtain ⟨removed, buf', heq, -, hle, happend, -⟩ :=
    bounded_queue hwf [⟨some 10, 1⟩, .null, ⟨none, 5⟩]
  have hremoved : (almostFull.addEntries [⟨some 10, 1⟩, .null, ⟨none, 5⟩]).toOption.map
      (fun x ↦ x.1.length) = some 2 := by decide +kernel
  rw [heq] at hremoved
  exact ⟨removed, buf', heq, happend, Option.some_inj.1 hremoved⟩

end AesdCircularBuffer

end Aesd
