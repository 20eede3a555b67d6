import Aesd.Server.Appends

/-!
# When a `write` call fails

The server does not look at what `fwrite` and `fflush` return, and the driver keeps what it was
given of a packet before a `write` call failed.  These bytes are pending when the next packet comes,
and its command starts with them (`System.leftover`).  Nothing stays behind only when the call that
fails is the first of its packet: in a run with no other failures every command in the ring is a
packet, `System.whole_or_not_at_all`.
-/

set_option autoImplicit false

namespace Aesd

/-- The device has no bytes of an unfinished command.  (In a file there is no place for them.) -/
def Store.NothingPending : Store → Prop
  | .device d => d.dev.tempEntry = .null
  | .file _ => False

instance : DecidablePred Store.NothingPending := fun store ↦ by
  cases store <;> unfold Store.NothingPending <;> infer_instance

namespace System

section Leftovers

variable [Platform]

/-- The condition of the runs in which a `write` call fails only while nothing is pending, that is,
at the first piece of a packet. -/
def FailsFirst (s : System) (l : Label) : Prop := s.WritesOk l ∨ s.store.NothingPending

instance (s : System) (l : Label) : Decidable (s.FailsFirst l) :=
  inferInstanceAs (Decidable (_ ∨ _))

variable {build : Build} {s s' t : System} {i : ℕ} {c : Client} {e : ThreadEvent} {u : Session}
  {count : ℕ} {f_pos : ℤ}

theorem part_eq_nil {store : Store} {packets : List (List Byte)} {part : List Byte}
    (h : store.Holds packets part) (hnull : store.NothingPending) : part = [] := by
  cases store with
  | file bytes => exact absurd hnull id
  | device d =>
    have hrep : d.Represents ⟨packets.rtake 10, part⟩ := h
    have hnull : d.dev.tempEntry = .null := hnull
    exact (hrep.toStores.temp_none (by rw [hnull]; rfl)).1

/-- What the store holds, after any run in which a `write` call fails only at a first piece. -/
theorem storedAs_reachable (h : Machine.Reachable step FailsFirst (init build) s) :
    s.Shared build ∧ s.StoredAs List.Sublist := by
  refine h.invariant (P := fun s ↦ s.Shared build ∧ s.StoredAs List.Sublist) ?_
    ⟨shared_init build, storedAs_init build (List.Sublist.refl _)⟩
  intro s l t ⟨hinv, hstored⟩ hok hstep
  refine ⟨hinv.step hstep, hstored.step hinv (fun a b p hab ↦ hab.append_right [p]) ?_ hstep⟩
  rintro i e c count f_pos s' u rfl hm
  refine ⟨fun a b p hab ↦ hab.trans (List.sublist_append_left b [p]), fun kept part hholds ↦ ?_⟩
  rcases hok with hok | hnull
  · exact absurd (hok.eq_true hm) (by simp)
  · exact part_eq_nil hholds hnull

/-- **A packet is stored whole or not at all**, if a `write` call fails only while nothing is
pending.  In every state of such a run the ring has one entry for each of the last ten of the
packets that were stored, which are packets of the log, in order; and `temp_entry` is empty, or it
has the beginning of the packet of the log that a session is still writing the rest of. -/
theorem whole_or_not_at_all (s : System) (h : Machine.Reachable step FailsFirst (init .device) s) :
    ∃ d, ∃ kept : List (List Byte), s.store = .device d ∧ kept.Sublist s.logged ∧
      List.Forall₂ (Holds d.mem) d.dev.buffer.entries (kept.rtake 10) ∧
      (d.dev.tempEntry = .null ∨ ∃ i before part, (s.session i).pc = .fwrite ∧
        s.logged = before ++ [part ++ (s.session i).rest] ∧ kept.Sublist before ∧
        Holds d.mem d.dev.tempEntry part) ∧
      ∀ i, s.loggedBy i <+: (s.session i).packets.filter isData ∧
        (s.session i).packets.Sublist (segments (s.session i).stream) := by
  obtain ⟨hinv, hstored⟩ := storedAs_reachable h
  obtain ⟨d, hs⟩ := Store.eq_device hinv.build
  have hclients : ∀ i, s.loggedBy i <+: (s.session i).packets.filter isData ∧
      (s.session i).packets.Sublist (segments (s.session i).stream) :=
    fun i ↦ ⟨⟨_, (hinv.logged i).symm⟩, hinv.packets i⟩
  rw [StoredAs, hs] at hstored
  rcases hstored with ⟨i, kept, before, part, hpc, hkept, hl, -, hholds⟩ | ⟨-, kept, hkept, hholds⟩
  · have hrep : d.Represents ⟨kept.rtake 10, part⟩ := hholds
    refine ⟨d, kept, hs, hl ▸ hkept.trans (List.sublist_append_left ..), hrep.entries, ?_, hclients⟩
    rcases hrep.temp with ⟨-, hnull⟩ | ⟨-, htemp⟩
    · exact Or.inl hnull
    · exact Or.inr ⟨i, before, part, hpc, hl, hkept, htemp⟩
  · have hrep : d.Represents ⟨kept.rtake 10, []⟩ := hholds
    refine ⟨d, kept, hs, hkept, hrep.entries, Or.inl ?_, hclients⟩
    rcases hrep.temp with ⟨-, hnull⟩ | ⟨hne, -⟩
    · exact hnull
    · exact absurd rfl hne

/-- **Any other failure leaves bytes behind**: while nobody writes, some bytes of the packet that is
lost are pending, and the command of the next packet starts with them. -/
theorem leftover (h : Machine.Reachable step FailsFirst (init .device) s)
    (hm : s.Moves i e t c (.write count false f_pos) s' u) (hpending : ¬ s.store.NothingPending) :
    (∀ j, (t.session j).pc ≠ .fwrite) ∧ ∃ kept part, part ≠ [] ∧ t.store.Holds kept part ∧
      ∀ packet o f_pos f_pos' store, Segments.IsSegment (· = newline) packet →
        t.store.write f_pos packet o = .ok (true, f_pos', store) →
        store.Holds (kept ++ [part ++ packet]) [] := by
  obtain ⟨hinv, hstored⟩ := storedAs_reachable h
  obtain ⟨hnone, kept, before, part, packet, -, -, -, hbefore, hholds⟩ := hstored.refused hinv hm
  refine ⟨hnone, kept, part, ?_, hholds, fun packet o f_pos f_pos' store hseg hw ↦ ?_⟩
  · rintro rfl
    obtain ⟨d, hs⟩ := Store.eq_device hinv.build
    rw [hs] at hbefore hpending
    have hrep : d.Represents ⟨kept.rtake 10, []⟩ := hbefore
    rcases hrep.temp with ⟨-, hnull⟩ | ⟨hne, -⟩
    · exact hpending hnull
    · exact hne rfl
  · have hnext := Store.write_holds hholds hw
    rwa [if_pos (terminated_of_isSegment hseg)] at hnext

end Leftovers

/-- A `write` call that finds no memory. -/
def noMemory : WriteOutcome := { WriteOutcome.plain with kmallocOk := false }

/-- Two clients; the first one's packet is cut in two pieces, and the call for the piece `failing`
fails.  The second one's packet is stored. -/
def failedPiece (failing : List ThreadEvent) : List Label :=
  Label.connect 1 ++ Label.connect 2 ++
    Label.steps 0 ([.start true, .recv (.data [97, 98, 10]), .scan true, .wrlock] ++ failing ++
      [.wrunlock]) ++
    Label.steps 1 [.start true, .recv (.data [99, 10]), .scan true, .wrlock, .write 2 .plain,
      .wrunlock]

attribute [local instance] linux64 in
theorem whole_or_not_at_all_first_piece : ∃ d,
    (after .device (failedPiece [.write 1 noMemory])).store = .device d ∧
    (after .device (failedPiece [.write 1 noMemory])).logged = [[97, 98, 10], [99, 10]] ∧
    ∃ kept : List (List Byte), kept.Sublist [[97, 98, 10], [99, 10]] ∧
      List.Forall₂ (Holds d.mem) d.dev.buffer.entries (kept.rtake 10) := by
  have hrun : Machine.Reachable step FailsFirst (init .device)
      (after .device (failedPiece [.write 1 noMemory])) := ⟨_, run_after (by decide +kernel)⟩
  have hlogged : (after .device (failedPiece [.write 1 noMemory])).logged
      = [[97, 98, 10], [99, 10]] := by decide +kernel
  generalize after .device (failedPiece [.write 1 noMemory]) = s at hrun hlogged ⊢
  obtain ⟨d, kept, hstore, hkept, hentries, -⟩ := whole_or_not_at_all s hrun
  exact ⟨d, hstore, hlogged, kept, hlogged ▸ hkept, hentries⟩

attribute [local instance] linux64 in
/-- The call for the second piece finds no memory; the next packet's command is no packet. -/
theorem failed_piece_leaks : ∃ s d, Machine.Reachable step Machine.Always (init .device) s ∧
    s.store = .device d ∧ s.lock.writer = none ∧ s.logged = [[97, 98, 10], [99, 10]] ∧
    d.commands = [[97, 99, 10]] := by
  have hrun : Machine.Reachable step Machine.Always (init .device)
      (after .device (failedPiece [.write 1 .plain, .write 2 noMemory])) :=
    ⟨_, run_after (by decide +kernel)⟩
  have hcommands :
      (after .device (failedPiece [.write 1 .plain, .write 2 noMemory])).lock.writer = none ∧
      (after .device (failedPiece [.write 1 .plain, .write 2 noMemory])).logged
        = [[97, 98, 10], [99, 10]] ∧
      (match (after .device (failedPiece [.write 1 .plain, .write 2 noMemory])).store with
        | .device d => d.commands
        | .file _ => []) = [[97, 99, 10]] := by decide +kernel
  generalize after .device (failedPiece [.write 1 .plain, .write 2 noMemory]) = s at hrun hcommands
  obtain ⟨hfree, hlogged, hcommands⟩ := hcommands
  cases hs : s.store with
  | device d =>
    rw [hs] at hcommands
    exact ⟨s, d, hrun, hs, hfree, hlogged, hcommands⟩
  | file bytes =>
    rw [hs] at hcommands
    cases hcommands

end System

end Aesd
