import Aesd.Server.Packets
import Aesd.Server.Turn

/-!
# What is left of a turn

How much a session has still to do of a reply (`Session.replyWork`) and of an append
(`Session.appendWork`).  Both are over before the rest of its turn (`Session.work`).
-/

set_option autoImplicit false

namespace Aesd

namespace Pc

theorem ne_done_of_writing {pc : Pc} (h : pc.writing = true) : pc ≠ .done := by
  rintro rfl
  cases h

theorem ne_done_of_reading {pc : Pc} (h : pc.reading = true) : pc ≠ .done := by
  rintro rfl
  cases h

end Pc

namespace Session

/-- There is still something to be sent in the reply under way. -/
def Owing (content : List Byte) (t : Session) : Prop :=
  t.pc.reading = true ∧ (t.pc = .send ∨ t.pending ≠ [] ∨ t.f_pos < content.length)

instance (content : List Byte) (t : Session) : Decidable (t.Owing content) :=
  inferInstanceAs (Decidable (_ ∧ _))

/-- What is left to do of a reply: the bytes to read, those to send, and the steps between. -/
def replyWork (content : List Byte) (t : Session) : ℕ :=
  4 * (content.length - t.f_pos.toNat) + 2 * t.pending.length +
    if t.pc = .send then 2 else if t.pc = .fread then 1 else 0

/-- What is left to do of an append. -/
def appendWork (t : Session) : ℕ :=
  if t.pc = .fwrite then 2 else if t.pc = .wrunlock then 0 else 1

variable {t : Session}

theorem rank_of_writing (h : t.pc.writing = true) : 13 < t.rank t.pc := by
  cases hpc : t.pc <;> rw [hpc] at h <;> first | simp [rank]; done | cases h

theorem rank_of_reading (h : t.pc.reading = true) : 3 < t.rank t.pc := by
  cases hpc : t.pc with
  | fread => rw [rank]; split <;> decide
  | send => rw [rank]; split <;> decide
  | rdunlock => simp [rank]
  | _ => rw [hpc] at h; cases h

/-- A `read` call in a reply: there is less to do, and nobody is owed anything who was not
before. -/
theorem read_step {content bytes : List Byte} {pos : ℕ} (hpc : t.pc = .fread) (hpos : t.f_pos = pos)
    (hlen : bytes.length ≤ BUFFER_SIZE) (hread : bytes <+: content.drop pos)
    (hend : bytes = [] → content.length ≤ pos) (build : Build) :
    ∃ u, step build t (.read bytes ((pos + bytes.length : ℕ) : ℤ)) = some u ∧
      u.stream = t.stream ∧ u.bytesLeft = t.bytesLeft ∧ (u.Owing content → t.Owing content) ∧
      u.pc.reading = true ∧ u.replyWork content < t.replyWork content := by
  have hreading : t.pc.reading = true := by rw [hpc]; rfl
  have hnat : t.f_pos.toNat = pos := by rw [hpos, Int.toNat_natCast]
  refine ⟨_, step_eq_some.2 ⟨hpc, hlen, rfl⟩, ?_⟩
  by_cases hbytes : bytes = []
  · subst hbytes
    have hend := hend rfl
    by_cases hpend : t.pending = []
    · -- the end of the reply
      rw [handle, if_neg (by simp), if_neg (by simp [hpend]), settle_ok]
      refine ⟨rfl, rfl, ?_, rfl, by simp [replyWork, hpc, hnat]⟩
      rintro ⟨-, hsend | hne | hlt⟩
      · cases hsend
      · exact absurd hpend hne
      · have hlt : ((pos + 0 : ℕ) : ℤ) < content.length := hlt
        omega
    · -- the end of the file, with something to be sent
      rw [handle, if_neg (by simp), if_pos hpend, settle_ok]
      refine ⟨rfl, rfl, fun _ ↦ ⟨hreading, Or.inr (Or.inl hpend)⟩, rfl, ?_⟩
      have hpos := List.length_pos_of_ne_nil hpend
      simp only [replyWork, hpc, hnat, Int.toNat_natCast, List.length_nil, Nat.add_zero,
        reduceCtorEq, if_true, if_false]
      omega
  · have hle := hread.length_le
    rw [List.length_drop] at hle
    have hdpos := List.length_pos_of_ne_nil hbytes
    have howing : t.Owing content := ⟨hreading, Or.inr (Or.inr (by rw [hpos]; omega))⟩
    rw [handle, if_pos hbytes, settle_ok]
    rcases fill_cases { t with
        pending := t.pending ++ bytes, reply := t.reply ++ bytes
        f_pos := ((pos + bytes.length : ℕ) : ℤ) } with hfill | ⟨buffer, pending, hcut, hfill⟩
    · rw [hfill]
      refine ⟨rfl, rfl, fun _ ↦ howing, hreading, ?_⟩
      simp only [replyWork, hpc, hnat, Int.toNat_natCast, List.length_append, reduceCtorEq, if_true,
        if_false]
      omega
    · rw [hfill]
      refine ⟨rfl, rfl, fun _ ↦ howing, rfl, ?_⟩
      have hcut := congrArg List.length hcut
      simp only [List.length_append] at hcut
      simp only [replyWork, hpc, hnat, Int.toNat_natCast, reduceCtorEq, if_true, if_false]
      omega

end Session

end Aesd
