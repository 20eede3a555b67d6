import Aesd.Driver.Read
import Aesd.Driver.WriteLog

/-!
# Who owns the command buffers

Any run of the file operations keeps `Driver.Represents` (`Node.calls_represents`), and a part of
it says that the allocated blocks are those of the ring's live entries and of `temp_entry`, each
pointed to once.  `aesd_cleanup_module` does not look at the ring's window but at all ten slots, so
it needs the other slots to be `NULL`; then it frees what is left exactly once.
-/

set_option autoImplicit false

namespace Aesd

variable [Platform] {log : CommandLog} {s : Node}

/-! ## Runs of calls -/

namespace Node

/-- One call of any kind, whatever fails in it. -/
theorem call_represents (h : s.driver.Represents log) (c : Call) :
    ∃ r s' log', s.call c = .ok (r, s') ∧ s'.driver.Represents log' := by
  cases c with
  | «open» file => exact ⟨0, s.seek file 0, log, rfl, h⟩
  | read file call =>
    refine ⟨(log.read (s.f_pos file) call).retval, s.seek file (log.read (s.f_pos file) call).f_pos,
      log, ?_, h⟩
    rw [Node.call, Driver.aesdRead_eq h.toStores, ok_bind]
  | pread f_pos call =>
    refine ⟨(log.read f_pos call).retval, s, log, ?_, h⟩
    rw [Node.call, Driver.aesdRead_eq h.toStores, ok_bind]
  | write call =>
    obtain ⟨r, d, heq, hrep, -⟩ := Driver.aesdWrite_step h call
    exact ⟨r, { s with driver := d }, _, by rw [Node.call, heq, ok_bind], hrep⟩
  | ioctl file call =>
    refine ⟨(log.ioctl (s.f_pos file) call).1, s.seek file (log.ioctl (s.f_pos file) call).2, log,
      ?_, h⟩
    rw [Node.call, Driver.aesdIoctl_eq h.toStores, ok_bind]
  | llseek file call =>
    obtain ⟨r, heq⟩ : ∃ r, s.driver.aesdLlseek (s.f_pos file) call = .ok r :=
      ⟨_, Driver.aesdLlseek_eq h.toStores _ _⟩
    exact ⟨r.1, s.seek file r.2, log, by rw [Node.call, heq, ok_bind], h⟩

/-- **Any run of calls keeps the invariant**, whatever fails in it. -/
theorem calls_represents (h : s.driver.Represents log) (cs : List Call) :
    ∃ rs s' log', s.calls cs = .ok (rs, s') ∧ s'.driver.Represents log' := by
  induction cs generalizing s log with
  | nil => exact ⟨[], s, log, rfl, h⟩
  | cons c cs ih =>
    obtain ⟨r, s₁, log₁, heq, h₁⟩ := call_represents h c
    obtain ⟨rs, s₂, log₂, heqs, h₂⟩ := ih h₁
    exact ⟨r :: rs, s₂, log₂, by simp only [calls, heq, heqs, ok_bind], h₂⟩

end Node

/-! ## The end -/

namespace Driver

variable {d : Driver} {extra : List ℕ}

/-- The blocks that the slots from `index` on point to. -/
def slotPointers (d : Driver) (index n : ℕ) : List ℕ :=
  (Ring.walk d.dev.buffer.entry index n).filterMap AesdBufferEntry.buffptr

omit [Platform] in
/-- All slots together point to what the live entries point to. -/
theorem slotPointers_perm (hu : d.dev.buffer.Unused)
    (hs : d.dev.buffer.size ≤ MAX_WRITE_OPERATIONS) :
    d.ringPointers.Perm (d.slotPointers 0 MAX_WRITE_OPERATIONS) := by
  have hperm := Ring.walk_perm d.dev.buffer.entry d.dev.buffer.outOffs
  have hsplit : d.slotPointers d.dev.buffer.outOffs MAX_WRITE_OPERATIONS = d.ringPointers := by
    obtain ⟨m, hm⟩ := Nat.exists_eq_add_of_le hs
    have hwalk : Ring.walk d.dev.buffer.entry d.dev.buffer.outOffs MAX_WRITE_OPERATIONS
        = d.dev.buffer.entries
          ++ Ring.walk d.dev.buffer.entry (d.dev.buffer.outOffs + d.dev.buffer.size) m := by
      rw [AesdCircularBuffer.entries, ← Ring.walk_add, ← hm]
    rw [slotPointers, hwalk, List.filterMap_append, ringPointers]
    refine List.append_right_eq_self.2 (List.filterMap_eq_nil_iff.2 fun e he ↦ ?_)
    obtain ⟨i, hi, rfl⟩ := Ring.mem_walk.1 he
    have hnull := hu ((d.dev.buffer.outOffs + d.dev.buffer.size + i) % MAX_WRITE_OPERATIONS)
      (Nat.mod_lt _ (by decide)) fun k hk ↦ by
        rw [AesdCircularBuffer.index, Nat.add_assoc]
        exact Ring.add_mod_ne (by omega) (by omega)
    rw [← Ring.slot_congr (Nat.mod_mod _ _), hnull]
    rfl
  rw [← hsplit]
  exact hperm.filterMap _

omit [Platform] in
/-- The loop frees what the slots point to, and nothing else. -/
theorem cleanupLoop_owns (n : ℕ) : ∀ (d : Driver) (index : ℕ), index + n = MAX_WRITE_OPERATIONS →
    d.mem.Owns (d.slotPointers index n ++ extra) →
    ∃ d', d.cleanupLoop n index = .ok d' ∧ d'.dev.tempEntry = d.dev.tempEntry ∧
      d'.mem.Owns extra := by
  induction n with
  | zero => exact fun d _ _ ho ↦ ⟨d, rfl, rfl, ho⟩
  | succ n ih =>
    intro d index hi ho
    have hlt : index < MAX_WRITE_OPERATIONS := by omega
    rw [slotPointers, Ring.walk] at ho
    rw [cleanupLoop, AesdCircularBuffer.slot_eq hlt, ok_bind]
    cases hp : (Ring.slot d.dev.buffer.entry index).buffptr with
    | none =>
      rw [List.filterMap_cons_none hp] at ho
      exact ih d (index + 1) (by omega) ho
    | some ptr =>
      rw [List.filterMap_cons_some hp] at ho
      refine ih _ (index + 1) (by omega) ?_
      rw [slotPointers, Ring.walk_set_of_ne fun i hi' ↦ ?_]
      · exact ho.free
      · rw [Nat.mod_eq_of_lt (by omega)]
        omega

/-- **The driver's end frees every block that is left, once.** -/
theorem aesdCleanupModule_owns (h : d.Stores log []) :
    ∃ d', d.aesdCleanupModule = .ok d' ∧ d'.mem.Owns [] := by
  have ho := h.owns
  rw [List.append_nil, pointers] at ho
  obtain ⟨d', heq, htemp, ho'⟩ := cleanupLoop_owns MAX_WRITE_OPERATIONS d 0 rfl
    (ho.perm ((slotPointers_perm h.unused h.wf.size_le).append_right _))
  rw [aesdCleanupModule, heq, ok_bind, htemp]
  cases hb : d.dev.tempEntry.buffptr with
  | none => rw [hb] at ho'; exact ⟨d', rfl, ho'⟩
  | some ptr => rw [hb] at ho'; exact ⟨_, rfl, ho'.free⟩

/-- **Command buffers are owned exactly once.**  After any run of calls the allocated blocks are
those of the live entries and of `temp_entry`, no two of which point to the same one, nothing was
freed twice, and the slots that are not live are `NULL`.  If the driver then ends, every block it
ever allocated has been freed once. -/
theorem calls_own_buffers (cs : List Call) :
    ∃ rs s, Node.init.calls cs = .ok (rs, s) ∧ (∀ p, s.driver.mem.Live p ↔ p ∈ s.driver.pointers) ∧
      s.driver.pointers.Nodup ∧ s.driver.mem.freed.Nodup ∧ s.driver.dev.buffer.Unused ∧
      ∃ d', s.driver.aesdCleanupModule = .ok d' ∧ ∀ p < d'.mem.next, d'.mem.freed.count p = 1 := by
  obtain ⟨rs, s, log, heq, h⟩ := Node.calls_represents (s := .init) represents_init cs
  have ho := h.owns
  rw [List.append_nil] at ho
  obtain ⟨d', hend, ho'⟩ := aesdCleanupModule_owns h.toStores
  exact ⟨rs, s, heq, fun p ↦ (ho.live p).symm, ho.nodup, ho.sound.nodup, h.unused, d', hend,
    fun p hp ↦ ho'.count_freed hp⟩

end Driver

end Aesd
