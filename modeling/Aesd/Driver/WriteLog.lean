import Aesd.Driver.Write

/-!
# Sequences of writes

A sequence of calls of `aesd_write` from a fresh device, any of which may fail at any point: the
device holds the log of the chunks of those calls that returned a positive count.
-/

set_option autoImplicit false

namespace Aesd

namespace Driver

variable [Platform] {d : Driver} {log : CommandLog} {call : WriteCall} {calls : List WriteCall}

/-- A sequence of writes: the values returned and the state at the end. -/
def writes : Driver → List WriteCall → Except Bug (List ℤ × Driver)
  | d, [] => .ok ([], d)
  | d, call :: calls => do
    let (r, d) ← d.aesdWrite call
    let (rs, d) ← d.writes calls
    .ok (r :: rs, d)

omit [Platform] in
/-- The chunks of the calls that returned a positive count, in order. -/
def acceptedChunks : List WriteCall → List ℤ → List (List Byte)
  | call :: calls, r :: rs =>
    if 0 < r then call.userBuf :: acceptedChunks calls rs else acceptedChunks calls rs
  | _, _ => []

/-- One call, whatever fails in it. -/
theorem aesdWrite_step (h : d.Represents log) (call : WriteCall) :
    ∃ r d', d.aesdWrite call = .ok (r, d') ∧
      d'.Represents (if 0 < r then log.write call.userBuf else log) ∧
      (r ≤ 0 → d'.dev = d.dev ∧ ∀ p, d.mem.Live p → d'.mem.get? p = d.mem.get? p) := by
  by_cases ha : call.Accepted log
  · obtain ⟨d', heq, hrep⟩ := aesdWrite_accepted h ha
    have hpos : (0 : ℤ) < call.userBuf.length := by
      have := List.length_pos_of_ne_nil ha.1
      omega
    exact ⟨_, d', heq, by rwa [if_pos hpos], fun hr ↦ absurd hr (by omega)⟩
  · obtain ⟨r, mem, heq, hr, hrep, hmem⟩ := aesdWrite_refused h ha
    exact ⟨r, _, heq, by rwa [if_neg (by omega)], fun _ ↦ ⟨rfl, hmem⟩⟩

/-- A sequence of calls writes the chunks that were accepted. -/
theorem writes_step (h : d.Represents log) (calls : List WriteCall) :
    ∃ rs d', d.writes calls = .ok (rs, d') ∧ rs.length = calls.length ∧
      d'.Represents ((acceptedChunks calls rs).foldl CommandLog.write log) := by
  induction calls generalizing d log with
  | nil => exact ⟨[], d, rfl, rfl, h⟩
  | cons call calls ih =>
    obtain ⟨r, d₁, heq, hrep, -⟩ := aesdWrite_step h call
    obtain ⟨rs, d₂, heqs, hlen, hreps⟩ := ih hrep
    refine ⟨r :: rs, d₂, ?_, by rw [List.length_cons, List.length_cons, hlen], ?_⟩
    · simp only [writes, heq, ok_bind, heqs]
    · rw [acceptedChunks]
      split at hreps
      · rename_i hr; rwa [if_pos hr, List.foldl_cons]
      · rename_i hr; rwa [if_neg hr]

/-- **The write path refines the bounded command log.**  After any sequence of writes on a fresh
device, the entries met by walking the ring hold, oldest first, the last ten of the commands that
the accepted chunks spell, and `temp_entry` holds the accepted bytes after the last of them, being
`NULL` when there are none.  And a further call that does not return a positive count leaves the
ring, `temp_entry` and the bytes they point to as they were. -/
theorem aesdWrite_refines_log (calls : List WriteCall) :
    ∃ rs d, aesdInitModule.writes calls = .ok (rs, d) ∧ rs.length = calls.length ∧
      List.Forall₂ (Holds d.mem) d.dev.buffer.entries
        ((CommandLog.commandsOf (acceptedChunks calls rs)).rtake 10) ∧
      (CommandLog.pendingOf (acceptedChunks calls rs) = [] ∧ d.dev.tempEntry = .null ∨
        CommandLog.pendingOf (acceptedChunks calls rs) ≠ [] ∧
          Holds d.mem d.dev.tempEntry (CommandLog.pendingOf (acceptedChunks calls rs))) ∧
      ∀ call : WriteCall, ∃ r d', d.aesdWrite call = .ok (r, d') ∧
        (r ≤ 0 → d'.dev = d.dev ∧ ∀ p ∈ d.pointers, d'.mem.get? p = d.mem.get? p) := by
  obtain ⟨rs, d, heq, hlen, hrep⟩ := writes_step represents_init calls
  rw [CommandLog.foldl_write] at hrep
  refine ⟨rs, d, heq, hlen, hrep.entries, hrep.temp, fun call ↦ ?_⟩
  obtain ⟨r, d', heq', -, hkeep⟩ := aesdWrite_step hrep call
  refine ⟨r, d', heq', fun hr ↦ ⟨(hkeep hr).1, fun p hp ↦ (hkeep hr).2 p (hrep.toStores.live hp)⟩⟩

end Driver

end Aesd
