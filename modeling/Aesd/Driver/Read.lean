import Mathlib.Algebra.Order.BigOperators.Group.List
import Mathlib.Data.List.GetD
import Aesd.Driver.Represents

/-!
# Reading the log

`aesd_read`, `aesd_ioctl` and `aesd_llseek` on a state that represents a log.  They change no
command, so each is given as a function of the log: `CommandLog.read`, `CommandLog.ioctl` and the
content's length, which `aesd_llseek` hands to the kernel.

A read stops where a command ends (`CommandLog.readAt`).  It returns a part of the content that
starts at the position (`readAt_isPrefix`), and nothing only at the content's end (`readAt_eq_nil`).
-/

set_option autoImplicit false

namespace Aesd

namespace CommandLog

variable {log : CommandLog} {off count k r : ℕ}

/-- The bytes one read of at most `count` bytes gives at the position `off`. -/
def readAt (log : CommandLog) (off count : ℕ) : List Byte :=
  match Concat.locate (log.commands.map List.length) off with
  | some (k, r) => ((log.commands.getD k []).drop r).take count
  | none => []

/-- The position of a place in a command, if the command has that place. -/
def seekOffset (log : CommandLog) (k r : ℕ) : Option ℕ :=
  log.commands[k]?.bind fun c ↦
    if r < c.length then some ((log.commands.take k).flatten.length + r) else none

theorem length_content (log : CommandLog) :
    log.content.length = (log.commands.map List.length).sum := by
  rw [content, List.length_flatten]

theorem locate_eq_none :
    Concat.locate (log.commands.map List.length) off = none ↔ log.content.length ≤ off := by
  rw [Concat.locate_eq_none, length_content]

/-- A position in the content is a place in a command. -/
theorem locate_eq_some (h : Concat.locate (log.commands.map List.length) off = some (k, r)) :
    ∃ hk : k < log.commands.length, r < log.commands[k].length ∧
      log.content.drop off = log.commands[k].drop r ++ (log.commands.drop (k + 1)).flatten := by
  obtain ⟨hk, hr, rfl⟩ := Concat.locate_eq_some.1 h
  rw [List.length_map] at hk
  rw [List.getElem_map] at hr
  exact ⟨hk, hr, Concat.drop_flatten hk hr.le⟩

/-- **What a read gives is what the content has from the position on.** -/
theorem readAt_isPrefix (log : CommandLog) (off count : ℕ) :
    log.readAt off count <+: log.content.drop off := by
  rw [readAt]
  split
  · rename_i k r hloc
    obtain ⟨hk, -, hdrop⟩ := locate_eq_some hloc
    rw [hdrop, List.getD_eq_getElem _ _ hk]
    refine .trans ?_ (List.prefix_append _ _)
    exact List.take_prefix _ _
  · exact List.nil_prefix

theorem length_readAt_le (log : CommandLog) (off count : ℕ) :
    (log.readAt off count).length ≤ count := by
  rw [readAt]
  split
  · exact List.length_take_le ..
  · exact Nat.zero_le _

/-- **A read gives nothing only at the end of the content.** -/
theorem readAt_eq_nil (hc : count ≠ 0) :
    log.readAt off count = [] ↔ log.content.length ≤ off := by
  rw [← locate_eq_none, readAt]
  split
  · rename_i k r hloc
    obtain ⟨hk, hr, -⟩ := locate_eq_some hloc
    rw [hloc, List.getD_eq_getElem _ _ hk, List.take_eq_nil_iff, List.drop_eq_nil_iff]
    simp only [reduceCtorEq, iff_false, not_or]
    omega
  · simp [*]

theorem add_length_readAt_le (hb : log.readAt off count ≠ []) :
    off + (log.readAt off count).length ≤ log.content.length := by
  have hle := (log.readAt_isPrefix off count).length_le
  have hpos := List.length_pos_of_ne_nil hb
  rw [List.length_drop] at hle
  omega

theorem seekOffset_eq (log : CommandLog) (k r : ℕ) :
    log.seekOffset k r = (log.commands.map List.length)[k]?.bind fun s ↦
      if r < s then some (Concat.before (log.commands.map List.length) k + r) else none := by
  rw [seekOffset, List.getElem?_map, Concat.before_map_length]
  cases log.commands[k]? <;> rfl

/-- A seek goes to a byte of the content: the one named. -/
theorem seekOffset_eq_some (h : log.seekOffset k r = some off) :
    ∃ hk : k < log.commands.length, r < log.commands[k].length ∧
      off = (log.commands.take k).flatten.length + r := by
  rw [seekOffset, Option.bind_eq_some_iff] at h
  obtain ⟨c, hc, h⟩ := h
  obtain ⟨hk, rfl⟩ := List.getElem?_eq_some_iff.1 hc
  split at h
  · rename_i hr
    exact ⟨hk, hr, (Option.some_inj.1 h).symm⟩
  · exact absurd h (by simp)

theorem seekOffset_lt (h : log.seekOffset k r = some off) : off < log.content.length := by
  obtain ⟨hk, hr, rfl⟩ := seekOffset_eq_some h
  have hle := Concat.before_le_sum (log.commands.map List.length) (k + 1)
  rw [Concat.before_succ (by simpa using hk), List.getElem_map, Concat.before_map_length,
    ← length_content] at hle
  omega

variable [Platform]

/-- What `aesd_read` answers on a device that holds the log. -/
def read (log : CommandLog) (f_pos : ℤ) (call : ReadCall) : ReadResult :=
  let bytes := log.readAt (SizeT.ofLoff f_pos) call.count
  if call.count = 0 then ⟨0, f_pos, []⟩
  else if !call.lockOk then ⟨-ERESTARTSYS, f_pos, []⟩
  else if bytes = [] then ⟨0, f_pos, []⟩
  else if call.copyOk then ⟨bytes.length, Loff.wrap (f_pos + bytes.length), bytes⟩
  else ⟨-EFAULT, f_pos, []⟩

/-- What `aesd_ioctl` answers on a device that holds the log. -/
def ioctl (log : CommandLog) (f_pos : ℤ) (call : IoctlCall) : ℤ × ℤ :=
  if call.cmd = AESDCHAR_IOCSEEKTO then
    if !call.accessOk || !call.copyOk then (-EFAULT, f_pos)
    else if !call.lockOk then (-EINTR, f_pos)
    else
      match log.seekOffset call.seekto.writeCmd.toNat call.seekto.writeCmdOffset.toNat with
      | some off => (0, off)
      | none => (-EINVAL, f_pos)
  else (-EINVAL, f_pos)

end CommandLog

namespace Driver

variable [Platform] {d : Driver} {log : CommandLog} {extra : List ℕ}

theorem Stores.sizes_eq (h : d.Stores log extra) :
    d.dev.buffer.sizes = log.commands.map List.length := by
  rw [AesdCircularBuffer.sizes, ← List.forall₂_eq_eq_eq, List.forall₂_map_left_iff,
    List.forall₂_map_right_iff]
  exact h.entries.imp fun _ _ hc ↦ hc.size_eq

theorem Stores.length_content_le (h : d.Stores log extra) :
    log.content.length ≤ 10 * Platform.kmallocMax := by
  have hlen : log.commands.length ≤ 10 := h.length_commands ▸ h.wf.size_le
  have hsum : (log.commands.map List.length).sum
      ≤ (log.commands.map List.length).length • Platform.kmallocMax := by
    refine List.sum_le_card_nsmul _ _ fun n hn ↦ ?_
    obtain ⟨c, hc, rfl⟩ := List.mem_map.1 hn
    exact h.small c hc
  rw [List.length_map, nsmul_eq_mul, Nat.cast_id, ← CommandLog.length_content] at hsum
  exact hsum.trans (Nat.mul_le_mul_right _ hlen)

theorem Stores.sizes_sum (h : d.Stores log extra) :
    d.dev.buffer.sizes.sum = log.content.length := by
  rw [h.sizes_eq, CommandLog.length_content]

theorem Stores.sizes_sum_lt (h : d.Stores log extra) :
    d.dev.buffer.sizes.sum < SizeT.bound := by
  have h1 := h.length_content_le
  have h2 := SizeT.fits
  rw [h.sizes_sum]
  omega

/-- The slot of the `k`-th oldest command. -/
theorem Stores.holds_index (h : d.Stores log extra) {k : ℕ} (hk : k < log.commands.length) :
    ∃ e, d.dev.buffer.slot (d.dev.buffer.index k) = .ok e ∧ Holds d.mem e log.commands[k] := by
  have hk' : k < d.dev.buffer.entries.length := h.entries.length_eq ▸ hk
  refine ⟨d.dev.buffer.entries[k], ?_, ?_⟩
  · rw [AesdCircularBuffer.slot_index, AesdCircularBuffer.getElem_entries hk']
  · exact h.entries.get hk' hk

/-- **`aesd_read` reads the log.** -/
theorem aesdRead_eq (h : d.Stores log extra) (f_pos : ℤ) (call : ReadCall) :
    d.aesdRead f_pos call = .ok (log.read f_pos call) := by
  rw [aesdRead, CommandLog.read, h.wf.findEntryOffsetForFpos_eq h.sizes_sum_lt, h.sizes_eq]
  by_cases hc : call.count = 0
  · rw [if_pos hc, if_pos hc]
  rw [if_neg hc, if_neg hc]
  cases hlock : call.lockOk with
  | false => rfl
  | true =>
    simp only [Bool.not_true, Bool.false_eq_true, if_false, ok_bind]
    cases hloc : Concat.locate (log.commands.map List.length) (SizeT.ofLoff f_pos) with
    | none =>
      rw [if_pos ((CommandLog.readAt_eq_nil hc).2 (CommandLog.locate_eq_none.1 hloc))]
      rfl
    | some x =>
      obtain ⟨k, r⟩ := x
      obtain ⟨hk, hr, -⟩ := CommandLog.locate_eq_some hloc
      obtain ⟨e, hslot, ptr, hp, hg, hs⟩ := h.holds_index hk
      have hread : log.readAt (SizeT.ofLoff f_pos) call.count
          = (log.commands[k].drop r).take call.count := by
        simp only [CommandLog.readAt, hloc, List.getD_eq_getElem _ _ hk]
      have hne : (log.commands[k].drop r).take call.count ≠ [] := by
        rw [← hread, ne_eq, CommandLog.readAt_eq_nil hc, ← CommandLog.locate_eq_none, hloc]
        simp
      have hlen : min call.count (log.commands[k].length - r)
          = ((log.commands[k].drop r).take call.count).length := by
        rw [List.length_take, List.length_drop]
      have hbound : ((log.commands[k].drop r).take call.count).length ≤ Platform.kmallocMax := by
        have h1 := h.small _ (List.getElem_mem hk)
        omega
      have hpeek : peek d.mem ptr r ((log.commands[k].drop r).take call.count).length
          = .ok ((log.commands[k].drop r).take call.count) := by
        have htake := List.take_prefix call.count (log.commands[k].drop r)
        simp only [peek, hg]
        rw [if_pos (by omega), ← List.prefix_iff_eq_take.1 htake]
      simp only [Option.map_some, hslot, ok_bind, hp, hs, hr, decide_true, assert_true, hlen, hpeek,
        hread, if_neg hne, SSizeT.ofSize_of_fits (hbound.trans (by omega))]
      exact (apply_ite Except.ok _ _ _).symm

/-- A read in which nothing fails, at a position in the device's range. -/
theorem aesdRead_plain (h : d.Stores log extra) {pos count : ℕ}
    (hpos : pos ≤ 10 * Platform.kmallocMax) (hcount : 0 < count) :
    d.aesdRead pos (.plain count) = .ok ⟨(log.readAt pos count).length,
        ((pos + (log.readAt pos count).length : ℕ) : ℤ), log.readAt pos count⟩ ∧
      pos + (log.readAt pos count).length ≤ 10 * Platform.kmallocMax := by
  have hfit := SizeT.fits
  have hlen := h.length_content_le
  have hoff : SizeT.ofLoff pos = pos := SizeT.ofLoff_natCast (by omega)
  have hend : pos + (log.readAt pos count).length ≤ 10 * Platform.kmallocMax := by
    by_cases hempty : log.readAt pos count = []
    · simpa [hempty] using hpos
    · have := CommandLog.add_length_readAt_le hempty
      omega
  refine ⟨?_, hend⟩
  rw [aesdRead_eq h, CommandLog.read, hoff]
  simp only [ReadCall.plain, if_neg hcount.ne', Bool.not_true, Bool.false_eq_true, if_false,
    if_true]
  by_cases hempty : log.readAt pos count = []
  · simp [hempty]
  · rw [if_neg hempty, ← Int.natCast_add, Loff.wrap_of_fits (by omega)]

/-- **`aesd_ioctl` seeks in the log.** -/
theorem aesdIoctl_eq (h : d.Stores log extra) (f_pos : ℤ) (call : IoctlCall) :
    d.aesdIoctl f_pos call = .ok (log.ioctl f_pos call) := by
  have hoff := h.wf.offsetAt_eq h.sizes_sum_lt call.seekto.writeCmd.toNat
    call.seekto.writeCmdOffset.toNat
  rw [aesdIoctl, CommandLog.ioctl, hoff, h.sizes_eq]
  by_cases hcmd : call.cmd = AESDCHAR_IOCSEEKTO
  swap
  · rw [if_neg hcmd, if_neg hcmd]
  have hsize : iocSize AESDCHAR_IOCSEEKTO = 8 := by decide
  rw [if_pos hcmd, if_pos hcmd, hcmd, if_neg (by simp [hsize])]
  cases call.accessOk with
  | false => rfl
  | true =>
    cases call.copyOk with
    | false => rfl
    | true =>
      cases call.lockOk with
      | false => rfl
      | true =>
        rw [← CommandLog.seekOffset_eq]
        simp only [Bool.not_true, Bool.false_eq_true, if_false, ok_bind, Bool.or_false]
        cases hk : log.seekOffset call.seekto.writeCmd.toNat call.seekto.writeCmdOffset.toNat with
        | none => rfl
        | some off =>
          have hle := (CommandLog.seekOffset_lt hk).le.trans h.length_content_le
          simp only [Loff.wrap_of_fits (hle.trans (by omega))]

/-- `aesd_llseek` hands the content's length to the kernel. -/
theorem aesdLlseek_eq (h : d.Stores log extra) (f_pos : ℤ) (call : LlseekCall) :
    d.aesdLlseek f_pos call = .ok (if !call.lockOk then (-EINTR, f_pos)
      else Platform.fixedSizeLlseek f_pos call.offset call.whence log.content.length) := by
  rw [aesdLlseek, h.wf.bytesSize_eq h.sizes_sum_lt, h.sizes_sum]
  cases call.lockOk with
  | false => rfl
  | true =>
    have hwrap : Loff.wrap log.content.length = log.content.length :=
      Loff.wrap_of_fits (h.length_content_le.trans (by omega))
    simp only [Bool.not_true, Bool.false_eq_true, if_false, ok_bind, hwrap]

end Driver

end Aesd
