import Aesd.Driver.Stream

/-!
# Seeking by command and by byte

`AESDCHAR_IOCSEEKTO` names a byte by its command and the place in it; `lseek` names it by its
position.  `aesd_ioctl` adds up the sizes of the earlier commands for that, `aesd_llseek` only
compares with the size of all of them, and `aesd_read` walks the ring again.
`Driver.seek_agrees` says that they agree, and that a seek that fails changes nothing.
-/

set_option autoImplicit false

namespace Aesd

namespace CommandLog

variable {log : CommandLog} {off k r : ℕ}

/-- Where a place in a command is in the content. -/
theorem seekOffset_iff : log.seekOffset k r = some off ↔
    ∃ hk : k < log.commands.length, r < log.commands[k].length ∧
      off = (log.commands.take k).flatten.length + r := by
  constructor
  · exact seekOffset_eq_some
  · rintro ⟨hk, hr, rfl⟩
    rw [seekOffset, List.getElem?_eq_getElem hk, Option.bind_some, if_pos hr]

/-- A position in the content is one place in one command. -/
theorem seekOffset_iff_locate : log.seekOffset k r = some off ↔
    Concat.locate (log.commands.map List.length) off = some (k, r) := by
  rw [seekOffset_iff, Concat.locate_eq_some, ← Concat.before_map_length]
  simp only [List.length_map, List.getElem_map]

/-- What the content has from there on. -/
theorem drop_content (h : log.seekOffset k r = some off) :
    ∃ hk : k < log.commands.length,
      log.content.drop off = log.commands[k].drop r ++ (log.commands.drop (k + 1)).flatten := by
  obtain ⟨hk, -, hdrop⟩ := locate_eq_some (seekOffset_iff_locate.1 h)
  exact ⟨hk, hdrop⟩

end CommandLog

/-- The call names a byte of a stored command, and nothing that it needs fails. -/
def IoctlCall.Seeks (call : IoctlCall) (d : Driver) : Prop :=
  call.cmd = AESDCHAR_IOCSEEKTO ∧ call.accessOk = true ∧ call.copyOk = true ∧ call.lockOk = true ∧
    ∃ h : call.seekto.writeCmd.toNat < d.commands.length,
      call.seekto.writeCmdOffset.toNat < d.commands[call.seekto.writeCmd.toNat].length

/-- A call of `ioctl` with a command, in which nothing fails. -/
def IoctlCall.plain (seekto : AesdSeekto) : IoctlCall :=
  ⟨AESDCHAR_IOCSEEKTO, seekto, true, true, true⟩

/-- `lseek` with `SEEK_SET`, which gets the lock. -/
def LlseekCall.set (offset : ℤ) : LlseekCall := ⟨offset, SEEK_SET, true⟩

namespace Driver

/-- The position of a byte of a stored command. -/
def positionOf (d : Driver) (seekto : AesdSeekto) : ℕ :=
  ((d.commands.take seekto.writeCmd.toNat).map List.length).sum + seekto.writeCmdOffset.toNat

/-- What the device has from there on. -/
def contentFrom (d : Driver) (seekto : AesdSeekto) : List Byte :=
  (d.commands.getD seekto.writeCmd.toNat []).drop seekto.writeCmdOffset.toNat ++
    (d.commands.drop (seekto.writeCmd.toNat + 1)).flatten

section Agreement

variable [Platform]

/-- Reads of one open file, one after the other: what they answer. -/
def aesdReads (d : Driver) : ℤ → List ReadCall → Except Bug (List ReadResult)
  | _, [] => .ok []
  | f_pos, c :: cs => do
    let r ← d.aesdRead f_pos c
    let rs ← d.aesdReads r.f_pos cs
    .ok (r :: rs)

variable {d : Driver} {log : CommandLog} {extra : List ℕ} {p : ℕ}

/-! ## Reading to the end -/

/-- A read in which nothing fails does not return an error. -/
theorem read_retval_nonneg {call : ReadCall} (hlock : call.lockOk = true)
    (hcopy : call.copyOk = true) (f_pos : ℤ) : 0 ≤ (log.read f_pos call).retval := by
  rw [CommandLog.read]
  split_ifs <;> first | exact le_refl _ | exact Int.natCast_nonneg _ | simp_all

/-- **Reads until one returns `0`** have returned the content from their start on; and enough of
them come to that if nothing fails. -/
theorem aesdReads_content (h : d.Represents log) (calls : List ReadCall)
    (hcount : ∀ c ∈ calls, 0 < c.count) (hp : p < SizeT.bound) :
    ∃ rs, d.aesdReads p calls = .ok rs ∧ rs.flatMap ReadResult.data <+: log.content.drop p ∧
      ((∃ r ∈ rs, r.retval = 0) → rs.flatMap ReadResult.data = log.content.drop p) ∧
      ((∀ c ∈ calls, c.lockOk = true ∧ c.copyOk = true) →
        log.content.length - p < calls.length → ∃ r ∈ rs, r.retval = 0) := by
  induction calls generalizing p with
  | nil => exact ⟨[], rfl, List.nil_prefix, by simp, fun _ hlt ↦ absurd hlt (by simp)⟩
  | cons c calls ih =>
    obtain ⟨r, hr, hdata, hf, -, hlt, hret, hzero⟩ :=
      read_cases h hp (hcount c (List.mem_cons_self ..))
    obtain ⟨rs, hrs, hpre, heof, hprog⟩ := ih (fun c hc ↦ hcount c (List.mem_cons_of_mem _ hc)) hlt
    push_cast at hrs
    have hall : r.data ++ rs.flatMap ReadResult.data <+: log.content.drop p :=
      Concat.isPrefix_drop_append hdata hpre
    refine ⟨r :: rs, by simp only [aesdReads, hr, hf, hrs, ok_bind], by simpa using hall, ?_, ?_⟩
    · rintro ⟨r', hr', h0⟩
      rw [List.flatMap_cons]
      rcases List.mem_cons.1 hr' with rfl | hr'
      · have hnil : log.content.drop p = [] := List.drop_eq_nil_iff.2 (hzero.1 h0).2
        rw [hnil] at hall ⊢
        exact List.prefix_nil.1 hall
      · rw [heof ⟨r', hr', h0⟩, ← List.drop_drop]
        exact (List.prefix_append_drop hdata).symm
    · intro hok hlen
      by_cases h0 : r.retval = 0
      · exact ⟨r, List.mem_cons_self .., h0⟩
      obtain ⟨hlock, hcopy⟩ := hok c (List.mem_cons_self ..)
      have hnonneg : 0 ≤ r.retval := by
        have heq := aesdRead_eq h.toStores p c
        rw [hr, Except.ok.injEq] at heq
        rw [heq]
        exact read_retval_nonneg hlock hcopy p
      have hpos : 0 < r.data.length := by omega
      have hle := hdata.length_le
      rw [List.length_drop] at hle
      rw [List.length_cons] at hlen
      obtain ⟨r', hr', h0'⟩ := hprog (fun c hc ↦ hok c (List.mem_cons_of_mem _ hc)) (by omega)
      exact ⟨r', List.mem_cons_of_mem _ hr', h0'⟩

/-! ## The two ways to seek -/

theorem seeks_iff (h : d.Stores log extra) {call : IoctlCall} : call.Seeks d ↔
    call.cmd = AESDCHAR_IOCSEEKTO ∧ call.accessOk = true ∧ call.copyOk = true ∧ call.lockOk = true ∧
      log.seekOffset call.seekto.writeCmd.toNat call.seekto.writeCmdOffset.toNat
        = some (d.positionOf call.seekto) := by
  rw [IoctlCall.Seeks, h.commands_eq, CommandLog.seekOffset_iff, positionOf, h.commands_eq,
    List.length_flatten]
  simp only [and_true]

theorem positionOf_eq (h : d.Stores log extra) {seekto : AesdSeekto} {off : ℕ}
    (hoff : log.seekOffset seekto.writeCmd.toNat seekto.writeCmdOffset.toNat = some off) :
    d.positionOf seekto = off := by
  obtain ⟨-, -, rfl⟩ := CommandLog.seekOffset_iff.1 hoff
  rw [positionOf, h.commands_eq, List.length_flatten]

/-- **What `aesd_ioctl` does**: it goes to the byte named, or nothing happens. -/
theorem aesdIoctl_cases (h : d.Stores log extra) (f_pos : ℤ) (call : IoctlCall) :
    call.Seeks d ∧ d.aesdIoctl f_pos call = .ok (0, (d.positionOf call.seekto : ℤ)) ∨
      ¬ call.Seeks d ∧ ∃ r < 0, d.aesdIoctl f_pos call = .ok (r, f_pos) := by
  rw [aesdIoctl_eq h, seeks_iff h, CommandLog.ioctl]
  by_cases hcmd : call.cmd = AESDCHAR_IOCSEEKTO
  swap
  · exact Or.inr ⟨fun hs ↦ hcmd hs.1, -EINVAL, by decide, by rw [if_neg hcmd]⟩
  rw [if_pos hcmd]
  cases haccess : call.accessOk with
  | false => exact Or.inr ⟨by simp, -EFAULT, by decide, rfl⟩
  | true =>
    cases hcopy : call.copyOk with
    | false => exact Or.inr ⟨by simp, -EFAULT, by decide, rfl⟩
    | true =>
      cases hlock : call.lockOk with
      | false => exact Or.inr ⟨by simp, -EINTR, by decide, rfl⟩
      | true =>
        cases hoff : log.seekOffset call.seekto.writeCmd.toNat call.seekto.writeCmdOffset.toNat with
        | none => exact Or.inr ⟨by simp, -EINVAL, by decide, rfl⟩
        | some off =>
          rw [positionOf_eq h hoff]
          exact Or.inl ⟨⟨hcmd, rfl, rfl, rfl, rfl⟩, rfl⟩

/-- `lseek` with `SEEK_SET` goes anywhere from the start to the end of the content. -/
theorem aesdLlseek_set (h : d.Stores log extra) (f_pos offset : ℤ) :
    d.aesdLlseek f_pos (.set offset) = .ok (if 0 ≤ offset ∧ offset ≤ log.content.length
      then (offset, offset) else (-EINVAL, f_pos)) := by
  rw [aesdLlseek_eq h]
  exact congrArg _ (Platform.fixedSizeLlseek_set _ _ _)

/-- Every byte of the content is named by one command and place. -/
theorem existsUnique_seekto (h : d.Stores log extra) {off : ℕ} (hoff : off < log.content.length) :
    ∃! seekto : AesdSeekto,
      log.seekOffset seekto.writeCmd.toNat seekto.writeCmdOffset.toNat = some off := by
  rw [CommandLog.length_content] at hoff
  obtain ⟨⟨k, r⟩, hloc⟩ := Concat.exists_locate hoff
  obtain ⟨hk, hr, -⟩ := CommandLog.locate_eq_some hloc
  have hlen : log.commands.length ≤ 10 := h.length_commands ▸ h.wf.size_le
  have hsmall := h.small _ (List.getElem_mem hk)
  have hmax := Platform.kmallocMax_lt
  have hk' : (UInt32.ofNat k).toNat = k := UInt32.toNat_ofNat_of_lt' (by rw [UInt32.size]; omega)
  have hr' : (UInt32.ofNat r).toNat = r := UInt32.toNat_ofNat_of_lt' (by rw [UInt32.size]; omega)
  refine ⟨⟨UInt32.ofNat k, UInt32.ofNat r⟩, ?_, ?_⟩
  · show log.seekOffset (UInt32.ofNat k).toNat (UInt32.ofNat r).toNat = some off
    rw [hk', hr', CommandLog.seekOffset_iff_locate, hloc]
  · rintro ⟨x, y⟩ hxy
    have hxy : log.seekOffset x.toNat y.toNat = some off := hxy
    rw [CommandLog.seekOffset_iff_locate, hloc, Option.some_inj, Prod.mk.injEq] at hxy
    obtain ⟨rfl, rfl⟩ := hxy
    rw [UInt32.ofNat_toNat, UInt32.ofNat_toNat]

theorem contentFrom_eq (h : d.Stores log extra) {seekto : AesdSeekto}
    (hoff : log.seekOffset seekto.writeCmd.toNat seekto.writeCmdOffset.toNat
      = some (d.positionOf seekto)) :
    d.contentFrom seekto = log.content.drop (d.positionOf seekto) := by
  obtain ⟨hk, hdrop⟩ := CommandLog.drop_content hoff
  rw [contentFrom, h.commands_eq, List.getD_eq_getElem _ _ hk, hdrop]

/-- An `ioctl` goes to a position if and only if it names it. -/
theorem call_ioctl_plain {s : Node} {file off : ℕ} {log : CommandLog} {extra : List ℕ}
    {seekto : AesdSeekto} (h : s.driver.Stores log extra) :
    s.call (.ioctl file (.plain seekto)) = .ok (0, s.seek file off) ↔
      log.seekOffset seekto.writeCmd.toNat seekto.writeCmdOffset.toNat = some off := by
  have hseeks : (IoctlCall.plain seekto).Seeks s.driver ↔ _ := seeks_iff h
  constructor
  · intro hcall
    rcases aesdIoctl_cases h (s.f_pos file) (.plain seekto) with ⟨hs, heq⟩ | ⟨-, r, hr, heq⟩
    · simp only [Node.call, heq, ok_bind, Except.ok.injEq, Prod.mk.injEq, true_and] at hcall
      have hpos := congrFun (congrArg Node.f_pos hcall) file
      simp only [Node.seek, if_true, Int.natCast_inj] at hpos
      obtain ⟨-, -, -, -, hoff⟩ := hseeks.1 hs
      rw [hpos] at hoff
      exact hoff
    · simp only [Node.call, heq, ok_bind, Except.ok.injEq, Prod.mk.injEq] at hcall
      omega
  · intro hoff
    have hpos : s.driver.positionOf (IoctlCall.plain seekto).seekto = off := positionOf_eq h hoff
    rcases aesdIoctl_cases h (s.f_pos file) (.plain seekto) with ⟨-, heq⟩ | ⟨hno, -⟩
    · simp only [Node.call, heq, ok_bind, hpos]
    · exact absurd (hseeks.2 ⟨rfl, rfl, rfl, rfl, hoff.trans (congrArg some hpos.symm)⟩) hno

/-- **Seeking by command and by byte agree.**  In every state of the driver, whatever the position
of the open file: an `ioctl` returns `0` exactly if it names a byte of a stored command and nothing
it needs fails, and changes nothing if it does not.  If it does, `lseek` to the byte's position has
the same effect, and from there reads give the rest of the command and the commands after it, and
come to their end.  Every position that `lseek` accepts, but the end of the content, is reached by
exactly one command and place. -/
theorem seek_agrees {cs : List Call} {rets : List ℤ} {s₀ s : Node}
    (hreach : Node.init.calls cs = .ok (rets, s₀)) (hdriver : s.driver = s₀.driver) (file : ℕ) :
    (∀ call : IoctlCall, ∃ r s', s.call (.ioctl file call) = .ok (r, s') ∧
      (r = 0 ↔ call.Seeks s.driver) ∧ (r ≠ 0 → s' = s) ∧
      (r = 0 → s' = s.seek file (s.driver.positionOf call.seekto) ∧
        s.call (.llseek file (.set (s.driver.positionOf call.seekto)))
          = .ok ((s.driver.positionOf call.seekto : ℤ), s') ∧
        ∀ calls : List ReadCall, (∀ c ∈ calls, 0 < c.count) →
          ∃ rs, s'.driver.aesdReads (s'.f_pos file) calls = .ok rs ∧
            ((∃ r ∈ rs, r.retval = 0) →
              rs.flatMap ReadResult.data = s.driver.contentFrom call.seekto) ∧
            ((∀ c ∈ calls, c.lockOk = true ∧ c.copyOk = true) →
              (s.driver.contentFrom call.seekto).length < calls.length →
              ∃ r ∈ rs, r.retval = 0))) ∧
    ∀ offset r s', s.call (.llseek file (.set offset)) = .ok (r, s') → 0 ≤ r →
      offset ≠ s.driver.content.length →
      ∃! seekto, s.call (.ioctl file (.plain seekto)) = .ok (0, s') := by
  obtain ⟨_, s₀', log, heq, hrep⟩ := Node.calls_represents (s := .init) represents_init cs
  rw [hreach, Except.ok.injEq, Prod.mk.injEq] at heq
  obtain ⟨-, rfl⟩ := heq
  rw [← hdriver] at hrep
  have hfit := SizeT.fits
  have hcontent := hrep.toStores.length_content_le
  constructor
  · intro call
    rcases aesdIoctl_cases hrep.toStores (s.f_pos file) call with
      ⟨hseeks, heq⟩ | ⟨hseeks, r, hr, heq⟩
    · obtain ⟨-, -, -, -, hoff⟩ := (seeks_iff hrep.toStores).1 hseeks
      have hlt := CommandLog.seekOffset_lt hoff
      refine ⟨0, s.seek file (s.driver.positionOf call.seekto), ?_, by simp [hseeks], by simp,
        fun _ ↦ ⟨rfl, ?_, fun calls hcount ↦ ?_⟩⟩
      · simp only [Node.call, heq, ok_bind]
      · simp only [Node.call, aesdLlseek_set hrep.toStores, ok_bind]
        rw [if_pos ⟨Int.natCast_nonneg _, by exact_mod_cast hlt.le⟩]
      · obtain ⟨rs, hrs, -, heof, hprog⟩ :=
          aesdReads_content hrep calls hcount (p := s.driver.positionOf call.seekto) (by omega)
        rw [contentFrom_eq hrep.toStores hoff]
        refine ⟨rs, ?_, heof, fun hok hlen ↦ hprog hok (by rwa [List.length_drop] at hlen)⟩
        show s.driver.aesdReads (if file = file then _ else _) calls = _
        rw [if_pos rfl]
        exact hrs
    · refine ⟨r, s, ?_, iff_of_false hr.ne hseeks, fun _ ↦ rfl, fun h0 ↦ absurd h0 hr.ne⟩
      simp only [Node.call, heq, ok_bind, Node.seek_self]
  · intro offset r s' hcall hr hne
    rw [hrep.toStores.content_eq] at hne
    simp only [Node.call, aesdLlseek_set hrep.toStores, ok_bind] at hcall
    split at hcall
    swap
    · simp only [Except.ok.injEq, Prod.mk.injEq] at hcall
      obtain ⟨rfl, -⟩ := hcall
      exact absurd hr (by decide)
    rename_i hrange
    simp only [Except.ok.injEq, Prod.mk.injEq] at hcall
    obtain ⟨-, rfl⟩ := hcall
    obtain ⟨off, rfl⟩ := Int.eq_ofNat_of_zero_le hrange.1
    have hlt : off < log.content.length := by omega
    obtain ⟨seekto, hseekto, hunique⟩ := existsUnique_seekto hrep.toStores hlt
    exact ⟨seekto, (call_ioctl_plain hrep.toStores).2 hseekto,
      fun seekto' hcall' ↦ hunique seekto' ((call_ioctl_plain hrep.toStores).1 hcall')⟩

end Agreement

attribute [local instance] linux64 in
/-- Two commands, and the second byte of the second one. -/
theorem seek_agrees_two_commands : ∃ s s' rs,
    Node.init.calls [.write (.plain [97, 10]), .write (.plain [98, 99, 10])] = .ok ([2, 3], s) ∧
      s.call (.ioctl 7 (.plain ⟨1, 1⟩)) = .ok (0, s') ∧ s.call (.llseek 7 (.set 3)) = .ok (3, s') ∧
      s'.driver.aesdReads (s'.f_pos 7) [.plain 1, .plain 5, .plain 5] = .ok rs ∧
      rs.flatMap ReadResult.data = [99, 10] := by
  obtain ⟨rs, s, log, heq, -⟩ := Node.calls_represents (s := .init) represents_init
    [.write (.plain [97, 10]), .write (.plain [98, 99, 10])]
  have hs : (Node.init.calls [.write (.plain [97, 10]), .write (.plain [98, 99, 10])]).map
      (fun x ↦ (x.1, x.2.driver)) = .ok ([2, 3], after [.plain [97, 10], .plain [98, 99, 10]]) := by
    decide +kernel
  rw [heq] at hs
  obtain ⟨rfl, hdriver⟩ := Prod.mk.injEq .. ▸ Except.ok.inj hs
  have hfacts :
      (after [.plain [97, 10], .plain [98, 99, 10]]).commands = [[97, 10], [98, 99, 10]] := by
    decide +kernel
  obtain ⟨r, s', hcall, hzero, -, hsame⟩ := (seek_agrees heq rfl 7).1 (.plain ⟨1, 1⟩)
  have hseeks : (IoctlCall.plain ⟨1, 1⟩).Seeks s.driver := by
    rw [hdriver]
    refine ⟨rfl, rfl, rfl, rfl, ?_⟩
    rw [hfacts]
    exact ⟨by decide, by decide⟩
  obtain rfl := hzero.2 hseeks
  have hpos : s.driver.positionOf ⟨1, 1⟩ = 3 := by
    rw [hdriver, positionOf, hfacts]
    rfl
  have hfrom : s.driver.contentFrom ⟨1, 1⟩ = [99, 10] := by
    rw [hdriver, contentFrom, hfacts]
    rfl
  obtain ⟨hs', hseek, hreads⟩ := hsame rfl
  obtain ⟨rs, hrs, heof, hprog⟩ := hreads [.plain 1, .plain 5, .plain 5] (by decide)
  refine ⟨s, s', rs, heq, hcall, ?_, hrs, ?_⟩
  · have hpos' : s.driver.positionOf (IoctlCall.plain ⟨1, 1⟩).seekto = 3 := hpos
    rw [hpos'] at hseek
    exact hseek
  · have hfrom' : s.driver.contentFrom (IoctlCall.plain ⟨1, 1⟩).seekto = [99, 10] := hfrom
    rw [hfrom'] at heof hprog
    exact heof (hprog (by decide) (by decide))

end Driver

end Aesd
