import Aesd.Driver.Seeking

/-!
# Positions and the width of `size_t`

The kernel's positions have 64 bits and a sign, the driver's walks add up sizes in `size_t`.  The
sums are exact, and so are the positions that a read and the seek command leave behind.  The
conversion of a position on entry to `aesd_read` is not, where `size_t` is narrower: a position is
then taken for the one it is congruent to.  `Driver.read_exact_iff` says when that is no harm.
-/

set_option autoImplicit false

namespace Aesd

/-- A kernel with a `size_t` of 32 bits. -/
abbrev linux32 : Platform :=
  { linux64 with
    sizeBits := 32
    le_sizeBits := by decide
    sizeBits_le := linux64.le_sizeBits
    kmalloc_fits := by decide }

namespace Driver

section Widths

variable [Platform]

/-- **What a read at a position is to do**: give bytes that the content has there, as many as it
says, and move on by as many, or return `0` at the content's end and beyond. -/
def ReadsExactly (d : Driver) (f_pos : ℕ) (call : ReadCall) : Prop :=
  ∃ r, d.aesdRead f_pos call = .ok r ∧
    if f_pos < d.content.length then
      if call.copyOk then r.data ≠ [] ∧ r.data <+: d.content.drop f_pos ∧
        r.data.length ≤ call.count ∧ r.retval = r.data.length ∧ r.f_pos = f_pos + r.data.length
      else r = ⟨-EFAULT, f_pos, []⟩
    else r = ⟨0, f_pos, []⟩

variable {d : Driver} {log : CommandLog} {f_pos : ℕ} {call : ReadCall}

theorem ofLoff_natCast_eq (n : ℕ) : SizeT.ofLoff n = n % SizeT.bound := by
  rw [SizeT.ofLoff, ← Int.natCast_mod, Int.toNat_natCast]

/-- `aesd_read` with the lock, at the position that it takes `f_pos` for. -/
theorem read_locked (h : d.Represents log) (hcount : 0 < call.count) (hlock : call.lockOk = true) :
    ∃ r, d.aesdRead f_pos call = .ok r ∧
      if f_pos % SizeT.bound < log.content.length then
        if call.copyOk then r.data ≠ [] ∧ r.data <+: log.content.drop (f_pos % SizeT.bound) ∧
          r.data.length ≤ call.count ∧ r.retval = r.data.length ∧
          r.f_pos = Loff.wrap (f_pos + r.data.length)
        else r = ⟨-EFAULT, f_pos, []⟩
      else r = ⟨0, f_pos, []⟩ := by
  refine ⟨_, aesdRead_eq h.toStores f_pos call, ?_⟩
  have hnil : log.readAt (f_pos % SizeT.bound) call.count = [] ↔
      log.content.length ≤ f_pos % SizeT.bound := CommandLog.readAt_eq_nil hcount.ne'
  rw [CommandLog.read, ofLoff_natCast_eq]
  simp only [if_neg hcount.ne', hlock, Bool.not_true, Bool.false_eq_true, if_false]
  split
  · rename_i hlt
    have hne : log.readAt (f_pos % SizeT.bound) call.count ≠ [] := by
      intro h
      have := hnil.1 h
      omega
    rw [if_neg hne]
    cases call.copyOk with
    | true =>
      simp only [if_true]
      exact ⟨hne, log.readAt_isPrefix _ _, log.length_readAt_le _ _, trivial, trivial⟩
    | false => rfl
  · rename_i hge
    rw [if_pos (hnil.2 (by omega))]

/-- **When a read is exact.**  In every state of the driver, at every position the kernel may pass:
a read that gets the lock does what it is to do if and only if the position fits in `size_t`, or the
one it is taken for lies behind the content too.  (A read that does not get the lock does nothing.)
The sums of the walks do not wrap, and the seek command stores the exact position. -/
theorem read_exact_iff {cs : List Call} {rets : List ℤ} {s : Node}
    (hreach : Node.init.calls cs = .ok (rets, s)) (hcount : 0 < call.count) :
    (call.lockOk = true → (s.driver.ReadsExactly f_pos call ↔
      f_pos < SizeT.bound ∨ s.driver.content.length ≤ f_pos % SizeT.bound)) ∧
    (call.lockOk = false → s.driver.aesdRead f_pos call = .ok ⟨-ERESTARTSYS, f_pos, []⟩) ∧
    (∀ k (hk : k < s.driver.dev.buffer.sizes.length),
      SizeT.add (Concat.before s.driver.dev.buffer.sizes k) s.driver.dev.buffer.sizes[k]
        = Concat.before s.driver.dev.buffer.sizes k + s.driver.dev.buffer.sizes[k]) ∧
    ∀ (f_pos : ℤ) (call : IoctlCall), ∃ r pos, s.driver.aesdIoctl f_pos call = .ok (r, pos) ∧
      pos = if r = 0 then (s.driver.positionOf call.seekto : ℤ) else f_pos := by
  obtain ⟨_, s', log, heq, hrep⟩ := Node.calls_represents (s := .init) represents_init cs
  rw [hreach, Except.ok.injEq, Prod.mk.injEq] at heq
  obtain ⟨-, rfl⟩ := heq
  have hlen := hrep.toStores.length_content_le
  have hfit := SizeT.fits
  have hbound := SizeT.bound_le
  refine ⟨fun hlock ↦ ?_, fun hlock ↦ ?_, fun k hk ↦ ?_, fun f_pos call ↦ ?_⟩
  · obtain ⟨r, hr, hcases⟩ := read_locked hrep hcount hlock
    rw [ReadsExactly, hrep.toStores.content_eq, hr]
    constructor
    · rintro ⟨_, hr', hexact⟩
      obtain rfl := Except.ok.inj hr'
      by_contra hcon
      obtain ⟨hge, hlt⟩ := not_or.1 hcon
      rw [if_pos (by omega)] at hcases
      rw [if_neg (by omega)] at hexact
      subst hexact
      split at hcases
      · exact hcases.1 rfl
      · exact absurd (congrArg ReadResult.retval hcases) (by simp [EFAULT])
    · intro hcond
      refine ⟨r, rfl, ?_⟩
      by_cases hin : f_pos < log.content.length
      · have hmod : f_pos % SizeT.bound = f_pos := Nat.mod_eq_of_lt (by omega)
        rw [hmod, if_pos hin] at hcases
        rw [if_pos hin]
        split at hcases
        · rename_i hcopy
          obtain ⟨hne, hpre, hle, hret, hwrap⟩ := hcases
          have hle' := hpre.length_le
          rw [List.length_drop] at hle'
          have hexact : Loff.wrap (f_pos + r.data.length) = f_pos + r.data.length := by
            rw [← Int.natCast_add]
            exact Loff.wrap_natCast (by omega)
          rw [if_pos hcopy]
          exact ⟨hne, hpre, hle, hret, hwrap.trans hexact⟩
        · rename_i hcopy
          rw [if_neg hcopy]
          exact hcases
      · have hge : ¬ f_pos % SizeT.bound < log.content.length := by
          rcases hcond with hlt | hge
          · rwa [Nat.mod_eq_of_lt hlt]
          · omega
        rw [if_neg hge] at hcases
        rw [if_neg hin]
        exact hcases
  · rw [aesdRead_eq hrep.toStores, CommandLog.read, if_neg hcount.ne', hlock]
    rfl
  · have hle := Concat.before_le_sum s.driver.dev.buffer.sizes (k + 1)
    rw [Concat.before_succ hk] at hle
    exact SizeT.add_of_lt (hle.trans_lt hrep.toStores.sizes_sum_lt)
  · rcases aesdIoctl_cases hrep.toStores f_pos call with ⟨-, heq⟩ | ⟨-, r, hr, heq⟩
    · exact ⟨0, _, heq, by rw [if_pos rfl]⟩
    · exact ⟨r, _, heq, by rw [if_neg hr.ne]⟩

/-- Where `size_t` has 64 bits every position fits. -/
theorem lt_bound_of_wide (h : Platform.sizeBits = 64) (hpos : f_pos < 2 ^ 63) :
    f_pos < SizeT.bound := by
  rw [SizeT.bound, h]
  omega

end Widths

attribute [local instance] linux32 in
/-- A line of two bytes is stored. -/
theorem calls_line : ∃ s, Node.init.calls [.write (.plain [97, 10])] = .ok ([2], s) ∧
    s.driver = after [.plain [97, 10]] := by
  obtain ⟨rs, s, log, heq, -⟩ := Node.calls_represents (s := .init) represents_init
    [.write (.plain [97, 10])]
  have hs : (Node.init.calls [.write (.plain [97, 10])]).map
      (fun x ↦ (x.1, x.2.driver)) = .ok ([2], after [.plain [97, 10]]) := by decide +kernel
  rw [heq] at hs
  obtain ⟨rfl, hdriver⟩ := Prod.mk.injEq .. ▸ Except.ok.inj hs
  exact ⟨s, heq, hdriver⟩

attribute [local instance] linux32 in
/-- The last byte of the content, and the first position that is taken for another one. -/
theorem read_exact_iff_narrow : ∃ s, Node.init.calls [.write (.plain [97, 10])] = .ok ([2], s) ∧
    s.driver.ReadsExactly 1 (.plain 4) ∧ ¬ s.driver.ReadsExactly (2 ^ 32) (.plain 4) := by
  obtain ⟨s, heq, hdriver⟩ := calls_line
  have hcontent : (after [.plain [97, 10]]).content = [97, 10] := by decide +kernel
  have hiff : ∀ f_pos, s.driver.ReadsExactly f_pos (.plain 4) ↔
      f_pos < SizeT.bound ∨ s.driver.content.length ≤ f_pos % SizeT.bound := fun _ ↦
    (read_exact_iff heq (by decide)).1 rfl
  refine ⟨s, heq, (hiff 1).2 (Or.inl (by decide +kernel)), fun h ↦ ?_⟩
  have hcond := (hiff (2 ^ 32)).1 h
  rw [hdriver, hcontent] at hcond
  exact absurd hcond (by decide +kernel)

attribute [local instance] linux32 in
/-- Two bytes are stored, and a read at `2 ^ 32` gives the first of them. -/
theorem read_wraps : ∃ s r, Node.init.calls [.write (.plain [97, 10])] = .ok ([2], s) ∧
    s.driver.content.length ≤ 2 ^ 32 ∧ s.driver.aesdRead ((2 ^ 32 : ℕ) : ℤ) (.plain 1) = .ok r ∧
    r.retval = 1 ∧ r.data = [97] := by
  obtain ⟨s, heq, hdriver⟩ := calls_line
  have hfacts : (after [.plain [97, 10]]).content.length ≤ 2 ^ 32 ∧
      (after [.plain [97, 10]]).aesdRead ((2 ^ 32 : ℕ) : ℤ) (.plain 1)
        = .ok ⟨1, 2 ^ 32 + 1, [97]⟩ := by decide +kernel
  rw [← hdriver] at hfacts
  exact ⟨s, _, heq, hfacts.1, hfacts.2, rfl, rfl⟩

end Driver

end Aesd
