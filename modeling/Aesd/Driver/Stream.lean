import Aesd.Driver.Ownership

/-!
# Reading a stream

A user reads an open file until a read returns `0`, with any counts, while others write.  Each read
stops where a command ends, so the stream is put together from many of them; as long as no command
is evicted, what is put together is the content from the start position on
(`Driver.read_stream`).

`Driver.ReadRun` is such a run: the reads of one open file and the writes between them.
-/

set_option autoImplicit false

namespace Aesd

/-- The call makes `aesd_circular_buffer_add_entry` evict a command: it was accepted, it ends a
command, and the ring is full. -/
def WriteCall.Evicts (call : WriteCall) (d : Driver) (retval : ℤ) : Prop :=
  0 < retval ∧ NewlineTerminated call.userBuf ∧ d.dev.buffer.full = true

instance (call : WriteCall) (d : Driver) (retval : ℤ) : Decidable (call.Evicts d retval) :=
  inferInstanceAs (Decidable (_ ∧ _))

namespace Driver

section Streams

variable [Platform]

/-- A run of reads of one open file, with writes between them that evict nothing.  The list are the
bytes the reads returned. -/
inductive ReadRun : Driver → ℤ → List Byte → Driver → ℤ → Prop
  /-- No call. -/
  | nil (d : Driver) (f_pos : ℤ) : ReadRun d f_pos [] d f_pos
  /-- A read. -/
  | read {d d' : Driver} {f_pos f_pos' : ℤ} {bytes : List Byte} {call : ReadCall} {r : ReadResult}
      (hcount : 0 < call.count) (hread : d.aesdRead f_pos call = .ok r)
      (hrun : ReadRun d r.f_pos bytes d' f_pos') : ReadRun d f_pos (r.data ++ bytes) d' f_pos'
  /-- A write, by whomever. -/
  | write {d d₁ d' : Driver} {f_pos f_pos' : ℤ} {bytes : List Byte} {call : WriteCall} {retval : ℤ}
      (hwrite : d.aesdWrite call = .ok (retval, d₁)) (hevict : ¬ call.Evicts d retval)
      (hrun : ReadRun d₁ f_pos bytes d' f_pos') : ReadRun d f_pos bytes d' f_pos'

variable {d d' : Driver} {log : CommandLog} {f_pos' : ℤ} {bytes : List Byte} {p : ℕ}

/-- A write that evicts nothing only adds to the content. -/
theorem aesdWrite_content {call : WriteCall} {retval : ℤ} (h : d.Represents log)
    (hw : d.aesdWrite call = .ok (retval, d')) (he : ¬ call.Evicts d retval) :
    ∃ log', d'.Represents log' ∧ log.content <+: log'.content := by
  obtain ⟨r, d₁, heq, hrep, -⟩ := aesdWrite_step h call
  rw [hw, Except.ok.injEq, Prod.mk.injEq] at heq
  obtain ⟨rfl, rfl⟩ := heq
  refine ⟨_, hrep, ?_⟩
  by_cases hpos : 0 < retval
  swap
  · rw [if_neg hpos]
  rw [if_pos hpos]
  by_cases ht : NewlineTerminated call.userBuf
  · have hlt : log.commands.length < MAX_WRITE_OPERATIONS := by
      rw [h.toStores.length_commands]
      exact h.wf.size_lt (by simpa using fun hf ↦ he ⟨hpos, ht, hf⟩)
    rw [CommandLog.write_of_terminated ht, CommandLog.content, CommandLog.content,
      Ring.rtake_concat_of_lt hlt, List.flatten_append]
    exact List.prefix_append _ _
  · rw [CommandLog.write_of_not_terminated ht]
    exact List.prefix_rfl

/-- One read at a position that fits in `size_t`. -/
theorem read_cases (h : d.Represents log) (hp : p < SizeT.bound) {call : ReadCall}
    (hcount : 0 < call.count) :
    ∃ r, d.aesdRead p call = .ok r ∧ r.data <+: log.content.drop p ∧
      r.f_pos = p + r.data.length ∧ r.data.length ≤ call.count ∧ p + r.data.length < SizeT.bound ∧
      (r.retval = r.data.length ∨ r.retval < 0 ∧ r.data = []) ∧
      (r.retval = 0 ↔ call.lockOk = true ∧ log.content.length ≤ p) := by
  refine ⟨log.read p call, aesdRead_eq h.toStores p call, ?_⟩
  have hnil : log.readAt p call.count = [] ↔ log.content.length ≤ p :=
    CommandLog.readAt_eq_nil hcount.ne'
  rw [CommandLog.read, SizeT.ofLoff_natCast hp]
  simp only [if_neg hcount.ne']
  cases hlock : call.lockOk with
  | false => simp [ERESTARTSYS, hp]
  | true =>
    simp only [Bool.not_true, Bool.false_eq_true, if_false, true_and]
    by_cases hempty : log.readAt p call.count = []
    · simp [hempty, hp, hnil.1 hempty]
    · rw [if_neg hempty]
      have hlt : ¬ log.content.length ≤ p := fun hle ↦ hempty (hnil.2 hle)
      have hend := CommandLog.add_length_readAt_le hempty
      have hlen := h.toStores.length_content_le
      have hfit := SizeT.fits
      have hpos := List.length_pos_of_ne_nil hempty
      cases call.copyOk with
      | false => simp [EFAULT, hp, hlt]
      | true =>
        have hwrap : Loff.wrap ((p : ℤ) + (log.readAt p call.count).length)
            = p + (log.readAt p call.count).length := by
          rw [← Int.natCast_add]
          exact Loff.wrap_of_fits (by omega)
        simp only [if_true, hlt, iff_false]
        exact ⟨log.readAt_isPrefix p call.count, hwrap, log.length_readAt_le _ _, by omega,
          Or.inl trivial, by omega⟩

/-- What a run of reads returned, in the state it leads to. -/
theorem ReadRun.isPrefix (hrun : ReadRun d p bytes d' f_pos') (h : d.Represents log)
    (hp : p < SizeT.bound) :
    ∃ log', d'.Represents log' ∧ log.content <+: log'.content ∧
      bytes <+: log'.content.drop p ∧ f_pos' = p + bytes.length ∧
      p + bytes.length < SizeT.bound := by
  generalize hpos : (p : ℤ) = f_pos at hrun
  induction hrun generalizing p log with
  | nil d f_pos =>
    exact ⟨log, h, List.prefix_rfl, List.nil_prefix, by simp, by simpa using hp⟩
  | read hcount hread hrun ih =>
    subst hpos
    obtain ⟨r, heq, hdata, hf, -, hlt, -⟩ := read_cases h hp hcount
    rw [hread, Except.ok.injEq] at heq
    subst heq
    obtain ⟨log', hrep, hcontent, hbytes, hf', hlt'⟩ := ih h hlt (by rw [hf]; rfl)
    refine ⟨log', hrep, hcontent, ?_, ?_, ?_⟩
    · exact Concat.isPrefix_drop_append (hdata.trans (hcontent.drop p)) hbytes
    · rw [hf', List.length_append]; push_cast; omega
    · rw [List.length_append]; omega
  | write hwrite hevict hrun ih =>
    obtain ⟨log₁, h₁, hcontent⟩ := aesdWrite_content h hwrite hevict
    obtain ⟨log', hrep, hcontent', hrest⟩ := ih h₁ hp hpos
    exact ⟨log', hrep, hcontent.trans hcontent', hrest⟩

/-- **Reads return the stored stream.**  From any state the driver can be in and any position that
fits in `size_t`, a run of reads, with writes between them that evict nothing, has returned the
content from that position on, as far as it got, and the position is where it got to.  A further
read returns `0` only when the content ends there, and does so unless its lock is interrupted; a
positive value says how many bytes of the content it gave and moved on by; an error gives nothing
and leaves the position.  So when a read returns `0`, the run returned all from its start on. -/
theorem read_stream {cs : List Call} {rets : List ℤ} {s : Node}
    (hreach : Node.init.calls cs = .ok (rets, s)) (hp : p < SizeT.bound)
    (hrun : ReadRun s.driver p bytes d' f_pos') :
    s.driver.content <+: d'.content ∧ bytes <+: d'.content.drop p ∧ f_pos' = p + bytes.length ∧
      ∀ call : ReadCall, 0 < call.count → ∃ r, d'.aesdRead f_pos' call = .ok r ∧
        (r.retval = 0 ↔ call.lockOk = true ∧ d'.content.length ≤ p + bytes.length) ∧
        (0 ≤ r.retval → r.data = (d'.content.drop (p + bytes.length)).take r.retval.toNat ∧
          r.data.length = r.retval ∧ r.f_pos = f_pos' + r.retval ∧ r.retval ≤ call.count) ∧
        (r.retval < 0 → r.data = [] ∧ r.f_pos = f_pos') ∧
        (r.retval = 0 → bytes = d'.content.drop p) := by
  obtain ⟨rs, s', log, heq, h⟩ := Node.calls_represents (s := .init) represents_init cs
  rw [hreach, Except.ok.injEq, Prod.mk.injEq] at heq
  obtain ⟨-, rfl⟩ := heq
  obtain ⟨log', hrep, hcontent, hbytes, rfl, hlt⟩ := hrun.isPrefix h hp
  rw [h.toStores.content_eq, hrep.toStores.content_eq]
  refine ⟨hcontent, hbytes, rfl, fun call hcount ↦ ?_⟩
  obtain ⟨r, hr, hdata, hf, hle, -, hret, hzero⟩ := read_cases hrep hlt hcount
  push_cast at hr hf
  refine ⟨r, hr, hzero, fun hpos ↦ ?_, fun hneg ↦ ?_, fun h0 ↦ ?_⟩
  · have hlen : r.retval = r.data.length := by omega
    rw [hlen]
    exact ⟨List.prefix_iff_eq_take.1 hdata, rfl, hf, by exact_mod_cast hle⟩
  · have hnil : r.data = [] := (hret.resolve_left (by omega)).2
    exact ⟨hnil, by simpa [hnil] using hf⟩
  · have hend := (hzero.1 h0).2
    refine hbytes.eq_of_length ?_
    have := hbytes.length_le
    rw [List.length_drop] at this ⊢
    omega

/-- The driver after a sequence of writes. -/
def after (calls : List WriteCall) : Driver :=
  match aesdInitModule.writes calls with
  | .ok (_, d) => d
  | .error _ => aesdInitModule

end Streams

attribute [local instance] linux64 in
/-- Two commands, read from the second byte on by reads of one byte and of more than there is, with
a third command and an unfinished one written in between. -/
theorem read_stream_three_commands :
    ReadRun (after [.plain [97, 10], .plain [98, 10]]) 1 [10, 98, 10, 99, 10]
      (after [.plain [97, 10], .plain [98, 10], .plain [99, 10], .plain [100]]) 6 ∧
    [10, 98, 10, 99, 10] =
      (after [.plain [97, 10], .plain [98, 10], .plain [99, 10], .plain [100]]).content.drop 1 := by
  have h1 : aesdRead (after [.plain [97, 10], .plain [98, 10]]) 1 (.plain 1)
      = .ok ⟨1, 2, [10]⟩ := by decide +kernel
  have h2 : aesdWrite (after [.plain [97, 10], .plain [98, 10]]) (.plain [99, 10])
      = .ok (2, after [.plain [97, 10], .plain [98, 10], .plain [99, 10]]) := by decide +kernel
  have h3 : aesdRead (after [.plain [97, 10], .plain [98, 10], .plain [99, 10]]) 2 (.plain 4)
      = .ok ⟨2, 4, [98, 10]⟩ := by decide +kernel
  have h4 : aesdWrite (after [.plain [97, 10], .plain [98, 10], .plain [99, 10]]) (.plain [100])
      = .ok (1, after [.plain [97, 10], .plain [98, 10], .plain [99, 10], .plain [100]]) := by
    decide +kernel
  have h5 : aesdRead (after [.plain [97, 10], .plain [98, 10], .plain [99, 10], .plain [100]]) 4
      (.plain 4) = .ok ⟨2, 6, [99, 10]⟩ := by decide +kernel
  have h6 : aesdRead (after [.plain [97, 10], .plain [98, 10], .plain [99, 10], .plain [100]]) 6
      (.plain 4) = .ok ⟨0, 6, []⟩ := by decide +kernel
  have hrun : ReadRun (after [.plain [97, 10], .plain [98, 10]]) 1 [10, 98, 10, 99, 10]
      (after [.plain [97, 10], .plain [98, 10], .plain [99, 10], .plain [100]]) 6 :=
    .read (by decide) h1 (.write h2 (by decide +kernel) (.read (by decide) h3
      (.write h4 (by decide +kernel) (.read (by decide) h5 (.nil _ _)))))
  refine ⟨hrun, ?_⟩
  obtain ⟨rs, s, -, heq, -⟩ := Node.calls_represents (s := .init) represents_init
    [.write (.plain [97, 10]), .write (.plain [98, 10])]
  have hs : (Node.init.calls [.write (.plain [97, 10]), .write (.plain [98, 10])]).map
      (fun x ↦ x.2.driver) = .ok (after [.plain [97, 10], .plain [98, 10]]) := by decide +kernel
  rw [heq] at hs
  rw [← Except.ok.inj hs] at hrun
  obtain ⟨-, -, -, hread⟩ := read_stream heq (by decide +kernel) hrun
  obtain ⟨r, hr, -, -, -, hall⟩ := hread (.plain 4) (by decide)
  rw [h6] at hr
  exact hall (by rw [← Except.ok.inj hr])

end Driver

end Aesd
