import Aesd.Server.Reply

/-!
# Seek requests

A seek request positions the file under the lock for writing, and is answered under a later lock for
reading.  The position is an offset into the content, which moves when a command is evicted; so the
answer starts at the byte that was named unless that happens between the two
(`System.seek_reply_iff`), and `System.seek_reply_shifted` is a run in which it does.

To name a command beyond evictions it is counted from the first one ever stored:
`System.history` are the evicted commands and the stored ones.  It only grows at its end.
-/

set_option autoImplicit false

namespace Aesd

namespace Store

/-- The commands of the device. -/
def commands : Store → List (List Byte)
  | .device d => d.commands
  | .file _ => []

/-- The driver behind the device. -/
def driver : Store → Driver
  | .device d => d
  | .file _ => .aesdInitModule

variable [Platform]

/-- A `write` call adds at the end and evicts at the start. -/
theorem write_commands {store store' : Store} {f_pos f_pos' : ℤ} {bytes : List Byte}
    {o : WriteOutcome} {ok : Bool} (h : store.Sound)
    (hw : store.write f_pos bytes o = .ok (ok, f_pos', store')) :
    store.commands <+: store.evicted bytes o ok ++ store'.commands ∧
      ∀ c ∈ store.evicted bytes o ok, c ≠ [] := by
  cases store with
  | file old =>
    rw [write] at hw
    split at hw <;> cases hw <;> exact ⟨List.nil_prefix, by simp [evicted]⟩
  | device d =>
    obtain ⟨log, hrep⟩ := h
    obtain ⟨r, d', heq, hrep', -⟩ := Driver.aesdWrite_step hrep (o.call bytes)
    rw [write, heq, ok_bind] at hw
    cases hw
    have hold := hrep.toStores.commands_eq
    have hnew := hrep'.toStores.commands_eq
    have hlen := hrep.toStores.length_commands
    have hfull := hrep.wf.full_iff
    refine ⟨?_, fun c hc ↦ ?_⟩
    · simp only [commands, evicted, hold, hnew]
      by_cases hpos : 0 < r
      swap
      · simp [hpos, WriteCall.Evicts]
      by_cases ht : NewlineTerminated (o.call bytes).userBuf
      swap
      · simp [hpos, ht, WriteCall.Evicts, CommandLog.write_of_not_terminated]
      rw [if_pos hpos, CommandLog.write_of_terminated ht]
      by_cases hf : d.dev.buffer.full = true
      · rw [if_pos ⟨by simp [hpos], ht, hf⟩, Ring.rtake_concat_of_eq (hlen.trans (hfull.1 hf)),
          ← List.append_assoc, ← List.drop_one, List.take_append_drop]
        exact List.prefix_append _ _
      · rw [if_neg fun he ↦ hf he.2.2, List.nil_append,
          Ring.rtake_concat_of_lt (hlen ▸ hrep.wf.size_lt (by simpa using hf))]
        exact List.prefix_append _ _
    · rw [evicted, List.mem_ite_nil_right, hold] at hc
      exact (hrep.terminated c (List.mem_of_mem_take hc.2)).ne_nil

end Store

namespace System

section Seek

variable [Platform]

omit [Platform] in
/-- The commands stored in the device, those that were evicted included. -/
def history (s : System) : List (List Byte) := s.evicted ++ s.store.commands

variable {build : Build} {s s₀ s₁ s₂ s' t : System} {i j : ℕ} {c : Client} {e : ThreadEvent}
  {event : Event} {u : Session} {l : Label} {ms : List Label} {pos : ℕ}

/-- One system comes after another: commands were added at the end, and evicted at the start. -/
structure Later (s t : System) : Prop where
  /-- What was evicted stays so. -/
  evicted : ∃ more, t.evicted = s.evicted ++ more ∧ ∀ c ∈ more, c ≠ []
  /-- The history only grows. -/
  history : s.history <+: t.history

omit [Platform] in
theorem Later.refl (s : System) : s.Later s :=
  ⟨⟨[], (List.append_nil _).symm, by simp⟩, List.prefix_rfl⟩

omit [Platform] in
theorem Later.trans (h : s.Later t) (h' : t.Later s') : s.Later s' := by
  obtain ⟨⟨more, h1, h2⟩, h3⟩ := h
  obtain ⟨⟨more', h1', h2'⟩, h3'⟩ := h'
  refine ⟨⟨more ++ more', by rw [h1', h1, List.append_assoc], fun c hc ↦ ?_⟩, h3.trans h3'⟩
  rcases List.mem_append.1 hc with hc | hc
  · exact h2 c hc
  · exact h2' c hc

omit [Platform] in
theorem later_of_eq (hstore : t.store = s.store) (hevicted : t.evicted = s.evicted) :
    s.Later t := by
  refine ⟨⟨[], by rw [hevicted, List.append_nil], by simp⟩, ?_⟩
  rw [history, history, hstore, hevicted]

/-- Every step leads to a later state. -/
theorem step_later (hinv : s.Shared build) (hs : s.step l = some t) : s.Later t := by
  rcases step_cases hinv.clients hs with hq | ⟨i, e, c, event, s', u, rfl, hm⟩
  · exact later_of_eq hq.store hq.evicted
  obtain ⟨hstore, -, -, hevicted⟩ := hm.shared
  by_cases hwrite : ∃ count ok f_pos, event = .write count ok f_pos
  · obtain ⟨count, ok, f_pos, rfl⟩ := hwrite
    obtain ⟨o, store, hw, rfl⟩ := effect_write hm.effect
    obtain ⟨hgrows, hne⟩ := Store.write_commands hinv.store hw
    refine ⟨⟨_, hevicted, hne⟩, ?_⟩
    rw [history, history, hevicted, hstore, List.append_assoc]
    exact (List.prefix_append_right_inj _).2 hgrows
  · have heq := hm.effect.store_eq fun count ok f_pos h ↦ hwrite ⟨count, ok, f_pos, h⟩
    exact later_of_eq (hstore.trans heq.1) (hevicted.trans heq.2)

/-! ## From the seek to the end of the reply -/

/-- A session on its way from a seek to the end of its reply. -/
def Answering (content : List Byte) (pos : ℕ) (t : Session) : Prop :=
  (t.pc = .wrunlock ∨ t.pc = .rdlock) ∧ t.f_pos = pos ∨ t.Replying content pos

/-- **A step on the way**, of whomever. -/
theorem answering_step (hinv : s.Shared build) (h : Answering s.store.content pos (s.session i))
    (hl : Keeping i s l) (hs : s.step l = some t) :
    Answering t.store.content pos (t.session i) := by
  rcases h with ⟨hpc, hpos⟩ | h
  swap
  · obtain ⟨hstore, h⟩ := replying_step hinv h hl hs
    exact Or.inr (hstore ▸ h)
  rcases step_cases hinv.clients hs with hq | ⟨j, e, c, event, s', u, rfl, hm⟩
  · obtain ⟨mem, heq⟩ := hq.session i
    rw [heq]
    exact Or.inl ⟨hpc, hpos⟩
  by_cases hij : i = j
  swap
  · rw [hm.session_ne hij]
    exact Or.inl ⟨hpc, hpos⟩
  subst hij
  rw [session_eq hm.get] at hpc hpos
  rw [hm.session_self]
  cases hinv.turn hm with
  | wrunlock => exact Or.inl ⟨Or.inr rfl, hpos⟩
  | rdlock hpc =>
    have hd := hinv.drained i
    rw [session_eq hm.get] at hd
    exact Or.inr (Session.replying_rdlock hd hpc hpos _)
  | idle hown hidle => rcases hpc with hpc | hpc <;> rw [hpc] at hidle <;> cases hidle
  | _ => simp [*] at hpc

/-- **A run on the way.** -/
theorem answering_run (hinv : s.Shared build) (h : Answering s.store.content pos (s.session i))
    (hrun : Machine.Run step (Keeping i) s ms t) :
    t.Shared build ∧ s.Later t ∧ Answering t.store.content pos (t.session i) := by
  induction hrun with
  | nil s => exact ⟨hinv, Later.refl s, h⟩
  | cons hl hstep _ ih =>
    obtain ⟨h1, h2, h3⟩ := ih (hinv.step hstep) (answering_step hinv h hl hstep)
    exact ⟨h1, (step_later hinv hstep).trans h2, h3⟩

/-- A seek that succeeds leaves the file at the place that was named. -/
theorem answering_start {d : Driver} {packet : List Byte} {seekto : AesdSeekto} {f_pos : ℤ}
    (hinv : s.Shared build) (hs : s.step (.thread i .ioctl) = some t) (hstore : s.store = .device d)
    (hpacket : (s.session i).packet = some packet) (hseek : seekCommand packet = some seekto)
    (hok : d.aesdIoctl (s.session i).f_pos ⟨AESDCHAR_IOCSEEKTO, seekto, true, true, true⟩
      = .ok (0, f_pos)) :
    t.store = s.store ∧ t.evicted = s.evicted ∧
      ∃ k r, ∃ hk : k < d.commands.length, k = seekto.writeCmd.toNat ∧
        r = seekto.writeCmdOffset.toNat ∧ r < d.commands[k].length ∧
        Answering t.store.content ((d.commands.take k).flatten.length + r) (t.session i) := by
  obtain ⟨c, event, s', u, hm⟩ := hinv.thread_moves hs
  have hself := session_eq hm.get
  have hpc := hm.pc_eq
  have hflat := (hinv.inv hm.get).flat
  rw [Session.FlatInv, hpc.1, hpc.2] at hflat
  obtain ⟨packet', ⟨-, ⟨hpacket', -⟩, -, hseekto⟩, -⟩ := hflat
  rw [hself, hpacket'] at hpacket
  cases hpacket
  have hsame := hm.effect.store_eq fun count ok f_pos h ↦ by rw [h] at hpc; cases hpc.2
  refine ⟨hm.shared.1.trans hsame.1, hm.shared.2.2.2.trans hsame.2, ?_⟩
  have hsound := hinv.store
  rw [hstore] at hsound
  obtain ⟨log, hrep⟩ := hsound
  -- where the driver puts the position
  obtain ⟨off, hoff, rfl⟩ : ∃ off, log.seekOffset seekto.writeCmd.toNat
      seekto.writeCmdOffset.toNat = some off ∧ f_pos = off := by
    rw [Driver.aesdIoctl_eq hrep.toStores, CommandLog.ioctl] at hok
    simp only [if_true, Bool.not_true, Bool.or_self, Bool.false_eq_true, if_false] at hok
    cases hseek' : log.seekOffset seekto.writeCmd.toNat seekto.writeCmdOffset.toNat with
    | none => rw [hseek'] at hok; simp [EINVAL] at hok
    | some off => rw [hseek'] at hok; cases hok; exact ⟨off, rfl, rfl⟩
  obtain ⟨hk, hr, rfl⟩ := CommandLog.seekOffset_eq_some hoff
  have hcommands := hrep.toStores.commands_eq
  refine ⟨_, _, hcommands ▸ hk, rfl, rfl, by simpa only [hcommands] using hr, Or.inl ?_⟩
  rw [hm.session_self]
  cases hinv.turn hm with
  | ioctl f_pos' =>
    obtain ⟨-, seekto', hseekto', hioctl⟩ := effect_ioctl hm.effect
    rw [hseekto', hseek] at hseekto
    cases hseekto
    rw [hself] at hok
    rw [hstore, Store.ioctl, hok] at hioctl
    cases hioctl
    exact ⟨Or.inl rfl, by rw [hcommands]⟩
  | idle he => cases event <;> cases hpc.2; cases he
  | _ => cases hpc.2

omit [Platform] in
/-- An offset that named a place still does if and only if nothing was taken from the start. -/
theorem offset_names_iff {old more new : List (List Byte)} {k r : ℕ} (hk : k < old.length)
    (hr : r < old[k].length) (hold : old <+: more ++ new) (hmore : ∀ c ∈ more, c ≠ []) :
    new.flatten.drop ((old.take k).flatten.length + r) = ((more ++ new).drop k).flatten.drop r ↔
      more = [] := by
  have hk' : k < (more ++ new).length := lt_of_lt_of_le hk hold.length_le
  have hget : (more ++ new)[k] = old[k] := (hold.getElem hk).symm
  have htake : old.take k = (more ++ new).take k := by
    obtain ⟨x, hx⟩ := hold
    rw [← hx, List.take_append_of_le_length hk.le]
  have hr' : r < (more ++ new)[k].length := hget ▸ hr
  -- the place is one of all the bytes
  have hlt : (old.take k).flatten.length + r < (more ++ new).flatten.length := by
    have hsplit := congrArg List.length (Concat.drop_flatten_take hk' hr'.le)
    rw [List.drop_eq_getElem_cons hk', List.flatten_cons, ← htake] at hsplit
    simp only [List.length_drop, List.length_append] at hsplit
    omega
  rw [← Concat.drop_flatten_take hk' hr'.le, ← htake, List.flatten_append]
  constructor
  · intro heq
    have hlen := congrArg List.length heq
    rw [List.flatten_append] at hlt
    simp only [List.length_drop, List.length_append] at hlen hlt
    cases more with
    | nil => rfl
    | cons c more =>
      have hpos := List.length_pos_of_ne_nil (hmore c (List.mem_cons_self ..))
      simp only [List.flatten_cons, List.length_append] at hlen hlt
      omega
  · rintro rfl
    rfl

/-- **When a seek request is answered from the place it named.**  In the device build, for every
session and every interleaving: after a seek to a byte of a stored command, the reply is that
command from that byte on and all commands after it, if and only if no command was evicted between
the seek and the end of the reply.  The command is the one which that many commands were stored
before, those that had been evicted included. -/
theorem seek_reply_iff {d : Driver} {packet : List Byte} {seekto : AesdSeekto} {f_pos : ℤ}
    (h : Machine.Reachable step Machine.Always (init .device) s₀)
    (hioctl : s₀.step (.thread i .ioctl) = some s₁) (hstore : s₀.store = .device d)
    (hpacket : (s₀.session i).packet = some packet) (hseek : seekCommand packet = some seekto)
    (hok : d.aesdIoctl (s₀.session i).f_pos ⟨AESDCHAR_IOCSEEKTO, seekto, true, true, true⟩
      = .ok (0, f_pos))
    (hrun : Machine.Run step (Keeping i) s₁ ms s₂) (hend : (s₂.session i).pc = .rdunlock) :
    (s₂.session i).reply
        = ((s₂.history.drop (s₀.evicted.length + seekto.writeCmd.toNat)).flatten).drop
          seekto.writeCmdOffset.toNat ↔ s₂.evicted = s₀.evicted := by
  have hinv := shared_reachable h
  obtain ⟨hsame, hevicted, k, r, hk, rfl, rfl, hr, hanswer⟩ :=
    answering_start hinv hioctl hstore hpacket hseek hok
  obtain ⟨hinv₂, ⟨⟨more, hmore, hne⟩, hhistory⟩, h₂⟩ :=
    answering_run (hinv.step hioctl) hanswer hrun
  have hreplying : (s₂.session i).Replying s₂.store.content
      ((d.commands.take seekto.writeCmd.toNat).flatten.length + seekto.writeCmdOffset.toNat) := by
    refine h₂.resolve_left ?_
    rintro ⟨hpc | hpc, -⟩ <;> rw [hend] at hpc <;> cases hpc
  rw [hevicted] at hmore
  obtain ⟨d₂, hstore₂⟩ := Store.eq_device hinv₂.build
  have hcontent : s₂.store.content = d₂.commands.flatten := by rw [hstore₂]; rfl
  have hdrop : s₂.history.drop (s₀.evicted.length + seekto.writeCmd.toNat)
      = (more ++ d₂.commands).drop seekto.writeCmd.toNat := by
    rw [history, hmore, hstore₂, List.append_assoc, ← List.drop_drop, List.drop_left]
    rfl
  have hgrown : d.commands <+: more ++ d₂.commands := by
    rw [history, history, hsame, hevicted, hmore, hstore, hstore₂, List.append_assoc,
      List.prefix_append_right_inj] at hhistory
    exact hhistory
  rw [(hreplying.complete (hinv₂.drained i) hend).1, hcontent, hdrop,
    offset_names_iff hk hr hgrown hne, hmore, List.append_right_eq_self]

end Seek

/-- A packet of two bytes is stored and answered with itself. -/
def stored : List ThreadEvent :=
  [.scan true, .wrlock, .write 2 .plain, .wrunlock, .rdlock, .read 4096, .read 4096, .send 2,
    .read 4096, .rdunlock, .next]

/-- The second of two clients has stored ten packets, and the first one is about to seek to the
sixth of them. -/
def aboutToSeek : List Label :=
  Label.connect 1 ++ Label.connect 2 ++
    Label.steps 1 ([.start true, .recv (.data [48, 10, 49, 10, 50, 10, 51, 10, 52, 10, 53, 10, 54,
      10, 55, 10, 56, 10, 57, 10])] ++ (List.replicate 10 stored).flatten ++ [.scan true]) ++
    Label.steps 0 [.start true, .recv (.data (seektoText ++ [53, 44, 48, 10])), .scan true, .wrlock]

/-- The seek is answered at once. -/
def answered : List Label :=
  Label.steps 0 ([.wrunlock, .rdlock] ++ List.replicate 6 (.read 4096) ++ [.send 10, .read 4096])

/-- Before it is answered, the second client stores another packet. -/
def overtaken : List Label :=
  .thread 0 .wrunlock ::
    Label.steps 1 [.recv (.data [58, 10]), .scan true, .wrlock, .write 2 .plain, .wrunlock] ++
    Label.steps 0 (.rdlock :: List.replicate 6 (.read 4096) ++ [.send 10, .read 4096])

attribute [local instance] linux64 in
theorem seek_reply_at_once :
    ((after .device (aboutToSeek ++ .thread 0 .ioctl :: answered)).session 0).reply
      = [53, 10, 54, 10, 55, 10, 56, 10, 57, 10] := by
  have h : Machine.Reachable step Machine.Always (init .device) (after .device aboutToSeek) :=
    ⟨aboutToSeek, run_after (by decide +kernel)⟩
  have hrun : Machine.Run step (Keeping 0) (after .device (aboutToSeek ++ [.thread 0 .ioctl]))
      answered (after .device (aboutToSeek ++ .thread 0 .ioctl :: answered)) :=
    Machine.run_of_exec_guarded (by decide +kernel)
  have hseek : seekCommand (seektoText ++ [53, 44, 48, 10]) = some ⟨5, 0⟩ := by decide +kernel
  obtain ⟨hioctl, hstore, hpacket, hok, hend, hevicted, hnamed⟩ :
      (after .device aboutToSeek).step (.thread 0 .ioctl)
        = some (after .device (aboutToSeek ++ [.thread 0 .ioctl])) ∧
      (after .device aboutToSeek).store = .device (after .device aboutToSeek).store.driver ∧
      ((after .device aboutToSeek).session 0).packet = some (seektoText ++ [53, 44, 48, 10]) ∧
      (after .device aboutToSeek).store.driver.aesdIoctl
        ((after .device aboutToSeek).session 0).f_pos
        ⟨AESDCHAR_IOCSEEKTO, ⟨5, 0⟩, true, true, true⟩ = .ok (0, 10) ∧
      ((after .device (aboutToSeek ++ .thread 0 .ioctl :: answered)).session 0).pc = .rdunlock ∧
      (after .device (aboutToSeek ++ .thread 0 .ioctl :: answered)).evicted
        = (after .device aboutToSeek).evicted ∧
      (((after .device (aboutToSeek ++ .thread 0 .ioctl :: answered)).history.drop
        ((after .device aboutToSeek).evicted.length + (5 : UInt32).toNat)).flatten).drop
        (0 : UInt32).toNat = [53, 10, 54, 10, 55, 10, 56, 10, 57, 10] := by decide +kernel
  generalize after .device aboutToSeek = s₀ at *
  generalize after .device (aboutToSeek ++ .thread 0 .ioctl :: answered) = s₂ at *
  rw [← hnamed]
  exact (seek_reply_iff h hioctl hstore hpacket hseek hok hrun hend).2 hevicted

attribute [local instance] linux64 in
/-- The seek names the sixth of ten commands, and its `ioctl` succeeds.  The other client's packet
evicts the first command, and the reply starts at the seventh. -/
theorem seek_reply_shifted :
    Machine.Run step Machine.Always (init .device) aboutToSeek (after .device aboutToSeek) ∧
    Machine.Run step (Keeping 0) (after .device (aboutToSeek ++ [.thread 0 .ioctl])) overtaken
      (after .device (aboutToSeek ++ .thread 0 .ioctl :: overtaken)) ∧
    seekCommand (seektoText ++ [53, 44, 48, 10]) = some ⟨5, 0⟩ ∧
    ((after .device aboutToSeek).session 0).packet = some (seektoText ++ [53, 44, 48, 10]) ∧
    (after .device aboutToSeek).store.commands.drop 5
      = [[53, 10], [54, 10], [55, 10], [56, 10], [57, 10]] ∧
    (after .device aboutToSeek).store.driver.aesdIoctl ((after .device aboutToSeek).session 0).f_pos
      ⟨AESDCHAR_IOCSEEKTO, ⟨5, 0⟩, true, true, true⟩ = .ok (0, 10) ∧
    (after .device aboutToSeek).step (.thread 0 .ioctl)
      = some (after .device (aboutToSeek ++ [.thread 0 .ioctl])) ∧
    ((after .device (aboutToSeek ++ .thread 0 .ioctl :: overtaken)).session 0).pc = .rdunlock ∧
    ((after .device (aboutToSeek ++ .thread 0 .ioctl :: overtaken)).session 0).reply
      = [54, 10, 55, 10, 56, 10, 57, 10, 58, 10] :=
  ⟨run_after (by decide +kernel), Machine.run_of_exec_guarded (by decide +kernel),
    by decide +kernel⟩

end System

end Aesd
