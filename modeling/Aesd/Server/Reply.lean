import Aesd.Server.Appends
import Aesd.Server.Delivery

/-!
# Replies

What a session reads between its `rdlock` and its `rdunlock`: `System.Replying`.  While it holds the
lock for reading nobody writes, so the store is the same from the first `read` call to the last, and
the position, which only the session's own calls move, says how much of it was read.

`System.reply_is_snapshot` says what a reply reads, and `System.reply_arrives` that a client that
takes all it is sent gets it.
-/

set_option autoImplicit false

namespace Aesd

/-- A session in the middle of a reply which reads the content from a position on. -/
structure Session.Replying (content : List Byte) (pos : ℕ) (t : Session) : Prop where
  /-- It holds the lock for reading. -/
  reading : t.pc.reading = true
  /-- The position of the file. -/
  position : t.f_pos = (pos + t.reply.length : ℕ)
  /-- What was read. -/
  isPrefix : t.reply <+: content.drop pos
  /-- What of it was sent, and what will be. -/
  passed : t.reply = t.passed ++ (if t.pc = .send then t.buffer else []) ++ t.pending
  /-- The reply ends at the end of the content. -/
  last : t.pc = .rdunlock → content.length ≤ pos + t.reply.length

namespace Session

variable {build : Build} {t : Session} {content : List Byte} {pos : ℕ}

/-- Where the reply ends, all was read and given to `send`. -/
theorem Replying.complete (h : t.Replying content pos) (hd : t.Drained) (hpc : t.pc = .rdunlock) :
    t.reply = content.drop pos ∧ t.passed = t.reply := by
  constructor
  · refine h.isPrefix.eq_of_length ?_
    have h1 := h.isPrefix.length_le
    have h2 := h.last hpc
    rw [List.length_drop] at h1 ⊢
    omega
  · have hp := h.passed
    rw [hpc, hd (by simp [hpc]) (by simp [hpc])] at hp
    simpa using hp.symm

/-- Where it begins, nothing was read. -/
theorem replying_rdlock (hd : t.Drained) (hpc : t.pc = .rdlock) (hpos : t.f_pos = pos)
    (content : List Byte) :
    Replying content pos { t with reply := [], passed := [], sent := [], pc := .fread } where
  reading := rfl
  position := by simpa using hpos
  isPrefix := List.nil_prefix
  passed := by simp [hd (by simp [hpc]) (by simp [hpc])]
  last h := by cases h

end Session

namespace System

section Replies

variable [Platform]

variable {build : Build} {s s₀ s₁ s₂ s' t : System} {i j : ℕ} {c : Client} {e : ThreadEvent}
  {event : Event} {u : Session} {l : Label} {pos : ℕ} {ms : List Label}

/-- A session's own step in a reply. -/
theorem replying_self (hinv : s.Shared build) (hm : s.Moves i e t c event s' u) (he : e ≠ .rdunlock)
    (h : c.session.Replying s.store.content pos) : u.Replying s.store.content pos := by
  obtain ⟨p, hp, hfits⟩ := hinv.position i
  rw [session_eq hm.get, h.position] at hp
  obtain rfl : p = pos + c.session.reply.length := by exact_mod_cast hp.symm
  have heff := hm.effect
  -- what a `read` call gives
  have hread : ∀ bytes f_pos, event = .read bytes f_pos →
      f_pos = ((pos + (c.session.reply ++ bytes).length : ℕ) : ℤ) ∧
      c.session.reply ++ bytes <+: s.store.content.drop pos ∧
      (bytes = [] → s.store.content.length ≤ pos + c.session.reply.length) := by
    rintro bytes f_pos rfl
    obtain ⟨-, count, hcount, hr⟩ := effect_read heff
    obtain ⟨data, heq, hprefix, -, hend, -⟩ := Store.read_eq hinv.store hfits hcount
    rw [h.position, heq] at hr
    cases hr
    refine ⟨?_, Concat.isPrefix_drop_append h.isPrefix hprefix, hend⟩
    rw [List.length_append]
    push_cast
    omega
  have hturn := hinv.turn hm
  have hne : event ≠ .rdunlock := by
    rintro rfl
    have hpc := hm.pc_eq.2
    cases e <;> first | exact he rfl | cases hpc
  obtain ⟨hreading', hpassed⟩ := hturn.accounted h.reading hne h.passed
  have hreading := h.reading
  cases hturn with
  | read bytes f_pos hpc hbytes hpc' =>
    obtain ⟨hf, hprefix, -⟩ := hread bytes f_pos rfl
    refine ⟨hreading', hf, hprefix, hpassed, ?_⟩
    rcases hpc' with ⟨rfl, -⟩ | ⟨rfl, -⟩ <;> simp
  | last f_pos hpc pending =>
    obtain ⟨hf, -, -⟩ := hread [] f_pos rfl
    rw [List.append_nil] at hf
    exact ⟨hreading', hf, h.isPrefix, hpassed, by simp⟩
  | stop f_pos hpc pending =>
    obtain ⟨hf, -, hend⟩ := hread [] f_pos rfl
    rw [List.append_nil] at hf
    exact ⟨hreading', hf, h.isPrefix, hpassed, fun _ ↦ hend rfl⟩
  | send count hpc => exact ⟨hreading', h.position, h.isPrefix, hpassed, by simp⟩
  | rdunlock hpc => exact absurd rfl hne
  | idle hown hpc =>
    rw [Pc.idle_reading hpc] at hreading
    cases hreading
  | _ =>
    simp only [*] at hreading
    cases hreading

/-- While a session reads, no other writes. -/
theorem Shared.not_writing_of_reading (h : s.Shared build) (hi : (s.session i).pc.reading = true)
    (j : ℕ) : (s.session j).pc.writing = false :=
  h.not_writing ((h.reading i).2 hi).writer_eq j

/-- The steps between `rdlock` and `rdunlock` of a session. -/
def Keeping (i : ℕ) (_ : System) (l : Label) : Prop := l ≠ .thread i .rdunlock

instance (i : ℕ) (s : System) (l : Label) : Decidable (Keeping i s l) :=
  inferInstanceAs (Decidable (_ ≠ _))

/-- **A step during a reply**, of whomever: the store stays, and the reply goes on. -/
theorem replying_step (hinv : s.Shared build) (h : (s.session i).Replying s.store.content pos)
    (hl : Keeping i s l) (hs : s.step l = some t) :
    t.store = s.store ∧ (t.session i).Replying s.store.content pos := by
  rcases step_cases hinv.clients hs with hq | ⟨j, e, c, event, s', u, rfl, hm⟩
  · obtain ⟨mem, heq⟩ := hq.session i
    rw [heq]
    exact ⟨hq.store, ⟨h.reading, h.position, h.isPrefix, h.passed, h.last⟩⟩
  have hstore : t.store = s.store := by
    refine hm.shared.1.trans (hm.effect.store_eq ?_).1
    rintro count ok f_pos rfl
    have hw := hinv.not_writing_of_reading h.reading j
    rw [session_eq hm.get, hm.pc_eq.1] at hw
    cases hw
  refine ⟨hstore, ?_⟩
  by_cases hij : i = j
  · subst hij
    rw [hm.session_self]
    exact replying_self hinv hm (fun he ↦ hl (by rw [he])) (session_eq hm.get ▸ h)
  · rw [hm.session_ne hij]
    exact h

theorem rdlock_moves (hinv : s.Shared build) (hs : s.step (.thread i .rdlock) = some t) :
    ∃ c s' u, s.Moves i .rdlock t c .rdlock s' u := by
  obtain ⟨c, event, s', u, hm⟩ := hinv.thread_moves hs
  have hev := hm.pc_eq.2
  have heq : event = .rdlock := by cases event <;> first | rfl | cases hev
  exact ⟨c, s', u, heq ▸ hm⟩

/-- The step that begins a reply. -/
theorem replying_start (hinv : s.Shared build) (hs : s.step (.thread i .rdlock) = some t) :
    ∃ pos : ℕ, (s.session i).f_pos = pos ∧ t.store = s.store ∧
      (t.session i).Replying s.store.content pos := by
  obtain ⟨c, s', u, hm⟩ := rdlock_moves hinv hs
  obtain ⟨pos, hpos, -⟩ := hinv.position i
  have hstore : t.store = s.store :=
    hm.shared.1.trans (hm.effect.store_eq fun _ _ _ h ↦ by cases h).1
  refine ⟨pos, hpos, hstore, ?_⟩
  have hd := hinv.drained i
  rw [session_eq hm.get] at hpos hd
  rw [hm.session_self]
  cases hinv.turn hm with
  | rdlock hpc => exact Session.replying_rdlock hd hpc hpos _
  | idle he => cases he

/-- **A run during a reply.** -/
theorem replying_run (hinv : s.Shared build) (h : (s.session i).Replying s.store.content pos)
    (hrun : Machine.Run step (Keeping i) s ms t) :
    t.Shared build ∧ t.store = s.store ∧ (t.session i).Replying s.store.content pos := by
  induction hrun with
  | nil s => exact ⟨hinv, rfl, h⟩
  | cons hl hstep _ ih =>
    obtain ⟨hstore, h'⟩ := replying_step hinv h hl hstep
    obtain ⟨h1, h2, h3⟩ := ih (hinv.step hstep) (hstore ▸ h')
    exact ⟨h1, h2.trans hstore, hstore ▸ h3⟩

omit [Platform] in
/-- The packets of the log that the store is to have. -/
def kept (s : System) : List (List Byte) :=
  match s.store.build with
  | .device => s.logged.rtake 10
  | .file => s.logged

/-- The content consists of whole packets while nobody writes. -/
theorem Stored.content (h : s.Stored) (hinv : s.Shared build) (hw : s.lock.writer = none) :
    s.store.content = s.kept.flatten := by
  have hholds := h.holds hinv hw
  rw [kept]
  cases hs : s.store with
  | device d =>
    rw [hs] at hholds
    exact hholds.toStores.content_eq
  | file bytes =>
    rw [hs] at hholds
    exact (show bytes = _ from hholds).trans (List.append_nil _)

/-- **Each reply is a consistent snapshot.**  From the grant of the lock for a reply until it is
given back, whatever the other threads do meanwhile, the store does not change and no append is
under way.  What the reply has read is the content at that time from the session's position on, as
far as it got; when it is complete it is that to the end of the content, and it was given to `send`
as it was read.  And if no `write` call failed before, that content consists of whole packets. -/
theorem reply_is_snapshot (h : Machine.Reachable step Machine.Always (init build) s₀)
    (hlock : s₀.step (.thread i .rdlock) = some s₁) (hrun : Machine.Run step (Keeping i) s₁ ms s₂) :
    ∃ pos : ℕ, (s₀.session i).f_pos = pos ∧ s₂.store = s₀.store ∧
      (∀ j, (s₂.session j).pc.writing = false) ∧
      (s₂.session i).reply <+: s₀.store.content.drop pos ∧
      ((s₂.session i).pc = .rdunlock → (s₂.session i).reply = s₀.store.content.drop pos ∧
        (s₂.session i).passed = (s₂.session i).reply) ∧
      (Machine.Reachable step WritesOk (init build) s₀ → s₀.store.content = s₀.kept.flatten) := by
  have hinv₀ := shared_reachable h
  obtain ⟨pos, hpos, hstore, hreplying⟩ := replying_start hinv₀ hlock
  rw [← hstore] at hreplying
  obtain ⟨hinv₂, hstore₂, hreplying₂⟩ := replying_run (hinv₀.step hlock) hreplying hrun
  rw [hstore] at hreplying₂
  refine ⟨pos, hpos, hstore₂.trans hstore, hinv₂.not_writing_of_reading hreplying₂.reading,
    hreplying₂.isPrefix, hreplying₂.complete (hinv₂.drained i), fun hok ↦ ?_⟩
  obtain ⟨c, s', u, hm⟩ := rdlock_moves hinv₀ hlock
  obtain ⟨lock, hgranted, -⟩ := effect_rdlock hm.effect
  obtain ⟨hinv, hstored⟩ := stored_reachable hok
  exact hstored.content hinv (RwLock.rdlock_eq_some hgranted).1

/-! ## What the client gets -/

/-- The steps of a reply in which the client takes all that `send` is given. -/
def Accepting (i : ℕ) (s : System) (l : Label) : Prop :=
  Keeping i s l ∧ ∀ count, l = .thread i (.send count) →
    (s.session i).buffer.length ≤ count ∧ ∀ c ∈ s.clients.get? i, c.hungUp = false

theorem accepting_step (hinv : s.Shared build) (hreading : (s.session i).pc.reading = true)
    (hs : s.step l = some t) (hl : Accepting i s l)
    (h : (s.session i).sent = (s.session i).passed) :
    (t.session i).sent = (t.session i).passed := by
  rcases step_cases hinv.clients hs with hq | ⟨j, e, c, event, s', u, rfl, hm⟩
  · obtain ⟨mem, heq⟩ := hq.session i
    rw [heq]
    exact h
  by_cases hij : i = j
  swap
  · rw [hm.session_ne hij]
    exact h
  subst hij
  have hget := session_eq hm.get
  rw [hget] at hreading h
  obtain ⟨hpassed, hsent⟩ := (hinv.turn hm).exchange hreading
  rw [hm.session_self, hpassed, hsent, h, List.append_cancel_left_eq, Concat.taken_eq_whole_iff]
  intro x hx
  obtain ⟨count, rfl, rfl⟩ : ∃ count, event = .send count ∧ x = (c.session.buffer, count) := by
    cases event with
    | send count => exact ⟨count, rfl, by simpa [Session.exchange] using hx⟩
    | _ => simp [Session.exchange] at hx
  cases outside_meets hm.outside with
  | send => exact hget ▸ (hl.2 count rfl).1
  | sigpipe hup =>
    rw [(hl.2 _ rfl).2 c hm.get] at hup
    cases hup
  | own hown hpc hne => exact absurd hpc.symm hne.2

theorem accepting_run (hinv : s.Shared build) (h : (s.session i).Replying s.store.content pos)
    (hsent : (s.session i).sent = (s.session i).passed)
    (hrun : Machine.Run step (Accepting i) s ms t) :
    (t.session i).sent = (t.session i).passed := by
  induction hrun with
  | nil s => exact hsent
  | cons hl hstep _ ih =>
    obtain ⟨hstore, h'⟩ := replying_step hinv h hl.1 hstep
    exact ih (hinv.step hstep) (hstore ▸ h') (accepting_step hinv h.reading hstep hl hsent)

/-- **What the client gets.**  When it takes all that `send` is given in a reply, it has got the
content from the session's position on, to the end. -/
theorem reply_arrives (h : Machine.Reachable step Machine.Always (init build) s₀)
    (hlock : s₀.step (.thread i .rdlock) = some s₁) (hrun : Machine.Run step (Accepting i) s₁ ms s₂)
    (hend : (s₂.session i).pc = .rdunlock) :
    ∃ pos : ℕ, (s₀.session i).f_pos = pos ∧ (s₂.session i).sent = s₀.store.content.drop pos := by
  have hinv₀ := shared_reachable h
  have hinv₁ := hinv₀.step hlock
  obtain ⟨pos, hpos, hstore, hreplying⟩ := replying_start hinv₀ hlock
  rw [← hstore] at hreplying
  have hstart : (s₁.session i).sent = (s₁.session i).passed := by
    obtain ⟨c, s', u, hm⟩ := rdlock_moves hinv₀ hlock
    rw [hm.session_self]
    cases hinv₀.turn hm with
    | rdlock => rfl
    | idle he => cases he
  have hsent := accepting_run hinv₁ hreplying hstart hrun
  obtain ⟨hinv₂, -, hreplying₂⟩ := replying_run hinv₁ hreplying (hrun.mono fun _ _ hl ↦ hl.1)
  obtain ⟨hreply, hpassed⟩ := hreplying₂.complete (hinv₂.drained i) hend
  rw [hstore] at hreply
  exact ⟨pos, hpos, by rw [hsent, hpassed, hreply]⟩

end Replies

/-- Two clients; the first one's packet is stored, and the second one has one too. -/
def aboutToReply : List Label :=
  Label.connect 1 ++ Label.connect 2 ++
    Label.steps 0 [.start true, .recv (.data [97, 98, 10]), .scan true, .wrlock, .write 3 .plain,
      .wrunlock] ++
    Label.steps 1 [.start true, .recv (.data [99, 10])]

/-- The first client's reply, read in two pieces, while the second client comes to wait. -/
def replying : List Label :=
  [.thread 0 (.read 2), .thread 1 (.scan true), .thread 0 (.read 4096), .thread 0 (.read 4096),
    .thread 0 (.send 3), .thread 0 (.read 4096)]

attribute [local instance] linux64 in
theorem reply_is_snapshot_two_clients :
    ((after .device (aboutToReply ++ .thread 0 .rdlock :: replying)).session 0).reply
      = (after .device aboutToReply).store.content ∧
    (after .device aboutToReply).store.content = [97, 98, 10] := by
  have h : Machine.Reachable step Machine.Always (init .device) (after .device aboutToReply) :=
    ⟨aboutToReply, run_after (by decide +kernel)⟩
  have hlock : (after .device aboutToReply).step (.thread 0 .rdlock)
      = some (after .device (aboutToReply ++ [.thread 0 .rdlock])) := by decide +kernel
  have hrun : Machine.Run step (Keeping 0) (after .device (aboutToReply ++ [.thread 0 .rdlock]))
      replying (after .device (aboutToReply ++ .thread 0 .rdlock :: replying)) :=
    Machine.run_of_exec_guarded (by decide +kernel)
  have hpos : ((after .device aboutToReply).session 0).f_pos = 0 := by decide +kernel
  have hpc : ((after .device (aboutToReply ++ .thread 0 .rdlock :: replying)).session 0).pc
      = .rdunlock := by decide +kernel
  have hcontent : (after .device aboutToReply).store.content = [97, 98, 10] := by decide +kernel
  generalize after .device aboutToReply = s₀ at *
  generalize after .device (aboutToReply ++ .thread 0 .rdlock :: replying) = s₂ at *
  obtain ⟨pos, hpos', -, -, -, hreply, -⟩ := reply_is_snapshot h hlock hrun
  rw [hpos] at hpos'
  obtain rfl : pos = 0 := by exact_mod_cast hpos'.symm
  exact ⟨(hreply hpc).1, hcontent⟩

end System

end Aesd
