import Aesd.Lib.Concat
import Aesd.Server.Turn

/-!
# What of a reply is accepted

`reply_to_client` gives what each `fread` got to one call of `send`, and does not look at the
result.  `Session.exchanges` are these pairs of calls in a run: what `fread` got, and how many of
these bytes the socket took.  Any sequence of them can be met (`Session.exists_reply`).

In the end all that was read for the reply went through `send` (`Turn.accounted`), and what the
socket took is a start of each piece (`Turn.exchange`); so it is the same just when no `send` took
less than it was given.
-/

set_option autoImplicit false

namespace Aesd

namespace Session

/-- What was read for the reply was given to `send`, or is about to be, or is read ahead. -/
def Accounted (s : Session) : Prop :=
  s.reply = s.passed ++ (if s.pc = .send then s.buffer else []) ++ s.pending

/-- A call of `send`: what it is given, and how much of it the socket takes. -/
def exchange (s : Session) : Event → Option (List Byte × ℕ)
  | .send count => some (s.buffer, count)
  | _ => none

/-- The calls of `send` in a run, each with what the `fread` before it got. -/
def exchanges (build : Build) (s : Session) (es : List Event) : List (List Byte × ℕ) :=
  Machine.observed (step build) exchange s es

/-- The steps of `reply_to_client` between `rdlock` and `rdunlock`. -/
def InReply (_ : Session) (e : Event) : Prop := e ≠ .rdunlock

instance (s : Session) (e : Event) : Decidable (InReply s e) :=
  inferInstanceAs (Decidable (e ≠ .rdunlock))

theorem inReply_read (s : Session) (bytes : List Byte) (f_pos : ℤ) :
    InReply s (.read bytes f_pos) := by simp [InReply]

theorem inReply_send (s : Session) (count : ℕ) : InReply s (.send count) := by simp [InReply]

variable {build : Build} {s t s₀ s₁ s₂ : Session} {e : Event} {es : List Event}

/-! ## Any results can be met -/

/-- `fread` gets some bytes: as many as it asked for, or less at the end of the file. -/
theorem exists_fread (build : Build) (hpc : s.pc = .fread) (hpending : s.pending = [])
    {bytes : List Byte} (hbytes : bytes ≠ []) (hsize : bytes.length ≤ BUFFER_SIZE) :
    ∃ es t, Machine.Run (step build) InReply s es t ∧ exchanges build s es = [] ∧
      t.pc = .send ∧ t.buffer = bytes ∧ t.pending = [] := by
  have hread : step build s (.read bytes 0) = some (fill { s with
      pending := s.pending ++ bytes, reply := s.reply ++ bytes, f_pos := 0 }) :=
    step_eq_some.2 ⟨hpc, hsize, by rw [handle, if_pos hbytes, settle_ok]⟩
  rw [hpending, List.nil_append, fill] at hread
  by_cases hfull : BUFFER_SIZE ≤ bytes.length
  · rw [if_pos hfull] at hread
    refine ⟨[.read bytes 0], _, .single (inReply_read s bytes 0) hread, ?_, rfl,
      List.take_of_length_le hsize, List.drop_eq_nil_of_le hsize⟩
    exact Machine.observed_cons_none hread rfl []
  · rw [if_neg hfull] at hread
    have hend : step build { s with pending := bytes, reply := s.reply ++ bytes, f_pos := 0 }
        (.read [] 0) = some { s with
          pending := [], reply := s.reply ++ bytes, f_pos := 0, buffer := bytes, pc := .send } :=
      step_eq_some.2 ⟨hpc, Nat.zero_le _,
        by rw [handle, if_neg (not_not.2 rfl), if_pos hbytes, settle_ok]⟩
    refine ⟨[.read bytes 0, .read [] 0], _,
      .cons (inReply_read s bytes 0) hread (.single (inReply_read _ [] 0) hend), ?_, rfl, rfl, rfl⟩
    exact (Machine.observed_cons_none hread rfl _).trans (Machine.observed_cons_none hend rfl [])

/-- One turn of the loop: `fread` gets some bytes, and `send` takes some of them. -/
theorem exists_exchange (build : Build) (hpc : s.pc = .fread) (hpending : s.pending = [])
    {x : List Byte × ℕ} (hx : x.1 ≠ [] ∧ x.1.length ≤ BUFFER_SIZE ∧ x.2 ≤ x.1.length) :
    ∃ es t, Machine.Run (step build) InReply s es t ∧ exchanges build s es = [x] ∧
      t.pc = .fread ∧ t.pending = [] := by
  obtain ⟨es, u, hrun, hnone, hsend, hbuffer, hpending'⟩ :=
    exists_fread build hpc hpending hx.1 hx.2.1
  have hstep : step build u (.send x.2) = some { u with
      passed := u.passed ++ u.buffer, sent := u.sent ++ u.buffer.take x.2, buffer := []
      pc := .fread } := step_eq_some.2 ⟨hsend, by rw [Possible, hbuffer]; exact hx.2.2, rfl⟩
  refine ⟨es ++ [.send x.2], _, hrun.append (.single (inReply_send u x.2) hstep), ?_, ?_⟩
  · rw [exchanges, hrun.observed_append, ← exchanges, hnone, Machine.observed_cons hstep, exchange,
      hbuffer]
    rfl
  · exact ⟨rfl, hpending'⟩

/-- **Every sequence of results** of `fread` and `send` is that of some reply. -/
theorem exists_reply (build : Build) (xs : List (List Byte × ℕ))
    (hxs : ∀ x ∈ xs, x.1 ≠ [] ∧ x.1.length ≤ BUFFER_SIZE ∧ x.2 ≤ x.1.length) (hpc : s.pc = .fread)
    (hpending : s.pending = []) :
    ∃ es t, Machine.Run (step build) InReply s es t ∧ exchanges build s es = xs ∧
      t.pc = .rdunlock := by
  induction xs generalizing s with
  | nil =>
    have hstop : step build s (.read [] 0) = some { s with f_pos := 0, pc := .rdunlock } :=
      step_eq_some.2 ⟨hpc, Nat.zero_le _,
        by rw [handle, if_neg (not_not.2 rfl), if_neg (not_not.2 hpending), settle_ok]⟩
    exact ⟨[.read [] 0], _, .single (inReply_read s [] 0) hstop,
      Machine.observed_cons_none hstop rfl [], rfl⟩
  | cons x xs ih =>
    rw [List.forall_mem_cons] at hxs
    obtain ⟨es₁, u, hrun₁, hx, hpc', hpending'⟩ := exists_exchange build hpc hpending hxs.1
    obtain ⟨es₂, t, hrun₂, hxs', hend⟩ := ih hxs.2 hpc' hpending'
    refine ⟨es₁ ++ es₂, t, hrun₁.append hrun₂, ?_, hend⟩
    rw [exchanges, hrun₁.observed_append, ← exchanges, ← exchanges, hx, hxs']
    rfl

/-! ## What a step of a reply does -/

/-- The steps of a reply keep the account of what was read. -/
theorem Turn.accounted (h : Turn build s e t) (hpc : s.pc.reading = true) (he : e ≠ .rdunlock)
    (hs : s.Accounted) : t.pc.reading = true ∧ t.Accounted := by
  rw [Accounted] at hs
  cases h with
  | idle he hidle =>
    rw [Pc.idle_reading hidle] at hpc
    cases hpc
  | read bytes f_pos hfread hbytes hpc' =>
    rw [hfread] at hs
    rcases hpc' with ⟨rfl, rfl⟩ | ⟨rfl, hcut⟩
    · exact ⟨rfl, by simp [Accounted, hs]⟩
    · exact ⟨rfl, by simp [Accounted, hs, hcut]⟩
  | last f_pos hfread =>
    rw [hfread] at hs
    exact ⟨rfl, by simpa [Accounted] using hs⟩
  | stop f_pos hfread =>
    rw [hfread] at hs
    exact ⟨rfl, by simpa [Accounted] using hs⟩
  | send count hsend =>
    rw [hsend] at hs
    exact ⟨rfl, by simpa [Accounted] using hs⟩
  | rdunlock => exact absurd rfl he
  | _ =>
    simp only [*] at hpc
    cases hpc

/-- What a step of a reply gives to `send`, and what the socket takes of it. -/
theorem Turn.exchange (h : Turn build s e t) (hpc : s.pc.reading = true) :
    t.passed = s.passed ++ Concat.whole (s.exchange e).toList ∧
      t.sent = s.sent ++ Concat.taken (s.exchange e).toList := by
  cases h with
  | idle he hidle =>
    rw [Pc.idle_reading hidle] at hpc
    cases hpc
  | send count => simp [Session.exchange]
  | read | last | stop | rdunlock => simp [Session.exchange]
  | _ =>
    simp only [*] at hpc
    cases hpc

/-! ## A whole reply -/

/-- **A run during a reply.** -/
theorem run_inReply (h : Machine.Run (step build) InReply s es t) (hinv : s.Inv ∧ s.Drained)
    (hpc : s.pc.reading = true) (hs : s.Accounted) :
    t.Drained ∧ t.Accounted ∧ t.passed = s.passed ++ Concat.whole (exchanges build s es) ∧
      t.sent = s.sent ++ Concat.taken (exchanges build s es) := by
  induction h with
  | nil s => exact ⟨hinv.2, hs, (List.append_nil _).symm, (List.append_nil _).symm⟩
  | cons hok hstep _ ih =>
    have hturn := step_turn hinv.1.flat hstep
    obtain ⟨hpc', hs'⟩ := hturn.accounted hpc hok hs
    obtain ⟨hpassed, hsent⟩ := hturn.exchange hpc
    obtain ⟨h1, h2, h3, h4⟩ := ih ⟨hinv.1.step hstep, hturn.drained hinv.2⟩ hpc' hs'
    rw [exchanges, Machine.observed_cons hstep, Concat.whole_append, Concat.taken_append]
    exact ⟨h1, h2, by rw [h3, hpassed, List.append_assoc]; rfl,
      by rw [h4, hsent, List.append_assoc]; rfl⟩

theorem drained_reachable (h : Machine.Reachable (step build) Machine.Always init s) :
    s.Inv ∧ s.Drained :=
  h.invariant (P := fun s ↦ s.Inv ∧ s.Drained)
    (fun _ _ _ hs _ hstep ↦ ⟨hs.1.step hstep, (step_turn hs.1.flat hstep).drained hs.2⟩)
    ⟨inv_init, fun _ _ ↦ rfl⟩

/-- **A reply delivers what it read just when no `send` is cut short.**  Whatever the calls of
`fread` get and the calls of `send` accept between the grant of the lock and the end of the loop:
what was read is what `fread` got, and the socket has accepted exactly this if and only if no `send`
accepted fewer bytes than it was given. -/
theorem reply_delivered_iff (h : Machine.Reachable (step build) Machine.Always init s₀)
    (hlock : step build s₀ .rdlock = some s₁) (hrun : Machine.Run (step build) InReply s₁ es s₂)
    (hend : s₂.pc = .rdunlock) :
    s₂.reply = Concat.whole (exchanges build s₁ es) ∧
      (s₂.sent = s₂.reply ↔ ∀ x ∈ exchanges build s₁ es, x.1.length ≤ x.2) := by
  obtain ⟨hinv, hdrained⟩ := drained_reachable h
  have hinv₁ := hinv.step hlock
  have hdrained₁ := (step_turn hinv.flat hlock).drained hdrained
  obtain ⟨hpc, -, rfl⟩ := step_eq_some.1 hlock
  have hpending : s₀.pending = [] := hdrained (by simp [hpc, Event.pc]) (by simp [hpc, Event.pc])
  have hstart : (s₀.settle (s₀.handle build .rdlock)).Accounted := by
    simp [handle, Accounted, hpending]
  obtain ⟨hdrained₂, hacc, hpassed, hsent⟩ := run_inReply hrun ⟨hinv₁, hdrained₁⟩ rfl hstart
  rw [Accounted, hend, hdrained₂ (by simp [hend]) (by simp [hend])] at hacc
  have hreply : s₂.reply = s₂.passed := by simpa using hacc
  rw [handle, settle_ok, List.nil_append] at hpassed hsent
  rw [hreply, hpassed, hsent]
  exact ⟨rfl, Concat.taken_eq_whole_iff⟩

/-- A session up to the reply to its first packet. -/
def packetStored : List Event :=
  [.start true, .recv (.data [97, 98, newline]), .scan true, .wrlock, .write 3 true 0, .wrunlock]

/-- The packet is read and sent in two pieces. -/
theorem reply_delivered_two_pieces : ∃ s₀ s₁ es s₂,
    Machine.Reachable (step .device) Machine.Always init s₀ ∧
      step .device s₀ .rdlock = some s₁ ∧ Machine.Run (step .device) InReply s₁ es s₂ ∧
      s₂.pc = .rdunlock ∧ s₂.reply = [97, 98, newline] ∧ s₂.sent = s₂.reply := by
  let es : List Event := [.read [97] 1, .read [] 1, .send 1, .read [98, newline] 3, .read [] 3,
    .send 2, .read [] 3]
  obtain ⟨s₀, s₁, s₂, h₀, hlock, hexec, hend, hreply, hall⟩ : ∃ s₀ s₁ s₂,
      Machine.exec (step .device) init packetStored = some s₀ ∧ step .device s₀ .rdlock = some s₁ ∧
        Machine.exec (fun s e ↦ if InReply s e then step .device s e else none) s₁ es = some s₂ ∧
        s₂.pc = .rdunlock ∧ s₂.reply = [97, 98, newline] ∧
        ∀ x ∈ exchanges .device s₁ es, x.1.length ≤ x.2 :=
    ⟨_, _, _, rfl, rfl, rfl, by decide +kernel, by decide +kernel, by decide +kernel⟩
  have h : Machine.Reachable (step .device) Machine.Always init s₀ :=
    ⟨packetStored, Machine.run_of_exec h₀⟩
  have hrun : Machine.Run (step .device) InReply s₁ es s₂ := Machine.run_of_exec_guarded hexec
  exact ⟨s₀, s₁, es, s₂, h, hlock, hrun, hend, hreply,
    (reply_delivered_iff h hlock hrun hend).2.2 hall⟩

/-- The socket takes one byte of the three that were read, and the others are never sent. -/
theorem reply_cut_short : ∃ s₀ s₁ es s₂,
    Machine.Reachable (step .device) Machine.Always init s₀ ∧
      step .device s₀ .rdlock = some s₁ ∧ Machine.Run (step .device) InReply s₁ es s₂ ∧
      s₂.pc = .rdunlock ∧ exchanges .device s₁ es = [([97, 98, newline], 1)] ∧
      s₂.reply = [97, 98, newline] ∧ s₂.sent = [97] := by
  let es : List Event := [.read [97, 98, newline] 3, .read [] 3, .send 1, .read [] 3]
  exact ⟨_, _, es, _, ⟨packetStored, Machine.run_of_exec rfl⟩, rfl,
    Machine.run_of_exec_guarded rfl, by decide +kernel, by decide +kernel, by decide +kernel,
    by decide +kernel⟩

end Session

end Aesd
