import Aesd.Server.Reply

/-!
# Where a reply starts

A reply starts at the position of the session's open file.  The file build puts it back to the start
after each packet that is stored; in the device build nothing does, so a reply starts where the one
before ended.  For a session without seek commands `Session.Positioned` ties the position to the
replies: it is not at the start just when one of them has read something (`Session.Heard`).

`System.reply_whole_iff` says from it when a reply is the whole content, and
`System.second_reply_is_partial` is a run of the device build in which the second one is not.
-/

set_option autoImplicit false

namespace Aesd

namespace Session

/-- A reply of the session has read something. -/
def Heard (t : Session) : Prop :=
  (∃ r ∈ t.replies, r ≠ []) ∨ t.pc.reading = true ∧ t.reply ≠ []

/-- What the position of the file tells in a session without seek commands. -/
structure Positioned (build : Build) (content : List Byte) (t : Session) : Prop where
  /-- A file of which something was read is not empty. -/
  content : build = .file → t.Heard → content ≠ []
  /-- Only replies move the position, but for a `write` to a file until the `fseek` after it. -/
  heard : build = .device ∨ t.pc ≠ .fwrite ∧ t.pc ≠ .fseek → t.f_pos ≠ 0 → t.Heard
  /-- Where it was not put back, it is not at the start after a reply that has read something. -/
  moved : build = .device ∨ t.pc.idle = true ∨ t.pc = .rdunlock ∨ t.pc = .rdlock ∧ t.packet = none →
    t.Heard → t.f_pos ≠ 0
  /-- In the file build it is put back. -/
  start : build = .file → t.pc = .wrunlock ∨ t.pc = .rdlock ∧ t.packet ≠ none → t.f_pos = 0
  /-- There is no seek in the device build, and only `fseek` in the other. -/
  seek : t.pc ≠ .ioctl ∧ (t.pc = .fseek → build = .file)

variable {build : Build} {s t : Session} {e : Event}

/-- A session is heard from the first byte that is read on. -/
theorem Turn.heard (h : Turn build s e t) : (t.Heard ↔ s.Heard) ∨
    ∃ bytes f_pos, e = .read bytes f_pos ∧ bytes ≠ [] ∧ t.Heard := by
  have hsame : t.replies = s.replies → s.pc.reading = false → t.pc.reading = false →
      (t.Heard ↔ s.Heard) := by
    intro h1 h2 h3
    simp [Heard, h1, h2, h3]
  cases h with
  | idle he hpc hpc' kept =>
    exact Or.inl (hsame kept.replies (Pc.idle_reading hpc) (Pc.idle_reading hpc'))
  | lost hpc hpc' packet seekto kept =>
    exact Or.inl (hsame kept.replies (by rw [hpc]; rfl) (by rw [hpc']; rfl))
  | found packet hpc hpc' hpacket seekto kept =>
    exact Or.inl (hsame kept.replies (by rw [hpc]; rfl) (by rw [hpc']; rfl))
  | write count ok f_pos packet hpc =>
    exact Or.inl (hsame rfl (by rw [hpc]; rfl) (Pc.writing_reading (afterWrite_writing _ _)))
  | rdlock hpc => exact Or.inl (by simp [Heard, hpc, Pc.reading])
  | read bytes f_pos hpc hbytes hpc' =>
    refine Or.inr ⟨bytes, f_pos, rfl, hbytes, Or.inr ⟨?_, by simp [hbytes]⟩⟩
    rcases hpc' with ⟨rfl, -⟩ | ⟨rfl, -⟩ <;> rfl
  | last f_pos hpc => exact Or.inl (by simp [Heard, hpc, Pc.reading])
  | stop f_pos hpc => exact Or.inl (by simp [Heard, hpc, Pc.reading])
  | send count hpc => exact Or.inl (by simp [Heard, hpc, Pc.reading])
  | rdunlock hpc =>
    refine Or.inl ?_
    simp only [Heard, hpc, Pc.reading, List.mem_append, List.mem_singleton, true_and]
    constructor
    · rintro (⟨r, hr | rfl, hne⟩ | h)
      · exact Or.inl ⟨r, hr, hne⟩
      · exact Or.inr hne
      · cases h.1
    · rintro (⟨r, hr, hne⟩ | hne)
      · exact Or.inl ⟨r, Or.inl hr, hne⟩
      · exact Or.inl ⟨s.reply, Or.inr rfl, hne⟩
  | _ => exact Or.inl (hsame rfl (by simp only [*]; rfl) rfl)

theorem positioned_init (build : Build) (content : List Byte) : init.Positioned build content where
  content _ h := by simp [Heard, init, Pc.reading] at h
  heard _ h := absurd rfl h
  moved _ h := by simp [Heard, init, Pc.reading] at h
  start _ h := rfl
  seek := ⟨by simp [init], by simp [init]⟩

variable {content content' : List Byte}

/-- A step that neither moves the position nor reads. -/
theorem Positioned.keep (h : s.Positioned build content) (hheard : t.Heard ↔ s.Heard)
    (hpos : t.f_pos = s.f_pos) (hcontent : build = .file → content ≠ [] → content' ≠ [])
    (h1 : t.pc ≠ .fwrite ∧ t.pc ≠ .fseek → s.pc ≠ .fwrite ∧ s.pc ≠ .fseek)
    (h2 : t.pc.idle = true ∨ t.pc = .rdunlock ∨ t.pc = .rdlock ∧ t.packet = none →
      s.pc.idle = true ∨ s.pc = .rdunlock ∨ s.pc = .rdlock ∧ s.packet = none)
    (h3 : build = .file → t.pc = .wrunlock ∨ t.pc = .rdlock ∧ t.packet ≠ none →
      s.pc = .wrunlock ∨ s.pc = .rdlock ∧ s.packet ≠ none)
    (h4 : t.pc ≠ .ioctl ∧ (t.pc = .fseek → build = .file)) : t.Positioned build content' where
  content hb ht := hcontent hb (h.content hb (hheard.1 ht))
  heard hpc ht := hheard.2 (h.heard (hpc.imp_right h1) (hpos ▸ ht))
  moved hpc ht := hpos ▸ h.moved (hpc.imp_right h2) (hheard.1 ht)
  start hb hpc := hpos.trans (h.start hb (h3 hb hpc))
  seek := h4

/-- Without seek commands, every step of the session keeps the position in place. -/
theorem Positioned.turn (h : s.Positioned build content) (turn : Turn build s e t)
    (hflat : s.FlatInv) (hdata : ∀ p ∈ t.packets, isData p = true)
    (hcontent : build = .file → content ≠ [] → content' ≠ [])
    (hwrite : ∀ count ok f_pos, e = .write count ok f_pos → build = .device → f_pos = s.f_pos)
    (hread : ∀ bytes f_pos, e = .read bytes f_pos → ∃ p : ℕ, s.f_pos = p ∧
      f_pos = (p + bytes.length : ℕ) ∧ (bytes = [] → content.length ≤ p) ∧
      (bytes ≠ [] → content ≠ [])) : t.Positioned build content' := by
  have hheard := turn.heard
  have hsame : (∀ bytes f_pos, e = .read bytes f_pos → bytes = []) → (t.Heard ↔ s.Heard) := by
    intro he
    refine hheard.resolve_right ?_
    rintro ⟨bytes, f_pos, heq, hne, -⟩
    exact hne (he bytes f_pos heq)
  cases turn with
  | idle he hpc hpc' kept packets =>
    have hother : t.pc ≠ .ioctl ∧ t.pc ≠ .fseek ∧ t.pc ≠ .wrunlock ∧ t.pc ≠ .rdlock := by
      refine ⟨?_, ?_, ?_, ?_⟩ <;> intro heq <;> rw [heq] at hpc' <;> cases hpc'
    have hother' : s.pc ≠ .fwrite ∧ s.pc ≠ .fseek := by
      refine ⟨?_, ?_⟩ <;> intro heq <;> rw [heq] at hpc <;> cases hpc
    exact h.keep (hsame fun _ _ heq ↦ by rw [heq] at he; cases he) kept.f_pos hcontent
      (fun _ ↦ hother') (fun _ ↦ Or.inl hpc) (by simp [hother]) (by simp [hother])
  | lost hpc hpc' packet seekto kept =>
    exact h.keep (hsame (by simp)) kept.f_pos hcontent (by simp [hpc]) (by simp [hpc, Pc.idle])
      (by simp [hpc', packet]) (by simp [hpc'])
  | found packet hpc hpc' hpacket seekto kept =>
    exact h.keep (hsame (by simp)) kept.f_pos hcontent (by simp [hpc]) (by simp [hpc, Pc.idle])
      (by simp [hpc']) (by simp [hpc'])
  | append packet hpc =>
    exact h.keep (hsame (by simp)) rfl hcontent (by simp) (by simp [Pc.idle]) (by simp) (by simp)
  | seek hpc seekto =>
    have hflat : s.FlatAt .wrlock := hpc ▸ hflat
    obtain ⟨packet, -, ⟨-, hmem⟩, -, hseek⟩ := hflat
    have := hdata packet hmem
    rw [isData, ← hseek, Option.isNone_iff_eq_none] at this
    exact absurd this seekto
  | ioctl f_pos hpc => exact absurd hpc h.seek.1
  | write count ok f_pos packet hpc =>
    have hiff := hsame (by simp)
    rcases afterWrite_cases build (if ok then s.rest.drop count else []) with
      hpc' | ⟨hb, hpc'⟩ | ⟨hb, hpc'⟩
    · refine ⟨fun hb ht ↦ hcontent hb (h.content hb (hiff.1 ht)), fun hb ht ↦ ?_, fun hb ht ↦ ?_,
        by simp [hpc'], by simp [hpc']⟩
      · have hb := hb.resolve_right (by simp [hpc'])
        exact hiff.2 (h.heard (Or.inl hb) (hwrite count ok f_pos rfl hb ▸ ht))
      · have hb := hb.resolve_right (by simp [hpc', Pc.idle])
        rw [show _ = s.f_pos from hwrite count ok f_pos rfl hb]
        exact h.moved (Or.inl hb) (hiff.1 ht)
    · refine ⟨by simp [hb], fun _ ht ↦ ?_, fun _ ht ↦ ?_, by simp [hb], by simp [hpc']⟩
      · exact hiff.2 (h.heard (Or.inl hb) (hwrite count ok f_pos rfl hb ▸ ht))
      · rw [show _ = s.f_pos from hwrite count ok f_pos rfl hb]
        exact h.moved (Or.inl hb) (hiff.1 ht)
    · subst hb
      exact ⟨fun _ ht ↦ hcontent rfl (h.content rfl (hiff.1 ht)), by simp [hpc'],
        by simp [hpc', Pc.idle], by simp [hpc'], by simp [hpc']⟩
  | fseek hpc =>
    have hb := h.seek.2 hpc
    exact ⟨fun _ ht ↦ hcontent hb (h.content hb ((hsame (by simp)).1 ht)), by simp,
      by simp [hb, Pc.idle], by simp, by simp⟩
  | wrunlock ptr hpc =>
    have hflat : s.FlatAt .wrunlock := hpc ▸ hflat
    obtain ⟨packet, -, ⟨hpacket, -⟩, -⟩ := hflat
    exact h.keep (hsame (by simp)) rfl hcontent (by simp [hpc]) (by simp [hpacket, Pc.idle])
      (by simp [hpc]) (by simp)
  | rdlock hpc =>
    exact h.keep (hsame (by simp)) rfl hcontent (by simp [hpc]) (by simp [Pc.idle]) (by simp)
      (by simp)
  | read bytes f_pos hpc hbytes hpc' =>
    obtain ⟨p, -, rfl, -, hne⟩ := hread bytes f_pos rfl
    have hlen := List.length_pos_of_ne_nil hbytes
    refine ⟨fun hb _ ↦ hcontent hb (hne hbytes), fun _ _ ↦ ?_, fun _ _ ↦ ?_, fun _ hpc ↦ ?_, ?_⟩
    · exact Or.inr ⟨by rcases hpc' with ⟨rfl, -⟩ | ⟨rfl, -⟩ <;> rfl, by simp [hbytes]⟩
    · show ((p + bytes.length : ℕ) : ℤ) ≠ 0
      omega
    · rcases hpc' with ⟨rfl, -⟩ | ⟨rfl, -⟩ <;> simp at hpc
    · rcases hpc' with ⟨rfl, -⟩ | ⟨rfl, -⟩ <;> simp
  | last f_pos hpc =>
    obtain ⟨p, hp, rfl, -⟩ := hread [] f_pos rfl
    exact h.keep (hsame (by simp)) hp.symm hcontent (by simp [hpc]) (by simp [Pc.idle]) (by simp)
      (by simp)
  | stop f_pos hpc =>
    obtain ⟨p, hp, rfl, hend, -⟩ := hread [] f_pos rfl
    have hiff := hsame (by simp)
    refine ⟨fun hb ht ↦ hcontent hb (h.content hb (hiff.1 ht)), fun _ ht ↦ ?_, fun _ ht ↦ ?_,
      by simp, by simp⟩
    · exact hiff.2 (h.heard (Or.inr (by simp [hpc])) (hp ▸ ht))
    · show ((p + ([] : List Byte).length : ℕ) : ℤ) ≠ 0
      cases hbuild : build with
      | device => exact hp ▸ h.moved (Or.inl hbuild) (hiff.1 ht)
      | file =>
        have hlen := List.length_pos_of_ne_nil (h.content hbuild (hiff.1 ht))
        have hle := hend rfl
        simp only [List.length_nil]
        omega
  | send count hpc =>
    exact h.keep (hsame (by simp)) rfl hcontent (by simp [hpc]) (by simp [Pc.idle]) (by simp)
      (by simp)
  | rdunlock hpc =>
    exact h.keep (hsame (by simp)) rfl hcontent (by simp [hpc]) (by simp [hpc]) (by simp) (by simp)

end Session

namespace System

section Rewind

variable [Platform]

variable {build : Build} {s s₀ s₁ s₂ s' t : System} {i j : ℕ} {c : Client} {e : ThreadEvent}
  {event : Event} {u : Session} {l : Label} {ms : List Label}

/-- The sessions without seek commands have their positions in place. -/
def Positioned (build : Build) (s : System) : Prop :=
  ∀ i, (∀ p ∈ (s.session i).packets, isData p = true) →
    (s.session i).Positioned build s.store.content

/-- A file only grows. -/
theorem content_grows (hinv : s.Shared build) (h : s.Effect i c event s') (hb : build = .file)
    (hne : s.store.content ≠ []) : s'.store.content ≠ [] := by
  cases h with
  | @write count o ok f_pos store hw =>
    obtain ⟨old, hs⟩ := Store.eq_file (hinv.build.trans hb)
    rw [hs] at hw hne
    simp only [Store.write] at hw
    split at hw <;> cases hw
    · exact fun h ↦ hne (List.append_eq_nil_iff.1 h).1
    · exact hne
  | own he hstore => rwa [hstore]
  | _ => exact hne

theorem Positioned.moves (h : s.Positioned build) (hinv : s.Shared build)
    (hm : s.Moves i e t c event s' u) : t.Positioned build := by
  have heff := hm.effect
  have hgrows := content_grows hinv heff
  intro j hdata
  rw [hm.shared.1]
  by_cases hj : j = i
  · subst hj
    rw [hm.session_self] at hdata ⊢
    have hself := session_eq hm.get
    have hbefore := h j fun p hp ↦
      hdata p ((hinv.turn hm).packets_isPrefix.subset (hself ▸ hp))
    rw [hself] at hbefore
    obtain ⟨pos, hpos, hfits⟩ := hinv.position j
    rw [hself] at hpos
    refine hbefore.turn (hinv.turn hm) (hinv.inv hm.get).flat hdata hgrows ?_ ?_
    · rintro count ok f_pos rfl hb
      obtain ⟨o, store, hw, -⟩ := effect_write heff
      obtain ⟨d, hs⟩ := Store.eq_device (hinv.build.trans hb)
      rw [hs] at hw
      obtain ⟨x, -, hw⟩ := bind_eq_ok.1 hw
      cases hw
      rfl
    · rintro bytes f_pos rfl
      obtain ⟨-, count, hcount, hr⟩ := effect_read heff
      obtain ⟨data, heq, hprefix, -, hend, -⟩ := Store.read_eq hinv.store hfits hcount
      rw [hpos, heq] at hr
      cases hr
      refine ⟨pos, hpos, rfl, hend, ?_⟩
      rintro hne hnil
      rw [hnil, List.drop_nil] at hprefix
      exact hne (List.prefix_nil.1 hprefix)
  · rw [hm.session_ne hj] at hdata ⊢
    have hbefore := h j hdata
    exact ⟨fun hb ht ↦ hgrows hb (hbefore.content hb ht), hbefore.heard, hbefore.moved,
      hbefore.start, hbefore.seek⟩

theorem Positioned.step (h : s.Positioned build) (hinv : s.Shared build)
    (hs : s.step l = some t) : t.Positioned build := by
  rcases step_cases hinv.clients hs with hq | ⟨i, e, c, event, s', u, rfl, hm⟩
  · intro i hdata
    obtain ⟨mem, heq⟩ := hq.session i
    rw [heq] at hdata ⊢
    rw [hq.store]
    obtain ⟨h1, h2, h3, h4, h5⟩ := h i hdata
    exact ⟨h1, h2, h3, h4, h5⟩
  · exact h.moves hinv hm

theorem positioned_reachable (h : Machine.Reachable System.step Machine.Always (init build) s) :
    s.Shared build ∧ s.Positioned build :=
  h.invariant (P := fun s ↦ s.Shared build ∧ s.Positioned build)
    (fun _ _ _ hs _ hstep ↦ ⟨hs.1.step hstep, hs.2.step hs.1 hstep⟩)
    ⟨shared_init build, fun _ _ ↦ Session.positioned_init build _⟩

/-- **When a reply is the whole content.**  For every session and every of its packets, as long as
none of them was a seek command: the reply is all that is stored when its lock is granted, and all
of it goes to `send`, if and only if there is nothing, or it is the file build and the packet was
flattened, or no reply of the session has read anything before. -/
theorem reply_whole_iff (h : Machine.Reachable System.step Machine.Always (init build) s₀)
    (hlock : s₀.step (.thread i .rdlock) = some s₁)
    (hrun : Machine.Run System.step (Keeping i) s₁ ms s₂) (hend : (s₂.session i).pc = .rdunlock)
    (hdata : ∀ p ∈ (s₀.session i).packets, isData p = true) :
    ((s₂.session i).reply = s₀.store.content ∧ (s₂.session i).passed = s₀.store.content) ↔
      s₀.store.content = [] ∨ build = .file ∧ (s₀.session i).packet ≠ none ∨
        ∀ r ∈ (s₀.session i).replies, r = [] := by
  obtain ⟨hinv, hpositioned⟩ := positioned_reachable h
  obtain ⟨pos, hpos, -, hreplying⟩ := replying_start hinv hlock
  obtain ⟨c, s', u, hm⟩ := rdlock_moves hinv hlock
  have hpc : (s₀.session i).pc = .rdlock := by rw [session_eq hm.get, hm.pc_eq.1]; rfl
  have hreply : (s₂.session i).reply = s₀.store.content.drop pos ∧
      (s₂.session i).passed = (s₂.session i).reply := by
    have hstore : s₁.store = s₀.store :=
      hm.shared.1.trans (hm.effect.store_eq fun _ _ _ h ↦ by cases h).1
    rw [← hstore] at hreplying ⊢
    obtain ⟨hinv₂, -, h₂⟩ := replying_run (hinv.step hlock) hreplying hrun
    exact h₂.complete (hinv₂.drained i) hend
  -- the reply is the content when it starts where the content does
  have hwhole : ((s₂.session i).reply = s₀.store.content ∧
      (s₂.session i).passed = s₀.store.content) ↔ s₀.store.content = [] ∨ pos = 0 := by
    rw [hreply.2, and_self, hreply.1]
    constructor
    · intro heq
      have := congrArg List.length heq
      rw [List.length_drop] at this
      rw [← List.length_eq_zero_iff]
      omega
    · rintro (hnil | rfl)
      · rw [hnil, List.drop_nil]
      · rfl
  have hheard : (s₀.session i).Heard ↔ ∃ r ∈ (s₀.session i).replies, r ≠ [] := by
    simp [Session.Heard, hpc, Pc.reading]
  have hplaced := hpositioned i hdata
  have hzero : pos = 0 ↔ (s₀.session i).f_pos = 0 := by rw [hpos]; omega
  rw [hwhole, hzero]
  refine or_congr Iff.rfl ?_
  by_cases hfile : build = .file ∧ (s₀.session i).packet ≠ none
  · simp [hfile, hplaced.start hfile.1 (Or.inr ⟨hpc, hfile.2⟩)]
  -- nobody has put the position back
  have hmoved : build = .device ∨ (s₀.session i).pc.idle = true ∨ (s₀.session i).pc = .rdunlock ∨
      (s₀.session i).pc = .rdlock ∧ (s₀.session i).packet = none := by
    cases hb : build with
    | device => exact Or.inl rfl
    | file => exact Or.inr (Or.inr (Or.inr ⟨hpc, by simpa [hb] using hfile⟩))
  have hiff : (s₀.session i).f_pos ≠ 0 ↔ (s₀.session i).Heard :=
    ⟨hplaced.heard (Or.inr (by simp [hpc])), hplaced.moved hmoved⟩
  rw [or_iff_right hfile, ← not_iff_not, ← ne_eq, hiff, hheard]
  simp

end Rewind

attribute [local instance] linux64 in
/-- The first reply to a client is all that is stored. -/
theorem first_reply_is_whole :
    ((after .device (aboutToReply ++ .thread 0 .rdlock :: replying)).session 0).reply
      = (after .device aboutToReply).store.content ∧
    ((after .device (aboutToReply ++ .thread 0 .rdlock :: replying)).session 0).passed
      = (after .device aboutToReply).store.content := by
  have h : Machine.Reachable step Machine.Always (init .device) (after .device aboutToReply) :=
    ⟨aboutToReply, run_after (by decide +kernel)⟩
  have hlock : (after .device aboutToReply).step (.thread 0 .rdlock)
      = some (after .device (aboutToReply ++ [.thread 0 .rdlock])) := by decide +kernel
  have hrun : Machine.Run step (Keeping 0) (after .device (aboutToReply ++ [.thread 0 .rdlock]))
      replying (after .device (aboutToReply ++ .thread 0 .rdlock :: replying)) :=
    Machine.run_of_exec_guarded (by decide +kernel)
  have hpc : ((after .device (aboutToReply ++ .thread 0 .rdlock :: replying)).session 0).pc
      = .rdunlock := by decide +kernel
  have hdata : ∀ p ∈ ((after .device aboutToReply).session 0).packets, isData p = true := by
    decide +kernel
  have hfirst : ∀ r ∈ ((after .device aboutToReply).session 0).replies, r = [] := by decide +kernel
  generalize after .device aboutToReply = s₀ at *
  generalize after .device (aboutToReply ++ .thread 0 .rdlock :: replying) = s₂ at *
  exact (reply_whole_iff h hlock hrun hpc hdata).2 (Or.inr (Or.inr hfirst))

/-- One client, which sends two packets and reads the first reply to its end. -/
def twoPackets : List Label :=
  Label.connect 1 ++ Label.steps 0 [.start true, .recv (.data [97, 10]), .scan true, .wrlock,
    .write 2 .plain, .wrunlock, .rdlock, .read 4096, .read 4096, .send 2, .read 4096, .rdunlock,
    .next, .scan true, .recv (.data [98, 10]), .scan true, .wrlock, .write 2 .plain, .wrunlock]

/-- The second reply. -/
def secondReply : List Label := Label.steps 0 [.read 4096, .read 4096, .send 2, .read 4096]

attribute [local instance] linux64 in
/-- In the device build the second of two packets on one connection is answered with itself, not
with the two that are stored. -/
theorem second_reply_is_partial :
    Machine.Run step Machine.Always (init .device) twoPackets (after .device twoPackets) ∧
    (after .device twoPackets).step (.thread 0 .rdlock)
      = some (after .device (twoPackets ++ [.thread 0 .rdlock])) ∧
    Machine.Run step (Keeping 0) (after .device (twoPackets ++ [.thread 0 .rdlock])) secondReply
      (after .device (twoPackets ++ .thread 0 .rdlock :: secondReply)) ∧
    ((after .device (twoPackets ++ .thread 0 .rdlock :: secondReply)).session 0).pc = .rdunlock ∧
    ((after .device twoPackets).session 0).packets = [[97, 10], [98, 10]] ∧
    (∀ p ∈ ((after .device twoPackets).session 0).packets, isData p = true) ∧
    (after .device twoPackets).store.content = [97, 10, 98, 10] ∧
    ((after .device (twoPackets ++ .thread 0 .rdlock :: secondReply)).session 0).reply = [98, 10] :=
  ⟨run_after (by decide +kernel), by decide +kernel,
    Machine.run_of_exec_guarded (by decide +kernel), by decide +kernel, by decide +kernel,
    by decide +kernel, by decide +kernel, by decide +kernel⟩

end System

end Aesd
