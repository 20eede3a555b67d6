import Aesd.Server.Packets
import Aesd.Server.Turn

/-!
# When an allocation fails

What a session does with a `NULL` from `malloc`.  A packet for whose flat buffer there is no memory
is dropped, and the session goes on, if the packet lies in one fragment: then nothing was to be
relinked, and the assertion after `write_new_packet` holds.  Any other failure is not survived: a
missing fragment is handed to `recv`, and a packet of several fragments leaves the list as it is,
with its start before `curr_fragment`.

`Session.Bearable` says which failures are survived, and `Session.allocation_failure` that they are;
`Session.unbearable` says where the others lead.
-/

set_option autoImplicit false

namespace Aesd

/-- How many packets the bytes complete. -/
def newlines (bytes : List Byte) : ℕ := bytes.countP fun b ↦ decide (b = newline)

theorem newlines_append (a b : List Byte) : newlines (a ++ b) = newlines a + newlines b :=
  List.countP_append

theorem length_segments (stream : List Byte) : (segments stream).length = newlines stream :=
  Segments.length_segments stream

theorem newlines_of_isSegment {piece : List Byte} (h : Segments.IsSegment (· = newline) piece) :
    newlines piece = 1 := Segments.countP_isSegment h

theorem newlines_eq_zero {bytes : List Byte} (h : ∀ b ∈ bytes, b ≠ newline) :
    newlines bytes = 0 := List.countP_eq_zero.2 (by simpa using h)

namespace Session

/-- The bytes of the current fragment that are still to be looked at. -/
def unseen (s : Session) : List Byte :=
  match s.curr with
  | .ok (_, fragment) => fragment.bytes s.bytesLeft
  | .error _ => []

/-- The size of the current fragment. -/
def currSize (s : Session) : ℕ :=
  match s.curr with
  | .ok (_, fragment) => fragment.size
  | .error _ => 0

/-- **The failures that are survived**: there is nothing to allocate, or it is the flat buffer of a
packet that lies in one fragment. -/
def Bearable (s : Session) : Event → Prop
  | .start ok => ok = true
  | .scan ok => ok = true ∨ s.bytesLeft = 0 ∨ s.fragments = s.currFragment ∧ newline ∈ s.unseen
  | _ => True

instance (s : Session) : DecidablePred s.Bearable
  | .start ok => inferInstanceAs (Decidable (ok = true))
  | .scan ok => inferInstanceAs (Decidable (ok = true ∨ s.bytesLeft = 0 ∨
      s.fragments = s.currFragment ∧ newline ∈ s.unseen))
  | .recv _ | .wrlock | .ioctl _ | .write .. | .fseek | .wrunlock | .rdlock | .read .. | .send _
  | .rdunlock | .next | .free | .close | .mark => inferInstanceAs (Decidable True)

/-- The packets that the bytes to be looked at complete, the one at hand not counted. -/
def ahead (s : Session) : ℕ :=
  if s.pc = .scan then newlines s.unseen
  else if s.pc.inPacket = true then newlines (s.unseen.drop s.currSize)
  else 0

/-- The session has not met a failure that it does not survive. -/
structure Sane (s : Session) : Prop where
  /-- It has a fragment to receive into. -/
  curr : s.pc = .recv → s.currFragment ≠ none
  /-- A packet at hand lies in the only fragment. -/
  alone : s.pc.inPacket = true → s.fragments = s.currFragment
  /-- Nothing has gone wrong. -/
  no_fault : ∀ bug, s.pc ≠ .fault bug
  /-- Every packet was flattened, or is one of the failures. -/
  count : s.packets.length + s.failures + s.ahead = newlines s.stream

variable {build : Build} {s t : Session} {e : Event} {l : List (ℕ × PacketFragment)} {ptr : ℕ}
  {f : PacketFragment}

theorem sane_init : init.Sane := ⟨by simp [init], by simp [init, Pc.inPacket], by simp [init], rfl⟩

theorem ahead_scan (h : s.pc = .scan) : s.ahead = newlines s.unseen := if_pos h

theorem ahead_inPacket (h : s.pc.inPacket = true) :
    s.ahead = newlines (s.unseen.drop s.currSize) := by
  have hscan : s.pc ≠ .scan := by
    intro hscan
    rw [hscan] at h
    cases h
  rw [ahead, if_neg hscan, if_pos h]

theorem ahead_eq_zero (hscan : s.pc ≠ .scan) (h : s.pc.inPacket = false) : s.ahead = 0 := by
  rw [ahead, if_neg hscan, h]
  rfl

theorem unseen_eq (h : Filling s.mem s.fragments s.currFragment l ptr f) :
    s.unseen = f.bytes s.bytesLeft := by rw [unseen, curr_eq h]

theorem currSize_eq (h : Filling s.mem s.fragments s.currFragment l ptr f) :
    s.currSize = f.size := by rw [currSize, curr_eq h]

theorem Sane.stay (h : s.Sane) (hpc : s.pc.inPacket = true) (hpc' : t.pc.inPacket = true)
    (hst : s.Stays t) : t.Sane := by
  have hcurr : t.curr = s.curr := by rw [Session.curr, Session.curr, hst.mem, hst.currFragment]
  have hahead : t.ahead = s.ahead := by
    rw [ahead_inPacket hpc, ahead_inPacket hpc', unseen, unseen, currSize, currSize, hcurr,
      hst.bytesLeft]
  refine ⟨?_, fun _ ↦ by rw [hst.fragments, hst.currFragment, h.alone hpc], ?_, ?_⟩
  · intro hrecv
    rw [hrecv] at hpc'
    cases hpc'
  · intro bug hbug
    rw [hbug] at hpc'
    cases hpc'
  · rw [hst.packets, hst.failures, hst.stream, hahead, h.count]

theorem sane_recv (h : s.Inv) (hs : s.Sane) (hpc : s.pc = .recv) (r : Received) :
    (s.settle (s.handle build (.recv r))).Sane := by
  have hframe : s.FrameAt .recv := hpc ▸ h.frame
  obtain ⟨l, ptr, f, hfill, -⟩ := hframe.resolve_right fun h' ↦ hs.curr hpc h'.1
  have hcount := hs.count
  rw [ahead_eq_zero (by simp [hpc]) (by rw [hpc]; rfl)] at hcount
  cases r with
  | data bytes =>
    simp only [handle, curr_eq hfill, ok_bind, settle_ok]
    refine ⟨by simp, by simp [Pc.inPacket], by simp, ?_⟩
    have hset := hfill.set
      (g := { f with buffer := bytes ++ f.buffer.drop bytes.length, data := 0 })
      hfill.chain.next_last
    rw [ahead_scan rfl, unseen_eq hset]
    simp only [PacketFragment.bytes, List.drop_zero, List.take_left]
    rw [newlines_append]
    omega
  | eof =>
    simp only [handle, curr_eq hfill, ok_bind, settle_ok]
    exact ⟨by simp, by simp [Pc.inPacket], by simp, hcount⟩
  | error =>
    simp only [handle, curr_eq hfill, ok_bind, settle_ok]
    exact ⟨by simp, by simp [Pc.inPacket], by simp, hcount⟩

theorem sane_scan (h : s.Inv) (hs : s.Sane) (hpc : s.pc = .scan) {ok : Bool}
    (hb : s.Bearable (.scan ok)) : (s.settle (s.handle build (.scan ok))).Sane := by
  have hframe : s.FrameAt .scan := hpc ▸ h.frame
  obtain ⟨l, ptr, f, seen, hfill, hlen, -⟩ := hframe
  have hcount := hs.count
  rw [ahead_scan hpc, unseen_eq hfill] at hcount
  rw [Bearable, unseen_eq hfill] at hb
  cases hfind : (f.bytes s.bytesLeft).findIdx? (· == newline) with
  | none =>
    have hnl := findIdx?_none hfind
    rw [newlines_eq_zero hnl] at hcount
    simp only [handle, scan, curr_eq hfill, ok_bind, PacketFragment.read_eq hlen, hfind]
    by_cases hleft : 0 < s.bytesLeft
    · obtain rfl : ok = true :=
        hb.resolve_right fun h' ↦ h'.elim (fun h0 ↦ by omega) fun h1 ↦ hnl _ h1.2 rfl
      rw [if_pos hleft]
      exact ⟨by simp [packetFragmentAlloc], by simp [Pc.inPacket], by simp, hcount⟩
    · rw [if_neg hleft]
      exact ⟨by simp [hfill.curr], by simp [Pc.inPacket], by simp, hcount⟩
  | some i =>
    obtain ⟨hset, hfalse, mem, hfill', -, htrue⟩ := scan_some hfill hlen hfind
    obtain ⟨hi, hseg⟩ := findIdx?_newline hfind
    rw [← List.take_append_drop (i + 1) (f.bytes s.bytesLeft), newlines_append,
      newlines_of_isSegment hseg] at hcount
    cases ok with
    | true =>
      rw [handle, htrue, settle_ok]
      refine ⟨by simp, fun _ ↦ hfill'.curr.symm, by simp, ?_⟩
      rw [ahead_inPacket rfl, unseen_eq hfill', currSize_eq hfill']
      show (s.packets ++ [_]).length + s.failures + newlines ((f.bytes s.bytesLeft).drop (i + 1))
        = newlines s.stream
      rw [List.length_append, List.length_singleton]
      omega
    | false =>
      have halone : s.fragments = s.currFragment := by
        rcases hb with hb | hb | hb
        · cases hb
        · rw [PacketFragment.length_bytes hlen] at hi
          omega
        · exact hb.1
      rw [handle, hfalse, settle_ok]
      refine ⟨by simp, fun _ ↦ halone, by simp, ?_⟩
      rw [ahead_inPacket rfl, unseen_eq hset, currSize_eq hset]
      show s.packets.length + (s.failures + 1) + newlines ((f.bytes s.bytesLeft).drop (i + 1))
        = newlines s.stream
      omega

theorem sane_next (h : s.Inv) (hs : s.Sane) (hpc : s.pc = .next) :
    (s.settle (s.handle build .next)).Sane := by
  have hframe : s.FrameAt .next := hpc ▸ h.frame
  obtain ⟨l, ptr, f, seen, piece, after, hfill, hlen, hbytes, hsize, -⟩ := hframe
  have halone := hs.alone (by rw [hpc]; rfl)
  -- the only fragment is the current one
  obtain rfl : l = [] := by
    cases l with
    | nil => rfl
    | cons x l =>
      rw [hfill.chain.1, hfill.curr, Option.some_inj] at halone
      exact absurd halone (hfill.ne x (List.mem_cons_self ..))
  have hcount := hs.count
  rw [ahead_inPacket (by rw [hpc]; rfl), unseen_eq hfill, currSize_eq hfill] at hcount
  have hset := hfill.set (g := { f with data := f.data + f.size }) hfill.chain.next_last
  rw [handle_next hfill, settle_ok]
  refine ⟨by simp, by simp [Pc.inPacket], by simp, ?_⟩
  rw [ahead_scan rfl, unseen_eq hset, ← PacketFragment.drop_bytes]
  exact hcount

/-- **Every step in which no failure is unbearable.** -/
theorem Sane.step (h : s.Inv) (hs : s.Sane) (hb : s.Bearable e)
    (hstep : Session.step build s e = some t) : t.Sane := by
  have hturn := step_turn h.flat hstep
  obtain ⟨hpc, -, rfl⟩ := step_eq_some.1 hstep
  have hframe : s.FrameAt e.pc := hpc ▸ h.frame
  by_cases hin : e.pc.inPacket = true ∧ e ≠ .next
  · obtain ⟨hpc', hst⟩ := hturn.stays hpc hin.1 hin.2
    exact hs.stay (by rw [hpc, hin.1]) hpc' hst
  have hcount := hs.count
  have hend : s.pc ≠ .scan → s.pc.inPacket = false →
      s.packets.length + s.failures = newlines s.stream := by
    intro h1 h2
    rw [ahead_eq_zero h1 h2] at hcount
    exact hcount
  cases e with
  | start ok =>
    obtain rfl : ok = true := hb
    obtain rfl : s = init := hframe
    exact ⟨by simp [handle, packetFragmentAlloc], by simp [handle, Pc.inPacket], by simp [handle],
      rfl⟩
  | recv r => exact sane_recv h hs hpc r
  | scan ok => exact sane_scan h hs hpc hb
  | next => exact sane_next h hs hpc
  | free =>
    obtain ⟨⟨l, hchain, howns⟩, -⟩ := hframe
    obtain ⟨mem, heq, -⟩ := packetFragmentsFree_eq hchain howns
    rw [handle, heq, ok_bind, settle_ok]
    exact ⟨by simp, by simp [Pc.inPacket], by simp,
      hend (by simp [hpc, Event.pc]) (by rw [hpc]; rfl)⟩
  | close =>
    exact ⟨by simp [handle], by simp [handle, Pc.inPacket], by simp [handle],
      hend (by simp [hpc, Event.pc]) (by rw [hpc]; rfl)⟩
  | mark =>
    exact ⟨by simp [handle], by simp [handle, Pc.inPacket], by simp [handle],
      hend (by simp [hpc, Event.pc]) (by rw [hpc]; rfl)⟩
  | _ => exact absurd ⟨rfl, by simp⟩ hin

theorem run_sane {s₀ : Session} {es : List Event} (h : Machine.Run (step build) Bearable s₀ es s)
    (hinv : s₀.Inv) (hs : s₀.Sane) : s.Inv ∧ s.Sane ∧ s.stream = s₀.stream ++ streamOf es := by
  induction h with
  | nil s => exact ⟨hinv, hs, by simp [streamOf, receivedOf]⟩
  | cons hb hstep _ ih =>
    have hs' := hs.step hinv hb hstep
    obtain ⟨h1, h2, h3⟩ := ih (hinv.step hstep) hs'
    exact ⟨h1, h2, h3.trans (step_stream hstep hs'.no_fault _)⟩

/-- **A session survives its bearable failures.**  In a run in which every `malloc` that fails is
that of the flat buffer of a packet lying in one fragment, no missing fragment is used and no
assertion fails.  What is handed on are segments of the stream, whole and in order, and when the
thread is done all of them but one for each failure. -/
theorem allocation_failure {es : List Event} (h : Machine.Run (step build) Bearable init es s) :
    (∀ bug, s.pc ≠ .fault bug) ∧ s.packets.Sublist (segments (streamOf es)) ∧
      (∀ p ∈ s.packets, Segments.IsSegment (· = newline) p) ∧
      (s.pc = .done → s.packets.length + s.failures = (segments (streamOf es)).length) := by
  obtain ⟨hinv, hs, hstream⟩ := run_sane h inv_init sane_init
  have hstream : streamOf es = s.stream := by rw [hstream]; rfl
  rw [hstream]
  have hsub := hinv.packets_sublist
  refine ⟨hs.no_fault, hsub, fun p hp ↦ Segments.isSegment_of_mem _ p (hsub.subset hp), ?_⟩
  intro hdone
  have hcount := hs.count
  rw [ahead_eq_zero (by simp [hdone]) (by rw [hdone]; rfl)] at hcount
  rw [length_segments]
  exact hcount

/-- There is no memory for the first of two packets. -/
theorem allocation_failure_two_packets : ∃ es s,
    Machine.Run (step .device) Bearable init es s ∧ s.pc = .done ∧ s.failures = 1 ∧
      s.packets = [[98, newline]] ∧ s.packets.Sublist (segments (streamOf es)) := by
  let es : List Event := [.start true, .recv (.data [97, newline, 98, newline]), .scan false,
    .rdlock, .read [] 0, .rdunlock, .next, .scan true, .wrlock, .write 2 true 0, .wrunlock, .rdlock,
    .read [98, newline] 2, .read [] 2, .send 2, .read [] 2, .rdunlock, .next, .scan true,
    .recv .eof, .free, .close, .mark]
  obtain ⟨s, hexec, hdone, hfail, hpackets⟩ :
      ∃ s, Machine.exec (fun s e ↦ if s.Bearable e then step .device s e else none) init es
        = some s ∧ s.pc = .done ∧ s.failures = 1 ∧ s.packets = [[98, newline]] :=
    ⟨_, rfl, by decide +kernel, by decide +kernel, by decide +kernel⟩
  have hrun : Machine.Run (step .device) Bearable init es s := Machine.run_of_exec_guarded hexec
  exact ⟨es, s, hrun, hdone, hfail, hpackets, (allocation_failure hrun).2.1⟩

/-! ## The other failures -/

/-- What comes next goes wrong: there is no fragment to receive into, or a packet was not flattened
and the fragments it starts in are still in front of the current one. -/
def Doomed (s : Session) : Prop :=
  s.pc = .recv ∧ s.currFragment = none ∨ s.pc.inPacket = true ∧ s.fragments ≠ s.currFragment

/-- **Any other failure leads there.** -/
theorem unbearable (h : s.Inv) (hb : ¬ s.Bearable e)
    (hstep : Session.step build s e = some t) : t.Doomed := by
  obtain ⟨hpc, -, rfl⟩ := step_eq_some.1 hstep
  have hframe : s.FrameAt e.pc := hpc ▸ h.frame
  cases e with
  | start ok =>
    obtain rfl : ok = false := by simpa [Bearable] using hb
    exact Or.inl ⟨rfl, rfl⟩
  | scan ok =>
    obtain ⟨l, ptr, f, seen, hfill, hlen, -⟩ := hframe
    rw [Bearable, unseen_eq hfill] at hb
    obtain ⟨hok, hleft, hpacket⟩ : ok = false ∧ s.bytesLeft ≠ 0 ∧
        ¬ (s.fragments = s.currFragment ∧ newline ∈ f.bytes s.bytesLeft) := by simpa using hb
    subst hok
    cases hfind : (f.bytes s.bytesLeft).findIdx? (· == newline) with
    | none =>
      simp only [handle, scan, curr_eq hfill, ok_bind, PacketFragment.read_eq hlen, hfind]
      rw [if_pos (Nat.pos_of_ne_zero hleft)]
      exact Or.inl ⟨rfl, rfl⟩
    | some i =>
      obtain ⟨-, hfalse, -⟩ := scan_some hfill hlen hfind
      obtain ⟨hi, hseg⟩ := findIdx?_newline hfind
      rw [handle, hfalse, settle_ok]
      obtain ⟨b, x, hpiece, -, rfl⟩ := hseg
      have hmem : newline ∈ (f.bytes s.bytesLeft).take (i + 1) := by rw [hpiece]; simp
      exact Or.inr ⟨rfl, fun halone ↦ hpacket ⟨halone, List.mem_of_mem_take hmem⟩⟩
  | _ => exact absurd trivial hb

/-- From there every step leads on to a fault, or to the same again. -/
theorem Doomed.step (h : s.Inv) (hd : s.Doomed) (hstep : Session.step build s e = some t) :
    t.Doomed ∨ ∃ bug, t.pc = .fault bug := by
  have hturn := step_turn h.flat hstep
  obtain ⟨hpc, -, rfl⟩ := step_eq_some.1 hstep
  rcases hd with ⟨hrecv, hnone⟩ | ⟨hin, hne⟩
  · obtain ⟨r, rfl⟩ : ∃ r, e = .recv r := by
      rw [hrecv] at hpc
      cases e <;> first | cases hpc; done | exact ⟨_, rfl⟩
    exact Or.inr ⟨.nullPointer, by rw [handle, Session.curr, hnone]; rfl⟩
  by_cases hnext : e = .next
  · subst hnext
    have hassert : (s.fragments == s.currFragment) = false := by simpa using hne
    exact Or.inr ⟨_, by rw [handle, hassert]; rfl⟩
  · obtain ⟨hpc', hst⟩ := hturn.stays hpc (by rw [← hpc, hin]) hnext
    exact Or.inl (Or.inr ⟨hpc', by rwa [hst.fragments, hst.currFragment]⟩)

/-- There is no memory for a packet of two fragments, and the thread ends in a failed assertion; or
there is none for the fragment to receive into. -/
theorem allocation_failure_aborts :
    (∃ es s, Machine.Run (Session.step .device) Machine.Always init es s ∧
      streamOf es = [97, 98, newline] ∧
      s.pc = .fault (.assertion "client->fragments == curr_fragment")) ∧
    ∃ es s, Machine.Run (Session.step .device) Machine.Always init es s ∧ streamOf es = [97] ∧
      s.pc = .fault .nullPointer := by
  constructor
  · let es : List Event := [.start true, .recv (.data [97]), .scan true,
      .recv (.data [98, newline]), .scan false, .rdlock, .read [] 0, .rdunlock, .next]
    exact ⟨es, _, Machine.run_of_exec rfl, by decide +kernel, by decide +kernel⟩
  · let es : List Event := [.start false, .recv (.data [97])]
    exact ⟨es, _, Machine.run_of_exec rfl, by decide +kernel, by decide +kernel⟩

end Session

end Aesd
