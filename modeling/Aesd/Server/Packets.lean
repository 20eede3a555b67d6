import Aesd.Server.Framing

/-!
# From a stream to its packets

`Session.packet_framing`: when no allocation fails, a session flattens exactly the
newline-terminated segments of the stream it receives, however `recv` cuts it.  It rests on the
invariant of `Session.Inv`, which with no failed allocation leaves no room for another result, and
on `Session.progress`: between two calls of `recv` the thread always comes to the next one, since a
measure of what is left to do decreases.
-/

set_option autoImplicit false

namespace Aesd

/-- The bytes of an answer of `recv`. -/
def Received.bytes : Received → List Byte
  | .data bytes => bytes
  | .eof => []
  | .error => []

/-- What the thread does after `recv`. -/
def Received.next : Received → Pc
  | .data _ => .scan
  | .eof => .free
  | .error => .free

/-- The stream has ended. -/
def Pc.ending : Pc → Bool
  | .free | .close | .mark | .done => true
  | _ => false

namespace Event

/-- No allocation fails in the step. -/
def MallocOk : Event → Prop
  | .start ok => ok = true
  | .scan ok => ok = true
  | _ => True

instance : DecidablePred MallocOk
  | .start ok | .scan ok => inferInstanceAs (Decidable (ok = true))
  | .recv _ | .wrlock | .ioctl _ | .write .. | .fseek | .wrunlock | .rdlock | .read .. | .send _
  | .rdunlock | .next | .free | .close | .mark => inferInstanceAs (Decidable True)

/-- The answer of `recv` in the step, if it is one. -/
def received : Event → Option Received
  | .recv r => some r
  | _ => none

end Event

/-- The answers of `recv` in a run. -/
def receivedOf (es : List Event) : List Received := es.filterMap Event.received

theorem receivedOf_recv (r : Received) (es : List Event) :
    receivedOf (.recv r :: es) = r :: receivedOf es := rfl

theorem receivedOf_append (es es' : List Event) :
    receivedOf (es ++ es') = receivedOf es ++ receivedOf es' := List.filterMap_append

/-- The bytes received in a run. -/
def streamOf (es : List Event) : List Byte := ((receivedOf es).map Received.bytes).flatten

theorem streamOf_cons (e : Event) (es : List Event) :
    streamOf (e :: es) = e.received.elim [] Received.bytes ++ streamOf es := by
  cases h : e.received <;> simp [streamOf, receivedOf, h]

namespace Session

variable {build : Build} {s t : Session} {e : Event} {es : List Event}

/-! ## What every state of a session shows -/

/-- The packets are segments of the stream, in order. -/
theorem Inv.packets_sublist (h : s.Inv) : s.packets.Sublist (segments s.stream) := by
  have hframe := h.frame
  rw [FrameInv] at hframe
  have hpacket : s.InPacket → s.packets.Sublist (segments s.stream) := by
    rintro ⟨l, ptr, f, seen, piece, after, -, -, -, -, -, hstream, hframed, -⟩
    rw [hstream]
    exact hframed.1.trans (Segments.segments_mono _ _).sublist
  cases hpc : s.pc <;> rw [hpc] at hframe
  case start => rw [hframe]; exact List.Sublist.refl _
  case recv =>
    rcases hframe with ⟨l, ptr, f, -, -, hframed⟩ | ⟨-, -, -, hsub⟩
    · exact hframed.1
    · exact hsub
  case scan =>
    obtain ⟨l, ptr, f, seen, -, -, hstream, -, hframed⟩ := hframe
    rw [hstream]
    exact hframed.1.trans (Segments.segments_mono _ _).sublist
  case free => exact hframe.2.1
  case close | mark | done => exact hframe.2.2.1
  case fault bug => exact hframe.2
  all_goals exact hpacket hframe

/-- With no failed allocation the packets are the first segments of the stream. -/
theorem Inv.packets_isPrefix (h : s.Inv) (hf : s.failures = 0) :
    s.packets <+: segments s.stream := by
  have hframe := h.frame
  rw [FrameInv] at hframe
  have hseen : ∀ {seen after : List Byte}, s.stream = seen ++ after → s.Framed seen →
      s.packets <+: segments s.stream := by
    intro seen after hstream hframed
    rw [hframed.2 hf, hstream]
    exact Segments.segments_mono _ _
  have hpacket : s.InPacket → s.packets <+: segments s.stream := by
    rintro ⟨l, ptr, f, seen, piece, after, -, -, -, -, -, hstream, hframed, -⟩
    exact hseen hstream hframed
  cases hpc : s.pc <;> rw [hpc] at hframe
  case start => rw [hframe]; exact List.prefix_rfl
  case recv =>
    rcases hframe with ⟨l, ptr, f, -, -, hframed⟩ | ⟨-, hfail, -, -⟩
    · exact hseen (List.append_nil _).symm hframed
    · omega
  case scan =>
    obtain ⟨l, ptr, f, seen, -, -, hstream, -, hframed⟩ := hframe
    exact hseen hstream hframed
  case free => exact hseen (List.append_nil _).symm hframe.2
  case close | mark | done => exact hseen (List.append_nil _).symm hframe.2.2
  case fault bug => exact absurd hf hframe.1.ne'
  all_goals exact hpacket hframe

/-- When the thread is done they are all of them. -/
theorem Inv.packets_eq (h : s.Inv) (hf : s.failures = 0) (hpc : s.pc = .done) :
    s.packets = segments s.stream := by
  have hframe : s.FrameAt .done := hpc ▸ h.frame
  exact hframe.2.2.2 hf

theorem Inv.no_fault (h : s.Inv) (hf : s.failures = 0) (bug : Bug) : s.pc ≠ .fault bug := by
  intro hpc
  have hframe : s.FrameAt (.fault bug) := hpc ▸ h.frame
  exact absurd hf hframe.1.ne'

/-! ## Runs without a failed allocation -/

theorem beginPacket_history {ok : Bool} (h : s.beginPacket ok = .ok t) :
    t.stream = s.stream ∧ (ok = true → t.failures = s.failures) := by
  obtain ⟨⟨flat, mem, fragments⟩, hflat, h⟩ := bind_eq_ok.1 h
  cases flat with
  | none =>
    cases h
    refine ⟨rfl, fun hok ↦ ?_⟩
    -- with memory `flatten_fragments` does not answer `NULL`
    subst hok
    obtain ⟨size, -, hflat⟩ := bind_eq_ok.1 hflat
    rw [if_pos rfl] at hflat
    obtain ⟨⟨buffer, mem', fragments'⟩, -, hflat⟩ := bind_eq_ok.1 hflat
    by_cases hfits : buffer.length ≤ size
    · simp [hfits] at hflat
    · simp [hfits] at hflat
  | some flat =>
    obtain ⟨_, -, h⟩ := bind_eq_ok.1 h
    obtain ⟨_, -, h⟩ := bind_eq_ok.1 h
    cases h
    exact ⟨rfl, fun _ ↦ rfl⟩

/-- What a step that does not go wrong does to the history. -/
theorem handle_history (h : s.handle build e = .ok t) :
    t.stream = s.stream ++ (e.received.elim [] Received.bytes) ∧
      (e.MallocOk → t.failures = s.failures) := by
  cases e with
  | recv r =>
    obtain ⟨x, -, h⟩ := bind_eq_ok.1 h
    cases r <;> cases h <;> simp [Event.received, Received.bytes]
  | scan ok =>
    obtain ⟨x, -, h⟩ := bind_eq_ok.1 h
    obtain ⟨bytes, -, h⟩ := bind_eq_ok.1 h
    split at h
    · obtain ⟨hstream, hfail⟩ := beginPacket_history h
      exact ⟨by simp [hstream, Event.received], hfail⟩
    · split at h
      · cases h
        exact ⟨by simp [Event.received], fun hok ↦ if_pos hok⟩
      · cases h
        exact ⟨by simp [Event.received], fun _ ↦ rfl⟩
  | start ok =>
    cases h
    exact ⟨by simp [Event.received], fun hok ↦ if_pos hok⟩
  | wrlock =>
    rw [handle] at h
    split at h
    · cases h; simp [Event.received]
    · obtain ⟨bytes, -, h⟩ := bind_eq_ok.1 h
      cases h; simp [Event.received]
  | wrunlock =>
    rw [handle] at h
    split at h
    · cases h
    · cases h; simp [Event.received]
  | read bytes f_pos =>
    rw [handle] at h
    split at h
    · cases h
      rw [fill]
      split <;> simp [Event.received]
    · split at h <;> cases h <;> simp [Event.received]
  | next =>
    obtain ⟨_, -, h⟩ := bind_eq_ok.1 h
    obtain ⟨_, -, h⟩ := bind_eq_ok.1 h
    cases h; simp [Event.received]
  | free =>
    obtain ⟨_, -, h⟩ := bind_eq_ok.1 h
    cases h; simp [Event.received]
  | _ => cases h; simp [Event.received]

/-- A step that does not end in a fault is what the thread does. -/
theorem handle_of_step (h : Session.step build s e = some t) (hfault : ∀ bug, t.pc ≠ .fault bug) :
    s.handle build e = .ok t := by
  obtain ⟨-, -, rfl⟩ := step_eq_some.1 h
  cases hh : s.handle build e with
  | error bug =>
    rw [hh] at hfault
    exact absurd rfl (hfault bug)
  | ok t => rfl

/-- What was received stays in `stream`. -/
theorem step_stream (h : Session.step build s e = some t) (hfault : ∀ bug, t.pc ≠ .fault bug)
    (es : List Event) : t.stream ++ streamOf es = s.stream ++ streamOf (e :: es) := by
  rw [(handle_history (handle_of_step h hfault)).1, streamOf_cons, List.append_assoc]

/-- **A run without a failed allocation** goes wrong nowhere, and the stream is what it received. -/
theorem run_mallocOk {s₀ : Session} (h : Machine.Run (step build) (fun _ e ↦ e.MallocOk) s₀ es s)
    (hinv : s₀.Inv) (hf : s₀.failures = 0) :
    s.Inv ∧ s.failures = 0 ∧ s.stream = s₀.stream ++ streamOf es := by
  induction h with
  | nil s => exact ⟨hinv, hf, by simp [streamOf, receivedOf]⟩
  | @cons s t u e es hok hstep _ ih =>
    have hinv' := hinv.step hstep
    obtain ⟨hpc, -, rfl⟩ := step_eq_some.1 hstep
    cases hh : s.handle build e with
    | error bug =>
      rw [hh, settle_error] at hinv'
      exact absurd rfl (hinv'.no_fault hf bug)
    | ok t =>
      rw [hh, settle_ok] at hinv' ih hstep
      have hf' : t.failures = 0 := ((handle_history hh).2 hok).trans hf
      obtain ⟨h1, h2, h3⟩ := ih hinv' hf'
      exact ⟨h1, h2, h3.trans (step_stream hstep (hinv'.no_fault hf') es)⟩

/-! ## Progress -/

/-- How much of a turn of `process_client`'s inner loop is left, depending on what comes next. -/
def rank (s : Session) : Pc → ℕ
  | .scan => 19
  | .wrlock => 18
  | .fwrite => 17
  | .fseek => 16
  | .ioctl => 15
  | .wrunlock => 14
  | .rdlock => 13
  | .send => if s.pending = [] then 6 else 8
  | .fread => if s.pending = [] then 5 else 7
  | .rdunlock => 4
  | .next => 3
  | .start => 1
  | _ => 0

/-- What is left to do until the next `recv`: the bytes to look at, and the steps of this turn. -/
def work (s : Session) : ℕ := 20 * s.bytesLeft + s.rank s.pc

/-- The search for a newline: there is none, or a packet is complete. -/
theorem scan_step (h : s.Inv) (hpc : s.pc = .scan) (build : Build) :
    ∃ t, Session.step build s (.scan true) = some t ∧ t.stream = s.stream ∧
      t.bytesLeft = s.bytesLeft ∧ (t.pc = .recv ∨ t.pc = .wrlock) := by
  have hframe : s.FrameAt .scan := hpc ▸ h.frame
  obtain ⟨l, ptr, f, seen, hfill, hlen, -⟩ := hframe
  refine ⟨_, step_eq_some.2 ⟨hpc, trivial, rfl⟩, ?_⟩
  cases hfind : (f.bytes s.bytesLeft).findIdx? (· == newline) with
  | none =>
    simp only [handle, scan, curr_eq hfill, ok_bind, PacketFragment.read_eq hlen, hfind]
    split <;> exact ⟨rfl, rfl, Or.inl rfl⟩
  | some i =>
    obtain ⟨-, -, mem, -, -, htrue⟩ := scan_some hfill hlen hfind
    rw [handle, htrue, settle_ok]
    exact ⟨rfl, rfl, Or.inr rfl⟩

/-- The return from `write_new_packet`: the packet is no longer among the bytes that are left. -/
theorem next_step (h : s.Inv) (hf : s.failures = 0) (hpc : s.pc = .next) (build : Build) :
    ∃ t, Session.step build s .next = some t ∧ t.stream = s.stream ∧ t.pc = .scan ∧
      t.bytesLeft < s.bytesLeft := by
  have hframe : s.FrameAt .next := hpc ▸ h.frame
  obtain ⟨l, ptr, f, seen, piece, after, hfill, hlen, hbytes, hsize, hseg, -, -, hl⟩ := hframe
  obtain rfl : l = [] := hl.resolve_right (by omega)
  refine ⟨_, step_eq_some.2 ⟨hpc, trivial, rfl⟩, ?_⟩
  rw [handle_next hfill, settle_ok]
  have hle := length_piece_le hlen hbytes hsize
  have hpos := List.length_pos_of_ne_nil hseg.ne_nil
  exact ⟨rfl, rfl, by show s.bytesLeft - f.size < s.bytesLeft; omega⟩

/-- With the lock, the append begins. -/
theorem wrlock_step (h : s.Inv) (hpc : s.pc = .wrlock) (build : Build) :
    ∃ t, Session.step build s .wrlock = some t ∧ t.stream = s.stream ∧
      t.bytesLeft = s.bytesLeft ∧ (t.pc = .ioctl ∨ t.pc = .fwrite) := by
  have hflat : s.FlatAt .wrlock := hpc ▸ h.flat
  obtain ⟨packet, hpacket⟩ := hflat
  refine ⟨_, step_eq_some.2 ⟨hpc, trivial, rfl⟩, ?_⟩
  rcases handle_wrlock hpacket build with ⟨-, heq⟩ | ⟨-, heq⟩
  · rw [heq, settle_ok]
    exact ⟨rfl, rfl, Or.inl rfl⟩
  · rw [heq, settle_ok]
    exact ⟨rfl, rfl, Or.inr rfl⟩

/-- **Progress.**  While the stream lasts there is, except at `recv`, a step in which no allocation
fails, and it leaves less to do. -/
theorem progress (build : Build) (h : s.Inv) (hf : s.failures = 0) (hrecv : s.pc ≠ .recv)
    (hlast : s.pc.ending = false) :
    ∃ e t, e.MallocOk ∧ e.received = none ∧ Session.step build s e = some t ∧ t.work < s.work ∧
      t.pc.ending = false := by
  have hflat := h.flat
  have hfault := h.no_fault hf
  rw [FlatInv] at hflat
  -- the step, from what it does
  have key : ∀ (e : Event) (t : Session), s.pc = e.pc → s.Possible e → s.handle build e = .ok t →
      e.MallocOk → e.received = none → t.work < s.work ∧ t.pc.ending = false →
      ∃ e t, e.MallocOk ∧ e.received = none ∧ Session.step build s e = some t ∧ t.work < s.work ∧
        t.pc.ending = false :=
    fun e t hpc hposs hh hok hr hwork ↦
      ⟨e, t, hok, hr, step_eq_some.2 ⟨hpc, hposs, by rw [hh, settle_ok]⟩, hwork⟩
  cases hpc : s.pc <;> rw [hpc] at hflat
  case start =>
    exact key (.start true) _ hpc trivial rfl rfl rfl ⟨by simp [work, rank, hpc], rfl⟩
  case recv => exact absurd hpc hrecv
  case scan =>
    obtain ⟨t, hstep, -, hleft, hpc' | hpc'⟩ := scan_step h hpc build
    · exact ⟨.scan true, t, rfl, rfl, hstep, by simp [work, rank, hpc, hpc', hleft],
        by rw [hpc']; rfl⟩
    · exact ⟨.scan true, t, rfl, rfl, hstep, by simp [work, rank, hpc, hpc', hleft],
        by rw [hpc']; rfl⟩
  case wrlock =>
    obtain ⟨t, hstep, -, hleft, hpc' | hpc'⟩ := wrlock_step h hpc build
    · exact ⟨.wrlock, t, trivial, rfl, hstep, by simp [work, rank, hpc, hpc', hleft],
        by rw [hpc']; rfl⟩
    · exact ⟨.wrlock, t, trivial, rfl, hstep, by simp [work, rank, hpc, hpc', hleft],
        by rw [hpc']; rfl⟩
  case ioctl =>
    exact key (.ioctl 0) _ hpc trivial rfl trivial rfl ⟨by simp [work, rank, hpc], rfl⟩
  case fwrite =>
    obtain ⟨packet, -, -, hne, -⟩ := hflat
    refine key (.write s.rest.length true 0) _ hpc ⟨List.length_pos_of_ne_nil hne, le_rfl⟩ rfl
      trivial rfl ?_
    rcases afterWrite_nil build with hpc' | hpc'
    · simp [work, rank, hpc, hpc', Pc.ending]
    · simp [work, rank, hpc, hpc', Pc.ending]
  case fseek => exact key .fseek _ hpc trivial rfl trivial rfl ⟨by simp [work, rank, hpc], rfl⟩
  case wrunlock =>
    obtain ⟨packet, ⟨ptr, hptr, -⟩, -⟩ := hflat
    exact key .wrunlock _ hpc trivial (by rw [handle, hptr]) trivial rfl
      ⟨by simp [work, rank, hpc], rfl⟩
  case rdlock =>
    refine key .rdlock _ hpc trivial rfl trivial rfl ⟨?_, rfl⟩
    simp only [work, rank, hpc]
    split <;> omega
  case fread =>
    by_cases hp : s.pending = []
    · exact key (.read [] 0) { s with f_pos := 0, pc := .rdunlock } hpc (Nat.zero_le _)
        (by rw [handle, if_neg (by simp), if_neg (by simp [hp])]) trivial rfl
        ⟨by simp [work, rank, hpc, hp], rfl⟩
    · exact key (.read [] 0) { s with buffer := s.pending, pending := [], f_pos := 0, pc := .send }
        hpc (Nat.zero_le _) (by rw [handle, if_neg (by simp), if_pos hp]) trivial rfl
        ⟨by simp [work, rank, hpc, hp], rfl⟩
  case send =>
    refine key (.send 0) _ hpc (Nat.zero_le _) rfl trivial rfl ⟨?_, rfl⟩
    simp only [work, rank, hpc]
    split <;> omega
  case rdunlock =>
    exact key .rdunlock _ hpc trivial rfl trivial rfl ⟨by simp [work, rank, hpc], rfl⟩
  case next =>
    obtain ⟨t, hstep, -, hpc', hleft⟩ := next_step h hf hpc build
    refine ⟨.next, t, trivial, rfl, hstep, ?_, by rw [hpc']; rfl⟩
    simp only [work, rank, hpc, hpc']
    omega
  case fault bug => exact absurd hpc (hfault bug)
  all_goals simp [hpc, Pc.ending] at hlast

/-- Runs in which no allocation fails. -/
abbrev MallocRun (build : Build) (s : Session) (es : List Event) (t : Session) : Prop :=
  Machine.Run (Session.step build) (fun _ e ↦ e.MallocOk) s es t

/-- While the stream lasts the thread comes to the next `recv`. -/
theorem run_to_recv (build : Build) (h : s.Inv) (hf : s.failures = 0)
    (hlast : s.pc.ending = false) :
    ∃ es t, MallocRun build s es t ∧ receivedOf es = [] ∧ t.pc = .recv := by
  induction hn : s.work using Nat.strong_induction_on generalizing s with
  | _ n ih =>
    by_cases hrecv : s.pc = .recv
    · exact ⟨[], s, .nil s, rfl, hrecv⟩
    obtain ⟨e, t, hok, hr, hstep, hlt, hlast'⟩ := progress build h hf hrecv hlast
    obtain ⟨hinv', hf', -⟩ := run_mallocOk (.single hok hstep) h hf
    obtain ⟨es, u, hrun, hnil, hpc⟩ := ih t.work (hn ▸ hlt) hinv' hf' hlast' rfl
    refine ⟨e :: es, u, .cons hok hstep hrun, ?_, hpc⟩
    rw [receivedOf, List.filterMap_cons_none hr]
    exact hnil

/-- `recv` always has a fragment to write to. -/
theorem recv_eq (build : Build) (h : s.Inv) (hf : s.failures = 0) (hpc : s.pc = .recv)
    (r : Received) (hr : s.Possible (.recv r)) :
    ∃ t, Session.step build s (.recv r) = some t ∧
      t.pc = r.next := by
  have hframe : s.FrameAt .recv := hpc ▸ h.frame
  obtain ⟨l, ptr, f, hfill, -⟩ := hframe.resolve_right fun hs ↦ by
    have := hs.2.1
    omega
  refine ⟨_, step_eq_some.2 ⟨hpc, hr, rfl⟩, ?_⟩
  cases r <;> simp only [handle, curr_eq hfill, ok_bind, settle_ok, Received.next]

/-- After the end of the stream the thread comes to its end. -/
theorem run_to_done (build : Build) (h : s.Inv) (hpc : s.pc = .free) :
    ∃ es t, MallocRun build s es t ∧ receivedOf es = [] ∧ t.pc = .done := by
  have hframe : s.FrameAt .free := hpc ▸ h.frame
  obtain ⟨⟨l, hchain, howns⟩, -⟩ := hframe
  obtain ⟨mem, heq, -, -⟩ := packetFragmentsFree_eq hchain howns
  have hfree : Session.step build s .free
      = some { s with mem := mem, fragments := none, pc := .close } :=
    step_eq_some.2 ⟨hpc, trivial, by rw [handle, heq, ok_bind, settle_ok]⟩
  exact ⟨[.free, .close, .mark], _, .cons trivial hfree (.cons trivial rfl
    (.cons trivial rfl (.nil _))), rfl, rfl⟩

/-- A stream can be served to its end, whatever the chunks it comes in. -/
theorem run_serves (build : Build) (chunks : List (List Byte)) {last : Received}
    (hchunks : ∀ c ∈ chunks, c ≠ [] ∧ c.length ≤ BUFFER_SIZE) (hlast : last = .eof ∨ last = .error)
    (h : s.Inv) (hf : s.failures = 0) (hpc : s.pc = .recv) :
    ∃ es t, MallocRun build s es t ∧ receivedOf es = chunks.map .data ++ [last] ∧ t.pc = .done := by
  induction chunks generalizing s with
  | nil =>
    have hend : s.Possible (.recv last) ∧ last.next = .free := by
      rcases hlast with rfl | rfl
      · exact ⟨trivial, rfl⟩
      · exact ⟨trivial, rfl⟩
    obtain ⟨t, hstep, hpc'⟩ := recv_eq build h hf hpc last hend.1
    obtain ⟨es, u, hrun, hnil, hdone⟩ := run_to_done build (h.step hstep) (hpc'.trans hend.2)
    refine ⟨.recv last :: es, u, .cons trivial hstep hrun, ?_, hdone⟩
    rw [receivedOf_recv, hnil]
    rfl
  | cons c chunks ih =>
    have hok : (Event.recv (.data c)).MallocOk := trivial
    obtain ⟨t, hstep, hpc'⟩ := recv_eq build h hf hpc (.data c) (hchunks c (List.mem_cons_self ..))
    obtain ⟨hinv', hf', -⟩ := run_mallocOk (.single hok hstep) h hf
    obtain ⟨es₁, t₁, hrun₁, hnil, hpc₁⟩ := run_to_recv build hinv' hf' (by rw [hpc']; rfl)
    obtain ⟨hinv₁, hf₁, -⟩ := run_mallocOk hrun₁ hinv' hf'
    obtain ⟨es₂, t₂, hrun₂, hrecv, hdone⟩ :=
      ih (fun c hc ↦ hchunks c (List.mem_cons_of_mem _ hc)) hinv₁ hf₁ hpc₁
    refine ⟨.recv (.data c) :: (es₁ ++ es₂), t₂, .cons hok hstep (hrun₁.append hrun₂), ?_, hdone⟩
    rw [receivedOf_recv, receivedOf_append, hnil, hrecv]
    rfl

/-- The same, from the start of the session. -/
theorem run_to_end (build : Build) (chunks : List (List Byte)) {last : Received}
    (hchunks : ∀ c ∈ chunks, c ≠ [] ∧ c.length ≤ BUFFER_SIZE)
    (hlast : last = .eof ∨ last = .error) :
    ∃ es s, MallocRun build init es s ∧ receivedOf es = chunks.map .data ++ [last] ∧
      s.pc = .done := by
  obtain ⟨es₁, t₁, hrun₁, hnil, hpc₁⟩ := run_to_recv build inv_init rfl rfl
  obtain ⟨hinv₁, hf₁, -⟩ := run_mallocOk hrun₁ inv_init rfl
  obtain ⟨es₂, t₂, hrun₂, hrecv, hdone⟩ := run_serves build chunks hchunks hlast hinv₁ hf₁ hpc₁
  refine ⟨es₁ ++ es₂, t₂, hrun₁.append hrun₂, ?_, hdone⟩
  rw [receivedOf_append, hnil, hrecv, List.nil_append]

/-- **Packet framing.**  When no allocation fails, every stream can be received to its end in any
chunks.  A thread that receives it fails no assertion and touches no fragment that is not there.
The flat buffers it makes are, in order, the newline-terminated segments of the stream: the first of
them while it runs, all of them when it is done.  These segments and the bytes after the last
newline are the stream; so nothing is lost, repeated, merged or cut, and the chunks do not
matter. -/
theorem packet_framing (build : Build) :
    (∀ (chunks : List (List Byte)) (last : Received),
      (∀ c ∈ chunks, c ≠ [] ∧ c.length ≤ BUFFER_SIZE) → last = .eof ∨ last = .error →
      ∃ es s, MallocRun build init es s ∧ receivedOf es = chunks.map .data ++ [last] ∧
        s.pc = .done) ∧
    ∀ es s, MallocRun build init es s →
      (∀ bug, s.pc ≠ .fault bug) ∧ s.packets <+: segments (streamOf es) ∧
      (s.pc = .done → s.packets = segments (streamOf es)) ∧
      (∀ p ∈ segments (streamOf es), Segments.IsSegment (· = newline) p) ∧
      (segments (streamOf es)).flatten ++ tail (streamOf es) = streamOf es ∧
      ∀ b ∈ tail (streamOf es), b ≠ newline := by
  refine ⟨fun chunks last hchunks hlast ↦ run_to_end build chunks hchunks hlast,
    fun es s hrun ↦ ?_⟩
  obtain ⟨hinv, hf, hstream⟩ := run_mallocOk hrun inv_init rfl
  have hs : streamOf es = s.stream := by rw [hstream]; rfl
  rw [hs]
  exact ⟨hinv.no_fault hf, hinv.packets_isPrefix hf, hinv.packets_eq hf,
    Segments.isSegment_of_mem _, Segments.segments_flatten_append_rest _,
    Segments.not_of_mem_rest _⟩

end Session

end Aesd
