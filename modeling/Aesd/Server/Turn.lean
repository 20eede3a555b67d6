import Aesd.Server.Framing

/-!
# What a session's step changes

The steps of a session again, as far as the lock, the store and the replies are concerned: `Turn`
lists them, and `Session.step_turn` says there are no others.  Of the steps in which a session works
on its fragments only the outcome matters: nothing that others could see (`Kept`), a new packet, or
a packet for whose flat buffer there was no memory.
-/

set_option autoImplicit false

namespace Aesd

namespace Pc

/-- The thread holds the lock for writing. -/
def writing : Pc → Bool
  | .ioctl | .fwrite | .fseek | .wrunlock => true
  | _ => false

/-- The thread holds the lock for reading. -/
def reading : Pc → Bool
  | .fread | .send | .rdunlock => true
  | _ => false

/-- The thread is not in `write_new_packet`, or about to leave it. -/
def idle : Pc → Bool
  | .start | .recv | .scan | .next | .free | .close | .mark | .done | .fault _ => true
  | _ => false

/-- The thread is between the search for a newline and the return from `write_new_packet`. -/
def inPacket : Pc → Bool
  | .wrlock | .ioctl | .fwrite | .fseek | .wrunlock | .rdlock | .fread | .send | .rdunlock
  | .next => true
  | _ => false

/-- The thread has closed the connection. -/
def closed : Pc → Bool
  | .mark | .done => true
  | _ => false

theorem writing_reading {pc : Pc} (h : pc.writing = true) : pc.reading = false := by
  cases pc <;> first | rfl | exact absurd h (by decide)

theorem idle_writing {pc : Pc} (h : pc.idle = true) : pc.writing = false := by
  cases pc <;> first | rfl | exact absurd h (by decide)

theorem idle_reading {pc : Pc} (h : pc.idle = true) : pc.reading = false := by
  cases pc <;> first | rfl | exact absurd h (by decide)

end Pc

/-- The steps of a session that others do not see. -/
def Event.own : Event → Bool
  | .start _ | .recv _ | .scan _ | .fseek | .send _ | .next | .free | .close | .mark => true
  | _ => false

/-- Whether the lock is held for writing after the event. -/
def Event.writing (e : Event) (before : Bool) : Bool :=
  match e with
  | .wrlock => true
  | .wrunlock => false
  | _ => before

/-- Whether the lock is held for reading after the event. -/
def Event.reading (e : Event) (before : Bool) : Bool :=
  match e with
  | .rdlock => true
  | .rdunlock => false
  | _ => before

namespace Session

/-- The file and the replies stay. -/
structure Kept (s t : Session) : Prop where
  /-- The position of the file. -/
  f_pos : t.f_pos = s.f_pos
  /-- What is read ahead. -/
  pending : t.pending = s.pending
  /-- The reply. -/
  reply : t.reply = s.reply
  /-- The replies before. -/
  replies : t.replies = s.replies

/-- The fragments and what came of them stay. -/
structure Stays (s t : Session) : Prop where
  /-- The memory. -/
  mem : t.mem = s.mem
  /-- The first fragment. -/
  fragments : t.fragments = s.fragments
  /-- The current fragment. -/
  currFragment : t.currFragment = s.currFragment
  /-- How much of it is to be looked at. -/
  bytesLeft : t.bytesLeft = s.bytesLeft
  /-- The packets. -/
  packets : t.packets = s.packets
  /-- The failures. -/
  failures : t.failures = s.failures
  /-- The stream. -/
  stream : t.stream = s.stream

/-- What a step changes. -/
inductive Turn (build : Build) (s : Session) : Event → Session → Prop
  /-- A step on the fragments, or at the end of the session. -/
  | idle {e : Event} {t : Session} (he : e.own = true) (hpc : s.pc.idle = true)
    (hpc' : t.pc.idle = true) (kept : s.Kept t) (packets : t.packets = s.packets)
    (closed : t.pc.closed = false ∨ e = .close ∧ t.pc = .mark ∨ e = .mark ∧ t.pc = .done) :
    Turn build s e t
  /-- There is no memory for the flat buffer. -/
  | lost {ok : Bool} {t : Session} (hpc : s.pc = .scan) (hpc' : t.pc = .rdlock)
    (packet : t.packet = none) (seekto : t.seekto = none) (kept : s.Kept t)
    (packets : t.packets = s.packets) : Turn build s (.scan ok) t
  /-- A packet is complete. -/
  | found {ok : Bool} {t : Session} (packet : List Byte) (hpc : s.pc = .scan)
    (hpc' : t.pc = .wrlock) (hpacket : t.packet = some packet)
    (seekto : t.seekto = seekCommand packet) (kept : s.Kept t)
    (packets : t.packets = s.packets ++ [packet]) : Turn build s (.scan ok) t
  /-- With the lock, the packet is going to be written. -/
  | append (packet : List Byte) (hpc : s.pc = .wrlock) (flat : s.Flat packet)
    (seekto : s.seekto = none) : Turn build s .wrlock { s with rest := packet, pc := .fwrite }
  /-- With the lock, the file is going to be positioned. -/
  | seek (hpc : s.pc = .wrlock) (seekto : s.seekto ≠ none) :
    Turn build s .wrlock { s with pc := .ioctl }
  /-- The file is positioned. -/
  | ioctl (f_pos : ℤ) (hpc : s.pc = .ioctl) :
    Turn build s (.ioctl f_pos) { s with f_pos := f_pos, pc := .wrunlock }
  /-- Some bytes are written, or it fails. -/
  | write (count : ℕ) (ok : Bool) (f_pos : ℤ) (packet : List Byte) (hpc : s.pc = .fwrite)
    (flat : s.Flat packet) (seekto : s.seekto = none) (rest : s.rest <:+ packet)
    (hcount : 0 < count ∧ count ≤ s.rest.length) :
    Turn build s (.write count ok f_pos) { s with
      rest := if ok then s.rest.drop count else [], f_pos := f_pos
      pc := afterWrite build (if ok then s.rest.drop count else []) }
  /-- The file is positioned at its start. -/
  | fseek (hpc : s.pc = .fseek) : Turn build s .fseek { s with f_pos := 0, pc := .wrunlock }
  /-- The packet is dealt with. -/
  | wrunlock (ptr : ℕ) (hpc : s.pc = .wrunlock) : Turn build s .wrunlock { s with
      flats := s.flats.free ptr, flatData := none, seekto := none, pc := .rdlock }
  /-- A reply begins. -/
  | rdlock (hpc : s.pc = .rdlock) :
    Turn build s .rdlock { s with reply := [], passed := [], sent := [], pc := .fread }
  /-- Some bytes are read. -/
  | read (bytes : List Byte) (f_pos : ℤ) (hpc : s.pc = .fread) (hbytes : bytes ≠ [])
    {buffer pending : List Byte} {pc : Pc}
    (hpc' : pc = .fread ∧ pending = s.pending ++ bytes ∨
      pc = .send ∧ buffer ++ pending = s.pending ++ bytes) :
    Turn build s (.read bytes f_pos) { s with
      buffer := buffer, pending := pending, reply := s.reply ++ bytes, f_pos := f_pos, pc := pc }
  /-- The end of the file, with bytes to be sent. -/
  | last (f_pos : ℤ) (hpc : s.pc = .fread) (pending : s.pending ≠ []) :
    Turn build s (.read [] f_pos)
      { s with buffer := s.pending, pending := [], f_pos := f_pos, pc := .send }
  /-- The end of the file, and of the reply. -/
  | stop (f_pos : ℤ) (hpc : s.pc = .fread) (pending : s.pending = []) :
    Turn build s (.read [] f_pos) { s with f_pos := f_pos, pc := .rdunlock }
  /-- Some bytes are sent. -/
  | send (count : ℕ) (hpc : s.pc = .send) : Turn build s (.send count) { s with
      passed := s.passed ++ s.buffer, sent := s.sent ++ s.buffer.take count, buffer := []
      pc := .fread }
  /-- The reply is complete. -/
  | rdunlock (hpc : s.pc = .rdunlock) :
    Turn build s .rdunlock { s with replies := s.replies ++ [s.reply], pc := .next }

variable {build : Build} {s t : Session} {e : Event}

theorem Kept.refl (s : Session) : s.Kept s := ⟨rfl, rfl, rfl, rfl⟩

/-- What looking for a newline comes to. -/
theorem beginPacket_turn {ok : Bool} (h : s.beginPacket ok = .ok t) :
    t.pc = .rdlock ∧ t.packet = none ∧ t.seekto = s.seekto ∧ s.Kept t ∧ t.packets = s.packets ∨
      ∃ packet, t.pc = .wrlock ∧ t.packet = some packet ∧ t.seekto = seekCommand packet ∧
        s.Kept t ∧ t.packets = s.packets ++ [packet] := by
  obtain ⟨⟨flat, mem, fragments⟩, -, h⟩ := bind_eq_ok.1 h
  cases flat with
  | none =>
    cases h
    exact Or.inl ⟨rfl, rfl, rfl, ⟨rfl, rfl, rfl, rfl⟩, rfl⟩
  | some flat =>
    obtain ⟨_, -, h⟩ := bind_eq_ok.1 h
    obtain ⟨_, -, h⟩ := bind_eq_ok.1 h
    cases h
    exact Or.inr ⟨flat, rfl, rfl, rfl, ⟨rfl, rfl, rfl, rfl⟩, rfl⟩

theorem scan_turn {ok : Bool} (hpc : s.pc = .scan) (hseek : s.seekto = none) :
    Turn build s (.scan ok) (s.settle (s.scan ok)) := by
  have hidle : s.pc.idle = true := by rw [hpc]; rfl
  cases hscan : s.scan ok with
  | error bug => exact .idle rfl hidle rfl ⟨rfl, rfl, rfl, rfl⟩ rfl (Or.inl rfl)
  | ok t =>
    rw [settle_ok]
    obtain ⟨⟨ptr, fragment⟩, -, h⟩ := bind_eq_ok.1 hscan
    obtain ⟨bytes, -, h⟩ := bind_eq_ok.1 h
    split at h
    · rcases beginPacket_turn h with ⟨h1, h2, h3, hk, hp⟩ | ⟨packet, h1, h2, h3, hk, hp⟩
      · exact .lost hpc h1 h2 (h3.trans hseek) ⟨hk.f_pos, hk.pending, hk.reply, hk.replies⟩ hp
      · exact .found packet hpc h1 h2 h3 ⟨hk.f_pos, hk.pending, hk.reply, hk.replies⟩ hp
    · split at h
      · cases h
        exact .idle rfl hidle rfl ⟨rfl, rfl, rfl, rfl⟩ rfl (Or.inl rfl)
      · cases h
        exact .idle rfl hidle rfl ⟨rfl, rfl, rfl, rfl⟩ rfl (Or.inl rfl)

/-- **Every step of a session is one of these.** -/
theorem step_turn (h : s.FlatInv) (hs : Session.step build s e = some t) : Turn build s e t := by
  obtain ⟨hpc, hposs, rfl⟩ := step_eq_some.1 hs
  have hflat : s.FlatAt e.pc := hpc ▸ h
  have hidle : e.pc.idle = true → s.pc.idle = true := fun he ↦ by rw [hpc, he]
  cases e with
  | start ok => exact .idle rfl (hidle rfl) rfl ⟨rfl, rfl, rfl, rfl⟩ rfl (Or.inl rfl)
  | recv r =>
    rw [handle]
    cases s.curr with
    | error bug => exact .idle rfl (hidle rfl) rfl ⟨rfl, rfl, rfl, rfl⟩ rfl (Or.inl rfl)
    | ok x => cases r <;> exact .idle rfl (hidle rfl) rfl ⟨rfl, rfl, rfl, rfl⟩ rfl (Or.inl rfl)
  | scan ok => exact scan_turn hpc hflat.2.1
  | wrlock =>
    obtain ⟨packet, hpacket⟩ := hflat
    rcases handle_wrlock hpacket build with ⟨hseek, heq⟩ | ⟨hseek, heq⟩
    · rw [heq]; exact .seek hpc hseek
    · rw [heq]; exact .append packet hpc hpacket hseek
  | ioctl f_pos => exact .ioctl f_pos hpc
  | write count ok f_pos =>
    obtain ⟨packet, hpacket, hseek, -, hrest⟩ := hflat
    exact .write count ok f_pos packet hpc hpacket hseek hrest hposs
  | fseek => exact .fseek hpc
  | wrunlock =>
    obtain ⟨packet, ⟨ptr, hptr, -⟩, -⟩ := hflat
    rw [handle, hptr]
    exact .wrunlock ptr hpc
  | rdlock => exact .rdlock hpc
  | read bytes f_pos =>
    rw [handle]
    split
    · rename_i hbytes
      rw [settle_ok]
      rcases fill_cases { s with
        pending := s.pending ++ bytes, reply := s.reply ++ bytes, f_pos := f_pos }
        with heq | ⟨buffer, pending, hcut, heq⟩
      · rw [heq]
        exact .read bytes f_pos hpc hbytes (Or.inl ⟨hpc, rfl⟩)
      · rw [heq]
        exact .read bytes f_pos hpc hbytes (Or.inr ⟨rfl, hcut⟩)
    · rename_i hnil
      obtain rfl := not_not.1 hnil
      split
      · exact .last f_pos hpc ‹_›
      · exact .stop f_pos hpc (not_not.1 ‹_›)
  | send count => exact .send count hpc
  | rdunlock => exact .rdunlock hpc
  | next =>
    rw [handle]
    cases assert (s.fragments == s.currFragment) "client->fragments == curr_fragment" with
    | error bug => exact .idle rfl (hidle rfl) rfl ⟨rfl, rfl, rfl, rfl⟩ rfl (Or.inl rfl)
    | ok _ =>
      cases s.curr with
      | error bug => exact .idle rfl (hidle rfl) rfl ⟨rfl, rfl, rfl, rfl⟩ rfl (Or.inl rfl)
      | ok x => exact .idle rfl (hidle rfl) rfl ⟨rfl, rfl, rfl, rfl⟩ rfl (Or.inl rfl)
  | free =>
    rw [handle]
    cases packetFragmentsFree s.mem s.fragments with
    | error bug => exact .idle rfl (hidle rfl) rfl ⟨rfl, rfl, rfl, rfl⟩ rfl (Or.inl rfl)
    | ok mem => exact .idle rfl (hidle rfl) rfl ⟨rfl, rfl, rfl, rfl⟩ rfl (Or.inl rfl)
  | close =>
    exact .idle rfl (hidle rfl) rfl ⟨rfl, rfl, rfl, rfl⟩ rfl (Or.inr (Or.inl ⟨rfl, rfl⟩))
  | mark => exact .idle rfl (hidle rfl) rfl ⟨rfl, rfl, rfl, rfl⟩ rfl (Or.inr (Or.inr ⟨rfl, rfl⟩))

/-- A thread comes to its end by `close` and the mark only. -/
theorem Turn.closed (h : Turn build s e t) :
    t.pc.closed = false ∨ e = .close ∧ t.pc = .mark ∨ e = .mark ∧ t.pc = .done := by
  cases h with
  | idle he hpc hpc' kept packets closed => exact closed
  | lost hpc hpc' => exact Or.inl (by rw [hpc']; rfl)
  | found packet hpc hpc' => exact Or.inl (by rw [hpc']; rfl)
  | write count ok f_pos =>
    refine Or.inl ?_
    rcases afterWrite_cases build (if ok then s.rest.drop count else []) with
      heq | ⟨-, heq⟩ | ⟨-, heq⟩ <;> simp only [heq] <;> rfl
  | read bytes f_pos hpc hbytes hpc' => rcases hpc' with ⟨rfl, -⟩ | ⟨rfl, -⟩ <;> exact Or.inl rfl
  | _ => exact Or.inl rfl

/-! ## The lock -/

theorem afterWrite_writing (build : Build) (rest : List Byte) :
    (afterWrite build rest).writing = true := by
  by_cases hne : rest = []
  · subst hne
    rcases afterWrite_nil build with hpc | hpc <;> rw [hpc] <;> rfl
  · rw [afterWrite_of_ne hne]
    rfl

/-- The lock is held for writing from one call to the other. -/
theorem Turn.writing (h : Turn build s e t) :
    t.pc.writing = e.writing s.pc.writing := by
  cases h with
  | idle he hpc hpc' =>
    rw [Pc.idle_writing hpc, Pc.idle_writing hpc']
    cases e <;> first | rfl | exact absurd he (by decide)
  | read bytes f_pos hpc hbytes hpc' =>
    rw [hpc]
    rcases hpc' with ⟨rfl, -⟩ | ⟨rfl, -⟩ <;> rfl
  | write count ok f_pos packet hpc =>
    rw [hpc]
    exact afterWrite_writing _ _
  | _ => simp only [*]; rfl

/-- The lock is held for reading from one call to the other. -/
theorem Turn.reading (h : Turn build s e t) :
    t.pc.reading = e.reading s.pc.reading := by
  cases h with
  | idle he hpc hpc' =>
    rw [Pc.idle_reading hpc, Pc.idle_reading hpc']
    cases e <;> first | rfl | exact absurd he (by decide)
  | read bytes f_pos hpc hbytes hpc' =>
    rw [hpc]
    rcases hpc' with ⟨rfl, -⟩ | ⟨rfl, -⟩ <;> rfl
  | write count ok f_pos packet hpc =>
    rw [hpc, Pc.writing_reading (afterWrite_writing _ _)]
    rfl
  | _ => simp only [*]; rfl

/-- A packet is being written only from `wrlock` to the last of the `write` calls. -/
theorem Turn.fwrite (h : Turn build s e t) :
    (∃ count ok f_pos, e = .write count ok f_pos) ∨ e = .wrlock ∨
      s.pc ≠ .fwrite ∧ t.pc ≠ .fwrite := by
  have hidle : ∀ pc : Pc, pc.idle = true → pc ≠ .fwrite := by rintro pc h rfl; cases h
  cases h with
  | idle he hpc hpc' => exact Or.inr (Or.inr ⟨hidle _ hpc, hidle _ hpc'⟩)
  | lost hpc hpc' => exact Or.inr (Or.inr ⟨by simp [hpc], by simp [hpc']⟩)
  | found packet hpc hpc' => exact Or.inr (Or.inr ⟨by simp [hpc], by simp [hpc']⟩)
  | append => exact Or.inr (Or.inl rfl)
  | seek => exact Or.inr (Or.inl rfl)
  | write count ok f_pos => exact Or.inl ⟨count, ok, f_pos, rfl⟩
  | read bytes f_pos hpc hbytes hpc' =>
    refine Or.inr (Or.inr ⟨by simp [hpc], ?_⟩)
    rcases hpc' with ⟨rfl, -⟩ | ⟨rfl, -⟩ <;> simp
  | _ => exact Or.inr (Or.inr ⟨by simp [*], by simp⟩)

/-- The packets stay in the list. -/
theorem Turn.packets_isPrefix (h : Turn build s e t) : s.packets <+: t.packets := by
  cases h with
  | idle he hpc hpc' kept packets => rw [packets]
  | lost hpc hpc' packet seekto kept packets => rw [packets]
  | found packet hpc hpc' hpacket seekto kept packets => rw [packets]; exact List.prefix_append _ _
  | _ => exact List.prefix_rfl

/-! ## The fragments -/

/-- The steps between the flattening of a packet and the return from `write_new_packet` leave the
fragments alone. -/
theorem Turn.stays (h : Turn build s e t) (hpc : s.pc = e.pc) (he : e.pc.inPacket = true)
    (hnext : e ≠ .next) : t.pc.inPacket = true ∧ s.Stays t := by
  cases h with
  | idle hown hidle =>
    rw [hpc] at hidle
    cases e <;>
      first | cases hown; done | cases hidle; done | cases he; done | exact absurd rfl hnext
  | lost => cases he
  | found => cases he
  | write count ok f_pos =>
    refine ⟨?_, rfl, rfl, rfl, rfl, rfl, rfl, rfl⟩
    rcases afterWrite_cases build (if ok then s.rest.drop count else []) with
      heq | ⟨-, heq⟩ | ⟨-, heq⟩ <;> simp only [heq] <;> rfl
  | read bytes f_pos _ _ hpc' =>
    refine ⟨?_, rfl, rfl, rfl, rfl, rfl, rfl, rfl⟩
    rcases hpc' with ⟨rfl, -⟩ | ⟨rfl, -⟩ <;> rfl
  | _ => exact ⟨rfl, rfl, rfl, rfl, rfl, rfl, rfl, rfl⟩

/-! ## What stdio has read ahead -/

/-- Outside a reply stdio has nothing read ahead. -/
def Drained (s : Session) : Prop := s.pc ≠ .fread → s.pc ≠ .send → s.pending = []

theorem Turn.drained (h : Turn build s e t) (hs : s.Drained) : t.Drained := by
  have hidle : ∀ pc : Pc, pc.idle = true → pc ≠ .fread ∧ pc ≠ .send := by
    rintro pc h
    constructor <;> rintro rfl <;> cases h
  intro h1 h2
  cases h with
  | idle he hpc hpc' kept =>
    rw [kept.pending]
    exact hs (hidle _ hpc).1 (hidle _ hpc).2
  | lost hpc hpc' packet seekto kept => rw [kept.pending]; exact hs (by simp [hpc]) (by simp [hpc])
  | found packet hpc hpc' hpacket seekto kept =>
    rw [kept.pending]
    exact hs (by simp [hpc]) (by simp [hpc])
  | read bytes f_pos hpc hbytes hpc' =>
    rcases hpc' with ⟨rfl, -⟩ | ⟨rfl, -⟩
    · exact absurd rfl h1
    · exact absurd rfl h2
  | rdlock => exact absurd rfl h1
  | last => exact absurd rfl h2
  | stop f_pos hpc pending => exact pending
  | send => exact absurd rfl h1
  | _ => exact hs (by simp [*]) (by simp [*])

end Session

end Aesd
