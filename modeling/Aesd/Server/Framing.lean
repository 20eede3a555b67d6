import Aesd.Lib.Machine
import Aesd.Lib.Segments
import Aesd.Server.Session

/-!
# Packet framing

What a session keeps true, whatever it meets: `Session.Inv`.  While bytes come in, the fragments
before the current one hold the bytes of the packet that is not complete, and the packets flattened
so far are the newline-terminated segments of the bytes looked at (`Session.Framed`).

Where a byte of the stream is at a given moment is told by cutting the stream: `seen` was looked at
before, `piece` is the part of the current fragment that completes a packet, and `after` is still to
be looked at.
-/

set_option autoImplicit false

namespace Aesd

/-- The newline-terminated pieces of a stream. -/
abbrev segments (stream : List Byte) : List (List Byte) := Segments.segments (· = newline) stream

/-- The bytes of a stream after its last newline. -/
abbrev tail (stream : List Byte) : List Byte := Segments.rest (· = newline) stream

/-! ## The list of fragments -/

/-- The list of fragments while a packet is collected: `l` are those before the current one, which
is `ptr` with contents `f`. -/
structure Filling (mem : Fragments) (fragments currFragment : Option ℕ)
    (l : List (ℕ × PacketFragment)) (ptr : ℕ) (f : PacketFragment) : Prop where
  /-- The list ends with the current fragment. -/
  chain : Chain mem fragments (l ++ [(ptr, f)])
  /-- There are no other fragments. -/
  owns : OwnsChain mem (l ++ [(ptr, f)])
  /-- `curr_fragment` is the last one. -/
  curr : currFragment = some ptr
  /-- The bytes of an earlier fragment lie in its buffer. -/
  inBuffer : InBuffer l
  /-- An earlier fragment has bytes. -/
  size_pos : ∀ x ∈ l, 0 < x.2.size
  /-- None of them is a newline. -/
  no_newline : ∀ b ∈ pieces l, b ≠ newline

section Filling

variable {mem : Fragments} {fragments currFragment : Option ℕ} {l : List (ℕ × PacketFragment)}
  {ptr : ℕ} {f g : PacketFragment}

theorem Filling.get? (h : Filling mem fragments currFragment l ptr f) : mem.get? ptr = some f :=
  Linked.get?_of_mem h.chain (List.mem_append_right l (List.mem_singleton_self (ptr, f)))

theorem Filling.live (h : Filling mem fragments currFragment l ptr f) : mem.Live ptr :=
  Heap.live_of_get? h.get?

theorem Filling.ne (h : Filling mem fragments currFragment l ptr f) :
    ∀ x ∈ l, x.1 ≠ ptr := by
  intro x hx hxp
  have hn := h.owns.nodup
  rw [List.map_append, List.nodup_append] at hn
  exact hn.2.2 _ (List.mem_map.2 ⟨x, hx, rfl⟩) ptr (by simp) hxp

/-- Overwriting the current fragment. -/
theorem Filling.set (h : Filling mem fragments currFragment l ptr f) (hg : g.next = none) :
    Filling (mem.set ptr g) fragments currFragment l ptr g := by
  refine ⟨?_, ?_, h.curr, h.inBuffer, h.size_pos, h.no_newline⟩
  · exact h.chain.replace_last (fun x hx ↦ Heap.get?_set_of_ne (h.ne x hx))
      (Heap.get?_set_self h.live) hg
  · have ho := h.owns.set ptr g
    rw [List.map_append] at ho
    rw [OwnsChain, List.map_append]
    exact ho

/-- Adding a fragment behind the current one. -/
theorem Filling.grow (h : Filling mem fragments currFragment l ptr f) (new : PacketFragment)
    (hg : g.next = some mem.next) (hnew : new.next = none)
    (hb : g.data + g.size ≤ g.buffer.length) (hpos : 0 < g.size)
    (hnl : ∀ b ∈ g.piece, b ≠ newline) :
    Filling ((mem.alloc new).set ptr g) fragments (some mem.next) (l ++ [(ptr, g)]) mem.next
      new := by
  have hne : mem.next ≠ ptr := fun he ↦ Nat.lt_irrefl _ (he ▸ h.live.1)
  have hlive : ∀ x ∈ l, mem.Live x.1 := fun x hx ↦
    Heap.live_of_get? (h.chain.get?_of_mem (List.mem_append_left _ hx))
  have hsound := h.owns.sound.next_notMem
  refine ⟨?_, ?_, rfl, ?_, ?_, ?_⟩
  · rw [List.append_assoc]
    refine h.chain.replace_last (fun x hx ↦ ?_) (Heap.get?_set_self ?_) ⟨hg, ?_, hnew⟩
    · rw [Heap.get?_set_of_ne (h.ne x hx), Heap.get?_alloc_of_live (hlive x hx)]
    · exact (Heap.live_alloc hsound).2 (Or.inr h.live)
    · rw [Heap.get?_set_of_ne hne, Heap.get?_alloc_next hsound]
  · have ho := (h.owns.alloc new).set ptr g
    simp only [OwnsChain, List.map_append, List.map_cons, List.map_nil] at ho ⊢
    exact ho.perm (List.perm_append_singleton _ _).symm
  · intro x hx
    rcases List.mem_append.1 hx with hx | hx
    · exact h.inBuffer x hx
    · rw [List.mem_singleton.1 hx]; exact hb
  · intro x hx
    rcases List.mem_append.1 hx with hx | hx
    · exact h.size_pos x hx
    · rw [List.mem_singleton.1 hx]; exact hpos
  · intro b hx
    rw [pieces, List.flatMap_append, List.mem_append] at hx
    rcases hx with hx | hx
    · exact h.no_newline b hx
    · exact hnl b (by simpa using hx)

/-- Flattening the list leaves the current fragment as the only one. -/
theorem Filling.flatten (h : Filling mem fragments currFragment l ptr f)
    (hb : f.data + f.size ≤ f.buffer.length) :
    ∃ mem', flattenFragments mem fragments true = .ok (some (pieces l ++ f.piece), mem', some ptr) ∧
      Filling mem' (some ptr) currFragment [] ptr f ∧ mem'.freed = mem.freed ++ l.map Prod.fst := by
  have hbuf : InBuffer (l ++ [(ptr, f)]) := by
    intro x hx
    rcases List.mem_append.1 hx with hx | hx
    · exact h.inBuffer x hx
    · rw [List.mem_singleton.1 hx]; exact hb
  obtain ⟨mem', heq, hget, hown, hfreed⟩ := flattenFragments_eq h.chain h.owns hbuf
  refine ⟨mem', ?_, ⟨⟨rfl, hget, h.chain.next_last⟩, hown, h.curr, by simp [InBuffer], by simp,
    by simp [pieces]⟩, hfreed⟩
  rw [heq]
  simp [pieces]

end Filling

namespace Session

/-! ## The invariant -/

/-- The packets are the segments of the bytes looked at, in order, and they are all of them when no
allocation failed. -/
def Framed (s : Session) (seen : List Byte) : Prop :=
  s.packets.Sublist (segments seen) ∧ (s.failures = 0 → s.packets = segments seen)

/-- All bytes received were looked at. -/
def Collecting (s : Session) : Prop :=
  ∃ l ptr f, Filling s.mem s.fragments s.currFragment l ptr f ∧ pieces l = tail s.stream ∧
    s.Framed s.stream

/-- There was no memory for a fragment. -/
def Starved (s : Session) : Prop :=
  s.currFragment = none ∧ 0 < s.failures ∧ (∃ l, Chain s.mem s.fragments l ∧ OwnsChain s.mem l) ∧
    s.packets.Sublist (segments s.stream)

/-- `bytes_left` bytes of the current fragment are still to be looked at. -/
def Scanning (s : Session) : Prop :=
  ∃ l ptr f seen, Filling s.mem s.fragments s.currFragment l ptr f ∧
    f.data + s.bytesLeft ≤ f.buffer.length ∧ s.stream = seen ++ f.bytes s.bytesLeft ∧
    pieces l = tail seen ∧ s.Framed seen

/-- The current fragment completes a packet, which was flattened or is lost. -/
def InPacket (s : Session) : Prop :=
  ∃ l ptr f seen piece after, Filling s.mem s.fragments s.currFragment l ptr f ∧
    f.data + s.bytesLeft ≤ f.buffer.length ∧ f.bytes s.bytesLeft = piece ++ after ∧
    f.size = piece.length ∧ Segments.IsSegment (· = newline) piece ∧
    s.stream = seen ++ piece ++ after ∧ s.Framed (seen ++ piece) ∧ (l = [] ∨ 0 < s.failures)

/-- What is true of the fragments, depending on what comes next. -/
def FrameAt (s : Session) : Pc → Prop
  | .start => s = init
  | .recv => s.Collecting ∨ s.Starved
  | .scan => s.Scanning
  | .free => (∃ l, Chain s.mem s.fragments l ∧ OwnsChain s.mem l) ∧ s.Framed s.stream
  | .close | .mark | .done => s.fragments = none ∧ s.mem.Owns [] ∧ s.Framed s.stream
  | .fault _ => 0 < s.failures ∧ s.packets.Sublist (segments s.stream)
  | _ => s.InPacket

/-- What the session keeps true of its fragments. -/
def FrameInv (s : Session) : Prop := s.FrameAt s.pc

/-- `flat_data` holds a packet, the one this turn is about, and `sscanf` has looked at it. -/
def Flat (s : Session) (packet : List Byte) : Prop :=
  (∃ ptr, s.flatData = some ptr ∧ s.flats.get? ptr = some packet ∧ s.flats.Owns [ptr]) ∧
    (s.packet = some packet ∧ packet ∈ s.packets) ∧ Segments.IsSegment (· = newline) packet ∧
    s.seekto = seekCommand packet

/-- What is true of the flat buffers, depending on what comes next. -/
def FlatAt (s : Session) : Pc → Prop
  | .wrlock | .fseek | .wrunlock => ∃ packet, s.Flat packet
  | .ioctl => ∃ packet, s.Flat packet ∧ s.seekto ≠ none
  | .fwrite => ∃ packet, s.Flat packet ∧ s.seekto = none ∧ s.rest ≠ [] ∧ s.rest <:+ packet
  | .fault _ => True
  | _ => s.flatData = none ∧ s.seekto = none ∧ s.flats.Owns []

/-- What the session keeps true of its flat buffers. -/
def FlatInv (s : Session) : Prop := s.FlatAt s.pc

/-- **What a session keeps true**, whatever it meets. -/
structure Inv (s : Session) : Prop where
  /-- Of its fragments. -/
  frame : s.FrameInv
  /-- Of its flat buffers. -/
  flat : s.FlatInv

/-- The fragments are always a list that starts with `client->fragments`. -/
theorem FrameInv.chain {s : Session} (h : s.FrameInv) (hpc : ∀ bug, s.pc ≠ .fault bug) :
    ∃ l, Chain s.mem s.fragments l ∧ OwnsChain s.mem l := by
  have hin : s.InPacket → ∃ l, Chain s.mem s.fragments l ∧ OwnsChain s.mem l := by
    rintro ⟨l, ptr, f, seen, piece, after, hfill, -⟩
    exact ⟨_, hfill.chain, hfill.owns⟩
  have hend : s.fragments = none ∧ s.mem.Owns [] ∧ s.Framed s.stream →
      ∃ l, Chain s.mem s.fragments l ∧ OwnsChain s.mem l := fun ⟨hnone, howns, _⟩ ↦
    ⟨[], hnone, howns⟩
  rw [FrameInv] at h
  cases hs : s.pc with
  | start =>
    rw [hs] at h
    obtain rfl : s = init := h
    exact ⟨[], rfl, Heap.owns_empty⟩
  | recv =>
    rw [hs] at h
    rcases h with ⟨l, ptr, f, hfill, -⟩ | ⟨-, -, hchain, -⟩
    · exact ⟨_, hfill.chain, hfill.owns⟩
    · exact hchain
  | scan =>
    rw [hs] at h
    obtain ⟨l, ptr, f, seen, hfill, -⟩ := h
    exact ⟨_, hfill.chain, hfill.owns⟩
  | free => rw [hs] at h; exact h.1
  | close => rw [hs] at h; exact hend h
  | mark => rw [hs] at h; exact hend h
  | done => rw [hs] at h; exact hend h
  | fault bug => exact absurd hs (hpc bug)
  | _ => rw [hs] at h; exact hin h

theorem inv_init : init.Inv := ⟨rfl, rfl, rfl, Heap.owns_empty⟩

/-! ## The steps that touch the fragments -/

variable {s : Session}

theorem curr_eq {l : List (ℕ × PacketFragment)} {ptr : ℕ} {f : PacketFragment}
    (h : Filling s.mem s.fragments s.currFragment l ptr f) : s.curr = .ok (ptr, f) := by
  rw [curr, h.curr]
  simp only [h.get?]

theorem frame_start (ok : Bool) (build : Build) :
    (init.settle (init.handle build (.start ok))).FrameInv := by
  cases ok with
  | false =>
    exact Or.inr ⟨rfl, Nat.one_pos, ⟨[], rfl, Heap.owns_empty⟩, List.Sublist.refl _⟩
  | true =>
    refine Or.inl ⟨[], 0, ⟨none, 0, 0, []⟩, ?_, rfl, List.Sublist.refl _, fun _ ↦ rfl⟩
    exact ⟨⟨rfl, rfl, rfl⟩, Heap.owns_empty.alloc _, rfl, by simp [InBuffer], by simp,
      by simp [pieces]⟩

theorem frame_recv (h : s.Collecting ∨ s.Starved) (r : Received) (build : Build) :
    (s.settle (s.handle build (.recv r))).FrameInv := by
  rcases h with ⟨l, ptr, f, hfill, htail, hframed⟩ | ⟨hnone, hfail, -, hsub⟩
  · cases r with
    | data bytes =>
      have hset := hfill.set
        (g := { f with buffer := bytes ++ f.buffer.drop bytes.length, data := 0 })
        hfill.chain.next_last
      simp only [handle, curr_eq hfill, ok_bind, settle_ok]
      refine ⟨l, ptr, _, s.stream, hset, by simp, ?_, htail, hframed⟩
      simp [PacketFragment.bytes]
    | eof =>
      simp only [handle, curr_eq hfill, ok_bind, settle_ok]
      exact ⟨⟨_, hfill.chain, hfill.owns⟩, hframed⟩
    | error =>
      simp only [handle, curr_eq hfill, ok_bind, settle_ok]
      exact ⟨⟨_, hfill.chain, hfill.owns⟩, hframed⟩
  · rw [handle, curr, hnone]
    exact ⟨hfail, hsub⟩

/-- Where the first newline is. -/
theorem findIdx?_newline {bytes : List Byte} {i : ℕ}
    (h : bytes.findIdx? (· == newline) = some i) :
    i < bytes.length ∧ Segments.IsSegment (· = newline) (bytes.take (i + 1)) := by
  obtain ⟨hi, hnl, hbefore⟩ := List.findIdx?_eq_some_iff_getElem.1 h
  refine ⟨hi, bytes.take i, bytes[i], List.take_succ_eq_append_getElem hi, ?_, by simpa using hnl⟩
  intro b hb
  obtain ⟨j, hj, rfl⟩ := List.mem_take_iff_getElem.1 hb
  simpa using hbefore j (by omega)

theorem findIdx?_none {bytes : List Byte} (h : bytes.findIdx? (· == newline) = none) :
    ∀ b ∈ bytes, b ≠ newline := by
  simpa using h

theorem Framed.congr {t : Session} {seen seen' : List Byte} (h : s.Framed seen)
    (hp : t.packets = s.packets) (hf : t.failures = s.failures)
    (hs : segments seen' = segments seen) : t.Framed seen' := by
  rw [Framed, hp, hf, hs]
  exact h

/-- The rest of the bytes stays in the fragment, and there is a new one if there is memory. -/
theorem frame_scan_none {l : List (ℕ × PacketFragment)} {ptr : ℕ} {f : PacketFragment}
    {seen : List Byte} (hfill : Filling s.mem s.fragments s.currFragment l ptr f)
    (hlen : f.data + s.bytesLeft ≤ f.buffer.length)
    (hstream : s.stream = seen ++ f.bytes s.bytesLeft) (htail : pieces l = tail seen)
    (hframed : s.Framed seen)
    (hnone : (f.bytes s.bytesLeft).findIdx? (· == newline) = none) (ok : Bool) :
    (s.settle (s.scan ok)).FrameInv := by
  have hnl := findIdx?_none hnone
  have hseg : segments s.stream = segments seen := by
    rw [hstream]; exact Segments.segments_append hnl
  have htail' : tail s.stream = pieces l ++ f.bytes s.bytesLeft := by
    rw [hstream, htail]; exact Segments.rest_append hnl
  simp only [scan, curr_eq hfill, ok_bind, PacketFragment.read_eq hlen, hnone]
  by_cases hpos : 0 < s.bytesLeft
  swap
  · rw [if_neg hpos]
    have hnil : f.bytes s.bytesLeft = [] := by
      rw [← List.length_eq_zero_iff, PacketFragment.length_bytes hlen]
      omega
    refine Or.inl ⟨l, ptr, f, hfill, ?_, hframed.congr rfl rfl hseg⟩
    show pieces l = tail s.stream
    rw [htail', hnil, List.append_nil]
  · rw [if_pos hpos]
    cases ok with
    | true =>
      have hgrow := hfill.grow (g := { f with size := s.bytesLeft, next := some s.mem.next })
        ⟨none, 0, 0, []⟩ rfl rfl hlen hpos hnl
      refine Or.inl ⟨_, _, _, hgrow, ?_, hframed.congr rfl rfl hseg⟩
      show pieces (l ++ _) = tail s.stream
      rw [htail']
      simp [pieces, PacketFragment.piece, PacketFragment.bytes]
    | false =>
      have hset := hfill.set (g := { f with size := s.bytesLeft, next := none }) rfl
      refine Or.inr ⟨rfl, Nat.succ_pos _, ⟨_, hset.chain, hset.owns⟩, ?_⟩
      show s.packets.Sublist (segments s.stream)
      rw [hseg]
      exact hframed.1

theorem getLast?_isSegment {b piece : List Byte} (h : Segments.IsSegment (· = newline) piece) :
    (b ++ piece).getLast? = some newline := by
  obtain ⟨c, x, rfl, -, rfl⟩ := h
  simp

/-- The bytes up to the newline complete a packet, which is flattened if there is memory. -/
theorem scan_some {l : List (ℕ × PacketFragment)} {ptr : ℕ} {f : PacketFragment} {i : ℕ}
    (hfill : Filling s.mem s.fragments s.currFragment l ptr f)
    (hlen : f.data + s.bytesLeft ≤ f.buffer.length)
    (hsome : (f.bytes s.bytesLeft).findIdx? (· == newline) = some i) :
    Filling (s.mem.set ptr { f with size := i + 1 }) s.fragments s.currFragment l ptr
        { f with size := i + 1 } ∧
      s.scan false = .ok { s with
        mem := s.mem.set ptr { f with size := i + 1 }, packet := none, failures := s.failures + 1
        pc := .rdlock } ∧
      ∃ mem, Filling mem (some ptr) s.currFragment [] ptr { f with size := i + 1 } ∧
        mem.freed = s.mem.freed ++ l.map Prod.fst ∧ s.scan true = .ok { s with
          mem := mem, fragments := some ptr
          flats := s.flats.alloc (pieces l ++ (f.bytes s.bytesLeft).take (i + 1))
          flatData := some s.flats.next
          seekto := seekCommand (pieces l ++ (f.bytes s.bytesLeft).take (i + 1))
          packets := s.packets ++ [pieces l ++ (f.bytes s.bytesLeft).take (i + 1)]
          packet := some (pieces l ++ (f.bytes s.bytesLeft).take (i + 1))
          pc := .wrlock } := by
  obtain ⟨hi, hseg⟩ := findIdx?_newline hsome
  rw [PacketFragment.length_bytes hlen] at hi
  have hset := hfill.set (g := { f with size := i + 1 }) hfill.chain.next_last
  obtain ⟨mem, hflat, hfill', hfreed⟩ :=
    hset.flatten (by show f.data + (i + 1) ≤ f.buffer.length; omega)
  have hpiece : ({ f with size := i + 1 } : PacketFragment).piece
      = (f.bytes s.bytesLeft).take (i + 1) := (PacketFragment.take_bytes hi).symm
  have hlast := getLast?_isSegment (b := pieces l) hseg
  have hpos : 0 < (pieces l ++ (f.bytes s.bytesLeft).take (i + 1)).length := by
    have := List.length_pos_of_ne_nil hseg.ne_nil
    rw [List.length_append]
    omega
  rw [hpiece] at hflat
  refine ⟨hset, ?_, mem, hfill', hfreed, ?_⟩
  · simp only [scan, curr_eq hfill, ok_bind, PacketFragment.read_eq hlen, hsome, beginPacket,
      flattenFragments_none hset.chain hset.owns]
  · simp only [scan, curr_eq hfill, ok_bind, PacketFragment.read_eq hlen, hsome, beginPacket, hflat,
      hlast, hpos, decide_true, beq_self_eq_true, assert_true]

theorem frame_scan_some {l : List (ℕ × PacketFragment)} {ptr : ℕ} {f : PacketFragment} {i : ℕ}
    {seen : List Byte} (hfill : Filling s.mem s.fragments s.currFragment l ptr f)
    (hlen : f.data + s.bytesLeft ≤ f.buffer.length)
    (hstream : s.stream = seen ++ f.bytes s.bytesLeft) (htail : pieces l = tail seen)
    (hframed : s.Framed seen)
    (hsome : (f.bytes s.bytesLeft).findIdx? (· == newline) = some i) (ok : Bool) :
    (s.settle (s.scan ok)).FrameInv := by
  obtain ⟨hset, hfalse, mem, hfill', -, htrue⟩ := scan_some hfill hlen hsome
  obtain ⟨hi, hseg⟩ := findIdx?_newline hsome
  have hcut := (List.take_append_drop (i + 1) (f.bytes s.bytesLeft)).symm
  have hsize : i + 1 = ((f.bytes s.bytesLeft).take (i + 1)).length := by
    rw [List.length_take]; omega
  have hstream' : s.stream = seen ++ (f.bytes s.bytesLeft).take (i + 1)
      ++ (f.bytes s.bytesLeft).drop (i + 1) := by
    rw [List.append_assoc, List.take_append_drop, hstream]
  have hsegs : segments (seen ++ (f.bytes s.bytesLeft).take (i + 1))
      = segments seen ++ [tail seen ++ (f.bytes s.bytesLeft).take (i + 1)] :=
    Segments.segments_append_isSegment hseg
  cases ok with
  | false =>
    rw [hfalse]
    refine ⟨l, ptr, _, seen, _, _, hset, hlen, hcut, hsize, hseg, hstream', ⟨?_, ?_⟩,
      Or.inr (Nat.succ_pos _)⟩
    · rw [hsegs]
      exact hframed.1.trans (List.sublist_append_left _ _)
    · exact fun h ↦ absurd h (Nat.succ_ne_zero _)
  | true =>
    rw [htrue]
    refine ⟨[], ptr, _, seen, _, _, hfill', hlen, hcut, hsize, hseg, hstream', ⟨?_, ?_⟩,
      Or.inl rfl⟩
    · rw [hsegs, ← htail]
      exact hframed.1.append (List.Sublist.refl _)
    · intro h
      rw [hsegs, ← htail, ← hframed.2 h]
      rfl

theorem frame_scan (h : s.Scanning) (ok : Bool) (build : Build) :
    (s.settle (s.handle build (.scan ok))).FrameInv := by
  obtain ⟨l, ptr, f, seen, hfill, hlen, hstream, htail, hframed⟩ := h
  cases hfind : (f.bytes s.bytesLeft).findIdx? (· == newline) with
  | none => exact frame_scan_none hfill hlen hstream htail hframed hfind ok
  | some i => exact frame_scan_some hfill hlen hstream htail hframed hfind ok

theorem length_piece_le {f : PacketFragment} {piece after : List Byte}
    (hlen : f.data + s.bytesLeft ≤ f.buffer.length) (hbytes : f.bytes s.bytesLeft = piece ++ after)
    (hsize : f.size = piece.length) : f.size ≤ s.bytesLeft := by
  have := congrArg List.length hbytes
  rw [PacketFragment.length_bytes hlen, List.length_append] at this
  omega

/-- With one fragment the packet's end is the current fragment's. -/
theorem handle_next {ptr : ℕ} {f : PacketFragment}
    (hfill : Filling s.mem s.fragments s.currFragment [] ptr f) (build : Build) :
    s.handle build .next = .ok { s with
      bytesLeft := s.bytesLeft - f.size
      mem := s.mem.set ptr { f with data := f.data + f.size }
      pc := .scan } := by
  have heq : (s.fragments == s.currFragment) = true := by
    rw [hfill.chain.1, hfill.curr, beq_self_eq_true]
  simp only [handle, heq, assert_true, curr_eq hfill, ok_bind]

theorem frame_next (h : s.InPacket) (build : Build) :
    (s.settle (s.handle build .next)).FrameInv := by
  obtain ⟨l, ptr, f, seen, piece, after, hfill, hlen, hbytes, hsize, hseg, hstream, hframed, hl⟩ :=
    h
  cases l with
  | cons x l =>
    have hne : (s.fragments == s.currFragment) = false := by
      rw [hfill.chain.1, hfill.curr, beq_eq_false_iff_ne, ne_eq, Option.some_inj]
      exact hfill.ne x (List.mem_cons_self ..)
    simp only [handle, hne]
    refine ⟨hl.resolve_left (by simp), ?_⟩
    show s.packets.Sublist (segments s.stream)
    rw [hstream]
    exact hframed.1.trans (Segments.segments_mono _ _).sublist
  | nil =>
    rw [handle_next hfill, settle_ok]
    have hset := hfill.set (g := { f with data := f.data + f.size }) hfill.chain.next_last
    have hle := length_piece_le hlen hbytes hsize
    have hafter : after
        = ({ f with data := f.data + f.size } : PacketFragment).bytes (s.bytesLeft - f.size) := by
      rw [← PacketFragment.drop_bytes, hbytes, hsize, List.drop_left]
    refine ⟨[], ptr, _, seen ++ piece, hset, ?_, ?_, ?_, hframed⟩
    · show f.data + f.size + (s.bytesLeft - f.size) ≤ f.buffer.length
      omega
    · rw [← hafter]
      exact hstream
    · exact (Segments.rest_append_isSegment hseg).symm

theorem frame_free (h : (∃ l, Chain s.mem s.fragments l ∧ OwnsChain s.mem l) ∧ s.Framed s.stream)
    (build : Build) : (s.settle (s.handle build .free)).FrameInv := by
  obtain ⟨⟨l, hchain, howns⟩, hframed⟩ := h
  obtain ⟨mem, heq, ho, -⟩ := packetFragmentsFree_eq hchain howns
  rw [handle, heq]
  exact ⟨rfl, ho, hframed⟩

/-! ## The steps that touch the flat buffers -/

theorem flat_eq {packet : List Byte} (h : s.Flat packet) : s.flat = .ok packet := by
  obtain ⟨⟨ptr, hptr, hget, -⟩, -⟩ := h
  simp only [flat, hptr, hget]

theorem flat_scan (h : s.Scanning) (hflat : s.FlatAt .scan) (ok : Bool) (build : Build) :
    (s.settle (s.handle build (.scan ok))).FlatInv := by
  obtain ⟨l, ptr, f, seen, hfill, hlen, -, htail, -⟩ := h
  cases hfind : (f.bytes s.bytesLeft).findIdx? (· == newline) with
  | none =>
    simp only [handle, scan, curr_eq hfill, ok_bind, PacketFragment.read_eq hlen, hfind]
    split
    · exact hflat
    · exact hflat
  | some i =>
    obtain ⟨-, hfalse, mem, -, -, htrue⟩ := scan_some hfill hlen hfind
    obtain ⟨-, hseg⟩ := findIdx?_newline hfind
    have hsegment := hseg.append hfill.no_newline
    cases ok with
    | false => rw [handle, hfalse]; exact hflat
    | true =>
      rw [handle, htrue]
      have hown := hflat.2.2
      exact ⟨_, ⟨_, rfl, Heap.get?_alloc_next hown.sound.next_notMem, hown.alloc _⟩,
        ⟨rfl, List.mem_append_right _ (List.mem_singleton_self _)⟩, hsegment, rfl⟩

/-- With the lock, a seek command goes to `ioctl` and any other packet to the file. -/
theorem handle_wrlock {packet : List Byte} (h : s.Flat packet) (build : Build) :
    s.seekto ≠ none ∧ s.handle build .wrlock = .ok { s with pc := .ioctl } ∨
      s.seekto = none ∧ s.handle build .wrlock = .ok { s with rest := packet, pc := .fwrite } := by
  cases hseek : s.seekto with
  | some seekto => exact Or.inl ⟨by simp, by rw [handle, hseek]⟩
  | none => exact Or.inr ⟨rfl, by rw [handle, hseek, flat_eq h]; rfl⟩

theorem flat_wrlock {packet : List Byte} (h : s.Flat packet) (build : Build) :
    (s.settle (s.handle build .wrlock)).FlatInv := by
  rcases handle_wrlock h build with ⟨hseek, heq⟩ | ⟨hseek, heq⟩
  · rw [heq]
    exact ⟨packet, h, hseek⟩
  · rw [heq]
    exact ⟨packet, h, hseek, h.2.2.1.ne_nil, List.suffix_rfl⟩

theorem flat_write {packet : List Byte} (h : s.Flat packet) (hseek : s.seekto = none)
    (hrest : s.rest <:+ packet) (count : ℕ) (ok : Bool) (f_pos : ℤ) (build : Build) :
    (s.settle (s.handle build (.write count ok f_pos))).FlatInv := by
  have hsuffix : (if ok then s.rest.drop count else []) <:+ packet := by
    split
    · exact (List.drop_suffix _ _).trans hrest
    · exact List.nil_suffix
  simp only [handle, settle_ok, FlatInv]
  generalize (if ok then s.rest.drop count else []) = rest at hsuffix ⊢
  by_cases hne : rest = []
  · subst hne
    rcases afterWrite_nil build with hpc | hpc
    · rw [hpc]; exact ⟨packet, h⟩
    · rw [hpc]; exact ⟨packet, h⟩
  · rw [afterWrite_of_ne hne]
    exact ⟨packet, h, hseek, hne, hsuffix⟩

theorem flat_wrunlock {packet : List Byte} (h : s.Flat packet) (build : Build) :
    (s.settle (s.handle build .wrunlock)).FlatInv := by
  obtain ⟨⟨ptr, hptr, -, hown⟩, -⟩ := h
  rw [handle, hptr]
  exact ⟨rfl, rfl, hown.free⟩

/-! ## Every step -/

/-- Between `wrlock` and the return from `write_new_packet` the fragments are not touched. -/
theorem frame_write (h : s.InPacket) (count : ℕ) (ok : Bool) (f_pos : ℤ) (build : Build) :
    (s.settle (s.handle build (.write count ok f_pos))).FrameInv := by
  simp only [handle, settle_ok, FrameInv]
  generalize (if ok then s.rest.drop count else []) = rest
  by_cases hne : rest = []
  · subst hne
    rcases afterWrite_nil build with hpc | hpc
    · rw [hpc]; exact h
    · rw [hpc]; exact h
  · rw [afterWrite_of_ne hne]
    exact h

/-- **Every step keeps the invariant.** -/
theorem Inv.step {build : Build} {t : Session} {e : Event} (h : s.Inv)
    (hs : Session.step build s e = some t) : t.Inv := by
  obtain ⟨hpc, -, rfl⟩ := step_eq_some.1 hs
  have hframe : s.FrameAt e.pc := hpc ▸ h.frame
  have hflat : s.FlatAt e.pc := hpc ▸ h.flat
  cases e with
  | start ok =>
    obtain rfl := hframe
    exact ⟨frame_start ok build, hflat⟩
  | recv r =>
    refine ⟨frame_recv hframe r build, ?_⟩
    rw [handle]
    cases s.curr with
    | error bug => exact trivial
    | ok x => cases r <;> exact hflat
  | scan ok => exact ⟨frame_scan hframe ok build, flat_scan hframe hflat ok build⟩
  | wrlock =>
    obtain ⟨packet, hpacket⟩ := hflat
    refine ⟨?_, flat_wrlock hpacket build⟩
    rcases handle_wrlock hpacket build with ⟨-, heq⟩ | ⟨-, heq⟩
    · rw [heq]; exact hframe
    · rw [heq]; exact hframe
  | ioctl f_pos =>
    obtain ⟨packet, hpacket, -⟩ := hflat
    exact ⟨hframe, packet, hpacket⟩
  | write count ok f_pos =>
    obtain ⟨packet, hpacket, hseek, -, hrest⟩ := hflat
    exact ⟨frame_write hframe count ok f_pos build,
      flat_write hpacket hseek hrest count ok f_pos build⟩
  | fseek => exact ⟨hframe, hflat⟩
  | wrunlock =>
    obtain ⟨packet, hpacket⟩ := hflat
    refine ⟨?_, flat_wrunlock hpacket build⟩
    obtain ⟨⟨ptr, hptr, -, -⟩, -⟩ := hpacket
    rw [handle, hptr]
    exact hframe
  | rdlock => exact ⟨hframe, hflat⟩
  | read bytes f_pos =>
    rw [handle]
    split
    · rw [settle_ok, fill]
      split
      · exact ⟨hframe, hflat⟩
      · rw [hpc]
        exact ⟨hframe, hflat⟩
    · split
      · exact ⟨hframe, hflat⟩
      · exact ⟨hframe, hflat⟩
  | send count => exact ⟨hframe, hflat⟩
  | rdunlock => exact ⟨hframe, hflat⟩
  | next =>
    refine ⟨frame_next hframe build, ?_⟩
    rw [handle]
    cases assert (s.fragments == s.currFragment) "client->fragments == curr_fragment" with
    | error bug => exact trivial
    | ok x =>
      cases s.curr with
      | error bug => exact trivial
      | ok x => exact hflat
  | free =>
    refine ⟨frame_free hframe build, ?_⟩
    rw [handle]
    cases packetFragmentsFree s.mem s.fragments with
    | error bug => exact trivial
    | ok mem => exact hflat
  | close => exact ⟨hframe, hflat⟩
  | mark => exact ⟨hframe, hflat⟩

end Session

end Aesd
