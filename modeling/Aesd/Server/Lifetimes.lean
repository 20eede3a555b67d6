import Aesd.Server.Packets
import Aesd.Server.Turn

/-!
# The lifetimes of the fragments

What becomes of each fragment in a session without a failed allocation.  Of each chunk that `recv`
gives, the bytes after its last newline stay in the fragment they were received into, which from
then on waits in the list for the packet's end: so the fragments before the current one hold the
parts of `chunkTails`, one each (`Session.Held`).  The invariant is `Session.ChunksAt`; while a
chunk is looked at it says how much of the chunk was dealt with.

A fragment is freed in `flatten_fragments`, which keeps the last one, or in `packet_fragments_free`
at the end (`Session.step_frees`), and `Session.fragments_freed_once` is what follows for a run.
-/

set_option autoImplicit false

namespace Aesd

/-- The bytes the chunks leave after the last newline, each chunk's part by itself. -/
abbrev chunkTails (chunks : List (List Byte)) : List (List Byte) :=
  Segments.tails (· = newline) chunks

example : chunkTails [[97], [98, newline, 99], [100], [101, newline], [102], [103, 104]]
    = [[102], [103, 104]] := by decide

/-- The chunk received in the step, if there is one. -/
def Event.chunk : Event → Option (List Byte)
  | .recv (.data bytes) => some bytes
  | _ => none

/-- The chunks received in a run. -/
def chunksOf (es : List Event) : List (List Byte) := es.filterMap Event.chunk

theorem chunksOf_cons (e : Event) (es : List Event) :
    chunksOf (e :: es) = e.chunk.toList ++ chunksOf es := by
  cases h : e.chunk <;> simp [chunksOf, h]

theorem streamOf_eq (es : List Event) : streamOf es = (chunksOf es).flatten := by
  induction es with
  | nil => rfl
  | cons e es ih =>
    have he : e.received.elim [] Received.bytes = e.chunk.toList.flatten := by
      cases e with
      | recv r => cases r <;> simp [Event.received, Event.chunk, Received.bytes]
      | _ => rfl
    rw [streamOf_cons, chunksOf_cons, List.flatten_append, ih, he]

/-- No fragment has more bytes than its buffer has room for. -/
def InSize (l : List (ℕ × PacketFragment)) : Prop := ∀ x ∈ l, x.2.buffer.length ≤ BUFFER_SIZE

theorem inSize_concat {l : List (ℕ × PacketFragment)} {x : ℕ × PacketFragment} :
    InSize (l ++ [x]) ↔ InSize l ∧ x.2.buffer.length ≤ BUFFER_SIZE := by
  simp [InSize, or_imp, forall_and]

namespace Session

/-- All chunks were looked at, and the fragments before the current one hold what they leave. -/
def Held (s : Session) (chunks : List (List Byte)) : Prop :=
  ∃ l ptr f, Filling s.mem s.fragments s.currFragment l ptr f ∧ InSize (l ++ [(ptr, f)]) ∧
    l.map (fun x ↦ x.2.piece) = chunkTails chunks

/-- Of the last chunk `dealt` was dealt with, and the rest is to be looked at. -/
def Searching (s : Session) (chunks : List (List Byte)) : Prop :=
  ∃ l ptr f before dealt, Filling s.mem s.fragments s.currFragment l ptr f ∧
    InSize (l ++ [(ptr, f)]) ∧ f.data + s.bytesLeft ≤ f.buffer.length ∧
    chunks = before ++ [dealt ++ f.bytes s.bytesLeft] ∧ tail dealt = [] ∧
    l.map (fun x ↦ x.2.piece) = if newline ∈ dealt then [] else chunkTails before

/-- The next bytes of the last chunk complete a packet, and their fragment is the only one left. -/
def Completing (s : Session) (chunks : List (List Byte)) : Prop :=
  ∃ ptr f before dealt, Filling s.mem s.fragments s.currFragment [] ptr f ∧
    f.buffer.length ≤ BUFFER_SIZE ∧ f.data + s.bytesLeft ≤ f.buffer.length ∧
    chunks = before ++ [dealt ++ f.bytes s.bytesLeft] ∧ f.size ≤ s.bytesLeft ∧
    Segments.IsSegment (· = newline) (f.bytes f.size)

/-- What is true of the fragments after some chunks, depending on what comes next. -/
def ChunksAt (s : Session) (chunks : List (List Byte)) : Pc → Prop
  | .start => s = init ∧ chunks = []
  | .recv => s.Held chunks
  | .scan => s.Searching chunks
  | .free | .close | .mark | .done | .fault _ => True
  | _ => s.Completing chunks

/-- What the session keeps true of its fragments and the chunks received. -/
def Chunked (s : Session) (chunks : List (List Byte)) : Prop := s.ChunksAt chunks s.pc

theorem chunksAt_inPacket {s : Session} {chunks : List (List Byte)} {pc : Pc}
    (h : pc.inPacket = true) : s.ChunksAt chunks pc = s.Completing chunks := by
  cases pc <;> first | rfl | cases h

variable {build : Build} {s t : Session} {e : Event} {es : List Event}
  {chunks : List (List Byte)}

/-! ## The steps on the fragments -/

theorem chunked_start (build : Build) :
    (init.settle (init.handle build (.start true))).Chunked [] := by
  refine ⟨[], 0, ⟨none, 0, 0, []⟩, ?_, by simp [InSize], rfl⟩
  exact ⟨⟨rfl, rfl, rfl⟩, Heap.owns_empty.alloc _, rfl, by simp [InBuffer], by simp,
    by simp [pieces]⟩

/-- A chunk goes into the current fragment. -/
theorem chunked_recv (h : s.Held chunks) {r : Received} (hr : s.Possible (.recv r))
    (build : Build) : (s.settle (s.handle build (.recv r))).Chunked
      (chunks ++ (Event.recv r).chunk.toList) := by
  obtain ⟨l, ptr, f, hfill, hin, htails⟩ := h
  cases r with
  | data bytes =>
    have hset := hfill.set
      (g := { f with buffer := bytes ++ f.buffer.drop bytes.length, data := 0 })
      hfill.chain.next_last
    obtain ⟨hinit, hlast⟩ := inSize_concat.1 hin
    simp only [handle, curr_eq hfill, ok_bind, settle_ok]
    refine ⟨l, ptr, _, chunks, [], hset, inSize_concat.2 ⟨hinit, ?_⟩, by simp, ?_, rfl, ?_⟩
    · have hsize : bytes.length ≤ BUFFER_SIZE := hr.2
      have hf : f.buffer.length ≤ BUFFER_SIZE := hlast
      simp only [List.length_append, List.length_drop]
      omega
    · simp [PacketFragment.bytes, Event.chunk]
    · simpa using htails
  | eof => simp only [handle, curr_eq hfill, ok_bind, settle_ok]; exact trivial
  | error => simp only [handle, curr_eq hfill, ok_bind, settle_ok]; exact trivial

/-- Without a newline the rest of the chunk stays in the fragment. -/
theorem chunked_scan_none {l : List (ℕ × PacketFragment)} {ptr : ℕ} {f : PacketFragment}
    {before : List (List Byte)} {dealt : List Byte}
    (hfill : Filling s.mem s.fragments s.currFragment l ptr f) (hin : InSize (l ++ [(ptr, f)]))
    (hlen : f.data + s.bytesLeft ≤ f.buffer.length) (hdealt : tail dealt = [])
    (htails : l.map (fun x ↦ x.2.piece) = if newline ∈ dealt then [] else chunkTails before)
    (hnone : (f.bytes s.bytesLeft).findIdx? (· == newline) = none) :
    (s.settle (s.scan true)).Chunked (before ++ [dealt ++ f.bytes s.bytesLeft]) := by
  have hnl := findIdx?_none hnone
  have hleft : chunkTails (before ++ [dealt ++ f.bytes s.bytesLeft])
      = l.map (fun x ↦ x.2.piece) ++
        if f.bytes s.bytesLeft = [] then [] else [f.bytes s.bytesLeft] := by
    rw [chunkTails, Segments.tails_concat_append before hdealt hnl, htails]
    simp
  simp only [scan, curr_eq hfill, ok_bind, PacketFragment.read_eq hlen, hnone]
  by_cases hpos : 0 < s.bytesLeft
  · have hne : f.bytes s.bytesLeft ≠ [] := by
      rw [← List.length_pos_iff, PacketFragment.length_bytes hlen]
      exact hpos
    rw [if_neg hne] at hleft
    have hgrow := hfill.grow (g := { f with size := s.bytesLeft, next := some s.mem.next })
      ⟨none, 0, 0, []⟩ rfl rfl hlen hpos hnl
    rw [if_pos hpos]
    rw [inSize_concat] at hin
    refine ⟨_, _, _, hgrow, inSize_concat.2 ⟨inSize_concat.2 hin, Nat.zero_le _⟩, ?_⟩
    rw [hleft, List.map_append]
    rfl
  · have hnil : f.bytes s.bytesLeft = [] := by
      rw [← List.length_eq_zero_iff, PacketFragment.length_bytes hlen]
      omega
    rw [if_pos hnil, List.append_nil] at hleft
    rw [if_neg hpos]
    exact ⟨l, ptr, f, hfill, hin, hleft.symm⟩

/-- With a newline the fragments are flattened, and the current one is left. -/
theorem chunked_scan_some {l : List (ℕ × PacketFragment)} {ptr i : ℕ} {f : PacketFragment}
    {before : List (List Byte)} {dealt : List Byte}
    (hfill : Filling s.mem s.fragments s.currFragment l ptr f) (hin : InSize (l ++ [(ptr, f)]))
    (hlen : f.data + s.bytesLeft ≤ f.buffer.length)
    (hsome : (f.bytes s.bytesLeft).findIdx? (· == newline) = some i) :
    (s.settle (s.scan true)).Chunked (before ++ [dealt ++ f.bytes s.bytesLeft]) := by
  obtain ⟨-, -, mem, hfill', -, htrue⟩ := scan_some hfill hlen hsome
  obtain ⟨hi, hseg⟩ := findIdx?_newline hsome
  rw [PacketFragment.length_bytes hlen] at hi
  rw [PacketFragment.take_bytes hi] at hseg
  rw [htrue, settle_ok]
  exact ⟨ptr, _, before, dealt, hfill', (inSize_concat.1 hin).2, hlen, rfl, hi, hseg⟩

/-- After the packet the search goes on behind it. -/
theorem chunked_next (h : s.Completing chunks) (build : Build) :
    (s.settle (s.handle build .next)).Chunked chunks := by
  obtain ⟨ptr, f, before, dealt, hfill, hin, hlen, rfl, hle, hseg⟩ := h
  have hset := hfill.set (g := { f with data := f.data + f.size }) hfill.chain.next_last
  have hcut : f.bytes s.bytesLeft = f.bytes f.size
      ++ ({ f with data := f.data + f.size } : PacketFragment).bytes (s.bytesLeft - f.size) := by
    rw [← PacketFragment.drop_bytes, ← PacketFragment.take_bytes hle, List.take_append_drop]
  have hmem : newline ∈ dealt ++ f.bytes f.size := by
    obtain ⟨b, x, hpiece, -, rfl⟩ := hseg
    rw [hpiece]
    simp
  rw [handle_next hfill, settle_ok]
  refine ⟨[], ptr, _, before, dealt ++ f.bytes f.size, hset, ?_, ?_, ?_,
    Segments.rest_append_isSegment hseg, by rw [if_pos hmem]; rfl⟩
  · intro x hx
    rw [List.mem_singleton.1 hx]
    exact hin
  · show f.data + f.size + (s.bytesLeft - f.size) ≤ f.buffer.length
    omega
  · rw [List.append_assoc, ← hcut]

theorem chunked_scan (h : s.Searching chunks) (build : Build) :
    (s.settle (s.handle build (.scan true))).Chunked chunks := by
  obtain ⟨l, ptr, f, before, dealt, hfill, hin, hlen, rfl, hdealt, htails⟩ := h
  cases hfind : (f.bytes s.bytesLeft).findIdx? (· == newline) with
  | none => exact chunked_scan_none hfill hin hlen hdealt htails hfind
  | some i => exact chunked_scan_some hfill hin hlen hfind

/-- The steps between leave it as it is. -/
theorem Completing.stay (h : s.Completing chunks) (hst : s.Stays t) : t.Completing chunks := by
  obtain ⟨ptr, f, before, dealt, hfill, hin, hlen, hchunks, hle, hseg⟩ := h
  rw [← hst.mem, ← hst.fragments, ← hst.currFragment] at hfill
  rw [← hst.bytesLeft] at hlen hchunks hle
  exact ⟨ptr, f, before, dealt, hfill, hin, hlen, hchunks, hle, hseg⟩

/-- **Every step without a failed allocation** leaves the fragments as the chunks say. -/
theorem Chunked.step (h : s.Chunked chunks) (hinv : s.Inv) (hok : e.MallocOk)
    (hstep : Session.step build s e = some t) : t.Chunked (chunks ++ e.chunk.toList) := by
  have hturn := step_turn hinv.flat hstep
  obtain ⟨hpc, hposs, rfl⟩ := step_eq_some.1 hstep
  rw [Chunked, hpc] at h
  by_cases hin : e.pc.inPacket = true
  · rw [chunksAt_inPacket hin] at h
    have hnone : e.chunk.toList = [] := by cases e <;> first | rfl | cases hin
    rw [hnone, List.append_nil]
    by_cases hnext : e = .next
    · subst hnext
      exact chunked_next h build
    · obtain ⟨hpc', hst⟩ := hturn.stays hpc hin hnext
      rw [Chunked, chunksAt_inPacket hpc']
      exact h.stay hst
  cases e with
  | start ok =>
    obtain rfl : ok = true := hok
    obtain ⟨rfl, rfl⟩ := h
    exact chunked_start build
  | recv r => exact chunked_recv h hposs build
  | scan ok =>
    obtain rfl : ok = true := hok
    have hnone : (Event.scan true).chunk.toList = [] := rfl
    rw [hnone, List.append_nil]
    exact chunked_scan h build
  | free =>
    rw [handle]
    cases packetFragmentsFree s.mem s.fragments with
    | error bug => exact trivial
    | ok mem => exact trivial
  | close => exact trivial
  | mark => exact trivial
  | _ => exact absurd rfl hin

theorem run_chunked {s₀ : Session} (h : MallocRun build s₀ es s) (hinv : s₀.Inv)
    (hs : s₀.Chunked chunks) : s.Chunked (chunks ++ chunksOf es) := by
  induction h generalizing chunks with
  | nil s =>
    rw [chunksOf, List.filterMap_nil, List.append_nil]
    exact hs
  | cons hok hstep _ ih =>
    rw [chunksOf_cons, ← List.append_assoc]
    exact ih (hinv.step hstep) (hs.step hinv hok hstep)

/-! ## What a step frees -/

/-- The fragments that a step frees. -/
inductive Frees (s : Session) : Event → Session → Prop
  /-- `flatten_fragments` frees all but the last, which is the list from then on. -/
  | flatten {t : Session} (l : List (ℕ × PacketFragment)) (ptr : ℕ) (f : PacketFragment)
    (chain : Chain s.mem s.fragments (l ++ [(ptr, f)]))
    (freed : t.mem.freed = s.mem.freed ++ l.map Prod.fst) (last : t.fragments = some ptr) :
    Frees s (.scan true) t
  /-- `packet_fragments_free` frees all. -/
  | all {t : Session} (l : List (ℕ × PacketFragment)) (chain : Chain s.mem s.fragments l)
    (freed : t.mem.freed = s.mem.freed ++ l.map Prod.fst) (last : t.fragments = none) :
    Frees s .free t
  /-- Any other step frees none. -/
  | nothing {e : Event} {t : Session} (freed : t.mem.freed = s.mem.freed) : Frees s e t

theorem frees_scan (h : s.Scanning) (ok : Bool) (build : Build) :
    s.Frees (.scan ok) (s.settle (s.handle build (.scan ok))) := by
  obtain ⟨l, ptr, f, seen, hfill, hlen, -⟩ := h
  cases hfind : (f.bytes s.bytesLeft).findIdx? (· == newline) with
  | none =>
    refine .nothing ?_
    simp only [handle, scan, curr_eq hfill, ok_bind, PacketFragment.read_eq hlen, hfind]
    split
    · cases ok <;> rfl
    · rfl
  | some i =>
    obtain ⟨-, hfalse, mem, -, hfreed, htrue⟩ := scan_some hfill hlen hfind
    cases ok with
    | false => rw [handle, hfalse]; exact .nothing rfl
    | true => rw [handle, htrue]; exact .flatten l ptr f hfill.chain hfreed rfl

/-- **Fragments are freed in two places.** -/
theorem step_frees (h : s.Inv) (hstep : Session.step build s e = some t) : s.Frees e t := by
  have hturn := step_turn h.flat hstep
  obtain ⟨hpc, -, rfl⟩ := step_eq_some.1 hstep
  have hframe : s.FrameAt e.pc := hpc ▸ h.frame
  by_cases hin : e.pc.inPacket = true ∧ e ≠ .next
  · obtain ⟨-, hst⟩ := hturn.stays hpc hin.1 hin.2
    exact .nothing (by rw [hst.mem])
  cases e with
  | start ok => exact .nothing (by cases ok <;> rfl)
  | recv r =>
    refine .nothing ?_
    rw [handle]
    cases s.curr with
    | error bug => rfl
    | ok x => cases r <;> rfl
  | scan ok => exact frees_scan hframe ok build
  | next =>
    refine .nothing ?_
    rw [handle]
    cases assert (s.fragments == s.currFragment) "client->fragments == curr_fragment" with
    | error bug => rfl
    | ok _ => cases s.curr <;> rfl
  | free =>
    obtain ⟨⟨l, hchain, howns⟩, -⟩ := hframe
    obtain ⟨mem, heq, -, -, hfreed⟩ := packetFragmentsFree_eq hchain howns
    rw [handle, heq]
    exact .all l hchain hfreed rfl
  | close => exact .nothing rfl
  | mark => exact .nothing rfl
  | _ => exact absurd ⟨rfl, by simp⟩ hin

/-! ## A whole session -/

/-- **The fragments of a session.**  When no allocation fails, every stream can be received to its
end in any chunks, and in every state on the way nothing is used that was freed and nothing was
freed twice.  Before each `recv` the fragments in memory are the nodes of the list from
`client->fragments` to `curr_fragment`; those before the last hold, in their own buffers and without
a newline, the bytes after the last newline received, one fragment for each chunk that left some.
They are freed by `flatten_fragments` and `packet_fragments_free` only, and when the thread is done
each was freed exactly once. -/
theorem fragments_freed_once (build : Build) :
    (∀ (chunks : List (List Byte)) (last : Received),
      (∀ c ∈ chunks, c ≠ [] ∧ c.length ≤ BUFFER_SIZE) → last = .eof ∨ last = .error →
      ∃ es s, MallocRun build init es s ∧ receivedOf es = chunks.map .data ++ [last] ∧
        s.pc = .done) ∧
    ∀ es s, MallocRun build init es s →
      (s.pc = .recv → ∃ l ptr f, Filling s.mem s.fragments s.currFragment l ptr f ∧ InSize l ∧
        l.map (fun x ↦ x.2.piece) = chunkTails (chunksOf es) ∧ pieces l = tail (streamOf es) ∧
        (l ++ [(ptr, f)]).length = 1 + (chunkTails (chunksOf es)).length) ∧
      (∀ bug, s.pc ≠ .fault bug) ∧ s.mem.freed.Nodup ∧
      (∀ e t, Session.step build s e = some t → s.Frees e t) ∧
      (s.pc = .done → s.fragments = none ∧ s.mem.Owns [] ∧
        ∀ p < s.mem.next, s.mem.freed.count p = 1) := by
  refine ⟨fun chunks last hchunks hlast ↦ run_to_end build chunks hchunks hlast,
    fun es s hrun ↦ ?_⟩
  obtain ⟨hinv, hf, -⟩ := run_mallocOk hrun inv_init rfl
  have hchunked := run_chunked hrun inv_init ⟨rfl, rfl⟩
  rw [List.nil_append] at hchunked
  obtain ⟨l, hchain, howns⟩ := hinv.frame.chain (hinv.no_fault hf)
  refine ⟨fun hrecv ↦ ?_, hinv.no_fault hf, howns.sound.nodup, fun e t ↦ step_frees hinv,
    fun hdone ↦ ?_⟩
  · rw [Chunked, hrecv] at hchunked
    obtain ⟨l, ptr, f, hfill, hin, htails⟩ := hchunked
    refine ⟨l, ptr, f, hfill, (inSize_concat.1 hin).1, htails, ?_, ?_⟩
    · rw [pieces, List.flatMap_def, htails, Segments.flatten_tails, streamOf_eq]
    · rw [← htails, List.length_map, List.length_append, List.length_singleton, Nat.add_comm]
  · have hframe : s.FrameAt .done := hdone ▸ hinv.frame
    obtain ⟨hnone, hempty, -⟩ := hframe
    exact ⟨hnone, hempty, fun p hp ↦ hempty.count_freed hp⟩

end Session

end Aesd
