import Mathlib.Data.List.Forall2
import Aesd.Driver.CommandLog
import Aesd.Driver.Device

/-!
# When the driver's state represents a log

`Driver.Represents d log` is the invariant of the driver between two calls, stated as the relation
to the log the state stands for.  It says that the ring is well formed and its live entries hold the
log's commands, that `temp_entry` holds the pending bytes, that every other slot is `NULL`, and that
the allocated blocks are exactly those the state points to, each pointed to once.

Inside a call some more blocks are allocated, to which only local variables point.
`Driver.Stores d log extra` is the same relation with these blocks listed in `extra`; the lemmas
about it are the moves the driver makes: `Stores.kmalloc`, `Stores.kfree`, `Stores.move` and
`Stores.krealloc` of the pending bytes, and `Stores.commit` of a finished command.
-/

set_option autoImplicit false

namespace Aesd

/-- The entry holds the bytes: its pointer points to a block with exactly these. -/
def Holds (mem : Memory) (e : AesdBufferEntry) (bytes : List Byte) : Prop :=
  ∃ ptr, e.buffptr = some ptr ∧ mem.get? ptr = some bytes ∧ e.size = bytes.length

theorem Holds.congr {mem mem' : Memory} {e : AesdBufferEntry} {bytes : List Byte}
    (h : Holds mem e bytes) (hm : ∀ ptr, e.buffptr = some ptr → mem'.get? ptr = mem.get? ptr) :
    Holds mem' e bytes := by
  obtain ⟨ptr, hp, hb, hs⟩ := h
  exact ⟨ptr, hp, by rw [hm ptr hp, hb], hs⟩

theorem Holds.size_eq {mem : Memory} {e : AesdBufferEntry} {bytes : List Byte}
    (h : Holds mem e bytes) : e.size = bytes.length := by
  obtain ⟨ptr, -, -, hs⟩ := h
  exact hs

/-- The bytes an entry stands for. -/
def entryBytes (mem : Memory) (e : AesdBufferEntry) : List Byte :=
  ((e.buffptr.bind mem.get?).getD []).take e.size

theorem Holds.entryBytes_eq {mem : Memory} {e : AesdBufferEntry} {bytes : List Byte}
    (h : Holds mem e bytes) : entryBytes mem e = bytes := by
  obtain ⟨ptr, hp, hg, hs⟩ := h
  rw [entryBytes, hp, Option.bind_some, hg, Option.getD_some, hs, List.take_length]

namespace Driver

/-- The stored commands, oldest first. -/
def commands (d : Driver) : List (List Byte) := d.dev.buffer.entries.map (entryBytes d.mem)

/-- The stored bytes, from the first of the oldest command on. -/
def content (d : Driver) : List Byte := d.commands.flatten

/-- The blocks the ring's live entries point to. -/
def ringPointers (d : Driver) : List ℕ :=
  d.dev.buffer.entries.filterMap AesdBufferEntry.buffptr

/-- The blocks the driver's state points to. -/
def pointers (d : Driver) : List ℕ := d.ringPointers ++ d.dev.tempEntry.buffptr.toList

variable [Platform]

/-- The state stores the log, and `extra` are the blocks allocated besides. -/
structure Stores (d : Driver) (log : CommandLog) (extra : List ℕ) : Prop where
  /-- The ring is well formed. -/
  wf : d.dev.buffer.WF
  /-- The live entries hold the commands. -/
  entries : List.Forall₂ (Holds d.mem) d.dev.buffer.entries log.commands
  /-- `temp_entry` holds the pending bytes. -/
  temp : log.pending = [] ∧ d.dev.tempEntry = .null ∨
    log.pending ≠ [] ∧ Holds d.mem d.dev.tempEntry log.pending
  /-- Every block has one owner. -/
  owns : d.mem.Owns (d.pointers ++ extra)
  /-- A command fits in a block. -/
  small : ∀ c ∈ log.commands, c.length ≤ Platform.kmallocMax
  /-- The pending bytes fit in a block. -/
  smallPending : log.pending.length ≤ Platform.kmallocMax
  /-- A command ends in a newline. -/
  terminated : ∀ c ∈ log.commands, NewlineTerminated c
  /-- A slot outside the window is `NULL`. -/
  unused : d.dev.buffer.Unused
  /-- Nothing was evicted from a ring that is not full. -/
  start : d.dev.buffer.full = false → d.dev.buffer.outOffs = 0

/-- **The invariant**: the state stores the log and nothing else, and the pending bytes do not end
a command. -/
structure Represents (d : Driver) (log : CommandLog) : Prop extends Stores d log [] where
  /-- The pending bytes do not end a command. -/
  unterminated : ¬ NewlineTerminated log.pending

variable {d : Driver} {log : CommandLog} {extra : List ℕ} {mem : Memory} {ptr : ℕ}
  {bytes : List Byte}

theorem represents_init : aesdInitModule.Represents .empty where
  wf := AesdCircularBuffer.wf_init
  entries := .nil
  temp := Or.inl ⟨rfl, rfl⟩
  owns := Heap.owns_empty
  small := by simp [CommandLog.empty]
  smallPending := Nat.zero_le _
  terminated := by simp [CommandLog.empty]
  unused i _ _ := by
    simp [aesdInitModule, AesdCircularBuffer.init, Ring.slot]
  start _ := rfl
  unterminated := by simp [CommandLog.empty, NewlineTerminated]

theorem Stores.commands_eq (h : d.Stores log extra) : d.commands = log.commands := by
  rw [commands, ← List.forall₂_eq_eq_eq, List.forall₂_map_left_iff]
  exact h.entries.imp fun _ _ hc ↦ hc.entryBytes_eq

theorem Stores.content_eq (h : d.Stores log extra) : d.content = log.content := by
  rw [content, h.commands_eq, CommandLog.content]

omit [Platform] in
theorem mem_ringPointers :
    ptr ∈ d.ringPointers ↔ ∃ e ∈ d.dev.buffer.entries, e.buffptr = some ptr := by
  simp [ringPointers]

omit [Platform] in
theorem mem_pointers : ptr ∈ d.pointers ↔
    (∃ e ∈ d.dev.buffer.entries, e.buffptr = some ptr) ∨ d.dev.tempEntry.buffptr = some ptr := by
  rw [pointers, List.mem_append, mem_ringPointers, Option.mem_toList]

theorem Stores.live (h : d.Stores log extra) (hp : ptr ∈ d.pointers) : d.mem.Live ptr :=
  (h.owns.live ptr).1 (List.mem_append_left _ hp)

/-- **The frame rule**: what happens to blocks that the state does not point to is not seen. -/
theorem Stores.frame {extra' : List ℕ} (h : d.Stores log extra)
    (hm : ∀ p ∈ d.pointers, mem.get? p = d.mem.get? p) (ho : mem.Owns (d.pointers ++ extra')) :
    Stores { d with mem := mem } log extra' where
  wf := h.wf
  entries := by
    refine ((List.forall₂_and_left _ _).2 ⟨fun _ he ↦ he, h.entries⟩).imp ?_
    rintro e c ⟨he, hc⟩
    exact hc.congr fun p hp ↦ hm p (mem_pointers.2 (Or.inl ⟨e, he, hp⟩))
  temp := h.temp.imp_right fun ⟨h1, h2⟩ ↦
    ⟨h1, h2.congr fun p hp ↦ hm p (mem_pointers.2 (Or.inr hp))⟩
  owns := ho
  small := h.small
  smallPending := h.smallPending
  terminated := h.terminated
  unused := h.unused
  start := h.start

theorem Stores.ne_of_mem (h : d.Stores log extra) {p q : ℕ} (hp : p ∈ d.pointers)
    (hq : q ∈ extra) : p ≠ q :=
  (List.nodup_append.1 h.owns.nodup).2.2 p hp q hq

theorem Stores.live_extra (h : d.Stores log extra) (hp : ptr ∈ extra) : d.mem.Live ptr :=
  (h.owns.live ptr).1 (List.mem_append_right _ hp)

/-! ## The moves of a call -/

theorem Stores.alloc (h : d.Stores log extra) (block : List Byte) :
    Stores { d with mem := d.mem.alloc block } log (d.mem.next :: extra) := by
  refine h.frame (fun p hp ↦ Heap.get?_alloc_of_live (h.live hp)) ?_
  exact (h.owns.alloc block).perm List.perm_middle.symm

/-- Writing to a block that the state does not point to. -/
theorem Stores.set (h : d.Stores log extra) (hp : ptr ∈ extra) (block : List Byte) :
    Stores { d with mem := d.mem.set ptr block } log extra :=
  h.frame (fun _ hq ↦ Heap.get?_set_of_ne (h.ne_of_mem hq hp)) (h.owns.set ptr block)

theorem Stores.kfree (h : d.Stores log (ptr :: extra)) :
    Stores { d with mem := kfree d.mem ptr } log extra :=
  h.frame (fun _ hq ↦ Heap.get?_free_of_ne (h.ne_of_mem hq (List.mem_cons_self ..)))
    (h.owns.perm List.perm_middle).free

theorem Stores.temp_none (h : d.Stores log extra) (hb : d.dev.tempEntry.buffptr = none) :
    log.pending = [] ∧ d.dev.tempEntry = .null := by
  rcases h.temp with h1 | ⟨-, ptr, hp, -⟩
  · exact h1
  · rw [hb] at hp; exact absurd hp (by simp)

theorem Stores.temp_some (h : d.Stores log extra) (hb : d.dev.tempEntry.buffptr = some ptr) :
    log.pending ≠ [] ∧ d.mem.get? ptr = some log.pending ∧
      d.dev.tempEntry.size = log.pending.length := by
  rcases h.temp with ⟨-, hn⟩ | ⟨hne, q, hq, hg, hs⟩
  · rw [hn] at hb; exact absurd hb (by simp [AesdBufferEntry.null])
  · rw [hb, Option.some_inj] at hq
    exact ⟨hne, hq ▸ hg, hs⟩

/-- The driver with another `temp_entry`. -/
def setTemp (d : Driver) (e : AesdBufferEntry) : Driver :=
  { d with dev := { d.dev with tempEntry := e } }

/-- A filled block becomes the pending bytes. -/
theorem Stores.move (h : d.Stores log (ptr :: extra)) (hb : d.dev.tempEntry.buffptr = none)
    (hg : d.mem.get? ptr = some bytes) (hne : bytes ≠ [])
    (hlen : bytes.length ≤ Platform.kmallocMax) :
    (d.setTemp ⟨some ptr, bytes.length⟩).Stores { log with pending := bytes } extra where
  wf := h.wf
  entries := h.entries
  temp := Or.inr ⟨hne, ptr, rfl, hg, rfl⟩
  owns := by
    have ho := h.owns
    rw [pointers, hb, Option.toList_none, List.append_nil] at ho
    rw [pointers, setTemp, List.append_assoc]
    exact ho
  small := h.small
  smallPending := hlen
  terminated := h.terminated
  unused := h.unused
  start := h.start

/-- The pending bytes move to another block, that has more of them. -/
theorem Stores.replace {new : ℕ} (h : d.Stores log (new :: extra))
    (hb : d.dev.tempEntry.buffptr = some ptr) (hg : d.mem.get? new = some bytes) (hne : bytes ≠ [])
    (hlen : bytes.length ≤ Platform.kmallocMax) :
    (setTemp { d with mem := Aesd.kfree d.mem ptr } ⟨some new, bytes.length⟩).Stores
      { log with pending := bytes } extra := by
  have hp : ptr ∈ d.pointers := mem_pointers.2 (Or.inr hb)
  have hring : ∀ q ∈ d.ringPointers, q ≠ ptr := by
    intro q hq
    have hnd := (List.nodup_append.1 h.owns.nodup).1
    rw [pointers, hb] at hnd
    exact (List.nodup_append.1 hnd).2.2 q hq ptr (by simp)
  refine ⟨h.wf, ?_, Or.inr ⟨hne, new, rfl, ?_, rfl⟩, ?_, h.small, hlen, h.terminated, h.unused,
    h.start⟩
  · refine ((List.forall₂_and_left _ _).2 ⟨fun _ he ↦ he, h.entries⟩).imp ?_
    rintro e c ⟨he, hc⟩
    exact hc.congr fun q hq ↦ Heap.get?_free_of_ne (hring q (mem_ringPointers.2 ⟨e, he, hq⟩))
  · rw [← hg]
    exact Heap.get?_free_of_ne (h.ne_of_mem hp (List.mem_cons_self ..)).symm
  · have ho := h.owns
    rw [pointers, hb] at ho
    have hperm : (d.ringPointers ++ [ptr] ++ new :: extra).Perm
        (ptr :: (d.ringPointers ++ [new] ++ extra)) := by
      simp only [List.append_assoc, List.singleton_append]
      exact List.perm_middle
    exact (ho.perm hperm).free

/-! ## Ending a command -/

/-- The driver once `temp_entry` is moved into the ring and the evicted block is freed. -/
def pushTemp (d : Driver) : Driver where
  dev := ⟨d.dev.buffer.pushed d.dev.tempEntry, .null⟩
  mem := match d.dev.buffer.evicted.buffptr with
    | some ptr => Aesd.kfree d.mem ptr
    | none => d.mem

theorem Stores.length_commands (h : d.Stores log extra) :
    log.commands.length = d.dev.buffer.size := by
  rw [← h.entries.length_eq, AesdCircularBuffer.length_entries]

theorem Stores.holds_temp (h : d.Stores log extra) (hne : log.pending ≠ []) :
    Holds d.mem d.dev.tempEntry log.pending :=
  (h.temp.resolve_left fun h1 ↦ hne h1.1).2

omit [Platform] in
theorem mem_push {c : List Byte} (hc : c ∈ log.push.commands) :
    c ∈ log.commands ∨ c = log.pending := by
  have hmem := List.mem_of_mem_drop hc
  rwa [List.mem_append, List.mem_singleton] at hmem

/-- A ring that is not full takes the command in. -/
theorem Stores.push_of_not_full (h : d.Stores log extra) (ht : NewlineTerminated log.pending)
    (hf : d.dev.buffer.full = false) :
    d.pushTemp.mem = d.mem ∧
      List.Forall₂ (Holds d.mem) d.pushTemp.dev.buffer.entries log.push.commands ∧
      d.mem.Owns (d.pushTemp.pointers ++ extra) := by
  have hlt := h.wf.size_lt hf
  have hent : d.pushTemp.dev.buffer.entries = d.dev.buffer.entries ++ [d.dev.tempEntry] := by
    rw [pushTemp, h.wf.entries_pushed, Ring.rtake_concat_of_lt (by simpa using hlt)]
  have hcmd : log.push.commands = log.commands ++ [log.pending] := by
    rw [CommandLog.push, Ring.rtake_concat_of_lt (by rw [h.length_commands]; exact hlt)]
  have htemp := h.holds_temp ht.ne_nil
  refine ⟨?_, ?_, ?_⟩
  · simp only [pushTemp, AesdCircularBuffer.evicted, hf]
    rfl
  · rw [hent, hcmd]
    exact List.rel_append h.entries (.cons htemp .nil)
  · obtain ⟨ptr, hp, -, -⟩ := htemp
    have ho := h.owns
    rw [pointers, ringPointers, hp] at ho
    rw [pointers, ringPointers, hent, List.filterMap_append]
    simpa [pushTemp, AesdBufferEntry.null, hp] using ho

/-- A full ring takes the command in and gives the block of the oldest back. -/
theorem Stores.push_of_full (h : d.Stores log extra) (ht : NewlineTerminated log.pending)
    (hf : d.dev.buffer.full = true) :
    List.Forall₂ (Holds d.pushTemp.mem) d.pushTemp.dev.buffer.entries log.push.commands ∧
      d.pushTemp.mem.Owns (d.pushTemp.pointers ++ extra) := by
  have hsz := h.wf.full_iff.1 hf
  have hlen := h.length_commands
  have htemp := h.holds_temp ht.ne_nil
  have hent : d.pushTemp.dev.buffer.entries = d.dev.buffer.entries.tail ++ [d.dev.tempEntry] := by
    rw [pushTemp, h.wf.entries_pushed, Ring.rtake_concat_of_eq (by simpa using hsz)]
  have hcmd : log.push.commands = log.commands.tail ++ [log.pending] := by
    rw [CommandLog.push, Ring.rtake_concat_of_eq (by rw [hlen, hsz])]
  have hev : d.dev.buffer.evicted = d.dev.buffer.entries.headD .null := by
    rw [h.wf.evicted_eq, if_pos hf]
  have hentries := h.entries
  have ho := h.owns
  rw [pointers, ringPointers] at ho
  rw [pointers, ringPointers, hent, hcmd]
  cases he : d.dev.buffer.entries with
  | nil =>
    rw [← AesdCircularBuffer.length_entries, he] at hsz
    exact absurd hsz (by decide)
  | cons e es =>
    rw [he] at hentries ho hev
    rw [List.forall₂_cons_left_iff] at hentries
    obtain ⟨c, cs, ⟨old, hold, hget, hsize⟩, hes, hcs⟩ := hentries
    obtain ⟨ptr, hp, hg, hs⟩ := htemp
    have hmem : d.pushTemp.mem = Aesd.kfree d.mem old := by
      simp only [pushTemp, hev, List.headD_cons, hold]
    rw [List.filterMap_cons_some hold, hp] at ho
    have ho' : d.mem.Owns (old :: (es.filterMap AesdBufferEntry.buffptr ++ [ptr] ++ extra)) := by
      simpa using ho
    have hold_ne : ∀ q ∈ es.filterMap AesdBufferEntry.buffptr ++ [ptr] ++ extra, q ≠ old := by
      rintro q hq rfl
      exact (List.nodup_cons.1 ho'.nodup).1 hq
    rw [hmem, hcs]
    refine ⟨List.rel_append ?_ (.cons ?_ .nil), ?_⟩
    · refine ((List.forall₂_and_left _ _).2 ⟨fun _ he ↦ he, hes⟩).imp ?_
      rintro e' c' ⟨he', hc'⟩
      refine hc'.congr fun q hq ↦ Heap.get?_free_of_ne (hold_ne q ?_)
      exact List.mem_append_left _ (List.mem_append_left _ (List.mem_filterMap.2 ⟨e', he', hq⟩))
    · refine Holds.congr ⟨ptr, hp, hg, hs⟩ fun q hq ↦ Heap.get?_free_of_ne (hold_ne q ?_)
      rw [hp, Option.some_inj] at hq
      simp [hq]
    · have hfree := ho'.free
      simpa [pushTemp, AesdBufferEntry.null, hp, List.filterMap_append, Aesd.kfree] using hfree

/-- **Ending a command.** -/
theorem Stores.push (h : d.Stores log extra) (ht : NewlineTerminated log.pending) :
    d.pushTemp.Stores log.push extra := by
  have hring : List.Forall₂ (Holds d.pushTemp.mem) d.pushTemp.dev.buffer.entries log.push.commands ∧
      d.pushTemp.mem.Owns (d.pushTemp.pointers ++ extra) := by
    cases hf : d.dev.buffer.full with
    | true => exact h.push_of_full ht hf
    | false =>
      obtain ⟨hmem, hent, ho⟩ := h.push_of_not_full ht hf
      rw [hmem]
      exact ⟨hent, ho⟩
  refine ⟨h.wf.pushed _, hring.1, Or.inl ⟨rfl, rfl⟩, hring.2, ?_, Nat.zero_le _, ?_,
    h.wf.unused_pushed h.unused _, ?_⟩
  · intro c hc
    rcases mem_push hc with hc | rfl
    · exact h.small c hc
    · exact h.smallPending
  · intro c hc
    rcases mem_push hc with hc | rfl
    · exact h.terminated c hc
    · exact ht
  · intro hf
    simp only [pushTemp, AesdCircularBuffer.pushed] at hf ⊢
    cases hfull : d.dev.buffer.full with
    | true => simp [hfull] at hf
    | false => rw [if_neg (by simp)]; exact h.start hfull

end Driver

end Aesd
