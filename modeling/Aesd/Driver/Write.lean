import Aesd.Driver.Represents

/-!
# Writing refines the log

`aesd_write` on a state that represents a log: `aesdWrite_accepted` and `aesdWrite_refused` are its
specification.  A call is accepted when nothing it needs fails (`WriteCall.Accepted`); it then
returns its count, and the state represents the log with the chunk written.  Any other call returns
`0` or an error, and the state still represents the same log, with the same device.
-/

set_option autoImplicit false

namespace Aesd

variable [Platform]

/-- Nothing that the call needs fails: the locks, the copy, and memory for the chunk and, where
there are pending bytes, for these and the chunk together. -/
def WriteCall.Accepted (call : WriteCall) (log : CommandLog) : Prop :=
  call.userBuf ≠ [] ∧ call.kmallocOk = true ∧ call.userBuf.length ≤ Platform.kmallocMax ∧
    call.copyOk = true ∧ call.lockOk = true ∧
    (log.pending ≠ [] → call.kreallocOk = true ∧
      log.pending.length + call.userBuf.length ≤ Platform.kmallocMax)

instance (call : WriteCall) (log : CommandLog) : Decidable (call.Accepted log) :=
  inferInstanceAs (Decidable (_ ∧ _))

namespace Driver

variable {d : Driver} {log : CommandLog} {extra : List ℕ} {call : WriteCall}

/-- The driver once `kern_buf` is allocated and filled. -/
def filled (d : Driver) (bytes : List Byte) : Driver :=
  { d with mem := (d.mem.alloc (List.replicate bytes.length 0)).set d.mem.next bytes }

theorem Stores.filled (h : d.Stores log extra) (bytes : List Byte) :
    (d.filled bytes).Stores log (d.mem.next :: extra) :=
  (h.alloc _).set (List.mem_cons_self ..) bytes

theorem Stores.filled_get? (h : d.Stores log extra) (bytes : List Byte) :
    (d.filled bytes).mem.get? d.mem.next = some bytes :=
  Heap.get?_set_self ((h.alloc _).live_extra (List.mem_cons_self ..))

theorem Stores.poke_filled (h : d.Stores log extra) (bytes : List Byte) :
    poke (d.mem.alloc (List.replicate bytes.length 0)) d.mem.next 0 bytes
      = .ok (d.filled bytes).mem :=
  poke_all (Heap.get?_alloc_next h.owns.sound.next_notMem) List.length_replicate

/-- `kfree` of the buffer that only `kern_buf` points to, if there is one. -/
def dropBuf (d : Driver) : Option ℕ → Driver
  | some ptr => { d with mem := kfree d.mem ptr }
  | none => d

theorem Stores.dropBuf {kernBuf : Option ℕ} (h : d.Stores log kernBuf.toList) :
    (d.dropBuf kernBuf).Stores log [] := by
  cases kernBuf with
  | none => exact h
  | some ptr => exact h.kfree

theorem commit_eq (hwf : d.dev.buffer.WF) (nt : Bool) (kernBuf : Option ℕ) {count : ℕ}
    (hc : count ≤ Platform.kmallocMax) :
    commit d.dev d.mem nt kernBuf count
      = .ok ((count : ℤ), (if nt then d.pushTemp else d).dropBuf kernBuf) := by
  rw [commit, SSizeT.ofSize_of_fits (by omega)]
  cases nt with
  | false => cases kernBuf <;> rfl
  | true =>
    simp only [if_true, AesdCircularBuffer.addEntry_eq hwf, ok_bind]
    cases kernBuf <;> rfl

/-- The end of an accepted call, from the state in which `temp_entry` already has the chunk. -/
theorem Stores.commit (log : CommandLog) (kernBuf : Option ℕ) {chunk : List Byte}
    (h : d.Stores { log with pending := log.pending ++ chunk } kernBuf.toList)
    (hne : chunk ≠ []) (hc : chunk.length ≤ Platform.kmallocMax) :
    ∃ d', Driver.commit d.dev d.mem (chunk.getLast? == some newline) kernBuf chunk.length
        = .ok ((chunk.length : ℤ), d') ∧
      d'.Represents (log.write chunk) := by
  refine ⟨_, commit_eq h.wf _ kernBuf hc, ?_⟩
  by_cases ht : NewlineTerminated chunk
  · have hb : (chunk.getLast? == some newline) = true := beq_iff_eq.2 ht
    rw [CommandLog.write_of_terminated ht, hb, if_pos rfl]
    refine ⟨(h.push ((newlineTerminated_append hne).2 ht)).dropBuf, ?_⟩
    simp [NewlineTerminated]
  · have hb : (chunk.getLast? == some newline) = false := beq_eq_false_iff_ne.2 ht
    rw [CommandLog.write_of_not_terminated ht, hb, if_neg (by simp)]
    exact ⟨h.dropBuf, fun hn ↦ ht ((newlineTerminated_append hne).1 hn)⟩

/-- Moving the pending bytes to the larger block and adding the chunk. -/
theorem Stores.append {kb ptr : ℕ} (h : d.Stores log [kb]) {chunk : List Byte}
    (hg : d.mem.get? kb = some chunk) (hb : d.dev.tempEntry.buffptr = some ptr)
    (hlen : log.pending.length + chunk.length ≤ Platform.kmallocMax) :
    ∃ new mem mem', krealloc d.mem ptr (log.pending.length + chunk.length) true
        = .ok (some (new, mem)) ∧
      peek mem kb 0 chunk.length = .ok chunk ∧
      poke mem new log.pending.length chunk = .ok mem' ∧
      Stores ⟨{ d.dev with tempEntry := ⟨some new, log.pending.length + chunk.length⟩ }, mem'⟩
        { log with pending := log.pending ++ chunk } [kb] := by
  obtain ⟨hne, hget, -⟩ := h.temp_some hb
  have hpad : (List.replicate (log.pending.length + chunk.length - log.pending.length)
      (0 : Byte)).length = chunk.length := by simp
  have hptr : ptr ∈ d.pointers := mem_pointers.2 (Or.inr hb)
  have hlive := h.live hptr
  have hkb : kb ∈ [kb] := List.mem_singleton_self kb
  have hkbptr : kb ≠ ptr := (h.ne_of_mem hptr hkb).symm
  have hnew : d.mem.next ≠ ptr := fun he ↦ Nat.lt_irrefl _ (he ▸ hlive.1)
  have hnext : d.mem.next ∉ d.mem.freed := h.owns.sound.next_notMem
  -- the blocks after `krealloc`
  have hgnew : ((d.mem.alloc (log.pending ++ List.replicate
      (log.pending.length + chunk.length - log.pending.length) 0)).free ptr).get? d.mem.next
      = some (log.pending ++ List.replicate
        (log.pending.length + chunk.length - log.pending.length) 0) := by
    rw [Heap.get?_free_of_ne hnew, Heap.get?_alloc_next hnext]
  have hgkb : ((d.mem.alloc (log.pending ++ List.replicate
      (log.pending.length + chunk.length - log.pending.length) 0)).free ptr).get? kb
      = some chunk := by
    rw [Heap.get?_free_of_ne hkbptr, Heap.get?_alloc_of_live (h.live_extra hkb), hg]
  refine ⟨_, _, _, krealloc_some hget hlen (Nat.le_add_right _ _), peek_all hgkb,
    poke_end hgnew hpad, ?_⟩
  -- the same blocks, with the new one filled before the old one is freed
  have h1 := (h.alloc (log.pending ++ List.replicate
      (log.pending.length + chunk.length - log.pending.length) 0)).set
      (List.mem_cons_self ..) (log.pending ++ chunk)
  have hget1 := Heap.get?_set_self (a := log.pending ++ chunk)
    (((h.alloc (log.pending ++ List.replicate
      (log.pending.length + chunk.length - log.pending.length) 0))).live_extra
      (List.mem_cons_self ..))
  have h2 := h1.replace hb hget1 (by simp [hne]) (by rwa [List.length_append])
  rw [List.length_append] at h2
  exact h2

theorem Represents.add_pending (h : d.Represents log) {n : ℕ} (hn : n ≤ Platform.kmallocMax) :
    SizeT.add log.pending.length n = log.pending.length + n := by
  have hfit := SizeT.fits
  have hsmall := h.smallPending
  exact SizeT.add_of_lt (by omega)

/-- **An accepted call returns its count and writes its chunk to the log.** -/
theorem aesdWrite_accepted (h : d.Represents log) (ha : call.Accepted log) :
    ∃ d', d.aesdWrite call = .ok ((call.userBuf.length : ℤ), d') ∧
      d'.Represents (log.write call.userBuf) := by
  obtain ⟨hne, hk, hlen, hcopy, hlock, hre⟩ := ha
  have hfill := h.toStores.filled call.userBuf
  have hget := h.toStores.filled_get? call.userBuf
  have hcount : call.userBuf.length ≠ 0 := by simpa using hne
  simp only [aesdWrite, if_neg hcount, hk, kmalloc_some hlen, hcopy, Bool.not_true,
    Bool.false_eq_true, if_false, h.toStores.poke_filled, ok_bind, hlock]
  cases hb : d.dev.tempEntry.buffptr with
  | none =>
    have hp := (h.toStores.temp_none hb).1
    have hmove := hfill.move hb hget hne hlen
    have hcommit := Stores.commit log none (by rw [hp]; exact hmove) hne hlen
    exact hcommit
  | some ptr =>
    obtain ⟨hpne, -, hsz⟩ := h.toStores.temp_some hb
    obtain ⟨hrek, hrelen⟩ := hre hpne
    obtain ⟨new, mem, mem', h1, h2, h3, h4⟩ := hfill.append hget hb hrelen
    rw [hrek, hsz, h.add_pending hlen]
    simp only [h1, ok_bind, h2, h3]
    exact Stores.commit log (some d.mem.next) h4 hne hlen

omit [Platform] in
/-- The buffer that a refused call allocates and frees is not one of the driver's blocks. -/
theorem get?_dropped (bytes : List Byte) {p : ℕ} (hp : d.mem.Live p) :
    ((d.filled bytes).dropBuf (some d.mem.next)).mem.get? p = d.mem.get? p ∧
      (Aesd.kfree (d.mem.alloc (List.replicate bytes.length 0)) d.mem.next).get? p
        = d.mem.get? p := by
  have hne : p ≠ d.mem.next := fun he ↦ Nat.lt_irrefl _ (he ▸ hp.1)
  have halloc := Heap.get?_alloc_of_live (a := List.replicate bytes.length 0) hp
  refine ⟨?_, (Heap.get?_free_of_ne hne).trans halloc⟩
  exact (Heap.get?_free_of_ne hne).trans ((Heap.get?_set_of_ne hne).trans halloc)

/-- **Any other call returns `0` or an error and leaves the log and the device alone.** -/
theorem aesdWrite_refused (h : d.Represents log) (ha : ¬ call.Accepted log) :
    ∃ r mem, d.aesdWrite call = .ok (r, { d with mem := mem }) ∧ r ≤ 0 ∧
      Represents { d with mem := mem } log ∧ ∀ p, d.mem.Live p → mem.get? p = d.mem.get? p := by
  by_cases hne : call.userBuf = []
  · exact ⟨0, d.mem, by simp [aesdWrite, hne], le_refl _, h, fun _ _ ↦ rfl⟩
  have hcount : call.userBuf.length ≠ 0 := by simpa using hne
  by_cases hkm : call.kmallocOk = true ∧ call.userBuf.length ≤ Platform.kmallocMax
  swap
  · refine ⟨-ENOMEM, d.mem, ?_, by decide, h, fun _ _ ↦ rfl⟩
    simp only [aesdWrite, if_neg hcount, kmalloc, if_neg hkm]
  obtain ⟨hk, hlen⟩ := hkm
  have hfill := h.toStores.filled call.userBuf
  have hfreed : Represents ((d.filled call.userBuf).dropBuf (some d.mem.next)) log :=
    ⟨hfill.kfree, h.unterminated⟩
  cases hcopy : call.copyOk with
  | false =>
    refine ⟨-EFAULT, kfree (d.mem.alloc (List.replicate call.userBuf.length 0)) d.mem.next, ?_,
      by decide, ⟨(h.toStores.alloc _).kfree, h.unterminated⟩,
      fun p hp ↦ (get?_dropped _ hp).2⟩
    simp only [aesdWrite, if_neg hcount, hk, kmalloc_some hlen, hcopy, Bool.not_false, if_true]
  | true =>
    cases hlock : call.lockOk with
    | false =>
      refine ⟨-EINTR, _, ?_, by decide, hfreed, fun p hp ↦ (get?_dropped _ hp).1⟩
      simp only [aesdWrite, if_neg hcount, hk, kmalloc_some hlen, hcopy, Bool.not_true,
        Bool.false_eq_true, if_false, h.toStores.poke_filled, ok_bind, hlock, Bool.not_false,
        if_true]
    | true =>
      have hre : log.pending ≠ [] ∧ ¬ (call.kreallocOk = true ∧
          log.pending.length + call.userBuf.length ≤ Platform.kmallocMax) := by
        by_contra hcon
        exact ha ⟨hne, hk, hlen, hcopy, hlock, by tauto⟩
      obtain ⟨ptr, hptr, hg, hsz⟩ := hfill.holds_temp hre.1
      refine ⟨-ENOMEM, _, ?_, by decide, hfreed, fun p hp ↦ (get?_dropped _ hp).1⟩
      simp only [aesdWrite, if_neg hcount, hk, kmalloc_some hlen, hcopy, Bool.not_true,
        Bool.false_eq_true, if_false, h.toStores.poke_filled, ok_bind, hlock]
      have hptr' : d.dev.tempEntry.buffptr = some ptr := hptr
      have hsz' : d.dev.tempEntry.size = log.pending.length := hsz
      simp only [hptr', hsz', h.add_pending hlen, krealloc, hg, if_neg hre.2, ok_bind]

end Driver

end Aesd
