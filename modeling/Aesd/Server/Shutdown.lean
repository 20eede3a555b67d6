import Aesd.Server.Resources

/-!
# What a client thread leaves behind

A client thread ends by returning, or by a cancellation that takes effect in one of its calls.  Once
it was joined, its descriptor and its file are closed and its fragments freed, whichever way it
ended (`System.released_iff`).  The lock and the flat buffer are another matter: `write_new_packet`
and `reply_to_client` have no clean-up handlers, so a thread that is cancelled in there keeps both,
and `join_completed_clients` then waits for the threads that wait for the lock.
-/

set_option autoImplicit false

namespace Aesd

/-- Nothing is left of a client: it does not hold the lock, and what it had was released, once. -/
structure Client.Released (s : System) (i : ℕ) (c : Client) : Prop where
  /-- The lock. -/
  lock : ¬ s.lock.Held i
  /-- `peer_fd`. -/
  fd : s.fds.freed.count c.fd = 1
  /-- `file`. -/
  file : ∃ file, c.file = some file ∧ s.files.freed.count file = 1
  /-- The fragments. -/
  fragments : ∀ p < c.session.mem.next, c.session.mem.freed.count p = 1
  /-- The flat buffers. -/
  flats : ∀ p < c.session.flats.next, c.session.flats.freed.count p = 1

/-- Outside `write_new_packet` there is no flat buffer. -/
theorem Session.FlatInv.idle {t : Session} (h : t.FlatInv) (hpc : t.pc.idle = true)
    (hfault : ∀ bug, t.pc ≠ .fault bug) : t.flats.Owns [] := by
  rw [FlatInv] at h
  cases ht : t.pc with
  | fault bug => exact absurd ht (hfault bug)
  | _ => rw [ht] at h hpc; first | exact h.2.2 | cases hpc

namespace System

/-- A cancellation takes effect outside `write_new_packet` only. -/
def CancelOutside (s : System) : Label → Prop
  | .cancel i => (s.session i).pc.idle = true
  | _ => True

instance (s : System) : DecidablePred s.CancelOutside := fun l ↦ by
  cases l <;> unfold CancelOutside <;> infer_instance

/-- The threads that have ended did so outside `write_new_packet`. -/
def EndedOutside (s : System) : Prop := ∀ (i : ℕ) (c : Client), s.clients.cells[i]? = some c →
  c.thread = .ended ∨ c.thread = .joined → c.session.pc.idle = true

section Shutdown

variable [Platform] {build : Build} {s t : System} {i : ℕ} {c : Client} {l : Label}

omit [Platform] in
theorem session_of_cells (h : s.clients.cells[i]? = some c) : s.session i = c.session := by
  rw [session, sessionOf, h]

omit [Platform] in
/-- A thread that has ended is where it can be cancelled, or at its end. -/
theorem idle_of_done {pc : Pc} (h : pc = .done) : pc.idle = true := by rw [h]; rfl

theorem EndedOutside.step (h : s.EndedOutside) (hs : s.Shared build) (hl : s.CancelOutside l)
    (hstep : s.step l = some t) : t.EndedOutside := by
  intro i d hd hend
  cases step_becomes hs hstep hd with
  | same hd => exact h i d hd hend
  | fresh => rfl
  | @moves e t s' c event u hm =>
    by_cases hu : u.pc = .done
    · rw [after_session]
      exact idle_of_done hu
    · rw [Client.after, if_neg hu, hm.running] at hend
      rcases hend with hend | hend <;> cases hend
  | cancel hget hrun hcancel => exact session_eq hget ▸ hl
  | hangup hget =>
    have hidle := h i _ (cells_of_get? hget) hend
    exact hidle
  | cancelled hget =>
    have hidle := h i _ (cells_of_get? hget) hend
    exact hidle
  | joined hget hended mem =>
    have hidle := h i _ (cells_of_get? hget) (Or.inl hended)
    exact hidle

/-- Who holds the lock is in `write_new_packet`. -/
theorem Shared.held_iff (h : s.Shared build) :
    s.lock.Held i ↔ (s.session i).pc.writing = true ∨ (s.session i).pc.reading = true := by
  rw [RwLock.Held, h.reading, h.writing, or_comm]

/-- A thread that has ended holds the lock if and only if it ended in `write_new_packet`. -/
theorem Shared.held_iff_not_idle (h : s.Shared build)
    (hpc : (s.session i).pc = .done ∨ (s.session i).pc.cancellation = true) :
    s.lock.Held i ↔ (s.session i).pc.idle = false := by
  rw [h.held_iff]
  rcases hpc with hpc | hpc
  · rw [hpc]
    decide
  · generalize (s.session i).pc = pc at hpc
    cases pc <;> first | decide | cases hpc

/-- **What a joined thread leaves.**  Whatever happened before: nothing is left of it if and only if
it ended outside `write_new_packet`. -/
theorem released_iff (hs : s.Shared build) (ho : s.Owning) (hc : s.clients.cells[i]? = some c)
    (hjoined : c.thread = .joined) : c.Released s i ↔ c.session.pc.idle = true := by
  have hok := ho.ok c (List.mem_of_getElem? hc)
  have hended := hok.ended (Or.inr hjoined)
  rw [← session_of_cells hc] at hended ⊢
  have hheld := hs.held_iff_not_idle hended
  constructor
  · intro h
    by_contra hidle
    exact h.lock (hheld.2 (by simpa using hidle))
  · intro h
    have hfault : ∀ bug, (s.session i).pc ≠ .fault bug := by
      intro bug hbug
      rw [hbug] at hended
      rcases hended with hended | hended <;> cases hended
    obtain ⟨file, hfile⟩ := Option.ne_none_iff_exists'.1 (hok.file (by simp [hjoined]))
    refine ⟨fun hl ↦ ?_, ho.fd_closed hc ?_, ⟨file, hfile, ho.file_closed hc ?_ hfile⟩,
      fun p hp ↦ (hok.joined hjoined).count_freed hp, ?_⟩
    · rw [hheld, h] at hl
      cases hl
    · exact Client.openFd_of_not_started (by rw [hjoined]; rfl)
    · exact if_pos hjoined
    · rw [← session_of_cells hc]
      exact fun p hp ↦ ((hs.flat i).idle h hfault).count_freed hp

/-- Who holds the lock is at work. -/
theorem EndedOutside.holder (h : s.EndedOutside) (hs : s.Shared build) (ho : s.Owning)
    (hheld : s.lock.Held i) : ∃ c, s.clients.get? i = some c ∧ c.thread = .running := by
  have hidle : (s.session i).pc.idle ≠ true := by
    intro hidle
    rw [hs.held_iff, Pc.idle_writing hidle, Pc.idle_reading hidle] at hheld
    simp at hheld
  cases hc : s.clients.cells[i]? with
  | none =>
    rw [session, sessionOf, hc] at hidle
    exact absurd rfl hidle
  | some c =>
    have hok := ho.ok c (List.mem_of_getElem? hc)
    rw [session_of_cells hc] at hidle
    have hrun : c.thread = .running := by
      cases hthread : c.thread with
      | unstarted => rw [hok.unstarted hthread] at hidle; exact absurd rfl hidle
      | running => rfl
      | ended => exact absurd (h i c hc (Or.inl hthread)) hidle
      | joined => exact absurd (h i c hc (Or.inr hthread)) hidle
    obtain ⟨d, hd⟩ := Heap.live_iff.1 ((ho.live i).2 ⟨c, hc, by rw [hrun]; rfl⟩)
    obtain rfl := Option.some_inj.1 (hc.symm.trans (cells_of_get? hd))
    exact ⟨c, hd, hrun⟩

/-- **Nothing is left of a joined thread**, and nobody waits for a lock that a thread holds which
has ended, as long as no cancellation takes effect in `write_new_packet`. -/
theorem joined_released (h : Machine.Reachable step CancelOutside (init build) s) :
    (∀ (i : ℕ) (c : Client), s.clients.cells[i]? = some c → c.thread = .joined → c.Released s i) ∧
      ∀ i, s.lock.Held i → ∃ c, s.clients.get? i = some c ∧ c.thread = .running := by
  have hs := shared_reachable h
  have ho := owning_reachable h
  have hend : s.EndedOutside := (h.invariant (P := fun s ↦ s.Shared build ∧ s.EndedOutside)
    (fun _ _ _ h' hl hstep ↦ ⟨h'.1.step hstep, h'.2.step h'.1 hl hstep⟩)
    ⟨shared_init build, fun _ _ hc ↦ by cases hc⟩).2
  exact ⟨fun i c hc hjoined ↦ (released_iff hs ho hc hjoined).2 (hend i c hc (Or.inr hjoined)),
    fun i hheld ↦ hend.holder hs ho hheld⟩

end Shutdown

/-- Two clients, of which the first has left and the second waits for data, and the signal. -/
def leaving : List Label :=
  Label.connect 1 ++ Label.connect 2 ++
    Label.steps 0 [.start true, .recv .eof, .free, .close, .mark] ++ Label.steps 1 [.start true] ++
    [.signal, .main .test, .main .visit, .main .join, .main .visit, .cancel 1, .main .join,
      .main .visit]

attribute [local instance] linux64 in
theorem joined_released_two_clients :
    (after .device leaving).main = .exit ∧
      ∀ (i : ℕ) (c : Client), (after .device leaving).clients.cells[i]? = some c →
        c.thread = .joined → c.Released (after .device leaving) i := by
  have h : Machine.Reachable step CancelOutside (init .device) (after .device leaving) :=
    ⟨leaving, run_after (by decide +kernel)⟩
  have hmain : (after .device leaving).main = .exit := by decide +kernel
  exact ⟨hmain, (joined_released h).1⟩

/-- Two clients: one is cancelled while it sends a reply, and joined; the other one's packet is
complete. -/
def hanging : List Label :=
  Label.connect 1 ++ Label.connect 2 ++
    Label.steps 0 [.start true, .recv (.data [97, 10]), .scan true, .wrlock, .write 2 .plain,
      .wrunlock, .rdlock, .read 4096, .read 4096] ++
    Label.steps 1 [.start true, .recv (.data [98, 10]), .scan true] ++
    [.signal, .main .test, .main .visit, .cancel 0, .main .join, .main .visit]

attribute [local instance] linux64 in
/-- The lock is held by a thread that was joined, another one waits for it, and the main thread
waits for that one. -/
theorem shutdown_hangs :
    Machine.Run step Machine.Always (init .device) hanging (after .device hanging) ∧
    (after .device hanging).clients.cells[0]?.map Client.thread = some .joined ∧
    (after .device hanging).lock.Reading 0 ∧
    ((after .device hanging).session 1).pc = .wrlock ∧
    (after .device hanging).main = .join 1 none true ∧
    (after .device hanging).halted = none ∧
    (after .device hanging).step (.thread 1 .wrlock) = none ∧
    (after .device hanging).step (.cancel 1) = none ∧
    (after .device hanging).step (.main .join) = none :=
  ⟨run_after (by decide +kernel), by decide +kernel⟩

end System

end Aesd
