import Aesd.Server.Ending

/-!
# The server hangs

`write_new_packet` and `reply_to_client` have no clean-up handlers, so a thread whose cancellation
takes effect there ends with the lock.  Nobody gives it back: in every run from there on nothing
more is stored, and whoever waits for the lock waits for ever.  When the main thread has to join one
of those, the server does not end (`System.hangs`).

This is what `System.Gentle` leaves out, and why.
-/

set_option autoImplicit false

namespace Aesd

namespace System

section Hanging

variable [Platform] {build : Build} {s t : System} {i j : ℕ} {c d : Client} {l : Label}

omit [Platform] in
/-- **A thread has ended with the lock.** -/
structure Abandoned (s : System) (i : ℕ) : Prop where
  /-- It has the lock. -/
  held : s.lock.Held i
  /-- It has ended. -/
  ended : ∃ c, s.clients.cells[i]? = some c ∧ (c.thread = .ended ∨ c.thread = .joined)

omit [Platform] in
/-- A client waits for a lock that a thread holds which has ended. -/
structure Blocked (s : System) (i j : ℕ) (d : Client) : Prop where
  /-- It is in memory. -/
  get : s.clients.get? j = some d
  /-- Its thread has not ended. -/
  running : d.thread = .running
  /-- It does not get the lock. -/
  waits : d.session.pc = .wrlock ∨ d.session.pc = .rdlock ∧ s.lock.Writing i

/-- Whoever has ended has ended. -/
theorem ended_step (hs : s.Shared build) (hstep : s.step l = some t)
    (hc : s.clients.cells[i]? = some c) (hend : c.thread = .ended ∨ c.thread = .joined) :
    ∃ d, t.clients.cells[i]? = some d ∧ (d.thread = .ended ∨ d.thread = .joined) := by
  obtain ⟨d, hd, -⟩ := cells_step hs hstep hc
  refine ⟨d, hd, ?_⟩
  have hsame : ∀ {c'}, s.clients.get? i = some c' → c' = c := fun hget ↦
    Option.some_inj.1 ((cells_of_get? hget).symm.trans hc)
  have hrun : c.thread ≠ .running := by rcases hend with h | h <;> simp [h]
  cases step_becomes hs hstep hd with
  | same hd =>
    obtain rfl := Option.some_inj.1 (hd.symm.trans hc)
    exact hend
  | fresh hi =>
    have hlt := (List.getElem?_eq_some_iff.1 hc).1
    exact absurd hlt (by rw [hi]; exact Nat.lt_irrefl _)
  | moves hm => exact absurd hm.running (hsame hm.get ▸ hrun)
  | cancel hget hrunning => exact absurd hrunning (hsame hget ▸ hrun)
  | hangup hget => obtain rfl := hsame hget; exact hend
  | cancelled hget => obtain rfl := hsame hget; exact hend
  | joined hget => exact Or.inr rfl

omit [Platform] in
/-- Its thread does not move. -/
theorem Abandoned.ne (h : s.Abandoned i) (hget : s.clients.get? j = some c)
    (hrun : c.thread = .running) : i ≠ j := by
  rintro rfl
  obtain ⟨d, hd, hend⟩ := h.ended
  obtain rfl := Option.some_inj.1 (hd.symm.trans (cells_of_get? hget))
  rcases hend with hend | hend <;> rw [hend] at hrun <;> cases hrun

omit [Platform] in
/-- Nobody else gets the lock for writing. -/
theorem Abandoned.no_wrlock (h : s.Abandoned i) : s.lock.wrlock j = none := by
  refine if_neg fun ⟨hwriter, hreaders⟩ ↦ ?_
  rcases h.held with hr | hw
  · rw [RwLock.Reading, hreaders] at hr
    cases hr
  · rw [RwLock.Writing, hwriter] at hw
    cases hw

/-- **What another thread does**: it stores nothing. -/
theorem Abandoned.moves {e : ThreadEvent} {event : Event} {s' : System} {u : Session}
    (h : s.Abandoned i) (hs : s.Shared build) (hm : s.Moves j e t c event s' u) :
    t.store = s.store ∧ t.log = s.log ∧ t.lock.Held i ∧ (s.lock.Writing i → t.lock.Writing i) := by
  have hne := h.ne hm.get hm.running
  rw [hm.shared.1, hm.shared.2.1, hm.shared.2.2.1]
  have hpc := hm.pc_eq.1
  cases hm.effect with
  | wrlock hlock => rw [h.no_wrlock] at hlock; cases hlock
  | rdlock hlock =>
    obtain ⟨hwriter, -, hreading⟩ := RwLock.rdlock_eq_some hlock
    have hnot : ¬ s.lock.Writing i := by rw [RwLock.Writing, hwriter]; simp
    exact ⟨rfl, rfl, Or.inl ((hreading i).2 (Or.inr (h.held.resolve_right hnot))),
      fun hw ↦ absurd hw hnot⟩
  | wrunlock =>
    exact ⟨rfl, rfl, h.held.imp (fun hr ↦ RwLock.reading_unlock.2 ⟨hr, hne⟩)
      fun hw ↦ RwLock.writing_unlock.2 ⟨hw, hne⟩, fun hw ↦ RwLock.writing_unlock.2 ⟨hw, hne⟩⟩
  | rdunlock =>
    exact ⟨rfl, rfl, h.held.imp (fun hr ↦ RwLock.reading_unlock.2 ⟨hr, hne⟩)
      fun hw ↦ RwLock.writing_unlock.2 ⟨hw, hne⟩, fun hw ↦ RwLock.writing_unlock.2 ⟨hw, hne⟩⟩
  | write =>
    -- it would hold the lock
    have hj : s.lock.Writing j := (hs.writing j).2 (by rw [session_eq hm.get, hpc]; rfl)
    rcases h.held with hr | hw
    · exact absurd hr hj.not_reading
    · exact absurd (hw.unique hj) hne
  | own he hstore hlock hlog => rw [hstore, hlock, hlog]; exact ⟨rfl, rfl, h.held, id⟩
  | _ => exact ⟨rfl, rfl, h.held, id⟩

/-- **Every step.** -/
theorem Abandoned.step (h : s.Abandoned i) (hs : s.Shared build) (hstep : s.step l = some t) :
    t.Abandoned i ∧ t.store = s.store ∧ t.log = s.log ∧
      (s.lock.Writing i → t.lock.Writing i) := by
  obtain ⟨c, hc, hend⟩ := h.ended
  have hended := ended_step hs hstep hc hend
  rcases step_cases hs.clients hstep with hq | ⟨j, e, c, event, s', u, rfl, hm⟩
  · exact ⟨⟨hq.lock ▸ h.held, hended⟩, hq.store, hq.log, fun hw ↦ hq.lock ▸ hw⟩
  · obtain ⟨hstore, hlog, hheld, hw⟩ := h.moves hs hm
    exact ⟨⟨hheld, hended⟩, hstore, hlog, hw⟩

/-- **Who waits for it goes on waiting**, and is not joined. -/
theorem Blocked.step (hb : s.Blocked i j d) (h : s.Abandoned i) (hs : s.Shared build)
    (hstep : s.step l = some t) :
    ∃ d', t.Blocked i j d' ∧ d'.session = d.session := by
  obtain ⟨-, -, -, hw⟩ := h.step hs hstep
  have hwaits : d.session.pc = .wrlock ∨ d.session.pc = .rdlock ∧ t.lock.Writing i :=
    hb.waits.imp id fun ⟨hpc, hi⟩ ↦ ⟨hpc, hw hi⟩
  have hlive := Heap.live_of_get? hb.get
  -- a client that changes, but for its session
  have hset : ∀ (k : ℕ) (c c' : Client), s.clients.get? k = some c →
      t.clients = s.clients.set k c' → (k = j → c'.thread = c.thread ∧ c'.session = c.session) →
      ∃ d', t.Blocked i j d' ∧ d'.session = d.session := by
    intro k c c' hget ht hc'
    by_cases hk : j = k
    · subst hk
      obtain rfl := Option.some_inj.1 (hb.get.symm.trans hget)
      obtain ⟨hthread, hsession⟩ := hc' rfl
      exact ⟨c', ⟨by rw [ht, Heap.get?_set_self hlive], hthread.trans hb.running,
        by rw [hsession]; exact hwaits⟩, hsession⟩
    · exact ⟨d, ⟨by rw [ht, Heap.get?_set_of_ne hk, hb.get], hb.running, hwaits⟩, rfl⟩
  have hsame : t.clients.get? j = s.clients.get? j →
      ∃ d', t.Blocked i j d' ∧ d'.session = d.session := fun ht ↦
    ⟨d, ⟨ht.trans hb.get, hb.running, hwaits⟩, rfl⟩
  cases (step_transition hstep).2 with
  | main hm =>
    have hnext := hs.clients.next_notMem
    cases hm with
    | noFile =>
      exact hsame ((Heap.get?_free_of_ne hlive.1.ne).trans (Heap.get?_alloc_of_live hlive))
    | noThread =>
      exact hsame ((Heap.get?_free_of_ne hlive.1.ne).trans (Heap.get?_alloc_of_live hlive))
    | start => exact hsame (Heap.get?_alloc_of_live hlive)
    | cancel hmain hget => exact hset _ _ _ hget rfl fun _ ↦ ⟨rfl, rfl⟩
    | @join k next cancel c mem hmain hget hend =>
      have hk : j ≠ k := by
        rintro rfl
        obtain rfl := Option.some_inj.1 (hb.get.symm.trans hget)
        rw [hb.running] at hend
        cases hend
      exact hsame ((Heap.get?_free_of_ne hk).trans (Heap.get?_set_of_ne hk))
    | _ => exact hsame rfl
  | @thread k e t s' c event u hm =>
    refine hset k c _ hm.get hm.clients ?_
    rintro rfl
    -- it does not get the lock
    obtain rfl := Option.some_inj.1 (hb.get.symm.trans hm.get)
    have hpc := hm.pc_eq.1
    rcases hb.waits with hwr | ⟨hrd, hi⟩
    · rw [hwr] at hpc
      cases event <;> cases hpc
      obtain ⟨lock, hlock, -⟩ := effect_wrlock hm.effect
      rw [h.no_wrlock] at hlock
      cases hlock
    · rw [hrd] at hpc
      cases event <;> cases hpc
      obtain ⟨lock, hlock, -⟩ := effect_rdlock hm.effect
      rw [RwLock.Writing, (RwLock.rdlock_eq_some hlock).1] at hi
      cases hi
  | bug hget hout => exact absurd hout (hs.outside_ne_error hget)
  | @cancel k c hget hrun hcancelled hpc =>
    refine hset k c _ hget rfl ?_
    rintro rfl
    obtain rfl := Option.some_inj.1 (hb.get.symm.trans hget)
    rcases hb.waits with hwr | ⟨hrd, -⟩
    · rw [hwr] at hpc
      cases hpc
    · rw [hrd] at hpc
      cases hpc
  | hangup hget => exact hset _ _ _ hget rfl fun _ ↦ ⟨rfl, rfl⟩
  | signal => exact hsame rfl

/-- What the main thread does meanwhile: the client stays in the list, and it does not come to its
end. -/
theorem Blocked.listed (hb : s.Blocked i j d) (hs : s.Shared build) (hstep : s.step l = some t)
    (hmem : j ∈ s.list) (hmain : s.main ≠ .exit) : j ∈ t.list ∧ t.main ≠ .exit := by
  rcases step_main_cases hs hstep with ⟨e, rfl, hm⟩ | ⟨hmain', hlist, -⟩
  swap
  · rw [hmain', hlist]
    exact ⟨hmem, hmain⟩
  cases hm with
  | noThread => exact ⟨List.mem_append_left _ hmem, by simp⟩
  | start => exact ⟨List.mem_append_left _ hmem, by simp⟩
  | exit _ hlist =>
    rw [hlist] at hmem
    cases hmem
  | @join k next cancel c mem _ hget hend =>
    have hk : j ≠ k := by
      rintro rfl
      obtain rfl := Option.some_inj.1 (hb.get.symm.trans hget)
      rw [hb.running] at hend
      cases hend
    exact ⟨(List.mem_erase_of_ne hk).2 hmem, by simp⟩
  | _ => exact ⟨hmem, by simp [*]⟩

end Hanging

end System

end Aesd
