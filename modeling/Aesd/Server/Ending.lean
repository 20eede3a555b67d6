import Aesd.Server.Progress

/-!
# The server ends

After the signal the main thread goes along its list, cancels each client's thread and waits for it.
The thread may be anywhere: in `recv`, where it ends at once, or in the middle of a packet, behind
others that hold the lock.  As long as no cancellation takes effect in `write_new_packet`, what
holds it up comes to its end, so that from every state after the signal the main thread can go on to
its own end, with all clients joined and all they had released (`System.shutdown_ends`).

What could hold it up for good is a client that has closed its connection and is still to be
answered (`System.DealtWith`), since that `send` ends the process.
-/

set_option autoImplicit false

namespace Aesd

/-- When all was received the thread frees its fragments. -/
theorem Session.free_step {s : Session} (h : s.Inv) (hpc : s.pc = .free) (build : Build) :
    ∃ u, step build s .free = some u ∧ u.pc = .close ∧ u.stream = s.stream := by
  obtain ⟨l, hchain, howns⟩ := h.frame.chain (by simp [hpc])
  obtain ⟨mem, heq, -⟩ := packetFragmentsFree_eq hchain howns
  refine ⟨{ s with mem := mem, fragments := none, pc := .close },
    step_eq_some.2 ⟨hpc, trivial, ?_⟩, rfl, rfl⟩
  rw [handle, heq]
  rfl

namespace System

section Ending

variable [Platform]

/-- A step in which nothing is missing, nothing is sent to a client that has closed its connection,
and no cancellation takes effect in `write_new_packet`. -/
def Gentle (s : System) (l : Label) : Prop := s.Spared l ∧ s.CancelOutside l

instance (s : System) (l : Label) : Decidable (s.Gentle l) := inferInstanceAs (Decidable (_ ∧ _))

omit [Platform] in
/-- Who has closed its connection has been dealt with. -/
def DealtWith (s : System) : Prop := ∀ (i : ℕ) (c : Client), s.clients.get? i = some c →
  c.hungUp = true → c.session.pc.settled = true

instance (s : System) : Decidable s.DealtWith :=
  decidable_of_iff (∀ i < s.clients.next, ∀ c ∈ s.clients.get? i, c.hungUp = true →
    c.session.pc.settled = true)
    ⟨fun h i c hc ↦ h i (Heap.live_of_get? hc).1 c hc, fun h i _ c hc ↦ h i c hc⟩

variable {build : Build} {s t v : System} {i j : ℕ} {c : Client} {l : Label}
  {next client : Option ℕ} {cancel : Bool} {kept todo : List ℕ}

/-! ## Whom the main thread waits for -/

omit [Platform] in
/-- The main thread waits for a client's thread that it has cancelled, or that has finished. -/
def Awaiting (s : System) : MainPc → Prop
  | .join i _ cancel => ∃ c, s.clients.get? i = some c ∧
    if cancel then c.cancelled = true else c.peerFd = none
  | _ => True

omit [Platform] in
/-- A client changes, but for what the main thread waits for. -/
theorem Awaiting.set {pc : MainPc} (h : s.Awaiting pc) {c' : Client}
    (hget : s.clients.get? i = some c) (ht : t.clients = s.clients.set i c')
    (hcancelled : c.cancelled = true → c'.cancelled = true)
    (hpeer : c.peerFd = none → c'.peerFd = none) : t.Awaiting pc := by
  cases pc with
  | join j next cancel =>
    obtain ⟨d, hd, hawait⟩ := h
    rw [Awaiting, ht]
    by_cases hj : j = i
    · subst hj
      obtain rfl := Option.some_inj.1 (hget.symm.trans hd)
      refine ⟨c', Heap.get?_set_self (Heap.live_of_get? hget), ?_⟩
      cases cancel
      · exact hpeer hawait
      · exact hcancelled hawait
    · exact ⟨d, (Heap.get?_set_of_ne hj).trans hd, hawait⟩
  | _ => trivial

theorem Awaiting.step (h : s.Awaiting s.main) (hs : s.Shared build) (hstep : s.step l = some t) :
    t.Awaiting t.main := by
  cases (step_transition hstep).2 with
  | main hm =>
    cases hm with
    | finished hmain hget hpeer => exact ⟨_, hget, hpeer⟩
    | cancel hmain hget => exact ⟨_, Heap.get?_set_self (Heap.live_of_get? hget), rfl⟩
    | missing hmain => exact h
    | remaining hmain => exact h
    | unjoinable hmain => exact h
    | unfreeable hmain => exact h
    | _ => trivial
  | thread hm =>
    obtain ⟨-, -, hmain, -⟩ := hm.resources
    rw [hmain]
    refine h.set hm.get hm.clients (fun hc ↦ ?_) (fun hc ↦ ?_) <;> rw [Client.after] <;> split <;>
      first | exact hc | rfl
  | bug hget hout => exact absurd hout (hs.outside_ne_error hget)
  | cancel hget => exact h.set hget rfl id id
  | hangup hget => exact h.set hget rfl id id
  | signal => exact h

omit [Platform] in
theorem DealtWith.set (h : s.DealtWith) {c' : Client} (hget : s.clients.get? i = some c)
    (ht : t.clients = s.clients.set i c')
    (hc' : c'.hungUp = true → c'.session.pc.settled = true) : t.DealtWith := by
  intro j d hd hup
  rw [ht] at hd
  by_cases hj : j = i
  · subst hj
    rw [Heap.get?_set_self (Heap.live_of_get? hget)] at hd
    obtain rfl := Option.some_inj.1 hd
    exact hc' hup
  · rw [Heap.get?_set_of_ne hj] at hd
    exact h j d hd hup

/-! ## What steps of the client threads leave -/

/-- Steps of the client threads: the main thread and its list stay, and so does what is known of the
clients. -/
theorem Shared.working (h : s.Shared build) (hrun : Machine.Reachable System.step Working s t) :
    t.Shared build ∧ t.main = s.main ∧ t.list = s.list ∧ t.running = s.running ∧
      (s.Awaiting s.main → t.Awaiting t.main) ∧
      ∀ i d, t.clients.get? i = some d → ∃ c, s.clients.get? i = some c ∧ c.hungUp = d.hungUp := by
  refine hrun.invariant (P := fun t ↦ t.Shared build ∧ t.main = s.main ∧ t.list = s.list ∧
    t.running = s.running ∧ (s.Awaiting s.main → t.Awaiting t.main) ∧
    ∀ i d, t.clients.get? i = some d → ∃ c, s.clients.get? i = some c ∧ c.hungUp = d.hungUp) ?_
    ⟨h, rfl, rfl, rfl, id, fun i d hd ↦ ⟨d, hd, rfl⟩⟩
  rintro t l v ⟨ht, hmain, hlist, hrunning, hawait, hup⟩ ⟨-, i, e, rfl⟩ hstep
  obtain ⟨c, event, s', u, hm⟩ := ht.thread_moves hstep
  obtain ⟨-, hlist', hmain', -⟩ := hm.resources
  refine ⟨ht.step hstep, hmain'.trans hmain, hlist'.trans hlist, hm.running_eq.trans hrunning,
    fun hs ↦ (hawait hs).step ht hstep, fun j d hd ↦ ?_⟩
  by_cases hj : j = i
  · subst hj
    rw [hm.get_self] at hd
    obtain rfl := Option.some_inj.1 hd
    obtain ⟨b, hb, heq⟩ := hup j c hm.get
    refine ⟨b, hb, heq.trans ?_⟩
    rw [Client.after]
    split <;> rfl
  · rw [hm.get_ne hj] at hd
    exact hup j d hd

/-! ## After the signal -/

/-- **The server is about to end, and nothing is in its way.** -/
structure Closing (build : Build) (s : System) : Prop where
  /-- It runs. -/
  alive : s.Alive build
  /-- It was told to stop. -/
  running : s.running = false
  /-- No thread has ended with the lock. -/
  ended : s.EndedOutside
  /-- Who is joined will end. -/
  awaiting : s.Awaiting s.main
  /-- No reply is held up. -/
  dealt : s.DealtWith
  /-- No append is held up. -/
  storable : s.Storable

/-- A run during which the main thread waits. -/
structure Waits (build : Build) (s t : System) : Prop where
  /-- The run. -/
  reach : Machine.Reachable step Gentle s t
  /-- Nothing comes in the way. -/
  closing : t.Closing build
  /-- The main thread stays. -/
  main : t.main = s.main
  /-- So does its list. -/
  list : t.list = s.list

theorem Closing.refl (h : s.Closing build) : s.Waits build s := ⟨.refl s, h, rfl, rfl⟩

theorem Waits.trans (h : s.Waits build t) (h' : t.Waits build v) : s.Waits build v :=
  ⟨h.reach.trans h'.reach, h'.closing, h'.main.trans h.main, h'.list.trans h.list⟩

theorem Closing.ready (h : s.Closing build) : s.Ready build where
  alive := h.alive
  ended := h.ended
  owed i c hc hup howing := by
    have hsettled := h.dealt i c hc hup
    have hreading := howing.1
    cases hpc : c.session.pc <;> rw [hpc] at hsettled hreading <;>
      first | cases hsettled; done | cases hreading
  storable := h.storable

/-- A step in which nothing is received. -/
theorem Closing.step (h : s.Closing build) (hl : s.Gentle l) (hstep : s.step l = some t)
    (hdealt : t.DealtWith) (hstream : ∀ j, (t.session j).stream = (s.session j).stream) :
    t.Closing build where
  alive := h.alive.step hl.1 hstep
  running := by
    by_contra hrun
    have hrunning := (h.alive.going_on hl.1 hstep).2 (by simpa using hrun)
    rw [h.running] at hrunning
    cases hrunning
  ended := h.ended.step h.alive.shared hl.2 hstep
  awaiting := h.awaiting.step h.alive.shared hstep
  dealt := hdealt
  storable hbuild j := by
    rw [(h.alive.step hl.1 hstep).shared.build] at hbuild
    rw [hstream]
    exact h.storable (h.alive.shared.build.trans hbuild) j

/-- The client's thread goes on. -/
theorem Closing.serves (h : s.Closing build) (hs : s.Serves build i t)
    (hget : s.clients.get? i = some c) (hup : c.hungUp = false) : s.Waits build t := by
  obtain ⟨-, hmain, hlist, hrunning, hawait, hflags⟩ := h.alive.shared.working hs.reach
  refine ⟨hs.reach.mono fun w l hl ↦ ⟨hl.1, ?_⟩, ⟨hs.ready.alive, hrunning.trans h.running,
    hs.ready.ended, hawait h.awaiting, fun j d hd hupd ↦ ?_, hs.ready.storable⟩, hmain, hlist⟩
  · obtain ⟨-, i, e, rfl⟩ := hl
    trivial
  · obtain ⟨b, hb, heq⟩ := hflags j d hd
    by_cases hj : j = i
    · subst hj
      obtain rfl := Option.some_inj.1 (hget.symm.trans hb)
      rw [heq, hupd] at hup
      cases hup
    · have hsettled := h.dealt j b hb (heq.trans hupd)
      have hstays := hs.settled j hj b hb hsettled
      obtain rfl := Option.some_inj.1 (hstays.symm.trans hd)
      exact hsettled

/-! ## A client's thread ends -/

/-- The cancellation takes effect. -/
theorem Closing.cancelled (h : s.Closing build) (hget : s.clients.get? i = some c)
    (hrun : c.thread = .running) (hcancelled : c.cancelled = true)
    (hpc : c.session.pc = .recv ∨ c.session.pc = .close) :
    ∃ t, s.Waits build t ∧ ∃ d, t.clients.get? i = some d ∧ d.thread = .ended := by
  have hidle : c.session.pc.idle = true ∧ c.session.pc.cancellation = true ∧
      c.session.pc.settled = true := by
    rcases hpc with hpc | hpc <;> rw [hpc] <;> decide
  have hlive := Heap.live_of_get? hget
  have hstep : s.step (.cancel i)
      = some { s with clients := s.clients.set i { c with thread := .ended } } := by
    rw [System.step, if_pos h.alive.halted]
    simp only [cancelStep, hget]
    exact if_pos ⟨hrun, hcancelled, hidle.2.1⟩
  have hl : s.Gentle (.cancel i) :=
    ⟨⟨⟨trivial, by simp [CreateOk], rfl⟩, trivial⟩, by rw [CancelOutside, session_eq hget, hidle.1]⟩
  refine ⟨_, ⟨.single hl hstep, h.step hl hstep (h.dealt.set hget rfl fun _ ↦ hidle.2.2)
    fun j ↦ ?_, rfl, rfl⟩, _, Heap.get?_set_self hlive, rfl⟩
  rw [session]
  by_cases hj : j = i
  · subst hj
    rw [sessionOf_set_self hlive, session_eq hget]
  · rw [sessionOf_set_ne hj, session]

/-- A step of a thread that has nothing to do. -/
theorem Closing.own_step (h : s.Closing build) (hget : s.clients.get? i = some c)
    (hrun : c.thread = .running) {e : ThreadEvent} {event : Event} {u : Session}
    (hout : s.outside i c e = some (.ok (event, s)))
    (hstep : Session.step build c.session event = some u) (hl : s.Spared (.thread i e))
    (hpc : u.pc.settled = true) (hstream : u.stream = c.session.stream) :
    ∃ t, s.Waits build t ∧ t.clients.get? i = some (c.after u) := by
  obtain ⟨t, ht, hm⟩ := h.alive.enabled hget hrun hout hstep
  have hl' : s.Gentle (.thread i e) := ⟨hl, trivial⟩
  obtain ⟨-, hlist, hmain, -⟩ := hm.resources
  refine ⟨t, ⟨.single hl' ht, h.step hl' ht (h.dealt.set hget hm.clients fun _ ↦ ?_) fun j ↦ ?_,
    hmain, hlist⟩, hm.get_self⟩
  · rw [after_session, hpc]
  · by_cases hj : j = i
    · rw [hj, hm.session_self, session_eq hget, hstream]
    · rw [hm.session_ne hj]

/-- **A thread that has nothing to do ends**, when it was cancelled. -/
theorem Closing.leave (h : s.Closing build) (hget : s.clients.get? i = some c)
    (hrun : c.thread = .running) (hcancelled : c.cancelled = true)
    (hsettled : c.session.pc.settled = true) :
    ∃ t, s.Waits build t ∧ ∃ d, t.clients.get? i = some d ∧ d.thread = .ended := by
  -- one step, to where the cancellation takes effect
  have hthen : ∀ t u, s.Waits build t → t.clients.get? i = some (c.after u) →
      (u.pc = .recv ∨ u.pc = .close) →
      ∃ t, s.Waits build t ∧ ∃ d, t.clients.get? i = some d ∧ d.thread = .ended := by
    intro t u hw hget' hpc
    have hafter : c.after u = { c with session := u } :=
      if_neg (by rcases hpc with hpc | hpc <;> simp [hpc])
    rw [hafter] at hget'
    obtain ⟨v, hw', hend⟩ := hw.closing.cancelled hget' hrun hcancelled hpc
    exact ⟨v, hw.trans hw', hend⟩
  cases hpc : c.session.pc with
  | start =>
    obtain ⟨t, hw, hget'⟩ := h.own_step hget hrun (e := .start true) rfl
      (Session.step_eq_some.2 ⟨hpc, trivial, rfl⟩) (spared_thread rfl rfl trivial) rfl rfl
    exact hthen t _ hw hget' (Or.inl rfl)
  | recv => exact h.cancelled hget hrun hcancelled (Or.inl hpc)
  | free =>
    obtain ⟨u, hstep, hclose, hstream⟩ :=
      Session.free_step (h.alive.shared.inv hget) hpc build
    obtain ⟨t, hw, hget'⟩ := h.own_step hget hrun (e := .free) rfl hstep
      (spared_thread trivial rfl trivial) (by rw [hclose]; rfl) hstream
    exact hthen t u hw hget' (Or.inr hclose)
  | close => exact h.cancelled hget hrun hcancelled (Or.inr hpc)
  | mark =>
    obtain ⟨t, hw, hget'⟩ := h.own_step hget hrun (e := .mark) rfl
      (Session.step_eq_some.2 ⟨hpc, trivial, rfl⟩) (spared_thread trivial rfl trivial) rfl rfl
    exact ⟨t, hw, _, hget', rfl⟩
  | done => exact absurd hpc ((h.alive.owning.ok_of_get? hget).running hrun)
  | _ => rw [hpc] at hsettled; cases hsettled

/-- **Whom the main thread waits for ends.** -/
theorem Closing.ends (h : s.Closing build) (hmain : s.main = .join i next cancel) :
    ∃ t, s.Waits build t ∧ ∃ d, t.clients.get? i = some d ∧ d.thread = .ended := by
  have hawait := h.awaiting
  rw [hmain] at hawait
  obtain ⟨c, hget, hc⟩ := hawait
  have hok := h.alive.owning.ok_of_get? hget
  have hstarted := h.alive.owning.started hget
  cases hthread : c.thread with
  | unstarted => rw [hthread] at hstarted; cases hstarted
  | joined => rw [hthread] at hstarted; cases hstarted
  | ended => exact ⟨s, h.refl, c, hget, hthread⟩
  | running =>
    cases cancel with
    | false =>
      -- it has no descriptor any more, so it has returned
      have hpeer := hok.peer hstarted
      rw [if_neg (hok.running hthread), show c.peerFd = none from hc] at hpeer
      cases hpeer
    | true =>
      cases hup : c.hungUp with
      | true => exact h.leave hget hthread hc (h.dealt i c hget hup)
      | false =>
        obtain ⟨t, hs, hsettled⟩ := h.ready.settles hget hthread hup
        have hw := h.serves hs hget hup
        obtain ⟨v, hw', hend⟩ := hw.closing.leave (hs.client c hget) hthread hc hsettled
        exact ⟨v, hw.trans hw', hend⟩

/-! ## The main thread goes on -/

/-- A step of the main thread in which nobody is accepted. -/
theorem Closing.main_step (h : s.Closing build) {e : MainEvent} (he : ∀ m f c, e ≠ .accept m f c)
    (hstep : s.mainStep e = some t) (hdealt : t.DealtWith) {P : System → Prop}
    (hthen : t.Closing build → Machine.CanReach System.step Gentle t P) :
    Machine.CanReach System.step Gentle s P := by
  have hl : s.Gentle (.main e) := ⟨⟨⟨trivial, by simp [CreateOk, he], rfl⟩, trivial⟩, trivial⟩
  have ht : s.step (.main e) = some t := by rw [System.step, if_pos h.alive.halted, hstep]
  refine (hthen (h.step hl ht hdealt fun j ↦ ?_)).after (.single hl ht)
  obtain ⟨hm⟩ := (step_transition ht).2
  obtain ⟨mem, heq⟩ := (quiet_mainMove h.alive.shared.clients hm).session j
  rw [heq]

/-- **A client is joined.** -/
theorem Closing.join (h : s.Closing build) (hmain : s.main = .join i next cancel) :
    Machine.CanReach System.step Gentle s fun t ↦
      t.Closing build ∧ t.main = .visit next cancel ∧ t.list = s.list.erase i := by
  obtain ⟨t, hw, c, hget, hend⟩ := h.ends hmain
  have ht := hw.closing
  obtain ⟨l, hchain, howns⟩ :=
    (ht.alive.shared.live i c hget).chain ((ht.alive.owning.ok_of_get? hget).no_fault hend)
  obtain ⟨mem, heq, -⟩ := packetFragmentsFree_eq hchain howns
  obtain ⟨v, hv, hmain', hlist, d', hclients⟩ : ∃ v, t.mainStep .join = some v ∧
      v.main = .visit next cancel ∧ v.list = t.list.erase i ∧
      ∃ d', v.clients = (t.clients.set i d').free i := by
    simp only [mainStep, hw.main.trans hmain, System.join, hget, if_pos hend, heq]
    exact ⟨_, rfl, rfl, rfl, _, rfl⟩
  refine (ht.main_step (e := .join) (by simp) hv (fun j d hd ↦ ?_) fun hclosing ↦
    .now ⟨hclosing, hmain', by rw [hlist, hw.list]⟩).after hw.reach
  rw [hclients] at hd
  by_cases hj : j = i
  · subst hj
    rw [Heap.get?_free_self] at hd
    cases hd
  · rw [Heap.get?_free_of_ne hj, Heap.get?_set_of_ne hj] at hd
    exact ht.dealt j d hd

/-- **A client of the list is visited**, and joined if it is to be. -/
theorem Closing.visit (h : s.Closing build) (hmain : s.main = .visit (some i) cancel)
    (hlist : s.list = kept ++ i :: todo) (hnot : i ∉ kept) :
    Machine.CanReach System.step Gentle s fun t ↦
      t.Closing build ∧ t.main = .visit todo.head? cancel ∧ ∃ kept, t.list = kept ++ todo := by
  have hnext : tailqNext s.list i = todo.head? := by rw [hlist, tailqNext_eq hnot]
  obtain ⟨c, hget⟩ := Heap.live_iff.1 (h.alive.listed.mem.1 (by rw [hlist]; simp : i ∈ s.list))
  -- a client that is to be joined
  have hjoin : ∀ t, t.Closing build → t.main = .join i todo.head? cancel → t.list = s.list →
      Machine.CanReach System.step Gentle t fun t ↦
        t.Closing build ∧ t.main = .visit todo.head? cancel ∧ ∃ kept, t.list = kept ++ todo := by
    intro t ht hmain' hlist'
    refine (ht.join hmain').bind fun v ⟨hv, hmain'', hlist''⟩ ↦ .now ⟨hv, hmain'', kept, ?_⟩
    rw [hlist'', hlist', hlist, erase_eq hnot]
  cases cancel with
  | true =>
    refine h.main_step (e := .visit) (by simp) (t := { s with
      clients := s.clients.set i { c with cancelled := true }
      main := .join i (tailqNext s.list i) true }) ?_ (h.dealt.set hget rfl (h.dealt i c hget))
      fun ht ↦ hjoin _ ht (by rw [← hnext]) rfl
    simp [mainStep, hmain, System.visit, hget]
  | false =>
    by_cases hpeer : c.peerFd = none
    · refine h.main_step (e := .visit) (by simp)
        (t := { s with main := .join i (tailqNext s.list i) false }) ?_ h.dealt
        fun ht ↦ hjoin _ ht (by rw [← hnext]) rfl
      simp [mainStep, hmain, System.visit, hget, hpeer]
    · refine h.main_step (e := .visit) (by simp)
        (t := { s with main := .visit (tailqNext s.list i) false }) ?_ h.dealt
        fun ht ↦ .now ⟨ht, by rw [← hnext], kept ++ [i], by simp [hlist]⟩
      simp [mainStep, hmain, System.visit, hget, hpeer]

/-- **A pass along the list ends.** -/
theorem Closing.pass (h : s.Closing build) (hmain : s.main = .visit todo.head? cancel)
    (hlist : s.list = kept ++ todo) : Machine.CanReach System.step Gentle s fun t ↦
      t.Closing build ∧ t.main = .visit none cancel := by
  induction todo generalizing s kept with
  | nil => exact .now ⟨h, hmain⟩
  | cons i todo ih =>
    have hnot : i ∉ kept := fun hi ↦ (List.nodup_append.1 (hlist ▸ h.alive.listed.nodup)).2.2 i hi i
      (List.mem_cons_self ..) rfl
    exact (h.visit hmain hlist hnot).bind fun t ⟨ht, hmain', kept', hlist'⟩ ↦ ih ht hmain' hlist'

/-- The main loop ends at the test of `g_running`. -/
theorem Closing.test (h : s.Closing build) (hmain : s.main = .loop) :
    Machine.CanReach System.step Gentle s fun t ↦
      t.Closing build ∧ t.main = .visit t.list.head? true := by
  refine h.main_step (e := .test) (by simp) (t := { s with main := .visit s.list.head? true }) ?_
    h.dealt fun ht ↦ .now ⟨ht, rfl⟩
  simp [mainStep, hmain, h.running]

/-- When all clients were joined the server ends. -/
theorem Closing.last (h : s.Closing build) (hmain : s.main = .visit none true) :
    Machine.CanReach System.step Gentle s fun t ↦ t.Closing build ∧ t.main = .exit := by
  have hcursor := h.alive.listed.cursor
  rw [hmain] at hcursor
  obtain ⟨kept, todo, hlist, hhead, hkept⟩ := hcursor
  rw [hkept rfl, List.head?_eq_none_iff.1 hhead.symm] at hlist
  refine h.main_step (e := .visit) (by simp) (t := { s with main := .exit }) ?_ h.dealt
    fun ht ↦ .now ⟨ht, rfl⟩
  simp [mainStep, hmain, System.visit, hlist]

/-- At the end nothing is left of any client. -/
theorem Closing.released (h : s.Closing build) (hlist : s.list = []) :
    (∀ j, ¬ s.lock.Held j) ∧ ∀ (i : ℕ) (c : Client), s.clients.cells[i]? = some c →
      c.thread ≠ .unstarted → c.Released s i := by
  have hlive : ∀ i, ¬ s.clients.Live i := fun i hi ↦ by
    have hmem := h.alive.listed.mem.2 hi
    rw [hlist] at hmem
    cases hmem
  refine ⟨fun j hheld ↦ ?_, fun i c hc hthread ↦ ?_⟩
  · obtain ⟨c, hget, -⟩ := h.ended.holder h.alive.shared h.alive.owning hheld
    exact hlive j (Heap.live_of_get? hget)
  · have hjoined : c.thread = .joined := by
      cases hc' : c.thread with
      | unstarted => exact absurd hc' hthread
      | joined => rfl
      | running => exact absurd ((h.alive.owning.live i).2 ⟨c, hc, by rw [hc']; rfl⟩) (hlive i)
      | ended => exact absurd ((h.alive.owning.live i).2 ⟨c, hc, by rw [hc']; rfl⟩) (hlive i)
    exact (released_iff h.alive.shared h.alive.owning hc hjoined).2
      (h.ended i c hc (Or.inr hjoined))

end Ending

end System

end Aesd
