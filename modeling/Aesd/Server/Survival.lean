import Aesd.Server.Reply
import Aesd.Server.Shutdown
import Aesd.Server.Clients

/-!
# What the server survives

The process can end before it is told to, or a session go wrong, in three ways: a resource is
missing, which is not followed here; an assertion fails; or a `send` is made on a connection that
the client has closed, whose signal the server does not handle.

`System.Alive` is what all steps keep true but those that lack a resource or make such a `send`
(`System.Spared`).  In such a state the process runs, no assertion has failed, and every packet that
a session is done with was flattened, logged and answered (`Session.Served`).  Until a signal asks
the server to stop, nothing is cancelled (`System.Unstopped`).
-/

set_option autoImplicit false

namespace Aesd

namespace Pc

/-- The client waits for the reply to a packet. -/
def awaited : Pc → Bool
  | .wrlock | .ioctl | .fwrite | .fseek | .wrunlock | .rdlock | .fread | .send | .rdunlock => true
  | _ => false

/-- All that was received was dealt with. -/
def settled : Pc → Bool
  | .start | .recv | .free | .close | .mark | .done => true
  | _ => false

theorem idle_awaited {pc : Pc} (h : pc.idle = true) : pc.awaited = false := by
  cases pc <;> first | rfl | exact absurd h (by decide)

end Pc

/-- The main thread is about to end the server. -/
def MainPc.stopping : MainPc → Bool
  | .visit _ cancel => cancel
  | .join _ _ cancel => cancel
  | .exit => true
  | _ => false

namespace Session

/-- **The packets were dealt with**: no allocation failed, there is a reply to each of them but the
one that is being answered, and they are all there are in what was looked at. -/
structure Served (s : Session) : Prop where
  /-- Every allocation worked. -/
  failures : s.failures = 0
  /-- The packets were answered. -/
  replies : s.replies.length + (if s.pc.awaited then 1 else 0) = s.packets.length
  /-- There are no others. -/
  packets : s.pc.settled = true → s.packets = segments s.stream

variable {build : Build} {s t : Session} {e : Event}

/-- The fragments do not matter. -/
theorem Served.congr (h : s.Served) (mem : Fragments) : ({ s with mem := mem } : Session).Served :=
  ⟨h.failures, h.replies, h.packets⟩

/-- With no failed allocation, the packets are all those of the bytes that were dealt with. -/
theorem Inv.packets_settled (h : s.Inv) (hf : s.failures = 0) (hpc : s.pc.settled = true) :
    s.packets = segments s.stream := by
  have hframe := h.frame
  rw [FrameInv] at hframe
  cases hs : s.pc with
  | start =>
    rw [hs] at hframe
    obtain rfl : s = init := hframe
    rfl
  | recv =>
    rw [hs] at hframe
    rcases hframe with ⟨l, ptr, f, -, -, hframed⟩ | ⟨-, hfail, -⟩
    · exact hframed.2 hf
    · omega
  | free => rw [hs] at hframe; exact hframe.2.2 hf
  | close => rw [hs] at hframe; exact hframe.2.2.2 hf
  | mark => rw [hs] at hframe; exact hframe.2.2.2 hf
  | done => rw [hs] at hframe; exact hframe.2.2.2 hf
  | _ => rw [hs] at hpc; cases hpc

/-- When the allocation works, a packet that is complete is flattened. -/
theorem scan_pc (h : s.Inv) (hstep : Session.step build s (.scan true) = some t) :
    t.pc ≠ .rdlock := by
  obtain ⟨u, hu, -, -, hpc⟩ := scan_step h (step_eq_some.1 hstep).1 build
  obtain rfl := Option.some_inj.1 (hu.symm.trans hstep)
  rcases hpc with hpc | hpc <;> rw [hpc] <;> simp

/-- The replies keep up with the packets. -/
theorem Turn.replies (h : Turn build s e t) (hlost : e.pc = .scan → t.pc ≠ .rdlock)
    (hs : s.replies.length + (if s.pc.awaited then 1 else 0) = s.packets.length) :
    t.replies.length + (if t.pc.awaited then 1 else 0) = t.packets.length := by
  cases h with
  | idle he hpc hpc' kept packets =>
    rw [Pc.idle_awaited hpc] at hs
    rw [Pc.idle_awaited hpc', kept.replies, packets, hs]
  | lost hpc hpc' => exact absurd hpc' (hlost rfl)
  | found packet hpc hpc' hpacket seekto kept packets =>
    rw [hpc] at hs
    rw [hpc', kept.replies, packets, List.length_append, ← hs]
    rfl
  | write count ok f_pos packet hpc =>
    rw [hpc] at hs
    rcases afterWrite_cases build (if ok then s.rest.drop count else []) with
      heq | ⟨-, heq⟩ | ⟨-, heq⟩ <;> simp only [heq] <;> exact hs
  | read bytes f_pos hpc hbytes hpc' =>
    rw [hpc] at hs
    rcases hpc' with ⟨rfl, -⟩ | ⟨rfl, -⟩ <;> exact hs
  | rdunlock hpc =>
    rw [hpc] at hs
    simpa [Pc.awaited] using hs
  | _ =>
    simp only [*] at hs
    exact hs

/-- **Every step in which no allocation fails.** -/
theorem Served.step (h : s.Served) (hinv : s.Inv) (hok : e.MallocOk)
    (hstep : Session.step build s e = some t) : t.Served ∧ ∀ bug, t.pc ≠ .fault bug := by
  obtain ⟨hinv', hf, -⟩ := run_mallocOk (.single hok hstep) hinv h.failures
  refine ⟨⟨hf, (step_turn hinv.flat hstep).replies (fun he ↦ ?_) h.replies,
    hinv'.packets_settled hf⟩, hinv'.no_fault hf⟩
  cases e with
  | scan ok =>
    obtain rfl : ok = true := hok
    exact scan_pc hinv hstep
  | _ => cases he

end Session

namespace System

section Survival

variable [Platform]

/-! ## The runs in question -/

omit [Platform] in
/-- A session has the memory it asks for in the step. -/
def MallocOk (_ : System) : Label → Prop
  | .thread _ (.start ok) => ok = true
  | .thread _ (.scan ok) => ok = true
  | _ => True

/-- Nothing is missing in the step: neither memory, nor a thread, nor space for a `write` call. -/
def Supplied (s : System) (l : Label) : Prop := s.MallocOk l ∧ s.CreateOk l ∧ s.WritesOk l

omit [Platform] in
/-- The step sends nothing to a client that has closed its connection. -/
def SendOk (s : System) : Label → Prop
  | .thread i (.send _) => ∀ c ∈ s.clients.get? i, c.hungUp = false
  | _ => True

/-- The condition of the runs that are followed here. -/
def Spared (s : System) (l : Label) : Prop := s.Supplied l ∧ s.SendOk l

instance (s : System) : DecidablePred s.MallocOk := fun l ↦ by
  unfold MallocOk
  split <;> infer_instance

instance (s : System) : DecidablePred s.SendOk := fun l ↦ by
  unfold SendOk
  split <;> infer_instance

instance (s : System) (l : Label) : Decidable (s.Supplied l) :=
  inferInstanceAs (Decidable (_ ∧ _ ∧ _))

instance (s : System) (l : Label) : Decidable (s.Spared l) := inferInstanceAs (Decidable (_ ∧ _))

variable {build : Build} {s s' t : System} {i : ℕ} {c : Client} {e : ThreadEvent} {event : Event}
  {u : Session} {l : Label}

/-- A step of a thread makes no other thread. -/
theorem spared_thread (hmalloc : s.MallocOk (.thread i e)) (hwrites : s.WritesOk (.thread i e))
    (hsend : s.SendOk (.thread i e)) : s.Spared (.thread i e) :=
  ⟨⟨hmalloc, by simp [CreateOk], hwrites⟩, hsend⟩

/-! ## The process goes on -/

/-- What a thread's step does not touch: only a `send` to a closed connection ends the process. -/
theorem outside_alive (h : s.outside i c e = some (.ok (event, s'))) :
    s'.running = s.running ∧
      ((∀ count, e = .send count → c.hungUp = false) → s'.halted = s.halted) := by
  cases outside_meets h with
  | sigpipe hup => exact ⟨rfl, fun hok ↦ by rw [hok _ rfl] at hup; cases hup⟩
  | _ => exact ⟨rfl, fun _ ↦ rfl⟩

/-- A thread's step in which its session does nothing that must not happen. -/
theorem Moves.alive (hm : s.Moves i e t c event s' u) (hfault : ∀ bug, u.pc ≠ .fault bug)
    (hsend : s.SendOk (.thread i e)) : t.halted = s.halted := by
  have hhalt : t.halted = s'.halted := by
    rw [hm.eq, haltOn]
    split
    · exact absurd ‹_› (hfault _)
    · rfl
  rw [hhalt, (outside_alive hm.outside).2 fun count he ↦ ?_]
  subst he
  exact hsend c hm.get

theorem Moves.running_eq (hm : s.Moves i e t c event s' u) : t.running = s.running := by
  obtain ⟨halted, heq⟩ := haltOn_eq { s' with clients := s.clients.set i (c.after u) } u
  rw [hm.eq, heq]
  exact (outside_alive hm.outside).1

/-- The main thread does nothing that must not happen. -/
theorem mainMove_alive {e : MainEvent} (hs : s.Shared build) (ho : s.Owning) (hl : s.Listed)
    (hm : s.MainMove e t) : t.halted = s.halted ∧ t.running = s.running := by
  have hcursor := hl.cursor
  -- a client of the list is in memory
  have hget : ∀ i ∈ s.list, s.clients.get? i ≠ none := by
    intro i hi hnone
    obtain ⟨c, hc⟩ := Heap.live_iff.1 (hl.mem.1 hi)
    rw [hnone] at hc
    cases hc
  cases hm with
  | missing hmain hnone =>
    rw [hmain] at hcursor
    obtain ⟨kept, rest, hlist, -⟩ := hcursor.visit_some hl.nodup
    exact absurd hnone (hget _ (by rw [hlist]; simp))
  | remaining hmain hlist =>
    rw [hmain] at hcursor
    obtain ⟨kept, todo, heq, hhead, hkept⟩ := hcursor
    rw [heq, hkept rfl, List.head?_eq_none_iff.1 hhead.symm] at hlist
    exact absurd rfl hlist
  | unjoinable hmain hnone =>
    rw [hmain] at hcursor
    obtain ⟨kept, rest, hlist, -⟩ := hcursor
    exact absurd hnone (hget _ (by rw [hlist]; simp))
  | unfreeable hmain hc hend hfree =>
    obtain ⟨l, hchain, howns⟩ := (hs.live _ _ hc).chain ((ho.ok_of_get? hc).no_fault hend)
    obtain ⟨mem, heq, -⟩ := packetFragmentsFree_eq hchain howns
    rw [heq] at hfree
    cases hfree
  | _ => exact ⟨rfl, rfl⟩

/-! ## Before the signal -/

omit [Platform] in
/-- **Nobody was told to stop**: the main thread is in its loop, no thread was cancelled, and those
that have ended did so outside `write_new_packet`. -/
structure Unstopped (s : System) : Prop where
  /-- The main thread. -/
  main : s.main.stopping = false
  /-- The clients. -/
  clients : ∀ (i : ℕ) (c : Client), s.clients.cells[i]? = some c → c.cancelled = false
  /-- The threads. -/
  ended : s.EndedOutside

omit [Platform] in
/-- A client changes that is not cancelled. -/
theorem Unstopped.set (h : s.Unstopped) {c' d : Client} {j : ℕ} (hget : s.clients.get? i = some c)
    (hd : (s.clients.set i c').cells[j]? = some d) (hc' : c'.cancelled = c.cancelled) :
    d.cancelled = false := by
  rcases cells_set hd with ⟨-, rfl⟩ | hd
  · exact hc'.trans (h.clients i c (cells_of_get? hget))
  · exact h.clients j d hd

omit [Platform] in
/-- The main thread's loop cancels nobody. -/
theorem Unstopped.mainMove {e : MainEvent} (h : s.Unstopped) (hrun : s.running = true)
    (hm : s.MainMove e t) : t.main.stopping = false ∧
      ∀ (i : ℕ) (c : Client), t.clients.cells[i]? = some c → c.cancelled = false := by
  have hmain := h.main
  have hfresh : ∀ (i : ℕ) (c d : Client), (s.clients.alloc d).cells[i]? = some c →
      d.cancelled = false → c.cancelled = false := by
    intro i c d hc hd
    rcases cells_alloc hc with ⟨-, rfl⟩ | hc
    · exact hd
    · exact h.clients i c hc
  cases hm with
  | stop hloop hstop =>
    rw [hstop] at hrun
    cases hrun
  | exit hvisit =>
    rw [hvisit] at hmain
    cases hmain
  | cancel hvisit =>
    rw [hvisit] at hmain
    cases hmain
  | noFile => exact ⟨rfl, fun i c hc ↦ hfresh i c _ hc rfl⟩
  | noThread => exact ⟨rfl, fun i c hc ↦ hfresh i c _ hc rfl⟩
  | start => exact ⟨rfl, fun i c hc ↦ hfresh i c _ hc rfl⟩
  | join hjoin hget =>
    rw [hjoin] at hmain
    exact ⟨hmain, fun i c hc ↦ h.set hget hc rfl⟩
  | missing hvisit => exact ⟨hmain, h.clients⟩
  | remaining hvisit => exact ⟨hmain, h.clients⟩
  | unjoinable hjoin => exact ⟨hmain, h.clients⟩
  | unfreeable hjoin => exact ⟨hmain, h.clients⟩
  | _ => exact ⟨rfl, h.clients⟩

theorem Unstopped.step (h : s.Unstopped) (hs : s.Shared build) (hrun : s.running = true)
    (hstep : s.step l = some t) : t.Unstopped := by
  have hcancel : s.CancelOutside l := by
    cases l with
    | cancel i =>
      obtain _ | _ | _ | ⟨hget, -, hcancelled, -⟩ := (step_transition hstep).2
      rw [h.clients i _ (cells_of_get? hget)] at hcancelled
      cases hcancelled
    | _ => trivial
  have hended := h.ended.step hs hcancel hstep
  cases (step_transition hstep).2 with
  | main hm =>
    obtain ⟨hmain, hclients⟩ := h.mainMove hrun hm
    exact ⟨hmain, hclients, hended⟩
  | @thread i e t s' c event u hm =>
    obtain ⟨-, -, hmain, -⟩ := hm.resources
    refine ⟨hmain ▸ h.main, fun j d hd ↦ ?_, hended⟩
    rw [hm.clients] at hd
    exact h.set hm.get hd (by rw [Client.after]; split <;> rfl)
  | bug hget hout => exact absurd hout (hs.outside_ne_error hget)
  | cancel hget => exact ⟨h.main, fun j d hd ↦ h.set hget hd rfl, hended⟩
  | hangup hget => exact ⟨h.main, fun j d hd ↦ h.set hget hd rfl, hended⟩
  | signal => exact ⟨h.main, h.clients, hended⟩

/-! ## Every step -/

/-- **What the server keeps true** while nothing is missing and nothing is sent to a client that has
closed its connection. -/
structure Alive (build : Build) (s : System) : Prop where
  /-- The sessions. -/
  shared : s.Shared build
  /-- The resources. -/
  owning : s.Owning
  /-- The list of clients. -/
  listed : s.Listed
  /-- The store. -/
  stored : s.StoredAs Eq
  /-- The process runs, and nothing has happened that must not. -/
  halted : s.halted = none
  /-- The packets. -/
  served : ∀ i, (s.session i).Served
  /-- The replies. -/
  replying : ∀ i, (s.session i).pc.reading = true →
    ∃ pos, (s.session i).Replying s.store.content pos
  /-- It is told to stop by a signal only. -/
  unstopped : s.running = true → s.Unstopped

/-- The event of a step for which there is memory. -/
theorem Moves.mallocOk (hm : s.Moves i e t c event s' u) (hok : s.MallocOk (.thread i e)) :
    event.MallocOk := by
  have hpc := hm.pc_eq.2
  have hout := hm.outside
  cases event with
  | start ok =>
    cases e <;> cases hpc
    cases hout
    exact hok
  | scan ok =>
    cases e <;> cases hpc
    cases hout
    exact hok
  | _ => trivial

theorem Alive.served_step (h : s.Alive build) (hl : s.Spared l) (hstep : s.step l = some t)
    (i : ℕ) : (t.session i).Served := by
  rcases step_cases h.shared.clients hstep with hq | ⟨j, e, c, event, s', u, rfl, hm⟩
  · obtain ⟨mem, heq⟩ := hq.session i
    rw [heq]
    exact (h.served i).congr mem
  · by_cases hij : i = j
    · subst hij
      have hserved := h.served i
      rw [session_eq hm.get] at hserved
      rw [hm.session_self]
      exact (hserved.step (h.shared.inv hm.get) (hm.mallocOk hl.1.1) hm.step).1
    · rw [hm.session_ne hij]
      exact h.served i

theorem Alive.replying_step (h : s.Alive build) (hstep : s.step l = some t)
    (hi : (t.session i).pc.reading = true) :
    ∃ pos, (t.session i).Replying t.store.content pos := by
  by_cases hreading : (s.session i).pc.reading = true
  · obtain ⟨pos, hpos⟩ := h.replying i hreading
    have hkeep : Keeping i s l := by
      rintro rfl
      obtain ⟨c, event, s', u, hm⟩ := h.shared.thread_moves hstep
      have hturn := (h.shared.turn hm).reading
      have hev := hm.pc_eq.2
      cases event <;> cases hev
      rw [hm.session_self, hturn] at hi
      cases hi
    obtain ⟨hstore, hpos'⟩ := System.replying_step h.shared hpos hkeep hstep
    exact ⟨pos, hstore ▸ hpos'⟩
  · rw [Bool.not_eq_true] at hreading
    rcases step_cases h.shared.clients hstep with hq | ⟨j, e, c, event, s', u, rfl, hm⟩
    · obtain ⟨mem, heq⟩ := hq.session i
      rw [heq] at hi
      exact absurd hi (by rw [hreading]; decide)
    · by_cases hij : i = j
      · subst hij
        have hturn := (h.shared.turn hm).reading
        rw [hm.session_self, hturn, ← session_eq hm.get, hreading] at hi
        have hev := hm.pc_eq.2
        cases event <;> first | cases hi; done | skip
        cases e <;> cases hev
        obtain ⟨pos, -, hstore, hpos⟩ := replying_start h.shared hstep
        exact ⟨pos, hstore ▸ hpos⟩
      · rw [hm.session_ne hij, hreading] at hi
        cases hi

/-- The process goes on, and only the signal tells it to stop. -/
theorem Alive.going_on (h : s.Alive build) (hl : s.Spared l) (hstep : s.step l = some t) :
    t.halted = none ∧ (t.running = true → s.running = true) := by
  cases (step_transition hstep).2 with
  | main hm =>
    obtain ⟨hhalt, hrun⟩ := mainMove_alive h.shared h.owning h.listed hm
    exact ⟨hhalt.trans h.halted, fun ht ↦ hrun ▸ ht⟩
  | @thread i e t s' c event u hm =>
    have hserved := h.served i
    rw [session_eq hm.get] at hserved
    obtain ⟨-, hfault⟩ := hserved.step (h.shared.inv hm.get) (hm.mallocOk hl.1.1) hm.step
    exact ⟨(hm.alive hfault hl.2).trans h.halted, fun ht ↦ hm.running_eq ▸ ht⟩
  | bug hget hout => exact absurd hout (h.shared.outside_ne_error hget)
  | cancel => exact ⟨h.halted, id⟩
  | hangup => exact ⟨h.halted, id⟩
  | signal => exact ⟨h.halted, fun ht ↦ by cases ht⟩

/-- **The step lemma.** -/
theorem Alive.step (h : s.Alive build) (hl : s.Spared l) (hstep : s.step l = some t) :
    t.Alive build where
  shared := h.shared.step hstep
  owning := h.owning.step h.shared hstep
  listed := h.listed.step h.shared hl.1.2.1 hstep
  stored := by
    refine h.stored.step h.shared (fun a b p hab ↦ by rw [hab]) ?_ hstep
    rintro i e c count f_pos s' u rfl hm
    exact absurd (hl.1.2.2.eq_true hm) (by simp)
  halted := (h.going_on hl hstep).1
  served := h.served_step hl hstep
  replying _ := h.replying_step hstep
  unstopped hrun :=
    have hrun := (h.going_on hl hstep).2 hrun
    (h.unstopped hrun).step h.shared hrun hstep

/-- **The run lemma.** -/
theorem Alive.run {ls : List Label} (h : s.Alive build)
    (hrun : Machine.Run System.step Spared s ls t) : t.Alive build :=
  hrun.invariant (fun _ _ _ hs hl hstep ↦ hs.step hl hstep) h

end Survival

end System

end Aesd
