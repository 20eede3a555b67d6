import Aesd.Server.Clients
import Aesd.Server.Queue

/-!
# The list of clients in memory

The server of `System` once more, but with its list of clients as it lies in memory: the head and
the entries of the tail queue.  `run_server_logic`, `start_client_processing` and
`join_completed_clients` now use the macros, and `System.list` is not looked at; what they do
besides is what `System` does.

`LinkedServer.toSystem` reads the list off the queue.  As long as `pthread_create` works, the two
servers make the same runs (`LinkedServer.linked_exec`), so all that is said about `System` holds of
the pointers too.  When `pthread_create` fails, the client that was freed is linked into the queue,
and that is a write to memory that is not there.
-/

set_option autoImplicit false

namespace Aesd

/-- The server, and its list of clients in memory. -/
structure LinkedServer where
  /-- All but the list. -/
  sys : System
  /-- `clients`, and the field `nodes` of every client. -/
  clients : Tailq
deriving DecidableEq

/-- The server with another list. -/
def System.withList (s : System) (l : List ℕ) : System := { s with list := l }

namespace LinkedServer

variable [Platform]

/-- The server when `run_server_logic` enters its loop. -/
def init (b : Build) : LinkedServer := ⟨.init b, .init⟩

omit [Platform] in
/-- The process ends. -/
def halt (s : LinkedServer) (bug : Bug) : LinkedServer :=
  { s with sys := { s.sys with halted := some (.bug bug) } }

omit [Platform] in
/-- The main thread goes on elsewhere. -/
def goto (s : LinkedServer) (main : MainPc) : LinkedServer :=
  { s with sys := { s.sys with main := main } }

omit [Platform] in
/-- `start_client_processing`. -/
def startClientProcessing (s : LinkedServer) (peerFd : ℕ) (mallocOk fopenOk createOk : Bool) :
    LinkedServer :=
  let sys := s.sys.startClientProcessing peerFd mallocOk fopenOk createOk
  if !mallocOk then ⟨sys, s.clients⟩
  else
    let client := s.clients.entries.next
    let clients := s.clients.alloc
    if !fopenOk then ⟨sys, clients.free client⟩
    else
      -- the branch for `pthread_create` frees the client and does not return
      let clients := if createOk then clients else clients.free client
      match clients.insertTail client with
      | .ok clients => ⟨sys, clients⟩
      | .error bug => halt ⟨sys, clients⟩ bug

omit [Platform] in
/-- `join_completed_clients` at a client, up to `pthread_join`, or at the end of the list. -/
def visit (s : LinkedServer) (client : Option ℕ) (cancel : Bool) : LinkedServer :=
  match client with
  | none =>
    if cancel then
      if s.clients.empty then s.goto .exit else s.halt (.assertion "TAILQ_EMPTY(&clients)")
    else s.goto .loop
  | some i =>
    match s.clients.next i with
    | .error bug => s.halt bug
    | .ok next =>
      match s.sys.clients.get? i with
      | none => s.halt (.notAllocated i)
      | some c =>
        let s :=
          if cancel then
            { s with
              sys := { s.sys with clients := s.sys.clients.set i { c with cancelled := true } } }
          else s
        if cancel ∨ c.peerFd = none then s.goto (.join i next cancel)
        else s.goto (.visit next cancel)

omit [Platform] in
/-- `join_completed_clients` after `pthread_join`. -/
def join (s : LinkedServer) (i : ℕ) (next : Option ℕ) (cancel : Bool) : Option LinkedServer :=
  (s.sys.join i next cancel).map fun sys ↦
    if sys.halted ≠ none then ⟨sys, s.clients⟩
    else
      match s.clients.remove i with
      | .ok clients => ⟨sys, clients.free i⟩
      | .error bug => halt ⟨sys, s.clients⟩ bug

omit [Platform] in
/-- A step of the main thread. -/
def mainStep (s : LinkedServer) (e : MainEvent) : Option LinkedServer :=
  match s.sys.main, e with
  | .loop, .test =>
    some (s.goto (if s.sys.running then .accept else .visit s.clients.first true))
  | .accept, .refuse => some (s.goto .loop)
  | .accept, .accept mallocOk fopenOk createOk =>
    let peerFd := s.sys.fds.next
    let s := { s with sys := { s.sys with fds := s.sys.fds.alloc () } }
    let s := s.startClientProcessing peerFd mallocOk fopenOk createOk
    some (s.goto (.visit s.clients.first false))
  | .visit client cancel, .visit => some (s.visit client cancel)
  | .join client next cancel, .join => s.join client next cancel
  | _, _ => none

/-- The machine. -/
def step (s : LinkedServer) (l : Label) : Option LinkedServer :=
  match l with
  | .main e => if s.sys.halted = none then s.mainStep e else none
  | l => (s.sys.step l).map fun sys ↦ { s with sys := sys }

omit [Platform] in
/-- The server with the clients of the queue as its list. -/
def toSystem (s : LinkedServer) : System :=
  s.sys.withList (match s.clients.foreach with
    | .ok l => l
    | .error _ => [])

end LinkedServer

/-! ## What does not look at the list -/

namespace System

variable {s : System} {l : List ℕ} {i : ℕ}

@[simp] theorem withList_withList (s : System) (l m : List ℕ) :
    (s.withList l).withList m = s.withList m := rfl

@[simp] theorem list_withList (s : System) (l : List ℕ) : (s.withList l).list = l := rfl

@[simp] theorem clients_withList (s : System) (l : List ℕ) :
    (s.withList l).clients = s.clients := rfl

@[simp] theorem halted_withList (s : System) (l : List ℕ) :
    (s.withList l).halted = s.halted := rfl

@[simp] theorem main_withList (s : System) (l : List ℕ) : (s.withList l).main = s.main := rfl

theorem haltOn_withList (s : System) (l : List ℕ) (t : Session) :
    haltOn (s.withList l) t = (haltOn s t).withList l := by
  rw [haltOn, haltOn]
  split <;> rfl

variable [Platform]

theorem outside_withList (s : System) (l : List ℕ) (i : ℕ) (c : Client) (e : ThreadEvent) :
    (s.withList l).outside i c e
      = (s.outside i c e).map (Except.map fun x ↦ (x.1, x.2.withList l)) := by
  cases e with
  | wrlock =>
    simp only [outside, Option.map_map]
    rfl
  | rdlock =>
    simp only [outside, Option.map_map]
    rfl
  | ioctl =>
    simp only [outside, Option.map_map]
    refine congrArg (fun f ↦ Option.map f _) (funext fun seekto ↦ ?_)
    show _ = Except.map _ (s.store.ioctl c.session.f_pos seekto >>= fun f_pos ↦ _)
    cases h : s.store.ioctl c.session.f_pos seekto <;> simp [withList, h] <;> rfl
  | write count o =>
    simp only [outside, Option.map_some, Option.some_inj]
    cases h : s.store.write c.session.f_pos (c.session.rest.take count) o <;>
      simp [withList, h] <;> rfl
  | read count =>
    simp only [outside]
    split
    · rw [Option.map_some, Option.some_inj]
      cases h : s.store.read c.session.f_pos count <;> simp [withList, h] <;> rfl
    · rfl
  | send count =>
    simp only [outside]
    split <;> rfl
  | close =>
    simp only [outside]
    split <;> rfl
  | _ => rfl

theorem threadStep_withList (s : System) (l : List ℕ) (i : ℕ) (e : ThreadEvent) :
    (s.withList l).threadStep i e = (s.threadStep i e).map (·.withList l) := by
  simp only [threadStep, clients_withList, outside_withList]
  cases s.clients.get? i with
  | none => rfl
  | some c =>
    by_cases hrun : c.thread = .running
    · simp only [if_pos hrun]
      cases s.outside i c e with
      | none => rfl
      | some r =>
        cases r with
        | error bug => rfl
        | ok x =>
          obtain ⟨event, s'⟩ := x
          show Option.map _ (Session.step s.store.build c.session event) = _
          rw [Option.map_map]
          refine congrArg (fun f ↦ Option.map f _) (funext fun t ↦ ?_)
          exact haltOn_withList { s' with clients := s.clients.set i (c.after t) } l t
    · simp only [if_neg hrun]
      rfl

/-- Only the main thread looks at the list. -/
theorem step_withList (s : System) (l : List ℕ) {lab : Label} (h : ∀ e, lab ≠ .main e) :
    (s.withList l).step lab = (s.step lab).map (·.withList l) := by
  unfold step
  rw [halted_withList]
  by_cases hh : s.halted = none
  swap
  · rw [if_neg hh, if_neg hh, Option.map_none]
  rw [if_pos hh, if_pos hh]
  cases lab with
  | main e => exact absurd rfl (h e)
  | thread i e => exact threadStep_withList s l i e
  | cancel i =>
    simp only [cancelStep, clients_withList]
    cases s.clients.get? i with
    | none => rfl
    | some c =>
      simp only []
      split <;> rfl
  | hangup i =>
    simp only [hangupStep, clients_withList]
    cases s.clients.get? i <;> rfl
  | signal => rfl

/-- Only the main thread allocates and frees clients. -/
theorem step_clients {t : System} {lab : Label} (h : ∀ e, lab ≠ .main e)
    (hstep : s.step lab = some t) :
    t.clients.next = s.clients.next ∧ t.clients.freed = s.clients.freed := by
  cases (step_transition hstep).2 with
  | main => exact absurd rfl (h _)
  | thread hm => rw [hm.clients]; exact ⟨Heap.next_set, Heap.freed_set⟩
  | cancel => exact ⟨Heap.next_set, Heap.freed_set⟩
  | hangup => exact ⟨Heap.next_set, Heap.freed_set⟩
  | _ => exact ⟨rfl, rfl⟩

end System

namespace LinkedServer

/-- The queue has the clients of the list, and its memory is that of the clients. -/
structure Realizes (s : LinkedServer) (a : System) : Prop where
  /-- They agree on all but the list. -/
  eq : a = s.sys.withList a.list
  /-- The clients of the list. -/
  represents : s.clients.Represents a.list
  /-- As many were allocated. -/
  next : s.clients.entries.next = a.clients.next
  /-- The same were freed. -/
  freed : s.clients.entries.freed = a.clients.freed

variable {build : Build} {s t : LinkedServer} {a : System} {sys : System} {q q' : Tailq}
  {l l' : List ℕ} {lab : Label} {i : ℕ} {main : MainPc}

theorem Realizes.toSystem_eq (h : s.Realizes a) : s.toSystem = a := by
  rw [toSystem, h.represents.foreach, ← h.eq]

theorem realizes_init (b : Build) : (LinkedServer.init b).Realizes (System.init b) :=
  ⟨rfl, Tailq.represents_init, rfl, rfl⟩

section Steps

variable (hq : q.Represents l) (hnext : q.entries.next = sys.clients.next)
  (hfreed : q.entries.freed = sys.clients.freed)

include hq hnext hfreed

/-- `start_client_processing`, when it does not fail to make a thread. -/
theorem startClientProcessing_realizes (hsound : sys.clients.Sound)
    (hlist : ∀ i ∈ l, i < sys.clients.next) (peerFd : ℕ) {m f c : Bool}
    (hc : (m, f, c) ≠ (true, true, false)) :
    Realizes ((LinkedServer.mk sys q).startClientProcessing peerFd m f c)
      ((sys.withList l).startClientProcessing peerFd m f c) := by
  have hfresh : q.entries.next ∉ l := fun hi ↦ Nat.lt_irrefl _ (hnext ▸ hlist _ hi)
  have hnext' : q.alloc.entries.next = sys.clients.next + 1 := by
    rw [← hnext]
    exact Heap.next_alloc
  cases m with
  | false => exact ⟨rfl, hq, hnext, hfreed⟩
  | true =>
    cases f with
    | false =>
      refine ⟨rfl, hq.alloc.free hfresh, ?_, ?_⟩
      · show q.alloc.entries.next = (Heap.alloc _ _).next
        rw [hnext', Heap.next_alloc]
        rfl
      · show q.entries.freed ++ [q.entries.next] = sys.clients.freed ++ [sys.clients.next]
        rw [hnext, hfreed]
    | true =>
      cases c with
      | false => exact absurd rfl hc
      | true =>
        have hlive : q.alloc.entries.Live q.entries.next :=
          ⟨by rw [hnext', hnext]; exact Nat.lt_succ_self _, by
            show q.entries.next ∉ q.entries.freed
            rw [hnext, hfreed]
            exact hsound.next_notMem⟩
        obtain ⟨q', heq, hq', hstays⟩ := hq.alloc.insertTail hlive hfresh
        have hstart : (LinkedServer.mk sys q).startClientProcessing peerFd true true true
            = ⟨sys.startClientProcessing peerFd true true true, q'⟩ := by
          simp only [startClientProcessing, Bool.not_true, Bool.false_eq_true, if_false, if_true,
            heq]
        rw [hstart]
        refine ⟨rfl, ?_, ?_, ?_⟩
        · show q'.Represents (l ++ [sys.clients.next])
          rw [← hnext]
          exact hq'
        · show q'.entries.next = (Heap.alloc _ _).next
          rw [hstays.next, hnext', Heap.next_alloc]
          rfl
        · exact hstays.freed.trans hfreed

/-- At a client of the list, or at its end. -/
theorem visit_realizes (hlive : ∀ i ∈ l, sys.clients.Live i) {client : Option ℕ} {cancel : Bool}
    (hcursor : ∃ kept todo, l = kept ++ todo ∧ client = todo.head?) :
    Realizes ((LinkedServer.mk sys q).visit client cancel)
      ((sys.withList l).visit client cancel) := by
  obtain ⟨kept, todo, rfl, rfl⟩ := hcursor
  cases todo with
  | nil =>
    cases cancel with
    | false => exact ⟨rfl, hq, hnext, hfreed⟩
    | true =>
      simp only [LinkedServer.visit, System.visit, List.head?_nil, if_true]
      by_cases hempty : kept ++ [] = []
      · rw [if_pos (hq.empty_iff.2 hempty), if_pos (show (sys.withList _).list = [] from hempty)]
        exact ⟨rfl, hq, hnext, hfreed⟩
      · rw [if_neg (fun h ↦ hempty (hq.empty_iff.1 h)),
          if_neg (show ¬ (sys.withList _).list = [] from hempty)]
        exact ⟨rfl, hq, hnext, hfreed⟩
  | cons i rest =>
    obtain ⟨c, hget⟩ := Heap.live_iff.1 (hlive i (by simp))
    have hnot : i ∉ kept := fun hi ↦
      (List.nodup_append.1 hq.nodup).2.2 i hi i (List.mem_cons_self ..) rfl
    simp only [LinkedServer.visit, System.visit, List.head?_cons, hq.next_eq,
      System.clients_withList, hget, System.list_withList, System.tailqNext_eq hnot]
    cases cancel with
    | true =>
      simp only [if_true, true_or]
      refine ⟨rfl, hq, ?_, hfreed⟩
      show q.entries.next = (Heap.set _ _ _).next
      rw [hnext, Heap.next_set]
    | false =>
      simp only [Bool.false_eq_true, if_false, false_or]
      split <;> exact ⟨rfl, hq, hnext, hfreed⟩

/-- After `pthread_join` of a client of the list. -/
theorem join_realizes (hhalted : sys.halted = none) (hi : i ∈ l) (next : Option ℕ)
    (cancel : Bool) :
    Option.Rel Realizes ((LinkedServer.mk sys q).join i next cancel)
      ((sys.withList l).join i next cancel) := by
  simp only [LinkedServer.join, System.join, System.clients_withList]
  cases hget : sys.clients.get? i with
  | none => exact .some ⟨rfl, hq, hnext, hfreed⟩
  | some c =>
    by_cases hend : c.thread = .ended
    swap
    · simp only [if_neg hend]
      exact .none
    simp only [if_pos hend]
    cases hfree : packetFragmentsFree c.session.mem c.session.fragments with
    | error bug => exact .some ⟨rfl, hq, hnext, hfreed⟩
    | ok mem =>
      obtain ⟨kept, rest, -, rfl, herase⟩ := List.exists_erase_eq hi
      obtain ⟨q', heq, hq', hstays⟩ := hq.remove
      have hnot : i ∉ kept ++ rest := by
        have := (List.nodup_middle.1 hq.nodup)
        exact (List.nodup_cons.1 this).1
      have hh : ¬ sys.halted ≠ none := fun h ↦ h hhalted
      simp only [Option.map_some, if_neg hh, heq]
      refine .some ⟨rfl, ?_, ?_, ?_⟩
      · show (q'.free i).Represents ((kept ++ i :: rest).erase i)
        rw [herase]
        exact hq'.free hnot
      · show q'.entries.next = ((Heap.set _ _ _).free i).next
        rw [hstays.next, hnext, Heap.next_free, Heap.next_set]
      · show q'.entries.freed ++ [i] = sys.clients.freed ++ [i]
        rw [hstays.freed, hfreed]

end Steps

section Runs

variable [Platform]

/-- The two servers in the same state, in a run in which `pthread_create` works. -/
structure Related (build : Build) (s : LinkedServer) (a : System) : Prop where
  /-- The queue is the list. -/
  realizes : s.Realizes a
  /-- The invariant of the sessions and the store. -/
  shared : a.Shared build
  /-- The invariant of the list. -/
  listed : a.Listed

omit [Platform] in
theorem Realizes.goto (h : s.Realizes a) : (s.goto main).Realizes { a with main := main } := by
  refine ⟨?_, h.represents, h.next, h.freed⟩
  rw [h.eq]
  rfl

omit [Platform] in
/-- To a place that depends on the first client. -/
theorem Realizes.goto_first (h : s.Realizes a) (f : Option ℕ → MainPc) :
    (s.goto (f s.clients.first)).Realizes { a with main := f a.list.head? } := by
  rw [h.represents.first_eq]
  exact h.goto

/-- The main thread's step. -/
theorem Related.mainStep (h : Related build s a) (hhalted : s.sys.halted = none) {e : MainEvent}
    (hc : e ≠ .accept true true false) : Option.Rel Realizes (s.mainStep e) (a.mainStep e) := by
  obtain ⟨sys, q⟩ := s
  obtain ⟨heq, hq, hnext, hfreed⟩ := h.realizes
  have hcursor := h.listed.cursor
  have hlive : ∀ i ∈ a.list, sys.clients.Live i := fun i hi ↦ by
    have := h.listed.mem.1 hi
    rwa [heq] at this
  have hsound : sys.clients.Sound := by
    have := h.shared.clients
    rwa [heq] at this
  generalize hl : a.list = l at *
  subst heq
  replace hnext : q.entries.next = sys.clients.next := hnext
  replace hfreed : q.entries.freed = sys.clients.freed := hfreed
  have hreal : Realizes ⟨sys, q⟩ (sys.withList l) := ⟨rfl, hq, hnext, hfreed⟩
  obtain ⟨store, lock, clients, list, fds, files, main, running, halted, log, evicted⟩ := sys
  cases main with
  | loop =>
    cases e with
    | test => exact .some (hreal.goto_first fun c ↦ if running then .accept else .visit c true)
    | _ => exact .none
  | accept =>
    cases e with
    | refuse => exact .some hreal.goto
    | accept m f c =>
      let sys : System := ⟨store, lock, clients, list, fds.alloc (), files, .accept, running,
        halted, log, evicted⟩
      have hnext' : q.entries.next = sys.clients.next := hnext
      have hstart := startClientProcessing_realizes hq hnext' hfreed hsound
        (fun i hi ↦ (hlive i hi).1) fds.next (m := m) (f := f) (c := c)
        (by rintro ⟨⟩; exact hc rfl)
      exact .some (hstart.goto_first (.visit · false))
    | _ => exact .none
  | visit client cancel =>
    cases e with
    | visit =>
      obtain ⟨kept, todo, hlist, hclient, -⟩ := hcursor
      exact .some (visit_realizes hq hnext hfreed hlive ⟨kept, todo, hlist, hclient⟩)
    | _ => exact .none
  | join i next cancel =>
    cases e with
    | join =>
      obtain ⟨kept, rest, hlist, -⟩ := hcursor
      have hi : i ∈ l := by
        rw [show l = kept ++ i :: rest from hlist]
        simp
      exact join_realizes hq hnext hfreed hhalted hi next cancel
    | _ => exact .none
  | exit => exact .none

/-- **The two servers make the same steps**, while `pthread_create` works. -/
theorem Related.step (h : Related build s a) (hc : lab ≠ .main (.accept true true false)) :
    Option.Rel (Related build) (s.step lab) (a.step lab) := by
  have hreal := h.realizes
  have hrel : Option.Rel Realizes (s.step lab) (a.step lab) := by
    by_cases hmain : ∃ e, lab = .main e
    · obtain ⟨e, rfl⟩ := hmain
      have hhalted : a.halted = s.sys.halted := by rw [hreal.eq]; rfl
      simp only [LinkedServer.step, System.step, hhalted]
      split
      · exact h.mainStep ‹_› fun he ↦ hc (he ▸ rfl)
      · exact .none
    · have hother : ∀ e, lab ≠ .main e := fun e he ↦ hmain ⟨e, he⟩
      have hstep : s.step lab = (s.sys.step lab).map fun sys ↦ { s with sys := sys } := by
        cases lab with
        | main e => exact absurd rfl (hother e)
        | _ => rfl
      rw [hstep, hreal.eq, System.step_withList _ _ hother]
      cases hsys : s.sys.step lab with
      | none => exact .none
      | some sys' =>
        have hclients : a.clients = s.sys.clients := by rw [hreal.eq]; rfl
        obtain ⟨hnext, hfreed⟩ := System.step_clients hother hsys
        rw [← hclients] at hnext hfreed
        exact .some ⟨rfl, hreal.represents, hreal.next.trans hnext.symm,
          hreal.freed.trans hfreed.symm⟩
  revert hrel
  cases s.step lab <;> cases hstep : a.step lab <;> intro hrel
  · exact .none
  · cases hrel
  · cases hrel
  · cases hrel with
    | some hrel => exact .some ⟨hrel, h.shared.step hstep, h.listed.step h.shared hc hstep⟩

theorem related_init (build : Build) : Related build (init build) (.init build) :=
  ⟨realizes_init build, System.shared_init build, System.listed_init build⟩

omit [Platform] in
/-- When `pthread_create` fails, the client that was freed is linked into the queue. -/
theorem startClientProcessing_noThread (s : LinkedServer) (peerFd : ℕ) :
    (s.startClientProcessing peerFd true true false).sys.halted
      = some (.bug (.notAllocated s.clients.entries.next)) := by
  have hlive : ¬ (s.clients.alloc.free s.clients.entries.next).entries.Live
      s.clients.entries.next := fun hl ↦ (Heap.live_free.1 hl).1 rfl
  simp only [startClientProcessing, Bool.not_true, Bool.false_eq_true, if_false,
    Tailq.insertTail_of_not_live hlive, halt]

theorem Realizes.noThread (h : s.Realizes a)
    (hstep : s.step (.main (.accept true true false)) = some t) :
    t.sys.halted = some (.bug (.notAllocated a.clients.next)) := by
  obtain ⟨⟨store, lock, clients, list, fds, files, main, running, halted, log, evicted⟩, q⟩ := s
  simp only [LinkedServer.step] at hstep
  split at hstep
  · cases main with
    | accept =>
      cases hstep
      rw [← h.next]
      exact startClientProcessing_noThread _ _
    | _ => cases hstep
  · cases hstep

/-- **The pointers make the list.**  On every schedule in which `pthread_create` works, whatever
else fails, the server that links its clients through the queue in memory does step by step what
the server with a list does: the same steps are possible, and the state is the same, with the
clients that `TAILQ_FOREACH` finds as the list.  In every state the queue's clients are those in
memory, so `join_completed_clients`, which frees clients while it goes along, follows no pointer to
a freed one.  If `pthread_create` fails next, the step writes to the client it has just freed. -/
theorem linked_exec {ls : List Label} (hcreate : .main (.accept true true false) ∉ ls) :
    (Machine.exec LinkedServer.step (init build) ls).map toSystem
      = Machine.exec System.step (.init build) ls ∧
    ∀ s, Machine.exec LinkedServer.step (init build) ls = some s →
      (∃ l, s.clients.foreach = .ok l ∧ ∀ i, i ∈ l ↔ s.sys.clients.Live i) ∧
      ∀ t, s.step (.main (.accept true true false)) = some t →
        t.sys.halted = some (.bug (.notAllocated s.sys.clients.next)) := by
  have hrel : Option.Rel (Related build) (Machine.exec LinkedServer.step (init build) ls)
      (Machine.exec System.step (.init build) ls) :=
    Machine.exec_rel (P := (· ≠ .main (.accept true true false))) (fun _ _ _ h hl ↦ h.step hl)
      (related_init build) fun l hl ↦ by rintro rfl; exact hcreate hl
  revert hrel
  cases Machine.exec LinkedServer.step (init build) ls <;>
    cases Machine.exec System.step (.init build) ls <;> intro hrel
  · exact ⟨rfl, by simp⟩
  · cases hrel
  · cases hrel
  · rename_i s a
    cases hrel with
    | some hrel =>
      have hreal := hrel.realizes
      have hclients : a.clients = s.sys.clients := by rw [hreal.eq]; rfl
      refine ⟨congrArg some hreal.toSystem_eq, ?_⟩
      rintro _ ⟨⟩
      rw [← hclients]
      exact ⟨⟨a.list, hreal.represents.foreach, fun i ↦ hrel.listed.mem⟩,
        fun t hstep ↦ hreal.noThread hstep⟩

end Runs

attribute [local instance] linux64 in
/-- Four connections, and the signal; then one for which no thread can be made. -/
theorem linked_exec_serving :
    (Machine.exec LinkedServer.step (init .device) System.serving).map toSystem
      = Machine.exec System.step (.init .device) System.serving ∧
    (Machine.exec LinkedServer.step (init .device) System.serving).isSome ∧
    ((Machine.exec LinkedServer.step (init .device) [.main .test]).bind fun s ↦
      (s.step (.main (.accept true true false))).map fun t ↦ t.sys.halted)
        = some (some (.bug (.notAllocated 0))) :=
  ⟨(linked_exec (by decide)).1, by decide +kernel, by decide +kernel⟩

end LinkedServer

end Aesd
