import Aesd.Lib.Owners
import Aesd.Server.Table

/-!
# Descriptors and files

Who has to close what: `System.Owning`, the invariant of the whole server as far as the clients'
memory, the descriptors and the files are concerned.  A descriptor is owned by its client from
`accept` until the thread closes it or, if it was cancelled before, the thread that joins it; a file
until the client is joined.  Nothing else is open, and nothing is closed twice.

A client that could not be started owns no descriptor.  Its file, if it was opened, stays with it:
nobody closes it.
-/

set_option autoImplicit false

namespace Aesd

/-- The thread was made and is not joined. -/
def ThreadState.started : ThreadState → Bool
  | .running | .ended => true
  | _ => false

theorem Pc.cancellation_closed {pc : Pc} (h : pc.cancellation = true) : pc.closed = false := by
  cases pc <;> first | rfl | exact absurd h (by decide)

namespace Client

/-- The descriptor that is to be closed for the client. -/
def openFd (c : Client) : Option ℕ :=
  if c.thread.started = true ∧ c.session.pc.closed = false then some c.fd else none

/-- The file that is to be closed for the client. -/
def openFile (c : Client) : Option ℕ := if c.thread = .joined then none else c.file

/-- What a client keeps true. -/
structure Ok (c : Client) : Prop where
  /-- `peer_fd` is the descriptor until the mark. -/
  peer : c.thread.started = true → c.peerFd = if c.session.pc = .done then none else some c.fd
  /-- It has a file. -/
  file : c.thread ≠ .unstarted → c.file ≠ none
  /-- A thread ends with the mark, or where it can be cancelled. -/
  ended : c.thread = .ended ∨ c.thread = .joined →
    c.session.pc = .done ∨ c.session.pc.cancellation = true
  /-- With the mark it ends. -/
  running : c.thread = .running → c.session.pc ≠ .done
  /-- A thread that was not made did nothing. -/
  unstarted : c.thread = .unstarted → c.session.pc = .start
  /-- Whoever joins it frees its fragments. -/
  joined : c.thread = .joined → c.session.mem.Owns []

theorem openFd_of_not_started {c : Client} (h : c.thread.started = false) : c.openFd = none :=
  if_neg fun h' ↦ by rw [h] at h'; cases h'.1

theorem Ok.no_fault {c : Client} (h : c.Ok) (hend : c.thread = .ended) (bug : Bug) :
    c.session.pc ≠ .fault bug := by
  intro hpc
  have hended := h.ended (Or.inl hend)
  rw [hpc] at hended
  rcases hended with hended | hended <;> cases hended

theorem ok_fresh (fd : ℕ) (file : Option ℕ) (thread : ThreadState)
    (ht : thread = .unstarted ∨ thread = .running) (hf : thread ≠ .unstarted → file ≠ none) :
    (fresh fd file thread).Ok where
  peer _ := rfl
  file := hf
  ended h := by rcases ht with rfl | rfl <;> rcases h with h | h <;> cases h
  running _ h := by cases h
  unstarted _ := rfl
  joined _ := Heap.owns_empty

end Client

namespace System

/-- **Who owns what.** -/
structure Owning (s : System) : Prop where
  /-- No client is freed twice. -/
  sound : s.clients.Sound
  /-- The clients in memory are those whose thread was made and is not joined. -/
  live : ∀ i, s.clients.Live i ↔ ∃ c, s.clients.cells[i]? = some c ∧ c.thread.started = true
  /-- What a client keeps true. -/
  ok : ∀ c ∈ s.clients.cells, c.Ok
  /-- The open descriptors, each with its owner. -/
  fds : s.fds.Owns (s.clients.cells.filterMap Client.openFd)
  /-- The open files, each with its owner. -/
  files : s.files.Owns (s.clients.cells.filterMap Client.openFile)
  /-- No two clients ever had the same descriptor. -/
  fd : (s.clients.cells.map Client.fd).Nodup ∧ ∀ c ∈ s.clients.cells, c.fd < s.fds.next
  /-- No two clients ever had the same file. -/
  file : (s.clients.cells.filterMap Client.file).Nodup ∧
    ∀ c ∈ s.clients.cells, ∀ f, c.file = some f → f < s.files.next

theorem owning_init [Platform] (b : Build) : (init b).Owning where
  sound := Heap.sound_empty
  live i := by simp [init, Heap.Live, Heap.empty, Heap.next]
  ok c h := by simp [init, Heap.empty] at h
  fds := Heap.owns_empty
  files := Heap.owns_empty
  fd := ⟨by simp [init, Heap.empty], by simp [init, Heap.empty]⟩
  file := ⟨by simp [init, Heap.empty], by simp [init, Heap.empty]⟩

variable {s t : System} {i : ℕ} {c c' : Client}

theorem cells_of_get? {clients : Heap Client} (h : clients.get? i = some c) :
    clients.cells[i]? = some c := by
  rw [Heap.get?] at h
  split at h
  · cases h
  · exact h

/-- A client changes, whatever it owns then. -/
theorem Owning.update (h : s.Owning) (hget : s.clients.get? i = some c)
    (hcells : t.clients.cells = s.clients.cells.set i c') (hsound : t.clients.Sound)
    (hlive : ∀ j, t.clients.Live j ↔ s.clients.Live j ∧ (j = i → c'.thread.started = true))
    (hok : c'.Ok) (hfd : c'.fd = c.fd) (hfile : c'.file = c.file)
    (hfds : t.fds.Owns ((s.clients.cells.set i c').filterMap Client.openFd))
    (hnext : t.fds.next = s.fds.next)
    (hfiles : t.files.Owns ((s.clients.cells.set i c').filterMap Client.openFile))
    (hnext' : t.files.next = s.files.next) : t.Owning := by
  have hcell := cells_of_get? hget
  have hmem : c ∈ s.clients.cells := List.mem_of_getElem? hcell
  have hof : ∀ x ∈ t.clients.cells, x ∈ s.clients.cells ∨ x = c' := by
    intro x hx
    rw [hcells] at hx
    exact List.mem_or_eq_of_mem_set hx
  refine ⟨hsound, fun j ↦ ?_, fun x hx ↦ ?_, hcells ▸ hfds, hcells ▸ hfiles,
    ⟨?_, fun x hx ↦ ?_⟩, ⟨?_, fun x hx ↦ ?_⟩⟩
  · rw [hlive, h.live, hcells]
    by_cases hj : j = i
    · subst hj
      have hlt := (List.getElem?_eq_some_iff.1 hcell).1
      have hstarted := (h.live j).1 (Heap.live_of_get? hget)
      rw [List.getElem?_set_self hlt]
      simp [hstarted]
    · rw [List.getElem?_set_ne (Ne.symm hj)]
      simp [hj]
  · rcases hof x hx with hx | rfl
    · exact h.ok x hx
    · exact hok
  · rw [hcells, Owners.map_set hcell hfd]
    exact h.fd.1
  · rw [hnext]
    rcases hof x hx with hx | rfl
    · exact h.fd.2 x hx
    · rw [hfd]
      exact h.fd.2 c hmem
  · rw [hcells, Owners.filterMap_set hcell hfile]
    exact h.file.1
  · rw [hnext']
    rcases hof x hx with hx | rfl
    · exact h.file.2 x hx
    · rw [hfile]
      exact h.file.2 c hmem

/-- A client changes that stays started and owns what it owned. -/
theorem Owning.set (h : s.Owning) (hget : s.clients.get? i = some c)
    (hc : t.clients = s.clients.set i c') (hfds : t.fds = s.fds) (hfiles : t.files = s.files)
    (hok : c'.Ok) (hstarted : c'.thread.started = true) (hfd : c'.fd = c.fd)
    (hfile : c'.file = c.file) (hopenFd : c'.openFd = c.openFd)
    (hopenFile : c'.openFile = c.openFile) : t.Owning := by
  have hcell := cells_of_get? hget
  refine h.update hget (by rw [hc]; rfl) (hc ▸ h.sound.set i c') (fun j ↦ ?_) hok hfd hfile ?_
    (by rw [hfds]) ?_ (by rw [hfiles])
  · rw [hc, Heap.live_set]
    exact (and_iff_left fun _ ↦ hstarted).symm
  · rw [hfds, Owners.filterMap_set hcell hopenFd]
    exact h.fds
  · rw [hfiles, Owners.filterMap_set hcell hopenFile]
    exact h.files

/-- A client is added, with a new descriptor. -/
theorem Owning.add (h : s.Owning) {fds : Heap Unit} {files : Heap Unit} {clients : Heap Client}
    (hfd : c.fd = s.fds.next) (hok : c.Ok) (hcells : clients.cells = s.clients.cells ++ [c])
    (hsound : clients.Sound) (hlive : ∀ j, clients.Live j ↔
      s.clients.Live j ∨ j = s.clients.next ∧ c.thread.started = true)
    (hfds : fds.Owns ((s.clients.cells ++ [c]).filterMap Client.openFd))
    (hnext : fds.next = s.fds.next + 1)
    (hfiles : files.Owns ((s.clients.cells ++ [c]).filterMap Client.openFile))
    (hfile : c.file = none ∧ files.next = s.files.next ∨
      c.file = some s.files.next ∧ files.next = s.files.next + 1)
    (ht : t.clients = clients ∧ t.fds = fds ∧ t.files = files) : t.Owning := by
  obtain ⟨rfl, rfl, rfl⟩ := ht
  have hof : ∀ x ∈ t.clients.cells, x ∈ s.clients.cells ∨ x = c := by
    intro x hx
    rw [hcells] at hx
    simpa using hx
  have hle : s.files.next ≤ t.files.next := by
    rcases hfile with ⟨-, h⟩ | ⟨-, h⟩ <;> omega
  refine ⟨hsound, fun j ↦ ?_, fun x hx ↦ ?_, hcells ▸ hfds, hcells ▸ hfiles,
    ⟨?_, fun x hx ↦ ?_⟩, ⟨?_, fun x hx f hf ↦ ?_⟩⟩
  · rw [hlive, h.live, hcells, Heap.next]
    rcases Nat.lt_trichotomy j s.clients.cells.length with hj | rfl | hj
    · rw [List.getElem?_append_left hj]
      simp [hj.ne]
    · simp
    · rw [List.getElem?_append_right hj.le]
      have h1 : s.clients.cells[j]? = none := List.getElem?_eq_none hj.le
      have h2 : [c][j - s.clients.cells.length]? = none := List.getElem?_eq_none (by simp; omega)
      simp [h1, h2, hj.ne']
  · rcases hof x hx with hx | rfl
    · exact h.ok x hx
    · exact hok
  · rw [hcells, List.map_append, List.nodup_append]
    refine ⟨h.fd.1, List.nodup_singleton _, ?_⟩
    rintro a ha b hb rfl
    obtain ⟨x, hx, rfl⟩ := List.mem_map.1 ha
    have hb : x.fd = c.fd := by simpa using hb
    have := h.fd.2 x hx
    omega
  · rw [hnext]
    rcases hof x hx with hx | rfl
    · exact (h.fd.2 x hx).trans (Nat.lt_succ_self _)
    · rw [hfd]
      exact Nat.lt_succ_self _
  · rw [hcells, List.filterMap_append, List.nodup_append]
    rcases hfile with ⟨hnone, -⟩ | ⟨hsome, -⟩
    · simp [hnone, h.file.1]
    · refine ⟨h.file.1, by simp [hsome], ?_⟩
      rintro a ha b hb rfl
      obtain ⟨x, hx, hxa⟩ := List.mem_filterMap.1 ha
      have hb : a = s.files.next := by simpa [hsome, eq_comm] using hb
      have := h.file.2 x hx a hxa
      omega
  · rcases hof x hx with hx | rfl
    · exact (h.file.2 x hx f hf).trans_le hle
    · rcases hfile with ⟨hnone, -⟩ | ⟨hsome, hn⟩
      · rw [hnone] at hf
        cases hf
      · rw [hsome] at hf
        cases hf
        omega

/-- Nothing changes that is owned. -/
theorem Owning.same (h : s.Owning) (hc : t.clients = s.clients) (hfds : t.fds = s.fds)
    (hfiles : t.files = s.files) : t.Owning where
  sound := hc ▸ h.sound
  live := hc ▸ h.live
  ok := hc ▸ h.ok
  fds := by rw [hc, hfds]; exact h.fds
  files := by rw [hc, hfiles]; exact h.files
  fd := by rw [hc, hfds]; exact h.fd
  file := by rw [hc, hfiles]; exact h.file

/-! ## Every step -/

theorem Owning.started (h : s.Owning) (hget : s.clients.get? i = some c) :
    c.thread.started = true := by
  obtain ⟨d, hd, hstarted⟩ := (h.live i).1 (Heap.live_of_get? hget)
  rw [cells_of_get? hget] at hd
  exact Option.some_inj.1 hd ▸ hstarted

theorem Owning.ok_of_get? (h : s.Owning) (hget : s.clients.get? i = some c) : c.Ok :=
  h.ok c (List.mem_of_getElem? (cells_of_get? hget))

section Threads

variable [Platform] {build : Build} {s' : System} {te : ThreadEvent} {event : Event} {u : Session}
  {l : Label}

/-- A thread's step: it owns its descriptor until `close`. -/
theorem Owning.moves (h : s.Owning) (hs : s.Shared build) (hm : s.Moves i te t c event s' u) :
    t.Owning := by
  have hok := h.ok_of_get? hm.get
  have hcell := cells_of_get? hm.get
  have hrun := hm.running
  have hstarted : c.thread.started = true := by rw [hrun]; rfl
  have hended : ¬ (c.thread = .ended ∨ c.thread = .joined) := by rw [hrun]; simp
  have hjoined : c.thread ≠ .joined := by rw [hrun]; simp
  have hunstarted : c.thread ≠ .unstarted := by rw [hrun]; simp
  have hpc := hm.pc_eq.1
  have hstep := (Session.step_eq_some.1 hm.step).2.2
  have hclients := hm.clients
  have hdone : c.session.pc ≠ .done := by rw [hpc]; cases event <;> simp [Event.pc]
  have hpeer : c.peerFd = some c.fd := by rw [hok.peer hstarted, if_neg hdone]
  have hopen : c.session.pc.closed = false → c.openFd = some c.fd := fun hc ↦ if_pos ⟨hstarted, hc⟩
  obtain ⟨hfiles, -, -, hfds⟩ := hm.resources
  by_cases hclose : event = .close
  · subst hclose
    have hu : u.pc = .mark := by rw [hstep]; rfl
    obtain ⟨hne, -⟩ | ⟨-, hfds⟩ := hfds
    · exact absurd rfl hne
    rw [hpeer] at hfds
    have hafter : c.after u = { c with session := u } := if_neg (by simp [hu])
    rw [hafter] at hclients
    refine h.update hm.get (congrArg Heap.cells hclients) (hclients ▸ h.sound.set i _) (fun j ↦ ?_)
      ⟨fun _ ↦ ?_, hok.file, fun he ↦ absurd he hended, fun _ ↦ by simp [hu],
        fun he ↦ absurd he hunstarted, fun he ↦ absurd he hjoined⟩ rfl rfl ?_ (by rw [hfds]; rfl) ?_
      (by rw [hfiles])
    · rw [hclients, Heap.live_set]
      exact (and_iff_left fun _ ↦ hstarted).symm
    · rw [if_neg (by simp [hu])]
      exact hpeer
    · rw [hfds]
      exact Owners.owns_set_free h.fds hcell (hopen (by rw [hpc]; rfl))
        (by simp [Client.openFd, hu, Pc.closed])
    · rw [hfiles, Owners.filterMap_set hcell]
      · exact h.files
      · rfl
  replace hfds : t.fds = s.fds := hfds.elim And.right fun h' ↦ absurd h'.1 hclose
  by_cases hmark : event = .mark
  · subst hmark
    have hu : u.pc = .done := by rw [hstep]; rfl
    have hafter : c.after u = { c with session := u, peerFd := none, thread := .ended } := if_pos hu
    rw [hafter] at hclients
    refine h.set hm.get hclients hfds hfiles ⟨fun _ ↦ (if_pos hu).symm, fun _ ↦ hok.file hunstarted,
      fun _ ↦ Or.inl hu, by simp, by simp, by simp⟩ rfl rfl rfl ?_ ?_
    · simp [Client.openFd, hu, hpc, Event.pc, Pc.closed]
    · simp [Client.openFile, hrun]
  · have hclosed : c.session.pc.closed = false := by
      rw [hpc]
      cases event <;> first | rfl | exact absurd rfl hclose | exact absurd rfl hmark
    have hu : u.pc.closed = false :=
      ((hs.turn hm).closed.resolve_right fun h' ↦ h'.elim (fun x ↦ hclose x.1) fun x ↦ hmark x.1)
    have hne : u.pc ≠ .done := by
      intro hd
      rw [hd] at hu
      cases hu
    have hafter : c.after u = { c with session := u } := if_neg hne
    rw [hafter] at hclients
    refine h.set hm.get hclients hfds hfiles ⟨fun _ ↦ ?_, hok.file, fun he ↦ absurd he hended,
      fun _ ↦ hne, fun he ↦ absurd he hunstarted, fun he ↦ absurd he hjoined⟩ hstarted rfl rfl ?_
      rfl
    · rw [if_neg hne]
      exact hpeer
    · rw [hopen hclosed]
      exact if_pos ⟨hstarted, hu⟩

end Threads

/-- A client's thread ends where it is. -/
theorem Owning.cancel (h : s.Owning) (hget : s.clients.get? i = some c) (hrun : c.thread = .running)
    (hpc : c.session.pc.cancellation = true) :
    Owning { s with clients := s.clients.set i { c with thread := .ended } } := by
  have hok := h.ok_of_get? hget
  have hstarted : c.thread.started = true := by rw [hrun]; rfl
  refine h.set hget rfl rfl rfl ⟨fun _ ↦ hok.peer hstarted, fun _ ↦ hok.file (by simp [hrun]),
    fun _ ↦ Or.inr hpc, by simp, by simp, by simp⟩ rfl rfl rfl ?_ ?_
  · simp [Client.openFd, hrun, ThreadState.started]
  · simp [Client.openFile, hrun]

/-- A client changes in what is only looked at elsewhere. -/
theorem Owning.flags (h : s.Owning) (hget : s.clients.get? i = some c) (cancelled hungUp : Bool)
    (hfds : t.fds = s.fds) (hfiles : t.files = s.files) (hclients : t.clients = s.clients.set i
      { c with cancelled := cancelled, hungUp := hungUp }) : t.Owning := by
  have hok := h.ok_of_get? hget
  have hstarted := h.started hget
  exact h.set hget hclients hfds hfiles ⟨hok.peer, hok.file, hok.ended, hok.running, hok.unstarted,
    hok.joined⟩ hstarted rfl rfl rfl rfl

/-- A client is joined, and what it left is released. -/
theorem Owning.join (h : s.Owning) (hget : s.clients.get? i = some c) (hend : c.thread = .ended)
    (hjoined : c'.thread = .joined) (hfd : c'.fd = c.fd) (hfile : c'.file = c.file)
    (hfds : t.fds = match c.peerFd with
      | some fd => s.fds.free fd
      | none => s.fds)
    (hfiles : t.files = match c.file with
      | some file => s.files.free file
      | none => s.files)
    (hclients : t.clients = (s.clients.set i c').free i) (hmem : c'.session.mem.Owns [])
    (hpc : c'.session.pc = c.session.pc) : t.Owning := by
  have hok := h.ok_of_get? hget
  have hcell := cells_of_get? hget
  have hstarted : c.thread.started = true := by rw [hend]; rfl
  have hstarted' : c'.thread.started = false := by rw [hjoined]; rfl
  have hpeer := hok.peer hstarted
  have hopen' : c'.openFd = none := Client.openFd_of_not_started hstarted'
  have hfile' : c'.openFile = none := if_pos hjoined
  obtain ⟨file, hsome⟩ := Option.ne_none_iff_exists'.1 (hok.file (by simp [hend]))
  have hopen : c.openFile = some file := by simp [Client.openFile, hend, hsome]
  have hclosed : c.session.pc.closed = true ↔ c.session.pc = .done := by
    refine ⟨fun hc ↦ ?_, fun hd ↦ by rw [hd]; rfl⟩
    refine (hok.ended (Or.inl hend)).resolve_right fun hcancel ↦ ?_
    rw [Pc.cancellation_closed hcancel] at hc
    cases hc
  rw [hsome] at hfiles
  refine h.update hget (congrArg Heap.cells hclients)
    (hclients ▸ (h.sound.set i _).free (by simpa using Heap.live_of_get? hget)) (fun j ↦ ?_)
    ⟨by simp [hstarted'], fun _ ↦ by simp [hfile, hsome], fun _ ↦ hpc ▸ hok.ended (Or.inl hend),
      by simp [hjoined], by simp [hjoined], fun _ ↦ hmem⟩ hfd hfile ?_ ?_ ?_ ?_
  · rw [hclients, Heap.live_free, Heap.live_set, and_comm, hstarted']
    simp
  · by_cases hdone : c.session.pc = .done
    · rw [if_pos hdone] at hpeer
      rw [hpeer] at hfds
      rw [hfds, Owners.filterMap_set hcell]
      · exact h.fds
      · rw [hopen', Client.openFd, if_neg]
        rw [hclosed.2 hdone]
        simp
    · rw [if_neg hdone] at hpeer
      rw [hpeer] at hfds
      rw [hfds]
      refine Owners.owns_set_free h.fds hcell (if_pos ⟨hstarted, ?_⟩) hopen'
      rw [← Bool.not_eq_true, hclosed]
      exact hdone
  · rw [hfds]
    cases c.peerFd <;> rfl
  · rw [hfiles]
    exact Owners.owns_set_free h.files hcell hopen hfile'
  · rw [hfiles]
    rfl

section Run

variable [Platform] {build : Build} {l : Label}

/-- The main thread's step. -/
theorem Owning.mainMove (h : s.Owning) (hs : s.Shared build) {e : MainEvent}
    (hm : s.MainMove e t) : t.Owning := by
  have hnext := h.sound.next_notMem
  have hlive : ∀ (c : Client) (j : ℕ), c.thread.started = false →
      (((s.clients.alloc c).free s.clients.next).Live j ↔
        s.clients.Live j ∨ j = s.clients.next ∧ c.thread.started = true) := by
    intro c j hc
    rw [Heap.live_free, Heap.live_alloc hnext, hc]
    refine ⟨fun h' ↦ Or.inl (h'.2.resolve_left h'.1), fun h' ↦ ?_⟩
    have h' := h'.resolve_right (by simp)
    exact ⟨h'.1.ne, Or.inr h'⟩
  have hsound : ∀ c : Client, ((s.clients.alloc c).free s.clients.next).Sound := fun c ↦
    (h.sound.alloc c).free ((Heap.live_alloc hnext).2 (Or.inl rfl))
  cases hm with
  | noMalloc hmain f c =>
    have hfds := Owners.owns_alloc_free h.fds ()
    exact ⟨h.sound, h.live, h.ok, hfds, h.files,
      ⟨h.fd.1, fun c hc ↦ (h.fd.2 c hc).trans (by simp)⟩, h.file⟩
  | noFile hmain c =>
    refine h.add rfl (Client.ok_fresh _ _ _ (Or.inl rfl) (by simp)) rfl
      (hsound _) (fun j ↦ hlive _ j rfl) ?_ (by simp) ?_ (Or.inl ⟨rfl, rfl⟩) ⟨rfl, rfl, rfl⟩
    · exact Owners.owns_append_none (Owners.owns_alloc_free h.fds ())
        (Client.openFd_of_not_started rfl)
    · exact Owners.owns_append_none h.files rfl
  | noThread hmain =>
    refine h.add rfl (Client.ok_fresh _ _ _ (Or.inl rfl) (by simp)) rfl
      (hsound _) (fun j ↦ hlive _ j rfl) ?_ (by simp) ?_ (Or.inr ⟨rfl, by simp⟩) ⟨rfl, rfl, rfl⟩
    · exact Owners.owns_append_none (Owners.owns_alloc_free h.fds ())
        (Client.openFd_of_not_started rfl)
    · exact Owners.owns_append_alloc h.files () rfl
  | start hmain =>
    refine h.add rfl (Client.ok_fresh _ _ _ (Or.inr rfl) (by simp)) rfl
      (h.sound.alloc _) (fun j ↦ ?_) ?_ (by simp) ?_ (Or.inr ⟨rfl, by simp⟩) ⟨rfl, rfl, rfl⟩
    · rw [Heap.live_alloc hnext, or_comm]
      simp [Client.fresh, ThreadState.started]
    · exact Owners.owns_append_alloc h.fds () rfl
    · exact Owners.owns_append_alloc h.files () rfl
  | cancel hmain hget => exact h.flags hget true _ rfl rfl rfl
  | join hmain hget hend hfree =>
    obtain ⟨l, hchain, howns⟩ := (hs.live _ _ hget).chain ((h.ok_of_get? hget).no_fault hend)
    obtain ⟨mem', heq, hmem, -⟩ := packetFragmentsFree_eq hchain howns
    obtain rfl := Except.ok.inj (hfree.symm.trans heq)
    exact h.join hget hend (by rfl) (by rfl) (by rfl) rfl rfl rfl hmem rfl
  | _ => exact h.same rfl rfl rfl

/-- **Every step of the server keeps track of who owns what.** -/
theorem Owning.step (h : s.Owning) (hs : s.Shared build) (hstep : s.step l = some t) :
    t.Owning := by
  cases (step_transition hstep).2 with
  | main hm => exact h.mainMove hs hm
  | thread hm => exact h.moves hs hm
  | bug hget hout => exact absurd hout (hs.outside_ne_error hget)
  | cancel hget hrun _ hpc => exact h.cancel hget hrun hpc
  | hangup hget => exact h.flags hget _ true rfl rfl rfl
  | signal => exact h.same rfl rfl rfl

/-- It holds in every state of every run. -/
theorem owning_reachable {ok : System → Label → Prop}
    (h : Machine.Reachable step ok (init build) s) : s.Owning :=
  (h.invariant (P := fun s ↦ s.Shared build ∧ s.Owning)
    (fun _ _ _ hs _ hstep ↦ ⟨hs.1.step hstep, hs.2.step hs.1 hstep⟩)
    ⟨shared_init build, owning_init build⟩).2

end Run

/-! ## What nobody owns any more -/

/-- A client's descriptor that is not to be closed any more was closed, once. -/
theorem Owning.fd_closed (h : s.Owning) (hc : s.clients.cells[i]? = some c)
    (hopen : c.openFd = none) : s.fds.freed.count c.fd = 1 := by
  refine List.count_eq_one_of_mem h.fds.sound.nodup ?_
  refine (h.fds.mem_or_freed (h.fd.2 c (List.mem_of_getElem? hc))).resolve_left fun hmem ↦ ?_
  obtain ⟨d, hd, hfd⟩ := List.mem_filterMap.1 hmem
  have heq : d.fd = c.fd := by
    rw [Client.openFd] at hfd
    split at hfd
    · exact Option.some_inj.1 hfd
    · cases hfd
  rw [List.inj_on_of_nodup_map h.fd.1 hd (List.mem_of_getElem? hc) heq, hopen] at hfd
  cases hfd

/-- And so with its file. -/
theorem Owning.file_closed (h : s.Owning) (hc : s.clients.cells[i]? = some c)
    (hopen : c.openFile = none) {file : ℕ} (hfile : c.file = some file) :
    s.files.freed.count file = 1 := by
  have hmem := List.mem_of_getElem? hc
  refine List.count_eq_one_of_mem h.files.sound.nodup ?_
  refine (h.files.mem_or_freed (h.file.2 c hmem file hfile)).resolve_left fun hfree ↦ ?_
  obtain ⟨d, hd, hdfile⟩ := List.mem_filterMap.1 hfree
  have heq : d.file = some file := by
    rw [Client.openFile] at hdfile
    split at hdfile
    · cases hdfile
    · exact hdfile
  obtain ⟨j, hj⟩ := List.mem_iff_getElem?.1 hd
  rw [Owners.eq_of_filterMap_nodup h.file.1 hj hc heq hfile] at hj
  rw [Option.some_inj.1 (hj.symm.trans hc), hopen] at hdfile
  cases hdfile

end System

end Aesd
