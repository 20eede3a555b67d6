import Aesd.Server.Resources

/-!
# The list of clients

`run_server_logic` keeps its clients in a list, to which `start_client_processing` adds and from
which `join_completed_clients` removes while it goes along it.  As long as `pthread_create` does not
fail, the list is that of the clients in memory, in the order they were accepted, and each of them
has a thread to be joined (`System.clients_listed`).  When `pthread_create` fails the branch does
not return: the client is freed, and its name is put into the list (`System.create_failure`).
-/

set_option autoImplicit false

namespace Aesd

namespace System

/-- `pthread_create` does not fail. -/
def CreateOk (_ : System) (l : Label) : Prop := l ≠ .main (.accept true true false)

instance (s : System) : DecidablePred s.CreateOk := fun _ ↦ inferInstanceAs (Decidable (_ ≠ _))

/-! ## Going along the list -/

section Cursor

variable {kept rest : List ℕ} {i : ℕ}

theorem tailqNext_eq (h : i ∉ kept) : tailqNext (kept ++ i :: rest) i = rest.head? := by
  have hdrop : (kept ++ i :: rest).dropWhile (· ≠ i) = i :: rest := by
    rw [List.dropWhile_append_of_pos fun j hj ↦ by simpa using ne_of_mem_of_not_mem hj h]
    simp
  rw [tailqNext, hdrop, List.tail_cons]

theorem erase_eq (h : i ∉ kept) : (kept ++ i :: rest).erase i = kept ++ rest := by
  rw [List.erase_append_right _ h, List.erase_cons_head]

end Cursor

/-- Where the main thread is in the list; when it cancels, it has removed all the clients before. -/
def Cursor (list : List ℕ) : MainPc → Prop
  | .visit client cancel =>
    ∃ kept todo, list = kept ++ todo ∧ client = todo.head? ∧ (cancel = true → kept = [])
  | .join i next cancel =>
    ∃ kept rest, list = kept ++ i :: rest ∧ next = rest.head? ∧ (cancel = true → kept = [])
  | .exit => list = []
  | _ => True

/-- At a client of the list. -/
theorem Cursor.visit_some {list : List ℕ} {i : ℕ} {cancel : Bool} (hn : list.Nodup)
    (h : Cursor list (.visit (some i) cancel)) : ∃ kept rest, list = kept ++ i :: rest ∧ i ∉ kept ∧
      tailqNext list i = rest.head? ∧ (cancel = true → kept = []) := by
  obtain ⟨kept, todo, rfl, hhead, hcancel⟩ := h
  obtain ⟨rest, rfl⟩ := List.head?_eq_some_iff.1 hhead.symm
  have hnot : i ∉ kept := fun hi ↦
    (List.nodup_append.1 hn).2.2 i hi i (List.mem_cons_self ..) rfl
  exact ⟨kept, rest, rfl, hnot, tailqNext_eq hnot, hcancel⟩

/-- **What the main thread keeps true of its list.** -/
structure Listed (s : System) : Prop where
  /-- The list is that of the clients in memory. -/
  list : s.list = s.clients.liveList
  /-- A client that could not be started has no file. -/
  unstarted : ∀ (i : ℕ) (c : Client), s.clients.cells[i]? = some c → c.thread = .unstarted →
    c.file = none
  /-- Where the main thread is. -/
  cursor : Cursor s.list s.main

section List

variable [Platform] {build : Build} {s t : System} {i : ℕ} {c : Client} {e : MainEvent} {l : Label}

omit [Platform] in
theorem listed_init (b : Build) : (init b).Listed where
  list := rfl
  unstarted _ _ h := by cases h
  cursor := trivial

omit [Platform] in
theorem Listed.nodup (h : s.Listed) : s.list.Nodup := h.list ▸ s.clients.nodup_liveList

omit [Platform] in
theorem Listed.mem (h : s.Listed) : i ∈ s.list ↔ s.clients.Live i := by
  rw [h.list, Heap.mem_liveList]

/-- A step of the main thread, or one that leaves it and its list alone. -/
theorem step_main_cases (hs : s.Shared build) (hstep : s.step l = some t) :
    (∃ e, l = .main e ∧ s.MainMove e t) ∨
      t.main = s.main ∧ t.list = s.list ∧ t.clients.liveList = s.clients.liveList ∧
        t.clients.next = s.clients.next := by
  cases (step_transition hstep).2 with
  | main hm => exact Or.inl ⟨_, rfl, hm⟩
  | thread hm =>
    obtain ⟨-, hlist, hmain, -⟩ := hm.resources
    exact Or.inr ⟨hmain, hlist, by rw [hm.clients, Heap.liveList_set],
      by rw [hm.clients, Heap.next_set]⟩
  | bug hget hout => exact absurd hout (hs.outside_ne_error hget)
  | cancel => exact Or.inr ⟨rfl, rfl, Heap.liveList_set, Heap.next_set⟩
  | hangup => exact Or.inr ⟨rfl, rfl, Heap.liveList_set, Heap.next_set⟩
  | signal => exact Or.inr ⟨rfl, rfl, rfl, rfl⟩

omit [Platform] in
/-- The main thread's step keeps the list right. -/
theorem Listed.mainMove (h : s.Listed) (hsound : s.clients.Sound) (hl : s.CreateOk (.main e))
    (hm : s.MainMove e t) : t.list = t.clients.liveList ∧ Cursor t.list t.main := by
  have hcursor := h.cursor
  have hnext := hsound.next_notMem
  cases hm with
  | go hmain hrun => exact ⟨h.list, trivial⟩
  | stop hmain hrun => exact ⟨h.list, [], s.list, rfl, rfl, fun _ ↦ rfl⟩
  | refuse hmain => exact ⟨h.list, trivial⟩
  | noMalloc hmain f c => exact ⟨h.list, [], s.list, rfl, rfl, fun _ ↦ rfl⟩
  | noFile hmain c =>
    exact ⟨by rw [Heap.liveList_alloc_free hnext, h.list], [], s.list, rfl, rfl, fun _ ↦ rfl⟩
  | noThread hmain => exact absurd rfl hl
  | start hmain =>
    exact ⟨by rw [Heap.liveList_alloc hnext, h.list], [], _, rfl, rfl, fun _ ↦ rfl⟩
  | last hmain => exact ⟨h.list, trivial⟩
  | exit hmain hlist => exact ⟨h.list, hlist⟩
  | pass hmain hget hpeer =>
    rw [hmain] at hcursor
    obtain ⟨kept, rest, hlist, hnot, htail, -⟩ := hcursor.visit_some h.nodup
    exact ⟨h.list, kept ++ [_], rest, by rw [hlist, List.append_assoc]; rfl, htail, by simp⟩
  | finished hmain hget hpeer =>
    rw [hmain] at hcursor
    obtain ⟨kept, rest, hlist, hnot, htail, hcancel⟩ := hcursor.visit_some h.nodup
    exact ⟨h.list, kept, rest, hlist, htail, hcancel⟩
  | cancel hmain hget =>
    rw [hmain] at hcursor
    obtain ⟨kept, rest, hlist, hnot, htail, hcancel⟩ := hcursor.visit_some h.nodup
    exact ⟨by rw [Heap.liveList_set, h.list], kept, rest, hlist, htail, hcancel⟩
  | join hmain hget hend hfree =>
    rw [hmain] at hcursor
    obtain ⟨kept, rest, hlist, hnext', hcancel⟩ := hcursor
    refine ⟨by rw [Heap.liveList_free, Heap.liveList_set, h.list], kept, rest, ?_, hnext', hcancel⟩
    rw [hlist, erase_eq]
    have hn := hlist ▸ h.nodup
    exact fun hi ↦ (List.nodup_append.1 hn).2.2 _ hi _ (List.mem_cons_self ..) rfl
  | _ => exact ⟨h.list, hcursor⟩

/-- Every step keeps it, while `pthread_create` works. -/
theorem Listed.step (h : s.Listed) (hs : s.Shared build) (hl : s.CreateOk l)
    (hstep : s.step l = some t) : t.Listed := by
  have hunstarted : ∀ (i : ℕ) (c : Client), t.clients.cells[i]? = some c → c.thread = .unstarted →
      c.file = none := by
    intro i d hd hthread
    cases step_becomes hs hstep hd with
    | same hd => exact h.unstarted i d hd hthread
    | fresh hj hnew hfile => exact (hfile hthread).resolve_right hl
    | moves hm =>
      rw [Client.after] at hthread
      split at hthread
      · cases hthread
      · have hrun : _ = ThreadState.unstarted := hthread
        rw [hm.running] at hrun
        cases hrun
    | cancel => cases hthread
    | hangup hget =>
      have hnone := h.unstarted i _ (cells_of_get? hget) hthread
      exact hnone
    | cancelled hget =>
      have hnone := h.unstarted i _ (cells_of_get? hget) hthread
      exact hnone
    | joined => cases hthread
  rcases step_main_cases hs hstep with ⟨e, rfl, hm⟩ | ⟨hmain, hlist, hlive, -⟩
  · obtain ⟨hlist, hcursor⟩ := h.mainMove hs.clients hl hm
    exact ⟨hlist, hunstarted, hcursor⟩
  · exact ⟨by rw [hlist, hlive, h.list], hunstarted, by rw [hlist, hmain]; exact h.cursor⟩

/-- The list is right in every state of every run in which `pthread_create` works. -/
theorem listed_reachable (h : Machine.Reachable System.step CreateOk (init build) s) : s.Listed :=
  (h.invariant (P := fun s ↦ s.Shared build ∧ s.Listed)
    (fun _ _ _ h' hl hstep ↦ ⟨h'.1.step hstep, h'.2.step h'.1 hl hstep⟩)
    ⟨shared_init build, listed_init build⟩).2

/-! ## One pass along the list -/

/-- A client stays in the table; once it has finished, or was joined, it stays so. -/
theorem cells_step (hs : s.Shared build) (hstep : s.step l = some t)
    (hc : s.clients.cells[i]? = some c) : ∃ d, t.clients.cells[i]? = some d ∧
      (c.peerFd = none → d.peerFd = none) ∧ (c.thread = .joined → d.thread = .joined) := by
  have hlt := (List.getElem?_eq_some_iff.1 hc).1
  have hle : s.clients.next ≤ t.clients.next := by
    rcases step_main_cases hs hstep with ⟨e, -, hm⟩ | ⟨-, -, -, hnext⟩
    · cases hm <;> simp
    · exact hnext.ge
  obtain ⟨d, hd⟩ : ∃ d, t.clients.cells[i]? = some d :=
    ⟨_, List.getElem?_eq_getElem (hlt.trans_le hle)⟩
  refine ⟨d, hd, ?_⟩
  have hsame : ∀ {c'}, s.clients.get? i = some c' → c' = c := fun hget ↦
    Option.some_inj.1 ((cells_of_get? hget).symm.trans hc)
  cases step_becomes hs hstep hd with
  | same hd =>
    obtain rfl := Option.some_inj.1 (hd.symm.trans hc)
    exact ⟨id, id⟩
  | fresh hj => exact absurd hlt (by rw [hj]; exact Nat.lt_irrefl _)
  | moves hm =>
    obtain rfl := hsame hm.get
    rw [Client.after]
    split
    · exact ⟨fun _ ↦ rfl, fun h' ↦ absurd (hm.running.symm.trans h') (by simp)⟩
    · exact ⟨id, id⟩
  | cancel hget hrun =>
    obtain rfl := hsame hget
    exact ⟨id, fun h' ↦ absurd (hrun.symm.trans h') (by simp)⟩
  | hangup hget => obtain rfl := hsame hget; exact ⟨id, id⟩
  | cancelled hget => obtain rfl := hsame hget; exact ⟨id, id⟩
  | joined hget => obtain rfl := hsame hget; exact ⟨id, fun _ ↦ rfl⟩

/-- A step during a pass. -/
def Passing (s : System) (l : Label) : Prop := s.CreateOk l ∧ l ≠ .main .test

/-- What a pass has done with the clients it has come by. -/
structure Sifted (s₀ s : System) (seen kept : List ℕ) : Prop where
  /-- Their order stays. -/
  sublist : kept.Sublist seen
  /-- Those that stay had not finished when the pass began. -/
  stay : ∀ j ∈ kept, ∃ c, s₀.clients.get? j = some c ∧ c.peerFd ≠ none
  /-- The others have finished, and were joined. -/
  go : ∀ j ∈ seen, j ∉ kept →
    ∃ c, s.clients.cells[j]? = some c ∧ c.peerFd = none ∧ c.thread = .joined

/-- Where a pass is that has `todo` before it. -/
def PassAt (s : System) (todo : List ℕ) : MainPc → Prop
  | .visit client cancel => client = todo.head? ∧ cancel = false
  | .join j next cancel => ∃ rest, todo = j :: rest ∧ next = rest.head? ∧ cancel = false ∧
    ∃ c, s.clients.cells[j]? = some c ∧ c.peerFd = none
  | .loop => todo = []
  | _ => False

/-- What a pass that began in `s₀` has done. -/
structure Pass (s₀ s : System) (seen kept todo : List ℕ) : Prop where
  /-- The clients it began with. -/
  before : s₀.list = seen ++ todo
  /-- Those that are left. -/
  after : s.list = kept ++ todo
  /-- Those it has come by. -/
  sifted : Sifted s₀ s seen kept
  /-- Where it is. -/
  main : s.PassAt todo s.main
  /-- Who had finished has finished. -/
  finished : ∀ (j : ℕ) (c : Client), s₀.clients.cells[j]? = some c → c.peerFd = none →
    ∃ d, s.clients.cells[j]? = some d ∧ d.peerFd = none

/-- Nothing changes for the clients that a pass has come by. -/
theorem Sifted.step {s₀ : System} {seen kept : List ℕ} (h : Sifted s₀ s seen kept)
    (hs : s.Shared build) (hstep : s.step l = some t) : Sifted s₀ t seen kept where
  sublist := h.sublist
  stay := h.stay
  go j hj hnot := by
    obtain ⟨c, hc, hpeer, hjoined⟩ := h.go j hj hnot
    obtain ⟨d, hd, hpeer', hjoined'⟩ := cells_step hs hstep hc
    exact ⟨d, hd, hpeer' hpeer, hjoined' hjoined⟩

/-- A step of the other threads. -/
theorem Pass.other {s₀ : System} {seen kept todo : List ℕ} (h : Pass s₀ s seen kept todo)
    (hs : s.Shared build) (hstep : s.step l = some t) (hmain : t.main = s.main)
    (hlist : t.list = s.list) : Pass s₀ t seen kept todo := by
  refine ⟨h.before, hlist.trans h.after, h.sifted.step hs hstep, ?_, fun j c hc hpeer ↦ ?_⟩
  · have hat := h.main
    rw [hmain]
    cases hpc : s.main with
    | join j next cancel =>
      rw [hpc] at hat
      obtain ⟨rest, h1, h2, h3, c, hc, hpeer⟩ := hat
      obtain ⟨d, hd, hpeer', -⟩ := cells_step hs hstep hc
      exact ⟨rest, h1, h2, h3, d, hd, hpeer' hpeer⟩
    | _ => rw [hpc] at hat; exact hat
  · obtain ⟨d, hd, hd'⟩ := h.finished j c hc hpeer
    obtain ⟨d', hd₁, hpeer', -⟩ := cells_step hs hstep hd
    exact ⟨d', hd₁, hpeer' hd'⟩

/-- Every step of a pass. -/
theorem Pass.step {s₀ : System} {seen kept todo : List ℕ} (h : Pass s₀ s seen kept todo)
    (h₀ : s₀.Listed) (hlisted : s.Listed) (hs : s.Shared build) (hl : s.Passing l)
    (hstep : s.step l = some t) : ∃ seen kept todo, Pass s₀ t seen kept todo := by
  rcases step_main_cases hs hstep with ⟨e, rfl, hm⟩ | ⟨hmain, hlist, -, -⟩
  swap
  · exact ⟨seen, kept, todo, h.other hs hstep hmain hlist⟩
  have hat := h.main
  have hn := h.after ▸ hlisted.nodup
  cases hm with
  | go hmain hrun => exact absurd rfl hl.2
  | stop hmain hrun => exact absurd rfl hl.2
  | refuse hmain => rw [hmain] at hat; exact hat.elim
  | noMalloc hmain => rw [hmain] at hat; exact hat.elim
  | noFile hmain => rw [hmain] at hat; exact hat.elim
  | noThread hmain => rw [hmain] at hat; exact hat.elim
  | start hmain => rw [hmain] at hat; exact hat.elim
  | last hmain =>
    rw [hmain] at hat
    exact ⟨seen, kept, todo, h.before, h.after, ⟨h.sifted.sublist, h.sifted.stay, h.sifted.go⟩,
      List.head?_eq_none_iff.1 hat.1.symm, h.finished⟩
  | exit hmain => rw [hmain] at hat; exact absurd hat.2 (by simp)
  | @pass i c hmain hget hpeer =>
    rw [hmain] at hat
    obtain ⟨rest, rfl⟩ := List.head?_eq_some_iff.1 hat.1.symm
    have hnot : i ∉ kept := fun hi ↦
      (List.nodup_append.1 hn).2.2 i hi i (List.mem_cons_self ..) rfl
    refine ⟨seen ++ [i], kept ++ [i], rest, by simp [h.before], by simp [h.after],
      ⟨h.sifted.sublist.append (List.Sublist.refl _), fun j hj ↦ ?_, fun j hj hj' ↦ ?_⟩,
      ⟨by rw [h.after, tailqNext_eq hnot], rfl⟩, h.finished⟩
    · rcases List.mem_append.1 hj with hj | hj
      · exact h.sifted.stay j hj
      · obtain rfl := List.mem_singleton.1 hj
        -- it has not finished now, so it had not then
        obtain ⟨c₀, hc₀⟩ := Heap.live_iff.1 (h₀.mem.1 (h.before ▸ by simp : j ∈ s₀.list))
        refine ⟨c₀, hc₀, fun hnone ↦ hpeer ?_⟩
        obtain ⟨d, hd, hdnone⟩ := h.finished j c₀ (cells_of_get? hc₀) hnone
        rw [← Option.some_inj.1 (hd.symm.trans (cells_of_get? hget))]
        exact hdnone
    · refine h.sifted.go j ?_ fun hk ↦ hj' (List.mem_append_left _ hk)
      exact (List.mem_append.1 hj).resolve_right fun hi ↦ hj' (List.mem_append_right _ hi)
  | @finished i c hmain hget hpeer =>
    rw [hmain] at hat
    obtain ⟨rest, rfl⟩ := List.head?_eq_some_iff.1 hat.1.symm
    have hnot : i ∉ kept := fun hi ↦
      (List.nodup_append.1 hn).2.2 i hi i (List.mem_cons_self ..) rfl
    exact ⟨seen, kept, i :: rest, h.before, h.after,
      ⟨h.sifted.sublist, h.sifted.stay, h.sifted.go⟩,
      ⟨rest, rfl, by rw [h.after, tailqNext_eq hnot], rfl, c, cells_of_get? hget, hpeer⟩,
      h.finished⟩
  | cancel hmain => rw [hmain] at hat; exact absurd hat.2 (by simp)
  | @join i next cancel c mem hmain hget hend hfree =>
    rw [hmain] at hat
    obtain ⟨rest, rfl, hnext, rfl, d, hd, hpeer⟩ := hat
    obtain rfl := Option.some_inj.1 (hd.symm.trans (cells_of_get? hget))
    have hnot : i ∉ kept := fun hi ↦
      (List.nodup_append.1 hn).2.2 i hi i (List.mem_cons_self ..) rfl
    have hlt := (List.getElem?_eq_some_iff.1 hd).1
    have hsifted := h.sifted.step hs hstep
    refine ⟨seen ++ [i], kept, rest, by simp [h.before], by rw [h.after, erase_eq hnot],
      ⟨h.sifted.sublist.trans (List.sublist_append_left _ _), h.sifted.stay, fun j hj hj' ↦ ?_⟩,
      ⟨hnext, rfl⟩, fun j c hc hnone ↦ ?_⟩
    · rcases List.mem_append.1 hj with hj | hj
      · exact hsifted.go j hj hj'
      · obtain rfl := List.mem_singleton.1 hj
        exact ⟨_, List.getElem?_set_self hlt, hpeer, rfl⟩
    · obtain ⟨d', hd', hnone'⟩ := h.finished j c hc hnone
      obtain ⟨d'', hd'', hpeer', -⟩ := cells_step hs hstep hd'
      exact ⟨d'', hd'', hpeer' hnone'⟩
  | _ =>
    exact ⟨seen, kept, todo, h.before, h.after, ⟨h.sifted.sublist, h.sifted.stay, h.sifted.go⟩, hat,
      h.finished⟩

/-- What a pass comes to: it removes clients that have finished, and all those that had finished
when it began. -/
theorem pass_over {s₀ : System} {ls : List Label} (h₀ : s₀.Listed) (hs₀ : s₀.Shared build)
    (hmain : s₀.main = .visit s₀.list.head? false)
    (hrun : Machine.Run System.step Passing s₀ ls s) (hend : s.main = .loop) :
    s.list.Sublist s₀.list ∧ ∀ i ∈ s₀.list,
      (i ∈ s.list → ∃ c, s₀.clients.get? i = some c ∧ c.peerFd ≠ none) ∧
      (i ∉ s.list → s.clients.freed.count i = 1 ∧
        ∃ c, s.clients.cells[i]? = some c ∧ c.peerFd = none ∧ c.thread = .joined) := by
  have hinit : Pass s₀ s₀ [] [] s₀.list := by
    refine ⟨rfl, rfl, ⟨List.Sublist.refl _, by simp, by simp⟩, ?_,
      fun j c hc hnone ↦ ⟨c, hc, hnone⟩⟩
    rw [hmain]
    exact ⟨rfl, rfl⟩
  obtain ⟨hs, hlisted, seen, kept, todo, h⟩ := hrun.invariant
    (P := fun s ↦ s.Shared build ∧ s.Listed ∧ ∃ seen kept todo, Pass s₀ s seen kept todo)
    (fun _ _ _ ⟨hs, hlisted, _, _, _, h⟩ hl hstep ↦
      ⟨hs.step hstep, hlisted.step hs hl.1 hstep, h.step h₀ hlisted hs hl hstep⟩)
    ⟨hs₀, h₀, [], [], s₀.list, hinit⟩
  have hat := h.main
  rw [hend] at hat
  obtain rfl : todo = [] := hat
  have hbefore : s₀.list = seen := h.before.trans (List.append_nil _)
  have hafter : s.list = kept := h.after.trans (List.append_nil _)
  rw [hbefore, hafter]
  refine ⟨h.sifted.sublist, fun i hi ↦ ⟨h.sifted.stay i, fun hnot ↦ ?_⟩⟩
  obtain ⟨c, hc, hgone⟩ := h.sifted.go i hi hnot
  refine ⟨List.count_eq_one_of_mem hs.clients.nodup ?_, c, hc, hgone⟩
  by_contra hfree
  exact hnot (hafter ▸ hlisted.mem.2 ⟨(List.getElem?_eq_some_iff.1 hc).1, hfree⟩)

/-! ## What is open -/

omit [Platform] in
/-- An open descriptor is that of a client of the list. -/
theorem Listed.fd_open (h : s.Listed) (ho : s.Owning) {fd : ℕ} (hfd : fd < s.fds.next) :
    s.fds.freed.count fd = 1 ∨
      ∃ i ∈ s.list, ∃ c, s.clients.get? i = some c ∧ c.openFd = some fd := by
  rcases ho.fds.mem_or_freed hfd with hmem | hfree
  · obtain ⟨c, hc, hopen⟩ := List.mem_filterMap.1 hmem
    obtain ⟨i, hi⟩ := List.mem_iff_getElem?.1 hc
    have hstarted : c.thread.started = true := by
      by_contra hnot
      rw [Client.openFd_of_not_started (by simpa using hnot)] at hopen
      cases hopen
    have hlive := (ho.live i).2 ⟨c, hi, hstarted⟩
    obtain ⟨d, hd⟩ := Heap.live_iff.1 hlive
    obtain rfl := Option.some_inj.1 (hi.symm.trans (cells_of_get? hd))
    exact Or.inr ⟨i, h.mem.2 hlive, c, hd, hopen⟩
  · exact Or.inl (List.count_eq_one_of_mem ho.fds.sound.nodup hfree)

omit [Platform] in
/-- An open file is that of a client of the list. -/
theorem Listed.file_open (h : s.Listed) (ho : s.Owning) {file : ℕ} (hfile : file < s.files.next) :
    s.files.freed.count file = 1 ∨
      ∃ i ∈ s.list, ∃ c, s.clients.get? i = some c ∧ c.openFile = some file := by
  rcases ho.files.mem_or_freed hfile with hmem | hfree
  · obtain ⟨c, hc, hopen⟩ := List.mem_filterMap.1 hmem
    obtain ⟨i, hi⟩ := List.mem_iff_getElem?.1 hc
    have hsome : c.thread ≠ .joined ∧ c.file = some file := by
      rw [Client.openFile] at hopen
      split at hopen
      · cases hopen
      · exact ⟨‹_›, hopen⟩
    have hstarted : c.thread.started = true := by
      cases hthread : c.thread with
      | unstarted =>
        rw [h.unstarted i c hi hthread] at hsome
        exact absurd hsome.2 (by simp)
      | joined => exact absurd hthread hsome.1
      | _ => rfl
    have hlive := (ho.live i).2 ⟨c, hi, hstarted⟩
    obtain ⟨d, hd⟩ := Heap.live_iff.1 hlive
    obtain rfl := Option.some_inj.1 (hi.symm.trans (cells_of_get? hd))
    exact Or.inr ⟨i, h.mem.2 hlive, c, hd, hopen⟩
  · exact Or.inl (List.count_eq_one_of_mem ho.files.sound.nodup hfree)

omit [Platform] in
/-- When the server has ended nothing is open. -/
theorem Listed.exit (h : s.Listed) (ho : s.Owning) (hmain : s.main = .exit) :
    s.list = [] ∧ (∀ fd < s.fds.next, s.fds.freed.count fd = 1) ∧
      ∀ file < s.files.next, s.files.freed.count file = 1 := by
  have hnil : s.list = [] := by
    have hcursor := h.cursor
    rw [hmain] at hcursor
    exact hcursor
  refine ⟨hnil, fun fd hfd ↦ (h.fd_open ho hfd).resolve_right ?_,
    fun file hfile ↦ (h.file_open ho hfile).resolve_right ?_⟩
  · rintro ⟨i, hi, -⟩
    simp [hnil] at hi
  · rintro ⟨i, hi, -⟩
    simp [hnil] at hi

/-- A connection whose set-up fails: its descriptor is closed, and nothing else is left of it. -/
theorem failed_setup (hs : s.clients.Sound) {m f c : Bool} (hl : s.CreateOk (.main (.accept m f c)))
    (hfail : (m && f && c) = false) (hstep : s.step (.main (.accept m f c)) = some t) :
    t.list = s.list ∧ t.clients.liveList = s.clients.liveList ∧ t.files = s.files ∧
      t.fds = (s.fds.alloc ()).free s.fds.next := by
  obtain ⟨hm⟩ := (step_transition hstep).2
  cases hm with
  | noMalloc => exact ⟨rfl, rfl, rfl, rfl⟩
  | noFile => exact ⟨rfl, Heap.liveList_alloc_free hs.next_notMem, rfl, rfl⟩
  | noThread => exact absurd rfl hl
  | start => cases hfail

/-- **The list of clients**, in every state that is reached without a failure of `pthread_create`:
it has the clients in memory, in the order of their acceptance, and each has a thread to be joined;
what is open belongs to a client of the list, and the rest was closed once; a set-up that fails
leaves nothing; a pass that does not cancel removes the clients that have finished, and at the end
the list is empty and all is closed. -/
theorem clients_listed (h : Machine.Reachable System.step CreateOk (init build) s) :
    ((∀ i, i ∈ s.list ↔ s.clients.Live i) ∧ s.list.Pairwise (· < ·) ∧
      ∀ i ∈ s.list, ∃ c, s.clients.get? i = some c ∧ c.thread.started = true) ∧
    ((∀ fd < s.fds.next, s.fds.freed.count fd = 1 ∨
        ∃ i ∈ s.list, ∃ c, s.clients.get? i = some c ∧ c.openFd = some fd) ∧
      ∀ file < s.files.next, s.files.freed.count file = 1 ∨
        ∃ i ∈ s.list, ∃ c, s.clients.get? i = some c ∧ c.openFile = some file) ∧
    (∀ m f c t, s.CreateOk (.main (.accept m f c)) → (m && f && c) = false →
      s.step (.main (.accept m f c)) = some t → t.list = s.list ∧
        t.clients.liveList = s.clients.liveList ∧ t.files = s.files ∧
        t.fds = (s.fds.alloc ()).free s.fds.next) ∧
    (s.main = .visit s.list.head? false → ∀ ls t, Machine.Run System.step Passing s ls t →
      t.main = .loop → t.list.Sublist s.list ∧ ∀ i ∈ s.list,
        (i ∈ t.list → ∃ c, s.clients.get? i = some c ∧ c.peerFd ≠ none) ∧
        (i ∉ t.list → t.clients.freed.count i = 1 ∧
          ∃ c, t.clients.cells[i]? = some c ∧ c.peerFd = none ∧ c.thread = .joined)) ∧
    (s.main = .exit → s.list = [] ∧ (∀ fd < s.fds.next, s.fds.freed.count fd = 1) ∧
      ∀ file < s.files.next, s.files.freed.count file = 1) := by
  have hs := shared_reachable h
  have ho := owning_reachable h
  have hl := listed_reachable h
  refine ⟨⟨fun i ↦ hl.mem, hl.list ▸ s.clients.sorted_liveList, fun i hi ↦ ?_⟩,
    ⟨fun fd ↦ hl.fd_open ho, fun file ↦ hl.file_open ho⟩,
    fun m f c t hcreate hfail hstep ↦ failed_setup hs.clients hcreate hfail hstep,
    fun hmain ls t hrun hend ↦ pass_over hl hs hmain hrun hend, hl.exit ho⟩
  obtain ⟨c, hc⟩ := Heap.live_iff.1 (hl.mem.1 hi)
  exact ⟨c, hc, ho.started hc⟩

/-- When `pthread_create` fails, a client that is not in memory is in the list, and its file stays
open. -/
theorem create_failure (hstep : s.step (.main (.accept true true false)) = some t) :
    (∃ i ∈ t.list, ¬ t.clients.Live i) ∧ t.files = s.files.alloc () := by
  obtain ⟨hm⟩ := (step_transition hstep).2
  cases hm with
  | noThread hmain =>
    refine ⟨⟨s.clients.next, List.mem_append_right _ (List.mem_singleton_self _), ?_⟩, rfl⟩
    intro hlive
    exact (Heap.live_free.1 hlive).1 rfl

end List

/-- Four connections: the second one's file cannot be opened, and for the third there is no memory.
The first client finishes before the main thread comes by, the last one after the signal. -/
def serving : List Label :=
  Label.connect 1 ++ Label.steps 0 [.start true, .recv .eof, .free, .close, .mark] ++
    [.main .test, .main (.accept true false true), .main .visit, .main .join, .main .visit] ++
    [.main .test, .main (.accept false true true), .main .visit] ++ Label.connect 1 ++
    [.signal, .main .test, .main .visit] ++
    Label.steps 2 [.start true, .recv .eof, .free, .close, .mark] ++ [.main .join, .main .visit]

attribute [local instance] linux64 in
theorem clients_listed_serving :
    (after .device serving).list = [] ∧
      ∀ fd < (after .device serving).fds.next, (after .device serving).fds.freed.count fd = 1 := by
  have h : Machine.Reachable step CreateOk (init .device) (after .device serving) :=
    ⟨serving, run_after (by decide +kernel)⟩
  have hmain : (after .device serving).main = .exit := by decide +kernel
  generalize after .device serving = s at *
  obtain ⟨-, -, -, -, hexit⟩ := clients_listed h
  exact ⟨(hexit hmain).1, (hexit hmain).2.1⟩

/-- One connection, for which no thread can be made. -/
def noThread : List Label := [.main .test, .main (.accept true true false)]

attribute [local instance] linux64 in
/-- The client is in the list, but not in memory; its file is open; and the main thread uses it. -/
theorem create_failure_lists_freed :
    Machine.Run step Machine.Always (init .device) noThread (after .device noThread) ∧
    (after .device noThread).list = [0] ∧
    (after .device noThread).clients.get? 0 = none ∧
    (after .device noThread).files.next = 1 ∧ (after .device noThread).files.freed = [] ∧
    ((after .device noThread).step (.main .visit)).map System.halted
      = some (some (.bug (.notAllocated 0))) :=
  ⟨run_after (by decide +kernel), by decide +kernel⟩

end System

end Aesd
