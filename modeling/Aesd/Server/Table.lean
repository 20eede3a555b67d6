import Aesd.Server.Sharing

/-!
# What becomes of a client

What one step of the server makes of a client in its table (`System.step_becomes`), and of the
things that the main thread takes care of, the descriptors and files (`System.Moves.resources`).
-/

set_option autoImplicit false

namespace Aesd

namespace System

section Table

variable [Platform] {build : Build} {s s' t : System} {i : ℕ} {c : Client} {e : MainEvent}
  {te : ThreadEvent} {event : Event} {u : Session} {l : Label}

/-- A thread's step leaves the main thread alone, and the files; only `close` closes. -/
theorem Moves.resources (h : s.Moves i te t c event s' u) :
    t.files = s.files ∧ t.list = s.list ∧ t.main = s.main ∧
      (event ≠ .close ∧ t.fds = s.fds ∨
        event = .close ∧ t.fds = c.peerFd.elim s.fds s.fds.free) := by
  obtain ⟨halted, heq⟩ := haltOn_eq { s' with clients := s.clients.set i (c.after u) } u
  have hout : s'.files = s.files ∧ s'.list = s.list ∧ s'.main = s.main ∧
      (event ≠ .close ∧ s'.fds = s.fds ∨
        event = .close ∧ s'.fds = c.peerFd.elim s.fds s.fds.free) := by
    cases outside_meets h.outside with
    | close hfd => exact ⟨rfl, rfl, rfl, Or.inr ⟨rfl, by rw [hfd]; rfl⟩⟩
    | closed hfd => exact ⟨rfl, rfl, rfl, Or.inr ⟨rfl, by rw [hfd]; rfl⟩⟩
    | own _ hpc hne =>
      refine ⟨rfl, rfl, rfl, Or.inl ⟨?_, rfl⟩⟩
      rintro rfl
      exact hne.1 hpc.symm
    | _ => exact ⟨rfl, rfl, rfl, Or.inl ⟨by simp, rfl⟩⟩
  rw [h.eq, heq]
  exact hout

/-- What a step makes of a client, in memory or not. -/
inductive Becomes (s : System) (j : ℕ) : Label → Client → Prop
  /-- Nothing. -/
  | same {l : Label} {d : Client} (h : s.clients.cells[j]? = some d) : Becomes s j l d
  /-- It is new. -/
  | fresh {l : Label} {fd : ℕ} {file : Option ℕ} {thread : ThreadState} (hj : j = s.clients.next)
    (hthread : thread = .unstarted ∨ thread = .running)
    (hfile : thread = .unstarted → file = none ∨ l = .main (.accept true true false)) :
    Becomes s j l (.fresh fd file thread)
  /-- Its thread makes a step. -/
  | moves {te : ThreadEvent} {t s' : System} {c : Client} {event : Event} {u : Session}
    (hm : s.Moves j te t c event s' u) : Becomes s j (.thread j te) (c.after u)
  /-- Its thread is cancelled. -/
  | cancel {c : Client} (hget : s.clients.get? j = some c) (hrun : c.thread = .running)
    (hcancel : c.session.pc.cancellation = true) :
    Becomes s j (.cancel j) { c with thread := .ended }
  /-- Its peer closes the connection. -/
  | hangup {c : Client} (hget : s.clients.get? j = some c) :
    Becomes s j (.hangup j) { c with hungUp := true }
  /-- The main thread calls `pthread_cancel`. -/
  | cancelled {c : Client} (hget : s.clients.get? j = some c) :
    Becomes s j (.main .visit) { c with cancelled := true }
  /-- The main thread joins it. -/
  | joined {c : Client} (hget : s.clients.get? j = some c) (hend : c.thread = .ended)
    (mem : Fragments) : Becomes s j (.main .join)
      { c with thread := .joined, session := { c.session with mem := mem } }

omit [Platform] in
/-- An entry of the table after one was written. -/
theorem cells_set {clients : Heap Client} {j : ℕ} {d d' : Client}
    (h : (clients.set i d').cells[j]? = some d) :
    j = i ∧ d = d' ∨ clients.cells[j]? = some d := by
  rw [Heap.set, List.getElem?_set] at h
  split at h
  · rename_i hij
    split at h
    · exact Or.inl ⟨hij.symm, (Option.some_inj.1 h).symm⟩
    · cases h
  · exact Or.inr h

omit [Platform] in
/-- An entry of the table after one was added. -/
theorem cells_alloc {clients : Heap Client} {j : ℕ} {d d' : Client}
    (h : (clients.alloc d').cells[j]? = some d) :
    j = clients.next ∧ d = d' ∨ clients.cells[j]? = some d := by
  rw [Heap.alloc] at h
  rcases Nat.lt_trichotomy j clients.cells.length with hj | rfl | hj
  · rw [List.getElem?_append_left hj] at h
    exact Or.inr h
  · rw [List.getElem?_concat_length] at h
    exact Or.inl ⟨rfl, (Option.some_inj.1 h).symm⟩
  · have hlen := (List.getElem?_eq_some_iff.1 h).1
    rw [List.length_append, List.length_singleton] at hlen
    omega

theorem mainMove_becomes {j : ℕ} {d : Client} (hm : s.MainMove e t)
    (hd : t.clients.cells[j]? = some d) : s.Becomes j (.main e) d := by
  cases hm with
  | noFile hmain c =>
    rcases cells_alloc hd with ⟨hj, rfl⟩ | hd
    · exact .fresh hj (Or.inl rfl) fun _ ↦ Or.inl rfl
    · exact .same hd
  | noThread hmain =>
    rcases cells_alloc hd with ⟨hj, rfl⟩ | hd
    · exact .fresh hj (Or.inl rfl) fun _ ↦ Or.inr rfl
    · exact .same hd
  | start hmain =>
    rcases cells_alloc hd with ⟨hj, rfl⟩ | hd
    · exact .fresh hj (Or.inr rfl) (by simp)
    · exact .same hd
  | cancel hmain hget =>
    rcases cells_set hd with ⟨rfl, rfl⟩ | hd
    · exact .cancelled hget
    · exact .same hd
  | join hmain hget hend hfree =>
    rcases cells_set hd with ⟨rfl, rfl⟩ | hd
    · exact .joined hget hend _
    · exact .same hd
  | _ => exact .same hd

/-- **What a step makes of a client.** -/
theorem step_becomes {j : ℕ} {d : Client} (hs : s.Shared build) (hstep : s.step l = some t)
    (hd : t.clients.cells[j]? = some d) : s.Becomes j l d := by
  cases (step_transition hstep).2 with
  | main hm => exact mainMove_becomes hm hd
  | thread hm =>
    rw [hm.clients] at hd
    rcases cells_set hd with ⟨rfl, rfl⟩ | hd
    · exact .moves hm
    · exact .same hd
  | bug hget hout => exact absurd hout (hs.outside_ne_error hget)
  | cancel hget hrun hcancelled hpc =>
    rcases cells_set hd with ⟨rfl, rfl⟩ | hd
    · exact .cancel hget hrun hpc
    · exact .same hd
  | hangup hget =>
    rcases cells_set hd with ⟨rfl, rfl⟩ | hd
    · exact .hangup hget
    · exact .same hd
  | signal => exact .same hd

end Table

end System

end Aesd
