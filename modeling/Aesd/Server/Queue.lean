import Mathlib.Data.List.Perm.Subperm
import Aesd.Driver.Kernel
import Aesd.Lib.Machine
import Aesd.Lib.Slots

/-!
# The tail queue

`queue.h`, as far as the server uses it: the head of the list of clients, and the field `nodes` that
links a `struct client_info` into it.  An entry is a block of `Tailq.entries`, named like the client
it is a field of; a `struct client_info **` is a `Slot`.  The macros read and write through these
pointers, in the order of the source, and using memory that is not there is a `Bug`.

`Tailq.Represents q l` says that the queue has the clients of `l`, in this order, and each operation
says what it does to `l`.  `Tailq.run_represents` is about any sequence of them.
-/

set_option autoImplicit false

namespace Aesd

/-- `TAILQ_ENTRY(client_info)`. -/
structure TailqEntry where
  /-- `tqe_next`. -/
  tqeNext : Option ℕ
  /-- `tqe_prev`. -/
  tqePrev : Option (Slot ℕ)
deriving DecidableEq, Repr

/-- `TAILQ_HEAD(clients_s, client_info)`, and the entries in memory. -/
structure Tailq where
  /-- `tqh_first`. -/
  tqhFirst : Option ℕ
  /-- `tqh_last`. -/
  tqhLast : Option (Slot ℕ)
  /-- The field `nodes` of every client ever allocated. -/
  entries : Heap TailqEntry
deriving DecidableEq

namespace Tailq

/-! ## Through the pointers -/

/-- `elm->field`. -/
def entry (q : Tailq) (elm : ℕ) : Except Bug TailqEntry :=
  match q.entries.get? elm with
  | some e => .ok e
  | none => .error (.notAllocated elm)

/-- `elm->field = e`. -/
def setEntry (q : Tailq) (elm : ℕ) (e : TailqEntry) : Tailq :=
  { q with entries := q.entries.set elm e }

/-- `*slot = elm`. -/
def assign (q : Tailq) (slot : Option (Slot ℕ)) (elm : Option ℕ) : Except Bug Tailq :=
  match slot with
  | none => .error .nullPointer
  | some .first => .ok { q with tqhFirst := elm }
  | some (.next i) => do
    let e ← q.entry i
    .ok (q.setEntry i { e with tqeNext := elm })

/-- `elm->field.tqe_prev = slot`. -/
def setPrev (q : Tailq) (elm : ℕ) (slot : Option (Slot ℕ)) : Except Bug Tailq := do
  let e ← q.entry elm
  .ok (q.setEntry elm { e with tqePrev := slot })

/-! ## The macros -/

/-- `TAILQ_INIT`, with no client in memory. -/
def init : Tailq := ⟨none, some .first, .empty⟩

/-- `TAILQ_FIRST`. -/
def first (q : Tailq) : Option ℕ := q.tqhFirst

/-- `TAILQ_EMPTY`. -/
def empty (q : Tailq) : Bool := q.tqhFirst.isNone

/-- `TAILQ_NEXT`. -/
def next (q : Tailq) (elm : ℕ) : Except Bug (Option ℕ) := do
  let e ← q.entry elm
  .ok e.tqeNext

/-- `TAILQ_INSERT_TAIL`. -/
def insertTail (q : Tailq) (elm : ℕ) : Except Bug Tailq := do
  let q ← q.assign (some (.next elm)) none
  let q ← q.setPrev elm q.tqhLast
  let q ← q.assign q.tqhLast (some elm)
  .ok { q with tqhLast := some (.next elm) }

/-- `TAILQ_REMOVE`. -/
def remove (q : Tailq) (elm : ℕ) : Except Bug Tailq := do
  let e ← q.entry elm
  let q ←
    match e.tqeNext with
    | some next => q.setPrev next e.tqePrev
    | none => .ok { q with tqhLast := e.tqePrev }
  let e ← q.entry elm
  q.assign e.tqePrev e.tqeNext

/-- The clients that a `TAILQ_FOREACH` from `var` on comes by, in at most `fuel` rounds. -/
def foreachFrom (q : Tailq) : ℕ → Option ℕ → Except Bug (List ℕ)
  | _, none => .ok []
  | 0, some _ => .error .endless
  | fuel + 1, some var => do
    let next ← q.next var
    let rest ← q.foreachFrom fuel next
    .ok (var :: rest)

/-- The clients that a `TAILQ_FOREACH` comes by.  There are not more than were ever allocated. -/
def foreach (q : Tailq) : Except Bug (List ℕ) := q.foreachFrom q.entries.next q.first

/-- `malloc` and `memset` of a client. -/
def alloc (q : Tailq) : Tailq := { q with entries := q.entries.alloc ⟨none, none⟩ }

/-- `free` of a client. -/
def free (q : Tailq) (elm : ℕ) : Tailq := { q with entries := q.entries.free elm }

/-! ## The list it stands for -/

/-- What the slots hold. -/
def fwd (q : Tailq) : Slot ℕ → Option (Option ℕ)
  | .first => some q.tqhFirst
  | .next i => (q.entries.get? i).map TailqEntry.tqeNext

/-- Where the clients point back to. -/
def bwd (q : Tailq) (i : ℕ) : Option (Option (Slot ℕ)) :=
  (q.entries.get? i).map TailqEntry.tqePrev

/-- **The queue has the clients of `l`**, in this order. -/
structure Represents (q : Tailq) (l : List ℕ) : Prop where
  /-- They are linked both ways, and the head has the slot behind them. -/
  chain : ∃ last, q.tqhLast = some last ∧ Slot.Chain q.fwd q.bwd .first l last
  /-- Each is in it once. -/
  nodup : l.Nodup

variable {q : Tailq} {l : List ℕ} {i j : ℕ} {slot : Option (Slot ℕ)} {elm : Option ℕ}
  {e : TailqEntry}

theorem represents_init : init.Represents [] :=
  ⟨⟨.first, rfl, Slot.Chain.nil_iff.2 ⟨rfl, rfl⟩⟩, List.nodup_nil⟩

theorem entry_eq (h : q.entries.get? i = some e) : q.entry i = .ok e := by rw [entry, h]

theorem entry_of_not_live (h : ¬ q.entries.Live i) : q.entry i = .error (.notAllocated i) := by
  have hnone : q.entries.get? i = none := by
    by_contra hne
    exact h (Heap.live_iff.2 (Option.ne_none_iff_exists'.1 hne))
  rw [entry, hnone]

theorem fwd_next (h : q.entries.get? i = some e) : q.fwd (.next i) = some e.tqeNext := by
  rw [fwd, h, Option.map_some]

theorem bwd_eq (h : q.entries.get? i = some e) : q.bwd i = some e.tqePrev := by
  rw [bwd, h, Option.map_some]

/-- No client was allocated or freed. -/
structure Stays (q q' : Tailq) : Prop where
  /-- None was allocated. -/
  next : q'.entries.next = q.entries.next
  /-- None was freed. -/
  freed : q'.entries.freed = q.entries.freed

theorem Stays.live {q' : Tailq} (h : q.Stays q') : q'.entries.Live i ↔ q.entries.Live i := by
  rw [Heap.Live, Heap.Live, h.next, h.freed]

theorem Stays.trans {q' q'' : Tailq} (h : q.Stays q') (h' : q'.Stays q'') : q.Stays q'' :=
  ⟨h'.next.trans h.next, h'.freed.trans h.freed⟩

theorem fwd_isSome : (q.fwd (.next i)).isSome ↔ q.entries.Live i := by
  rw [fwd, Option.isSome_map, Heap.live_iff, Option.isSome_iff_exists]

theorem fwd_setEntry (h : q.entries.Live i) (r : Slot ℕ) :
    (q.setEntry i e).fwd r = if r = .next i then some e.tqeNext else q.fwd r := by
  split
  · rename_i hr
    rw [hr, fwd, setEntry, Heap.get?_set_self h, Option.map_some]
  · rename_i hr
    cases r with
    | first => rfl
    | next j =>
      have hj : j ≠ i := by rintro rfl; exact hr rfl
      rw [fwd, setEntry, Heap.get?_set_of_ne hj, fwd]

theorem bwd_setEntry (h : q.entries.Live i) (j : ℕ) :
    (q.setEntry i e).bwd j = if j = i then some e.tqePrev else q.bwd j := by
  split
  · rename_i hj
    rw [hj, bwd, setEntry, Heap.get?_set_self h, Option.map_some]
  · rename_i hj
    rw [bwd, setEntry, Heap.get?_set_of_ne hj, bwd]

theorem stays_setEntry : q.Stays (q.setEntry i e) := ⟨Heap.next_set, rfl⟩

/-- A write through a slot that is in memory. -/
theorem assign_spec {s : Slot ℕ} (h : (q.fwd s).isSome) (elm : Option ℕ) :
    ∃ q', q.assign (some s) elm = .ok q' ∧ q'.fwd s = some elm ∧
      (∀ r, r ≠ s → q'.fwd r = q.fwd r) ∧ q'.bwd = q.bwd ∧ q'.tqhLast = q.tqhLast ∧
      q.Stays q' := by
  cases s with
  | first =>
    refine ⟨_, rfl, rfl, fun r hr ↦ ?_, rfl, rfl, rfl, rfl⟩
    cases r with
    | first => exact absurd rfl hr
    | next j => rfl
  | next i =>
    obtain ⟨e, he⟩ := Heap.live_iff.1 (fwd_isSome.1 h)
    have hlive := Heap.live_of_get? he
    refine ⟨q.setEntry i { e with tqeNext := elm }, ?_, ?_, fun r hr ↦ ?_, ?_, rfl,
      stays_setEntry⟩
    · rw [assign, entry_eq he, ok_bind]
    · rw [fwd_setEntry hlive, if_pos rfl]
    · rw [fwd_setEntry hlive, if_neg hr]
    · funext j
      rw [bwd_setEntry hlive]
      split
      · rename_i hj
        rw [hj, bwd_eq he]
      · rfl

/-- A write of a client's pointer back. -/
theorem setPrev_spec (h : q.entries.Live i) (slot : Option (Slot ℕ)) :
    ∃ q', q.setPrev i slot = .ok q' ∧ q'.bwd i = some slot ∧ (∀ j, j ≠ i → q'.bwd j = q.bwd j) ∧
      q'.fwd = q.fwd ∧ q'.tqhLast = q.tqhLast ∧ q.Stays q' := by
  obtain ⟨e, he⟩ := Heap.live_iff.1 h
  refine ⟨q.setEntry i { e with tqePrev := slot }, ?_, ?_, fun j hj ↦ ?_, ?_, rfl,
    stays_setEntry⟩
  · rw [setPrev, entry_eq he, ok_bind]
  · rw [bwd_setEntry h, if_pos rfl]
  · rw [bwd_setEntry h, if_neg hj]
  · funext r
    rw [fwd_setEntry h]
    split
    · rename_i hr
      rw [hr, fwd_next he]
    · rfl

/-! ## The operations -/

/-- Every client in the queue is in memory. -/
theorem Represents.live (h : q.Represents l) (hi : i ∈ l) : q.entries.Live i := by
  obtain ⟨last, -, hchain⟩ := h.chain
  obtain ⟨⟨n, hn⟩, -⟩ := hchain.mem hi
  exact fwd_isSome.1 (by rw [hn]; rfl)

theorem Represents.first_eq (h : q.Represents l) : q.first = l.head? := by
  obtain ⟨last, -, hchain⟩ := h.chain
  exact Option.some_inj.1 hchain.first_eq

theorem Represents.empty_iff (h : q.Represents l) : q.empty = true ↔ l = [] := by
  have hfirst : q.tqhFirst = l.head? := h.first_eq
  rw [empty, hfirst, Option.isNone_iff_eq_none, List.head?_eq_none_iff]

/-- `TAILQ_NEXT` of a client of the queue is the one that follows it. -/
theorem Represents.next_eq {m : List ℕ} (h : q.Represents (l ++ i :: m)) :
    q.next i = .ok m.head? := by
  obtain ⟨last, -, hchain⟩ := h.chain
  obtain ⟨e, he⟩ := Heap.live_iff.1 (h.live (i := i) (by simp))
  have hnext := hchain.next_eq
  rw [fwd_next he, Option.some_inj] at hnext
  rw [next, entry_eq he, ok_bind, hnext]

/-- **`TAILQ_INSERT_TAIL`** of a client in memory that is not in the queue. -/
theorem Represents.insertTail (h : q.Represents l) (hi : q.entries.Live i) (hl : i ∉ l) :
    ∃ q', q.insertTail i = .ok q' ∧ q'.Represents (l ++ [i]) ∧ q.Stays q' := by
  obtain ⟨last, hlast, hchain⟩ := h.chain
  have hfirst : ∀ j ∈ l, Slot.first ≠ .next j := fun j _ ↦ by simp
  have hne : last ≠ .next i := by
    rw [← hchain.2.1]
    exact Slot.behind_ne (by simp) hl
  obtain ⟨q₁, h₁, hnext₁, hfwd₁, hbwd₁, hlast₁, hstays₁⟩ :=
    assign_spec (q := q) (fwd_isSome.2 hi) none
  obtain ⟨q₂, h₂, hprev₂, hbwd₂, hfwd₂, hlast₂, hstays₂⟩ :=
    setPrev_spec (hstays₁.live.2 hi) q₁.tqhLast
  rw [hlast₁, hlast] at hprev₂ hlast₂
  have hslot : (q₂.fwd last).isSome := by rw [hfwd₂, hfwd₁ _ hne, hchain.2.2]; rfl
  obtain ⟨q₃, h₃, hnext₃, hfwd₃, hbwd₃, hlast₃, hstays₃⟩ := assign_spec hslot (some i)
  refine ⟨{ q₃ with tqhLast := some (.next i) }, ?_, ⟨⟨.next i, rfl, ?_⟩, ?_⟩, ?_⟩
  · rw [Tailq.insertTail, h₁, ok_bind, h₂, ok_bind, hlast₂, h₃, ok_bind]
  · show Slot.Chain q₃.fwd q₃.bwd _ _ _
    refine hchain.concat h.nodup hfirst hl (by simp) hnext₃ ?_ ?_ (fun r h1 h2 ↦ ?_) fun j hj ↦ ?_
    · rw [hfwd₃ _ hne.symm, hfwd₂, hnext₁]
    · rw [hbwd₃, hprev₂]
    · rw [hfwd₃ _ h1, hfwd₂, hfwd₁ _ h2]
    · rw [hbwd₃, hbwd₂ _ hj, hbwd₁]
  · exact List.nodup_append.2 ⟨h.nodup, List.nodup_singleton i, by
      rintro a ha b hb rfl
      exact hl (List.mem_singleton.1 hb ▸ ha)⟩
  · exact (hstays₁.trans hstays₂).trans ⟨hstays₃.next, hstays₃.freed⟩

/-- A client that is not in memory cannot be inserted. -/
theorem insertTail_of_not_live (h : ¬ q.entries.Live i) :
    q.insertTail i = .error (.notAllocated i) := by
  rw [Tailq.insertTail, assign, entry_of_not_live h]
  rfl

/-- **`TAILQ_REMOVE`** of a client of the queue. -/
theorem Represents.remove {m : List ℕ} (h : q.Represents (l ++ i :: m)) :
    ∃ q', q.remove i = .ok q' ∧ q'.Represents (l ++ m) ∧ q.Stays q' := by
  obtain ⟨last, hlast, hchain⟩ := h.chain
  have hfirst : ∀ j ∈ l ++ i :: m, Slot.first ≠ .next j := fun j _ ↦ by simp
  obtain ⟨e, he⟩ := Heap.live_iff.1 (h.live (i := i) (by simp))
  obtain ⟨h1, hfwd, hbwd, -⟩ := Slot.linking_append.1 hchain.1
  have hnext := hchain.next_eq
  rw [fwd_next he, Option.some_inj] at hnext
  rw [bwd_eq he, Option.some_inj] at hbwd
  have hil : i ∉ l := fun hi ↦ (List.nodup_append.1 h.nodup).2.2 i hi i (List.mem_cons_self ..) rfl
  have him : i ∉ m := (List.nodup_cons.1 (List.nodup_append.1 h.nodup).2.1).1
  have hnodup : (l ++ m).Nodup := h.nodup.sublist ((List.sublist_cons_self i m).append_left l)
  have hslot : ∀ {q' : Tailq}, q'.fwd = q.fwd → (q'.fwd (Slot.first.behind l)).isSome := by
    intro q' h'
    rw [h', hfwd]
    rfl
  cases m with
  | nil =>
    -- it is the last one: the head gets the slot before it
    have hentry : ({ q with tqhLast := e.tqePrev } : Tailq).entry i = .ok e := entry_eq he
    obtain ⟨q', h', hself, hothers, hbwd', hlast', hstays⟩ :=
      assign_spec (q := { q with tqhLast := e.tqePrev }) (hslot rfl) none
    refine ⟨q', ?_, ⟨⟨Slot.first.behind l, hlast'.trans hbwd, ?_⟩, hnodup⟩, hstays.next,
      hstays.freed⟩
    · rw [hbwd] at h' hentry
      rw [Tailq.remove, entry_eq he, ok_bind, hnext, hbwd]
      simp only [List.head?_nil, ok_bind, hentry, hnext, hbwd]
      exact h'
    · have := hchain.unlink h.nodup hfirst hself (by simp) (fun r h1 _ ↦ hothers r h1)
        fun j _ _ ↦ congrFun hbwd' j
      simpa using this
  | cons n m =>
    obtain ⟨q₁, h₁, hprev₁, hbwd₁, hfwd₁, hlast₁, hstays₁⟩ :=
      setPrev_spec (h.live (i := n) (by simp)) e.tqePrev
    have hni : i ≠ n := by rintro rfl; simp at him
    -- the entry of the client that goes is as it was
    have hentry : q₁.entry i = .ok e := by
      obtain ⟨e₁, he₁⟩ := Heap.live_iff.1 (hstays₁.live.2 (Heap.live_of_get? he))
      have hn₁ : e₁.tqeNext = e.tqeNext := by
        have := congrFun hfwd₁ (.next i)
        rwa [fwd_next he₁, fwd_next he, Option.some_inj] at this
      have hp₁ : e₁.tqePrev = e.tqePrev := by
        have := hbwd₁ i hni
        rwa [bwd_eq he₁, bwd_eq he, Option.some_inj] at this
      rw [entry_eq he₁]
      cases e₁
      cases e
      simp_all
    obtain ⟨q₂, h₂, hself, hothers, hbwd₂, hlast₂, hstays₂⟩ :=
      assign_spec (hslot hfwd₁) (some n)
    refine ⟨q₂, ?_, ⟨⟨last, by rw [hlast₂, hlast₁, hlast], ?_⟩, hnodup⟩, hstays₁.trans hstays₂⟩
    · rw [Tailq.remove, entry_eq he, ok_bind, hnext]
      simp only [List.head?_cons, h₁, ok_bind, hentry]
      rw [hnext, hbwd]
      exact h₂
    · have hunlink : Slot.Chain q₂.fwd q₂.bwd _ _ _ := hchain.unlink h.nodup hfirst hself
        (fun j hj ↦ ?_) (fun r h1 _ ↦ ?_) fun j _ hj ↦ ?_
      · simpa using hunlink
      · obtain rfl : n = j := by simpa using hj
        rw [hbwd₂, hprev₁, hbwd]
      · rw [hothers r h1, hfwd₁]
      · rw [hbwd₂, hbwd₁ j]
        rintro rfl
        exact hj rfl

/-- The queue does not change with the clients outside it. -/
theorem Represents.congr {q' : Tailq} (h : q.Represents l) (hfirst : q'.tqhFirst = q.tqhFirst)
    (hlast : q'.tqhLast = q.tqhLast) (hget : ∀ i ∈ l, q'.entries.get? i = q.entries.get? i) :
    q'.Represents l := by
  obtain ⟨last, hl, hlink, hbehind, hend⟩ := h.chain
  have hfwd : ∀ r, r = Slot.first ∨ (∃ i ∈ l, r = .next i) → q'.fwd r = q.fwd r := by
    rintro r (rfl | ⟨i, hi, rfl⟩)
    · exact congrArg some hfirst
    · simp only [fwd, hget i hi]
  refine ⟨⟨last, hlast.trans hl, ?_, hbehind, ?_⟩, h.nodup⟩
  · exact hlink.congr (fun _ ↦ hfwd _ (Or.inl rfl))
      (fun i hi ↦ hfwd _ (Or.inr ⟨i, List.dropLast_subset l hi, rfl⟩))
      fun i hi ↦ by simp only [bwd, hget i hi]
  · rw [← hend]
    refine hfwd _ ?_
    rw [← hbehind]
    exact Slot.behind_mem .first l

theorem Represents.alloc (h : q.Represents l) : q.alloc.Represents l :=
  h.congr rfl rfl fun _ hi ↦ Heap.get?_alloc_of_live (h.live hi)

theorem Represents.free (h : q.Represents l) (hi : i ∉ l) : (q.free i).Represents l :=
  h.congr rfl rfl fun j hj ↦ Heap.get?_free_of_ne (by rintro rfl; exact hi hj)

/-! ## Going along the queue -/

/-- From a client on, in enough rounds. -/
theorem Represents.foreachFrom {m : List ℕ} (h : q.Represents (l ++ m)) {fuel : ℕ}
    (hf : m.length ≤ fuel) : q.foreachFrom fuel m.head? = .ok m := by
  induction m generalizing l fuel with
  | nil => cases fuel <;> rfl
  | cons i m ih =>
    obtain ⟨fuel, rfl⟩ : ∃ n, fuel = n + 1 := ⟨fuel - 1, by simp at hf; omega⟩
    have hrest := ih (l := l ++ [i]) (by simpa using h) (by simpa using hf)
    rw [List.head?_cons, Tailq.foreachFrom, h.next_eq, ok_bind, hrest, ok_bind]

/-- **`TAILQ_FOREACH` comes by the clients of the queue**, each once and in order, and ends. -/
theorem Represents.foreach (h : q.Represents l) : q.foreach = .ok l := by
  have hsub : l ⊆ List.range q.entries.next := fun i hi ↦ List.mem_range.2 (h.live hi).1
  have hlen := (h.nodup.subperm hsub).length_le
  rw [List.length_range] at hlen
  rw [Tailq.foreach, h.first_eq]
  exact Represents.foreachFrom (l := []) h hlen

end Tailq

/-! ## Any sequence of operations -/

/-- An operation on the queue, or on the memory of its clients. -/
inductive QueueOp
  /-- `malloc` and `memset` of a client. -/
  | alloc
  /-- `free` of a client. -/
  | free (elm : ℕ)
  /-- `TAILQ_INSERT_TAIL`. -/
  | insertTail (elm : ℕ)
  /-- `TAILQ_REMOVE`. -/
  | remove (elm : ℕ)
deriving DecidableEq, Repr

/-- What a queue is for: a list of some of the clients in memory. -/
structure ClientList where
  /-- The clients in memory. -/
  memory : Heap Unit
  /-- Those in the list. -/
  list : List ℕ
deriving DecidableEq

namespace ClientList

/-- No client. -/
def init : ClientList := ⟨.empty, []⟩

/-- What an operation does to the list; `none` if it is not allowed.  Only a client in memory that
is not in the list may be inserted or freed, and only one that is in the list may be removed. -/
def step (c : ClientList) : QueueOp → Option ClientList
  | .alloc => some { c with memory := c.memory.alloc () }
  | .free elm =>
    if c.memory.Live elm ∧ elm ∉ c.list then some { c with memory := c.memory.free elm } else none
  | .insertTail elm =>
    if c.memory.Live elm ∧ elm ∉ c.list then some { c with list := c.list ++ [elm] } else none
  | .remove elm => if elm ∈ c.list then some { c with list := c.list.erase elm } else none

end ClientList

namespace Tailq

/-- An operation. -/
def apply (q : Tailq) : QueueOp → Except Bug Tailq
  | .alloc => .ok q.alloc
  | .free elm => .ok (q.free elm)
  | .insertTail elm => q.insertTail elm
  | .remove elm => q.remove elm

/-- One operation after the other. -/
def applyAll (q : Tailq) : List QueueOp → Except Bug Tailq
  | [] => .ok q
  | op :: ops => do
    let q ← q.apply op
    q.applyAll ops

/-- The queue has the clients of the list, and the same clients are in memory. -/
structure Realizes (q : Tailq) (c : ClientList) : Prop where
  /-- The clients of the list. -/
  represents : q.Represents c.list
  /-- As many were allocated. -/
  next : q.entries.next = c.memory.next
  /-- The same were freed. -/
  freed : q.entries.freed = c.memory.freed

variable {q : Tailq} {c c' : ClientList} {i : ℕ} {op : QueueOp}

theorem realizes_init : init.Realizes .init := ⟨represents_init, rfl, rfl⟩

theorem Realizes.live (h : q.Realizes c) : q.entries.Live i ↔ c.memory.Live i := by
  rw [Heap.Live, Heap.Live, h.next, h.freed]

/-- **An operation that is allowed** does to the queue what it is to do to the list. -/
theorem Realizes.apply (h : q.Realizes c) (hstep : c.step op = some c') :
    ∃ q', q.apply op = .ok q' ∧ q'.Realizes c' := by
  cases op with
  | alloc =>
    cases hstep
    refine ⟨q.alloc, rfl, h.represents.alloc, ?_, h.freed⟩
    show (q.entries.alloc _).next = (c.memory.alloc ()).next
    rw [Heap.next_alloc, Heap.next_alloc, h.next]
  | free i =>
    rw [ClientList.step] at hstep
    split at hstep
    · rename_i hi
      cases hstep
      refine ⟨q.free i, rfl, h.represents.free hi.2, h.next, ?_⟩
      show (q.entries.free i).freed = (c.memory.free i).freed
      rw [Heap.freed_free, Heap.freed_free, h.freed]
    · exact absurd hstep (by simp)
  | insertTail i =>
    rw [ClientList.step] at hstep
    split at hstep
    · rename_i hi
      cases hstep
      obtain ⟨q', heq, hrep, hstays⟩ := h.represents.insertTail (h.live.2 hi.1) hi.2
      exact ⟨q', heq, hrep, hstays.next.trans h.next, hstays.freed.trans h.freed⟩
    · exact absurd hstep (by simp)
  | remove i =>
    rw [ClientList.step] at hstep
    split at hstep
    · rename_i hi
      cases hstep
      obtain ⟨a, b, hi, hlist, herase⟩ := List.exists_erase_eq hi
      have hrep := h.represents
      rw [hlist] at hrep
      obtain ⟨q', heq, hrep', hstays⟩ := hrep.remove
      exact ⟨q', heq, herase ▸ hrep', hstays.next.trans h.next, hstays.freed.trans h.freed⟩
    · exact absurd hstep (by simp)

theorem Realizes.applyAll {ops : List QueueOp} (h : q.Realizes c)
    (hexec : Machine.exec ClientList.step c ops = some c') :
    ∃ q', q.applyAll ops = .ok q' ∧ q'.Realizes c' := by
  induction ops generalizing q c with
  | nil =>
    cases hexec
    exact ⟨q, rfl, h⟩
  | cons op ops ih =>
    rw [Machine.exec] at hexec
    split at hexec
    · rename_i c₁ hstep
      obtain ⟨q₁, heq, hq₁⟩ := h.apply hstep
      obtain ⟨q', heq', hq'⟩ := ih hq₁ hexec
      exact ⟨q', by rw [Tailq.applyAll, heq, ok_bind, heq'], hq'⟩
    · exact absurd hexec (by simp)

/-- **The macros make a list.**  From the empty queue, any sequence of operations that are allowed
on the list touches only memory that is there, and the queue then has the clients of the list, in
order: `TAILQ_FOREACH` comes by each once and ends, `TAILQ_FIRST` is the first, `TAILQ_EMPTY` says
whether there is none, and `TAILQ_NEXT` of a client is the one that follows it. -/
theorem queue_refines_list {ops : List QueueOp}
    (h : Machine.exec ClientList.step .init ops = some c) : ∃ q, init.applyAll ops = .ok q ∧
      q.foreach = .ok c.list ∧ q.first = c.list.head? ∧ (q.empty = true ↔ c.list = []) ∧
      (∀ i, q.entries.Live i ↔ c.memory.Live i) ∧
      ∀ l i m, c.list = l ++ i :: m → q.next i = .ok m.head? := by
  obtain ⟨q, heq, hq⟩ := realizes_init.applyAll h
  refine ⟨q, heq, hq.represents.foreach, hq.represents.first_eq, hq.represents.empty_iff,
    fun i ↦ hq.live, fun l i m hlist ↦ ?_⟩
  have hrep := hq.represents
  rw [hlist] at hrep
  exact hrep.next_eq

/-- Three clients, of which the one in the middle goes. -/
theorem queue_refines_list_three : ∃ q, init.applyAll
      [.alloc, .insertTail 0, .alloc, .insertTail 1, .alloc, .insertTail 2, .remove 1, .free 1] =
        .ok q ∧ q.foreach = .ok [0, 2] ∧ q.next 0 = .ok (some 2) := by
  have hops : Machine.exec ClientList.step .init [.alloc, .insertTail 0, .alloc, .insertTail 1,
      .alloc, .insertTail 2, .remove 1, .free 1] = some ⟨⟨[(), (), ()], [1]⟩, [0, 2]⟩ := by decide
  obtain ⟨q, heq, hforeach, -, -, -, hnext⟩ := queue_refines_list hops
  exact ⟨q, heq, hforeach, hnext [] 0 [2] rfl⟩

end Tailq

end Aesd
