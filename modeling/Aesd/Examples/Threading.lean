import Mathlib.Logic.Function.Basic
import Mathlib.Algebra.Order.Ring.Int
import Mathlib.Data.List.Pairwise
import Aesd.Lib.Heap
import Aesd.Lib.Machine

/-!
# Threads that obtain a mutex

`start_thread_obtaining_mutex` and `threadfunc` of `threading.c`: any number of threads, of any
number of mutexes, each of which sleeps, locks its mutex, sleeps again and unlocks it.  Whoever
starts them may lock the mutexes as well, and joins the threads, which is when their data is freed.

Time goes by in microseconds, at any pace.  A `usleep` is over when its time has come, or before
that, if a signal interrupts it: the code does not ask.
-/

set_option autoImplicit false

namespace Aesd

namespace Threading

/-- `usleep(ms * 1000)`: the product is an `int`, and the parameter an unsigned number.  It is not
defined if the product is too large. -/
def sleepTime (ms : Int32) : Option ℕ :=
  let us := ms.toInt * 1000
  if -2 ^ 31 ≤ us ∧ us < 2 ^ 31 then some (us % 2 ^ 32).toNat else none

/-- A time that is not negative is what it should be; another one is more than half an hour. -/
theorem sleepTime_eq_some {ms : Int32} {us : ℕ} (h : sleepTime ms = some us) :
    (0 ≤ ms.toInt → (us : ℤ) = ms.toInt * 1000) ∧ (ms.toInt < 0 → 2 ^ 31 ≤ us) := by
  simp only [sleepTime, Option.ite_none_right_eq_some, Option.some_inj] at h
  obtain ⟨⟨hle, hlt⟩, rfl⟩ := h
  constructor
  · intro hms
    rw [Int.emod_eq_of_lt (by omega) (by omega)]
    omega
  · intro hms
    rw [← Int.add_emod_right, Int.emod_eq_of_lt (by omega) (by omega)]
    omega

/-- A thread does not sleep for less than it should. -/
theorem le_sleepTime {ms : Int32} {us : ℕ} (h : sleepTime ms = some us) :
    ms.toInt * 1000 ≤ us := by
  obtain ⟨hexact, -⟩ := sleepTime_eq_some h
  by_cases hms : 0 ≤ ms.toInt
  · exact (hexact hms).ge
  · omega

/-- `struct thread_data`. -/
structure ThreadData where
  /-- `mutex`. -/
  mutex : ℕ
  /-- `wait_to_obtain_ms`. -/
  waitToObtainMs : Int32
  /-- `wait_to_release_ms`. -/
  waitToReleaseMs : Int32
  /-- `thread_complete_success`. -/
  threadCompleteSuccess : Bool
deriving DecidableEq, Repr

/-- What `threadfunc` does next. -/
inductive Pc
  /-- The first `usleep`. -/
  | start
  /-- It sleeps. -/
  | obtaining (wake : ℕ)
  /-- `pthread_mutex_lock`. -/
  | lock
  /-- The second `usleep`; it has had the mutex since then. -/
  | locked (since : ℕ)
  /-- It sleeps with the mutex. -/
  | holding (since wake : ℕ)
  /-- `pthread_mutex_unlock`. -/
  | unlock (since : ℕ)
  /-- `thread_complete_success`. -/
  | complete
  /-- Nothing. -/
  | ended
deriving DecidableEq, Repr

/-- Since when it has the mutex. -/
def Pc.since : Pc → Option ℕ
  | .locked since => some since
  | .holding since _ => some since
  | .unlock since => some since
  | _ => none

/-- How much is still to be done. -/
def Pc.rest : Pc → ℕ
  | .start => 7
  | .obtaining _ => 6
  | .lock => 5
  | .locked _ => 4
  | .holding _ _ => 3
  | .unlock _ => 2
  | .complete => 1
  | .ended => 0

/-- A thread and its data. -/
structure Thread where
  /-- `data`. -/
  data : ThreadData
  /-- When it was created. -/
  created : ℕ
  /-- What it does next. -/
  pc : Pc
deriving DecidableEq, Repr

/-- Who has a mutex. -/
inductive Owner
  /-- A thread. -/
  | thread (i : ℕ)
  /-- Who starts the threads. -/
  | caller
deriving DecidableEq, Repr

/-- A time for which a thread had a mutex. -/
structure Hold where
  /-- The mutex. -/
  mutex : ℕ
  /-- The thread. -/
  thread : ℕ
  /-- When it was locked. -/
  obtained : ℕ
  /-- When it was unlocked. -/
  released : ℕ
deriving DecidableEq, Repr

/-- The threads. -/
structure Threads where
  /-- What time it is, in microseconds. -/
  now : ℕ
  /-- The threads, in the memory of their data. -/
  threads : Heap Thread
  /-- The mutexes. -/
  owner : ℕ → Option Owner
  /-- Who had a mutex, and when. -/
  holds : List Hold
  /-- A product was too large. -/
  overflow : Bool

/-- What a thread meets. -/
inductive ThreadEvent
  /-- It calls `usleep`. -/
  | usleep
  /-- `usleep` returns; not interrupted, or before its time. -/
  | wake (full : Bool)
  /-- `pthread_mutex_lock` works or not. -/
  | lock (ok : Bool)
  /-- `pthread_mutex_unlock` works or not. -/
  | unlock (ok : Bool)
  /-- It is done. -/
  | complete
deriving DecidableEq, Repr

/-- What happens. -/
inductive Event
  /-- `start_thread_obtaining_mutex`: `calloc` and `pthread_create` work or not. -/
  | start (mutex : ℕ) (waitToObtainMs waitToReleaseMs : Int32) (callocOk createOk : Bool)
  /-- A thread makes a step. -/
  | thread (i : ℕ) (e : ThreadEvent)
  /-- A thread is joined and its data is freed. -/
  | join (i : ℕ)
  /-- The caller locks a mutex. -/
  | lock (mutex : ℕ)
  /-- The caller unlocks it. -/
  | unlock (mutex : ℕ)
  /-- Time goes by. -/
  | tick
deriving DecidableEq, Repr

namespace Threads

/-- There is nothing yet. -/
def init : Threads := ⟨0, .empty, fun _ ↦ none, [], false⟩

/-- A thread goes on. -/
def goto (s : Threads) (i : ℕ) (x : Thread) (pc : Pc) : Threads :=
  { s with threads := s.threads.set i { x with pc := pc } }

/-- A thread calls `usleep`. -/
def usleep (s : Threads) (i : ℕ) (x : Thread) (ms : Int32) (pc : ℕ → Pc) : Threads :=
  match sleepTime ms with
  | some us => s.goto i x (pc (s.now + us))
  | none => { s with overflow := true }

/-- `start_thread_obtaining_mutex`. -/
def startThreadObtainingMutex (s : Threads) (mutex : ℕ) (waitToObtainMs waitToReleaseMs : Int32)
    (callocOk createOk : Bool) : Threads :=
  if !callocOk then s
  else
    let data : ThreadData := ⟨mutex, waitToObtainMs, waitToReleaseMs, false⟩
    if createOk then { s with threads := s.threads.alloc ⟨data, s.now, .start⟩ }
    else { s with threads := (s.threads.alloc ⟨data, s.now, .ended⟩).free s.threads.next }

/-- `threadfunc`. -/
def threadfunc (s : Threads) (i : ℕ) (x : Thread) : ThreadEvent → Option Threads
  | .usleep =>
    match x.pc with
    | .start => some (s.usleep i x x.data.waitToObtainMs .obtaining)
    | .locked since => some (s.usleep i x x.data.waitToReleaseMs (.holding since))
    | _ => none
  | .wake full =>
    match x.pc with
    | .obtaining wake => if full ∧ s.now < wake then none else some (s.goto i x .lock)
    | .holding since wake =>
      if full ∧ s.now < wake then none else some (s.goto i x (.unlock since))
    | _ => none
  | .lock ok =>
    if x.pc = .lock then
      if ok then
        if s.owner x.data.mutex = none then
          some (goto { s with owner := Function.update s.owner x.data.mutex (some (.thread i)) }
            i x (.locked s.now))
        else none
      else some (s.goto i x .ended)
    else none
  | .unlock ok =>
    match x.pc with
    | .unlock since =>
      if ok then
        some (goto { s with
          owner := Function.update s.owner x.data.mutex none
          holds := s.holds ++ [⟨x.data.mutex, i, since, s.now⟩] } i x .complete)
      else some (s.goto i x .ended)
    | _ => none
  | .complete =>
    if x.pc = .complete then
      some (s.goto i { x with data := { x.data with threadCompleteSuccess := true } } .ended)
    else none

/-- The machine. -/
def step (s : Threads) (e : Event) : Option Threads :=
  if s.overflow then none
  else
    match e with
    | .start mutex waitToObtainMs waitToReleaseMs callocOk createOk =>
      some (s.startThreadObtainingMutex mutex waitToObtainMs waitToReleaseMs callocOk createOk)
    | .thread i e =>
      match s.threads.get? i with
      | some x => s.threadfunc i x e
      | none => none
    | .join i =>
      match s.threads.get? i with
      | some x => if x.pc = .ended then some { s with threads := s.threads.free i } else none
      | none => none
    | .lock mutex =>
      if s.owner mutex = none then
        some { s with owner := Function.update s.owner mutex (some .caller) }
      else none
    | .unlock mutex =>
      if s.owner mutex = some .caller then
        some { s with owner := Function.update s.owner mutex none }
      else none
    | .tick => some { s with now := s.now + 1 }

/-! ## What a step can be -/

/-- How a thread goes on that has the mutex before and after, or not. -/
inductive Onward (now : ℕ) (data : ThreadData) : ThreadEvent → Pc → Pc → Prop
  /-- The first `usleep`. -/
  | sleep {us : ℕ} (h : sleepTime data.waitToObtainMs = some us) :
    Onward now data .usleep .start (.obtaining (now + us))
  /-- It is over. -/
  | wake {full : Bool} {wake : ℕ} (h : full = true → wake ≤ now) :
    Onward now data (.wake full) (.obtaining wake) .lock
  /-- The mutex cannot be locked. -/
  | noLock : Onward now data (.lock false) .lock .ended
  /-- The second `usleep`. -/
  | sleepAgain {since us : ℕ} (h : sleepTime data.waitToReleaseMs = some us) :
    Onward now data .usleep (.locked since) (.holding since (now + us))
  /-- It is over. -/
  | wakeAgain {full : Bool} {since wake : ℕ} (h : full = true → wake ≤ now) :
    Onward now data (.wake full) (.holding since wake) (.unlock since)

/-- What a step can be. -/
inductive Goes (s : Threads) : Event → Threads → Prop
  /-- There is no memory. -/
  | noMemory {mutex : ℕ} {o r : Int32} {createOk : Bool} :
    Goes s (.start mutex o r false createOk) s
  /-- A thread is created. -/
  | start (mutex : ℕ) (o r : Int32) : Goes s (.start mutex o r true true)
      { s with threads := s.threads.alloc ⟨⟨mutex, o, r, false⟩, s.now, .start⟩ }
  /-- It cannot be created. -/
  | noThread (mutex : ℕ) (o r : Int32) : Goes s (.start mutex o r true false)
      { s with
        threads := (s.threads.alloc ⟨⟨mutex, o, r, false⟩, s.now, .ended⟩).free s.threads.next }
  /-- A product is too large. -/
  | overflow {i : ℕ} {x : Thread} (hget : s.threads.get? i = some x)
    (hnone : sleepTime x.data.waitToObtainMs = none ∨ sleepTime x.data.waitToReleaseMs = none) :
    Goes s (.thread i .usleep) { s with overflow := true }
  /-- A thread goes on. -/
  | onward {i : ℕ} {x : Thread} {e : ThreadEvent} {pc : Pc} (hget : s.threads.get? i = some x)
    (hpc : Onward s.now x.data e x.pc pc) : Goes s (.thread i e) (s.goto i x pc)
  /-- It locks the mutex. -/
  | lock {i : ℕ} {x : Thread} (hget : s.threads.get? i = some x) (hpc : x.pc = .lock)
    (howner : s.owner x.data.mutex = none) : Goes s (.thread i (.lock true))
      (goto { s with owner := Function.update s.owner x.data.mutex (some (.thread i)) }
        i x (.locked s.now))
  /-- It unlocks the mutex. -/
  | unlock {i since : ℕ} {x : Thread} (hget : s.threads.get? i = some x)
    (hpc : x.pc = .unlock since) : Goes s (.thread i (.unlock true))
      (goto { s with
        owner := Function.update s.owner x.data.mutex none
        holds := s.holds ++ [⟨x.data.mutex, i, since, s.now⟩] } i x .complete)
  /-- It cannot be unlocked. -/
  | noUnlock {i since : ℕ} {x : Thread} (hget : s.threads.get? i = some x)
    (hpc : x.pc = .unlock since) : Goes s (.thread i (.unlock false)) (s.goto i x .ended)
  /-- It is done. -/
  | complete {i : ℕ} {x : Thread} (hget : s.threads.get? i = some x) (hpc : x.pc = .complete) :
    Goes s (.thread i .complete)
      (s.goto i { x with data := { x.data with threadCompleteSuccess := true } } .ended)
  /-- It is joined. -/
  | join {i : ℕ} {x : Thread} (hget : s.threads.get? i = some x) (hpc : x.pc = .ended) :
    Goes s (.join i) { s with threads := s.threads.free i }
  /-- The caller locks a mutex. -/
  | callerLock {mutex : ℕ} (howner : s.owner mutex = none) :
    Goes s (.lock mutex) { s with owner := Function.update s.owner mutex (some .caller) }
  /-- The caller unlocks it. -/
  | callerUnlock {mutex : ℕ} (howner : s.owner mutex = some .caller) :
    Goes s (.unlock mutex) { s with owner := Function.update s.owner mutex none }
  /-- Time goes by. -/
  | tick : Goes s .tick { s with now := s.now + 1 }

variable {s t : Threads} {e : Event}

theorem goes_usleep {i : ℕ} {x : Thread} {ms : Int32} {pc : ℕ → Pc}
    (hget : s.threads.get? i = some x)
    (hms : ms = x.data.waitToObtainMs ∨ ms = x.data.waitToReleaseMs)
    (hpc : ∀ us, sleepTime ms = some us → Onward s.now x.data .usleep x.pc (pc (s.now + us))) :
    s.Goes (.thread i .usleep) (s.usleep i x ms pc) := by
  rw [usleep]
  split
  · exact .onward hget (hpc _ ‹_›)
  · rename_i hnone
    refine .overflow hget ?_
    rcases hms with rfl | rfl
    · exact Or.inl hnone
    · exact Or.inr hnone

theorem goes_threadfunc {i : ℕ} {x : Thread} {e : ThreadEvent} (hget : s.threads.get? i = some x)
    (h : s.threadfunc i x e = some t) : s.Goes (.thread i e) t := by
  cases e with
  | usleep =>
    rw [threadfunc] at h
    split at h <;> rename_i hpc
    · cases h
      exact goes_usleep hget (Or.inl rfl) fun us hus ↦ hpc ▸ .sleep hus
    · cases h
      exact goes_usleep hget (Or.inr rfl) fun us hus ↦ hpc ▸ .sleepAgain hus
    · cases h
  | wake full =>
    rw [threadfunc] at h
    split at h <;> rename_i hpc
    · obtain ⟨hnot, h⟩ := Option.ite_none_left_eq_some.1 h
      cases h
      exact .onward hget (hpc ▸ .wake fun hf ↦ Nat.le_of_not_lt fun hlt ↦ hnot ⟨hf, hlt⟩)
    · obtain ⟨hnot, h⟩ := Option.ite_none_left_eq_some.1 h
      cases h
      exact .onward hget (hpc ▸ .wakeAgain fun hf ↦ Nat.le_of_not_lt fun hlt ↦ hnot ⟨hf, hlt⟩)
    · cases h
  | lock ok =>
    obtain ⟨hpc, h⟩ := Option.ite_none_right_eq_some.1 h
    cases ok with
    | false => cases h; exact .onward hget (hpc ▸ .noLock)
    | true =>
      obtain ⟨howner, h⟩ := Option.ite_none_right_eq_some.1 h
      cases h
      exact .lock hget hpc howner
  | unlock ok =>
    rw [threadfunc] at h
    split at h <;> rename_i hpc
    · cases ok with
      | false => cases h; exact .noUnlock hget hpc
      | true => cases h; exact .unlock hget hpc
    · cases h
  | complete =>
    obtain ⟨hpc, h⟩ := Option.ite_none_right_eq_some.1 h
    cases h
    exact .complete hget hpc

theorem step_cases (h : s.step e = some t) : s.Goes e t := by
  obtain ⟨-, h⟩ := Option.ite_none_left_eq_some.1 h
  cases e with
  | start mutex o r callocOk createOk =>
    cases h
    rw [startThreadObtainingMutex]
    cases callocOk with
    | false => exact .noMemory
    | true =>
      cases createOk with
      | false => exact .noThread mutex o r
      | true => exact .start mutex o r
  | thread i e =>
    dsimp only at h
    split at h
    · exact goes_threadfunc ‹_› h
    · cases h
  | join i =>
    dsimp only at h
    split at h
    · obtain ⟨hpc, h⟩ := Option.ite_none_right_eq_some.1 h
      cases h
      exact .join ‹_› hpc
    · cases h
  | lock mutex =>
    obtain ⟨howner, h⟩ := Option.ite_none_right_eq_some.1 h
    cases h
    exact .callerLock howner
  | unlock mutex =>
    obtain ⟨howner, h⟩ := Option.ite_none_right_eq_some.1 h
    cases h
    exact .callerUnlock howner
  | tick => cases h; exact .tick

/-! ## Who has a mutex -/

/-- **What the threads keep true.** -/
structure Inv (s : Threads) : Prop where
  /-- No data is freed twice. -/
  sound : s.threads.Sound
  /-- It is not freed before the thread has ended. -/
  live : ∀ (i : ℕ) (x : Thread), s.threads.cells[i]? = some x → x.pc ≠ .ended → s.threads.Live i
  /-- Who is between its calls has the mutex, and after all who had it before. -/
  owner : ∀ (i : ℕ) (x : Thread) (since : ℕ),
    s.threads.cells[i]? = some x → x.pc.since = some since →
    s.owner x.data.mutex = some (.thread i) ∧ since ≤ s.now ∧
      ∀ h ∈ s.holds, h.mutex = x.data.mutex → h.released ≤ since
  /-- Nobody had a mutex while another one had it. -/
  disjoint : s.holds.Pairwise fun a b ↦ a.mutex = b.mutex → a.released ≤ b.obtained
  /-- The times are past. -/
  past : ∀ h ∈ s.holds, h.released ≤ s.now
  /-- Who has succeeded had the mutex once, and nobody else. -/
  once : ∀ (i : ℕ) (x : Thread), s.threads.cells[i]? = some x →
    s.holds.countP (fun h ↦ h.thread = i)
      = if x.pc = .complete ∨ x.data.threadCompleteSuccess = true then 1 else 0
  /-- Who had a mutex was started with it. -/
  there : ∀ h ∈ s.holds, ∃ x : Thread, s.threads.cells[h.thread]? = some x ∧
    x.data.mutex = h.mutex
  /-- Who has succeeded has ended. -/
  ended : ∀ (i : ℕ) (x : Thread), s.threads.cells[i]? = some x →
    x.data.threadCompleteSuccess = true → x.pc = .ended

theorem inv_init : init.Inv where
  sound := Heap.sound_empty
  live _ _ hx := by cases hx
  owner _ _ _ hx := by cases hx
  disjoint := .nil
  past _ hh := by cases hh
  once _ _ hx := by cases hx
  there _ hh := by cases hh
  ended _ _ hx := by cases hx

/-- The threads after one has gone on. -/
theorem cells_set {threads : Heap Thread} {i j : ℕ} {x y : Thread}
    (h : (threads.set i x).cells[j]? = some y) :
    j = i ∧ y = x ∨ j ≠ i ∧ threads.cells[j]? = some y := by
  rw [Heap.set] at h
  by_cases hj : j = i
  · subst hj
    obtain ⟨hlt, heq⟩ := List.getElem?_eq_some_iff.1 h
    rw [List.getElem_set_self] at heq
    exact Or.inl ⟨rfl, heq.symm⟩
  · rw [List.getElem?_set_ne (Ne.symm hj)] at h
    exact Or.inr ⟨hj, h⟩

/-- The threads after one was added. -/
theorem cells_alloc {threads : Heap Thread} {j : ℕ} {x y : Thread}
    (h : (threads.alloc x).cells[j]? = some y) :
    threads.cells[j]? = some y ∨ j = threads.next ∧ y = x := by
  rw [Heap.alloc] at h
  rcases Nat.lt_or_ge j threads.cells.length with hlt | hge
  · exact Or.inl ((List.getElem?_append_left hlt).symm.trans h)
  · rw [List.getElem?_append_right hge, List.getElem?_singleton] at h
    split at h
    · cases h
      exact Or.inr ⟨by rw [Heap.next]; omega, rfl⟩
    · cases h

section Moves

variable {i : ℕ} {x y : Thread} {pc : Pc}

/-- A thread that has not ended has not succeeded. -/
theorem Inv.not_success (h : s.Inv) (hget : s.threads.get? i = some x) (hpc : x.pc ≠ .ended) :
    x.data.threadCompleteSuccess = false :=
  Bool.eq_false_iff.2 fun hs ↦ hpc (h.ended i x (Heap.getElem?_of_get? hget) hs)

theorem Inv.live_set (h : s.Inv) (hget : s.threads.get? i = some x) (j : ℕ) (z : Thread)
    (hz : (s.threads.set i y).cells[j]? = some z) (hpc : z.pc ≠ .ended) :
    (s.threads.set i y).Live j := by
  rw [Heap.live_set]
  rcases cells_set hz with ⟨rfl, -⟩ | ⟨-, hz⟩
  · exact Heap.live_of_get? hget
  · exact h.live j z hz hpc

theorem Inv.ended_set (h : s.Inv) (hy : y.data.threadCompleteSuccess = true → y.pc = .ended)
    (j : ℕ) (z : Thread) (hz : (s.threads.set i y).cells[j]? = some z)
    (hs : z.data.threadCompleteSuccess = true) : z.pc = .ended := by
  rcases cells_set hz with ⟨rfl, rfl⟩ | ⟨-, hz⟩
  · exact hy hs
  · exact h.ended j z hz hs

theorem Inv.there_set (h : s.Inv) (hget : s.threads.get? i = some x)
    (hdata : y.data.mutex = x.data.mutex) (hold : Hold) (hh : hold ∈ s.holds) :
    ∃ z : Thread, (s.threads.set i y).cells[hold.thread]? = some z ∧ z.data.mutex = hold.mutex := by
  obtain ⟨z, hz, hmutex⟩ := h.there hold hh
  rw [Heap.set]
  by_cases hi : i = hold.thread
  · obtain rfl := Option.some_inj.1 ((hi ▸ Heap.getElem?_of_get? hget).symm.trans hz)
    exact ⟨y, hi ▸ List.getElem?_set_self (Heap.live_of_get? hget).1, hdata.trans hmutex⟩
  · exact ⟨z, (List.getElem?_set_ne hi).trans hz, hmutex⟩

/-- A thread goes on with the mutex or without it. -/
theorem Inv.keeps (h : s.Inv) (hget : s.threads.get? i = some x)
    (hdata : y.data.mutex = x.data.mutex)
    (hsince : ∀ since, y.pc.since = some since → x.pc.since = some since)
    (hend : y.data.threadCompleteSuccess = true → y.pc = .ended)
    (hcomplete : y.pc = .complete ∨ y.data.threadCompleteSuccess = true ↔
      x.pc = .complete ∨ x.data.threadCompleteSuccess = true) :
    Inv { s with threads := s.threads.set i y } where
  sound := h.sound.set i y
  live := h.live_set hget
  owner j z since hz hpc := by
    rcases cells_set hz with ⟨rfl, rfl⟩ | ⟨-, hz⟩
    · rw [hdata]
      exact h.owner j x since (Heap.getElem?_of_get? hget) (hsince since hpc)
    · exact h.owner j z since hz hpc
  disjoint := h.disjoint
  past := h.past
  once j z hz := by
    rcases cells_set hz with ⟨rfl, rfl⟩ | ⟨-, hz⟩
    · simpa only [hcomplete] using h.once j x (Heap.getElem?_of_get? hget)
    · exact h.once j z hz
  there := h.there_set hget hdata
  ended := h.ended_set hend

/-- A thread locks its mutex. -/
theorem Inv.locks (h : s.Inv) (hget : s.threads.get? i = some x) (hpc : x.pc = .lock)
    (howner : s.owner x.data.mutex = none) :
    (goto { s with owner := Function.update s.owner x.data.mutex (some (.thread i)) }
      i x (.locked s.now)).Inv where
  sound := h.sound.set i _
  live := h.live_set hget
  owner j y since hy hsince := by
    rcases cells_set hy with ⟨rfl, rfl⟩ | ⟨-, hy⟩
    · cases hsince
      exact ⟨Function.update_self .., Nat.le_refl _, fun hold hh _ ↦ h.past hold hh⟩
    · -- it has another mutex
      obtain ⟨hj, hle, hafter⟩ := h.owner j y since hy hsince
      have hne : y.data.mutex ≠ x.data.mutex := fun heq ↦ by rw [heq, howner] at hj; cases hj
      exact ⟨(Function.update_of_ne hne ..).trans hj, hle, hafter⟩
  disjoint := h.disjoint
  past := h.past
  once j y hy := by
    rcases cells_set hy with ⟨rfl, rfl⟩ | ⟨-, hy⟩
    · simpa [goto, hpc] using h.once j x (Heap.getElem?_of_get? hget)
    · exact h.once j y hy
  there := h.there_set hget rfl
  ended := h.ended_set fun hs ↦ by
    have hnot := h.not_success hget (by rw [hpc]; simp)
    rw [hnot] at hs
    cases hs

/-- A thread unlocks its mutex. -/
theorem Inv.unlocks (h : s.Inv) {since : ℕ} (hget : s.threads.get? i = some x)
    (hpc : x.pc = .unlock since) :
    (goto { s with
      owner := Function.update s.owner x.data.mutex none
      holds := s.holds ++ [⟨x.data.mutex, i, since, s.now⟩] } i x .complete).Inv := by
  have hcell := Heap.getElem?_of_get? hget
  have hnot := h.not_success hget (by rw [hpc]; simp)
  obtain ⟨hown, -, hafter⟩ := h.owner i x since hcell (by rw [hpc]; rfl)
  refine ⟨h.sound.set i _, h.live_set hget, fun j y since' hy hsince ↦ ?_, ?_, fun hold hh ↦ ?_,
    fun j y hy ↦ ?_, fun hold hh ↦ ?_, h.ended_set fun hs ↦ ?_⟩
  · rcases cells_set hy with ⟨rfl, rfl⟩ | ⟨hj, hy⟩
    · cases hsince
    · -- it has another mutex
      obtain ⟨hown', hle, hafter'⟩ := h.owner j y since' hy hsince
      have hne : y.data.mutex ≠ x.data.mutex := fun heq ↦ by
        rw [heq, hown] at hown'
        cases hown'
        exact hj rfl
      refine ⟨(Function.update_of_ne hne ..).trans hown', hle, fun hold hh hmutex ↦ ?_⟩
      rcases List.mem_append.1 hh with hh | hh
      · exact hafter' hold hh hmutex
      · rw [List.mem_singleton.1 hh] at hmutex
        exact absurd hmutex.symm hne
  · refine List.pairwise_append.2 ⟨h.disjoint, List.pairwise_singleton _ _, fun a ha b hb hm ↦ ?_⟩
    rw [List.mem_singleton.1 hb] at hm ⊢
    exact hafter a ha hm
  · rcases List.mem_append.1 hh with hh | hh
    · exact h.past hold hh
    · rw [List.mem_singleton.1 hh]
      exact Nat.le_refl _
  · have hlast : ∀ k, List.countP (fun h ↦ h.thread = k)
        [(⟨x.data.mutex, i, since, s.now⟩ : Hold)] = if i = k then 1 else 0 := fun k ↦ by
      by_cases hk : i = k <;> simp [hk]
    rw [goto, List.countP_append, hlast]
    rcases cells_set hy with ⟨rfl, rfl⟩ | ⟨hj, hy⟩
    · rw [h.once j x hcell, if_pos rfl, if_pos (Or.inl rfl), if_neg (by simp [hpc, hnot])]
    · rw [h.once j y hy, if_neg (Ne.symm hj), Nat.add_zero]
  · rcases List.mem_append.1 hh with hh | hh
    · exact h.there_set (y := { x with pc := .complete }) hget rfl hold hh
    · rw [List.mem_singleton.1 hh]
      exact ⟨_, List.getElem?_set_self (Heap.live_of_get? hget).1, rfl⟩
  · rw [show x.data.threadCompleteSuccess = false from hnot] at hs
    cases hs

/-- A thread is added that has not had a mutex. -/
theorem Inv.adds (h : s.Inv) (hsuccess : y.data.threadCompleteSuccess = false)
    (hpc : y.pc = .start ∨ y.pc = .ended) :
    Inv { s with threads := s.threads.alloc y } := by
  have hsince : y.pc.since = none := by rcases hpc with hpc | hpc <;> rw [hpc] <;> rfl
  have hcomplete : y.pc ≠ .complete := by rcases hpc with hpc | hpc <;> simp [hpc]
  refine ⟨h.sound.alloc y, fun j z hz hne ↦ ?_, fun j z since hz hs ↦ ?_, h.disjoint, h.past,
    fun j z hz ↦ ?_, fun hold hh ↦ ?_, fun j z hz hs ↦ ?_⟩
  · rw [Heap.live_alloc h.sound.next_notMem]
    rcases cells_alloc hz with hz | ⟨rfl, rfl⟩
    · exact Or.inr (h.live j z hz hne)
    · exact Or.inl rfl
  · rcases cells_alloc hz with hz | ⟨rfl, rfl⟩
    · exact h.owner j z since hz hs
    · rw [hsince] at hs
      cases hs
  · rcases cells_alloc hz with hz | ⟨rfl, rfl⟩
    · exact h.once j z hz
    · rw [if_neg (by simp [hcomplete, hsuccess]), List.countP_eq_zero]
      intro hold hh
      obtain ⟨x, hx, -⟩ := h.there hold hh
      have hlt : hold.thread < s.threads.next := (List.getElem?_eq_some_iff.1 hx).1
      simpa using hlt.ne
  · obtain ⟨x, hx, hmutex⟩ := h.there hold hh
    exact ⟨x, (List.getElem?_append_left (List.getElem?_eq_some_iff.1 hx).1).trans hx, hmutex⟩
  · rcases cells_alloc hz with hz | ⟨rfl, rfl⟩
    · exact h.ended j z hz hs
    · rw [hsuccess] at hs
      cases hs

/-- The data of a thread is freed that has ended. -/
theorem Inv.frees (h : s.Inv) (hget : s.threads.get? i = some x) (hpc : x.pc = .ended) :
    Inv { s with threads := s.threads.free i } where
  sound := h.sound.free (Heap.live_of_get? hget)
  live j y hy hne := by
    refine Heap.live_free.2 ⟨fun heq ↦ ?_, h.live j y hy hne⟩
    have hcell : s.threads.cells[j]? = some x := heq ▸ Heap.getElem?_of_get? hget
    have hsame : y = x := Option.some_inj.1 (hy.symm.trans hcell)
    exact hne (hsame ▸ hpc)
  owner := h.owner
  disjoint := h.disjoint
  past := h.past
  once := h.once
  there := h.there
  ended := h.ended

/-- The caller has a mutex that no thread has. -/
theorem Inv.caller (h : s.Inv) {mutex : ℕ} {o : Option Owner}
    (howner : ∀ i, s.owner mutex ≠ some (.thread i)) :
    Inv { s with owner := Function.update s.owner mutex o } where
  sound := h.sound
  live := h.live
  owner j y since hy hsince := by
    obtain ⟨hj, hle, hafter⟩ := h.owner j y since hy hsince
    have hne : y.data.mutex ≠ mutex := fun heq ↦ howner j (heq ▸ hj)
    exact ⟨(Function.update_of_ne hne ..).trans hj, hle, hafter⟩
  disjoint := h.disjoint
  past := h.past
  once := h.once
  there := h.there
  ended := h.ended

end Moves

/-- Between the calls that lock and unlock it, it has had the mutex since the same time. -/
theorem Onward.since {now : ℕ} {data : ThreadData} {e : ThreadEvent} {pc pc' : Pc}
    (h : Onward now data e pc pc') :
    pc ≠ .ended ∧ pc ≠ .complete ∧ pc' ≠ .complete ∧ pc'.since = pc.since := by
  cases h <;> simp [Pc.since]

theorem Inv.goes (h : s.Inv) (hgoes : s.Goes e t) : t.Inv := by
  cases hgoes with
  | noMemory => exact h
  | start => exact h.adds rfl (Or.inl rfl)
  | noThread mutex o r =>
    have hadds := h.adds (y := ⟨⟨mutex, o, r, false⟩, s.now, .ended⟩) rfl (Or.inr rfl)
    exact hadds.frees (Heap.get?_alloc_next h.sound.next_notMem) rfl
  | overflow => exact ⟨h.sound, h.live, h.owner, h.disjoint, h.past, h.once, h.there, h.ended⟩
  | @onward i x e pc hget hpc =>
    obtain ⟨hend, hnot, hnot', hsince⟩ := hpc.since
    have hsuccess := h.not_success hget hend
    refine h.keeps hget rfl (fun since hs ↦ hsince ▸ hs) (fun hs ↦ ?_) (by simp [hnot, hnot'])
    rw [show x.data.threadCompleteSuccess = false from hsuccess] at hs
    cases hs
  | lock hget hpc howner => exact h.locks hget hpc howner
  | unlock hget hpc => exact h.unlocks hget hpc
  | @noUnlock i since x hget hpc =>
    have hsuccess := h.not_success hget (by rw [hpc]; simp)
    exact h.keeps hget rfl (fun _ hs ↦ by cases hs) (fun _ ↦ rfl) (by simp [hpc])
  | complete hget hpc =>
    exact h.keeps hget rfl (fun _ hs ↦ by cases hs) (fun _ ↦ rfl) (by simp [hpc])
  | join hget hpc => exact h.frees hget hpc
  | callerLock howner => exact h.caller fun i hi ↦ by rw [howner] at hi; cases hi
  | callerUnlock howner => exact h.caller fun i hi ↦ by rw [howner] at hi; cases hi
  | tick =>
    exact ⟨h.sound, h.live, fun i x since hx hs ↦
      have ⟨hown, hle, hafter⟩ := h.owner i x since hx hs
      ⟨hown, Nat.le_succ_of_le hle, hafter⟩, h.disjoint,
      fun hold hh ↦ Nat.le_succ_of_le (h.past hold hh), h.once, h.there, h.ended⟩

/-! ## How long -/

/-- The times of a thread, in microseconds: none is early. -/
def OnTime (x : Thread) (now : ℕ) : Prop :=
  match x.pc with
  | .start => x.created ≤ now
  | .obtaining wake => x.created + x.data.waitToObtainMs.toInt * 1000 ≤ wake
  | .lock => x.created + x.data.waitToObtainMs.toInt * 1000 ≤ now
  | .locked since => x.created + x.data.waitToObtainMs.toInt * 1000 ≤ since ∧ since ≤ now
  | .holding since wake => x.created + x.data.waitToObtainMs.toInt * 1000 ≤ since ∧
    since + x.data.waitToReleaseMs.toInt * 1000 ≤ wake
  | .unlock since => x.created + x.data.waitToObtainMs.toInt * 1000 ≤ since ∧
    since + x.data.waitToReleaseMs.toInt * 1000 ≤ now
  | .complete => True
  | .ended => True

/-- The thread had the mutex as late, and as long, as it should. -/
def Fits (h : Hold) (x : Thread) : Prop :=
  x.created + x.data.waitToObtainMs.toInt * 1000 ≤ h.obtained ∧
    h.obtained + x.data.waitToReleaseMs.toInt * 1000 ≤ h.released

/-- No `usleep` is interrupted. -/
def SleepOk (_ : Threads) : Event → Prop
  | .thread _ e => e ≠ .wake false
  | _ => True

instance (s : Threads) : DecidablePred s.SleepOk := fun e ↦
  match e with
  | .thread _ _ => inferInstanceAs (Decidable (_ ≠ _))
  | .start _ _ _ _ _ => inferInstanceAs (Decidable True)
  | .join _ => inferInstanceAs (Decidable True)
  | .lock _ => inferInstanceAs (Decidable True)
  | .unlock _ => inferInstanceAs (Decidable True)
  | .tick => inferInstanceAs (Decidable True)

/-- The next step of a thread is not early either. -/
theorem Onward.onTime {now : ℕ} {x : Thread} {e : ThreadEvent} {pc : Pc}
    (h : Onward now x.data e x.pc pc) (he : e ≠ .wake false) (hx : OnTime x now) :
    OnTime { x with pc := pc } now := by
  obtain ⟨data, created, pc₀⟩ := x
  cases h with
  | sleep hus =>
    have hle : data.waitToObtainMs.toInt * 1000 ≤ _ := le_sleepTime hus
    simp only [OnTime] at hx ⊢
    omega
  | wake hwake =>
    have hle := hwake (Bool.eq_true_of_not_eq_false fun hf ↦ he (by rw [hf]))
    simp only [OnTime] at hx ⊢
    omega
  | noLock => trivial
  | sleepAgain hus =>
    have hle : data.waitToReleaseMs.toInt * 1000 ≤ _ := le_sleepTime hus
    simp only [OnTime] at hx ⊢
    omega
  | wakeAgain hwake =>
    have hle := hwake (Bool.eq_true_of_not_eq_false fun hf ↦ he (by rw [hf]))
    simp only [OnTime] at hx ⊢
    omega

theorem OnTime.tick {x : Thread} {now : ℕ} (h : OnTime x now) : OnTime x (now + 1) := by
  obtain ⟨data, created, pc⟩ := x
  cases pc <;> simp only [OnTime] at h ⊢ <;> omega

/-- **The times**, if no `usleep` is interrupted. -/
structure Timely (s : Threads) : Prop where
  /-- Those of the threads. -/
  threads : ∀ (i : ℕ) (x : Thread), s.threads.cells[i]? = some x → OnTime x s.now
  /-- Those at which they had the mutexes. -/
  holds : ∀ h ∈ s.holds, ∃ x : Thread, s.threads.cells[h.thread]? = some x ∧ Fits h x

variable {i : ℕ} {x y : Thread}

theorem Timely.set (h : s.Timely) (hget : s.threads.get? i = some x)
    (hcreated : y.created = x.created)
    (hobtain : y.data.waitToObtainMs = x.data.waitToObtainMs)
    (hrelease : y.data.waitToReleaseMs = x.data.waitToReleaseMs) (hy : OnTime y s.now) :
    Timely { s with threads := s.threads.set i y } where
  threads j z hz := by
    rcases cells_set hz with ⟨rfl, rfl⟩ | ⟨-, hz⟩
    · exact hy
    · exact h.threads j z hz
  holds hold hh := by
    obtain ⟨z, hz, hfits⟩ := h.holds hold hh
    by_cases hi : i = hold.thread
    · obtain rfl := Option.some_inj.1 ((hi ▸ Heap.getElem?_of_get? hget).symm.trans hz)
      refine ⟨y, hi ▸ List.getElem?_set_self (Heap.live_of_get? hget).1, ?_⟩
      rwa [Fits, hcreated, hobtain, hrelease]
    · exact ⟨z, (List.getElem?_set_ne hi).trans hz, hfits⟩

theorem Timely.adds (h : s.Timely) (hy : OnTime y s.now) :
    Timely { s with threads := s.threads.alloc y } where
  threads j z hz := by
    rcases cells_alloc hz with hz | ⟨-, rfl⟩
    · exact h.threads j z hz
    · exact hy
  holds hold hh := by
    obtain ⟨x, hx, hfits⟩ := h.holds hold hh
    exact ⟨x, (List.getElem?_append_left (List.getElem?_eq_some_iff.1 hx).1).trans hx, hfits⟩

theorem Timely.goes (h : s.Timely) (he : s.SleepOk e) (hgoes : s.Goes e t) : t.Timely := by
  cases hgoes with
  | start mutex o r =>
    exact h.adds (y := ⟨⟨mutex, o, r, false⟩, s.now, .start⟩) (Nat.le_refl _)
  | noThread mutex o r =>
    have hadds := h.adds (y := ⟨⟨mutex, o, r, false⟩, s.now, .ended⟩) trivial
    exact ⟨hadds.threads, hadds.holds⟩
  | @onward i x e pc hget hpc =>
    exact h.set hget rfl rfl rfl (hpc.onTime he (h.threads i x (Heap.getElem?_of_get? hget)))
  | @lock i x hget hpc howner =>
    have hx := h.threads i x (Heap.getElem?_of_get? hget)
    rw [OnTime, hpc] at hx
    have hset := h.set (y := { x with pc := .locked s.now }) hget rfl rfl rfl
      ⟨hx, Nat.le_refl _⟩
    exact ⟨hset.threads, hset.holds⟩
  | @unlock i since x hget hpc =>
    have hx := h.threads i x (Heap.getElem?_of_get? hget)
    rw [OnTime, hpc] at hx
    have hset := h.set (y := { x with pc := .complete }) hget rfl rfl rfl trivial
    refine ⟨hset.threads, fun hold hh ↦ ?_⟩
    rcases List.mem_append.1 hh with hh | hh
    · exact hset.holds hold hh
    · rw [List.mem_singleton.1 hh]
      exact ⟨_, List.getElem?_set_self (Heap.live_of_get? hget).1, hx⟩
  | noUnlock hget => exact h.set hget rfl rfl rfl trivial
  | complete hget => exact h.set hget rfl rfl rfl trivial
  | tick => exact ⟨fun i x hx ↦ (h.threads i x hx).tick, h.holds⟩
  | _ => exact ⟨h.threads, h.holds⟩

/-! ## That it ends -/

/-- The times are not too large, and a mutex that is locked can be unlocked. -/
def Orderly (_ : Threads) : Event → Prop
  | .start _ waitToObtainMs waitToReleaseMs _ _ =>
    (sleepTime waitToObtainMs).isSome = true ∧ (sleepTime waitToReleaseMs).isSome = true
  | .thread _ e => e ≠ .unlock false
  | _ => True

instance (s : Threads) : DecidablePred s.Orderly := fun e ↦
  match e with
  | .start _ _ _ _ _ => inferInstanceAs (Decidable (_ ∧ _))
  | .thread _ _ => inferInstanceAs (Decidable (_ ≠ _))
  | .join _ => inferInstanceAs (Decidable True)
  | .lock _ => inferInstanceAs (Decidable True)
  | .unlock _ => inferInstanceAs (Decidable True)
  | .tick => inferInstanceAs (Decidable True)

/-- Only the threads that are there go on, and nothing fails. -/
def Fine (_ : Threads) : Event → Prop
  | .thread _ e => e ≠ .wake false ∧ e ≠ .lock false ∧ e ≠ .unlock false
  | .tick => True
  | _ => False

/-- **What makes the threads end**, as long as nothing fails that they cannot help. -/
structure Ready (s : Threads) : Prop where
  /-- What they should not do did not happen. -/
  overflow : s.overflow = false
  /-- Nor will it. -/
  sleeps : ∀ (i : ℕ) (x : Thread), s.threads.cells[i]? = some x →
    (sleepTime x.data.waitToObtainMs).isSome = true ∧
      (sleepTime x.data.waitToReleaseMs).isSome = true
  /-- Which thread has a mutex will unlock it. -/
  held : ∀ (mutex i : ℕ), s.owner mutex = some (.thread i) →
    ∃ x : Thread, s.threads.cells[i]? = some x ∧ x.data.mutex = mutex ∧ x.pc.since.isSome = true

theorem ready_init : init.Ready where
  overflow := rfl
  sleeps _ _ hx := by cases hx
  held _ _ ho := by cases ho

/-- A thread goes on, and still unlocks what it has. -/
theorem Ready.set (h : s.Ready) (hget : s.threads.get? i = some x) {owner : ℕ → Option Owner}
    {holds : List Hold} (hobtain : y.data.waitToObtainMs = x.data.waitToObtainMs)
    (hrelease : y.data.waitToReleaseMs = x.data.waitToReleaseMs)
    (howner : ∀ mutex j, owner mutex = some (.thread j) →
      j = i ∧ y.data.mutex = mutex ∧ y.pc.since.isSome = true ∨
      j ≠ i ∧ s.owner mutex = some (.thread j)) :
    Ready { s with threads := s.threads.set i y, owner := owner, holds := holds } where
  overflow := h.overflow
  sleeps j z hz := by
    rcases cells_set hz with ⟨rfl, rfl⟩ | ⟨-, hz⟩
    · rw [hobtain, hrelease]
      exact h.sleeps j x (Heap.getElem?_of_get? hget)
    · exact h.sleeps j z hz
  held mutex j ho := by
    rcases howner mutex j ho with ⟨rfl, hmutex, hsince⟩ | ⟨hj, ho⟩
    · exact ⟨y, List.getElem?_set_self (Heap.live_of_get? hget).1, hmutex, hsince⟩
    · obtain ⟨z, hz, hrest⟩ := h.held mutex j ho
      exact ⟨z, (List.getElem?_set_ne (Ne.symm hj)).trans hz, hrest⟩

/-- A thread goes on that has no mutex, or keeps it. -/
theorem Ready.keeps (h : s.Ready) (hget : s.threads.get? i = some x)
    (hobtain : y.data.waitToObtainMs = x.data.waitToObtainMs)
    (hrelease : y.data.waitToReleaseMs = x.data.waitToReleaseMs)
    (hmutex : y.data.mutex = x.data.mutex) (hsince : x.pc.since.isSome = y.pc.since.isSome) :
    Ready { s with threads := s.threads.set i y } := by
  refine h.set hget hobtain hrelease fun mutex j ho ↦ ?_
  by_cases hj : j = i
  · subst hj
    obtain ⟨z, hz, hm, hs⟩ := h.held mutex j ho
    obtain rfl := Option.some_inj.1 ((Heap.getElem?_of_get? hget).symm.trans hz)
    exact Or.inl ⟨rfl, hmutex.trans hm, hsince ▸ hs⟩
  · exact Or.inr ⟨hj, ho⟩

theorem Ready.adds (h : s.Ready) (hobtain : (sleepTime y.data.waitToObtainMs).isSome = true)
    (hrelease : (sleepTime y.data.waitToReleaseMs).isSome = true) :
    Ready { s with threads := s.threads.alloc y } where
  overflow := h.overflow
  sleeps j z hz := by
    rcases cells_alloc hz with hz | ⟨-, rfl⟩
    · exact h.sleeps j z hz
    · exact ⟨hobtain, hrelease⟩
  held mutex j ho := by
    obtain ⟨x, hx, hrest⟩ := h.held mutex j ho
    exact ⟨x, (List.getElem?_append_left (List.getElem?_eq_some_iff.1 hx).1).trans hx, hrest⟩

/-- The caller has a mutex or gives it back. -/
theorem Ready.caller (h : s.Ready) {mutex : ℕ} {o : Option Owner}
    (ho : ∀ i, o ≠ some (.thread i)) :
    Ready { s with owner := Function.update s.owner mutex o } := by
  refine ⟨h.overflow, h.sleeps, fun m i hm ↦ ?_⟩
  have hm : Function.update s.owner mutex o m = some (.thread i) := hm
  by_cases heq : m = mutex
  · subst heq
    rw [Function.update_self] at hm
    exact absurd hm (ho i)
  · rw [Function.update_of_ne heq] at hm
    exact h.held m i hm

theorem Ready.goes (h : s.Ready) (he : s.Orderly e) (hgoes : s.Goes e t) : t.Ready := by
  cases hgoes with
  | noMemory => exact h
  | start => exact h.adds he.1 he.2
  | noThread mutex o r =>
    have hadds := h.adds (y := ⟨⟨mutex, o, r, false⟩, s.now, .ended⟩) he.1 he.2
    exact ⟨hadds.overflow, hadds.sleeps, hadds.held⟩
  | overflow hget hnone =>
    obtain ⟨hobtain, hrelease⟩ := h.sleeps _ _ (Heap.getElem?_of_get? hget)
    rcases hnone with hnone | hnone
    · rw [hnone] at hobtain
      cases hobtain
    · rw [hnone] at hrelease
      cases hrelease
  | onward hget hpc =>
    exact h.keeps hget rfl rfl rfl (by rw [hpc.since.2.2.2])
  | @lock i x hget hpc howner =>
    have hown : ∀ mutex j, Function.update s.owner x.data.mutex (some (.thread i)) mutex
        = some (.thread j) → j = i ∧ x.data.mutex = mutex ∧ (some s.now).isSome = true ∨
          j ≠ i ∧ s.owner mutex = some (.thread j) := by
      intro mutex j ho
      by_cases hm : mutex = x.data.mutex
      · subst hm
        rw [Function.update_self] at ho
        cases ho
        exact Or.inl ⟨rfl, rfl, rfl⟩
      · rw [Function.update_of_ne hm] at ho
        refine Or.inr ⟨?_, ho⟩
        rintro rfl
        -- it had none before
        obtain ⟨z, hz, -, hs⟩ := h.held mutex j ho
        obtain rfl := Option.some_inj.1 ((Heap.getElem?_of_get? hget).symm.trans hz)
        rw [hpc] at hs
        cases hs
    exact h.set hget rfl rfl hown
  | @unlock i since x hget hpc =>
    have hown : ∀ mutex j, Function.update s.owner x.data.mutex none mutex = some (.thread j) →
        j ≠ i ∧ s.owner mutex = some (.thread j) := by
      intro mutex j ho
      by_cases hm : mutex = x.data.mutex
      · subst hm
        rw [Function.update_self] at ho
        cases ho
      · rw [Function.update_of_ne hm] at ho
        refine ⟨?_, ho⟩
        rintro rfl
        -- it had no other
        obtain ⟨z, hz, hmutex, -⟩ := h.held mutex j ho
        obtain rfl := Option.some_inj.1 ((Heap.getElem?_of_get? hget).symm.trans hz)
        exact hm hmutex.symm
    exact h.set hget rfl rfl fun mutex j ho ↦ Or.inr (hown mutex j ho)
  | noUnlock => exact absurd rfl he
  | complete hget hpc => exact h.keeps hget rfl rfl rfl (by rw [hpc]; rfl)
  | join => exact ⟨h.overflow, h.sleeps, h.held⟩
  | callerLock => exact h.caller (by simp)
  | callerUnlock => exact h.caller (by simp)
  | tick => exact ⟨h.overflow, h.sleeps, h.held⟩

/-- A thread's step in a state where nothing is wrong. -/
theorem step_thread {e : ThreadEvent} (hover : s.overflow = false)
    (hget : s.threads.get? i = some x) : s.step (.thread i e) = s.threadfunc i x e := by
  rw [step, if_neg (by simp [hover]), hget]

/-- Any time can come. -/
theorem waits (hover : s.overflow = false) (n : ℕ) :
    Machine.Reachable step Fine s { s with now := s.now + n } := by
  induction n with
  | zero => exact .refl s
  | succ n ih =>
    have hstep : step { s with now := s.now + n } .tick
        = some { s with now := s.now + (n + 1) } := by
      rw [step, if_neg (by simp [hover])]
      rfl
    exact ih.trans (.single (by simp [Fine]) hstep)

/-- **A thread goes on** if nobody has its mutex, or it has it itself. -/
theorem Ready.advances (h : s.Ready) (hget : s.threads.get? i = some x) (hpc : x.pc ≠ .ended)
    (hfree : x.pc.since = none → s.owner x.data.mutex = none) :
    ∃ (t : Threads) (y : Thread), Machine.Reachable step Fine s t ∧
      t.threads = s.threads.set i y ∧ y.data.mutex = x.data.mutex ∧ y.pc.rest < x.pc.rest ∧
      (y.pc = .ended → y.data.threadCompleteSuccess = true) ∧
      (y.pc.since = none → t.owner x.data.mutex = none) := by
  have hover := h.overflow
  obtain ⟨hobtain, hrelease⟩ := h.sleeps i x (Heap.getElem?_of_get? hget)
  obtain ⟨obtainUs, hobtain⟩ := Option.isSome_iff_exists.1 hobtain
  obtain ⟨releaseUs, hrelease⟩ := Option.isSome_iff_exists.1 hrelease
  cases hx : x.pc with
  | start =>
    have hstep : s.step (.thread i .usleep)
        = some (s.goto i x (.obtaining (s.now + obtainUs))) := by
      simp only [step_thread hover hget, threadfunc, hx, usleep, hobtain]
    exact ⟨_, _, .single (by simp [Fine]) hstep, rfl, rfl, by simp [Pc.rest], by simp,
      fun _ ↦ hfree (by rw [hx]; rfl)⟩
  | obtaining wake =>
    have hlate : ¬ (true = true ∧ s.now + wake < wake) := by simp
    have hstep : step { s with now := s.now + wake } (.thread i (.wake true))
        = some (goto { s with now := s.now + wake } i x .lock) := by
      rw [step_thread (s := { s with now := s.now + wake }) hover hget, threadfunc, hx]
      exact if_neg hlate
    exact ⟨_, _, (waits hover wake).trans (.single (by simp [Fine]) hstep), rfl, rfl,
      by simp [Pc.rest], by simp, fun _ ↦ hfree (by rw [hx]; rfl)⟩
  | lock =>
    have howner := hfree (by rw [hx]; rfl)
    have hstep : s.step (.thread i (.lock true)) = some
        (goto { s with owner := Function.update s.owner x.data.mutex (some (.thread i)) }
          i x (.locked s.now)) := by
      rw [step_thread hover hget, threadfunc, if_pos hx, if_pos rfl, if_pos howner]
    exact ⟨_, _, .single (by simp [Fine]) hstep, rfl, rfl, by simp [Pc.rest], by simp,
      fun hs ↦ by cases hs⟩
  | locked since =>
    have hstep : s.step (.thread i .usleep)
        = some (s.goto i x (.holding since (s.now + releaseUs))) := by
      simp only [step_thread hover hget, threadfunc, hx, usleep, hrelease]
    exact ⟨_, _, .single (by simp [Fine]) hstep, rfl, rfl, by simp [Pc.rest], by simp,
      fun hs ↦ by cases hs⟩
  | holding since wake =>
    have hlate : ¬ (true = true ∧ s.now + wake < wake) := by simp
    have hstep : step { s with now := s.now + wake } (.thread i (.wake true))
        = some (goto { s with now := s.now + wake } i x (.unlock since)) := by
      rw [step_thread (s := { s with now := s.now + wake }) hover hget, threadfunc, hx]
      exact if_neg hlate
    exact ⟨_, _, (waits hover wake).trans (.single (by simp [Fine]) hstep), rfl, rfl,
      by simp [Pc.rest], by simp, fun hs ↦ by cases hs⟩
  | unlock since =>
    have hstep : s.step (.thread i (.unlock true)) = some (goto { s with
        owner := Function.update s.owner x.data.mutex none
        holds := s.holds ++ [⟨x.data.mutex, i, since, s.now⟩] } i x .complete) := by
      simp only [step_thread hover hget, threadfunc, hx, if_true]
    exact ⟨_, _, .single (by simp [Fine]) hstep, rfl, rfl, by simp [Pc.rest], by simp,
      fun _ ↦ Function.update_self ..⟩
  | complete =>
    have hstep : s.step (.thread i .complete) = some
        (s.goto i { x with data := { x.data with threadCompleteSuccess := true } } .ended) := by
      rw [step_thread hover hget, threadfunc, if_pos hx]
    exact ⟨_, _, .single (by simp [Fine]) hstep, rfl, rfl, by simp [Pc.rest], fun _ ↦ rfl,
      fun _ ↦ hfree (by rw [hx]; rfl)⟩
  | ended => exact absurd hx hpc

theorem orderly_of_fine (he : s.Fine e) : s.Orderly e := by
  cases e with
  | thread i e => exact he.2.2
  | tick => trivial
  | _ => cases he

/-- **What a state must be like** for the threads to go on from it. -/
structure Going (s : Threads) : Prop where
  /-- It is a state of the threads. -/
  inv : s.Inv
  /-- They are ready. -/
  ready : s.Ready
  /-- The caller has no mutex. -/
  caller : ∀ mutex, s.owner mutex ≠ some .caller

theorem Going.goes (h : s.Going) (he : s.Fine e) (hstep : s.step e = some t) : t.Going := by
  have hgoes := step_cases hstep
  refine ⟨h.inv.goes hgoes, h.ready.goes (orderly_of_fine he) hgoes, fun mutex hm ↦ ?_⟩
  have hupdate : ∀ (m : ℕ) (o : Option Owner), o ≠ some .caller →
      Function.update s.owner m o mutex ≠ some .caller := by
    intro m o ho
    by_cases hmutex : mutex = m
    · subst hmutex
      rwa [Function.update_self]
    · rw [Function.update_of_ne hmutex]
      exact h.caller mutex
  cases hgoes with
  | callerLock => cases he
  | callerUnlock => cases he
  | lock => exact hupdate _ _ (by simp) hm
  | unlock => exact hupdate _ _ (by simp) hm
  | _ => exact h.caller mutex hm

theorem Going.reach (h : s.Going) (hreach : Machine.Reachable step Fine s t) : t.Going :=
  hreach.invariant (fun _ _ _ hs he hstep ↦ hs.goes he hstep) h

/-- **A thread comes to its end** if nobody has its mutex, or it has it itself. -/
theorem Going.finishes (h : s.Going) (hget : s.threads.get? i = some x) (hpc : x.pc ≠ .ended)
    (hfree : x.pc.since = none → s.owner x.data.mutex = none) :
    ∃ (t : Threads) (y : Thread), Machine.Reachable step Fine s t ∧
      t.threads = s.threads.set i y ∧ y.pc = .ended ∧ y.data.threadCompleteSuccess = true := by
  -- induction on how much it still has to do
  induction hrest : x.pc.rest using Nat.strong_induction_on generalizing s x with
  | _ n ih =>
    obtain ⟨t, y, hreach, hthreads, hmutex, hlt, hend, hfree'⟩ := h.ready.advances hget hpc hfree
    by_cases hy : y.pc = .ended
    · exact ⟨t, y, hreach, hthreads, hy, hend hy⟩
    have hget' : t.threads.get? i = some y := by
      rw [hthreads, Heap.get?_set_self (Heap.live_of_get? hget)]
    obtain ⟨u, z, hreach', hthreads', hz⟩ := ih y.pc.rest (hrest ▸ hlt) (h.reach hreach) hget' hy
      (fun hs ↦ hmutex ▸ hfree' hs) rfl
    refine ⟨u, z, hreach.trans hreach', ?_, hz⟩
    rw [hthreads', hthreads, Heap.set, Heap.set, Heap.set, List.set_set]

/-- How many threads have not ended. -/
def unfinished (s : Threads) : ℕ := s.threads.cells.countP fun x ↦ x.pc ≠ .ended

/-- A thread whose mutex is free or its own. -/
theorem Going.exists_next (h : s.Going) (hne : s.unfinished ≠ 0) :
    ∃ (i : ℕ) (x : Thread), s.threads.get? i = some x ∧ x.pc ≠ .ended ∧
      (x.pc.since = none → s.owner x.data.mutex = none) := by
  have hlive : ∀ (i : ℕ) (x : Thread), s.threads.cells[i]? = some x → x.pc ≠ .ended →
      s.threads.get? i = some x := fun i x hx hpc ↦ by
    rw [Heap.get?, if_neg (h.inv.live i x hx hpc).2, hx]
  by_cases hheld : ∃ mutex i, s.owner mutex = some (.thread i)
  · -- who has a mutex goes on
    obtain ⟨mutex, i, ho⟩ := hheld
    obtain ⟨x, hx, -, hsince⟩ := h.ready.held mutex i ho
    have hpc : x.pc ≠ .ended := fun hpc ↦ by
      rw [hpc] at hsince
      cases hsince
    refine ⟨i, x, hlive i x hx hpc, hpc, fun hs ↦ ?_⟩
    rw [hs] at hsince
    cases hsince
  · -- all mutexes are free
    obtain ⟨x, hmem, hpc⟩ := List.countP_pos_iff.1 (Nat.pos_of_ne_zero hne)
    obtain ⟨i, hx⟩ := List.mem_iff_getElem?.1 hmem
    have hpc : x.pc ≠ .ended := by simpa using hpc
    refine ⟨i, x, hlive i x hx hpc, hpc, fun _ ↦ ?_⟩
    cases ho : s.owner x.data.mutex with
    | none => rfl
    | some o =>
      cases o with
      | caller => exact absurd ho (h.caller _)
      | thread j => exact absurd ⟨_, j, ho⟩ hheld

/-- One thread less has not ended. -/
theorem unfinished_set (hget : s.threads.get? i = some x) (hpc : x.pc ≠ .ended)
    (hy : y.pc = .ended) (ht : t.threads = s.threads.set i y) : t.unfinished < s.unfinished := by
  have hcell := Heap.getElem?_of_get? hget
  obtain ⟨hlt, heq⟩ := List.getElem?_eq_some_iff.1 hcell
  have hpos : 0 < s.unfinished :=
    List.countP_pos_iff.2 ⟨x, List.mem_of_getElem? hcell, by simpa using hpc⟩
  have hcount : t.unfinished = s.unfinished - 1 := by
    rw [unfinished, ht, Heap.set, List.countP_set hlt, heq]
    simp [hpc, hy, unfinished]
  omega

/-- What becomes of the threads. -/
def Done (s t : Threads) : Prop :=
  ∀ (i : ℕ) (x : Thread), s.threads.cells[i]? = some x → ∃ y : Thread,
    t.threads.cells[i]? = some y ∧ y.pc = .ended ∧
      (x.pc ≠ .ended ∨ x.data.threadCompleteSuccess = true → y.data.threadCompleteSuccess = true)

theorem Going.done (h : s.Going) :
    ∃ t, Machine.Reachable step Fine s t ∧ t.unfinished = 0 ∧ s.Done t := by
  -- induction on the number of those that have not ended
  induction hn : s.unfinished using Nat.strong_induction_on generalizing s with
  | _ n ih =>
    by_cases hzero : s.unfinished = 0
    · refine ⟨s, .refl s, hzero, fun i x hx ↦ ?_⟩
      have hend : x.pc = .ended := by
        simpa using List.countP_eq_zero.1 hzero x (List.mem_of_getElem? hx)
      exact ⟨x, hx, hend, fun hor ↦ hor.resolve_left fun hne ↦ hne hend⟩
    obtain ⟨i, x, hget, hpc, hfree⟩ := h.exists_next hzero
    obtain ⟨t, y, hreach, ht, hy, hsuccess⟩ := h.finishes hget hpc hfree
    obtain ⟨u, hreach', hzero', hu⟩ :=
      ih t.unfinished (hn ▸ unfinished_set hget hpc hy ht) (h.reach hreach) rfl
    refine ⟨u, hreach.trans hreach', hzero', fun j z hz ↦ ?_⟩
    by_cases hj : i = j
    · subst hj
      have hcell : t.threads.cells[i]? = some y := by
        rw [ht]
        exact List.getElem?_set_self (Heap.live_of_get? hget).1
      obtain ⟨w, hw, hend, hkeep⟩ := hu i y hcell
      exact ⟨w, hw, hend, fun _ ↦ hkeep (Or.inr hsuccess)⟩
    · have hcell : t.threads.cells[j]? = some z := by
        rw [ht]
        exact (List.getElem?_set_ne hj).trans hz
      exact hu j z hcell

/-! ## What the threads do -/

/-- **Who has a mutex has it alone.**  Whatever is interrupted and fails: two threads are never
between the calls that lock and unlock one mutex, nor have they been, and the caller has it at no
such time either; a thread reports success if and only if it is done and had its mutex, once; no
data is freed twice or before its thread has ended, and none is left of a thread that could not be
created.  If no `usleep` is interrupted each thread got its mutex as late, and had it as long, as it
was told to. -/
theorem takes_turns (h : Machine.Reachable step Machine.Always init s) :
    (∀ (i j : ℕ) (x y : Thread), s.threads.cells[i]? = some x → s.threads.cells[j]? = some y →
      x.pc.since.isSome = true → x.data.mutex = y.data.mutex →
      s.owner x.data.mutex ≠ some .caller ∧ (y.pc.since.isSome = true → i = j)) ∧
    s.holds.Pairwise (fun a b ↦ a.mutex = b.mutex → a.released ≤ b.obtained) ∧
    (∀ (i : ℕ) (x : Thread), s.threads.cells[i]? = some x →
      (x.data.threadCompleteSuccess = true ↔ x.pc = .ended ∧
        ∃ hold ∈ s.holds, hold.thread = i ∧ hold.mutex = x.data.mutex) ∧
      s.holds.countP (fun hold ↦ hold.thread = i) ≤ 1 ∧
      (x.pc ≠ .ended → s.threads.Live i)) ∧
    s.threads.freed.Nodup ∧
    (∀ (mutex : ℕ) (o r : Int32) (callocOk : Bool) (t : Threads),
      s.step (.start mutex o r callocOk false) = some t →
        t.threads.liveList = s.threads.liveList) ∧
    (Machine.Reachable step SleepOk init s → ∀ hold ∈ s.holds, ∃ x : Thread,
      s.threads.cells[hold.thread]? = some x ∧ Fits hold x) := by
  have hinv : s.Inv := h.invariant (fun _ _ _ hs _ hstep ↦ hs.goes (step_cases hstep)) inv_init
  refine ⟨fun i j x y hx hy hsince hmutex ↦ ?_, hinv.disjoint, fun i x hx ↦ ⟨?_, ?_,
    hinv.live i x hx⟩, hinv.sound.nodup, fun mutex o r callocOk t ht ↦ ?_, fun hok ↦ ?_⟩
  · obtain ⟨since, hsince⟩ := Option.isSome_iff_exists.1 hsince
    have hown := (hinv.owner i x since hx hsince).1
    refine ⟨by simp [hown], fun hsince' ↦ ?_⟩
    obtain ⟨since', hsince'⟩ := Option.isSome_iff_exists.1 hsince'
    have hown' := (hinv.owner j y since' hy hsince').1
    rw [← hmutex, hown] at hown'
    cases hown'
    rfl
  · have honce := hinv.once i x hx
    constructor
    · intro hsuccess
      rw [if_pos (Or.inr hsuccess)] at honce
      obtain ⟨hold, hmem, hi⟩ := List.countP_pos_iff.1 (honce ▸ Nat.one_pos)
      have hi : hold.thread = i := by simpa using hi
      obtain ⟨z, hz, hmutex⟩ := hinv.there hold hmem
      obtain rfl := Option.some_inj.1 ((hi ▸ hx).symm.trans hz)
      exact ⟨hinv.ended i x hx hsuccess, hold, hmem, hi, hmutex.symm⟩
    · rintro ⟨hend, hold, hmem, hi, -⟩
      by_contra hnot
      rw [if_neg (by simp [hend, hnot]), List.countP_eq_zero] at honce
      exact honce hold hmem (by simpa using hi)
  · rw [hinv.once i x hx]
    split <;> simp
  · cases step_cases ht with
    | noMemory => rfl
    | noThread => exact Heap.liveList_alloc_free hinv.sound.next_notMem
  · have htimely : s.Timely := hok.invariant
      (fun _ _ _ hs he hstep ↦ hs.goes he (step_cases hstep))
      ⟨fun _ _ hx ↦ (by cases hx), fun _ hh ↦ (by cases hh)⟩
    exact htimely.holds

/-- **The threads do not block one another.**  After any run in which the times are not too large
and no mutex fails to be unlocked, when the caller has no mutex: without anything else happening,
all threads can come to their ends, and those that had not ended before report success.  Then all
mutexes are free. -/
theorem comes_to_end (h : Machine.Reachable step Orderly init s)
    (hcaller : ∀ mutex, s.owner mutex ≠ some .caller) :
    ∃ t, Machine.Reachable step Fine s t ∧ (∀ mutex, t.owner mutex = none) ∧
      ∀ (i : ℕ) (x : Thread), s.threads.cells[i]? = some x → ∃ y : Thread,
        t.threads.cells[i]? = some y ∧ y.pc = .ended ∧
          (x.pc ≠ .ended → y.data.threadCompleteSuccess = true) := by
  obtain ⟨hinv, hready⟩ := h.invariant (P := fun s ↦ s.Inv ∧ s.Ready)
    (fun _ _ _ hs he hstep ↦
      have hgoes := step_cases hstep
      ⟨hs.1.goes hgoes, hs.2.goes he hgoes⟩) ⟨inv_init, ready_init⟩
  have hgoing : s.Going := ⟨hinv, hready, hcaller⟩
  obtain ⟨t, hreach, hzero, hdone⟩ := hgoing.done
  refine ⟨t, hreach, fun mutex ↦ ?_, fun i x hx ↦ ?_⟩
  · have ht := hgoing.reach hreach
    cases ho : t.owner mutex with
    | none => rfl
    | some o =>
      cases o with
      | caller => exact absurd ho (ht.caller mutex)
      | thread j =>
        obtain ⟨x, hx, -, hsince⟩ := ht.ready.held mutex j ho
        have hend : x.pc = .ended := by
          simpa using List.countP_eq_zero.1 hzero x (List.mem_of_getElem? hx)
        rw [hend] at hsince
        cases hsince
  · obtain ⟨y, hy, hend, hkeep⟩ := hdone i x hx
    exact ⟨y, hy, hend, fun hpc ↦ hkeep (Or.inl hpc)⟩

/-- Two threads of one mutex: the second one gets it, and the first one waits for it. -/
def twoThreads : List Event :=
  [.start 0 0 0 true true, .start 0 0 1 true true, .thread 0 .usleep, .thread 1 .usleep,
    .thread 1 (.wake true), .thread 1 (.lock true), .thread 1 .usleep, .thread 0 (.wake true)]

/-- After a millisecond the first one gets it. -/
def inTurn : List Event :=
  List.replicate 1000 .tick ++ [.thread 1 (.wake true), .thread 1 (.unlock true),
    .thread 0 (.lock true), .thread 0 .usleep, .thread 0 (.wake true), .thread 0 (.unlock true),
    .thread 1 .complete, .join 1]

theorem takes_turns_two : ∃ s : Threads, s.holds = [⟨0, 1, 0, 1000⟩, ⟨0, 0, 1000, 1000⟩] ∧
    s.holds.Pairwise (fun a b ↦ a.mutex = b.mutex → a.released ≤ b.obtained) ∧
    ∀ hold ∈ s.holds, ∃ x : Thread, s.threads.cells[hold.thread]? = some x ∧ Fits hold x := by
  have hexec : (Machine.exec (fun s e ↦ if SleepOk s e then step s e else none) init
      (twoThreads ++ inTurn)).map Threads.holds
        = some [⟨0, 1, 0, 1000⟩, ⟨0, 0, 1000, 1000⟩] := by decide +kernel
  obtain ⟨s, hs, hholds⟩ := Option.map_eq_some_iff.1 hexec
  have hok : Machine.Reachable step SleepOk init s := ⟨_, Machine.run_of_exec_guarded hs⟩
  obtain ⟨-, hdisjoint, -, -, -, htimes⟩ := takes_turns (hok.mono fun _ _ _ ↦ trivial)
  exact ⟨s, hholds, hdisjoint, htimes hok⟩

theorem comes_to_end_two : ∃ s t : Threads, s.owner 0 = some (.thread 1) ∧
    Machine.Reachable step Fine s t ∧ t.owner 0 = none ∧
    ∃ y : Thread, t.threads.cells[0]? = some y ∧ y.data.threadCompleteSuccess = true := by
  have hexec : Machine.exec (fun s e ↦ if Orderly s e then step s e else none) init twoThreads
      = some ⟨0, ⟨[⟨⟨0, 0, 0, false⟩, 0, .lock⟩, ⟨⟨0, 0, 1, false⟩, 0, .holding 0 1000⟩], []⟩,
        Function.update (fun _ ↦ none) 0 (some (.thread 1)), [], false⟩ := by rfl
  have hcaller : ∀ mutex : ℕ, Function.update (fun _ ↦ none) 0 (some (.thread 1)) mutex
      ≠ some Owner.caller := by
    intro mutex
    by_cases hm : mutex = 0 <;> simp [hm]
  obtain ⟨t, hreach, hfree, hdone⟩ :=
    comes_to_end ⟨_, Machine.run_of_exec_guarded hexec⟩ hcaller
  obtain ⟨y, hy, -, hsuccess⟩ := hdone 0 _ rfl
  exact ⟨_, t, rfl, hreach, hfree 0, y, hy, hsuccess (by simp)⟩

end Threads

end Threading

end Aesd
