import Mathlib.Data.List.Permutation
import Aesd.Lib.Linear
import Aesd.Driver.Ownership

/-!
# Concurrent calls

Threads call the driver at the same time, on open files of their own or on shared ones.  What a
call does under `dev->lock` is one step.  `aesd_llseek` takes two: it asks for the size under the
lock, and hands it to `fixed_size_llseek` after giving the lock back.  Between the two steps another
call may change the size and use the file's position (`aesd_read` and `aesd_ioctl` do so with the
lock held), and then there may be no order of the calls that explains their answers.

`Driver.linearizable` says that this is all that can go wrong: the calls of a run can be ordered if
no `fixed_size_llseek` in it comes too late.
-/

set_option autoImplicit false

namespace Aesd

open Machine Linear

/-! ## Calls with their answers -/

/-- What a call gives its caller. -/
structure Answer where
  /-- The value returned. -/
  retval : ℤ
  /-- The bytes copied to the user. -/
  data : List Byte
deriving DecidableEq, Repr

/-- A call that came back.  Whatever else a thread does for it, from its start to its return,
includes these two steps, so an order that fits them fits the real times. -/
structure Op where
  /-- The call. -/
  call : Call
  /-- What it gave. -/
  answer : Answer
  /-- The number of its first step. -/
  first : ℕ
  /-- The number of its last step. -/
  last : ℕ
deriving DecidableEq, Repr

namespace Call

/-- The file whose position the call uses or sets, if it comes to that. -/
def uses : Call → Option ℕ
  | .open file => some file
  | .read file c => if c.count ≠ 0 ∧ c.lockOk then some file else none
  | .pread _ _ => none
  | .write _ => none
  | .ioctl file c =>
    if c.cmd = AESDCHAR_IOCSEEKTO ∧ c.accessOk ∧ c.copyOk ∧ c.lockOk then some file else none
  | .llseek file c => if c.lockOk then some file else none

/-- A call that takes two steps: an `llseek` that gets the lock. -/
def split : Call → Option (ℕ × LlseekCall)
  | .llseek file c => if c.lockOk then some (file, c) else none
  | _ => none

end Call

theorem Call.split_lockOk {call : Call} {file : ℕ} {c : LlseekCall}
    (h : call.split = some (file, c)) : c.lockOk = true := by
  cases call with
  | llseek file' c' =>
    simp only [Call.split, Option.ite_none_right_eq_some, Option.some_inj, Prod.mk.injEq] at h
    obtain ⟨hlock, -, rfl⟩ := h
    exact hlock
  | _ => exact absurd h (by simp [Call.split])

namespace Node

variable [Platform]

/-- The bytes a call copies to the user. -/
def copied (s : Node) : Call → Except Bug (List Byte)
  | .read file c => do
    let r ← s.driver.aesdRead (s.f_pos file) c
    .ok r.data
  | .pread pos c => do
    let r ← s.driver.aesdRead pos c
    .ok r.data
  | _ => .ok []

/-- One call, alone: its answer and the state afterwards. -/
def perform (s : Node) (c : Call) : Except Bug (Answer × Node) := do
  let data ← s.copied c
  let (retval, t) ← s.call c
  .ok (⟨retval, data⟩, t)

/-- The call of an operation, if it gets the same answer here. -/
def explain (s : Node) (op : Op) : Option Node :=
  match s.perform op.call with
  | .ok (answer, t) => if answer = op.answer then some t else none
  | .error _ => none

end Node

/-! ## Threads -/

/-- An `aesd_llseek` that has given the lock back. -/
structure Pending where
  /-- The file. -/
  file : ℕ
  /-- The call. -/
  call : LlseekCall
  /-- `buffer_bytes_size`. -/
  size : ℕ
  /-- The number of its first step. -/
  first : ℕ
  /-- Another call has used the file's position since `size` was last the size of the buffer. -/
  touched : Bool
deriving DecidableEq, Repr

/-- The driver with the threads that call it. -/
structure Threads where
  /-- The driver and the open files. -/
  node : Node
  /-- The threads that are to call `fixed_size_llseek`. -/
  pending : ℕ → Option Pending
  /-- The number of steps so far. -/
  now : ℕ
  /-- The calls that came back, in this order. -/
  done : List Op

/-- What the scheduler chooses. -/
inductive Schedule
  /-- A thread calls the driver, up to the point where the lock is given back. -/
  | start (thread : ℕ) (call : Call)
  /-- A thread calls `fixed_size_llseek`. -/
  | finish (thread : ℕ)
deriving DecidableEq, Repr

/-- A call that uses a position went by, and the buffer's size is now this. -/
def Pending.after (size : ℕ) (uses : Option ℕ) (p : Pending) : Pending :=
  { p with touched := (p.touched || uses == some p.file) && size != p.size }

namespace Threads

variable [Platform]

/-- No thread has called yet. -/
def init : Threads := ⟨.init, fun _ ↦ none, 0, []⟩

/-- A call comes back. -/
def complete (s : Threads) (node : Node) (pending : ℕ → Option Pending) (op : Op) :
    Option Threads :=
  match node.driver.dev.buffer.bytesSize with
  | .ok size => some ⟨node, fun thread ↦ (pending thread).map (.after size op.call.uses), s.now + 1,
      s.done ++ [op]⟩
  | .error _ => none

/-- `fixed_size_llseek` on a pending call's file, for a buffer of the given size. -/
def fixedSizeLlseek (s : Threads) (p : Pending) (size : ℕ) : ℤ × ℤ :=
  Platform.fixedSizeLlseek (s.node.f_pos p.file) p.call.offset p.call.whence (Loff.wrap size)

/-- One step of one thread. -/
def step (s : Threads) : Schedule → Option Threads
  | .start thread call =>
    if (s.pending thread).isSome then none
    else
      match call.split with
      | some (file, c) =>
        match s.node.driver.dev.buffer.bytesSize with
        | .ok size => some { s with
            pending := fun i ↦
              if i = thread then some ⟨file, c, size, s.now, false⟩ else s.pending i
            now := s.now + 1 }
        | .error _ => none
      | none =>
        match s.node.perform call with
        | .ok (answer, node) => s.complete node s.pending ⟨call, answer, s.now, s.now⟩
        | .error _ => none
  | .finish thread =>
    match s.pending thread with
    | none => none
    | some p =>
      let (retval, pos) := s.fixedSizeLlseek p p.size
      s.complete (s.node.seek p.file pos) (fun i ↦ if i = thread then none else s.pending i)
        ⟨.llseek p.file p.call, ⟨retval, []⟩, p.first, s.now⟩

/-- **A `fixed_size_llseek` in time**: no other call has used the position since the size it has was
the size of the buffer, or it does with the size of now what it does with the one it has. -/
def InTime (s : Threads) : Schedule → Prop
  | .start _ _ => True
  | .finish thread => ∀ p ∈ s.pending thread, p.touched = false ∨
      s.node.driver.dev.buffer.bytesSize.map (s.fixedSizeLlseek p)
        = .ok (s.fixedSizeLlseek p p.size)

instance (s : Threads) : DecidablePred s.InTime := fun e ↦
  match e with
  | .start _ _ => inferInstanceAs (Decidable True)
  | .finish thread => inferInstanceAs (Decidable (∀ p ∈ s.pending thread, _))

/-- **The calls that came back are linearizable**: they can be ordered, in accordance with their
times, such that the driver gives each call the same answer if it takes one after the other, and
comes to the same ring, pending write and positions. -/
def Linearizable (s : Threads) : Prop :=
  ∃ order, Linearizes Node.explain Op.first Op.last Node.init s.done order s.node

end Threads

/-! ## Calls and the positions of other files -/

namespace Node

variable [Platform] {s t : Node} {file f : ℕ} {q : ℤ} {a : Answer}

/-- A call that uses and sets one file's position. -/
def onFile (s : Node) (file : ℕ) (handler : ℤ → Except Bug (Answer × ℤ)) :
    Except Bug (Answer × Node) := do
  let (answer, pos) ← handler (s.f_pos file)
  .ok (answer, s.seek file pos)

omit [Platform] in
/-- A handler that does not look at the position, or works on another file's, does not notice that
a file's position changes. -/
theorem onFile_seek {handler : ℤ → Except Bug (Answer × ℤ)}
    (hunused : file = f → ∃ answer, ∀ p, handler p = .ok (answer, p))
    (h : s.onFile file handler = .ok (a, t)) :
    (s.seek f q).onFile file handler = .ok (a, t.seek f q) ∧ t.f_pos f = s.f_pos f := by
  obtain ⟨⟨answer, pos⟩, hhandler, h⟩ := bind_eq_ok.1 h
  simp only [Except.ok.injEq, Prod.mk.injEq] at h
  obtain ⟨rfl, rfl⟩ := h
  by_cases hf : file = f
  · subst hf
    obtain ⟨answer', hall⟩ := hunused rfl
    rw [hall, Except.ok.injEq, Prod.mk.injEq] at hhandler
    obtain ⟨rfl, rfl⟩ := hhandler
    rw [onFile, hall, seek_self, ok_bind]
    exact ⟨congrArg (fun t ↦ Except.ok (answer', t)) (seek_self (s.seek file q) file), rfl⟩
  · rw [onFile, f_pos_seek_of_ne hf, hhandler, ok_bind, seek_comm hf]
    exact ⟨rfl, f_pos_seek_of_ne (Ne.symm hf)⟩

theorem perform_read (c : ReadCall) : s.perform (.read file c) = s.onFile file fun p ↦
    (s.driver.aesdRead p c).map fun r ↦ (⟨r.retval, r.data⟩, r.f_pos) := by
  rw [perform, copied, call, onFile]
  cases s.driver.aesdRead (s.f_pos file) c with
  | error bug => rfl
  | ok r => rfl

theorem perform_ioctl (c : IoctlCall) : s.perform (.ioctl file c) = s.onFile file fun p ↦
    (s.driver.aesdIoctl p c).map fun r ↦ (⟨r.1, []⟩, r.2) := by
  simp only [perform, copied, call, onFile]
  cases s.driver.aesdIoctl (s.f_pos file) c with
  | error bug => rfl
  | ok r => rfl

theorem perform_llseek (c : LlseekCall) : s.perform (.llseek file c) = s.onFile file fun p ↦
    (s.driver.aesdLlseek p c).map fun r ↦ (⟨r.1, []⟩, r.2) := by
  simp only [perform, copied, call, onFile]
  cases s.driver.aesdLlseek (s.f_pos file) c with
  | error bug => rfl
  | ok r => rfl

/-- A `read` that does not come to use its position. -/
theorem aesdRead_unused (d : Driver) {c : ReadCall} (h : ¬ (c.count ≠ 0 ∧ c.lockOk = true)) :
    ∃ retval, ∀ p, d.aesdRead p c = .ok ⟨retval, p, []⟩ := by
  by_cases hcount : c.count = 0
  · exact ⟨0, fun p ↦ by rw [Driver.aesdRead, if_pos hcount]⟩
  · have hlock : c.lockOk = false := by simpa [hcount] using h
    exact ⟨-ERESTARTSYS, fun p ↦ by rw [Driver.aesdRead, if_neg hcount, hlock]; rfl⟩

/-- An `ioctl` that does not come to set its position. -/
theorem aesdIoctl_unused (d : Driver) {c : IoctlCall} (h : ¬ (c.cmd = AESDCHAR_IOCSEEKTO ∧
      c.accessOk = true ∧ c.copyOk = true ∧ c.lockOk = true)) :
    ∃ retval, ∀ p, d.aesdIoctl p c = .ok (retval, p) := by
  by_cases hcmd : c.cmd = AESDCHAR_IOCSEEKTO
  swap
  · exact ⟨-EINVAL, fun p ↦ by rw [Driver.aesdIoctl, if_neg hcmd]⟩
  have hsize : iocSize AESDCHAR_IOCSEEKTO = 8 := by decide
  simp only [hcmd, true_and, not_and, Bool.not_eq_true] at h
  cases haccess : c.accessOk with
  | false => exact ⟨-EFAULT, fun p ↦ by simp [Driver.aesdIoctl, hcmd, hsize, haccess]⟩
  | true =>
    cases hcopy : c.copyOk with
    | false => exact ⟨-EFAULT, fun p ↦ by simp [Driver.aesdIoctl, hcmd, hsize, haccess, hcopy]⟩
    | true =>
      have hlock := h haccess hcopy
      exact ⟨-EINTR, fun p ↦ by simp [Driver.aesdIoctl, hcmd, hsize, haccess, hcopy, hlock]⟩

/-- **A call that does not use a file's position** does not notice it, and leaves it alone. -/
theorem perform_seek {c : Call} (h : s.perform c = .ok (a, t)) (hc : c.uses ≠ some f) :
    (s.seek f q).perform c = .ok (a, t.seek f q) ∧ t.f_pos f = s.f_pos f := by
  cases c with
  | «open» file =>
    have h : s.onFile file (fun _ ↦ .ok (⟨0, []⟩, 0)) = .ok (a, t) := h
    exact onFile_seek (fun hf ↦ absurd (congrArg some hf) hc) h
  | read file c =>
    rw [perform_read] at h ⊢
    refine onFile_seek (fun hf ↦ ?_) h
    rw [Call.uses, hf] at hc
    obtain ⟨retval, hread⟩ := aesdRead_unused s.driver (c := c) fun hused ↦ hc (if_pos hused)
    exact ⟨⟨retval, []⟩, fun p ↦ congrArg (Except.map _) (hread p)⟩
  | pread pos c =>
    simp only [perform, copied, call, seek] at h ⊢
    cases hread : s.driver.aesdRead pos c with
    | error bug =>
      rw [hread] at h
      exact absurd h (by simp [bind, Except.bind])
    | ok r =>
      rw [hread] at h
      simp only [ok_bind, Except.ok.injEq, Prod.mk.injEq] at h
      obtain ⟨rfl, rfl⟩ := h
      exact ⟨rfl, rfl⟩
  | write c =>
    simp only [perform, copied, call, seek, ok_bind] at h ⊢
    cases hwrite : s.driver.aesdWrite c with
    | error bug =>
      rw [hwrite] at h
      exact absurd h (by simp [bind, Except.bind])
    | ok r =>
      rw [hwrite] at h
      simp only [ok_bind, Except.ok.injEq, Prod.mk.injEq] at h
      obtain ⟨rfl, rfl⟩ := h
      exact ⟨rfl, rfl⟩
  | ioctl file c =>
    rw [perform_ioctl] at h ⊢
    refine onFile_seek (fun hf ↦ ?_) h
    rw [Call.uses, hf] at hc
    obtain ⟨retval, hioctl⟩ := aesdIoctl_unused s.driver (c := c) fun hused ↦ hc (if_pos hused)
    exact ⟨⟨retval, []⟩, fun p ↦ congrArg (Except.map _) (hioctl p)⟩
  | llseek file c =>
    rw [perform_llseek] at h ⊢
    refine onFile_seek (fun hf ↦ ?_) h
    rw [Call.uses, hf] at hc
    have hlock : c.lockOk = false := by simpa using fun hused : c.lockOk = true ↦ hc (if_pos hused)
    refine ⟨⟨-EINTR, []⟩, fun p ↦ ?_⟩
    rw [Driver.aesdLlseek, hlock]
    rfl

/-- A call by itself, in a device that is in order. -/
theorem perform_represents {log : CommandLog} (h : s.driver.Represents log) (c : Call) :
    ∃ a t log', s.perform c = .ok (a, t) ∧ t.driver.Represents log' := by
  obtain ⟨retval, t, log', hcall, hrep⟩ := call_represents h c
  have hcopied : ∃ data, s.copied c = .ok data := by
    cases c with
    | read file c => exact ⟨_, by rw [copied, Driver.aesdRead_eq h.toStores, ok_bind]⟩
    | pread pos c => exact ⟨_, by rw [copied, Driver.aesdRead_eq h.toStores, ok_bind]⟩
    | _ => exact ⟨[], rfl⟩
  obtain ⟨data, hcopied⟩ := hcopied
  exact ⟨⟨retval, data⟩, t, log', by rw [perform, hcopied, ok_bind, hcall, ok_bind], hrep⟩

theorem explain_eq_some {op : Op} :
    s.explain op = some t ↔ s.perform op.call = .ok (op.answer, t) := by
  rw [explain]
  cases s.perform op.call with
  | error bug => simp
  | ok r =>
    obtain ⟨answer, u⟩ := r
    simp only [Option.ite_none_right_eq_some, Option.some_inj, Except.ok.injEq, Prod.mk.injEq]

theorem commutes_seek {op : Op} (h : op.call.uses ≠ some f) (q : ℤ) :
    Commutes explain (fun s ↦ s.seek f q) op := by
  intro s t hop
  rw [explain_eq_some] at hop ⊢
  exact (perform_seek hop h).1

/-- Calls that do not use a file's position leave it where it is. -/
theorem f_pos_of_run {ops : List Op} (h : Run explain Always s ops t)
    (hops : ∀ op ∈ ops, op.call.uses ≠ some f) : t.f_pos f = s.f_pos f := by
  induction h with
  | nil => rfl
  | cons _ hstep _ ih =>
    rw [List.forall_mem_cons] at hops
    rw [ih hops.2, (perform_seek (q := 0) (explain_eq_some.1 hstep) hops.1).2]

/-- An `llseek` where the buffer has that size. -/
theorem perform_llseek_of_size {c : LlseekCall} {size : ℕ} (hlock : c.lockOk = true)
    (hsize : s.driver.dev.buffer.bytesSize = .ok size) : s.perform (.llseek file c) =
      let (retval, pos) :=
        Platform.fixedSizeLlseek (s.f_pos file) c.offset c.whence (Loff.wrap size)
      .ok (⟨retval, []⟩, s.seek file pos) := by
  rw [perform_llseek, onFile, Driver.aesdLlseek, hlock, hsize]
  rfl

end Node

/-! ## The invariant -/

/-- The operation neither uses the pending call's position nor ended before it began. -/
def Pending.Free (p : Pending) (op : Op) : Prop := op.call.uses ≠ some p.file ∧ p.first ≤ op.last

section Interleavings

variable [Platform]

/-- There is a place in the order where the buffer had the size that the pending call has, and
behind it no operation that it has to come before or after. -/
def Pending.Placed (order : List Op) (p : Pending) : Prop :=
  ∃ mid, Gap Node.explain p.Free Node.init order mid ∧
    mid.driver.dev.buffer.bytesSize = .ok p.size

/-- It keeps its place when a seek is put into another one. -/
theorem Pending.Placed.insert {before after : List Op} {p : Pending} {mid : Node} {op : Op}
    {file : ℕ} {pos : ℤ} (h : p.Placed (before ++ after))
    (hmid : Run Node.explain Always Node.init before mid)
    (hop : mid.explain op = some (mid.seek file pos))
    (hcomm : ∀ i ∈ after, Commutes Node.explain (fun s ↦ s.seek file pos) i) (hfree : p.Free op) :
    p.Placed (before ++ op :: after) := by
  obtain ⟨mid₁, hgap, hsize⟩ := h
  obtain ⟨mid₂, hmid₂, hgap'⟩ := hgap.insert hmid hop hcomm hfree
  refine ⟨mid₂, hgap', ?_⟩
  rcases hmid₂ with rfl | rfl
  · exact hsize
  · exact hsize

theorem Driver.Represents.bytesSize_ok {d : Driver} {log : CommandLog} (h : d.Represents log) :
    ∃ size, d.dev.buffer.bytesSize = .ok size :=
  ⟨_, h.wf.bytesSize_eq h.toStores.sizes_sum_lt⟩

namespace Threads

/-- **The invariant**: the calls that came back have an order, and in it every pending call that is
not touched has a place. -/
structure Inv (s : Threads) (order : List Op) (log : CommandLog) : Prop where
  /-- The device is in order. -/
  represents : s.node.driver.Represents log
  /-- The calls that came back are. -/
  linearizes : Linearizes Node.explain Op.first Op.last Node.init s.done order s.node
  /-- They began before. -/
  first_le : ∀ op ∈ s.done, op.first ≤ s.now
  /-- A pending call got the lock. -/
  lockOk : ∀ thread p, s.pending thread = some p → p.call.lockOk = true
  /-- It began before. -/
  pending_le : ∀ thread p, s.pending thread = some p → p.first ≤ s.now
  /-- It has a place. -/
  placed : ∀ thread p, s.pending thread = some p → p.touched = false → p.Placed order

theorem inv_init : init.Inv [] .empty where
  represents := Driver.represents_init
  linearizes := .nil _
  first_le := by simp [init]
  lockOk := by simp [init]
  pending_le := by simp [init]
  placed := by simp [init]

variable {s : Threads} {order order' : List Op} {log log' : CommandLog} {node : Node}
  {pending : ℕ → Option Pending} {op : Op} {thread : ℕ}

/-- **What a call that comes back has to keep.** -/
theorem Inv.complete (h : s.Inv order log) (hrep : node.driver.Represents log')
    (hlin : Linearizes Node.explain Op.first Op.last Node.init (s.done ++ [op]) order' node)
    (hfirst : op.first ≤ s.now)
    (hold : ∀ thread p, pending thread = some p → s.pending thread = some p)
    (hplaced : ∀ p : Pending, p.first ≤ s.now → op.call.uses ≠ some p.file →
      p.Placed order → p.Placed order') :
    ∃ t, s.complete node pending op = some t ∧ t.Inv order' log' := by
  obtain ⟨size, hsize⟩ := hrep.bytesSize_ok
  refine ⟨_, by rw [Threads.complete, hsize], hrep, hlin, ?_, ?_, ?_, ?_⟩
  · intro op' hop'
    rcases List.mem_append.1 hop' with hop' | hop'
    · exact (h.first_le op' hop').trans (Nat.le_succ _)
    · rw [List.mem_singleton.1 hop']
      exact hfirst.trans (Nat.le_succ _)
  · intro i q hq
    obtain ⟨p, hp, rfl⟩ := Option.map_eq_some_iff.1 hq
    exact h.lockOk i p (hold i p hp)
  · intro i q hq
    obtain ⟨p, hp, rfl⟩ := Option.map_eq_some_iff.1 hq
    exact (h.pending_le i p (hold i p hp)).trans (Nat.le_succ _)
  · intro i q hq htouched
    obtain ⟨p, hp, rfl⟩ := Option.map_eq_some_iff.1 hq
    simp only [Pending.after, Bool.and_eq_false_iff, Bool.or_eq_false_iff, beq_eq_false_iff_ne,
      bne_eq_false_iff_eq] at htouched
    rcases htouched with ⟨huntouched, huses⟩ | rfl
    · exact hplaced p (h.pending_le i p (hold i p hp)) huses
        (h.placed i p (hold i p hp) huntouched)
    · exact ⟨node, .atEnd hlin.legal, hsize⟩

/-- A call that takes its place at the end. -/
theorem Inv.complete_last (h : s.Inv order log) (hop : s.node.explain op = some node)
    (hfirst : op.first ≤ s.now) (hlast : op.last = s.now)
    (hold : ∀ thread p, pending thread = some p → s.pending thread = some p) :
    ∃ t log', s.complete node pending op = some t ∧ t.Inv (order ++ [op]) log' := by
  obtain ⟨_, u, log', hperform, hrep⟩ := Node.perform_represents h.represents op.call
  have hanswer := Node.explain_eq_some.1 hop
  rw [hperform, Except.ok.injEq, Prod.mk.injEq] at hanswer
  rw [hanswer.2] at hrep
  obtain ⟨t, ht, hinv⟩ := h.complete hrep
    (h.linearizes.concat hop fun i hi ↦ hlast ▸ h.first_le i hi) hfirst hold
    fun p hp huses ⟨mid, hgap, hsize⟩ ↦ ⟨mid, hgap.concat ⟨huses, hlast ▸ hp⟩, hsize⟩
  exact ⟨t, log', ht, hinv⟩

/-- A pending call that finishes, in the order at the place it has or at the end. -/
theorem Inv.finish (h : s.Inv order log) {p : Pending} (hp : s.pending thread = some p)
    (htime : s.InTime (.finish thread)) :
    ∃ t order' log', s.step (.finish thread) = some t ∧ t.Inv order' log' := by
  have hlock := h.lockOk thread p hp
  have hfirst := h.pending_le thread p hp
  have hold : ∀ i q, (if i = thread then none else s.pending i) = some q → s.pending i = some q :=
    fun i q hq ↦ (Option.ite_none_left_eq_some.1 hq).2
  have huses : (Call.llseek p.file p.call).uses = some p.file := if_pos hlock
  simp only [step, hp]
  generalize hr : s.fixedSizeLlseek p p.size = r at *
  rcases htime p hp with huntouched | hsame
  · obtain ⟨mid, ⟨before, after, rfl, hmid, hfree⟩, hsize⟩ := h.placed thread p hp huntouched
    have hpos : s.node.f_pos p.file = mid.f_pos p.file :=
      Node.f_pos_of_run (run_suffix h.linearizes.legal hmid) fun i hi ↦ (hfree i hi).1
    have hop : mid.explain ⟨.llseek p.file p.call, ⟨r.1, []⟩, p.first, s.now⟩
        = some (mid.seek p.file r.2) := by
      rw [Node.explain_eq_some, Node.perform_llseek_of_size hlock hsize, ← hpos]
      rw [fixedSizeLlseek] at hr
      rw [hr]
    have hcomm : ∀ i ∈ after, Commutes Node.explain (fun n ↦ n.seek p.file r.2) i :=
      fun i hi ↦ Node.commutes_seek (hfree i hi).1 _
    have hlin := h.linearizes.insert hmid hop hcomm (fun i hi ↦ (hfree i hi).2) h.first_le
    have hrep : (s.node.seek p.file r.2).driver.Represents log := h.represents
    obtain ⟨t, ht, hinv⟩ := h.complete hrep hlin hfirst hold
      fun q hq hne hplaced ↦ hplaced.insert hmid hop hcomm ⟨hne, hq⟩
    exact ⟨t, _, log, ht, hinv⟩
  · obtain ⟨size, hsize⟩ := h.represents.bytesSize_ok
    rw [hsize, hr] at hsame
    have hop : s.node.explain ⟨.llseek p.file p.call, ⟨r.1, []⟩, p.first, s.now⟩
        = some (s.node.seek p.file r.2) := by
      rw [Node.explain_eq_some, Node.perform_llseek_of_size hlock hsize]
      have hsame : s.fixedSizeLlseek p size = r := Except.ok.inj hsame
      rw [fixedSizeLlseek] at hsame
      rw [hsame]
    obtain ⟨t, log', ht, hinv⟩ := h.complete_last hop hfirst rfl hold
    exact ⟨t, _, log', ht, hinv⟩

/-- A call that starts: it comes back, or is pending with the end as its place. -/
theorem Inv.start (h : s.Inv order log) (hidle : s.pending thread = none) (call : Call) :
    ∃ t order' log', s.step (.start thread call) = some t ∧ t.Inv order' log' := by
  simp only [step, hidle, Option.isSome_none, Bool.false_eq_true, if_false]
  cases hsplit : call.split with
  | none =>
    obtain ⟨a, node, log', hperform, -⟩ := Node.perform_represents h.represents call
    have hop : s.node.explain ⟨call, a, s.now, s.now⟩ = some node := Node.explain_eq_some.2 hperform
    simp only [hperform]
    obtain ⟨t, log', ht, hinv⟩ := h.complete_last hop (le_refl _) rfl fun _ _ hq ↦ hq
    exact ⟨t, _, log', ht, hinv⟩
  | some fc =>
    obtain ⟨file, c⟩ := fc
    have hlock : c.lockOk = true := Call.split_lockOk hsplit
    obtain ⟨size, hsize⟩ := h.represents.bytesSize_ok
    have hpending : ∀ i q,
        (if i = thread then some ⟨file, c, size, s.now, false⟩ else s.pending i) = some q →
        q = ⟨file, c, size, s.now, false⟩ ∨ s.pending i = some q := by
      intro i q hq
      by_cases hi : i = thread
      · rw [if_pos hi, Option.some_inj] at hq
        exact Or.inl hq.symm
      · rw [if_neg hi] at hq
        exact Or.inr hq
    simp only [hsize]
    refine ⟨_, order, log, rfl, h.represents, h.linearizes, ?_, ?_, ?_, ?_⟩
    · exact fun op hop ↦ (h.first_le op hop).trans (Nat.le_succ _)
    · intro i q hq
      rcases hpending i q hq with rfl | hq
      · exact hlock
      · exact h.lockOk i q hq
    · intro i q hq
      rcases hpending i q hq with rfl | hq
      · exact Nat.le_succ _
      · exact (h.pending_le i q hq).trans (Nat.le_succ _)
    · intro i q hq huntouched
      rcases hpending i q hq with rfl | hq
      · exact ⟨s.node, .atEnd h.linearizes.legal, hsize⟩
      · exact h.placed i q hq huntouched

/-- **The step lemma.** -/
theorem Inv.step {t : Threads} {e : Schedule} (h : s.Inv order log) (htime : s.InTime e)
    (hstep : s.step e = some t) : ∃ order' log', t.Inv order' log' := by
  cases e with
  | start thread call =>
    have hidle : s.pending thread = none := by
      cases hp : s.pending thread with
      | none => rfl
      | some p => simp [Threads.step, hp] at hstep
    obtain ⟨t', order', log', ht', hinv⟩ := h.start hidle call
    rw [hstep, Option.some_inj] at ht'
    exact ⟨order', log', ht' ▸ hinv⟩
  | finish thread =>
    cases hp : s.pending thread with
    | none => simp [Threads.step, hp] at hstep
    | some p =>
      obtain ⟨t', order', log', ht', hinv⟩ := h.finish hp htime
      rw [hstep, Option.some_inj] at ht'
      exact ⟨order', log', ht' ▸ hinv⟩

/-- **The run lemma.** -/
theorem inv_of_run {es : List Schedule} {t : Threads} (h : Run step InTime init es t) :
    ∃ order log, t.Inv order log :=
  h.invariant (P := fun s ↦ ∃ order log, s.Inv order log)
    (fun _ _ _ ⟨_, _, hinv⟩ htime hstep ↦ hinv.step htime hstep) ⟨[], _, inv_init⟩

end Threads

namespace Driver

/-- **Concurrent calls are linearizable** as long as every `fixed_size_llseek` comes in time.  Then
the calls that came back by any point of a run have a sequential order that fits their times and
explains every answer, the ring, the pending write and all positions.  No thread is stuck: it can
start any call, or finish the one it is in. -/
theorem linearizable {es : List Schedule} {s : Threads}
    (hrun : Run Threads.step Threads.InTime Threads.init es s) :
    s.Linearizable ∧ ∀ thread,
      (s.pending thread = none → ∀ call, (s.step (.start thread call)).isSome = true) ∧
      (s.pending thread ≠ none → (s.step (.finish thread)).isSome = true) := by
  obtain ⟨order, log, hinv⟩ := Threads.inv_of_run hrun
  refine ⟨⟨order, hinv.linearizes⟩, fun thread ↦ ⟨fun hidle call ↦ ?_, fun hp ↦ ?_⟩⟩
  · obtain ⟨t, -, -, ht, -⟩ := hinv.start hidle call
    rw [ht]
    rfl
  · obtain ⟨p, hp⟩ := Option.ne_none_iff_exists'.1 hp
    obtain ⟨size, hsize⟩ := hinv.represents.bytesSize_ok
    have hsize' : ∀ pos, (s.node.seek p.file pos).driver.dev.buffer.bytesSize = .ok size :=
      fun _ ↦ hsize
    simp only [Threads.step, hp, Threads.complete, hsize']
    rfl

end Driver

end Interleavings

namespace Driver

attribute [local instance] linux64 in
/-- A write between the two steps of an `lseek` to the end, which therefore comes first; and a write
and a read between those of an `lseek` that both sizes allow. -/
theorem linearizable_writes_between : ∃ s, exec Threads.step Threads.init
    [.start 0 (.llseek 0 ⟨0, 2, true⟩), .start 1 (.write (.plain [97, 10])), .finish 0,
      .start 0 (.llseek 1 ⟨1, 0, true⟩), .start 1 (.write (.plain [98, 10])),
      .start 2 (.read 1 (.plain 2)), .finish 0] = some s ∧
    s.done.map (fun op ↦ op.answer.retval) = [2, 0, 2, 2, 1] ∧ s.Linearizable := by
  have hexec : (exec (fun s e ↦ if Threads.InTime s e then s.step e else none) Threads.init
      [.start 0 (.llseek 0 ⟨0, 2, true⟩), .start 1 (.write (.plain [97, 10])), .finish 0,
        .start 0 (.llseek 1 ⟨1, 0, true⟩), .start 1 (.write (.plain [98, 10])),
        .start 2 (.read 1 (.plain 2)), .finish 0]).map
      (fun s ↦ s.done.map fun op ↦ op.answer.retval) = some [2, 0, 2, 2, 1] := by
    decide +kernel
  obtain ⟨s, hs, hdone⟩ := Option.map_eq_some_iff.1 hexec
  have hrun := run_of_exec_guarded hs
  exact ⟨s, hrun.exec_eq, hdone, (linearizable hrun).1⟩

attribute [local instance] linux64 in
/-- The device is empty when an `lseek` to the end asks for its size; then one thread writes two
bytes and another one reads them at the same position.  The `lseek` goes to the end there was, `0`,
and leaves the file there.  Before the write it would have left the file to the read, and after it
the end is at `2`. -/
theorem llseek_stale_size : ∃ s, exec Threads.step Threads.init
    [.start 0 (.llseek 0 ⟨0, 2, true⟩), .start 1 (.write (.plain [97, 10])),
      .start 2 (.read 0 (.plain 2)), .finish 0] = some s ∧ ¬ s.Linearizable := by
  have hexec : (exec Threads.step Threads.init
      [.start 0 (.llseek 0 ⟨0, 2, true⟩), .start 1 (.write (.plain [97, 10])),
        .start 2 (.read 0 (.plain 2)), .finish 0]).map (fun s ↦ (s.done, s.node.f_pos 0)) =
      some ([⟨.write (.plain [97, 10]), ⟨2, []⟩, 1, 1⟩, ⟨.read 0 (.plain 2), ⟨2, [97, 10]⟩, 2, 2⟩,
        ⟨.llseek 0 ⟨0, 2, true⟩, ⟨0, []⟩, 0, 3⟩], 0) := by
    decide +kernel
  have horders : ∀ order ∈ List.permutations' [
      (⟨.write (.plain [97, 10]), ⟨2, []⟩, 1, 1⟩ : Op), ⟨.read 0 (.plain 2), ⟨2, [97, 10]⟩, 2, 2⟩,
        ⟨.llseek 0 ⟨0, 2, true⟩, ⟨0, []⟩, 0, 3⟩],
      (exec Node.explain Node.init order).map (fun s ↦ s.f_pos 0) ≠ some 0 := by
    decide +kernel
  obtain ⟨s, hs, hend⟩ := Option.map_eq_some_iff.1 hexec
  rw [Prod.mk.injEq] at hend
  obtain ⟨hdone, hpos⟩ := hend
  refine ⟨s, hs, ?_⟩
  rintro ⟨order, hperm, -, hlegal⟩
  rw [hdone] at hperm
  refine horders order (List.mem_permutations'.2 hperm) ?_
  rw [hlegal.exec_eq, Option.map_some, hpos]

end Driver

end Aesd
