import Aesd.Lib.Heap
import Aesd.Lib.Machine

/-!
# Running a command

`do_exec` and `do_exec_redirect` of `systemcalls.c`, called one after the other in a process that
has no other children: each forks a child that executes the command, and waits.  The children run
beside the caller, so a run is any interleaving of them.

Both call `wait`, which tells of any child that has ended, where their comment speaks of `waitpid`.
As long as no `wait` is interrupted this makes no difference (`Systemcalls.answers_right`): when a
call begins there is no child left over.  After one that is interrupted there always is one, and the
next call may answer for it (`Systemcalls.left_over`).

A process is named by the order of the `fork`s; a child that was waited for is freed.  The caller's
descriptor `1` is open, so `open` returns another one.
-/

set_option autoImplicit false

namespace Aesd

namespace Systemcalls

/-- `wstatus`. -/
inductive WaitStatus
  /-- It has called `exit`; `wait` tells of eight bits. -/
  | exited (code : UInt8)
  /-- A signal has ended it. -/
  | signaled (signal : ℕ)
deriving DecidableEq, Repr

/-- `WIFEXITED(wstatus) && (WEXITSTATUS(wstatus) == 0)`. -/
def WaitStatus.succeeded : WaitStatus → Bool
  | .exited code => code == 0
  | .signaled _ => false

/-- The signal of `abort`. -/
def SIGABRT : ℕ := 6

/-- The arguments of a call. -/
structure ExecCall where
  /-- `outputfile`, of `do_exec_redirect`. -/
  outputfile : Option String
  /-- `command`. -/
  command : List String
deriving DecidableEq, Repr

/-- `do_exec`. -/
def doExec (command : List String) : ExecCall := ⟨none, command⟩

/-- `do_exec_redirect`. -/
def doExecRedirect (outputfile : String) (command : List String) : ExecCall :=
  ⟨some outputfile, command⟩

/-! ## The child -/

/-- What a child does next. -/
inductive ChildPc
  /-- `dup2(output_fd, 1)`. -/
  | dup2
  /-- `close(output_fd)`. -/
  | close
  /-- `execv`. -/
  | execv
  /-- The command. -/
  | command
  /-- Nothing. -/
  | ended (status : WaitStatus)
deriving DecidableEq, Repr

/-- A child. -/
structure Child where
  /-- The call it was forked for. -/
  call : ExecCall
  /-- `output_fd`. -/
  outputFd : Option ℕ
  /-- What its descriptor `1` is; `none` is that of the caller. -/
  stdout : Option ℕ
  /-- The command was executed. -/
  executed : Bool
  /-- What it does next. -/
  pc : ChildPc
deriving DecidableEq, Repr

/-- What a child meets. -/
inductive ChildEvent
  /-- `dup2` works or not. -/
  | dup2 (ok : Bool)
  /-- `close`. -/
  | close
  /-- `execv` works or not. -/
  | execv (ok : Bool)
  /-- The command ends. -/
  | exit (code : UInt8)
  /-- A signal ends it. -/
  | kill (signal : ℕ)
deriving DecidableEq, Repr

namespace Child

/-- After `fork`. -/
def start (call : ExecCall) (outputFd : Option ℕ) : Child :=
  ⟨call, outputFd, none, false, if outputFd.isSome then .dup2 else .execv⟩

/-- `abort`. -/
def abort (c : Child) : Child := { c with pc := .ended (.signaled SIGABRT) }

/-- A step of a child.  `outputFd` is not `1`: else `dup2` would do nothing, and `close` would close
the command's output. -/
def step (c : Child) : ChildEvent → Option Child
  | .dup2 ok =>
    if c.pc = .dup2 then
      some (if ok then { c with stdout := c.outputFd, pc := .close } else c.abort)
    else none
  | .close => if c.pc = .close then some { c with pc := .execv } else none
  | .execv ok =>
    if c.pc = .execv then
      some (if ok then { c with executed := true, pc := .command } else c.abort)
    else none
  | .exit code => if c.pc = .command then some { c with pc := .ended (.exited code) } else none
  | .kill signal =>
    match c.pc with
    | .ended _ => none
    | _ => some { c with pc := .ended (.signaled signal) }

/-- What a step of a child can be. -/
inductive Goes (c : Child) : Child → Prop
  /-- Its output is redirected. -/
  | dup2 (hpc : c.pc = .dup2) : Goes c { c with stdout := c.outputFd, pc := .close }
  /-- It closes the descriptor that it has twice. -/
  | close (hpc : c.pc = .close) : Goes c { c with pc := .execv }
  /-- The command begins. -/
  | execv (hpc : c.pc = .execv) : Goes c { c with executed := true, pc := .command }
  /-- A call fails. -/
  | abort (hpc : c.pc = .dup2 ∨ c.pc = .execv) : Goes c c.abort
  /-- The command ends. -/
  | exit (hpc : c.pc = .command) (code : UInt8) : Goes c { c with pc := .ended (.exited code) }
  /-- A signal ends it. -/
  | kill (hpc : ∀ status, c.pc ≠ .ended status) (signal : ℕ) :
    Goes c { c with pc := .ended (.signaled signal) }

variable {c d : Child} {e : ChildEvent}

theorem step_cases (h : c.step e = some d) : c.Goes d := by
  cases e with
  | kill signal =>
    rw [step] at h
    split at h
    · cases h
    · rename_i hpc
      cases h
      exact .kill (fun status hs ↦ hpc status hs) signal
  | _ =>
    rw [step] at h
    split at h
    swap
    · cases h
    rename_i hpc
    cases h
    first
    | exact .close hpc
    | exact .exit hpc _
    | (split
       · first | exact .dup2 hpc | exact .execv hpc
       · first | exact .abort (Or.inl hpc) | exact .abort (Or.inr hpc))

/-- What stays of a child; once it has ended nothing changes. -/
theorem Goes.keeps (h : c.Goes d) : d.call = c.call ∧ ∀ status, c.pc ≠ .ended status := by
  cases h with
  | abort hpc => exact ⟨rfl, fun status hs ↦ by rcases hpc with hpc | hpc <;> simp [hs] at hpc⟩
  | kill hpc => exact ⟨rfl, hpc⟩
  | _ hpc => exact ⟨rfl, fun status hs ↦ by simp [hs] at hpc⟩

/-- What a child keeps true. -/
structure Ok (c : Child) : Prop where
  /-- There is an output file if the call has one. -/
  output : c.outputFd.isSome = c.call.outputfile.isSome
  /-- When it is about to execute the command, its output goes where it should. -/
  ready : c.pc = .close ∨ c.pc = .execv → c.stdout = c.outputFd
  /-- So does that of the command. -/
  redirected : c.executed = true → c.stdout = c.outputFd
  /-- Only the command exits. -/
  executed : c.pc = .command ∨ (∃ code, c.pc = .ended (.exited code)) → c.executed = true

theorem ok_start {call : ExecCall} {outputFd : Option ℕ}
    (h : outputFd.isSome = call.outputfile.isSome) : (start call outputFd).Ok := by
  cases outputFd with
  | none => exact ⟨h, fun _ ↦ rfl, fun _ ↦ rfl, by simp [start]⟩
  | some fd => exact ⟨h, by simp [start], by simp [start], by simp [start]⟩

theorem Ok.goes (h : c.Ok) (hgoes : c.Goes d) : d.Ok := by
  cases hgoes with
  | dup2 => exact ⟨h.output, fun _ ↦ rfl, fun _ ↦ rfl, by simp⟩
  | close hpc => exact ⟨h.output, fun _ ↦ h.ready (Or.inl hpc), h.redirected, by simp⟩
  | execv hpc => exact ⟨h.output, by simp, fun _ ↦ h.ready (Or.inr hpc), fun _ ↦ rfl⟩
  | abort => exact ⟨h.output, by simp [Child.abort], h.redirected, by simp [Child.abort]⟩
  | exit hpc => exact ⟨h.output, by simp, h.redirected, fun _ ↦ h.executed (Or.inl hpc)⟩
  | kill => exact ⟨h.output, by simp, h.redirected, by simp⟩

end Child

/-! ## The caller -/

/-- What the caller does next. -/
inductive CallerPc
  /-- The next call. -/
  | idle
  /-- `open`. -/
  | open (call : ExecCall)
  /-- `fork`. -/
  | fork (call : ExecCall) (outputFd : Option ℕ)
  /-- `close(output_fd)`. -/
  | close (call : ExecCall) (outputFd child : ℕ)
  /-- `wait`. -/
  | wait (call : ExecCall) (child : ℕ)
deriving DecidableEq, Repr

namespace CallerPc

/-- The child of the call. -/
def child : CallerPc → Option ℕ
  | .close _ _ child => some child
  | .wait _ child => some child
  | _ => none

/-- `output_fd`. -/
def outputFd : CallerPc → Option ℕ
  | .fork _ outputFd => outputFd
  | .close _ outputFd _ => some outputFd
  | _ => none

/-- The call. -/
def call : CallerPc → Option ExecCall
  | .idle => none
  | .open call => some call
  | .fork call _ => some call
  | .close call _ _ => some call
  | .wait call _ => some call

/-- A file is opened if the call has one. -/
def Fits : CallerPc → Prop
  | .open call => call.outputfile.isSome = true
  | .fork call outputFd => outputFd.isSome = call.outputfile.isSome
  | _ => True

/-- Where a call begins. -/
def first (call : ExecCall) : CallerPc :=
  if call.outputfile.isSome then .open call else .fork call none

variable (c : ExecCall)

@[simp] theorem child_first : (first c).child = none := by rw [first]; split <;> rfl

@[simp] theorem outputFd_first : (first c).outputFd = none := by rw [first]; split <;> rfl

theorem fits_first : (first c).Fits := by
  by_cases h : c.outputfile.isSome = true
  · rw [first, if_pos h]
    exact h
  · rw [first, if_neg h]
    exact (eq_false_of_ne_true h).symm

end CallerPc

/-- What a call came to. -/
structure Answer where
  /-- The call. -/
  call : ExecCall
  /-- The child that was forked for it. -/
  child : Option ℕ
  /-- The child that `wait` told of. -/
  told : Option ℕ
  /-- What was returned. -/
  result : Bool
deriving DecidableEq, Repr

/-- The child was left, since `wait` was interrupted. -/
def Answer.left (a : Answer) : Bool := a.child.isSome && a.told.isNone

/-- The caller and its children. -/
structure Caller where
  /-- What it does next. -/
  pc : CallerPc
  /-- The children. -/
  children : Heap Child
  /-- The output files it has opened. -/
  fds : Heap Unit
  /-- What the calls came to. -/
  answers : List Answer
deriving DecidableEq

/-- What happens. -/
inductive Event
  /-- The next call. -/
  | call (call : ExecCall)
  /-- `open` works or not. -/
  | open (ok : Bool)
  /-- `fork` works or not. -/
  | fork (ok : Bool)
  /-- `close`. -/
  | close
  /-- `wait` tells of a child, or is interrupted. -/
  | wait (told : Option ℕ)
  /-- A child makes a step. -/
  | child (child : ℕ) (e : ChildEvent)
deriving DecidableEq, Repr

namespace Caller

/-- There is nothing yet. -/
def init : Caller := ⟨.idle, .empty, .empty, []⟩

/-- A call returns. -/
def answer (s : Caller) (a : Answer) : Caller :=
  { s with pc := .idle, answers := s.answers ++ [a] }

/-- The machine. -/
def step (s : Caller) : Event → Option Caller
  | .call call =>
    if s.pc = .idle then
      some { s with pc := .first call }
    else none
  | .open ok =>
    match s.pc with
    | .open call =>
      if ok then some { s with fds := s.fds.alloc (), pc := .fork call (some s.fds.next) }
      else some (s.answer ⟨call, none, none, false⟩)
    | _ => none
  | .fork ok =>
    match s.pc with
    | .fork call outputFd =>
      if ok then
        let child := s.children.next
        some { s with
          children := s.children.alloc (.start call outputFd)
          pc := outputFd.elim (.wait call child) fun fd ↦ .close call fd child }
      else
        some ({ s with fds := outputFd.elim s.fds s.fds.free }.answer ⟨call, none, none, false⟩)
    | _ => none
  | .close =>
    match s.pc with
    | .close call outputFd child =>
      some { s with fds := s.fds.free outputFd, pc := .wait call child }
    | _ => none
  | .wait told =>
    match s.pc with
    | .wait call child =>
      match told with
      | none => some (s.answer ⟨call, some child, none, false⟩)
      | some p =>
        match s.children.get? p with
        | none => none
        | some c =>
          match c.pc with
          | .ended status =>
            some ({ s with children := s.children.free p }.answer
              ⟨call, some child, some p, status.succeeded⟩)
          | _ => none
    | _ => none
  | .child p e =>
    match s.children.get? p with
    | none => none
    | some c => (c.step e).map fun d ↦ { s with children := s.children.set p d }

/-- `wait` is not interrupted. -/
def WaitOk (_ : Caller) (e : Event) : Prop := e ≠ .wait none

instance (s : Caller) : DecidablePred s.WaitOk := fun _ ↦ inferInstanceAs (Decidable (_ ≠ _))

/-- What a step can be. -/
inductive Goes (s : Caller) : Event → Caller → Prop
  /-- A call begins. -/
  | call (call : ExecCall) (hpc : s.pc = .idle) : Goes s (.call call) { s with pc := .first call }
  /-- The output file is opened. -/
  | open {call : ExecCall} (hpc : s.pc = .open call) : Goes s (.open true)
      { s with fds := s.fds.alloc (), pc := .fork call (some s.fds.next) }
  /-- It cannot be opened. -/
  | noFile {call : ExecCall} (hpc : s.pc = .open call) : Goes s (.open false)
      (s.answer ⟨call, none, none, false⟩)
  /-- The child is forked. -/
  | fork {call : ExecCall} {outputFd : Option ℕ} (hpc : s.pc = .fork call outputFd) :
    Goes s (.fork true) { s with
      children := s.children.alloc (.start call outputFd)
      pc := outputFd.elim (.wait call s.children.next) fun fd ↦ .close call fd s.children.next }
  /-- It cannot be forked. -/
  | noFork {call : ExecCall} {outputFd : Option ℕ} (hpc : s.pc = .fork call outputFd) :
    Goes s (.fork false)
      (answer { s with fds := outputFd.elim s.fds s.fds.free } ⟨call, none, none, false⟩)
  /-- The caller closes the output file. -/
  | close {call : ExecCall} {outputFd child : ℕ} (hpc : s.pc = .close call outputFd child) :
    Goes s .close { s with fds := s.fds.free outputFd, pc := .wait call child }
  /-- `wait` is interrupted. -/
  | interrupted {call : ExecCall} {child : ℕ} (hpc : s.pc = .wait call child) :
    Goes s (.wait none) (s.answer ⟨call, some child, none, false⟩)
  /-- `wait` tells of a child. -/
  | wait {call : ExecCall} {child p : ℕ} {c : Child} {status : WaitStatus}
    (hpc : s.pc = .wait call child) (hget : s.children.get? p = some c)
    (hend : c.pc = .ended status) : Goes s (.wait (some p))
      (answer { s with children := s.children.free p }
        ⟨call, some child, some p, status.succeeded⟩)
  /-- A child makes a step. -/
  | child {p : ℕ} {c d : Child} {e : ChildEvent} (hget : s.children.get? p = some c)
    (hgoes : c.Goes d) : Goes s (.child p e) { s with children := s.children.set p d }

variable {s t : Caller} {e : Event}

theorem step_cases (h : s.step e = some t) : s.Goes e t := by
  cases e with
  | call call =>
    rw [step] at h
    split at h
    · cases h; exact .call call ‹_›
    · cases h
  | «open» ok =>
    rw [step] at h
    split at h
    · cases ok
      · cases h; exact .noFile ‹_›
      · cases h; exact .open ‹_›
    · cases h
  | fork ok =>
    rw [step] at h
    split at h
    · cases ok
      · cases h; exact .noFork ‹_›
      · cases h; exact .fork ‹_›
    · cases h
  | close =>
    rw [step] at h
    split at h
    · cases h; exact .close ‹_›
    · cases h
  | wait told =>
    rw [step] at h
    split at h
    swap
    · cases h
    rename_i hpc
    cases told with
    | none => cases h; exact .interrupted hpc
    | some p =>
      dsimp only at h
      split at h
      · cases h
      rename_i hget
      split at h
      · cases h; exact .wait hpc hget ‹_›
      · cases h
  | child p e =>
    rw [step] at h
    split at h
    · cases h
    · obtain ⟨d, hd, rfl⟩ := Option.map_eq_some_iff.1 h
      exact .child ‹_› (Child.step_cases hd)

end Caller

/-! ## What the calls keep true -/

/-- Children that are still known, with their calls; who has ended has ended. -/
def Keeps (children children' : Heap Child) : Prop :=
  ∀ (p : ℕ) (c : Child), children.cells[p]? = some c →
    ∃ d : Child, children'.cells[p]? = some d ∧ d.call = c.call ∧
      ∀ status, c.pc = .ended status → d.pc = .ended status

theorem keeps_alloc (children : Heap Child) (c : Child) : Keeps children (children.alloc c) :=
  fun p d hd ↦ by
    have hlt := (List.getElem?_eq_some_iff.1 hd).1
    exact ⟨d, (List.getElem?_append_left hlt).trans hd, rfl, fun _ h ↦ h⟩

theorem keeps_free (children : Heap Child) (p : ℕ) : Keeps children (children.free p) :=
  fun _ c hc ↦ ⟨c, hc, rfl, fun _ h ↦ h⟩

theorem keeps_set {children : Heap Child} {p : ℕ} {c d : Child} (hget : children.get? p = some c)
    (hgoes : c.Goes d) : Keeps children (children.set p d) := by
  intro q b hb
  have hlt := (List.getElem?_eq_some_iff.1 hb).1
  by_cases hq : p = q
  · subst hq
    obtain rfl := Option.some_inj.1 ((Heap.getElem?_of_get? hget).symm.trans hb)
    exact ⟨d, List.getElem?_set_self hlt, hgoes.keeps.1, fun status h ↦ absurd h (hgoes.keeps.2 _)⟩
  · exact ⟨b, (List.getElem?_set_ne hq).trans hb, rfl, fun _ h ↦ h⟩

/-- **What an answer is about.** -/
structure Answer.Ok (a : Answer) (children : Heap Child) : Prop where
  /-- The child was forked for the call. -/
  child : ∀ p, a.child = some p → ∃ c : Child, children.cells[p]? = some c ∧ c.call = a.call
  /-- The result is what became of the child that `wait` told of. -/
  told : ∀ p, a.told = some p → ∃ (c : Child) (status : WaitStatus),
    children.cells[p]? = some c ∧ c.pc = .ended status ∧ a.result = status.succeeded
  /-- If it told of none the call failed. -/
  failed : a.told = none → a.result = false

theorem Answer.Ok.keeps {a : Answer} {children children' : Heap Child} (h : a.Ok children)
    (hk : Keeps children children') : a.Ok children' where
  child p hp := by
    obtain ⟨c, hc, hcall⟩ := h.child p hp
    obtain ⟨d, hd, hcall', -⟩ := hk p c hc
    exact ⟨d, hd, hcall'.trans hcall⟩
  told p hp := by
    obtain ⟨c, status, hc, hend, hresult⟩ := h.told p hp
    obtain ⟨d, hd, -, hend'⟩ := hk p c hc
    exact ⟨d, status, hd, hend' status hend, hresult⟩
  failed := h.failed

namespace Caller

/-- **What the caller keeps true.** -/
structure Inv (s : Caller) : Prop where
  /-- No child is told of twice. -/
  sound : s.children.Sound
  /-- The output file of the call is open, and no other. -/
  fds : s.fds.Owns s.pc.outputFd.toList
  /-- It is the file of the call. -/
  fits : s.pc.Fits
  /-- The children. -/
  ok : ∀ c ∈ s.children.cells, c.Ok
  /-- The child of the call is there. -/
  own : ∀ p, s.pc.child = some p → s.children.Live p ∧
    ∃ c : Child, s.children.cells[p]? = some c ∧ s.pc.call = some c.call
  /-- Those that are there besides were left. -/
  left : s.children.liveList.length = s.answers.countP Answer.left + s.pc.child.toList.length
  /-- The answers. -/
  answers : ∀ a ∈ s.answers, a.Ok s.children
  /-- Who was told of is gone. -/
  told : s.answers.filterMap Answer.told = s.children.freed

theorem inv_init : init.Inv where
  sound := Heap.sound_empty
  fds := Heap.owns_empty
  fits := trivial
  ok _ hc := by cases hc
  own _ hp := by cases hp
  left := rfl
  answers _ ha := by cases ha
  told := rfl

variable {s t : Caller} {e : Event}

/-- Only what comes next changes, or what is open. -/
theorem Inv.proceed (h : s.Inv) (hchildren : t.children = s.children)
    (hanswers : t.answers = s.answers) (hfds : t.fds.Owns t.pc.outputFd.toList)
    (hchild : t.pc.child = s.pc.child) (hcall : t.pc.child ≠ none → t.pc.call = s.pc.call)
    (hfits : t.pc.Fits) : t.Inv where
  sound := hchildren ▸ h.sound
  fds := hfds
  fits := hfits
  ok := hchildren ▸ h.ok
  own p hp := by
    rw [hchildren, hcall (by simp [hp])]
    exact h.own p (hchild ▸ hp)
  left := by rw [hchildren, hanswers, hchild, h.left]
  answers := by rw [hanswers, hchildren]; exact h.answers
  told := by rw [hanswers, hchildren, h.told]

/-- A call returns that has forked nobody, or that was interrupted. -/
theorem Inv.fail (h : s.Inv) {fds : Heap Unit} (hfds : fds.Owns []) (call : ExecCall)
    (hcall : s.pc.child ≠ none → s.pc.call = some call) :
    (answer { s with fds := fds } ⟨call, s.pc.child, none, false⟩).Inv where
  sound := h.sound
  fds := hfds
  fits := trivial
  ok := h.ok
  own _ hp := by cases hp
  left := by
    have hlast : List.countP Answer.left [⟨call, s.pc.child, none, false⟩]
        = s.pc.child.toList.length := by cases s.pc.child <;> rfl
    rw [answer, List.countP_append, hlast, ← h.left]
    rfl
  answers a ha := by
    rcases List.mem_append.1 ha with ha | ha
    · exact h.answers a ha
    · obtain rfl := List.mem_singleton.1 ha
      refine ⟨fun p hp ↦ ?_, fun _ hp ↦ (by cases hp), fun _ ↦ rfl⟩
      obtain ⟨-, c, hc, hcall'⟩ := h.own p hp
      rw [hcall (by rw [show s.pc.child = some p from hp]; simp)] at hcall'
      exact ⟨c, hc, (Option.some_inj.1 hcall').symm⟩
  told := by simp [answer, h.told]

/-- A child is forked. -/
theorem Inv.forked (h : s.Inv) (call : ExecCall) (fd : Option ℕ) (pc : CallerPc)
    (hchild : pc.child = some s.children.next) (hcall : pc.call = some call)
    (hfds : s.fds.Owns pc.outputFd.toList) (hpc : s.pc = .fork call fd) :
    Inv { s with children := s.children.alloc (.start call fd), pc := pc } where
  sound := h.sound.alloc _
  fds := hfds
  fits := by cases pc <;> trivial
  ok c hc := by
    rcases List.mem_append.1 hc with hc | hc
    · exact h.ok c hc
    · rw [List.mem_singleton.1 hc]
      exact Child.ok_start (by rw [← CallerPc.Fits, ← hpc]; exact h.fits)
  own p hp := by
    obtain rfl := Option.some_inj.1 (hchild.symm.trans hp)
    exact ⟨(Heap.live_alloc h.sound.next_notMem).2 (Or.inl rfl), _, List.getElem?_concat_length,
      hcall⟩
  left := by
    have hleft := h.left
    rw [hpc] at hleft
    rw [hchild, Heap.liveList_alloc h.sound.next_notMem, List.length_append, hleft]
    rfl
  answers a ha := (h.answers a ha).keeps (keeps_alloc _ _)
  told := h.told

/-- `wait` tells of a child. -/
theorem Inv.waited (h : s.Inv) {call : ExecCall} {child p : ℕ} {c : Child} {status : WaitStatus}
    (hpc : s.pc = .wait call child) (hget : s.children.get? p = some c)
    (hend : c.pc = .ended status) :
    (answer { s with children := s.children.free p }
      ⟨call, some child, some p, status.succeeded⟩).Inv where
  sound := h.sound.free (Heap.live_of_get? hget)
  fds := by
    have hfds := h.fds
    rw [hpc] at hfds
    exact hfds
  fits := trivial
  ok := h.ok
  own _ hp := by cases hp
  left := by
    have hleft := h.left
    have hmem := Heap.mem_liveList.2 (Heap.live_of_get? hget)
    rw [hpc] at hleft
    rw [answer, Heap.liveList_free, List.length_erase_of_mem hmem, hleft, List.countP_append]
    rfl
  answers a ha := by
    rcases List.mem_append.1 ha with ha | ha
    · exact (h.answers a ha).keeps (keeps_free _ _)
    · obtain rfl := List.mem_singleton.1 ha
      refine ⟨fun q hq ↦ ?_, fun q hq ↦ ?_, fun hnone ↦ by cases hnone⟩
      · obtain ⟨-, d, hd, hcall⟩ := h.own q (by rw [hpc]; exact hq)
        rw [hpc] at hcall
        exact ⟨d, hd, (Option.some_inj.1 hcall).symm⟩
      · obtain rfl := Option.some_inj.1 hq
        have hcell := Heap.getElem?_of_get? hget
        exact ⟨c, status, hcell, hend, rfl⟩
  told := by simp [answer, h.told]

/-- A child makes a step. -/
theorem Inv.childGoes (h : s.Inv) {p : ℕ} {c d : Child} (hget : s.children.get? p = some c)
    (hgoes : c.Goes d) : Inv { s with children := s.children.set p d } where
  sound := h.sound.set p d
  fds := h.fds
  fits := h.fits
  ok b hb := by
    rcases List.mem_or_eq_of_mem_set hb with hb | rfl
    · exact h.ok b hb
    · exact (h.ok c (List.mem_of_getElem? (Heap.getElem?_of_get? hget))).goes hgoes
  own q hq := by
    obtain ⟨hlive, b, hb, hcall⟩ := h.own q hq
    obtain ⟨b', hb', hcall', -⟩ := keeps_set hget hgoes q b hb
    exact ⟨Heap.live_set.2 hlive, b', hb', by rw [hcall']; exact hcall⟩
  left := by rw [Heap.liveList_set]; exact h.left
  answers a ha := (h.answers a ha).keeps (keeps_set hget hgoes)
  told := h.told

theorem Inv.goes (h : s.Inv) (hgoes : s.Goes e t) : t.Inv := by
  have hfds := h.fds
  cases hgoes with
  | call call hpc =>
    rw [hpc] at hfds
    exact h.proceed rfl rfl (by rw [CallerPc.outputFd_first]; exact hfds)
      (by rw [hpc, CallerPc.child_first]; rfl) (fun hne ↦ absurd (CallerPc.child_first call) hne)
      (CallerPc.fits_first call)
  | «open» hpc =>
    rw [hpc] at hfds
    have hfits := h.fits
    rw [hpc, CallerPc.Fits] at hfits
    exact h.proceed rfl rfl (hfds.alloc ()) (by rw [hpc]; rfl) (fun hne ↦ absurd rfl hne)
      hfits.symm
  | @noFile call hpc =>
    have hnone : s.pc.child = none := by rw [hpc]; rfl
    rw [hpc] at hfds
    have hfail := h.fail hfds call fun hne ↦ absurd hnone hne
    rwa [hnone] at hfail
  | @fork call outputFd hpc =>
    rw [hpc] at hfds
    cases outputFd with
    | none => exact h.forked call none (.wait call _) rfl rfl hfds hpc
    | some fd => exact h.forked call (some fd) (.close call fd _) rfl rfl hfds hpc
  | @noFork call outputFd hpc =>
    have hnone : s.pc.child = none := by rw [hpc]; rfl
    have hclosed : (outputFd.elim s.fds s.fds.free).Owns [] := by
      rw [hpc] at hfds
      cases outputFd with
      | none => exact hfds
      | some fd => exact hfds.free
    have hfail := h.fail hclosed call fun hne ↦ absurd hnone hne
    rwa [hnone] at hfail
  | close hpc =>
    rw [hpc] at hfds
    exact h.proceed rfl rfl hfds.free (by rw [hpc]; rfl) (fun _ ↦ by rw [hpc]; rfl) trivial
  | @interrupted call child hpc =>
    have hchild : s.pc.child = some child := by rw [hpc]; rfl
    rw [hpc] at hfds
    have hfail := h.fail hfds call fun _ ↦ by rw [hpc]; rfl
    rwa [hchild] at hfail
  | wait hpc hget hend => exact h.waited hpc hget hend
  | child hget hgoes => exact h.childGoes hget hgoes

theorem Inv.run (h : s.Inv) {es : List Event} {ok : Caller → Event → Prop}
    (hrun : Machine.Run step ok s es t) : t.Inv :=
  hrun.invariant (fun _ _ _ hs _ hstep ↦ hs.goes (step_cases hstep)) h

/-! ## While no `wait` is interrupted -/

/-- Each call was told of its own child. -/
def Prompt (s : Caller) : Prop := ∀ a ∈ s.answers, a.told = a.child

/-- Then there is no other. -/
theorem Inv.alone (h : s.Inv) (hprompt : s.Prompt) :
    s.children.liveList = s.pc.child.toList := by
  have hleft : s.answers.countP Answer.left = 0 := List.countP_eq_zero.2 fun a ha ↦ by
    rw [Answer.left, hprompt a ha]
    cases a.child <;> simp
  have hlen := h.left
  rw [hleft, Nat.zero_add] at hlen
  cases hchild : s.pc.child with
  | none =>
    rw [hchild] at hlen
    exact List.length_eq_zero_iff.1 hlen
  | some p =>
    rw [hchild] at hlen
    obtain ⟨q, hq⟩ := List.length_eq_one_iff.1 hlen
    have hp := Heap.mem_liveList.2 (h.own p hchild).1
    rw [hq] at hp ⊢
    rw [List.mem_singleton.1 hp]
    rfl

theorem Prompt.goes (h : s.Prompt) (hinv : s.Inv) (he : s.WaitOk e) (hgoes : s.Goes e t) :
    t.Prompt := by
  -- one more answer
  have hanswer : ∀ a : Answer, a.told = a.child → ∀ b ∈ s.answers ++ [a], b.told = b.child := by
    intro a ha b hb
    rcases List.mem_append.1 hb with hb | hb
    · exact h b hb
    · rw [List.mem_singleton.1 hb, ha]
  cases hgoes with
  | noFile hpc => exact hanswer _ rfl
  | noFork hpc => exact hanswer _ rfl
  | interrupted hpc => exact absurd rfl he
  | @wait call child p c status hpc hget hend =>
    refine hanswer _ ?_
    have hp := Heap.mem_liveList.2 (Heap.live_of_get? hget)
    rw [hinv.alone h, hpc] at hp
    rw [List.mem_singleton.1 hp]
  | _ => exact h

/-- **The calls answer for their commands**, as long as no `wait` is interrupted, whatever else
happens in a caller whose descriptor `1` is open: a call returns `true` if and only if its own child
has executed the command, with its output where the call says, and the command has exited with `0`.
Between the calls no child is left over and no file is open. -/
theorem answers_right (h : Machine.Reachable step WaitOk init s) :
    (∀ a ∈ s.answers, a.result = true ↔ ∃ (p : ℕ) (c : Child), a.child = some p ∧
      s.children.cells[p]? = some c ∧ c.call = a.call ∧ c.executed = true ∧
      c.stdout = c.outputFd ∧ c.outputFd.isSome = a.call.outputfile.isSome ∧
      c.pc = .ended (.exited 0)) ∧
    (s.pc = .idle → s.children.liveList = [] ∧ s.fds.Owns []) := by
  obtain ⟨hinv, hprompt⟩ := h.invariant (P := fun s ↦ s.Inv ∧ s.Prompt)
    (fun s e t ⟨hinv, hprompt⟩ he hstep ↦
      have hgoes := step_cases hstep
      ⟨hinv.goes hgoes, hprompt.goes hinv he hgoes⟩)
    ⟨inv_init, fun _ ha ↦ by cases ha⟩
  refine ⟨fun a ha ↦ ?_, fun hidle ↦ ?_⟩
  · have hok := hinv.answers a ha
    have htold := hprompt a ha
    cases hchild : a.child with
    | none =>
      rw [hok.failed (htold.trans hchild)]
      simp
    | some p =>
      obtain ⟨c, hc, hcall⟩ := hok.child p hchild
      obtain ⟨d, status, hd, hend, hresult⟩ := hok.told p (htold.trans hchild)
      obtain rfl := Option.some_inj.1 (hc.symm.trans hd)
      have hchildOk := hinv.ok c (List.mem_of_getElem? hc)
      rw [hresult]
      constructor
      · intro hsucceeded
        obtain rfl : status = .exited 0 := by
          cases status with
          | exited code => rw [beq_iff_eq.1 hsucceeded]
          | signaled => cases hsucceeded
        have hexecuted := hchildOk.executed (Or.inr ⟨0, hend⟩)
        exact ⟨p, c, rfl, hc, hcall, hexecuted, hchildOk.redirected hexecuted,
          hcall ▸ hchildOk.output, hend⟩
      · rintro ⟨q, b, hq, hb, -, -, -, -, hexit⟩
        obtain rfl := Option.some_inj.1 hq
        obtain rfl := Option.some_inj.1 (hc.symm.trans hb)
        rw [hend] at hexit
        cases hexit
        rfl
  · have hfds := hinv.fds
    rw [hidle] at hfds
    rw [hinv.alone hprompt, hidle]
    exact ⟨rfl, hfds⟩

/-! ## After one that is interrupted -/

theorem Goes.answers (h : s.Goes e t) : s.answers <+: t.answers := by
  cases h with
  | noFile => exact List.prefix_append _ _
  | noFork => exact List.prefix_append _ _
  | interrupted => exact List.prefix_append _ _
  | wait => exact List.prefix_append _ _
  | _ => exact List.prefix_rfl

/-- **A child that was left stays.**  Between the calls there are as many children as `wait`s that
were interrupted, and never fewer later; no child is told of twice.  If one of them has ended the
next call can answer for it, whatever its command is, and while its own child has not begun. -/
theorem left_over (h : Machine.Reachable step Machine.Always init s) (hidle : s.pc = .idle) :
    s.children.liveList.length = s.answers.countP Answer.left ∧
    (s.answers.filterMap Answer.told).Nodup ∧
    (∀ t, Machine.Reachable step Machine.Always s t →
      s.children.liveList.length ≤ t.children.liveList.length) ∧
    ∀ (q : ℕ) (c : Child) (status : WaitStatus) (command : List String),
      s.children.get? q = some c → c.pc = .ended status →
      ∃ t, Machine.Reachable step WaitOk s t ∧ t.pc = .idle ∧
        t.answers = s.answers ++
          [⟨doExec command, some s.children.next, some q, status.succeeded⟩] ∧
        t.children.get? s.children.next = some (.start (doExec command) none) := by
  obtain ⟨es, hrun⟩ := h
  have hinv := inv_init.run hrun
  have hleft : s.children.liveList.length = s.answers.countP Answer.left := by
    rw [hinv.left, hidle]
    rfl
  refine ⟨hleft, hinv.told ▸ hinv.sound.nodup, fun t ⟨es', hrun'⟩ ↦ ?_, ?_⟩
  · have hanswers : s.answers <+: t.answers :=
      hrun'.invariant (P := fun t ↦ s.answers <+: t.answers)
        (fun _ _ _ hs _ hstep ↦ hs.trans (step_cases hstep).answers) List.prefix_rfl
    rw [hleft, (hinv.run hrun').left]
    exact Nat.le_add_right_of_le (hanswers.sublist.countP_le)
  · intro q c status command hget hend
    have hlive := Heap.live_of_get? hget
    let call := doExec command
    let children := s.children.alloc (.start call none)
    -- the call forks its child, and `wait` tells of the other one
    have hcall : s.step (.call call) = some { s with pc := .fork call none } := by
      rw [step, if_pos hidle]
      rfl
    have hfork : step { s with pc := .fork call none } (.fork true)
        = some { s with children := children, pc := .wait call s.children.next } := rfl
    have hwait : step { s with children := children, pc := .wait call s.children.next }
        (.wait (some q)) = some (answer { s with children := children.free q }
          ⟨call, some s.children.next, some q, status.succeeded⟩) := by
      have hget' : children.get? q = some c := (Heap.get?_alloc_of_live hlive).trans hget
      simp only [step, hget', hend]
      rfl
    refine ⟨_, ((Machine.Reachable.single (by simp [WaitOk]) hcall).trans
      (.single (by simp [WaitOk]) hfork)).trans (.single (by simp [WaitOk]) hwait), rfl, rfl, ?_⟩
    exact (Heap.get?_free_of_ne (Nat.ne_of_gt hlive.1)).trans
      (Heap.get?_alloc_next hinv.sound.next_notMem)

/-- Two commands, of which the second one fails and has its output redirected. -/
def twoCommands : List Event :=
  [.call (doExec ["/bin/true"]), .fork true, .child 0 (.execv true), .child 0 (.exit 0),
    .wait (some 0), .call (doExecRedirect "out" ["/bin/false"]), .open true, .fork true,
    .child 1 (.dup2 true), .close, .child 1 .close, .child 1 (.execv true), .child 1 (.exit 1),
    .wait (some 1)]

theorem answers_right_two : ∃ s : Caller, s.answers.map Answer.result = [true, false] ∧
    s.children.liveList = [] ∧ ∃ c : Child, s.children.cells[0]? = some c ∧ c.executed = true ∧
      c.pc = .ended (.exited 0) := by
  have hexec : Machine.exec (fun s e ↦ if WaitOk s e then step s e else none) init twoCommands
      = some ⟨.idle, ⟨[⟨doExec ["/bin/true"], none, none, true, .ended (.exited 0)⟩,
        ⟨doExecRedirect "out" ["/bin/false"], some 0, some 0, true, .ended (.exited 1)⟩], [0, 1]⟩,
        ⟨[()], [0]⟩, [⟨doExec ["/bin/true"], some 0, some 0, true⟩,
          ⟨doExecRedirect "out" ["/bin/false"], some 1, some 1, false⟩]⟩ := by decide +kernel
  obtain ⟨hanswers, hbetween⟩ := answers_right ⟨_, Machine.run_of_exec_guarded hexec⟩
  obtain ⟨p, c, hp, hc, -, hexecuted, -, -, hend⟩ :=
    (hanswers _ (List.mem_cons_self ..)).1 rfl
  obtain rfl := Option.some_inj.1 hp
  exact ⟨_, rfl, (hbetween rfl).1, c, hc, hexecuted, hend⟩

/-- A call is interrupted, and its command fails later. -/
def interruptedCall : List Event :=
  [.call (doExec ["/bin/false"]), .fork true, .child 0 (.execv true), .wait none,
    .child 0 (.exit 1)]

/-- The next call, of another command, is answered with that. -/
theorem left_over_next : ∃ t : Caller, t.pc = .idle ∧
    t.answers = [⟨doExec ["/bin/false"], some 0, none, false⟩,
      ⟨doExec ["/bin/true"], some 1, some 0, false⟩] := by
  have hexec : Machine.exec step init interruptedCall = some ⟨.idle,
      ⟨[⟨doExec ["/bin/false"], none, none, true, .ended (.exited 1)⟩], []⟩, .empty,
      [⟨doExec ["/bin/false"], some 0, none, false⟩]⟩ := by decide +kernel
  obtain ⟨-, -, -, hnext⟩ := left_over ⟨_, Machine.run_of_exec hexec⟩ rfl
  obtain ⟨t, -, hidle, hanswers, -⟩ := hnext 0 _ (.exited 1) ["/bin/true"] rfl rfl
  exact ⟨t, hidle, hanswers⟩

end Caller

end Systemcalls

end Aesd
