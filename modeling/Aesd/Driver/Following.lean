import Aesd.Lib.Window
import Aesd.Driver.Concurrent
import Aesd.Driver.Stream

/-!
# Following the device

A user opens the device and goes on reading, with any counts, while others write and the ring evicts
what is oldest.  An eviction moves the content under the reader's position, and nothing tells the
reader so.  `Node.following` says what the reader still can rely on: it gets nothing twice and
nothing out of order, and misses no more bytes than were evicted while it was reading.

`Node.traffic` is what a run of calls has of this: the commands that were completed, and what each
read gave.
-/

set_option autoImplicit false

namespace Aesd

/-- What a call adds to the device or gives to a reader. -/
inductive Traffic
  /-- A command is complete. -/
  | ended (command : List Byte)
  /-- A read of an open file. -/
  | got (file : ℕ) (bytes : List Byte)
deriving DecidableEq, Repr

namespace Traffic

/-- The commands. -/
def command : Traffic → List (List Byte)
  | .ended command => [command]
  | .got _ _ => []

/-- What a file's reads gave. -/
def read (f : ℕ) : Traffic → List Byte
  | .ended _ => []
  | .got file bytes => if file = f then bytes else []

end Traffic

namespace Node

variable [Platform]

/-- A call as a step. -/
def serve (s : Node) (c : Call) : Option Node :=
  match s.perform c with
  | .ok (_, t) => some t
  | .error _ => none

/-- What a call adds to the device or gives to a reader: a write that is accepted and ends in a
newline completes the command that `temp_entry` has begun. -/
def traffic (s : Node) (c : Call) : Option Traffic :=
  match c, s.perform c with
  | .write w, .ok (a, _) =>
    if 0 < a.retval ∧ NewlineTerminated w.userBuf then
      some (.ended (entryBytes s.driver.mem s.driver.dev.tempEntry ++ w.userBuf))
    else none
  | .read file _, .ok (a, _) => some (.got file a.data)
  | _, _ => none

/-- The calls that leave a file's position to its reads. -/
def OnlyRead (f : ℕ) (_ : Node) : Call → Prop
  | .read _ _ => True
  | c => c.uses ≠ some f

instance (f : ℕ) (s : Node) : DecidablePred (s.OnlyRead f) := fun c ↦
  match c with
  | .read _ _ => inferInstanceAs (Decidable True)
  | .open _ | .pread _ _ | .write _ | .ioctl _ _ | .llseek _ _ =>
    inferInstanceAs (Decidable (_ ≠ _))

/-- The commands there were and those that a run of calls stores. -/
def stored (s : Node) (cs : List Call) : List (List Byte) :=
  s.driver.commands ++ (Machine.observed serve traffic s cs).flatMap Traffic.command

/-- The bytes that a file's reads give in a run of calls. -/
def told (s : Node) (f : ℕ) (cs : List Call) : List Byte :=
  (Machine.observed serve traffic s cs).flatMap (Traffic.read f)

variable {s t : Node} {c : Call} {f : ℕ} {log : CommandLog} {commands : List (List Byte)}
  {bytes : List Byte}

theorem serve_eq_some : s.serve c = some t ↔ ∃ a, s.perform c = .ok (a, t) := by
  rw [serve]
  cases s.perform c with
  | error bug => simp
  | ok r => simp [Prod.ext_iff]

/-- What `temp_entry` has is what is pending. -/
theorem entryBytes_temp {d : Driver} (h : d.Represents log) :
    entryBytes d.mem d.dev.tempEntry = log.pending := by
  rcases h.temp with ⟨hnil, htemp⟩ | ⟨-, hholds⟩
  · rw [hnil, htemp]
    rfl
  · exact hholds.entryBytes_eq

/-- What a read gives, at a position that fits in `size_t`. -/
theorem read_follows {d : Driver} {p : ℕ} (h : d.Represents log) (hp : p < SizeT.bound)
    (call : ReadCall) : ∃ r, d.aesdRead p call = .ok r ∧ r.data <+: log.content.drop p ∧
      r.f_pos = (p + r.data.length : ℕ) ∧ p + r.data.length < SizeT.bound := by
  rcases Nat.eq_zero_or_pos call.count with hcount | hcount
  · refine ⟨_, Driver.aesdRead_eq h.toStores p call, ?_⟩
    rw [CommandLog.read, if_pos hcount]
    exact ⟨List.nil_prefix, by simp, by simpa using hp⟩
  · obtain ⟨r, heq, hdata, hf, -, hlt, -⟩ := Driver.read_cases h hp hcount
    exact ⟨r, heq, hdata, by exact_mod_cast hf, hlt⟩

/-- **A file that follows the device.** -/
structure Following (s : Node) (f : ℕ) (commands : List (List Byte)) (bytes : List Byte) :
    Prop where
  /-- The device has the last of the commands. -/
  represents : ∃ log, s.driver.Represents log ∧ log.commands = commands.rtake 10
  /-- The position is how much was read. -/
  position : s.f_pos f = bytes.length
  /-- It fits in `size_t`. -/
  fits : bytes.length < SizeT.bound
  /-- What was read follows the window. -/
  follows : (Window.last 10 commands).Follows bytes

theorem Following.write {w : WriteCall} (h : s.Following f commands bytes)
    (hs : s.serve (.write w) = some t) :
    t.Following f (commands ++ (s.traffic (.write w)).toList.flatMap Traffic.command)
      (bytes ++ (s.traffic (.write w)).toList.flatMap (Traffic.read f)) := by
  obtain ⟨log, hrep, hcommands⟩ := h.represents
  obtain ⟨r, d, heq, hrep', -⟩ := Driver.aesdWrite_step hrep w
  have hperform : s.perform (.write w) = .ok (⟨r, []⟩, { s with driver := d }) := by
    simp only [perform, copied, call, heq, ok_bind]
  obtain ⟨a, hs⟩ := serve_eq_some.1 hs
  rw [hperform] at hs
  cases hs
  -- nothing is completed
  have hsame : s.traffic (.write w) = none → (∃ log, d.Represents log ∧
      log.commands = commands.rtake 10) →
      Following { s with driver := d } f
        (commands ++ (s.traffic (.write w)).toList.flatMap Traffic.command)
        (bytes ++ (s.traffic (.write w)).toList.flatMap (Traffic.read f)) := by
    intro hnone hrep
    rw [hnone]
    simpa using ⟨hrep, h.position, h.fits, h.follows⟩
  by_cases hpos : 0 < r
  swap
  · rw [if_neg hpos] at hrep'
    exact hsame (by simp [traffic, hperform, hpos]) ⟨log, hrep', hcommands⟩
  rw [if_pos hpos] at hrep'
  by_cases ht : NewlineTerminated w.userBuf
  swap
  · rw [CommandLog.write_of_not_terminated ht] at hrep'
    exact hsame (by simp [traffic, hperform, ht]) ⟨_, hrep', hcommands⟩
  rw [CommandLog.write_of_terminated ht, hcommands, Ring.rtake_rtake_concat,
    ← entryBytes_temp hrep] at hrep'
  have htraffic : s.traffic (.write w)
      = some (.ended (entryBytes s.driver.mem s.driver.dev.tempEntry ++ w.userBuf)) := by
    simp [traffic, hperform, hpos, ht]
  rw [htraffic]
  show Following _ f (commands ++ [_]) (bytes ++ [])
  rw [List.append_nil]
  exact ⟨⟨_, hrep', rfl⟩, h.position, h.fits, h.follows.slides (Window.slides_last 10 commands _)⟩

theorem Following.read {call : ReadCall} (h : s.Following f commands bytes)
    (hs : s.serve (.read f call) = some t) :
    t.Following f (commands ++ (s.traffic (.read f call)).toList.flatMap Traffic.command)
      (bytes ++ (s.traffic (.read f call)).toList.flatMap (Traffic.read f)) := by
  obtain ⟨log, hrep, hcommands⟩ := h.represents
  obtain ⟨r, heq, hdata, hf, hlt⟩ := read_follows hrep h.fits call
  rw [← h.position] at heq
  have hperform : s.perform (.read f call) = .ok (⟨r.retval, r.data⟩, s.seek f r.f_pos) := by
    simp only [perform, copied, Node.call, heq, ok_bind]
  obtain ⟨a, hs⟩ := serve_eq_some.1 hs
  rw [hperform] at hs
  cases hs
  have htraffic : s.traffic (.read f call) = some (.got f r.data) := by
    simp only [traffic, hperform]
  have htold : Traffic.read f (.got f r.data) = r.data := if_pos rfl
  rw [htraffic, Option.toList_some, List.flatMap_singleton, List.flatMap_singleton, htold]
  show Following _ f (commands ++ []) _
  rw [← List.length_append] at hf hlt
  rw [List.append_nil]
  refine ⟨⟨log, hrep, hcommands⟩, (if_pos rfl).trans hf, hlt, h.follows.reads ?_⟩
  rw [CommandLog.content, hcommands] at hdata
  exact hdata

/-- Only a write changes the device. -/
theorem perform_driver {a : Answer} (hwrite : ∀ w, c ≠ .write w) (hs : s.perform c = .ok (a, t)) :
    t.driver = s.driver := by
  obtain ⟨data, -, hs⟩ := bind_eq_ok.1 hs
  obtain ⟨⟨retval, u⟩, hcall, hs⟩ := bind_eq_ok.1 hs
  cases hs
  cases c with
  | «open» file => cases hcall; rfl
  | write w => exact absurd rfl (hwrite w)
  | _ =>
    obtain ⟨r, -, hcall⟩ := bind_eq_ok.1 hcall
    cases hcall
    rfl

/-- The other calls. -/
theorem Following.other (h : s.Following f commands bytes) (huses : c.uses ≠ some f)
    (hwrite : ∀ w, c ≠ .write w) (hread : ∀ call, c ≠ .read f call) (hs : s.serve c = some t) :
    t.Following f (commands ++ (s.traffic c).toList.flatMap Traffic.command)
      (bytes ++ (s.traffic c).toList.flatMap (Traffic.read f)) := by
  obtain ⟨a, hs⟩ := serve_eq_some.1 hs
  have htraffic : (s.traffic c).toList.flatMap Traffic.command = [] ∧
      (s.traffic c).toList.flatMap (Traffic.read f) = [] := by
    cases c with
    | write w => exact absurd rfl (hwrite w)
    | read file call =>
      have hne : file ≠ f := fun hf ↦ hread call (by rw [hf])
      simp [traffic, hs, Traffic.command, Traffic.read, hne]
    | _ => exact ⟨rfl, rfl⟩
  rw [htraffic.1, htraffic.2, List.append_nil, List.append_nil]
  refine ⟨perform_driver hwrite hs ▸ h.represents, ?_, h.fits, h.follows⟩
  rw [(perform_seek (q := 0) hs huses).2, h.position]

/-- **Every call** keeps a file that is only read on its way. -/
theorem Following.step (h : s.Following f commands bytes) (hc : s.OnlyRead f c)
    (hs : s.serve c = some t) :
    t.Following f (commands ++ (s.traffic c).toList.flatMap Traffic.command)
      (bytes ++ (s.traffic c).toList.flatMap (Traffic.read f)) := by
  cases c with
  | read file call =>
    by_cases hf : file = f
    · subst hf
      exact h.read hs
    · refine h.other ?_ (by simp) (by simp [hf]) hs
      rw [Call.uses]
      split <;> simp [hf]
  | write w => exact h.write hs
  | _ => exact h.other hc (by simp) (by simp) hs

/-- An open file that nothing was read from may be opened again. -/
theorem Following.open (h : s.Following f commands []) (hs : s.serve (.open f) = some t) :
    t.Following f commands [] := by
  obtain ⟨a, hs⟩ := serve_eq_some.1 hs
  cases hs
  exact ⟨h.represents, if_pos rfl, h.fits, h.follows⟩

/-- What one call after others shows. -/
theorem observed_concat {cs : List Call} {u : Node} (h : Machine.Run serve Machine.Always s cs t)
    (hs : t.serve c = some u) : Machine.observed serve traffic s (cs ++ [c])
      = Machine.observed serve traffic s cs ++ (t.traffic c).toList := by
  rw [h.observed_append, Machine.observed_cons hs, Machine.observed, List.append_nil]

theorem stored_concat {cs : List Call} {u : Node} (h : Machine.Run serve Machine.Always s cs t)
    (hs : t.serve c = some u) :
    s.stored (cs ++ [c]) = s.stored cs ++ (t.traffic c).toList.flatMap Traffic.command := by
  rw [stored, observed_concat h hs, List.flatMap_append, ← List.append_assoc, stored]

theorem told_concat {cs : List Call} {u : Node} (h : Machine.Run serve Machine.Always s cs t)
    (hs : t.serve c = some u) :
    s.told f (cs ++ [c]) = s.told f cs ++ (t.traffic c).toList.flatMap (Traffic.read f) := by
  rw [told, observed_concat h hs, List.flatMap_append, told]

/-- Every run keeps the device in order. -/
theorem represents_of_run (h : Machine.Reachable serve Machine.Always init s) :
    ∃ log, s.driver.Represents log := by
  refine h.invariant (P := fun s ↦ ∃ log, s.driver.Represents log) ?_ ⟨_, Driver.represents_init⟩
  rintro s c t ⟨log, hrep⟩ - hs
  obtain ⟨a, hs⟩ := serve_eq_some.1 hs
  obtain ⟨a', t', log', heq, hrep'⟩ := perform_represents hrep c
  rw [hs] at heq
  cases heq
  exact ⟨log', hrep'⟩

/-- Where it starts, nothing was read. -/
theorem following_start (h : s.driver.Represents log) (hpos : s.f_pos f = 0) :
    s.Following f s.driver.commands [] := by
  have hle : log.commands.length ≤ 10 := by
    rw [h.toStores.length_commands]
    exact h.wf.size_le
  refine ⟨⟨log, h, ?_⟩, hpos, (Nat.zero_lt_of_lt SizeT.fits), Window.follows_nil _⟩
  rw [h.toStores.commands_eq, List.rtake, Nat.sub_eq_zero_of_le hle, List.drop_zero]

/-- **A reader follows the device.**  From any state the driver can be in, an open file whose
position is at the start and which from then on is only read, with any counts, while other calls
write, evict, seek in other files, and fail: the device has the last ten of the commands there were
and those stored since.  The bytes that the reads gave are some of theirs, none twice and none out
of order, as many as the position says; and all of them up to some place if none was evicted.  When
a read returns `0`, the bytes it was not given are no more than those that were evicted. -/
theorem following {s₀ s : Node} {cs : List Call}
    (hreach : Machine.Reachable serve Machine.Always init s₀) (hstart : s₀.f_pos f = 0)
    (hrun : Machine.Run serve (OnlyRead f) s₀ cs s) :
    s.driver.commands = (s₀.stored cs).rtake 10 ∧ s.f_pos f = (s₀.told f cs).length ∧
      (s₀.told f cs).Sublist (s₀.stored cs).flatten ∧
      ((s₀.stored cs).length ≤ 10 → s₀.told f cs <+: (s₀.stored cs).flatten) ∧
      ∀ (call : ReadCall) (r : ReadResult), 0 < call.count →
        s.driver.aesdRead (s.f_pos f) call = .ok r → r.retval = 0 →
        (s₀.stored cs).flatten.length
          ≤ (s₀.told f cs).length + ((s₀.stored cs).rdrop 10).flatten.length := by
  obtain ⟨log₀, hrep₀⟩ := represents_of_run hreach
  have hfollowing : s.Following f (s₀.stored cs) (s₀.told f cs) := by
    have hfirst : s₀.Following f
        (s₀.driver.commands ++ ([] : List Traffic).flatMap Traffic.command)
        (([] : List Traffic).flatMap (Traffic.read f)) := by
      rw [List.flatMap_nil, List.append_nil]
      exact following_start hrep₀ hstart
    refine hrun.records (f := traffic)
      (R := fun s trs ↦ s.Following f (s₀.driver.commands ++ trs.flatMap Traffic.command)
        (trs.flatMap (Traffic.read f))) (fun s c t trs h hc hs ↦ ?_) hfirst
    rw [List.flatMap_append, List.flatMap_append, ← List.append_assoc]
    exact h.step hc hs
  obtain ⟨log, hrep, hcommands⟩ := hfollowing.represents
  have hfollows := hfollowing.follows
  refine ⟨hrep.toStores.commands_eq.trans hcommands, hfollowing.position, ?_, fun hlen ↦ ?_,
    fun call r hcount hr hzero ↦ ?_⟩
  · obtain ⟨n, -, hsub⟩ := hfollows.sublist
    rw [Window.history_last] at hsub
    exact hsub.trans (List.take_sublist _ _)
  · have hwhole := hfollows.whole (Window.dropped_last hlen)
    rwa [Window.history_last] at hwhole
  · obtain ⟨r', heq, -, -, -, -, -, hend⟩ := Driver.read_cases hrep hfollowing.fits hcount
    rw [hfollowing.position, heq, Except.ok.injEq] at hr
    subst hr
    have hle := (hend.1 hzero).2
    rw [CommandLog.content, hcommands] at hle
    have hmissed := (hfollows.missed (List.drop_eq_nil_of_le hle)).2
    rwa [Window.history_last] at hmissed

/-- A file is read to the first byte, ten commands come and the first two are evicted, and it is
read to the end of what is by then its command. -/
def overtaken : List Call :=
  [.write (.plain [97, 10]), .write (.plain [98, 10]), .read 0 (.plain 1)] ++
    List.replicate 10 (.write (.plain [99, 10])) ++ [.read 0 (.plain 2)]

end Node

attribute [local instance] linux64 in
theorem Node.following_overtaken : ∃ s : Node,
    Machine.Run Node.serve (Node.OnlyRead 0) Node.init Node.overtaken s ∧
    s.f_pos 0 = 2 ∧ Node.init.told 0 Node.overtaken = [97, 10] ∧
    (Node.init.told 0 Node.overtaken).Sublist (Node.init.stored Node.overtaken).flatten := by
  have hsome : (Machine.exec (fun s c ↦ if Node.OnlyRead 0 s c then Node.serve s c else none)
      Node.init Node.overtaken).isSome := by decide +kernel
  have htold : Node.init.told 0 Node.overtaken = [97, 10] := by decide +kernel
  obtain ⟨s, hs⟩ := Option.isSome_iff_exists.1 hsome
  have hrun := Machine.run_of_exec_guarded hs
  obtain ⟨-, hpos, hsub, -⟩ := Node.following (.refl _) rfl hrun
  rw [htold] at hpos hsub
  exact ⟨s, hrun, hpos, htold, htold ▸ hsub⟩

end Aesd
