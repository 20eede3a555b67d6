import Aesd.Driver.Following
import Aesd.Server.Seek

/-!
# The server and the driver

In the device build the store behind the server is the driver, and what the client threads do to
their files are calls of its file operations.  `System.syscalls` lists them as they come in a run.
They are a run of the driver alone, which leads to the driver that the server has
(`System.runs_driver`): no interleaving of the threads does to the device what its calls, one after
the other, would not do.

So a client whose packets are all data is a reader in the sense of `Node.Following`, whatever fails
and whoever seeks elsewhere (`System.device_follows`).
-/

set_option autoImplicit false

namespace Aesd

/-- What a step reads from the file. -/
def Event.got : Event → List Byte
  | .read bytes _ => bytes
  | _ => []

/-- Where a step leaves the file, if it moves it. -/
def Event.f_pos : Event → Option ℤ
  | .ioctl f_pos => some f_pos
  | .write _ _ f_pos => some f_pos
  | .read _ f_pos => some f_pos
  | .fseek => some 0
  | _ => none

namespace Session

/-- All that was read from the file. -/
def told (t : Session) : List Byte :=
  t.replies.flatten ++ if t.pc.reading = true then t.reply else []

variable {build : Build} {s t : Session} {e : Event}

theorem told_of_not_reading (h : s.pc.reading = false) : s.told = s.replies.flatten := by
  rw [told, h, if_neg (by simp), List.append_nil]

theorem told_of_reading (h : s.pc.reading = true) :
    s.told = s.replies.flatten ++ s.reply := by
  rw [told, if_pos h]

/-- What a step reads is added. -/
theorem Turn.told (h : Turn build s e t) : t.told = s.told ++ e.got := by
  -- a step outside a reply
  have hquiet : s.pc.reading = false → t.pc.reading = false → t.replies = s.replies →
      e.got = [] → t.told = s.told ++ e.got := by
    intro hs ht hreplies hgot
    rw [told_of_not_reading hs, told_of_not_reading ht, hreplies, hgot, List.append_nil]
  -- a step in a reply
  have hreply : s.pc.reading = true → t.pc.reading = true → t.replies = s.replies →
      t.reply = s.reply ++ e.got → t.told = s.told ++ e.got := by
    intro hs ht hreplies hreply
    rw [told_of_reading hs, told_of_reading ht, hreplies, hreply, List.append_assoc]
  cases h with
  | idle he hpc hpc' kept =>
    refine hquiet (Pc.idle_reading hpc) (Pc.idle_reading hpc') kept.replies ?_
    cases e <;> first | rfl | cases he
  | lost hpc hpc' packet seekto kept =>
    exact hquiet (by rw [hpc]; rfl) (by rw [hpc']; rfl) kept.replies rfl
  | found packet hpc hpc' hpacket seekto kept =>
    exact hquiet (by rw [hpc]; rfl) (by rw [hpc']; rfl) kept.replies rfl
  | write count ok f_pos packet hpc =>
    exact hquiet (by rw [hpc]; rfl) (Pc.writing_reading (afterWrite_writing _ _)) rfl rfl
  | rdlock hpc =>
    rw [told_of_not_reading (s := s) (by rw [hpc]; rfl), told_of_reading rfl]
    rfl
  | read bytes f_pos hpc hbytes hpc' =>
    refine hreply (by rw [hpc]; rfl) ?_ rfl rfl
    rcases hpc' with ⟨rfl, -⟩ | ⟨rfl, -⟩ <;> rfl
  | last f_pos hpc => exact hreply (by rw [hpc]; rfl) rfl rfl (List.append_nil _).symm
  | stop f_pos hpc => exact hreply (by rw [hpc]; rfl) rfl rfl (List.append_nil _).symm
  | send count hpc => exact hreply (by rw [hpc]; rfl) rfl rfl (List.append_nil _).symm
  | rdunlock hpc =>
    rw [told_of_reading (s := s) (by rw [hpc]; rfl), told_of_not_reading rfl]
    simp [Event.got]
  | _ => exact hquiet (by simp only [*]; rfl) rfl rfl rfl

/-- Where a step leaves the file. -/
theorem Turn.f_pos (h : Turn build s e t) (hpc : s.pc = e.pc) :
    t.f_pos = e.f_pos.getD s.f_pos := by
  cases h with
  | idle he hidle hidle' kept =>
    rw [kept.f_pos]
    rw [hpc] at hidle
    cases e <;> first | rfl | cases he; done | cases hidle
  | lost hpc hpc' packet seekto kept => exact kept.f_pos
  | found packet hpc hpc' hpacket seekto kept => exact kept.f_pos
  | _ => rfl

/-- The device build never comes to `fseek`. -/
theorem Turn.pc_device (h : Turn .device s e t) : t.pc ≠ .fseek := by
  cases h with
  | idle he hpc hpc' => rintro heq; rw [heq] at hpc'; cases hpc'
  | lost hpc hpc' => simp [hpc']
  | found packet hpc hpc' => simp [hpc']
  | write count ok f_pos =>
    rcases afterWrite_cases .device (if ok then s.rest.drop count else []) with
      heq | ⟨-, heq⟩ | ⟨hfile, -⟩
    · simp only [heq]; simp
    · simp only [heq]; simp
    · cases hfile
  | read bytes f_pos hpc hbytes hpc' => rcases hpc' with ⟨rfl, -⟩ | ⟨rfl, -⟩ <;> simp
  | _ => simp

end Session

/-! ## The calls -/

namespace Node

variable [Platform] {a b : Node} {i : ℕ} {f_pos f_pos' : ℤ} {bytes : List Byte} {store : Store}

/-- The store's `read` is the driver's. -/
theorem serve_read {count : ℕ}
    (h : (Store.device a.driver).read (a.f_pos i) count = .ok (bytes, f_pos')) :
    a.serve (.read i (.plain count)) = some (a.seek i f_pos') ∧
      a.traffic (.read i (.plain count)) = some (.got i bytes) := by
  obtain ⟨r, hr, h⟩ := bind_eq_ok.1 h
  cases h
  have hperform : a.perform (.read i (.plain count))
      = .ok (⟨r.retval, r.data⟩, a.seek i r.f_pos) := by
    simp only [perform, copied, call, hr, ok_bind]
  exact ⟨by rw [serve, hperform], by simp only [traffic, hperform]⟩

/-- The store's `ioctl` is the driver's. -/
theorem serve_ioctl {seekto : AesdSeekto}
    (h : (Store.device a.driver).ioctl (a.f_pos i) seekto = .ok f_pos') :
    a.serve (.ioctl i ⟨AESDCHAR_IOCSEEKTO, seekto, true, true, true⟩)
      = some (a.seek i f_pos') := by
  obtain ⟨⟨retval, pos⟩, hr, h⟩ := bind_eq_ok.1 h
  cases h
  exact serve_eq_some.2 ⟨⟨retval, []⟩, by simp only [perform, copied, call, hr, ok_bind]⟩

/-- The store's `write` is the driver's.  It evicts and stores what the driver does. -/
theorem serve_write {log : CommandLog} {o : WriteOutcome} {ok : Bool}
    (hrep : a.driver.Represents log)
    (h : (Store.device a.driver).write f_pos bytes o = .ok (ok, f_pos', store)) :
    f_pos' = f_pos ∧ ∃ d, store = .device d ∧
      a.serve (.write (o.call bytes)) = some { a with driver := d } ∧
      (Store.device a.driver).evicted bytes o ok ++ store.commands = a.driver.commands ++
        (a.traffic (.write (o.call bytes))).toList.flatMap Traffic.command := by
  obtain ⟨r, d, heq, hrep', -⟩ := Driver.aesdWrite_step hrep (o.call bytes)
  rw [Store.write, heq, ok_bind] at h
  cases h
  have hperform : a.perform (.write (o.call bytes)) = .ok (⟨r, []⟩, { a with driver := d }) := by
    simp only [perform, copied, call, heq, ok_bind]
  refine ⟨rfl, d, rfl, serve_eq_some.2 ⟨_, hperform⟩, ?_⟩
  have hlen := hrep.toStores.length_commands
  have hfull := hrep.wf.full_iff
  have hbuf : (o.call bytes).userBuf = bytes := rfl
  simp only [Store.evicted, Store.commands, traffic, hperform, hrep.toStores.commands_eq,
    hrep'.toStores.commands_eq, hbuf, entryBytes_temp hrep]
  by_cases hpos : 0 < r
  swap
  · simp [hpos, WriteCall.Evicts]
  by_cases ht : NewlineTerminated bytes
  swap
  · simp [hpos, ht, hbuf, WriteCall.Evicts, CommandLog.write_of_not_terminated]
  have hcompleted : (if 0 < r ∧ NewlineTerminated bytes
      then some (Traffic.ended (log.pending ++ bytes)) else none).toList.flatMap Traffic.command
      = [log.pending ++ bytes] := by
    rw [if_pos ⟨hpos, ht⟩]
    rfl
  rw [if_pos hpos, CommandLog.write_of_terminated ht, hcompleted]
  by_cases hf : a.driver.dev.buffer.full = true
  · rw [if_pos ⟨by simp [hpos], ht, hf⟩, Ring.rtake_concat_of_eq (hlen.trans (hfull.1 hf)),
      ← List.append_assoc, ← List.drop_one, List.take_append_drop]
  · rw [if_neg fun he ↦ hf he.2.2, List.nil_append,
      Ring.rtake_concat_of_lt (hlen ▸ hrep.wf.size_lt (by simpa using hf))]

/-- A write gives no bytes to a reader. -/
theorem read_write (a : Node) (w : WriteCall) (i : ℕ) :
    (a.traffic (.write w)).toList.flatMap (Traffic.read i) = [] := by
  cases hperform : a.perform (.write w) with
  | error bug => simp only [traffic, hperform]; rfl
  | ok r =>
    simp only [traffic, hperform]
    split <;> rfl

end Node

namespace System

section Calls

variable [Platform]

omit [Platform] in
/-- The call of the driver that a step of the device build makes. -/
def syscall (s : System) : Label → Option Call
  | .main (.accept true true _) => some (.open s.clients.next)
  | .thread i .ioctl => (s.session i).seekto.map fun seekto ↦
      .ioctl i ⟨AESDCHAR_IOCSEEKTO, seekto, true, true, true⟩
  | .thread i (.write count o) => some (.write (o.call ((s.session i).rest.take count)))
  | .thread i (.read count) => some (.read i (.plain count))
  | _ => none

/-- The calls of a run. -/
def syscalls (ls : List Label) : List Call :=
  Machine.observed step syscall (init .device) ls

/-- **The server is where its calls lead the driver.** -/
structure Drives (s : System) (cs : List Call) (a : Node) : Prop where
  /-- The calls lead there. -/
  run : Machine.Run Node.serve Machine.Always Node.init cs a
  /-- The driver is the same. -/
  store : s.store = .device a.driver
  /-- So are the positions of the files. -/
  f_pos : ∀ i, a.f_pos i = (s.session i).f_pos
  /-- The device build does not come to `fseek`. -/
  pc : ∀ i, (s.session i).pc ≠ .fseek
  /-- The calls stored what the history has. -/
  history : Node.init.stored cs = s.history
  /-- They gave the sessions what these have read. -/
  told : ∀ i, Node.init.told i cs = (s.session i).told

variable {s s' t : System} {a b : Node} {cs : List Call} {i j : ℕ} {c : Client} {e : ThreadEvent}
  {event : Event} {u : Session} {l : Label} {ls : List Label} {call : Call} {build : Build}

theorem drives_init : (init .device).Drives [] .init where
  run := .nil _
  store := rfl
  f_pos _ := rfl
  pc _ := by simp [session_init, Session.init]
  history := rfl
  told _ := rfl

/-- A step without a call. -/
theorem Drives.quiet (h : s.Drives cs a) (hq : s.Quiet t) : t.Drives cs a where
  run := h.run
  store := hq.store.trans h.store
  f_pos i := by
    obtain ⟨mem, heq⟩ := hq.session i
    rw [heq]
    exact h.f_pos i
  pc i := by
    obtain ⟨mem, heq⟩ := hq.session i
    rw [heq]
    exact h.pc i
  history := by rw [h.history, System.history, System.history, hq.store, hq.evicted]
  told i := by
    obtain ⟨mem, heq⟩ := hq.session i
    rw [heq]
    exact h.told i

/-- A client's file is opened. -/
theorem Drives.open (h : s.Drives cs a) (hfresh : s.session i = .init) :
    ∃ b, s.Drives (cs ++ [.open i]) b := by
  have hpos : a.seek i 0 = a := by
    have h0 : a.f_pos i = 0 := by rw [h.f_pos, hfresh]; rfl
    rw [← h0, Node.seek_self]
  have hserve : a.serve (.open i) = some a := congrArg some hpos
  have hshows : (a.traffic (.open i)).toList = [] := rfl
  refine ⟨a, h.run.append (.single trivial hserve), h.store, h.f_pos, h.pc, ?_, fun j ↦ ?_⟩
  · rw [Node.stored_concat h.run hserve, hshows, h.history]
    exact List.append_nil _
  · rw [Node.told_concat h.run hserve, hshows, h.told]
    exact List.append_nil _

/-- A step of a session. -/
theorem Drives.own (h : s.Drives cs a) (hinv : s.Shared .device) (hm : s.Moves i e t c event s' u)
    {ds : List Call} (hrun : Machine.Run Node.serve Machine.Always Node.init ds b)
    (hstore : t.store = .device b.driver)
    (hself : b.f_pos i = event.f_pos.getD c.session.f_pos)
    (hne : ∀ j, j ≠ i → b.f_pos j = a.f_pos j) (hhistory : Node.init.stored ds = t.history)
    (htold : Node.init.told i ds = c.session.told ++ event.got)
    (hothers : ∀ j, j ≠ i → Node.init.told j ds = Node.init.told j cs) : t.Drives ds b where
  run := hrun
  store := hstore
  f_pos j := by
    by_cases hj : j = i
    · rw [hj, hm.session_self, (hinv.turn hm).f_pos hm.pc_eq.1, hself]
    · rw [hm.session_ne hj, hne j hj, h.f_pos]
  pc j := by
    by_cases hj : j = i
    · rw [hj, hm.session_self]
      exact (hinv.turn hm).pc_device
    · rw [hm.session_ne hj]
      exact h.pc j
  history := hhistory
  told j := by
    by_cases hj : j = i
    · rw [hj, hm.session_self, (hinv.turn hm).told, htold]
    · rw [hm.session_ne hj, hothers j hj, h.told]

/-- A step of a session without a call. -/
theorem Drives.moves_none (h : s.Drives cs a) (hinv : s.Shared .device)
    (hm : s.Moves i e t c event s' u) (hstore : s'.store = s.store)
    (hevicted : s'.evicted = s.evicted) (hgot : event.got = []) (hpos : event.f_pos = none) :
    t.Drives cs a := by
  obtain ⟨h1, -, -, h2⟩ := hm.shared
  have hself := session_eq hm.get
  refine h.own hinv hm h.run (h1.trans (hstore.trans h.store)) ?_ (fun _ _ ↦ rfl) ?_ ?_
    fun _ _ ↦ rfl
  · rw [hpos, h.f_pos, hself]
    rfl
  · rw [h.history, System.history, System.history, h1, h2, hstore, hevicted]
  · rw [hgot, List.append_nil, h.told, hself]

/-- A step of a session with a call. -/
theorem Drives.moves_call (h : s.Drives cs a) (hinv : s.Shared .device)
    (hm : s.Moves i e t c event s' u) (hserve : a.serve call = some b)
    (hstore : s'.store = .device b.driver)
    (hself : b.f_pos i = event.f_pos.getD c.session.f_pos)
    (hne : ∀ j, j ≠ i → b.f_pos j = a.f_pos j)
    (hhistory : s'.history = s.history ++ (a.traffic call).toList.flatMap Traffic.command)
    (htold : ∀ j, (a.traffic call).toList.flatMap (Traffic.read j)
      = if i = j then event.got else []) : t.Drives (cs ++ [call]) b := by
  obtain ⟨h1, -, -, h2⟩ := hm.shared
  refine h.own hinv hm (h.run.append (.single trivial hserve)) (h1.trans hstore) hself hne ?_ ?_
    fun j hj ↦ ?_
  · rw [Node.stored_concat h.run hserve, h.history, ← hhistory, System.history, System.history,
      h1, h2]
  · rw [Node.told_concat h.run hserve, h.told, htold, if_pos rfl, session_eq hm.get]
  · rw [Node.told_concat h.run hserve, htold, if_neg hj.symm, List.append_nil]

/-- **Every step of a session** is a call of the driver, or the driver does not see it. -/
theorem Drives.moves (h : s.Drives cs a) (hinv : s.Shared .device)
    (hm : s.Moves i e t c event s' u) :
    ∃ b, t.Drives (cs ++ (s.syscall (.thread i e)).toList) b := by
  have hself := session_eq hm.get
  have hpos := h.f_pos i
  rw [hself] at hpos
  have hnone : s.syscall (.thread i e) = none → s'.store = s.store → s'.evicted = s.evicted →
      event.got = [] → event.f_pos = none →
      ∃ b, t.Drives (cs ++ (s.syscall (.thread i e)).toList) b := by
    intro hcall hstore hevicted hgot hpos
    rw [hcall, Option.toList_none, List.append_nil]
    exact ⟨a, h.moves_none hinv hm hstore hevicted hgot hpos⟩
  cases outside_meets hm.outside with
  | wrlock => exact hnone rfl rfl rfl rfl rfl
  | rdlock => exact hnone rfl rfl rfl rfl rfl
  | wrunlock => exact hnone rfl rfl rfl rfl rfl
  | rdunlock => exact hnone rfl rfl rfl rfl rfl
  | send => exact hnone rfl rfl rfl rfl rfl
  | sigpipe => exact hnone rfl rfl rfl rfl rfl
  | close => exact hnone rfl rfl rfl rfl rfl
  | closed => exact hnone rfl rfl rfl rfl rfl
  | own he hpc =>
    have hfseek : event ≠ .fseek := by
      rintro rfl
      exact h.pc i (hself ▸ hm.pc_eq.1)
    have hcall : s.syscall (.thread i e) = none := by
      cases e <;> first | rfl | (cases event <;> cases hpc; cases he)
    have hown : event.got = [] ∧ event.f_pos = none := by
      cases event <;> first | exact ⟨rfl, rfl⟩ | exact absurd rfl hfseek | cases he
    exact hnone hcall rfl rfl hown.1 hown.2
  | @ioctl seekto f_pos hseek hioctl =>
    rw [h.store, ← hpos] at hioctl
    have hcall : s.syscall (.thread i .ioctl)
        = some (.ioctl i ⟨AESDCHAR_IOCSEEKTO, seekto, true, true, true⟩) := by
      rw [syscall, hself, hseek]
      rfl
    rw [hcall]
    refine ⟨_, h.moves_call hinv hm (Node.serve_ioctl hioctl) h.store (if_pos rfl)
      (fun j hj ↦ Node.f_pos_seek_of_ne hj) (List.append_nil _).symm fun j ↦ ?_⟩
    exact (ite_self _).symm
  | @read count bytes f_pos hcount hread =>
    rw [h.store, ← hpos] at hread
    obtain ⟨hserve, htraffic⟩ := Node.serve_read hread
    refine ⟨_, h.moves_call hinv hm hserve h.store (if_pos rfl)
      (fun j hj ↦ Node.f_pos_seek_of_ne hj) ?_ fun j ↦ ?_⟩
    · rw [htraffic]
      exact (List.append_nil _).symm
    · rw [htraffic]
      exact List.flatMap_singleton _ _
  | @write count o ok f_pos store hwrite =>
    obtain ⟨log, hrep⟩ : ∃ log, a.driver.Represents log := by
      have := hinv.store
      rwa [h.store] at this
    rw [h.store] at hwrite
    obtain ⟨rfl, d, rfl, hserve, hcommands⟩ := Node.serve_write hrep hwrite
    rw [syscall, hself]
    refine ⟨_, h.moves_call hinv hm hserve rfl ?_ (fun j hj ↦ rfl) ?_ fun j ↦ ?_⟩
    · exact hpos
    · rw [System.history, h.store, List.append_assoc, hcommands, ← List.append_assoc]
      rw [System.history, h.store]
      rfl
    · exact (Node.read_write _ _ j).trans (ite_self _).symm

/-- **Every step of the server** is a call of the driver, or the driver does not see it. -/
theorem Drives.step (h : s.Drives cs a) (hinv : s.Shared .device) (hs : s.step l = some t) :
    ∃ b, t.Drives (cs ++ (s.syscall l).toList) b := by
  rcases step_cases hinv.clients hs with hq | ⟨i, e, c, event, s', u, rfl, hm⟩
  swap
  · exact h.moves hinv hm
  by_cases hthread : ∃ i e, l = .thread i e
  · obtain ⟨i, e, rfl⟩ := hthread
    obtain ⟨c, event, s', u, hm⟩ := hinv.thread_moves hs
    exact h.moves hinv hm
  by_cases hopen : ∃ ok, l = .main (.accept true true ok)
  · obtain ⟨ok, rfl⟩ := hopen
    obtain ⟨b, hb⟩ := h.open (sessionOf_next s.clients)
    exact ⟨b, hb.quiet hq⟩
  · have hnone : s.syscall l = none := by
      unfold syscall
      split <;> first | rfl | exact absurd ⟨_, rfl⟩ hopen | exact absurd ⟨_, _, rfl⟩ hthread
    rw [hnone, Option.toList_none, List.append_nil]
    exact ⟨a, h.quiet hq⟩

/-- A step leads the driver as its call does. -/
theorem Drives.serve (h : s.Drives cs a) (hb : t.Drives (cs ++ [call]) b) :
    a.serve call = some b := by
  obtain ⟨a', ha', hb'⟩ := Machine.exec_append.1 hb.run.exec_eq
  rw [h.run.exec_eq] at ha'
  cases ha'
  rwa [Machine.exec_singleton] at hb'

/-- A session that seeks has found a seek command. -/
theorem exists_seek (hinv : s.Shared build) (hs : s.step (.thread i .ioctl) = some t) :
    ∃ p ∈ (s.session i).packets, isData p = false := by
  obtain ⟨c, event, s', u, hm⟩ := hinv.thread_moves hs
  have hflat := hinv.flat i
  rw [session_eq hm.get, Session.FlatInv, hm.pc_eq.1, hm.pc_eq.2] at hflat
  rw [session_eq hm.get]
  obtain ⟨packet, ⟨-, ⟨-, hmem⟩, -, hseekto⟩, hne⟩ := hflat
  rw [hseekto] at hne
  refine ⟨packet, hmem, ?_⟩
  rw [isData, Option.isNone_eq_false_iff, Option.isSome_iff_ne_none]
  exact hne

/-- The calls of a client whose packets are all data. -/
theorem syscall_onlyRead (hinv : s.Shared .device) (hs : s.step l = some t)
    (hdata : ∀ p ∈ (s.session i).packets, isData p = true) (hcall : s.syscall l = some call) :
    a.OnlyRead i call ∨ call = .open i ∧ s.session i = .init := by
  unfold syscall at hcall
  split at hcall
  · cases hcall
    by_cases hi : s.clients.next = i
    · exact Or.inr ⟨by rw [hi], hi ▸ sessionOf_next s.clients⟩
    · exact Or.inl fun h ↦ hi (Option.some_inj.1 h)
  · rename_i j
    obtain ⟨seekto, -, rfl⟩ := Option.map_eq_some_iff.1 hcall
    refine Or.inl fun h ↦ ?_
    obtain rfl : j = i := Option.some_inj.1 h
    obtain ⟨p, hp, hseek⟩ := exists_seek hinv hs
    rw [hdata p hp] at hseek
    cases hseek
  · cases hcall
    exact Or.inl (by simp [Node.OnlyRead, Call.uses])
  · cases hcall
    exact Or.inl trivial
  · cases hcall

/-- **A session whose packets are all data follows the device**, step by step. -/
theorem Drives.reader (h : s.Drives cs a) (hb : t.Drives (cs ++ (s.syscall l).toList) b)
    (hinv : s.Shared .device) (hs : s.step l = some t)
    (hdata : ∀ p ∈ (s.session i).packets, isData p = true)
    (hf : a.Following i s.history (s.session i).told) :
    b.Following i t.history (t.session i).told := by
  cases hcall : s.syscall l with
  | none =>
    rw [hcall, Option.toList_none, List.append_nil] at hb
    rw [← hb.history, ← hb.told, h.history, h.told]
    have hrun := hb.run.exec_eq
    rw [h.run.exec_eq] at hrun
    cases hrun
    exact hf
  | some call =>
    rw [hcall, Option.toList_some] at hb
    have hserve := h.serve hb
    rw [← hb.history, ← hb.told, Node.stored_concat h.run hserve, Node.told_concat h.run hserve,
      h.history, h.told]
    rcases syscall_onlyRead (a := a) hinv hs hdata hcall with honly | ⟨rfl, hinit⟩
    · exact hf.step honly hserve
    · have htold : (s.session i).told = [] := by rw [hinit]; rfl
      have hshows : (a.traffic (.open i)).toList = [] := rfl
      rw [htold] at hf ⊢
      rw [hshows]
      simpa using hf.open hserve

/-- A reply ends at the end of the content. -/
def Ended (s : System) (i : ℕ) : Prop :=
  (s.session i).pc = .rdunlock → (s.store.content.length : ℤ) ≤ (s.session i).f_pos

theorem Ended.step (h : s.Ended i) (hinv : s.Shared build) (hs : s.step l = some t) :
    t.Ended i := by
  intro hpc
  rcases step_cases hinv.clients hs with hq | ⟨j, e, c, event, s', u, rfl, hm⟩
  · obtain ⟨mem, heq⟩ := hq.session i
    rw [heq] at hpc ⊢
    rw [hq.store]
    exact h hpc
  by_cases hij : i = j
  · subst hij
    rw [hm.session_self] at hpc ⊢
    cases hinv.turn hm with
    | stop f_pos =>
      obtain ⟨rfl, count, hcount, hread⟩ := effect_read hm.effect
      obtain ⟨pos, hpos, hfits⟩ := hinv.position i
      obtain ⟨data, heq, -, -, hend, -⟩ := Store.read_eq hinv.store hfits hcount
      rw [session_eq hm.get] at hpos
      rw [hpos, heq] at hread
      cases hread
      rw [hm.shared.1]
      exact Int.ofNat_le.2 (hend rfl)
    | idle he hpc' hpc'' => rw [hpc] at hpc''; cases hpc''
    | lost hpc' hpc'' => rw [hpc] at hpc''; cases hpc''
    | found packet hpc' hpc'' => rw [hpc] at hpc''; cases hpc''
    | write count ok f_pos =>
      have hw := Session.afterWrite_writing build (if ok then c.session.rest.drop count else [])
      rw [show Session.afterWrite _ _ = Pc.rdunlock from hpc] at hw
      cases hw
    | read bytes f_pos _ _ hpc' => rcases hpc' with ⟨rfl, -⟩ | ⟨rfl, -⟩ <;> cases hpc
    | _ => cases hpc
  · rw [hm.session_ne hij] at hpc ⊢
    have hstore : t.store = s.store := by
      refine hm.shared.1.trans (hm.effect.store_eq ?_).1
      rintro count ok f_pos rfl
      -- nobody writes while it has the lock
      have hnot := hinv.not_writing_of_reading (i := i) (by rw [hpc]; rfl) j
      rw [session_eq hm.get, hm.pc_eq.1] at hnot
      cases hnot
    rw [hstore]
    exact h hpc

/-- The packets stay in the list. -/
theorem step_packets (hinv : s.Shared build) (hs : s.step l = some t) (i : ℕ) :
    (s.session i).packets <+: (t.session i).packets := by
  rcases step_cases hinv.clients hs with hq | ⟨j, e, c, event, s', u, rfl, hm⟩
  · obtain ⟨mem, heq⟩ := hq.session i
    rw [heq]
  by_cases hij : i = j
  · subst hij
    rw [hm.session_self, session_eq hm.get]
    exact (hinv.turn hm).packets_isPrefix
  · rw [hm.session_ne hij]

/-- A session as a reader of the device, over a whole run. -/
theorem run_following (h : Machine.Run step Machine.Always (init .device) ls s)
    (hdata : ∀ p ∈ (s.session i).packets, isData p = true) :
    s.Shared .device ∧ s.Ended i ∧ ∃ a, s.Drives (syscalls ls) a ∧
      a.Following i s.history (s.session i).told := by
  obtain ⟨hinv, hended, a, ha, hf⟩ := h.records
    (R := fun s cs ↦ s.Shared .device ∧ s.Ended i ∧ ∃ a, s.Drives cs a ∧
      ((∀ p ∈ (s.session i).packets, isData p = true) →
        a.Following i s.history (s.session i).told)) (f := syscall)
    (fun s l t cs ⟨hinv, hended, a, ha, hf⟩ _ hs ↦ by
      obtain ⟨b, hb⟩ := ha.step hinv hs
      refine ⟨hinv.step hs, hended.step hinv hs, b, hb, fun hdata ↦ ?_⟩
      have hdata' : ∀ p ∈ (s.session i).packets, isData p = true :=
        fun p hp ↦ hdata p ((step_packets hinv hs i).subset hp)
      exact ha.reader hb hinv hs hdata' (hf hdata'))
    ⟨shared_init .device, fun hpc ↦ (by cases hpc), _, drives_init,
      fun _ ↦ Node.following_start Driver.represents_init rfl⟩
  exact ⟨hinv, hended, a, ha, hf hdata⟩

/-- **A client that never seeks follows the device.**  In every run of the device build, whatever
the interleaving, and whatever fails, `write` calls included: what a session whose packets are all
data has read, the reply that it is reading included, are bytes of the commands that the device has
stored, none twice and none out of order, as many as the position of its file says.  While nothing
was evicted they are all the bytes up to some place, and where a reply ends, no more bytes are left
out than were evicted. -/
theorem device_follows (h : Machine.Run step Machine.Always (init .device) ls s)
    (hdata : ∀ p ∈ (s.session i).packets, isData p = true) :
    (s.session i).f_pos = (s.session i).told.length ∧
      (s.session i).told.Sublist s.history.flatten ∧
      (s.evicted = [] → (s.session i).told <+: s.history.flatten) ∧
      ((s.session i).pc = .rdunlock →
        s.history.flatten.length ≤ (s.session i).told.length + s.evicted.flatten.length) := by
  obtain ⟨-, hended, a, ha, hf⟩ := run_following h hdata
  obtain ⟨log, hrep, hcommands⟩ := hf.represents
  have hkept : s.store.commands = s.history.rtake 10 := by
    rw [ha.store, ← hcommands, ← hrep.toStores.commands_eq]
    rfl
  -- what the history has, and the device has not, was evicted
  have hevicted : s.evicted = s.history.rdrop 10 := by
    refine (List.append_left_inj s.store.commands).1 ?_
    rw [hkept, List.rdrop, List.rtake, List.take_append_drop, ← List.rtake, ← hkept]
    rfl
  have hpos : (s.session i).f_pos = (s.session i).told.length := by
    rw [← ha.f_pos, hf.position]
  refine ⟨hpos, ?_, fun hnil ↦ ?_, fun hpc ↦ ?_⟩
  · obtain ⟨n, -, hsub⟩ := hf.follows.sublist
    rw [Window.history_last] at hsub
    exact hsub.trans (List.take_sublist _ _)
  · have hwhole := hf.follows.whole (show (s.history.rdrop 10).flatten = [] by
      rw [← hevicted, hnil]; rfl)
    rwa [Window.history_last] at hwhole
  · have hend := hended hpc
    have hcontent : s.store.content = (s.history.rtake 10).flatten := by
      rw [ha.store, ← hkept, ha.store]
      rfl
    rw [hpos, hcontent] at hend
    have hmissed := (hf.follows.missed (List.drop_eq_nil_of_le (Int.ofNat_le.1 hend))).2
    rw [Window.history_last] at hmissed
    rwa [hevicted]

end Calls

/-- A packet is answered with itself, nine more are, and then there is one for which the first is
evicted: the position of the file is at the end of the content. -/
def unanswered : List Label :=
  Label.connect 1 ++ Label.steps 0 ([.start true, .recv (.data [48, 10, 49, 10, 50, 10, 51, 10, 52,
      10, 53, 10, 54, 10, 55, 10, 56, 10, 57, 10])] ++ (List.replicate 10 stored).flatten ++
    [.scan true, .recv (.data [58, 10]), .scan true, .wrlock, .write 2 .plain, .wrunlock, .rdlock,
      .read 4096])

attribute [local instance] linux64 in
/-- The reply to the last packet is empty, and two bytes were evicted. -/
theorem device_follows_unanswered :
    ((after .device unanswered).session 0).pc = .rdunlock ∧
    ((after .device unanswered).session 0).reply = [] ∧
    ((after .device unanswered).session 0).told.length = 20 ∧
    (after .device unanswered).history.flatten.length ≤ 20 + 2 := by
  have h : Machine.Run step Machine.Always (init .device) unanswered (after .device unanswered) :=
    run_after (by decide +kernel)
  obtain ⟨hpc, hreply, hlen, hevicted⟩ : ((after .device unanswered).session 0).pc = .rdunlock ∧
      ((after .device unanswered).session 0).reply = [] ∧
      ((after .device unanswered).session 0).told.length = 20 ∧
      (after .device unanswered).evicted.flatten.length = 2 := by decide +kernel
  obtain ⟨-, -, -, hend⟩ := device_follows (i := 0) h (by decide +kernel)
  refine ⟨hpc, hreply, hlen, ?_⟩
  have := hend hpc
  rwa [hlen, hevicted] at this

end System

end Aesd
