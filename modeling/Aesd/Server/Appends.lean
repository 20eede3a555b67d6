import Aesd.Server.Sharing

/-!
# What the store holds

The server and the store together, when every `write` call works: the packets of `System.log`, whole
and in order.  While a session holds the lock for writing, a part of its packet may be missing, and
the store then has the part that was written (`System.Stored`); no other session writes before the
rest of it is there.

The driver takes each `write` call that ends in a newline for the end of a command.  A packet's only
newline is its last byte, so however stdio cuts it into calls it is the last call that ends it.
-/

set_option autoImplicit false

namespace Aesd

namespace System

section Appends

variable [Platform]

/-- In this step no `write` call fails. -/
def writesOk (s : System) : Label → Bool
  | .thread i (.write count o) =>
    match s.clients.get? i with
    | none => true
    | some c =>
      match s.store.write c.session.f_pos (c.session.rest.take count) o with
      | .ok (ok, _, _) => ok
      | .error _ => true
  | _ => true

/-- The condition of the runs in which no `write` call fails. -/
def WritesOk (s : System) (l : Label) : Prop := s.writesOk l = true

instance (s : System) (l : Label) : Decidable (s.WritesOk l) := inferInstanceAs (Decidable (_ = _))

omit [Platform] in
/-- The packets in the log. -/
def logged (s : System) : List (List Byte) := s.log.map Prod.snd

/-- The store holds the packets of the log, the last one up to what is left to write of it. -/
def Stored (s : System) : Prop :=
  (∃ i before part, (s.session i).pc = .fwrite ∧
    s.logged = before ++ [part ++ (s.session i).rest] ∧
    Segments.IsSegment (· = newline) (part ++ (s.session i).rest) ∧ s.store.Holds before part) ∨
  (∀ i, (s.session i).pc ≠ .fwrite) ∧ s.store.Holds s.logged []

/-- The same with `R` between the packets the store holds and those of the log, the one that is
being written not counted. -/
def StoredAs (R : List (List Byte) → List (List Byte) → Prop) (s : System) : Prop :=
  (∃ i kept before part, (s.session i).pc = .fwrite ∧ R kept before ∧
    s.logged = before ++ [part ++ (s.session i).rest] ∧
    Segments.IsSegment (· = newline) (part ++ (s.session i).rest) ∧ s.store.Holds kept part) ∨
  (∀ i, (s.session i).pc ≠ .fwrite) ∧ ∃ kept, R kept s.logged ∧ s.store.Holds kept []

variable {build : Build} {s s' t : System} {i j : ℕ} {c : Client} {e : ThreadEvent} {event : Event}
  {u : Session} {l : Label} {R : List (List Byte) → List (List Byte) → Prop}

theorem StoredAs.stored (h : s.StoredAs Eq) : s.Stored := by
  rcases h with ⟨i, _, before, part, hpc, rfl, hl, hseg, hholds⟩ | ⟨hnone, _, rfl, hholds⟩
  · exact Or.inl ⟨i, _, part, hpc, hl, hseg, hholds⟩
  · exact Or.inr ⟨hnone, hholds⟩

theorem storedAs_init (b : Build) (hR : R [] []) : (init b).StoredAs R :=
  Or.inr ⟨fun i ↦ by rw [session_init]; decide, [], hR, Store.holds_init b⟩

theorem StoredAs.quiet (h : s.StoredAs R) (hq : s.Quiet t) : t.StoredAs R := by
  have hsession : ∀ i, (t.session i).pc = (s.session i).pc ∧
      (t.session i).rest = (s.session i).rest := by
    intro i
    obtain ⟨mem, heq⟩ := hq.session i
    rw [heq]
    exact ⟨rfl, rfl⟩
  simp only [StoredAs, hsession, hq.store, logged, hq.log]
  exact h

/-- Only one session writes. -/
theorem Shared.writer_unique (h : s.Shared build) (hi : (s.session i).pc.writing = true)
    (hj : (s.session j).pc.writing = true) : i = j :=
  ((h.writing i).2 hi).unique ((h.writing j).2 hj)

/-- While nobody holds the lock for writing, nobody writes. -/
theorem Shared.not_writing (h : s.Shared build) (hw : s.lock.writer = none) (i : ℕ) :
    (s.session i).pc.writing = false := by
  by_contra hi
  have := (h.writing i).2 (by simpa using hi)
  rw [RwLock.Writing, hw] at this
  cases this

omit [Platform] in
/-- The part of a segment before its end does not end in a newline. -/
theorem not_terminated_of_cut {part bytes rest : List Byte} (hrest : rest ≠ [])
    (h : Segments.IsSegment (· = newline) (part ++ (bytes ++ rest))) :
    ¬ NewlineTerminated bytes := by
  rw [← List.append_assoc] at h
  intro ht
  exact (h.cut hrest).1 newline (List.mem_append_right part (List.mem_of_getLast? ht)) rfl

omit [Platform] in
theorem terminated_of_isSegment {bytes : List Byte} (h : Segments.IsSegment (· = newline) bytes) :
    NewlineTerminated bytes := by
  obtain ⟨b, x, rfl, -, rfl⟩ := h
  exact List.getLast?_concat

/-- A `write` call that works moves some bytes of the packet to the store, and ends the command if
they are the last. -/
theorem write_holds_packet {store store' : Store} {before : List (List Byte)}
    {part rest : List Byte} {f_pos f_pos' : ℤ} {o : WriteOutcome} {count : ℕ}
    (hcount : 0 < count ∧ count ≤ rest.length)
    (hseg : Segments.IsSegment (· = newline) (part ++ rest)) (h : store.Holds before part)
    (hw : store.write f_pos (rest.take count) o = .ok (true, f_pos', store')) :
    if rest.drop count = [] then store'.Holds (before ++ [part ++ rest]) []
      else store'.Holds before (part ++ rest.take count) := by
  have hcut : rest.take count ++ rest.drop count = rest := List.take_append_drop count rest
  have hholds := Store.write_holds h hw
  split
  · rename_i hnil
    rw [hnil, List.append_nil] at hcut
    have hne : rest ≠ [] := List.ne_nil_of_length_pos (by omega)
    rw [hcut, if_pos (terminated_of_isSegment (hseg.cut hne).2)] at hholds
    exact hholds
  · rename_i hne
    rw [← hcut] at hseg
    rw [if_neg (not_terminated_of_cut hne hseg)] at hholds
    exact hholds

theorem StoredAs.wrlock (h : s.StoredAs R) (hinv : s.Shared build)
    (hm : s.Moves i e t c .wrlock s' u) : t.StoredAs R := by
  obtain ⟨lock, hlock, rfl⟩ := effect_wrlock hm.effect
  obtain ⟨hstore, -, hlog, -⟩ := hm.shared
  have hfree := hinv.not_writing (RwLock.wrlock_eq_some hlock).1
  have hnone : ∀ j, (s.session j).pc ≠ .fwrite := by
    intro j hj
    have := hfree j
    rw [hj] at this
    cases this
  obtain ⟨kept, hkept, hholds⟩ : ∃ kept, R kept s.logged ∧ s.store.Holds kept [] := by
    rcases h with ⟨j, -, -, -, hj, -⟩ | ⟨-, h⟩
    · exact absurd hj (hnone j)
    · exact h
  have hlogged : t.logged = s.logged ++ (toStore i c.session).map Prod.snd := by
    rw [logged, hlog, List.map_append, logged]
  rw [← hstore] at hholds
  cases hinv.turn hm with
  | idle he => cases he
  | append packet hpc flat seekto =>
    obtain ⟨-, ⟨hpacket, -⟩, hseg, -⟩ := flat
    refine Or.inl ⟨i, kept, s.logged, [], ?_, hkept, ?_, ?_, hholds⟩
    · rw [hm.session_self]
    · rw [hm.session_self, hlogged, toStore, seekto, hpacket]
      rfl
    · rw [hm.session_self]
      exact hseg
  | seek hpc seekto =>
    refine Or.inr ⟨fun j ↦ ?_, kept, ?_, hholds⟩
    · by_cases hj : j = i
      · rw [hj, hm.session_self]
        simp
      · rw [hm.session_ne hj]
        exact hnone j
    · have hnil : toStore i c.session = [] := by
        rw [toStore]
        split
        · rename_i hseek _
          exact absurd hseek seekto
        · rfl
      rw [hlogged, hnil, List.map_nil, List.append_nil]
      exact hkept

/-- What is known when a `write` call is made: nobody else writes, and the store holds some packets
and the part of this one that was written before. -/
theorem StoredAs.at_write (h : s.StoredAs R) (hinv : s.Shared build)
    (hpc : (s.session i).pc = .fwrite) :
    (∀ j, (s.session j).pc = .fwrite → j = i) ∧ ∃ kept before part, R kept before ∧
      s.logged = before ++ [part ++ (s.session i).rest] ∧
      Segments.IsSegment (· = newline) (part ++ (s.session i).rest) ∧ s.store.Holds kept part := by
  have hunique : ∀ j, (s.session j).pc = .fwrite → j = i := fun j hj ↦
    hinv.writer_unique (by rw [hj]; rfl) (by rw [hpc]; rfl)
  rcases h with ⟨j, kept, before, part, hj, hkept⟩ | ⟨hnone, -⟩
  · obtain rfl := hunique j hj
    exact ⟨hunique, kept, before, part, hkept⟩
  · exact absurd hpc (hnone i)

theorem StoredAs.write (h : s.StoredAs R) (hinv : s.Shared build)
    (hR : ∀ a b p, R a b → R (a ++ [p]) (b ++ [p])) {count : ℕ} {f_pos : ℤ}
    (hm : s.Moves i e t c (.write count true f_pos) s' u) : t.StoredAs R := by
  obtain ⟨o, store, hw, rfl⟩ := effect_write hm.effect
  obtain ⟨hstore, -, hlog, -⟩ := hm.shared
  have hstore : t.store = store := hstore
  have hlogged : t.logged = s.logged := by rw [logged, hlog, logged]
  have hself := session_eq hm.get
  cases hinv.turn hm with
  | idle he => cases he
  | write count ok f_pos packet hpc flat seekto rest hcount =>
    obtain ⟨hunique, kept, before, part, hkept, hl, hseg, hholds⟩ :=
      h.at_write hinv (i := i) (by rw [hself, hpc])
    rw [hself] at hl hseg
    have hwritten := write_holds_packet hcount hseg hholds hw
    by_cases hlast : c.session.rest.drop count = []
    · rw [if_pos hlast] at hwritten
      refine Or.inr ⟨fun k ↦ ?_, _, ?_, by rwa [hstore]⟩
      · by_cases hk : k = i
        · rw [hk, hm.session_self]
          simp only [if_true, hlast]
          rcases Session.afterWrite_nil build with heq | heq <;> rw [heq] <;> simp
        · rw [hm.session_ne hk]
          exact fun hk' ↦ hk (hunique k hk')
      · rw [hlogged, hl]
        exact hR _ _ _ hkept
    · rw [if_neg hlast] at hwritten
      have hsplit : part ++ c.session.rest
          = part ++ c.session.rest.take count ++ c.session.rest.drop count := by
        rw [List.append_assoc, List.take_append_drop]
      refine Or.inl ⟨i, kept, before, part ++ c.session.rest.take count, ?_, hkept, ?_, ?_,
        by rwa [hstore]⟩
      · rw [hm.session_self]
        exact Session.afterWrite_of_ne hlast
      · rw [hm.session_self, hlogged, hl, hsplit]
        rfl
      · rw [hm.session_self]
        simp only [if_true]
        rw [← hsplit]
        exact hseg

/-- A `write` call that fails ends the packet where it is: what was written of it stays. -/
theorem StoredAs.refused (h : s.StoredAs R) (hinv : s.Shared build) {count : ℕ} {f_pos : ℤ}
    (hm : s.Moves i e t c (.write count false f_pos) s' u) :
    (∀ j, (t.session j).pc ≠ .fwrite) ∧ ∃ kept before part packet, R kept before ∧
      t.logged = before ++ [packet] ∧ part <+: packet ∧ s.store.Holds kept part ∧
      t.store.Holds kept part := by
  obtain ⟨o, store, hw, rfl⟩ := effect_write hm.effect
  obtain ⟨hstore, -, hlog, -⟩ := hm.shared
  have hstore : t.store = store := hstore
  have hlogged : t.logged = s.logged := by rw [logged, hlog, logged]
  cases hinv.turn hm with
  | idle he => cases he
  | write count ok f_pos packet hpc =>
    obtain ⟨hunique, kept, before, part, hkept, hl, -, hholds⟩ :=
      h.at_write hinv (i := i) (by rw [session_eq hm.get, hpc])
    refine ⟨fun k ↦ ?_, kept, before, part, _, hkept, hlogged.trans hl, List.prefix_append _ _,
      hholds, by rw [hstore]; exact Store.write_refused hholds hw⟩
    by_cases hk : k = i
    · rw [hk, hm.session_self]
      simp only [Bool.false_eq_true, if_false]
      rcases Session.afterWrite_nil build with heq | heq <;> rw [heq] <;> simp
    · rw [hm.session_ne hk]
      exact fun hk' ↦ hk (hunique k hk')

/-- The `write` call of a step, if it makes one. -/
theorem outside_write {count : ℕ} {ok : Bool} {f_pos : ℤ}
    (h : s.outside i c e = some (.ok (.write count ok f_pos, s'))) :
    ∃ o store, e = .write count o ∧
      s.store.write c.session.f_pos (c.session.rest.take count) o = .ok (ok, f_pos, store) := by
  cases outside_meets h with
  | write hw => exact ⟨_, _, rfl, hw⟩
  | own he => cases he

/-- Where no `write` call fails, the one that is made does not. -/
theorem WritesOk.eq_true {count : ℕ} {ok : Bool} {f_pos : ℤ} (h : s.WritesOk (.thread i e))
    (hm : s.Moves i e t c (.write count ok f_pos) s' u) : ok = true := by
  obtain ⟨o, store, rfl, hw⟩ := outside_write hm.outside
  simp only [WritesOk, writesOk, hm.get, hw] at h
  exact h

/-- **Every step** keeps what the store holds, if no bytes stay behind when a `write` call fails. -/
theorem StoredAs.step (h : s.StoredAs R) (hinv : s.Shared build)
    (hR : ∀ a b p, R a b → R (a ++ [p]) (b ++ [p]))
    (hfail : ∀ i e c count f_pos s' u, l = .thread i e →
      s.Moves i e t c (.write count false f_pos) s' u →
      (∀ a b p, R a b → R a (b ++ [p])) ∧ ∀ kept part, s.store.Holds kept part → part = [])
    (hs : s.step l = some t) : t.StoredAs R := by
  rcases step_cases hinv.clients hs with hq | ⟨i, e, c, event, s', u, rfl, hm⟩
  · exact h.quiet hq
  rcases hm.effect.log with ⟨hlog, hne⟩ | ⟨-, rfl⟩
  swap
  · exact h.wrlock hinv hm
  rcases (hinv.turn hm).fwrite with ⟨count, ok, f_pos, rfl⟩ | rfl | ⟨hpc, hpc'⟩
  · cases ok with
    | true => exact h.write hinv hR hm
    | false =>
      obtain ⟨hlost, hnil⟩ := hfail i e c count f_pos s' u rfl hm
      obtain ⟨hnone, kept, before, part, packet, hkept, hl, -, hbefore, hholds⟩ :=
        h.refused hinv hm
      rw [hnil _ _ hbefore] at hholds
      exact Or.inr ⟨hnone, kept, hl ▸ hlost _ _ _ hkept, hholds⟩
  · exact absurd rfl hne
  · have hev := hm.pc_eq.1
    have hwrite : ∀ count ok f_pos, event ≠ .write count ok f_pos := by
      rintro count ok f_pos rfl
      exact hpc hev
    obtain ⟨hstore, -, hlog', -⟩ := hm.shared
    rw [(hm.effect.store_eq hwrite).1] at hstore
    have hlogged : t.logged = s.logged := by rw [logged, hlog', hlog, logged]
    rcases h with
      ⟨j, kept, before, part, hj, hkept, hl, hseg, hholds⟩ | ⟨hnone, kept, hkept, hholds⟩
    · have hji : j ≠ i := by
        rintro rfl
        exact hpc (session_eq hm.get ▸ hj)
      refine Or.inl ⟨j, kept, before, part, ?_, hkept, ?_, ?_, hstore ▸ hholds⟩
      · rw [hm.session_ne hji, hj]
      · rw [hm.session_ne hji, hlogged, hl]
      · rw [hm.session_ne hji]
        exact hseg
    · refine Or.inr ⟨fun j ↦ ?_, kept, by rwa [hlogged], by rwa [hstore]⟩
      by_cases hj : j = i
      · rw [hj, hm.session_self]
        exact hpc'
      · rw [hm.session_ne hj]
        exact hnone j

/-- Both invariants hold in every state of a run in which no `write` call fails. -/
theorem stored_reachable (h : Machine.Reachable step WritesOk (init build) s) :
    s.Shared build ∧ s.Stored := by
  have hboth := h.invariant (P := fun s ↦ s.Shared build ∧ s.StoredAs Eq)
    (fun s l t hs hok hstep ↦ ⟨hs.1.step hstep, hs.2.step hs.1 (fun a b p hab ↦ by rw [hab])
      (fun i e c count f_pos s' u hl hm ↦ absurd ((hl ▸ hok : WritesOk s _).eq_true hm) (by simp))
      hstep⟩)
    ⟨shared_init build, storedAs_init build rfl⟩
  exact ⟨hboth.1, hboth.2.stored⟩

/-- While nobody holds the lock for writing the store holds the packets of the log. -/
theorem Stored.holds (h : s.Stored) (hinv : s.Shared build) (hw : s.lock.writer = none) :
    s.store.Holds s.logged [] := by
  rcases h with ⟨i, -, -, hi, -⟩ | ⟨-, h⟩
  · have := hinv.not_writing hw i
    rw [hi] at this
    cases this
  · exact h

/-- **Server and driver together store whole packets.**  In every run in which no `write` call
fails, whatever else does, whenever nobody holds the lock for writing: the device has one entry for
each of the last ten packets of the log and nothing pending, or the file has all the log's packets.
A client's packets in the log are the first of its packets that are no seek commands, which are
newline-terminated segments of its stream, in order. -/
theorem stores_whole_packets (build : Build) (s : System)
    (h : Machine.Reachable step WritesOk (init build) s) (hw : s.lock.writer = none) :
    (match s.store with
      | .device d => d.dev.tempEntry = .null ∧
          List.Forall₂ (Holds d.mem) d.dev.buffer.entries (s.logged.rtake 10)
      | .file bytes => bytes = s.logged.flatten) ∧
    s.store.build = build ∧
    ∀ i, s.loggedBy i <+: (s.session i).packets.filter isData ∧
      (s.session i).packets.Sublist (segments (s.session i).stream) := by
  obtain ⟨hinv, hstored⟩ := stored_reachable h
  have hholds := hstored.holds hinv hw
  refine ⟨?_, hinv.build, fun i ↦ ⟨⟨_, (hinv.logged i).symm⟩, hinv.packets i⟩⟩
  cases hstore : s.store with
  | device d =>
    rw [hstore] at hholds
    have hrep : d.Represents ⟨s.logged.rtake 10, []⟩ := hholds
    refine ⟨?_, hrep.entries⟩
    rcases hrep.temp with ⟨-, hnull⟩ | ⟨hne, -⟩
    · exact hnull
    · exact absurd rfl hne
  | file bytes =>
    rw [hstore] at hholds
    have hbytes : bytes = s.logged.flatten ++ [] := hholds
    rw [hbytes, List.append_nil]

end Appends

/-- Two clients; the first one's packet is written in two pieces, before the second one's. -/
def twoClients : List Label :=
  Label.connect 1 ++ Label.connect 2 ++
    Label.steps 1 [.start true, .recv (.data [98, 10]), .scan true] ++
    Label.steps 0 [.start true, .recv (.data [97, 98, 10]), .scan true, .wrlock, .write 1 .plain,
      .write 2 .plain, .wrunlock] ++
    Label.steps 1 [.wrlock, .write 2 .plain, .wrunlock]

attribute [local instance] linux64 in
theorem stores_whole_packets_two_clients : ∃ d, (after .device twoClients).store = .device d ∧
    d.dev.tempEntry = .null ∧
    List.Forall₂ (Holds d.mem) d.dev.buffer.entries [[97, 98, 10], [98, 10]] := by
  have hrun : Machine.Reachable step WritesOk (init .device) (after .device twoClients) :=
    ⟨twoClients, run_after (by decide +kernel)⟩
  have hlogged : (after .device twoClients).logged.rtake 10 = [[97, 98, 10], [98, 10]] := by
    decide +kernel
  have hfree : (after .device twoClients).lock.writer = none := by decide +kernel
  generalize after .device twoClients = s at hrun hlogged hfree ⊢
  obtain ⟨hstore, hbuild, -⟩ := stores_whole_packets .device s hrun hfree
  rw [hlogged] at hstore
  cases hs : s.store with
  | device d =>
    rw [hs] at hstore
    exact ⟨d, rfl, hstore⟩
  | file bytes =>
    rw [hs] at hbuild
    cases hbuild

end System

end Aesd
