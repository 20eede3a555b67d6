import Mathlib.Data.List.DropRight
import Mathlib.Logic.Function.Basic
import Aesd.Lib.Machine
import Aesd.Lib.Window
import Aesd.Driver.Read
import Aesd.Server.Sharing

/-!
# The service the server is there to give

What the server is for, without threads, locks and buffers: the packets that were stored, and how
far each client has read.  A packet is stored or is a seek; a reply is what is stored from the
client's position on.  One transaction comes after the other, and `Service.step` says what each does
and which replies are right.

The device build keeps the last ten packets and leaves the position where a reply ended.  The file
build keeps all of them, puts the position back to the start when a packet is stored, and does not
seek.

A client that never seeks is told no byte twice and none out of order (`Service.replies_sublist`),
and all of them as long as nothing was dropped (`Service.replies_eq`); a file's reply to a packet is
all that is stored (`Service.reply_complete`).
-/

set_option autoImplicit false

namespace Aesd

/-- A client's packet is dealt with, or a reply is given. -/
inductive Transaction
  /-- A packet. -/
  | packet (client : ℕ) (bytes : List Byte)
  /-- A reply. -/
  | reply (client : ℕ) (bytes : List Byte)
deriving DecidableEq, Repr

namespace Transaction

/-- Whose it is. -/
def client : Transaction → ℕ
  | .packet i _ => i
  | .reply i _ => i

/-- What it stores. -/
def stored : Transaction → List (List Byte)
  | .packet _ bytes => if isData bytes then [bytes] else []
  | .reply _ _ => []

/-- What it tells a client. -/
def told (i : ℕ) : Transaction → List (List Byte)
  | .reply j bytes => if j = i then [bytes] else []
  | .packet _ _ => []

/-- What it is asked by a client. -/
def asked (i : ℕ) : Transaction → List (List Byte)
  | .packet j bytes => if j = i then [bytes] else []
  | .reply _ _ => []

/-- A transaction without what is decided by those before it: what a reply says. -/
def request : Transaction → ℕ × Option (List Byte)
  | .packet i bytes => (i, some bytes)
  | .reply i _ => (i, none)

variable {i : ℕ} {tr : Transaction} {trs trs' : List Transaction}

/-- What is stored is in the requests. -/
theorem stored_eq (tr : Transaction) : tr.stored = tr.request.2.toList.filter isData := by
  cases tr with
  | packet i bytes => simp [stored, request, List.filter_singleton]
  | reply => rfl

/-- So is what is asked. -/
theorem asked_eq (i : ℕ) (tr : Transaction) :
    tr.asked i = if tr.request.1 = i then tr.request.2.toList else [] := by
  cases tr with
  | packet => rfl
  | reply => exact (ite_self []).symm

/-- What can be seen in the requests is the same for the same requests. -/
theorem flatMap_congr {α : Type} {f : Transaction → List α} {g : ℕ × Option (List Byte) → List α}
    (hf : ∀ tr, f tr = g tr.request) (h : trs.map request = trs'.map request) :
    trs.flatMap f = trs'.flatMap f := by
  have heq (trs : List Transaction) : trs.flatMap f = (trs.map request).flatMap g := by
    rw [List.flatMap_map]
    exact congrArg trs.flatMap (funext hf)
  rw [heq, heq, h]

theorem stored_congr (h : trs.map request = trs'.map request) :
    trs.flatMap stored = trs'.flatMap stored :=
  flatMap_congr (g := fun r ↦ r.2.toList.filter isData) stored_eq h

theorem asked_congr (i : ℕ) (h : trs.map request = trs'.map request) :
    trs.flatMap (asked i) = trs'.flatMap (asked i) :=
  flatMap_congr (g := fun r ↦ if r.1 = i then r.2.toList else []) (asked_eq i) h

theorem told_of_ne (h : tr.client ≠ i) : tr.told i = [] := by
  cases tr with
  | packet => rfl
  | reply => exact if_neg h

theorem asked_of_ne (h : tr.client ≠ i) : tr.asked i = [] := by
  cases tr with
  | packet => exact if_neg h
  | reply => rfl

theorem request_eq_reply (h : tr.request = (i, none)) : ∃ bytes, tr = .reply i bytes := by
  cases tr with
  | packet j bytes => cases h
  | reply j bytes => cases h; exact ⟨bytes, rfl⟩

/-- A client is told nothing where nothing is requested for it. -/
theorem told_of_request (h : trs.map request = trs'.map request)
    (hnone : ∀ bytes, .reply i bytes ∉ trs') : trs.flatMap (told i) = [] := by
  refine List.flatMap_eq_nil_iff.2 fun tr htr ↦ ?_
  cases tr with
  | packet => rfl
  | reply j bytes =>
    refine if_neg fun hj ↦ ?_
    subst hj
    have hmem : (j, none) ∈ trs'.map request := h ▸ List.mem_map_of_mem htr
    obtain ⟨tr', htr', hreq⟩ := List.mem_map.1 hmem
    obtain ⟨bytes', rfl⟩ := request_eq_reply hreq
    exact hnone bytes' htr'

end Transaction

/-- The state of the service. -/
structure Service where
  /-- The packets ever stored. -/
  packets : List (List Byte)
  /-- Where each client's next reply starts. -/
  position : ℕ → ℕ

namespace Service

/-- Nothing is stored. -/
def init : Service := ⟨[], fun _ ↦ 0⟩

/-- The packets that a build keeps. -/
def kept (build : Build) (s : Service) : List (List Byte) :=
  match build with
  | .device => s.packets.rtake 10
  | .file => s.packets

/-- The bytes that can be read. -/
def content (build : Build) (s : Service) : List Byte := (s.kept build).flatten

/-- A client is put at a position. -/
def place (s : Service) (i pos : ℕ) : Service :=
  { s with position := Function.update s.position i pos }

/-- Where a seek leads from a position. -/
def seek (build : Build) (s : Service) (pos : ℕ) (seekto : AesdSeekto) : ℕ :=
  match build with
  | .device => (CommandLog.seekOffset ⟨s.packets.rtake 10, []⟩ seekto.writeCmd.toNat
      seekto.writeCmdOffset.toNat).getD pos
  | .file => pos

/-- A packet is stored. -/
def store (build : Build) (s : Service) (i : ℕ) (bytes : List Byte) : Service :=
  match build with
  | .device => { s with packets := s.packets ++ [bytes] }
  | .file => place { s with packets := s.packets ++ [bytes] } i 0

/-- What a transaction does; `none` if it is not right. -/
def step (build : Build) (s : Service) : Transaction → Option Service
  | .packet i bytes =>
    match seekCommand bytes with
    | some seekto => some (s.place i (s.seek build (s.position i) seekto))
    | none => some (s.store build i bytes)
  | .reply i bytes =>
    if bytes = (s.content build).drop (s.position i) then
      some (s.place i (max (s.position i) (s.content build).length))
    else none

variable {build : Build} {s t u : Service} {tr : Transaction} {trs : List Transaction} {i j : ℕ}
  {p x : List Byte}

@[simp] theorem packets_place (s : Service) (i pos : ℕ) : (s.place i pos).packets = s.packets := rfl

@[simp] theorem position_place_self (s : Service) (i pos : ℕ) :
    (s.place i pos).position i = pos := Function.update_self ..

theorem position_place_ne (s : Service) (pos : ℕ) (h : j ≠ i) :
    (s.place i pos).position j = s.position j := Function.update_of_ne h ..

@[simp] theorem packets_store (s : Service) (i : ℕ) (bytes : List Byte) :
    (s.store build i bytes).packets = s.packets ++ [bytes] := by cases build <;> rfl

/-- **The two kinds of transactions.** -/
theorem step_packet (h : s.step build (.packet i p) = some t) :
    (∃ seekto, seekCommand p = some seekto ∧
      t = s.place i (s.seek build (s.position i) seekto)) ∨
    seekCommand p = none ∧ t = s.store build i p := by
  rw [step] at h
  split at h
  · rename_i seekto hseek
    exact Or.inl ⟨seekto, hseek, (Option.some_inj.1 h).symm⟩
  · rename_i hseek
    exact Or.inr ⟨hseek, (Option.some_inj.1 h).symm⟩

theorem step_reply (h : s.step build (.reply i x) = some t) :
    x = (s.content build).drop (s.position i) ∧
      t = s.place i (max (s.position i) (s.content build).length) := by
  rw [step] at h
  split at h
  · exact ⟨‹_›, (Option.some_inj.1 h).symm⟩
  · cases h

/-- A request has one right answer. -/
theorem step_determined {tr' : Transaction} {t' : Service} (h : s.step build tr = some t)
    (h' : s.step build tr' = some t') (hreq : tr.request = tr'.request) : tr = tr' := by
  cases tr with
  | packet i p =>
    cases tr' with
    | packet j p' =>
      obtain ⟨rfl, hp⟩ := Prod.mk.inj hreq
      rw [Option.some_inj.1 hp]
    | reply j x => cases hreq
  | reply i x =>
    cases tr' with
    | packet j p' => cases hreq
    | reply j x' =>
      obtain ⟨rfl, -⟩ := Prod.mk.inj hreq
      rw [(step_reply h).1, (step_reply h').1]

/-- What a transaction stores. -/
theorem step_packets (h : s.step build tr = some t) : t.packets = s.packets ++ tr.stored := by
  cases tr with
  | packet i p =>
    rcases step_packet h with ⟨seekto, hseek, rfl⟩ | ⟨hseek, rfl⟩
    · simp [Transaction.stored, isData, hseek]
    · simp [Transaction.stored, isData, hseek]
  | reply i x =>
    obtain ⟨-, rfl⟩ := step_reply h
    simp [Transaction.stored]

/-- A client's position is its own. -/
theorem step_position (h : s.step build tr = some t) (hj : tr.client ≠ j) :
    t.position j = s.position j := by
  cases tr with
  | packet i p =>
    have hj : j ≠ i := fun h' ↦ hj h'.symm
    rcases step_packet h with ⟨seekto, -, rfl⟩ | ⟨-, rfl⟩
    · exact position_place_ne s _ hj
    · cases build with
      | device => rfl
      | file => exact position_place_ne _ _ hj
  | reply i x =>
    obtain ⟨-, rfl⟩ := step_reply h
    exact position_place_ne s _ fun h' ↦ hj h'.symm

/-- The packets are those that were stored. -/
theorem exec_packets (h : Machine.exec (step build) s trs = some t) :
    t.packets = s.packets ++ trs.flatMap Transaction.stored := by
  induction trs generalizing s with
  | nil => cases h; simp
  | cons tr trs ih =>
    rw [Machine.exec] at h
    split at h
    · rename_i u hstep
      rw [ih h, step_packets hstep, List.flatMap_cons, List.append_assoc]
    · cases h

/-- What the others do leaves a client's position. -/
theorem exec_position (h : Machine.exec (step build) s trs = some t)
    (hj : ∀ tr ∈ trs, tr.client ≠ j) : t.position j = s.position j := by
  induction trs generalizing s with
  | nil => cases h; rfl
  | cons tr trs ih =>
    rw [Machine.exec] at h
    split at h
    · rename_i u hstep
      rw [ih h fun tr htr ↦ hj tr (List.mem_cons_of_mem _ htr),
        step_position hstep (hj tr (List.mem_cons_self ..))]
    · cases h

/-- **The requests decide it all**: what is stored, where the clients are and what they are told. -/
theorem exec_determined {trs' : List Transaction} {t' : Service}
    (h : Machine.exec (step build) s trs = some t) (h' : Machine.exec (step build) s trs' = some t')
    (hreq : trs.map Transaction.request = trs'.map Transaction.request) : trs = trs' ∧ t = t' := by
  induction trs generalizing s trs' with
  | nil =>
    obtain rfl : trs' = [] := by simpa using hreq.symm
    cases h
    cases h'
    exact ⟨rfl, rfl⟩
  | cons tr trs ih =>
    obtain ⟨tr', trs', rfl⟩ : ∃ tr' rest, trs' = tr' :: rest := by
      cases trs' with
      | nil => simp at hreq
      | cons tr' rest => exact ⟨tr', rest, rfl⟩
    rw [List.map_cons, List.map_cons, List.cons.injEq] at hreq
    obtain ⟨hfirst, hrest⟩ := hreq
    rw [Machine.exec] at h h'
    split at h
    swap
    · cases h
    rename_i u hstep
    split at h'
    swap
    · cases h'
    rename_i u' hstep'
    obtain rfl : tr = tr' := step_determined hstep hstep' hfirst
    obtain rfl : u = u' := Option.some_inj.1 (hstep.symm.trans hstep')
    obtain ⟨rfl, rfl⟩ := ih h h' hrest
    exact ⟨rfl, rfl⟩

/-! ## What a client is told -/

/-- **A file's reply to a packet** is all that was stored, in order: whatever was stored before the
reply is in it. -/
theorem reply_complete {before between : List Transaction} (hp : isData p = true)
    (hbetween : ∀ tr ∈ between, tr.client ≠ i)
    (h : Machine.exec (step .file) init (before ++ .packet i p :: (between ++ [.reply i x]))
      = some t) :
    x = ((before ++ .packet i p :: between).flatMap Transaction.stored).flatten := by
  rw [← List.cons_append, ← List.append_assoc, Machine.exec_append] at h
  obtain ⟨u, hu, hreply⟩ := h
  rw [Machine.exec_singleton] at hreply
  obtain ⟨rfl, -⟩ := step_reply hreply
  have hpackets := exec_packets hu
  -- the packet puts the client at the start, and the others leave it there
  have hposition : u.position i = 0 := by
    obtain ⟨v, -, hv⟩ := Machine.exec_append.1 hu
    rw [Machine.exec] at hv
    split at hv
    · rename_i w hstep
      rw [exec_position hv hbetween]
      rcases step_packet hstep with ⟨seekto, hseek, -⟩ | ⟨-, rfl⟩
      · simp [isData, hseek] at hp
      · exact position_place_self _ _ _
    · cases hv
  rw [hposition, List.drop_zero, content, kept, hpackets]
  rfl

/-- The bytes that were stored, at the place where the device has cut them. -/
def window (s : Service) : Window Byte := .last 10 s.packets

/-- What was told to a client of the device that never seeks. -/
structure Told (s : Service) (i : ℕ) (told : List Byte) : Prop where
  /-- What it is told next starts behind as many bytes. -/
  position : s.position i = told.length
  /-- So it follows the device. -/
  follows : s.window.Follows told

theorem told_init (i : ℕ) : init.Told i [] := ⟨rfl, Window.follows_nil _⟩

theorem Told.place_ne (h : s.Told i x) (pos : ℕ) (hj : i ≠ j) : (s.place j pos).Told i x :=
  ⟨(position_place_ne s pos hj).trans h.position, h.follows⟩

/-- The client gets a reply. -/
theorem Told.reply (h : s.Told i x) :
    (s.place i (max (s.position i) (s.content .device).length)).Told i
      (x ++ (s.content .device).drop (s.position i)) := by
  refine ⟨?_, h.follows.reads (by rw [← h.position]; exact List.prefix_rfl)⟩
  rw [position_place_self, List.length_append, List.length_drop, ← h.position]
  omega

/-- **A transaction**, of whomever. -/
theorem Told.step (h : s.Told i x) (hstep : s.step .device tr = some t)
    (hdata : ∀ p ∈ tr.asked i, isData p = true) : t.Told i (x ++ (tr.told i).flatten) := by
  cases tr with
  | packet j p =>
    rw [Transaction.told, List.flatten_nil, List.append_nil]
    rcases step_packet hstep with ⟨seekto, hseek, rfl⟩ | ⟨-, rfl⟩
    · refine h.place_ne _ fun hij ↦ ?_
      have := hdata p (by simp [Transaction.asked, hij])
      simp [isData, hseek] at this
    · exact ⟨h.position, h.follows.slides (Window.slides_last 10 s.packets p)⟩
  | reply j y =>
    obtain ⟨rfl, rfl⟩ := step_reply hstep
    by_cases hij : j = i
    · subst hij
      simpa [Transaction.told] using h.reply
    · simpa [Transaction.told, hij] using h.place_ne _ (Ne.symm hij)

theorem exec_told (h : s.Told i x) (hexec : Machine.exec (step .device) s trs = some t)
    (hdata : ∀ p ∈ trs.flatMap (Transaction.asked i), isData p = true) :
    t.Told i (x ++ (trs.flatMap (Transaction.told i)).flatten) := by
  induction trs generalizing s x with
  | nil => cases hexec; simpa using h
  | cons tr trs ih =>
    rw [Machine.exec] at hexec
    rw [List.flatMap_cons] at hdata
    split at hexec
    · rename_i u hstep
      have := ih (h.step hstep fun p hp ↦ hdata p (List.mem_append_left _ hp)) hexec
        fun p hp ↦ hdata p (List.mem_append_right _ hp)
      simpa using this
    · cases hexec

/-- **A client of the device that never seeks is told no byte twice, and none out of order.** -/
theorem replies_sublist (h : Machine.exec (step .device) init trs = some t)
    (hdata : ∀ p ∈ trs.flatMap (Transaction.asked i), isData p = true) :
    (trs.flatMap (Transaction.told i)).flatten.Sublist
      (trs.flatMap Transaction.stored).flatten := by
  obtain ⟨n, -, hsub⟩ := (exec_told (told_init i) h hdata).follows.sublist
  rw [window, Window.history_last, exec_packets h] at hsub
  exact hsub.trans (List.take_sublist _ _)

/-- **Nor is any byte left out**, while the device has not dropped a packet: it was told all up to
some place. -/
theorem replies_isPrefix (h : Machine.exec (step .device) init trs = some t)
    (hdata : ∀ p ∈ trs.flatMap (Transaction.asked i), isData p = true)
    (hlen : (trs.flatMap Transaction.stored).length ≤ 10) :
    (trs.flatMap (Transaction.told i)).flatten <+:
      (trs.flatMap Transaction.stored).flatten := by
  have hpackets : t.packets = trs.flatMap Transaction.stored := exec_packets h
  have htold := (exec_told (told_init i) h hdata).follows.whole
    (Window.dropped_last (by rwa [hpackets]))
  rwa [window, Window.history_last, hpackets] at htold

/-- And up to its last reply, all that was stored before. -/
theorem replies_eq (h : Machine.exec (step .device) init (trs ++ [.reply i x]) = some t)
    (hdata : ∀ p ∈ trs.flatMap (Transaction.asked i), isData p = true)
    (hlen : (trs.flatMap Transaction.stored).length ≤ 10) :
    ((trs ++ [Transaction.reply i x]).flatMap (Transaction.told i)).flatten
      = (trs.flatMap Transaction.stored).flatten := by
  have hdata' : ∀ p ∈ (trs ++ [Transaction.reply i x]).flatMap (Transaction.asked i),
      isData p = true := by simpa [Transaction.asked] using hdata
  have hstored : (trs ++ [Transaction.reply i x]).flatMap Transaction.stored
      = trs.flatMap Transaction.stored := by simp [Transaction.stored]
  have hprefix := replies_isPrefix h hdata' (by rwa [hstored])
  obtain ⟨hposition, -⟩ := exec_told (told_init i) h hdata'
  obtain ⟨u, hu, hreply⟩ := Machine.exec_append.1 h
  rw [Machine.exec_singleton] at hreply
  obtain ⟨-, rfl⟩ := step_reply hreply
  have hcontent : u.content .device = (trs.flatMap Transaction.stored).flatten := by
    have hpackets : u.packets = trs.flatMap Transaction.stored := exec_packets hu
    have hhistory := Window.history_last 10 u.packets
    rw [Window.history, Window.dropped_last (by rwa [hpackets]), List.nil_append] at hhistory
    exact hhistory.trans (congrArg List.flatten hpackets)
  rw [hstored] at hprefix
  refine hprefix.eq_of_length_le ?_
  rw [position_place_self, hcontent, List.nil_append] at hposition
  omega

/-- That is what the file replies, when it is asked the same and the client's last packet was a
stored one. -/
theorem replies_eq_reply {before between : List Transaction} {y : List Byte} {t' : Service}
    (h : Machine.exec (step .device) init (trs ++ [.reply i y]) = some t)
    (h' : Machine.exec (step .file) init (before ++ .packet i p :: (between ++ [.reply i x]))
      = some t')
    (hreq : trs.map Transaction.request
      = (before ++ .packet i p :: between).map Transaction.request)
    (hbetween : ∀ tr ∈ between, tr.client ≠ i)
    (hdata : ∀ p ∈ trs.flatMap (Transaction.asked i), isData p = true)
    (hlen : (trs.flatMap Transaction.stored).length ≤ 10) :
    ((trs ++ [Transaction.reply i y]).flatMap (Transaction.told i)).flatten = x := by
  have hp : isData p = true := by
    refine hdata p ?_
    rw [Transaction.asked_congr i hreq]
    simp [Transaction.asked]
  rw [replies_eq h hdata hlen, Transaction.stored_congr hreq]
  exact (reply_complete hp hbetween h').symm

end Service

end Aesd
