import Aesd.Driver.Stream
import Aesd.Server.Session

/-!
# The store behind the server

`SOCKET_DATA_FILE`: the character device or an ordinary file, with what `read`, `write` and `ioctl`
do to it.  The device is the driver's model.  The file is opened with `O_APPEND`, so a `write` goes
to its end and leaves the position there; it does not know the seek command, whose `ioctl` fails.

The server's buffers are valid and, as it holds its own lock, no call has to wait, so its `read` and
`ioctl` calls do not fail; a `write` call can, for want of memory or of space.
-/

set_option autoImplicit false

namespace Aesd

/-- The store. -/
inductive Store
  /-- The character device. -/
  | device (d : Driver)
  /-- A file with some bytes. -/
  | file (bytes : List Byte)
deriving DecidableEq

/-- What fails in a `write` call. -/
structure WriteOutcome where
  /-- Memory can be had for `kmalloc`. -/
  kmallocOk : Bool
  /-- `copy_from_user` works. -/
  copyOk : Bool
  /-- `down_write_killable` gets the lock. -/
  lockOk : Bool
  /-- Memory can be had for `krealloc`. -/
  kreallocOk : Bool
deriving DecidableEq, Repr

namespace WriteOutcome

/-- Nothing fails. -/
def plain : WriteOutcome := ⟨true, true, true, true⟩

/-- The driver's call. -/
def call (o : WriteOutcome) (bytes : List Byte) : WriteCall :=
  ⟨bytes, o.kmallocOk, o.copyOk, o.lockOk, o.kreallocOk⟩

end WriteOutcome

namespace Store

variable [Platform]

/-- The store when the server starts: a fresh device, or no file. -/
def init : Build → Store
  | .device => .device .aesdInitModule
  | .file => .file []

omit [Platform] in
/-- All stored bytes. -/
def content : Store → List Byte
  | .device d => d.content
  | .file bytes => bytes

omit [Platform] in
/-- The build the store is for. -/
def build : Store → Build
  | .device _ => .device
  | .file _ => .file

/-- `read`: the bytes and the position afterwards. -/
def read (store : Store) (f_pos : ℤ) (count : ℕ) : Except Bug (List Byte × ℤ) :=
  match store with
  | .device d => do
    let r ← d.aesdRead f_pos (.plain count)
    .ok (r.data, r.f_pos)
  | .file bytes =>
    let data := (bytes.drop f_pos.toNat).take count
    .ok (data, f_pos + data.length)

/-- `write`: whether it worked, the position afterwards, and the store. -/
def write (store : Store) (f_pos : ℤ) (bytes : List Byte) (o : WriteOutcome) :
    Except Bug (Bool × ℤ × Store) :=
  match store with
  | .device d => do
    let (retval, d) ← d.aesdWrite (o.call bytes)
    .ok (decide (0 < retval), f_pos, .device d)
  | .file old =>
    if o = .plain then .ok (true, (old ++ bytes).length, .file (old ++ bytes))
    else .ok (false, f_pos, .file old)

/-- `ioctl` with `AESDCHAR_IOCSEEKTO`: the position afterwards. -/
def ioctl (store : Store) (f_pos : ℤ) (seekto : AesdSeekto) : Except Bug ℤ :=
  match store with
  | .device d => do
    let (_, f_pos) ← d.aesdIoctl f_pos ⟨AESDCHAR_IOCSEEKTO, seekto, true, true, true⟩
    .ok f_pos
  | .file _ => .ok f_pos

/-- The command that a `write` call made the device evict, if it did. -/
def evicted (store : Store) (bytes : List Byte) (o : WriteOutcome) (ok : Bool) : List (List Byte) :=
  match store with
  | .device d =>
    if (o.call bytes).Evicts d (if ok then 1 else 0) then d.commands.take 1 else []
  | .file _ => []

/-! ## What the store keeps true -/

/-- The device represents some log. -/
def Sound : Store → Prop
  | .device d => ∃ log, d.Represents log
  | .file _ => True

/-- The store holds some packets, the device the last ten, and the first bytes of another one. -/
def Holds (packets : List (List Byte)) (part : List Byte) : Store → Prop
  | .device d => d.Represents ⟨packets.rtake 10, part⟩
  | .file bytes => bytes = packets.flatten ++ part

/-- The largest position that a call leaves a file at. -/
def Fits (store : Store) (pos : ℕ) : Prop :=
  match store with
  | .device _ => pos ≤ 10 * Platform.kmallocMax
  | .file _ => True

variable {store store' : Store} {pos count : ℕ} {bytes : List Byte}

theorem sound_init (b : Build) : (init b).Sound := by
  cases b
  · exact ⟨_, Driver.represents_init⟩
  · trivial

theorem holds_init (b : Build) : (init b).Holds [] [] := by
  cases b
  · exact Driver.represents_init
  · rfl

omit [Platform] in
theorem build_init (b : Build) : (init b).build = b := by cases b <;> rfl

omit [Platform] in
theorem eq_device (h : store.build = .device) : ∃ d, store = .device d := by
  cases store with
  | device d => exact ⟨d, rfl⟩
  | file bytes => cases h

omit [Platform] in
theorem eq_file (h : store.build = .file) : ∃ bytes, store = .file bytes := by
  cases store with
  | device d => cases h
  | file bytes => exact ⟨bytes, rfl⟩

/-- **What `read` gives** is what the content has at the position; nothing only at its end. -/
theorem read_eq (h : store.Sound) (hpos : store.Fits pos) (hcount : 0 < count) :
    ∃ data, store.read pos count = .ok (data, ((pos + data.length : ℕ) : ℤ)) ∧
      data <+: store.content.drop pos ∧ data.length ≤ count ∧
      (data = [] → store.content.length ≤ pos) ∧ store.Fits (pos + data.length) := by
  cases store with
  | file old =>
    refine ⟨(old.drop pos).take count, ?_, List.take_prefix _ _, List.length_take_le .., ?_,
      trivial⟩
    · rw [read, Int.toNat_natCast]
      push_cast
      rfl
    · intro hnil
      rw [List.take_eq_nil_iff, List.drop_eq_nil_iff] at hnil
      exact hnil.resolve_left hcount.ne'
  | device d =>
    obtain ⟨log, hrep⟩ := h
    obtain ⟨heq, hend⟩ := Driver.aesdRead_plain hrep.toStores hpos hcount
    have hcontent : (Store.device d).content = log.content := hrep.toStores.content_eq
    rw [hcontent]
    exact ⟨log.readAt pos count, by rw [read, heq, ok_bind], log.readAt_isPrefix _ _,
      log.length_readAt_le _ _, (CommandLog.readAt_eq_nil hcount.ne').1, hend⟩

/-- A `write` call that works, on a store that holds packets and a part of one: the bytes are added
to the part, and complete a packet if they end in a newline. -/
theorem write_holds {packets : List (List Byte)} {part : List Byte} {o : WriteOutcome} {pos' : ℤ}
    {f_pos : ℤ} (h : store.Holds packets part)
    (hw : store.write f_pos bytes o = .ok (true, pos', store')) :
    if NewlineTerminated bytes then store'.Holds (packets ++ [part ++ bytes]) []
      else store'.Holds packets (part ++ bytes) := by
  cases store with
  | file old =>
    obtain rfl : old = packets.flatten ++ part := h
    rw [write] at hw
    split at hw
    · simp only [Except.ok.injEq, Prod.mk.injEq, true_and] at hw
      obtain ⟨-, rfl⟩ := hw
      split <;> simp [Holds]
    · simp at hw
  | device d =>
    have hrep : d.Represents ⟨packets.rtake 10, part⟩ := h
    obtain ⟨r, d', heq, hrep', -⟩ := Driver.aesdWrite_step hrep (o.call bytes)
    rw [write, heq, ok_bind] at hw
    simp only [Except.ok.injEq, Prod.mk.injEq, decide_eq_true_eq] at hw
    obtain ⟨hpos, -, rfl⟩ := hw
    rw [if_pos hpos] at hrep'
    have hbuf : (o.call bytes).userBuf = bytes := rfl
    rw [hbuf] at hrep'
    split
    · rename_i ht
      rw [CommandLog.write_of_terminated ht] at hrep'
      have := Ring.rtake_rtake_concat (n := 10) (a := part ++ bytes) packets
      show d'.Represents ⟨(packets ++ [part ++ bytes]).rtake 10, []⟩
      rw [← this]
      exact hrep'
    · rename_i ht
      rw [CommandLog.write_of_not_terminated ht] at hrep'
      exact hrep'

/-- A `write` call that fails leaves what the store holds. -/
theorem write_refused {packets : List (List Byte)} {part : List Byte} {o : WriteOutcome} {pos' : ℤ}
    {f_pos : ℤ} (h : store.Holds packets part)
    (hw : store.write f_pos bytes o = .ok (false, pos', store')) : store'.Holds packets part := by
  cases store with
  | file old =>
    rw [write] at hw
    split at hw
    · simp at hw
    · simp only [Except.ok.injEq, Prod.mk.injEq, true_and] at hw
      obtain ⟨-, rfl⟩ := hw
      exact h
  | device d =>
    have hrep : d.Represents ⟨packets.rtake 10, part⟩ := h
    obtain ⟨r, d', heq, hrep', -⟩ := Driver.aesdWrite_step hrep (o.call bytes)
    rw [write, heq, ok_bind] at hw
    simp only [Except.ok.injEq, Prod.mk.injEq, decide_eq_false_iff_not] at hw
    obtain ⟨hpos, -, rfl⟩ := hw
    rwa [if_neg hpos] at hrep'

/-- A `write` call in which nothing fails works, if the device has room for the packet. -/
theorem write_plain {packets : List (List Byte)} {part : List Byte} (h : store.Holds packets part)
    (hne : bytes ≠ [])
    (hfits : store.build = .device → (part ++ bytes).length ≤ Platform.kmallocMax) (f_pos : ℤ) :
    ∃ f_pos' store', store.write f_pos bytes .plain = .ok (true, f_pos', store') := by
  cases store with
  | file old => exact ⟨_, _, by rw [write, if_pos rfl]⟩
  | device d =>
    have hrep : d.Represents ⟨packets.rtake 10, part⟩ := h
    have hfits := hfits rfl
    rw [List.length_append] at hfits
    obtain ⟨d', heq, -⟩ := Driver.aesdWrite_accepted hrep
      (show (WriteOutcome.plain.call bytes).Accepted ⟨packets.rtake 10, part⟩ from
        ⟨hne, rfl, by show bytes.length ≤ _; omega, rfl, rfl, fun _ ↦ ⟨rfl, hfits⟩⟩)
    have hpos := List.length_pos_of_ne_nil hne
    exact ⟨f_pos, .device d', by rw [write, heq, ok_bind]; simpa [WriteOutcome.call] using hpos⟩

/-- Every `write` call leaves a sound store of the same kind, and the position in range. -/
theorem write_sound (h : store.Sound) (hpos : store.Fits pos) (bytes : List Byte)
    (o : WriteOutcome) :
    ∃ ok store', ∃ pos' : ℕ, store.write pos bytes o = .ok (ok, (pos' : ℤ), store') ∧
      store'.Sound ∧ store'.build = store.build ∧ store'.Fits pos' := by
  cases store with
  | file old =>
    rw [write]
    split
    · exact ⟨_, _, _, rfl, trivial, rfl, trivial⟩
    · exact ⟨_, _, pos, rfl, trivial, rfl, trivial⟩
  | device d =>
    obtain ⟨log, hrep⟩ := h
    obtain ⟨r, d', heq, hrep', -⟩ := Driver.aesdWrite_step hrep (o.call bytes)
    exact ⟨decide (0 < r), .device d', pos, by rw [write, heq, ok_bind], ⟨_, hrep'⟩, rfl, hpos⟩

/-- `ioctl` leaves the position in range. -/
theorem ioctl_fits (h : store.Sound) (hpos : store.Fits pos) (seekto : AesdSeekto) :
    ∃ pos' : ℕ, store.ioctl pos seekto = .ok (pos' : ℤ) ∧ store.Fits pos' := by
  cases store with
  | file old => exact ⟨pos, rfl, trivial⟩
  | device d =>
    obtain ⟨log, hrep⟩ := h
    rw [ioctl, Driver.aesdIoctl_eq hrep.toStores, ok_bind]
    rw [CommandLog.ioctl]
    simp only [if_true, Bool.not_true, Bool.or_self, Bool.false_eq_true, if_false]
    split
    · rename_i off hoff
      have hlt := (CommandLog.seekOffset_lt hoff).le.trans hrep.toStores.length_content_le
      exact ⟨off, rfl, hlt⟩
    · exact ⟨pos, rfl, hpos⟩

end Store

end Aesd
