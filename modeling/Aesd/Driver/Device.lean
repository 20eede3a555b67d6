import Aesd.Driver.CircularBuffer

/-!
# The device

`main.c`: the file operations of the character device, and its start and end.

A call of the driver comes with everything that is decided outside it: the user's data, whether the
lock is granted or its wait interrupted, whether the copy from or to user space works, whether
memory can be had.  The functions answer with the value they return and the state they leave; of
`struct aesd_dev` the state keeps the ring and the pending write.  The lock is the sequential
reading of these functions: one that gets it runs to its `up_read` or `up_write` alone.
-/

set_option autoImplicit false

namespace Aesd

/-- `struct aesd_dev`, without the parts that only the kernel uses. -/
structure AesdDev where
  /-- The commands. -/
  buffer : AesdCircularBuffer
  /-- What was written since the last newline-terminated write. -/
  tempEntry : AesdBufferEntry
deriving DecidableEq

/-- The driver's state: the device and the memory behind its pointers. -/
structure Driver where
  /-- The device. -/
  dev : AesdDev
  /-- The kernel memory the driver allocated. -/
  mem : Memory
deriving DecidableEq

/-- `struct aesd_seekto`. -/
structure AesdSeekto where
  /-- The command, counted from the oldest. -/
  writeCmd : UInt32
  /-- The byte in it. -/
  writeCmdOffset : UInt32
deriving DecidableEq, Repr

/-- A call of `aesd_read`. -/
structure ReadCall where
  /-- How many bytes are asked for. -/
  count : ℕ
  /-- `down_read_interruptible` gets the lock. -/
  lockOk : Bool
  /-- `copy_to_user` works. -/
  copyOk : Bool
deriving DecidableEq, Repr

/-- What `aesd_read` answers. -/
structure ReadResult where
  /-- The value returned. -/
  retval : ℤ
  /-- The position afterwards. -/
  f_pos : ℤ
  /-- The bytes copied to the user. -/
  data : List Byte
deriving DecidableEq, Repr

/-- A call of `aesd_write`; the count is the length of the data. -/
structure WriteCall where
  /-- The user's data. -/
  userBuf : List Byte
  /-- Memory can be had for `kmalloc`. -/
  kmallocOk : Bool
  /-- `copy_from_user` works. -/
  copyOk : Bool
  /-- `down_write_killable` gets the lock. -/
  lockOk : Bool
  /-- Memory can be had for `krealloc`. -/
  kreallocOk : Bool
deriving DecidableEq, Repr

/-- A write in which nothing fails. -/
def WriteCall.plain (bytes : List Byte) : WriteCall := ⟨bytes, true, true, true, true⟩

/-- A read in which nothing fails. -/
def ReadCall.plain (count : ℕ) : ReadCall := ⟨count, true, true⟩

/-- A call of `aesd_ioctl`. -/
structure IoctlCall where
  /-- The command. -/
  cmd : ℕ
  /-- What the user's pointer points to. -/
  seekto : AesdSeekto
  /-- `access_ok` of that pointer. -/
  accessOk : Bool
  /-- `copy_from_user` works. -/
  copyOk : Bool
  /-- `down_write_killable` gets the lock. -/
  lockOk : Bool
deriving DecidableEq, Repr

/-- A call of `aesd_llseek`. -/
structure LlseekCall where
  /-- The offset. -/
  offset : ℤ
  /-- From where. -/
  whence : ℕ
  /-- `down_write_killable` gets the lock. -/
  lockOk : Bool
deriving DecidableEq, Repr

/-- `_IOC_SIZE`. -/
def iocSize (cmd : ℕ) : ℕ := (cmd / 2 ^ 16) % 2 ^ 14

/-- `AESDCHAR_IOCSEEKTO`, which is `_IOW(0x16, 1, struct aesd_seekto)`: the direction, the size of
the structure, the magic number and the command's number. -/
def AESDCHAR_IOCSEEKTO : ℕ := 1 * 2 ^ 30 + 8 * 2 ^ 16 + 0x16 * 2 ^ 8 + 1

namespace Driver

variable [Platform]

/-- The device after `aesd_init_module`. -/
def aesdInitModule : Driver := ⟨⟨.init, .null⟩, .empty⟩

/-- `aesd_read`. -/
def aesdRead (d : Driver) (f_pos : ℤ) (call : ReadCall) : Except Bug ReadResult := do
  if call.count = 0 then .ok ⟨0, f_pos, []⟩
  else if !call.lockOk then .ok ⟨-ERESTARTSYS, f_pos, []⟩
  else
    match ← d.dev.buffer.findEntryOffsetForFpos (SizeT.ofLoff f_pos) with
    | none => .ok ⟨0, f_pos, []⟩ -- EOF
    | some (index, offset) =>
      let entry ← d.dev.buffer.slot index
      match entry.buffptr with
      | none => .error (.assertion "entry->buffptr")
      | some ptr =>
        assert (offset < entry.size) "offset < entry->size"
        let size := min call.count (entry.size - offset)
        let bytes ← peek d.mem ptr offset size
        if call.copyOk then .ok ⟨SSizeT.ofSize size, Loff.wrap (f_pos + size), bytes⟩
        else .ok ⟨-EFAULT, f_pos, []⟩

/-- The end of `aesd_write` once the data is in `temp_entry`: a newline-terminated write moves it
into the ring.  The evicted entry and the buffer `kern_buf`, if it was not moved, are freed. -/
def commit (dev : AesdDev) (mem : Memory) (newlineTerminated : Bool) (kernBuf : Option ℕ)
    (count : ℕ) : Except Bug (ℤ × Driver) := do
  let (evicted, dev) ←
    if newlineTerminated then do
      let (evicted, buffer) ← dev.buffer.addEntry dev.tempEntry
      .ok (evicted, { dev with buffer := buffer, tempEntry := .null })
    else .ok (AesdBufferEntry.null, dev)
  let mem := match evicted.buffptr with
    | some ptr => kfree mem ptr
    | none => mem
  let mem := match kernBuf with
    | some ptr => kfree mem ptr
    | none => mem
  .ok (SSizeT.ofSize count, ⟨dev, mem⟩)

/-- `aesd_write`.  The position is not an argument, since the driver ignores it. -/
def aesdWrite (d : Driver) (call : WriteCall) : Except Bug (ℤ × Driver) := do
  let count := call.userBuf.length
  if count = 0 then .ok (0, d)
  else
    match kmalloc d.mem count call.kmallocOk with
    | none => .ok (-ENOMEM, d)
    | some (kernBuf, mem) =>
      if !call.copyOk then .ok (-EFAULT, { d with mem := kfree mem kernBuf })
      else
        let mem ← poke mem kernBuf 0 call.userBuf
        let newlineTerminated := call.userBuf.getLast? == some newline
        if !call.lockOk then .ok (-EINTR, { d with mem := kfree mem kernBuf })
        else
          match d.dev.tempEntry.buffptr with
          | some ptr =>
            -- append to the pending write
            let newSize := SizeT.add d.dev.tempEntry.size count
            match ← krealloc mem ptr newSize call.kreallocOk with
            | none => .ok (-ENOMEM, { d with mem := kfree mem kernBuf })
            | some (newBuffptr, mem) =>
              let bytes ← peek mem kernBuf 0 count
              let mem ← poke mem newBuffptr d.dev.tempEntry.size bytes
              commit { d.dev with tempEntry := ⟨some newBuffptr, newSize⟩ } mem newlineTerminated
                (some kernBuf) count
          | none =>
            -- move the new buffer
            commit { d.dev with tempEntry := ⟨some kernBuf, count⟩ } mem newlineTerminated none
              count

/-- `aesd_ioctl`: the value returned and the position afterwards. -/
def aesdIoctl (d : Driver) (f_pos : ℤ) (call : IoctlCall) : Except Bug (ℤ × ℤ) := do
  if call.cmd = AESDCHAR_IOCSEEKTO then
    if iocSize call.cmd ≠ 8 then .ok (-EINVAL, f_pos)
    else if !call.accessOk then .ok (-EFAULT, f_pos)
    else if !call.copyOk then .ok (-EFAULT, f_pos)
    else if !call.lockOk then .ok (-EINTR, f_pos)
    else
      match ← d.dev.buffer.offsetAt call.seekto.writeCmd.toNat call.seekto.writeCmdOffset.toNat with
      | some seekOffset => .ok (0, Loff.wrap seekOffset)
      | none => .ok (-EINVAL, f_pos)
  else .ok (-EINVAL, f_pos)

/-- `aesd_llseek`: the value returned and the position afterwards. -/
def aesdLlseek (d : Driver) (f_pos : ℤ) (call : LlseekCall) : Except Bug (ℤ × ℤ) := do
  if !call.lockOk then .ok (-EINTR, f_pos)
  else
    let bufferBytesSize ← d.dev.buffer.bytesSize
    .ok (Platform.fixedSizeLlseek f_pos call.offset call.whence (Loff.wrap bufferBytesSize))

/-- The loop of `aesd_cleanup_module` over the slots from `index` on. -/
def cleanupLoop (d : Driver) : ℕ → ℕ → Except Bug Driver
  | 0, _ => .ok d
  | n + 1, index => do
    let entry ← d.dev.buffer.slot index
    match entry.buffptr with
    | none => cleanupLoop d n (index + 1)
    | some ptr =>
      cleanupLoop { dev := { d.dev with buffer := { d.dev.buffer with
          entry := d.dev.buffer.entry.setIfInBounds index .null } }
                    mem := kfree d.mem ptr } n (index + 1)

/-- `aesd_cleanup_module`. -/
def aesdCleanupModule (d : Driver) : Except Bug Driver := do
  let d ← d.cleanupLoop MAX_WRITE_OPERATIONS 0
  match d.dev.tempEntry.buffptr with
  | none => .ok d
  | some ptr => .ok { dev := { d.dev with tempEntry := .null }, mem := kfree d.mem ptr }

end Driver

/-! ## Runs of the driver -/

/-- A call of one of the file operations, on an open file where the file matters. -/
inductive Call
  /-- `open`: a new open file starts at position `0`. -/
  | open (file : ℕ)
  /-- `read` at the file's position. -/
  | read (file : ℕ) (call : ReadCall)
  /-- `read` at a position of its own, as `pread` does. -/
  | pread (f_pos : ℕ) (call : ReadCall)
  /-- `write`. -/
  | write (call : WriteCall)
  /-- `ioctl`. -/
  | ioctl (file : ℕ) (call : IoctlCall)
  /-- `llseek`. -/
  | llseek (file : ℕ) (call : LlseekCall)
deriving DecidableEq, Repr

/-- The driver and the positions of the open files. -/
structure Node where
  /-- The driver. -/
  driver : Driver
  /-- `filp->f_pos` of every open file. -/
  f_pos : ℕ → ℤ

namespace Node

variable [Platform]

/-- Just after `aesd_init_module`. -/
def init : Node := ⟨.aesdInitModule, fun _ ↦ 0⟩

/-- Move one file's position. -/
def seek (s : Node) (file : ℕ) (pos : ℤ) : Node :=
  { s with f_pos := fun f ↦ if f = file then pos else s.f_pos f }

section Positions

variable {s : Node} {file f : ℕ} {q : ℤ}

omit [Platform] in
@[simp] theorem seek_self (s : Node) (file : ℕ) : s.seek file (s.f_pos file) = s := by
  rw [seek]
  congr 1
  funext f
  split
  · rename_i hf
    rw [hf]
  · rfl

omit [Platform] in
theorem f_pos_seek_of_ne (h : file ≠ f) : (s.seek f q).f_pos file = s.f_pos file := if_neg h

omit [Platform] in
theorem seek_comm (h : file ≠ f) (p : ℤ) : (s.seek file p).seek f q = (s.seek f q).seek file p := by
  simp only [seek, mk.injEq, true_and]
  funext i
  by_cases hi : i = f
  · rw [if_pos hi, if_neg (by rw [hi]; exact h.symm), if_pos hi]
  · rw [if_neg hi, if_neg hi]

end Positions

/-- One call: the value returned and the state afterwards. -/
def call (s : Node) : Call → Except Bug (ℤ × Node)
  | .open file => .ok (0, s.seek file 0)
  | .read file c => do
    let r ← s.driver.aesdRead (s.f_pos file) c
    .ok (r.retval, s.seek file r.f_pos)
  | .pread pos c => do
    let r ← s.driver.aesdRead pos c
    .ok (r.retval, s)
  | .write c => do
    let (retval, d) ← s.driver.aesdWrite c
    .ok (retval, { s with driver := d })
  | .ioctl file c => do
    let (retval, pos) ← s.driver.aesdIoctl (s.f_pos file) c
    .ok (retval, s.seek file pos)
  | .llseek file c => do
    let (retval, pos) ← s.driver.aesdLlseek (s.f_pos file) c
    .ok (retval, s.seek file pos)

/-- A sequence of calls: the values returned and the state at the end. -/
def calls : Node → List Call → Except Bug (List ℤ × Node)
  | s, [] => .ok ([], s)
  | s, c :: cs => do
    let (r, s) ← s.call c
    let (rs, s) ← s.calls cs
    .ok (r :: rs, s)

end Node

end Aesd
