import Mathlib.Data.Int.Notation
import Mathlib.Algebra.Order.Group.Nat
import Aesd.Lib.Heap

/-!
# What the driver uses of the kernel

The machine types of the driver and the kernel functions it calls.  A `size_t` is a natural number
and its arithmetic wraps at the platform's width; a `loff_t` is an integer that wraps at 64 bits.

The kernel's memory is a `Heap` of byte strings.  Whether `kmalloc` and `krealloc` find memory is
decided by the caller of the driver function (an `ok` flag of the call); beyond `kmallocMax` bytes
they never do.  What the code must not do (fail an assertion, index outside an array, read memory
it does not own) is a `Bug`.
-/

set_option autoImplicit false

namespace Aesd

/-- A byte, `char` in the source. -/
abbrev Byte := UInt8

/-- `'\n'`. -/
def newline : Byte := 10

/-! ## The platform -/

/-- `EINVAL`. -/
def EINVAL : ℤ := 22

/-- `EFAULT`. -/
def EFAULT : ℤ := 14

/-- `ENOMEM`. -/
def ENOMEM : ℤ := 12

/-- `EINTR`. -/
def EINTR : ℤ := 4

/-- `ERESTARTSYS`. -/
def ERESTARTSYS : ℤ := 512

/-- `SEEK_SET`. -/
def SEEK_SET : ℕ := 0

/-- `SEEK_CUR`. -/
def SEEK_CUR : ℕ := 1

/-- The kernel the driver is built for: the width of `size_t`, the largest block `kmalloc` hands
out, and the `llseek` helper for files of a fixed size. -/
class Platform where
  /-- The number of bits of `size_t`. -/
  sizeBits : ℕ
  /-- `KMALLOC_MAX_SIZE`: larger requests fail. -/
  kmallocMax : ℕ
  /-- `fixed_size_llseek`: from `f_pos`, `offset`, `whence` and the file's size to the return value
  and the new `f_pos`. -/
  fixedSizeLlseek : ℤ → ℤ → ℕ → ℤ → ℤ × ℤ
  /-- `size_t` is at least as wide as `uint32_t`. -/
  le_sizeBits : 32 ≤ sizeBits
  /-- `size_t` is at most as wide as `loff_t`. -/
  sizeBits_le : sizeBits ≤ 64
  /-- A block's size fits in 32 bits. -/
  kmallocMax_lt : kmallocMax < 2 ^ 32
  /-- The blocks the driver can hold, ten commands and a pending one, are together smaller than
  half of the address space. -/
  kmalloc_fits : 11 * kmallocMax < 2 ^ (sizeBits - 1)
  /-- `SEEK_SET` goes to a position from `0` to the size, and is refused elsewhere. -/
  fixedSizeLlseek_set : ∀ f_pos offset size,
    fixedSizeLlseek f_pos offset SEEK_SET size =
      if 0 ≤ offset ∧ offset ≤ size then (offset, offset) else (-EINVAL, f_pos)
  /-- A seek leaves the position alone or ends between `0` and the size. -/
  fixedSizeLlseek_range : ∀ f_pos offset whence size,
    (fixedSizeLlseek f_pos offset whence size).2 = f_pos ∨
      0 ≤ (fixedSizeLlseek f_pos offset whence size).2 ∧
        (fixedSizeLlseek f_pos offset whence size).2 ≤ size

/-- Where `fixed_size_llseek` is to go for the three classical values of `whence`: set, current and
end. -/
def llseekTarget (f_pos offset : ℤ) (whence : ℕ) (size : ℤ) : Option ℤ :=
  match whence with
  | 0 => some offset
  | 1 => some (f_pos + offset)
  | 2 => some (size + offset)
  | _ => none

/-- The kernel on a 64-bit machine with 4 KiB pages.  Its `fixed_size_llseek` answers a seek by `0`
from where the file is with the position, in range or not. -/
abbrev linux64 : Platform where
  sizeBits := 64
  kmallocMax := 2 ^ 22
  fixedSizeLlseek f_pos offset whence size :=
    if whence = SEEK_CUR ∧ offset = 0 then (f_pos, f_pos)
    else match llseekTarget f_pos offset whence size with
      | some t => if 0 ≤ t ∧ t ≤ size then (t, t) else (-EINVAL, f_pos)
      | none => (-EINVAL, f_pos)
  le_sizeBits := by decide
  sizeBits_le := by decide
  kmallocMax_lt := by decide
  kmalloc_fits := by decide
  fixedSizeLlseek_set _ _ _ := rfl
  fixedSizeLlseek_range f_pos offset whence size := by
    split
    · exact Or.inl rfl
    split
    · rename_i t _
      split
      · exact Or.inr ‹_›
      · exact Or.inl rfl
    · exact Or.inl rfl

variable [Platform]

/-! ## Machine integers -/

/-- One more than the largest `size_t`. -/
def SizeT.bound : ℕ := 2 ^ Platform.sizeBits

/-- The sum of two `size_t`. -/
def SizeT.add (a b : ℕ) : ℕ := (a + b) % SizeT.bound

/-- A `loff_t` as a `size_t`. -/
def SizeT.ofLoff (z : ℤ) : ℕ := (z % (SizeT.bound : ℤ)).toNat

/-- A `size_t` as the signed type of the same width. -/
def SSizeT.ofSize (n : ℕ) : ℤ := Int.bmod n SizeT.bound

/-- An integer as a `loff_t`. -/
def Loff.wrap (z : ℤ) : ℤ := Int.bmod z (2 ^ 64)

theorem SizeT.add_of_lt {a b : ℕ} (h : a + b < SizeT.bound) : SizeT.add a b = a + b :=
  Nat.mod_eq_of_lt h

theorem SizeT.ofLoff_natCast {n : ℕ} (h : n < SizeT.bound) : SizeT.ofLoff n = n := by
  rw [SizeT.ofLoff, ← Int.natCast_mod, Int.toNat_natCast, Nat.mod_eq_of_lt h]

theorem SizeT.bound_le : SizeT.bound ≤ 2 ^ 64 :=
  Nat.pow_le_pow_right (by decide) Platform.sizeBits_le

theorem SizeT.half_bound : 2 ^ (Platform.sizeBits - 1) * 2 = SizeT.bound :=
  Nat.two_pow_pred_mul_two (Nat.lt_of_lt_of_le (by decide) Platform.le_sizeBits)

/-- What the driver can hold is below half of `size_t`'s range. -/
theorem SizeT.fits : 22 * Platform.kmallocMax < SizeT.bound := by
  have h := Platform.kmalloc_fits
  rw [← SizeT.half_bound]
  omega

omit [Platform] in
theorem Loff.wrap_natCast {n : ℕ} (h : n < 2 ^ 63) : Loff.wrap n = n := by
  rw [Loff.wrap, Int.bmod_eq_of_le] <;> omega

theorem Loff.wrap_of_fits {n : ℕ} (h : n ≤ 11 * Platform.kmallocMax) : Loff.wrap n = n := by
  have hk := Platform.kmallocMax_lt
  exact Loff.wrap_natCast (by omega)

theorem SSizeT.ofSize_of_fits {n : ℕ} (h : n ≤ 11 * Platform.kmallocMax) :
    SSizeT.ofSize n = n := by
  have hfit := SizeT.fits
  rw [SSizeT.ofSize, Int.bmod_eq_of_le] <;> omega

/-! ## What must not happen -/

/-- A step the code must not take. -/
inductive Bug
  /-- A failed `assert`, `BUG_ON` in the kernel. -/
  | assertion (text : String)
  /-- An index outside an array, or bytes outside a block. -/
  | outOfBounds (index : ℕ)
  /-- An access to a block that is not allocated. -/
  | notAllocated (ptr : ℕ)
  /-- An access through a null pointer. -/
  | nullPointer
  /-- A loop along a list that does not end. -/
  | endless
deriving DecidableEq, Repr

/-- `assert(cond)`. -/
def assert (cond : Bool) (text : String) : Except Bug Unit :=
  if cond then .ok () else .error (.assertion text)

omit [Platform] in
@[simp] theorem ok_bind {α β : Type} (a : α) (f : α → Except Bug β) :
    (Except.ok a >>= f) = f a := rfl

omit [Platform] in
theorem bind_eq_ok {α β : Type} {x : Except Bug α} {f : α → Except Bug β} {b : β} :
    (x >>= f) = .ok b ↔ ∃ a, x = .ok a ∧ f a = .ok b := by
  cases x with
  | error bug => simp [bind, Except.bind]
  | ok a => simp

omit [Platform] in
@[simp] theorem assert_true (text : String) : assert true text = .ok () := rfl

/-! ## Kernel memory -/

/-- The kernel's memory, as far as the driver allocates it. -/
abbrev Memory := Heap (List Byte)

/-- `kmalloc`; `ok` says that memory can be had.  The bytes of the new block are not specified by
the kernel; they are zero here, and the driver overwrites all of them before it reads any. -/
def kmalloc (mem : Memory) (count : ℕ) (ok : Bool) : Option (ℕ × Memory) :=
  if ok ∧ count ≤ Platform.kmallocMax then some (mem.next, mem.alloc (List.replicate count 0))
  else none

/-- `kfree`. -/
def kfree (mem : Memory) (ptr : ℕ) : Memory := mem.free ptr

/-- `krealloc`: the new block starts with the old block's bytes, and the old block is freed.  When
no memory can be had the old block stays as it is. -/
def krealloc (mem : Memory) (ptr newSize : ℕ) (ok : Bool) : Except Bug (Option (ℕ × Memory)) :=
  match mem.get? ptr with
  | none => .error (.notAllocated ptr)
  | some old =>
    if ok ∧ newSize ≤ Platform.kmallocMax then
      .ok (some (mem.next, (mem.alloc
        (old.take newSize ++ List.replicate (newSize - old.length) 0)).free ptr))
    else .ok none

/-- Read `size` bytes of a block from `offset` on. -/
def peek (mem : Memory) (ptr offset size : ℕ) : Except Bug (List Byte) :=
  match mem.get? ptr with
  | none => .error (.notAllocated ptr)
  | some block =>
    if offset + size ≤ block.length then .ok ((block.drop offset).take size)
    else .error (.outOfBounds (offset + size))

/-- Write `bytes` into a block from `offset` on. -/
def poke (mem : Memory) (ptr offset : ℕ) (bytes : List Byte) : Except Bug Memory :=
  match mem.get? ptr with
  | none => .error (.notAllocated ptr)
  | some block =>
    if offset + bytes.length ≤ block.length then
      .ok (mem.set ptr (block.take offset ++ bytes ++ block.drop (offset + bytes.length)))
    else .error (.outOfBounds (offset + bytes.length))

section Calls

variable {mem : Memory} {ptr count : ℕ} {block bytes : List Byte}

theorem kmalloc_some (h : count ≤ Platform.kmallocMax) :
    kmalloc mem count true = some (mem.next, mem.alloc (List.replicate count 0)) := by
  rw [kmalloc, if_pos ⟨rfl, h⟩]

theorem krealloc_some {newSize : ℕ} (hg : mem.get? ptr = some block)
    (h : newSize ≤ Platform.kmallocMax) (hb : block.length ≤ newSize) :
    krealloc mem ptr newSize true = .ok (some (mem.next,
      (mem.alloc (block ++ List.replicate (newSize - block.length) 0)).free ptr)) := by
  simp only [krealloc, hg, true_and, if_pos h, List.take_of_length_le hb]

omit [Platform] in
theorem peek_all (hg : mem.get? ptr = some bytes) : peek mem ptr 0 bytes.length = .ok bytes := by
  simp [peek, hg]

omit [Platform] in
/-- Writing the end of a block. -/
theorem poke_end {pad : List Byte} (hg : mem.get? ptr = some (block ++ pad))
    (hl : pad.length = bytes.length) :
    poke mem ptr block.length bytes = .ok (mem.set ptr (block ++ bytes)) := by
  simp [poke, hg, ← hl]

omit [Platform] in
/-- Writing a whole block. -/
theorem poke_all (hg : mem.get? ptr = some block) (hl : block.length = bytes.length) :
    poke mem ptr 0 bytes = .ok (mem.set ptr bytes) := by
  rw [← List.nil_append block] at hg
  exact poke_end hg hl

end Calls

end Aesd
