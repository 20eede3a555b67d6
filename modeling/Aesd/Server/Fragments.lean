import Mathlib.Algebra.GroupWithZero.Nat
import Aesd.Lib.Linked
import Aesd.Driver.Kernel

/-!
# Packet fragments

`packet_fragment.c`, and `flatten_fragments` of `client_flow.c`: the bytes of a packet that is not
complete are kept in a linked list of fragments, one for each `recv`, and are copied into one flat
buffer once the newline has come.

A fragment's `data` points into its own buffer; it is an offset here.  Of the buffer only the bytes
that `recv` has written are there, so a read of any others is out of bounds.

The three loops along the list are given as many rounds as there were allocations.  On a list that
is `Linked` this is enough (`packetFragmentsFree_eq`, `flattenFragments_eq`).
-/

set_option autoImplicit false

namespace Aesd

/-- `BUFFER_SIZE`. -/
def BUFFER_SIZE : ℕ := 4096

/-- `struct packet_fragment`. -/
structure PacketFragment where
  /-- The next fragment. -/
  next : Option ℕ
  /-- How many bytes belong to the packet. -/
  size : ℕ
  /-- Where in the buffer they start. -/
  data : ℕ
  /-- The bytes received. -/
  buffer : List Byte
deriving DecidableEq, Repr

/-- The memory of a client's fragments. -/
abbrev Fragments := Heap PacketFragment

namespace PacketFragment

/-- `count` bytes from `data` on. -/
def bytes (f : PacketFragment) (count : ℕ) : List Byte := (f.buffer.drop f.data).take count

/-- Read `count` bytes from `data` on. -/
def read (f : PacketFragment) (count : ℕ) : Except Bug (List Byte) :=
  if f.data + count ≤ f.buffer.length then .ok (f.bytes count)
  else .error (.outOfBounds (f.data + count))

/-- The bytes that belong to the packet. -/
def piece (f : PacketFragment) : List Byte := f.bytes f.size

theorem length_bytes {f : PacketFragment} {count : ℕ} (h : f.data + count ≤ f.buffer.length) :
    (f.bytes count).length = count := by
  rw [bytes, List.length_take, List.length_drop]
  omega

theorem take_bytes {f : PacketFragment} {m n : ℕ} (h : n ≤ m) :
    (f.bytes m).take n = f.bytes n := by
  rw [bytes, bytes, List.take_take, Nat.min_eq_left h]

theorem drop_bytes (f : PacketFragment) (m n : ℕ) :
    (f.bytes m).drop n = ({ f with data := f.data + n } : PacketFragment).bytes (m - n) := by
  rw [bytes, bytes, List.drop_take, List.drop_drop]

theorem read_eq {f : PacketFragment} {count : ℕ} (h : f.data + count ≤ f.buffer.length) :
    f.read count = .ok (f.bytes count) := if_pos h

end PacketFragment

/-- `packet_fragment_alloc`; `ok` says that `malloc` finds memory. -/
def packetFragmentAlloc (mem : Fragments) (ok : Bool) : Option ℕ × Fragments :=
  if ok then (some mem.next, mem.alloc ⟨none, 0, 0, []⟩) else (none, mem)

/-- The loop of `packet_fragments_free`. -/
def freeLoop : ℕ → Fragments → Option ℕ → Except Bug Fragments
  | _, mem, none => .ok mem
  | 0, _, some _ => .error .endless
  | n + 1, mem, some ptr =>
    match mem.get? ptr with
    | none => .error (.notAllocated ptr)
    | some fragment => freeLoop n (mem.free ptr) fragment.next

/-- `packet_fragments_free`. -/
def packetFragmentsFree (mem : Fragments) (fragment : Option ℕ) : Except Bug Fragments :=
  freeLoop mem.next mem fragment

/-- The first loop of `flatten_fragments`: the total size. -/
def sizeLoop (mem : Fragments) : ℕ → Option ℕ → ℕ → Except Bug ℕ
  | _, none, totalSize => .ok totalSize
  | 0, some _, _ => .error .endless
  | n + 1, some ptr, totalSize =>
    match mem.get? ptr with
    | none => .error (.notAllocated ptr)
    | some fragment => sizeLoop mem n fragment.next (totalSize + fragment.size)

/-- The second loop of `flatten_fragments`: copy each fragment, and free it unless it is the last
one, which `client->fragments` then points to. -/
def copyLoop : ℕ → Fragments → Option ℕ → Option ℕ → List Byte →
    Except Bug (List Byte × Fragments × Option ℕ)
  | _, mem, fragments, none, buffer => .ok (buffer, mem, fragments)
  | 0, _, _, some _, _ => .error .endless
  | n + 1, mem, fragments, some ptr, buffer =>
    match mem.get? ptr with
    | none => .error (.notAllocated ptr)
    | some fragment => do
      let bytes ← fragment.read fragment.size
      match fragment.next with
      | none => .ok (buffer ++ bytes, mem, fragments)
      | some nextFragment =>
        copyLoop n (mem.free ptr) (some nextFragment) (some nextFragment) (buffer ++ bytes)

/-- `flatten_fragments`: the flat buffer's bytes, or `none` when `malloc` fails, and what becomes of
the list.  The size of the buffer is the first loop's, and the second must fill it. -/
def flattenFragments (mem : Fragments) (fragments : Option ℕ) (mallocOk : Bool) :
    Except Bug (Option (List Byte) × Fragments × Option ℕ) := do
  let totalSize ← sizeLoop mem mem.next fragments 0
  if mallocOk then
    let (buffer, mem, fragments) ← copyLoop mem.next mem fragments fragments []
    if buffer.length ≤ totalSize then .ok (some buffer, mem, fragments)
    else .error (.outOfBounds buffer.length)
  else .ok (none, mem, fragments)

/-! ## On a linked list -/

/-- The pointer starts a linked list of fragments. -/
abbrev Chain (mem : Fragments) (fragment : Option ℕ) (l : List (ℕ × PacketFragment)) : Prop :=
  Linked PacketFragment.next mem fragment l

/-- The memory holds the nodes of the list and nothing else. -/
abbrev OwnsChain (mem : Fragments) (l : List (ℕ × PacketFragment)) : Prop :=
  mem.Owns (l.map Prod.fst)

/-- The packet's bytes that a list of fragments holds. -/
def pieces (l : List (ℕ × PacketFragment)) : List Byte := l.flatMap fun x ↦ x.2.piece

/-- The bytes of every fragment lie in its own buffer. -/
def InBuffer (l : List (ℕ × PacketFragment)) : Prop :=
  ∀ x ∈ l, x.2.data + x.2.size ≤ x.2.buffer.length

variable {mem : Fragments} {fragment : Option ℕ} {l : List (ℕ × PacketFragment)} {n ptr : ℕ}
  {f : PacketFragment}

theorem Chain.length_le (hl : Chain mem fragment l) (ho : OwnsChain mem l) :
    l.length ≤ mem.next :=
  Linked.length_le hl ho.nodup

/-- The rest of a list is a list after its head was freed. -/
theorem Chain.free_head (hl : Chain mem fragment ((ptr, f) :: l))
    (ho : OwnsChain mem ((ptr, f) :: l)) :
    Chain (mem.free ptr) f.next l ∧ OwnsChain (mem.free ptr) l := by
  rw [OwnsChain, List.map_cons] at ho
  refine ⟨hl.2.2.congr fun x hx ↦ Heap.get?_free_of_ne ?_, ho.free⟩
  intro hxp
  exact (List.nodup_cons.1 ho.nodup).1 (List.mem_map.2 ⟨x, hx, hxp⟩)

theorem freeLoop_eq (hl : Chain mem fragment l) (ho : OwnsChain mem l) (hn : l.length ≤ n) :
    ∃ mem', freeLoop n mem fragment = .ok mem' ∧ mem'.Owns [] ∧ mem'.next = mem.next ∧
      mem'.freed = mem.freed ++ l.map Prod.fst := by
  induction l generalizing n mem fragment with
  | nil =>
    obtain rfl := hl
    exact ⟨mem, by cases n <;> rfl, ho, rfl, (List.append_nil _).symm⟩
  | cons x l ih =>
    obtain ⟨ptr, f⟩ := x
    obtain ⟨n, rfl⟩ := Nat.exists_eq_add_of_le' (Nat.one_le_of_lt hn)
    obtain ⟨rfl, hg, -⟩ := Linked.cons_iff.1 hl
    obtain ⟨hl', ho'⟩ := hl.free_head ho
    obtain ⟨mem', heq, hown, hnext, hfreed⟩ := ih hl' ho' (Nat.le_of_succ_le_succ hn)
    refine ⟨mem', by rw [freeLoop, hg]; exact heq, hown, hnext, ?_⟩
    rw [hfreed, Heap.freed_free, List.append_assoc]
    rfl

/-- **`packet_fragments_free` frees the list's nodes, each once.** -/
theorem packetFragmentsFree_eq (hl : Chain mem fragment l) (ho : OwnsChain mem l) :
    ∃ mem', packetFragmentsFree mem fragment = .ok mem' ∧ mem'.Owns [] ∧ mem'.next = mem.next ∧
      mem'.freed = mem.freed ++ l.map Prod.fst :=
  freeLoop_eq hl ho (hl.length_le ho)

theorem sizeLoop_eq (hl : Chain mem fragment l) (hn : l.length ≤ n) (totalSize : ℕ) :
    sizeLoop mem n fragment totalSize = .ok (totalSize + (l.map fun x ↦ x.2.size).sum) := by
  induction l generalizing n fragment totalSize with
  | nil => obtain rfl := hl; cases n <;> rfl
  | cons x l ih =>
    obtain ⟨n, rfl⟩ := Nat.exists_eq_add_of_le' (Nat.one_le_of_lt hn)
    obtain ⟨rfl, hg, hl'⟩ := hl
    rw [sizeLoop, hg]
    simp only [ih hl' (Nat.le_of_succ_le_succ hn), List.map_cons, List.sum_cons, Nat.add_assoc]

theorem copyLoop_eq (hl : Chain mem fragment (l ++ [(ptr, f)]))
    (ho : OwnsChain mem (l ++ [(ptr, f)])) (hb : InBuffer (l ++ [(ptr, f)])) (hn : l.length < n)
    (buffer : List Byte) :
    ∃ mem', copyLoop n mem fragment fragment buffer
        = .ok (buffer ++ pieces (l ++ [(ptr, f)]), mem', some ptr) ∧
      mem'.get? ptr = some f ∧ mem'.Owns [ptr] ∧ mem'.freed = mem.freed ++ l.map Prod.fst := by
  induction l generalizing n mem fragment buffer with
  | nil =>
    obtain ⟨n, rfl⟩ := Nat.exists_eq_add_of_le' (Nat.one_le_of_lt hn)
    obtain ⟨rfl, hg, hf⟩ := Linked.cons_iff.1 hl
    refine ⟨mem, ?_, hg, ho, (List.append_nil _).symm⟩
    have hread : f.read f.size = .ok f.piece := PacketFragment.read_eq (hb (ptr, f) (by simp))
    simp only [copyLoop, hg, hread, ok_bind, Linked.nil_iff.1 hf]
    simp [pieces]
  | cons x l ih =>
    obtain ⟨q, g⟩ := x
    obtain ⟨n, rfl⟩ := Nat.exists_eq_add_of_le' (Nat.one_le_of_lt hn)
    obtain ⟨rfl, hg, -⟩ := Linked.cons_iff.1 hl
    obtain ⟨hl', ho'⟩ := Chain.free_head hl ho
    have hread : g.read g.size = .ok g.piece := PacketFragment.read_eq (hb (q, g) (by simp))
    obtain ⟨mem', heq, hget, hown, hfreed⟩ := ih hl' ho'
      (fun x hx ↦ hb x (List.mem_cons_of_mem _ hx)) (Nat.lt_of_succ_lt_succ hn) (buffer ++ g.piece)
    obtain ⟨r, hr⟩ : ∃ r, g.next = some r := by
      cases l with
      | nil => exact ⟨_, hl'.1⟩
      | cons y l => exact ⟨_, hl'.1⟩
    rw [hr] at heq
    refine ⟨mem', ?_, hget, hown, ?_⟩
    · simp only [copyLoop, hg, hread, ok_bind, hr, heq]
      simp [pieces]
    · rw [hfreed, Heap.freed_free, List.append_assoc]
      rfl

theorem length_pieces (hb : InBuffer l) :
    (pieces l).length = (l.map fun x ↦ x.2.size).sum := by
  rw [pieces, List.length_flatMap]
  congr 1
  exact List.map_congr_left fun x hx ↦ PacketFragment.length_bytes (hb x hx)

/-- **`flatten_fragments` copies the list's bytes in order**, frees the fragments before the last
and leaves that as the only one. -/
theorem flattenFragments_eq (hl : Chain mem fragment (l ++ [(ptr, f)]))
    (ho : OwnsChain mem (l ++ [(ptr, f)])) (hb : InBuffer (l ++ [(ptr, f)])) :
    ∃ mem', flattenFragments mem fragment true
        = .ok (some (pieces (l ++ [(ptr, f)])), mem', some ptr) ∧
      mem'.get? ptr = some f ∧ mem'.Owns [ptr] ∧ mem'.freed = mem.freed ++ l.map Prod.fst := by
  have hlen := hl.length_le ho
  obtain ⟨mem', heq, hget, hown⟩ := copyLoop_eq hl ho hb (by simpa [Nat.succ_le_iff] using hlen) []
  refine ⟨mem', ?_, hget, hown⟩
  rw [flattenFragments, sizeLoop_eq hl hlen, ok_bind, if_pos rfl, heq, ok_bind]
  simp [length_pieces hb]

/-- Without memory for the flat buffer the list stays as it is. -/
theorem flattenFragments_none (hl : Chain mem fragment l) (ho : OwnsChain mem l) :
    flattenFragments mem fragment false = .ok (none, mem, fragment) := by
  rw [flattenFragments, sizeLoop_eq hl (hl.length_le ho), ok_bind, if_neg (by simp)]

end Aesd
