import Aesd.Lib.Machine
import Aesd.Driver.Ownership

/-!
# The kernel module

The driver is loaded and unloaded any number of times, by `aesd_init_module` and
`aesd_cleanup_module`, and used in between through files that are opened and released.  The kernel
does not unload it while a file is open.

`Kernel.loads` says what holds at any time of this: while the module is loaded the device is in
order, and starts empty each time; while it is not, no device number, no character device and no
memory is left of it.
-/

set_option autoImplicit false

namespace Aesd

/-- The kernel, as far as the module goes. -/
structure Kernel where
  /-- The device, the memory the module ever allocated, and the positions of the open files. -/
  node : Node
  /-- `aesd_major`. -/
  aesdMajor : ℕ
  /-- The regions of device numbers that were allocated. -/
  regions : Heap Unit
  /-- The character device is there. -/
  cdev : Bool
  /-- The module is loaded. -/
  loaded : Bool
  /-- The open files. -/
  files : List ℕ
  /-- What the module did that must not happen. -/
  oops : Option Bug

/-- What happens to the module, and what the kernel answers. -/
inductive KernelEvent
  /-- `insmod`: `alloc_chrdev_region` and `cdev_add` work or not. -/
  | insmod (regionOk cdevOk : Bool)
  /-- A file is opened. -/
  | open (file : ℕ)
  /-- A call on an open file. -/
  | call (file : ℕ) (c : Call)
  /-- A file is released. -/
  | release (file : ℕ)
  /-- `rmmod`. -/
  | rmmod
deriving DecidableEq, Repr

/-- The call is one on this file. -/
def Call.on (file : ℕ) : Call → Bool
  | .open _ => false
  | .read f _ => f == file
  | .pread _ _ => true
  | .write _ => true
  | .ioctl f _ => f == file
  | .llseek f _ => f == file

namespace Kernel

/-- Nothing was loaded yet. -/
def boot : Kernel := ⟨.init, 0, .empty, false, false, [], none⟩

/-- `aesd_init_module`. -/
def aesdInitModule (k : Kernel) (regionOk cdevOk : Bool) : Kernel :=
  if !regionOk then { k with aesdMajor := 0 }
  else
    let major := k.regions.next
    let k := { k with
      aesdMajor := major
      regions := k.regions.alloc ()
      node := { k.node with driver := { Driver.aesdInitModule with mem := k.node.driver.mem } } }
    if cdevOk then { k with cdev := true, loaded := true }
    else { k with regions := k.regions.free major }

/-- `aesd_cleanup_module`. -/
def aesdCleanupModule (k : Kernel) : Except Bug Kernel := do
  let driver ← k.node.driver.aesdCleanupModule
  .ok { k with
    node := { k.node with driver := driver }
    regions := k.regions.free k.aesdMajor
    cdev := false
    loaded := false }

/-- A result, or the bug it came to. -/
def settle (k : Kernel) : Except Bug Kernel → Kernel
  | .ok k' => k'
  | .error bug => { k with oops := some bug }

variable [Platform]

/-- A call of the device. -/
def serve (k : Kernel) (c : Call) : Except Bug Kernel := do
  let (_, node) ← k.node.call c
  .ok { k with node := node }

/-- What happens to the module. -/
def step (k : Kernel) (e : KernelEvent) : Option Kernel :=
  if k.oops = none then
    match e with
    | .insmod regionOk cdevOk =>
      if k.loaded then none else some (k.aesdInitModule regionOk cdevOk)
    | .open file =>
      if k.cdev ∧ file ∉ k.files then
        some (k.settle ({ k with files := file :: k.files }.serve (.open file)))
      else none
    | .call file c =>
      if file ∈ k.files ∧ c.on file then some (k.settle (k.serve c)) else none
    | .release file =>
      if file ∈ k.files then some { k with files := k.files.erase file } else none
    | .rmmod =>
      if k.loaded ∧ k.files = [] then some (k.settle k.aesdCleanupModule) else none
  else none

/-- **What holds of the module at any time.** -/
structure Inv (k : Kernel) : Prop where
  /-- It did nothing that must not happen. -/
  oops : k.oops = none
  /-- While it is loaded the device is in order, and there is one region, and the character
  device. -/
  loaded : k.loaded = true → (∃ log, k.node.driver.Represents log) ∧
    k.regions.Owns [k.aesdMajor] ∧ k.cdev = true
  /-- While it is not loaded nothing is left of it. -/
  unloaded : k.loaded = false → k.node.driver.mem.Owns [] ∧ k.regions.Owns [] ∧ k.cdev = false ∧
    k.files = []

variable {k t : Kernel} {e : KernelEvent}

/-- The device that is made in memory of which nothing is left. -/
theorem represents_fresh {mem : Memory} (h : mem.Owns []) :
    Driver.Represents { Driver.aesdInitModule with mem := mem } .empty where
  toStores := Driver.represents_init.toStores.frame (fun _ hp ↦ absurd hp List.not_mem_nil) h
  unterminated := Driver.represents_init.unterminated

theorem inv_boot : boot.Inv where
  oops := rfl
  loaded h := by cases h
  unloaded _ := ⟨Heap.owns_empty, Heap.owns_empty, rfl, rfl⟩

theorem Inv.insmod (h : k.Inv) (hloaded : k.loaded = false) (regionOk cdevOk : Bool) :
    (k.aesdInitModule regionOk cdevOk).Inv ∧
      (k.aesdInitModule regionOk cdevOk).loaded = (regionOk && cdevOk) := by
  obtain ⟨hmem, hregions, hcdev, hfiles⟩ := h.unloaded hloaded
  cases regionOk with
  | false => exact ⟨⟨h.oops, fun hl ↦ absurd (hl.symm.trans hloaded) (by simp),
      fun _ ↦ ⟨hmem, hregions, hcdev, hfiles⟩⟩, hloaded⟩
  | true =>
    have halloc := hregions.alloc ()
    cases cdevOk with
    | true => exact ⟨⟨h.oops, fun _ ↦ ⟨⟨_, represents_fresh hmem⟩, halloc, rfl⟩,
        fun hl ↦ by cases hl⟩, rfl⟩
    | false => exact ⟨⟨h.oops, fun hl ↦ absurd (hl.symm.trans hloaded) (by simp),
        fun _ ↦ ⟨hmem, halloc.free, hcdev, hfiles⟩⟩, hloaded⟩

theorem Inv.loaded_of_cdev (h : k.Inv) (hcdev : k.cdev = true) : k.loaded = true := by
  by_contra hl
  rw [(h.unloaded (by simpa using hl)).2.2.1] at hcdev
  cases hcdev

theorem Inv.loaded_of_file {file : ℕ} (h : k.Inv) (hfile : file ∈ k.files) : k.loaded = true := by
  by_contra hl
  rw [(h.unloaded (by simpa using hl)).2.2.2] at hfile
  cases hfile

/-- A call while the module is loaded. -/
theorem Inv.serve (h : k.Inv) (hloaded : k.loaded = true) (c : Call) :
    ∃ k', k.serve c = .ok k' ∧ k'.Inv ∧ k'.files = k.files ∧ k'.loaded = k.loaded := by
  obtain ⟨⟨log, hrep⟩, hregions, hcdev⟩ := h.loaded hloaded
  obtain ⟨r, node, log', hcall, hrep'⟩ := Node.call_represents hrep c
  refine ⟨{ k with node := node }, by rw [Kernel.serve, hcall]; rfl, ?_, rfl, rfl⟩
  exact ⟨h.oops, fun _ ↦ ⟨⟨log', hrep'⟩, hregions, hcdev⟩,
    fun hl ↦ absurd (hl.symm.trans hloaded) (by simp)⟩

/-- **Every step keeps it**, and none fails. -/
theorem Inv.step (h : k.Inv) (hs : k.step e = some t) : t.Inv := by
  unfold Kernel.step at hs
  rw [if_pos h.oops] at hs
  cases e with
  | insmod regionOk cdevOk =>
    simp only [Option.ite_none_left_eq_some, Option.some_inj] at hs
    obtain ⟨hloaded, rfl⟩ := hs
    exact (h.insmod (by simpa using hloaded) regionOk cdevOk).1
  | «open» file =>
    simp only [Option.ite_none_right_eq_some, Option.some_inj] at hs
    obtain ⟨⟨hcdev, -⟩, rfl⟩ := hs
    have hloaded := h.loaded_of_cdev hcdev
    have h' : Inv { k with files := file :: k.files } :=
      ⟨h.oops, h.loaded, fun hl ↦ absurd (hloaded.symm.trans hl) (by simp)⟩
    obtain ⟨k', heq, hinv, -⟩ := h'.serve hloaded (.open file)
    rw [heq]
    exact hinv
  | call file c =>
    simp only [Option.ite_none_right_eq_some, Option.some_inj] at hs
    obtain ⟨⟨hfile, -⟩, rfl⟩ := hs
    obtain ⟨k', heq, hinv, -⟩ := h.serve (h.loaded_of_file hfile) c
    rw [heq]
    exact hinv
  | release file =>
    simp only [Option.ite_none_right_eq_some, Option.some_inj] at hs
    obtain ⟨hfile, rfl⟩ := hs
    have hloaded := h.loaded_of_file hfile
    exact ⟨h.oops, h.loaded, fun hl ↦ absurd (hloaded.symm.trans hl) (by simp)⟩
  | rmmod =>
    simp only [Option.ite_none_right_eq_some, Option.some_inj] at hs
    obtain ⟨⟨hloaded, hfiles⟩, rfl⟩ := hs
    obtain ⟨⟨log, hrep⟩, hregions, -⟩ := h.loaded hloaded
    obtain ⟨d, hd, hmem⟩ := Driver.aesdCleanupModule_owns hrep.toStores
    rw [aesdCleanupModule, hd, ok_bind]
    exact ⟨h.oops, fun hl ↦ absurd hl (by simp [settle]),
      fun _ ↦ ⟨hmem, hregions.free, rfl, hfiles⟩⟩

/-- **Loading and unloading.**  In whatever order the module is loaded, used, released and unloaded,
and whatever the kernel refuses it: it does nothing that must not happen.  While it is loaded the
device is in order, and it has one region of device numbers.  While it is not loaded, because it was
unloaded or because loading failed, it has no character device, every region it got was given back
once, and every block it allocated was freed once.  Loading works just when the kernel gives it
both, and the device is empty then, whatever was in it before. -/
theorem loads (h : Machine.Reachable step Machine.Always boot k) :
    k.oops = none ∧
    (k.loaded = true → (∃ log, k.node.driver.Represents log) ∧ k.regions.Owns [k.aesdMajor] ∧
      k.cdev = true) ∧
    (k.loaded = false → k.cdev = false ∧ k.files = [] ∧
      (∀ region < k.regions.next, k.regions.freed.count region = 1) ∧
      ∀ p < k.node.driver.mem.next, k.node.driver.mem.freed.count p = 1) ∧
    ∀ regionOk cdevOk t, k.step (.insmod regionOk cdevOk) = some t →
      t.loaded = (regionOk && cdevOk) ∧ (t.loaded = true → t.node.driver.commands = [] ∧
        t.node.driver.dev.tempEntry = .null) := by
  have hinv := h.invariant (P := Inv) (fun k e t hk _ hs ↦ hk.step hs) inv_boot
  refine ⟨hinv.oops, hinv.loaded, fun hl ↦ ?_, fun regionOk cdevOk t hs ↦ ?_⟩
  · obtain ⟨hmem, hregions, hcdev, hfiles⟩ := hinv.unloaded hl
    exact ⟨hcdev, hfiles, fun r hr ↦ hregions.count_freed hr, fun p hp ↦ hmem.count_freed hp⟩
  · unfold step at hs
    rw [if_pos hinv.oops] at hs
    simp only [Option.ite_none_left_eq_some, Option.some_inj] at hs
    obtain ⟨hl, rfl⟩ := hs
    have hloaded := (hinv.insmod (by simpa using hl) regionOk cdevOk).2
    refine ⟨hloaded, fun ht ↦ ?_⟩
    rw [hloaded, Bool.and_eq_true] at ht
    obtain ⟨rfl, rfl⟩ := ht
    exact ⟨rfl, rfl⟩

/-- The module is loaded at the second attempt, used and unloaded. -/
def secondAttempt : List KernelEvent :=
  [.insmod true false, .insmod true true, .open 0, .call 0 (.write (.plain [97, 10])),
    .call 0 (.write (.plain [98])), .release 0, .rmmod]

end Kernel

attribute [local instance] linux64 in
theorem Kernel.loads_second_attempt : ∃ k : Kernel,
    k.regions.next = 2 ∧ k.node.driver.mem.next = 2 ∧
    (∀ region < k.regions.next, k.regions.freed.count region = 1) ∧
    ∀ p < k.node.driver.mem.next, k.node.driver.mem.freed.count p = 1 := by
  have hend : (Machine.exec Kernel.step Kernel.boot Kernel.secondAttempt).map
      (fun k ↦ (k.loaded, k.regions.next, k.node.driver.mem.next)) = some (false, 2, 2) := by
    decide +kernel
  obtain ⟨k, hk, heq⟩ := Option.map_eq_some_iff.1 hend
  simp only [Prod.mk.injEq] at heq
  obtain ⟨-, -, hunloaded, -⟩ := Kernel.loads ⟨_, Machine.run_of_exec hk⟩
  obtain ⟨-, -, hregions, hmem⟩ := hunloaded heq.1
  exact ⟨k, heq.2.1, heq.2.2, hregions, hmem⟩

end Aesd
