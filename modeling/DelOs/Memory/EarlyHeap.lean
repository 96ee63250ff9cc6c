import DelOs.Memory.Kmalloc

/-!
# The early allocator

`src/kernel/memory/early_allocator`: the kernel takes the memory of its first tables from a block
behind its image and never gives it back.

* `EarlyHeap` — the cursors and the switch that turns the allocator off.
* `EarlyHeap.mallocInit`, `EarlyHeap.malloc`, `EarlyHeap.mallocAligned` — `kearly_malloc_init`,
  `kearly_malloc` and `kearly_malloc_aligned`; no result is a panic.
* `malloc_block`, `room_mallocInit`, `mallocAligned_page` — what they return lies between the cursors.
-/

namespace DelOs

/-- `kernel_early_heap_start`, `kernel_early_heap_end` and `kernel_early_heap_available`. -/
structure EarlyHeap where
  start : Nat
  stop : Nat
  available : Bool
  deriving DecidableEq, Repr

/-- `KEARLY_SIZE`. -/
def kearlySize : Nat := 1024 * 256

namespace EarlyHeap

/-- `kearly_malloc_init`; the linker gives the address `symbol` of `__kernel_early_heap_start`. -/
def mallocInit (h : EarlyHeap) (symbol : Nat) : Option EarlyHeap :=
  if h.available = false then none
  else if h.start ≠ 0 ∧ h.stop ≠ 0 then none
  else if u32 (symbol + kearlySize) ≤ symbol then none
  else some { h with start := symbol, stop := u32 (symbol + kearlySize) }

/-- `kearly_malloc`: the answer 0 is the null pointer. -/
def malloc (h : EarlyHeap) (bytes : Nat) : Option (Nat × EarlyHeap) :=
  if h.available = false ∨ h.start = 0 ∨ h.stop = 0 then none
  else if u32 (h.stop + (2 ^ 32 - h.start)) < alignUp bytes 8 then some (0, h)
  else if alignUp bytes 8 = 0 then some (0, h)
  else some (h.start, { h with start := u32 (h.start + alignUp bytes 8) })

/-- `kearly_malloc_aligned`: the answer 0 is the null pointer. -/
def mallocAligned (h : EarlyHeap) (bytes alignment : Nat) : Option (Nat × EarlyHeap) :=
  if h.available = false ∨ h.start = 0 ∨ h.stop = 0 then none
  else if bytes = 0 then some (0, h)
  else
    let aligned := alignUp h.start alignment
    let totalBytes := u32 (u32 (aligned + (2 ^ 32 - h.start)) + bytes)
    if u32 (h.stop + (2 ^ 32 - h.start)) < totalBytes then some (0, h)
    else some (aligned, { h with start := u32 (aligned + bytes) })

/-- The cursors are in order. -/
def Ordered (h : EarlyHeap) : Prop := h.start ≤ h.stop ∧ h.stop < 2 ^ 32

variable {h h' : EarlyHeap}

/-- A block is not empty and there was room for it. -/
theorem malloc_block {bytes p : Nat} (hm : h.malloc bytes = some (p, h')) (hp : p ≠ 0) :
    alignUp bytes 8 ≠ 0 ∧ alignUp bytes 8 ≤ u32 (h.stop + (2 ^ 32 - h.start)) := by
  unfold malloc at hm
  split_ifs at hm with hbad hroom hzero
  · obtain ⟨rfl, -⟩ := Prod.mk.inj (Option.some.inj hm)
    exact absurd rfl hp
  · obtain ⟨rfl, -⟩ := Prod.mk.inj (Option.some.inj hm)
    exact absurd rfl hp
  · exact ⟨hzero, not_lt.1 hroom⟩

/-- The room that `kearly_malloc_init` leaves. -/
theorem room_mallocInit {symbol : Nat} (hinit : h.mallocInit symbol = some h')
    (hsymbol : symbol < 2 ^ 32) : u32 (h'.stop + (2 ^ 32 - h'.start)) = kearlySize := by
  unfold mallocInit at hinit
  split_ifs at hinit
  obtain rfl := Option.some.inj hinit
  simp only [u32, kearlySize]
  omega

/-- A page of the early heap lies between the cursors, and the lower one moves past it. -/
theorem mallocAligned_page (ho : h.Ordered) {p : Nat}
    (hm : h.mallocAligned 4096 4096 = some (p, h')) (hp : p ≠ 0) :
    p % 4096 = 0 ∧ h.start ≤ p ∧ p + 4096 ≤ h.stop ∧ h'.start = p + 4096 ∧ h'.stop = h.stop := by
  obtain ⟨hle, hlt⟩ := ho
  unfold mallocAligned alignUp u32 at hm
  by_cases hbad : h.available = false ∨ h.start = 0 ∨ h.stop = 0
  · rw [if_pos hbad] at hm
    cases hm
  rw [if_neg hbad, if_neg (by decide)] at hm
  dsimp only at hm
  split_ifs at hm with hroom
  · obtain ⟨rfl, -⟩ := Prod.mk.inj (Option.some.inj hm)
    exact absurd rfl hp
  · obtain ⟨rfl, rfl⟩ := Prod.mk.inj (Option.some.inj hm)
    refine ⟨Nat.mul_mod_left _ _, ?_, ?_, ?_, rfl⟩
    · omega
    · omega
    · show _ % 2 ^ 32 = _
      omega

theorem Ordered.mallocAligned_page (ho : h.Ordered) {p : Nat}
    (hm : h.mallocAligned 4096 4096 = some (p, h')) (hp : p ≠ 0) : h'.Ordered := by
  obtain ⟨-, -, hroom, hstart, hstop⟩ := EarlyHeap.mallocAligned_page ho hm hp
  have hlt := ho.2
  exact ⟨by omega, by omega⟩

end EarlyHeap

end DelOs
