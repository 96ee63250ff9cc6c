import DelOs.Memory.HeapTiling

/-!
# What `kfree` lets through

`kfree` tests the range of its pointer and the word twelve bytes before it, and takes that word for
the flag of a header whatever it is.

* `Heap.kfreeReads` — the addresses that `kfree` reads.
* `Rejects` — the answer is `KO_FALSE`, nothing is written, and nothing outside the heap is read.
* `rejects_freed` — a pointer that has been freed is rejected.
* `rejects_iff` — **which pointers are.**
-/

namespace DelOs

open ByteMem FirstFit Transition

variable {σ : Type}

/-- The addresses of `header->_free`, where `kfree` gets that far. -/
def Heap.kfreeReads (h : Heap σ) (ptr : Nat) : List Nat :=
  if ptr = 0 ∨ ptr < h.kernelHeapBase ∨ h.kernelHeapBrk < ptr then []
  else (List.range 4).map fun i => ptr - kmallocHeaderSize + i

/-- `kfree` returns `KO_FALSE`, leaves the memory as it is, and reads between the base and the break
only. -/
structure Rejects (h : Heap σ) (ptr : Nat) : Prop where
  refused : (h.kfree ptr).1 = false
  unchanged : (h.kfree ptr).2.mem = h.mem
  reads : ∀ x ∈ h.kfreeReads ptr, h.kernelHeapBase ≤ x ∧ x < h.kernelHeapBrk

/-- A pointer out of range is rejected at once. -/
theorem rejects_of_range {h : Heap σ} {ptr : Nat}
    (hr : ptr = 0 ∨ ptr < h.kernelHeapBase ∨ h.kernelHeapBrk < ptr) : Rejects h ptr := by
  have hcall : h.kfree ptr = (false, h) := if_pos hr
  have hreads : h.kfreeReads ptr = [] := if_pos hr
  refine ⟨by rw [hcall], by rw [hcall], fun x hx => ?_⟩
  rw [hreads] at hx
  cases hx

/-- A pointer in range is rejected if it has room for a header before it, and the word there is
`OK_TRUE`. -/
theorem rejects_in_range {h : Heap σ} {ptr : Nat} (hbase : kmallocHeaderSize ≤ h.kernelHeapBase)
    (hr : ¬(ptr = 0 ∨ ptr < h.kernelHeapBase ∨ h.kernelHeapBrk < ptr)) :
    Rejects h ptr ↔ h.kernelHeapBase + kmallocHeaderSize ≤ ptr ∧
      headerFree h.mem (ptr - kmallocHeaderSize) = 1 := by
  have hreads : h.kfreeReads ptr = (List.range 4).map fun i => ptr - kmallocHeaderSize + i :=
    if_neg hr
  simp only [kmallocHeaderSize] at *
  constructor
  · intro hrej
    have hfirst := hrej.reads (ptr - 12) (by
      rw [hreads]
      exact List.mem_map.2 ⟨0, by decide, rfl⟩)
    refine ⟨by omega, ?_⟩
    by_contra hflag
    have hcall : (h.kfree ptr).1 = true := by simp [Heap.kfree, hr, kmallocHeaderSize, hflag]
    rw [hrej.refused] at hcall
    cases hcall
  · rintro ⟨hroom, hflag⟩
    have hcall : h.kfree ptr = (false, h) := by simp [Heap.kfree, hr, kmallocHeaderSize, hflag]
    refine ⟨by rw [hcall], by rw [hcall], fun x hx => ?_⟩
    rw [hreads] at hx
    obtain ⟨i, hi, rfl⟩ := List.mem_map.1 hx
    have hi : i < 4 := List.mem_range.1 hi
    omega

variable {s : HeapRun σ}

/-- The heap of a run starts far from address 0. -/
theorem HeapInv.base_eq (hi : HeapInv s) : s.heap.kernelHeapBase = kernelHeapStart := by
  obtain ⟨bs, hr, -⟩ := hi
  exact hr.base

/-- A pointer that has been freed is rejected. -/
theorem rejects_freed {h : Heap σ} {bs : Blocks Unit} (hr : Represents h bs) {p : Nat}
    {b : Block Unit} (hp : get bs p = some b) (hfree : b.free = true) :
    Rejects h (payload bs p) := by
  have hbounds := payload_bounds hp
  have hflag := (hr.headers.get hp).1
  rw [hfree] at hflag
  refine (rejects_in_range ?_ ?_).2 ⟨?_, hflag⟩
  · rw [hr.base]
    decide
  · rw [hr.base, hr.brk]
    omega
  · rw [hr.base]
    exact hbounds.1

/-- **`kfree` rejects a pointer exactly if it is out of range, or has room for a header before it and
the word twelve bytes before it is `OK_TRUE`**, whatever the pointer and the payloads are. -/
theorem rejects_iff (hi : HeapInv s) (ptr : Nat) :
    Rejects s.heap ptr ↔
      (ptr = 0 ∨ ptr < s.heap.kernelHeapBase ∨ s.heap.kernelHeapBrk < ptr) ∨
        (s.heap.kernelHeapBase + kmallocHeaderSize ≤ ptr ∧
          headerFree s.heap.mem (ptr - kmallocHeaderSize) = 1) := by
  by_cases hr : ptr = 0 ∨ ptr < s.heap.kernelHeapBase ∨ s.heap.kernelHeapBrk < ptr
  · exact iff_of_true (rejects_of_range hr) (Or.inl hr)
  · have hbase : kmallocHeaderSize ≤ s.heap.kernelHeapBase := by
      rw [hi.base_eq]
      decide
    rw [rejects_in_range hbase hr]
    exact ⟨Or.inr, fun h => h.resolve_left hr⟩

/-- The null pointer is rejected. -/
theorem rejects_null : Rejects usedHeap.heap 0 :=
  (rejects_iff heapInv_usedHeap 0).2 (Or.inl (Or.inl rfl))

/-- **A pointer into a payload is not**: the word before it is 0, and `kfree` writes there. -/
theorem kfree_accepts_inner : 0xD0000020 ∉ usedHeap.pointers ∧ ¬Rejects usedHeap.heap 0xD0000020 := by
  refine ⟨by decide +kernel, fun h => ?_⟩
  have hcall : (usedHeap.heap.kfree 0xD0000020).1 = true := by decide +kernel
  rw [h.refused] at hcall
  cases hcall

end DelOs
