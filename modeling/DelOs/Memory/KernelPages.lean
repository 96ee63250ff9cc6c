import DelOs.Memory.TableClearing

/-!
# The page layers of the kernel

The page functions that the heap calls, as the kernel has them.

* `KernelPages` — the page tables and the bitmap as a page source.
* `kmallocInit_run` — `kmalloc_init` is an allocation and a mapping.
* `cleared_elsewhere` — a machine on which the next table is not cleared at its frame.
-/

namespace DelOs

open Transition

/-- The page tables with `kvmm_map_page` as it is coded. -/
structure KernelPages where
  vmm : Vmm

instance : PageSource KernelPages where
  kpmmAllocPages s pageCount := (s.vmm.kpmmAllocPages pageCount).map fun r => (r.1, ⟨r.2⟩)
  kvmmMapPage s vaddr paddr flags :=
    (s.vmm.kvmmMapPage vaddr paddr flags).map fun r => (r.1, ⟨r.2⟩)
  kvmmMapRange s vaddr paddr flags amount :=
    (s.vmm.kvmmMapRange vaddr paddr flags amount).map fun r => (r.1, ⟨r.2⟩)

/-- `kmalloc_init` allocates a frame and maps it at the start of the heap. -/
theorem kmallocInit_run {mem : ByteMem.Mem} {s : Vmm} {h : Heap KernelPages}
    (hinit : kmallocInit mem ⟨s⟩ = some h) :
    ∃ frame, run Vmm.frameStep s
      [.alloc 1, .map kernelHeapStart frame kvmmFlagPresentRw] = some h.pages.vmm := by
  obtain ⟨frame, source₁, source₂, halloc, -, hmap, rfl⟩ := kmallocInit_some hinit
  obtain ⟨⟨phys, s₁⟩, hphys, heq⟩ := Option.map_eq_some_iff.1 halloc
  obtain ⟨rfl, rfl⟩ := Prod.mk.inj heq
  obtain ⟨⟨ok, t⟩, htable, heq⟩ := Option.map_eq_some_iff.1 hmap
  obtain ⟨rfl, rfl⟩ := Prod.mk.inj heq
  refine ⟨phys, run_cons_some.2 ⟨s₁, ?_, run_cons_some.2 ⟨t, ?_, rfl⟩⟩⟩
  · exact congrArg (Option.map Prod.snd) hphys
  · exact congrArg (Option.map Prod.snd) htable

/-! ## A table behind the first 4 MiB -/

/-- A machine with two free pages below 4 MiB and eight behind. -/
def tornMachine : Vmm :=
  initDir (List.replicate 56 0xFF#8 ++ ([0xFC#8] ++ List.replicate 71 0xFF#8 ++ [0x00#8])) 10

theorem firstDirectory_tornMachine : FirstDirectory tornMachine :=
  firstDirectory_initDir _ 10 (by decide)

/-- Once `kmalloc_init` has taken the two, the next table lies at `0x400000`, and nothing is mapped
at `0xC0400000`. -/
theorem cleared_elsewhere : FirstDirectory tornMachine ∧
    ∃ h, kmallocInit (fun _ => 0) (⟨tornMachine⟩ : KernelPages) = some h ∧
      ¬ClearsOwnFrame h.pages.vmm (.map 0xE0000000 0x1C0000 kvmmFlagPresentRw) := by
  have hinit : (kmallocInit (fun _ => 0) (⟨tornMachine⟩ : KernelPages)).map (fun h =>
      ((h.pages.vmm.load recursivePd (pdeIndex 0xE0000000)).map PageEntry.present,
        (h.pages.vmm.pmm.allocPages 1).map Prod.fst,
        h.pages.vmm.walk (physToVirt 1024))) = some (some false, some 0x400000, none) := by
    decide +kernel
  refine ⟨firstDirectory_tornMachine, ?_⟩
  obtain ⟨h, hh, hres⟩ := Option.map_eq_some_iff.1 hinit
  obtain ⟨hload, hres⟩ := Prod.mk.inj hres
  obtain ⟨halloc, hwalk⟩ := Prod.mk.inj hres
  obtain ⟨e, he, habsent⟩ := Option.map_eq_some_iff.1 hload
  obtain ⟨⟨phys, pmm⟩, hpmm, rfl⟩ := Option.map_eq_some_iff.1 halloc
  refine ⟨h, hh, fun hclear => ?_⟩
  have hcleared := hclear 0x400000 ⟨by decide, ⟨e, he, habsent⟩, ⟨pmm, hpmm⟩, by decide⟩
  have hframe : 0x400000 / kpmmPageSize = 1024 := by decide
  rw [hframe, hwalk] at hcleared
  cases hcleared

end DelOs
