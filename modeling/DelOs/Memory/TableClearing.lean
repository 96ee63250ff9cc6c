import DelOs.Lib.Transition
import DelOs.Memory.FreshTable
import DelOs.Memory.VmmInit

/-!
# Where new page tables are cleared

`kvmm_map_page` clears a new table at `PHYS_TO_VIRT` of its frame.  The first 4 MiB are mapped there
from the start, and stay so; nothing maps the frames behind them.

* `FrameCall`, `Vmm.frameStep` — allocations of frames and mappings, with any arguments.
* `NewTable`, `ClearsOwnFrame` — a mapping makes a table, and clears its frame.
* `LinearWindow` — what the accesses at the first 4 MiB need.
* `LinearWindow.store` — **no mapping writes an entry that is present.**
* `clears_own_frame_iff` — **a new table is cleared exactly if its frame lies below 4 MiB.**
-/

namespace DelOs

open FlagRuns Transition TwoLevel

/-! ## Runs -/

/-- A call of `kpmm_alloc_pages` or `kvmm_map_page`. -/
inductive FrameCall where
  | alloc (pageCount : Nat)
  | map (vaddr paddr flags : Nat)
  deriving DecidableEq, Repr

/-- One call. -/
def Vmm.frameStep (s : Vmm) : FrameCall → Option Vmm
  | .alloc pageCount => (s.kpmmAllocPages pageCount).map Prod.snd
  | .map vaddr paddr flags => (s.kvmmMapPage vaddr paddr flags).map Prod.snd

/-- The mapping makes a page table, at the physical address `phys`. -/
structure NewTable (s : Vmm) (vaddr paddr phys : Nat) : Prop where
  aligned : vaddr % 4096 = 0 ∧ paddr % 4096 = 0
  absent : ∃ e, s.load recursivePd (pdeIndex vaddr) = some e ∧ e.present = false
  taken : ∃ pmm, s.pmm.allocPages 1 = some (phys, pmm)
  ne_zero : phys ≠ 0

/-- A new table is cleared at an address that is mapped to its frame. -/
def ClearsOwnFrame (s : Vmm) : FrameCall → Prop
  | .alloc _ => True
  | .map vaddr paddr _ => ∀ phys, NewTable s vaddr paddr phys →
      s.walk (physToVirt (phys / kpmmPageSize)) = some (phys / kpmmPageSize)

/-- A new table lies below 4 MiB. -/
def LowTable (s : Vmm) : FrameCall → Prop
  | .alloc _ => True
  | .map vaddr paddr _ => ∀ phys, NewTable s vaddr paddr phys → phys < 0x400000

/-! ## The first 4 MiB -/

/-- The directory maps itself and the first 4 MiB at `PHYS_TO_VIRT`, and the two frames in which it
says so are not free. -/
structure LinearWindow (s : Vmm) : Prop where
  self : SelfMapped s
  present : (s.frames s.cr3 768).present = true
  image : ∀ i < 1024, (s.frames (s.frames s.cr3 768).frame i).present = true ∧
    (s.frames (s.frames s.cr3 768).frame i).frame = i
  below : s.pmm.Below4G
  dir_used : s.pmm.flags[s.cr3]? ≠ some true
  table_used : s.pmm.flags[(s.frames s.cr3 768).frame]? ≠ some true

variable {s t : Vmm}

theorem BuiltByInit.linearWindow (hs : BuiltByInit s) : LinearWindow s := by
  refine ⟨hs.dirOk.self, hs.present, fun i hi => ?_, hs.dirOk.below, hs.dirOk.dir_used,
    hs.dirOk.table_used 768 (by decide) hs.present⟩
  obtain ⟨attrs, hattrs⟩ := hs.image i hi
  rw [hattrs]
  exact ⟨rfl, rfl⟩

namespace LinearWindow

/-- Below 4 MiB a frame is mapped at `PHYS_TO_VIRT`. -/
theorem walk (hs : LinearWindow s) {f : Nat} (hf : f < 1024) : s.walk (physToVirt f) = some f := by
  obtain ⟨hpresent, hframe⟩ := hs.image f hf
  have hpage : physToVirt f = 768 * 1024 + f := by
    unfold physToVirt
    omega
  rw [hpage, walk_page s 768 hf, if_pos ⟨hs.present, hpresent⟩, hframe]

/-- Changing what is not present. -/
theorem put (hs : LinearWindow s) {x j : Nat} (e : PageEntry)
    (habsent : (s.frames x j).present = false) :
    LinearWindow { s with frames := TwoLevel.put s.frames x j e } := by
  have hkeep : ∀ y i, (s.frames y i).present = true →
      TwoLevel.put s.frames x j e y i = s.frames y i := by
    intro y i hp
    refine if_neg ?_
    rintro ⟨rfl, rfl⟩
    rw [habsent] at hp
    cases hp
  have hself := hkeep _ _ hs.self.present
  have hslot := hkeep _ _ hs.present
  refine ⟨⟨?_, ?_⟩, ?_, fun i hi => ?_, hs.below, hs.dir_used, ?_⟩
  · exact (congrArg PageEntry.present hself).trans hs.self.present
  · exact (congrArg PageEntry.frame hself).trans hs.self.frame
  · exact (congrArg PageEntry.present hslot).trans hs.present
  · have hentry := hkeep _ _ (hs.image i hi).1
    show (TwoLevel.put s.frames x j e (TwoLevel.put s.frames x j e s.cr3 768).frame i).present = _ ∧
      (TwoLevel.put s.frames x j e (TwoLevel.put s.frames x j e s.cr3 768).frame i).frame = _
    rw [hslot, hentry]
    exact hs.image i hi
  · show s.pmm.flags[(TwoLevel.put s.frames x j e s.cr3 768).frame]? ≠ some true
    rw [hslot]
    exact hs.table_used

/-- **A store to an entry that is not present.** -/
theorem store (hs : LinearWindow s) {page i : Nat} {e e' : PageEntry}
    (hload : s.load page i = some e) (habsent : e.present = false)
    (hstore : s.store page i e' = some t) : LinearWindow t := by
  obtain ⟨f, hf, rfl⟩ := Option.map_eq_some_iff.1 hload
  obtain ⟨g, hg, rfl⟩ := Option.map_eq_some_iff.1 hstore
  rw [hf] at hg
  cases hg
  exact hs.put e' habsent

/-- Taking frames. -/
theorem allocPages (hs : LinearWindow s) {n phys : Nat} {pmm : Pmm}
    (h : s.pmm.allocPages n = some (phys, pmm)) : LinearWindow { s with pmm := pmm } := by
  obtain ⟨hbelow, hkeep, -⟩ := Pmm.allocPages_takes hs.below h
  exact ⟨⟨hs.self.present, hs.self.frame⟩, hs.present, hs.image, hbelow,
    (hkeep _ hs.dir_used).trans_ne hs.dir_used,
    (hkeep _ hs.table_used).trans_ne hs.table_used⟩

/-- Clearing another frame. -/
theorem clearFrame (hs : LinearWindow s) {f : Nat} (hdir : s.cr3 ≠ f)
    (htable : (s.frames s.cr3 768).frame ≠ f) : LinearWindow (s.clearFrame f) := by
  have hkeep : ∀ i, (s.clearFrame f).frames s.cr3 i = s.frames s.cr3 i :=
    fun i => wipe_of_ne i _ hdir
  have hentry : ∀ i, (s.clearFrame f).frames (s.frames s.cr3 768).frame i =
      s.frames (s.frames s.cr3 768).frame i := fun i => wipe_of_ne i _ htable
  refine ⟨⟨?_, ?_⟩, ?_, fun i hi => ?_, hs.below, hs.dir_used, ?_⟩
  · exact (congrArg PageEntry.present (hkeep 1023)).trans hs.self.present
  · exact (congrArg PageEntry.frame (hkeep 1023)).trans hs.self.frame
  · exact (congrArg PageEntry.present (hkeep 768)).trans hs.present
  · show ((s.clearFrame f).frames ((s.clearFrame f).frames s.cr3 768).frame i).present = _ ∧
      ((s.clearFrame f).frames ((s.clearFrame f).frames s.cr3 768).frame i).frame = _
    rw [hkeep, hentry]
    exact hs.image i hi
  · show s.pmm.flags[((s.clearFrame f).frames s.cr3 768).frame]? ≠ some true
    rw [hkeep]
    exact hs.table_used

/-- The frame of a new table was free, so that it is none of the two. -/
theorem newTable (hs : LinearWindow s) {vaddr paddr phys : Nat} (hn : NewTable s vaddr paddr phys) :
    ∃ f, phys = f * kpmmPageSize ∧ s.pmm.flags[f]? = some true ∧ s.cr3 ≠ f ∧
      (s.frames s.cr3 768).frame ≠ f := by
  obtain ⟨pmm, halloc⟩ := hn.taken
  obtain ⟨f, hphys, -, -, hrun⟩ := (Pmm.allocPages_takes hs.below halloc).2.2 hn.ne_zero
  have hfree : s.pmm.flags[f]? = some true := (hrun 0 Nat.one_pos).1
  refine ⟨f, hphys, hfree, ?_, ?_⟩
  · rintro rfl
    exact hs.dir_used hfree
  · rintro rfl
    exact hs.table_used hfree

/-- Below 4 MiB a new table is cleared at its frame. -/
theorem clearsOwnFrame (hs : LinearWindow s) {c : FrameCall} (hlow : LowTable s c) :
    ClearsOwnFrame s c := by
  cases c with
  | alloc pageCount => trivial
  | map vaddr paddr flags =>
    intro phys hn
    have hphys := hlow phys hn
    exact hs.walk (by simp only [kpmmPageSize]; omega)

/-- Making sure of a table. -/
theorem ensureTable (hs : LinearWindow s) {vaddr paddr flags : Nat} {ok : Bool}
    (haligned : vaddr % 4096 = 0 ∧ paddr % 4096 = 0)
    (hlow : ∀ phys, NewTable s vaddr paddr phys → phys < 0x400000)
    (h : s.ensureTable Vmm.clearFreshTable (pdeIndex vaddr) flags = some (ok, t)) :
    LinearWindow t := by
  obtain ⟨e, hload, h⟩ := Option.bind_eq_some_iff.1 h
  cases habsent : e.present with
  | true =>
    rw [habsent, if_pos rfl] at h
    cases h
    exact hs
  | false =>
    rw [habsent, if_neg Bool.false_ne_true] at h
    obtain ⟨⟨phys, pmm⟩, halloc, h⟩ := Option.bind_eq_some_iff.1 h
    have hs₁ := hs.allocPages halloc
    dsimp only at h
    split_ifs at h with hzero
    · cases h
      exact hs₁
    -- the clearing reaches the frame of the new table
    have hn : NewTable s vaddr paddr phys := ⟨haligned, ⟨e, hload, habsent⟩, ⟨pmm, halloc⟩, hzero⟩
    have hphys := hlow phys hn
    obtain ⟨f, rfl, -, hdir, htable⟩ := hs.newTable hn
    have hf : f < 1024 := by
      simp only [kpmmPageSize] at hphys
      omega
    have hclear : Vmm.clearFreshTable { s with pmm := pmm } f =
        some (Vmm.clearFrame { s with pmm := pmm } f) := by
      rw [Vmm.clearFreshTable, if_neg (by unfold physToVirt; omega), hs₁.walk hf]
      rfl
    rw [Nat.mul_div_cancel f (by decide), hclear, Option.bind_eq_bind, Option.bind_some] at h
    have hs₂ := hs₁.clearFrame hdir htable
    obtain ⟨e', hload', h⟩ := Option.bind_eq_some_iff.1 h
    obtain ⟨u, hstore, h⟩ := Option.bind_eq_some_iff.1 h
    cases h
    refine hs₂.store hload' ?_ hstore
    rw [hs₂.self.load_pd] at hload'
    rw [hs.self.load_pd] at hload
    cases hload'
    cases hload
    exact (congrArg PageEntry.present (wipe_of_ne _ _ hdir)).trans habsent

/-- A mapping, at any address and with any flags. -/
theorem map (hs : LinearWindow s) {vaddr paddr flags : Nat} {ok : Bool}
    (hlow : LowTable s (.map vaddr paddr flags))
    (h : s.kvmmMapPage vaddr paddr flags = some (ok, t)) : LinearWindow t := by
  unfold Vmm.kvmmMapPage Vmm.kvmmMapPageVia at h
  split_ifs at h with hal
  · cases h
    exact hs
  obtain ⟨⟨ok₁, s₁⟩, hens, h⟩ := Option.bind_eq_some_iff.1 h
  have hs₁ := hs.ensureTable ⟨by omega, by omega⟩ hlow hens
  cases ok₁ with
  | false =>
    cases h
    exact hs₁
  | true =>
    obtain ⟨e, hload, h⟩ := Option.bind_eq_some_iff.1 h
    cases habsent : e.present with
    | true =>
      rw [habsent, if_pos rfl] at h
      cases h
      exact hs₁
    | false =>
      rw [habsent, if_neg Bool.false_ne_true] at h
      obtain ⟨u, hstore, h⟩ := Option.bind_eq_some_iff.1 h
      cases h
      exact hs₁.store hload habsent hstore

/-- One call. -/
theorem frameStep (hs : LinearWindow s) {c : FrameCall} (hlow : LowTable s c)
    (h : s.frameStep c = some t) : LinearWindow t := by
  cases c with
  | alloc pageCount =>
    obtain ⟨r, hr, rfl⟩ := Option.map_eq_some_iff.1 h
    obtain ⟨⟨phys, pmm⟩, halloc, rfl⟩ := Option.map_eq_some_iff.1 hr
    exact hs.allocPages halloc
  | map vaddr paddr flags =>
    obtain ⟨⟨ok, u⟩, hcall, rfl⟩ := Option.map_eq_some_iff.1 h
    exact hs.map hlow hcall

end LinearWindow

/-! ## Frames behind the first 4 MiB -/

/-- Outside of the recursive window, no page from 4 MiB on is mapped at its `PHYS_TO_VIRT`. -/
def NothingLinear (s : Vmm) : Prop :=
  ∀ page < windowStart, ∀ f, s.walk page = some f → physToVirt f = page → f < 1024

/-- A mapping of a page outside of the recursive window, that is not at `PHYS_TO_VIRT` of its
frame; or any allocation. -/
def FrameCall.OffLinear : FrameCall → Prop
  | .alloc _ => True
  | .map vaddr paddr flags => vaddr < windowStart * 4096 ∧
      hasFlag flags flagPresent = true ∧ physToVirt (paddr / kpmmPageSize) ≠ vaddr / 4096

theorem InitTables.nothingLinear {idt pt : Nat} (ht : InitTables s idt pt) : NothingLinear s := by
  intro page hpage f hwalk hlinear
  have hslot : page / 1024 < 1023 := by
    unfold windowStart at hpage
    omega
  have hi : page % 1024 < 1024 := Nat.mod_lt _ (by decide)
  have hsplit : page = page / 1024 * 1024 + page % 1024 := by omega
  rw [hsplit, walk_page s _ hi] at hwalk
  split_ifs at hwalk with hp
  have hframe := Option.some.inj hwalk
  rcases ht.slots _ hslot hp.1 with hslot | ⟨hslot, htable⟩
  · rw [hslot, ht.slot, ht.image _ hi] at hframe
    exact hframe ▸ hi
  · -- the identity mapping is not the mapping at `PHYS_TO_VIRT`
    rw [htable, ht.identity _ hi] at hframe
    unfold physToVirt at hlinear
    have hf : page % 1024 = f := hframe
    omega

theorem FirstDirectory.nothingLinear (hs : FirstDirectory s) : NothingLinear s := by
  obtain ⟨m, h, pmm, s₀, h', ho, hbelow, hused, hinit, hstart⟩ := hs.built
  obtain ⟨idt, pt, ht⟩ := initTables_kvmmInit ho hbelow hused hinit
  rcases hstart with rfl | hdis
  · exact ht.nothingLinear
  · intro page hpage f hwalk
    refine ht.nothingLinear page hpage f ?_
    have hslot : page / 1024 < 1023 := by
      unfold windowStart at hpage
      omega
    have hsplit : page = page / 1024 * 1024 + page % 1024 := by omega
    rw [hsplit] at hwalk ⊢
    exact walk_disableIdentityMapping ht.builtByInit.dirOk hdis hslot (Nat.mod_lt _ (by decide))
      hwalk

/-- In a directory that maps nothing from 4 MiB on at its `PHYS_TO_VIRT`, a free frame that is
mapped there lies below 4 MiB. -/
theorem NothingLinear.low_of_walk (hn : NothingLinear s) (hd : DirOk s) {f : Nat}
    (hfree : s.pmm.flags[f]? = some true) (hwalk : s.walk (physToVirt f) = some f) : f < 1024 := by
  by_cases hpage : physToVirt f < windowStart
  · exact hn _ hpage f hwalk rfl
  -- the pages of the recursive window are the directory and its tables, which are not free
  have hlt : physToVirt f < 2 ^ 20 := Nat.mod_lt _ (by decide)
  obtain ⟨k, hk⟩ : ∃ k, physToVirt f = 1023 * 1024 + k := ⟨physToVirt f - 1023 * 1024, by
    unfold windowStart at hpage
    omega⟩
  have hk1024 : k < 1024 := by omega
  rw [hk, walk_page s 1023 hk1024, hd.self.frame] at hwalk
  split_ifs at hwalk with hp
  obtain rfl := Option.some.inj hwalk
  by_cases hlast : k = 1023
  · subst hlast
    rw [hd.self.frame] at hfree
    exact absurd hfree hd.dir_used
  · exact absurd hfree (hd.table_used k (by omega) hp.2)

/-- What holds as long as every new table lies below 4 MiB. -/
structure LinearInv (s : Vmm) : Prop where
  dirOk : DirOk s
  window : LinearWindow s
  nothing : NothingLinear s

theorem LinearInv.low (hs : LinearInv s) {c : FrameCall} (hclear : ClearsOwnFrame s c) :
    LowTable s c := by
  cases c with
  | alloc pageCount => trivial
  | map vaddr paddr flags =>
    intro phys hn
    have hwalk := hclear phys hn
    obtain ⟨f, rfl, hfree, -, -⟩ := hs.window.newTable hn
    rw [Nat.mul_div_cancel f (by decide)] at hwalk
    have hf := hs.nothing.low_of_walk hs.dirOk hfree hwalk
    simp only [kpmmPageSize]
    omega

/-- New tables below 4 MiB are cleared. -/
theorem LinearWindow.newTableSafe (hs : LinearWindow s) {vaddr paddr flags : Nat}
    (hlow : LowTable s (.map vaddr paddr flags)) : NewTableSafe s vaddr paddr := by
  intro hv hp habsent hcount f hfirst hf
  obtain ⟨pmm, halloc⟩ := Pmm.allocPages_of_firstRun hs.below Nat.one_pos hcount hfirst
  have hn : NewTable s vaddr paddr (f * kpmmPageSize) :=
    ⟨⟨hv, hp⟩, ⟨_, hs.self.load_pd _, habsent⟩, ⟨pmm, halloc⟩, Nat.mul_ne_zero hf (by decide)⟩
  have hphys := hlow _ hn
  have hf' : f < 1024 := by
    simp only [kpmmPageSize] at hphys
    omega
  refine Or.inr ⟨?_, f, hs.walk hf', Or.inl rfl⟩
  unfold physToVirt
  omega

/-- Where only the first 4 MiB are free, a new table is cleared. -/
theorem BuiltByInit.newTableSafe (hs : BuiltByInit s) (hlow : s.pmm.kpmmBitmap.length ≤ 128)
    (vaddr paddr : Nat) : NewTableSafe s vaddr paddr := by
  intro _ _ _ _ f hfirst _
  have hlt := (List.getElem?_eq_some_iff.1 (hfirst.1 0 Nat.one_pos)).1
  rw [Pmm.length_flags] at hlt
  have hf : f < 1024 := by omega
  refine Or.inr ⟨?_, f, hs.linearWindow.walk hf, Or.inl rfl⟩
  unfold physToVirt
  omega

theorem LinearInv.step (hs : LinearInv s) {c : FrameCall} (hoff : c.OffLinear)
    (hlow : LowTable s c) (h : s.frameStep c = some t) : LinearInv t := by
  have hwindow := hs.window.frameStep hlow h
  cases c with
  | alloc pageCount =>
    obtain ⟨r, hr, rfl⟩ := Option.map_eq_some_iff.1 h
    obtain ⟨⟨phys, pmm⟩, halloc, rfl⟩ := Option.map_eq_some_iff.1 hr
    exact ⟨(tableStep_allocPages (k := 0) (f := 0) hs.dirOk halloc).dirOk, hwindow, hs.nothing⟩
  | map vaddr paddr flags =>
    obtain ⟨hv, hflags, hother⟩ := hoff
    obtain ⟨⟨ok, u⟩, hcall, rfl⟩ := Option.map_eq_some_iff.1 h
    rcases kvmmMapPageVia_spec hs.dirOk paddr hv hflags
        (clearWorks_of_safe hs.dirOk (hs.window.newTableSafe hlow)) with
      ⟨hnone, -⟩ | ⟨ok', t', hcall', hstep⟩
    · exact absurd (hcall.symm.trans hnone) (Option.some_ne_none _)
    obtain ⟨rfl, rfl⟩ := Prod.mk.inj (Option.some.inj (hcall.symm.trans hcall'))
    refine ⟨hstep.table.dirOk, hwindow, fun page hpage f hwalk hlinear => ?_⟩
    rw [walk_eq_translate] at hwalk
    cases ok with
    | false =>
      rw [hstep.refused rfl page hpage, ← walk_eq_translate] at hwalk
      exact hs.nothing page hpage f hwalk hlinear
    | true =>
      obtain ⟨-, -, -, hmap⟩ := hstep.mapped rfl
      rw [hmap page hpage] at hwalk
      split_ifs at hwalk with hpv
      · cases hwalk
        exact absurd (hlinear.trans hpv) hother
      · rw [← walk_eq_translate] at hwalk
        exact hs.nothing page hpage f hwalk hlinear

/-! ## Whole runs -/

/-- **A new table is cleared at its own frame exactly if it lies below 4 MiB**: if all new tables of
a run lie there, all are cleared, whatever is mapped; and they are not if they do not, unless a
frame behind is mapped at its `PHYS_TO_VIRT`. -/
theorem clears_own_frame_iff (hs : FirstDirectory s) (calls : List FrameCall) :
    (Admissible Vmm.frameStep LowTable s calls → Admissible Vmm.frameStep ClearsOwnFrame s calls) ∧
    ((∀ c ∈ calls, c.OffLinear) → Admissible Vmm.frameStep ClearsOwnFrame s calls →
      Admissible Vmm.frameStep LowTable s calls) := by
  have hbuilt := hs.builtByInit
  constructor
  · exact admissible_of_invariant (fun s c t hi hlow h => LinearWindow.frameStep hi hlow h)
      (fun s c hi hlow => LinearWindow.clearsOwnFrame hi hlow) hbuilt.linearWindow
  · intro hoff hclear
    have hstart : LinearInv s := ⟨hbuilt.dirOk, hbuilt.linearWindow, hs.nothingLinear⟩
    have hoff' : Admissible Vmm.frameStep (fun _ c => c.OffLinear) s calls :=
      admissible_of_mem fun c hc _ => hoff c hc
    refine admissible_of_invariant ?_ ?_ hstart (hoff'.and hclear)
    · intro s c t hi hok h
      exact hi.step hok.1 (hi.low hok.2) h
    · intro s c hi hok
      exact hi.low hok.2

/-- Two frames taken, and a table made. -/
theorem clears_own_frame_smallMachine : Admissible Vmm.frameStep ClearsOwnFrame smallMachine
    [.alloc 2, .map 0xE0000000 0x1C0000 kvmmFlagPresentRw] := by
  refine (clears_own_frame_iff firstDirectory_smallMachine _).1 ⟨trivial, fun t ht => ⟨?_, ?_⟩⟩
  · intro phys hn
    obtain ⟨pmm, halloc⟩ := hn.taken
    have hphys : (smallMachine.frameStep (.alloc 2)).map
        (fun t => (t.pmm.allocPages 1).map Prod.fst) = some (some 0x1C2000) := by
      decide +kernel
    rw [ht, Option.map_some, halloc] at hphys
    have hlow : phys = 0x1C2000 := Option.some.inj (Option.some.inj hphys)
    omega
  · exact fun _ _ => trivial

end DelOs
