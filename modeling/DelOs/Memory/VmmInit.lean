import DelOs.Memory.VmmMap
import DelOs.Memory.EarlyHeap

/-!
# The first page directory

`kvmm_init` of `src/kernel/memory/vmm/vmm_manager.c`, over the early allocator of
`src/kernel/memory/early_allocator`, and `kvmm_disable_identity_mapping`.  Paging is off while
`kvmm_init` runs, so that its pointers are physical addresses.

* `setupPageTableEntries`, `setupPageDirectoryEntry`, `setupMapping`,
  `kvmmInit`, `kvmmDisableIdentityMapping` — the functions of these names; no result is a panic.
* `BuiltByInit` — what a kernel directory keeps of them: it is well formed, and its slot 768
  maps the first 4 MiB, every page writable and for the kernel only.
* `builtByInit_kvmmInit`, `builtByInit_disableIdentityMapping` — **both functions leave such a
  directory**.
* `FirstDirectory` — the directories that the kernel starts from.
-/

namespace DelOs

open TwoLevel

/-! ## The directory -/

/-- `setup_page_table_entries`, from entry `i` on for `left` entries. -/
def setupPageTableEntries (pt : Nat) : Frames PageEntry → Nat → Nat → Frames PageEntry
  | m, _, 0 => m
  | m, i, left + 1 =>
      let physAddr := u32 (i * 4096)
      setupPageTableEntries pt (put m pt i { m pt i with
        present := true
        rw := true
        user := false
        frame := physAddr / 4096 }) (i + 1) left

/-- `setup_page_directory_entry`. -/
def setupPageDirectoryEntry (m : Frames PageEntry) (pd slot pt : Nat) : Frames PageEntry :=
  put m pd slot { m pd slot with present := true, rw := true, user := false, frame := pt }

/-- `setup_identity_mapping` and `setup_higher_half_mapping`, which differ in the slot: a table
of the first 4 MiB. -/
def setupMapping (m : Frames PageEntry) (h : EarlyHeap) (pd slot : Nat) :
    Option (Frames PageEntry × EarlyHeap) := do
  let (pt, h) ← h.mallocAligned 4096 4096
  if pt = 0 then none
  else do
    let m := setupPageTableEntries (pt / 4096) (wipe m (pt / 4096) PageEntry.zero) 0 1024
    return (setupPageDirectoryEntry m pd slot (pt / 4096), h)

/-- `setup_recursive_mapping`. -/
def setupRecursiveMapping (m : Frames PageEntry) (pd : Nat) : Frames PageEntry :=
  put m pd 1023 { m pd 1023 with present := true, rw := true, user := false, frame := pd }

/-- `kvmm_init`. -/
def kvmmInit (m : Frames PageEntry) (h : EarlyHeap) (pmm : Pmm) : Option (Vmm × EarlyHeap) := do
  let (pd, h) ← h.mallocAligned 4096 4096
  if pd = 0 then none
  else do
    let m := wipe m (pd / 4096) PageEntry.zero
    let (m, h) ← setupMapping m h (pd / 4096) 0
    let (m, h) ← setupMapping m h (pd / 4096) 768
    return (⟨setupRecursiveMapping m (pd / 4096), pd / 4096, pmm⟩, h)

/-- `kvmm_disable_identity_mapping`: what it does to the directory. -/
def kvmmDisableIdentityMapping (s : Vmm) : Option Vmm := do
  let e ← s.load recursivePd 0
  s.store recursivePd 0 { e with present := false }

/-! ## What they leave -/

/-- A directory that `kvmm_init` built, whatever has been mapped since in its other slots; the
processor sets bits of `attrs` as it uses the entries. -/
structure BuiltByInit (s : Vmm) : Prop where
  dirOk : DirOk s
  present : (s.frames s.cr3 768).present = true
  image : ∀ i < 1024, ∃ attrs,
    s.frames (s.frames s.cr3 768).frame i = ⟨true, true, false, attrs, i⟩

variable {m m' : Frames PageEntry} {h h' : EarlyHeap} {s t : Vmm}

/-- The loop fills the entries it goes through. -/
theorem setupPageTableEntries_apply (pt i left : Nat) (hi : i + left ≤ 1024)
    (hm : ∀ j, i ≤ j → m pt j = PageEntry.zero) (f j : Nat) :
    setupPageTableEntries pt m i left f j =
      if f = pt ∧ i ≤ j ∧ j < i + left then ⟨true, true, false, 0, j⟩ else m f j := by
  induction left generalizing m i with
  | zero =>
    rw [if_neg (by omega)]
    rfl
  | succ left ih =>
    have hphys : u32 (i * 4096) / 4096 = i := by
      rw [u32_eq (by omega)]
      exact Nat.mul_div_cancel i (by decide)
    rw [setupPageTableEntries, hphys, hm i le_rfl, ih (i + 1) (by omega) ?_]
    · by_cases hj : f = pt ∧ j = i
      · obtain ⟨rfl, rfl⟩ := hj
        rw [if_neg (by omega), put_self, if_pos ⟨rfl, le_rfl, by omega⟩]
        rfl
      · rw [show put m pt i _ f j = m f j from if_neg hj]
        refine if_congr ?_ rfl rfl
        constructor
        · rintro ⟨hf, h1, h2⟩
          exact ⟨hf, by omega, by omega⟩
        · rintro ⟨hf, h1, h2⟩
          have hne : j ≠ i := fun hc => hj ⟨hf, hc⟩
          exact ⟨hf, by omega, by omega⟩
    · intro j hj
      rw [put_of_index_ne _ (by omega)]
      exact hm j (by omega)

/-- A new table `pt`, above the cursor, that maps the first 4 MiB, in one slot. -/
structure Mapping (m m' : Frames PageEntry) (h h' : EarlyHeap) (pd slot pt : Nat) : Prop where
  low : h.start ≤ pt * 4096
  next : h'.start = (pt + 1) * 4096
  stop : h'.stop = h.stop
  ordered : h'.Ordered
  dir : ∀ j, m' pd j = if j = slot then ⟨true, true, false, 0, pt⟩ else m pd j
  table : ∀ i < 1024, m' pt i = ⟨true, true, false, 0, i⟩
  others : ∀ f, f ≠ pd → f ≠ pt → m' f = m f

theorem setupMapping_spec (ho : h.Ordered) {pd slot : Nat} (hpd : (pd + 1) * 4096 ≤ h.start)
    (hzero : m pd slot = PageEntry.zero) (hs : setupMapping m h pd slot = some (m', h')) :
    ∃ pt, Mapping m m' h h' pd slot pt := by
  obtain ⟨⟨p, h₁⟩, hm, hs⟩ := Option.bind_eq_some_iff.1 hs
  dsimp only at hs
  split_ifs at hs with hp
  obtain ⟨hmod, hlow, hroom, hnext, hstop⟩ := EarlyHeap.mallocAligned_page ho hm hp
  obtain ⟨pt, rfl⟩ := Nat.dvd_of_mod_eq_zero hmod
  rw [Nat.mul_div_cancel_left pt (by decide)] at hs
  obtain ⟨rfl, rfl⟩ := Prod.mk.inj (Option.some.inj hs)
  have hne : pd ≠ pt := by omega
  have hfill : ∀ f j, setupPageTableEntries pt (wipe m pt PageEntry.zero) 0 1024 f j =
      if f = pt ∧ j < 1024 then ⟨true, true, false, 0, j⟩ else wipe m pt PageEntry.zero f j := by
    intro f j
    rw [setupPageTableEntries_apply pt 0 1024 le_rfl (fun _ _ => wipe_self _ _ _)]
    exact if_congr (by omega) rfl rfl
  have hdir : ∀ j, setupPageTableEntries pt (wipe m pt PageEntry.zero) 0 1024 pd j = m pd j := by
    intro j
    rw [hfill, if_neg fun hc => hne hc.1]
    exact wipe_of_ne j _ hne
  refine ⟨pt, by omega, by omega, hstop, ho.mallocAligned_page hm hp, ?_, ?_, ?_⟩
  · intro j
    unfold setupPageDirectoryEntry
    by_cases hj : j = slot
    · rw [if_pos hj, hj, put_self, hdir, hzero]
      rfl
    · rw [if_neg hj, put_of_index_ne _ hj, hdir]
  · intro i hi
    unfold setupPageDirectoryEntry
    rw [put_of_ne _ _ _ hne.symm, hfill, if_pos ⟨rfl, hi⟩]
  · intro f hf hfp
    funext j
    unfold setupPageDirectoryEntry
    rw [put_of_ne _ _ _ hf, hfill, if_neg fun hc => hfp hc.1]
    exact wipe_of_ne j _ hfp

/-- The directory and the two tables of `kvmm_init`, in frames that are not free; the slot of the
identity mapping may be disabled. -/
structure InitTables (s : Vmm) (identityPt higherHalfPt : Nat) : Prop where
  self : s.frames s.cr3 1023 = ⟨true, true, false, 0, s.cr3⟩
  slot : s.frames s.cr3 768 = ⟨true, true, false, 0, higherHalfPt⟩
  slots : ∀ j < 1023, (s.frames s.cr3 j).present = true →
    j = 768 ∨ j = 0 ∧ (s.frames s.cr3 j).frame = identityPt
  identity : ∀ i < 1024, s.frames identityPt i = ⟨true, true, false, 0, i⟩
  image : ∀ i < 1024, s.frames higherHalfPt i = ⟨true, true, false, 0, i⟩
  order : s.cr3 < identityPt ∧ identityPt < higherHalfPt
  below : s.pmm.Below4G
  used : ∀ f : Nat, f ≤ higherHalfPt → s.pmm.flags[f]? ≠ some true

/-- **What `kvmm_init` builds**, if the bitmap frees no frame below the end of the early heap. -/
theorem initTables_kvmmInit (ho : h.Ordered) {pmm : Pmm} (hbelow : pmm.Below4G)
    (hused : ∀ f : Nat, (f + 1) * 4096 ≤ h.stop → pmm.flags[f]? ≠ some true)
    (hinit : kvmmInit m h pmm = some (s, h')) : ∃ idt pt, InitTables s idt pt := by
  obtain ⟨⟨p, h₁⟩, hm, hinit⟩ := Option.bind_eq_some_iff.1 hinit
  dsimp only at hinit
  split_ifs at hinit with hp
  obtain ⟨⟨m₂, h₂⟩, hm₂, hinit⟩ := Option.bind_eq_some_iff.1 hinit
  obtain ⟨⟨m₃, h₃⟩, hm₃, hinit⟩ := Option.bind_eq_some_iff.1 hinit
  obtain ⟨rfl, rfl⟩ := Prod.mk.inj (Option.some.inj hinit)
  obtain ⟨hmod, hlow, hroom, hnext, hstop⟩ := EarlyHeap.mallocAligned_page ho hm hp
  obtain ⟨pd, rfl⟩ := Nat.dvd_of_mod_eq_zero hmod
  rw [Nat.mul_div_cancel_left pd (by decide)] at hm₂ hm₃ ⊢
  have ho₁ := ho.mallocAligned_page hm hp
  obtain ⟨idt, hid⟩ := setupMapping_spec ho₁ (by omega) (wipe_self pd 0 _) hm₂
  have hidlow := hid.low
  have hidnext := hid.next
  have hzero : m₂ pd 768 = PageEntry.zero := by
    rw [hid.dir, if_neg (by decide), wipe_self]
  obtain ⟨pt, hhh⟩ := setupMapping_spec hid.ordered (by omega) hzero hm₃
  have hptlow := hhh.low
  have hptnext := hhh.next
  have hend := hhh.ordered.1
  have hstop₃ : h₃.stop = h.stop := hhh.stop.trans (hid.stop.trans hstop)
  have hpdid : pd < idt := by omega
  have hidpt : idt < pt := by omega
  -- the slots of the directory
  have hdir : ∀ j, setupRecursiveMapping m₃ pd pd j =
      if j = 1023 then ⟨true, true, false, 0, pd⟩
      else if j = 768 then ⟨true, true, false, 0, pt⟩
      else if j = 0 then ⟨true, true, false, 0, idt⟩ else PageEntry.zero := by
    intro j
    unfold setupRecursiveMapping
    by_cases hj : j = 1023
    · rw [if_pos hj, hj, put_self, hhh.dir, if_neg (by decide), hid.dir, if_neg (by decide),
        wipe_self]
      rfl
    · rw [if_neg hj, put_of_index_ne _ hj, hhh.dir, hid.dir, wipe_self]
  have htable : ∀ f, f ≠ pd → setupRecursiveMapping m₃ pd f = m₃ f := by
    intro f hf
    funext i
    exact put_of_ne _ _ _ hf
  refine ⟨idt, pt, ⟨?_, ?_, fun j hj hpres => ?_, fun i hi => ?_, fun i hi => ?_, ⟨hpdid, hidpt⟩,
    hbelow, fun f hf => hused f (by omega)⟩⟩
  · exact (hdir 1023).trans (if_pos rfl)
  · exact (hdir 768).trans ((if_neg (by decide)).trans (if_pos rfl))
  · have hslot : (setupRecursiveMapping m₃ pd pd j).present = true := hpres
    show j = 768 ∨ j = 0 ∧ (setupRecursiveMapping m₃ pd pd j).frame = idt
    rw [hdir, if_neg (by omega)] at hslot ⊢
    split_ifs at hslot ⊢ with h1 h2
    · exact Or.inl h1
    · exact Or.inr ⟨h2, rfl⟩
    · cases hslot
  · show setupRecursiveMapping m₃ pd idt i = _
    rw [htable idt (by omega), hhh.others idt (by omega) (by omega), hid.table i hi]
  · show setupRecursiveMapping m₃ pd pt i = _
    rw [htable pt (by omega), hhh.table i hi]

theorem InitTables.builtByInit {idt pt : Nat} (ht : InitTables s idt pt) : BuiltByInit s := by
  have hslot := ht.slot
  have horder := ht.order
  have hframe : (s.frames s.cr3 768).frame = pt := congrArg PageEntry.frame hslot
  have hslots : ∀ j < 1023, (s.frames s.cr3 j).present = true →
      j = 768 ∧ (s.frames s.cr3 j).frame = pt ∨ j = 0 ∧ (s.frames s.cr3 j).frame = idt := by
    intro j hj hp
    rcases ht.slots j hj hp with rfl | h0
    · exact Or.inl ⟨rfl, hframe⟩
    · exact Or.inr h0
  refine ⟨⟨⟨?_, ?_⟩, ⟨?_, ?_⟩, ht.below, ht.used _ (by omega), ?_⟩, ?_, fun i hi => ⟨0, ?_⟩⟩
  · exact congrArg PageEntry.present ht.self
  · exact congrArg PageEntry.frame ht.self
  · intro j hj hp
    rcases hslots j hj hp with ⟨-, hf⟩ | ⟨-, hf⟩
    · exact hf.trans_ne (show pt ≠ s.cr3 by omega)
    · exact hf.trans_ne (show idt ≠ s.cr3 by omega)
  · intro i j hi hj hpi hpj heq
    have heq' : (s.frames s.cr3 i).frame = (s.frames s.cr3 j).frame := heq
    rcases hslots i hi hpi with ⟨h1, h2⟩ | ⟨h1, h2⟩ <;>
      rcases hslots j hj hpj with ⟨h3, h4⟩ | ⟨h3, h4⟩ <;> omega
  · intro j hj hp
    rcases hslots j hj hp with ⟨-, hf⟩ | ⟨-, hf⟩
    · exact ht.used _ hf.le
    · exact ht.used _ (hf.trans_le horder.2.le)
  · exact congrArg PageEntry.present hslot
  · rw [hframe, ht.image i hi]

/-- **`kvmm_init` leaves such a directory.** -/
theorem builtByInit_kvmmInit (ho : h.Ordered) {pmm : Pmm} (hbelow : pmm.Below4G)
    (hused : ∀ f : Nat, (f + 1) * 4096 ≤ h.stop → pmm.flags[f]? ≠ some true)
    (hinit : kvmmInit m h pmm = some (s, h')) : BuiltByInit s := by
  obtain ⟨idt, pt, ht⟩ := initTables_kvmmInit ho hbelow hused hinit
  exact ht.builtByInit

/-- **... and disabling the identity mapping keeps it.** -/
theorem builtByInit_disableIdentityMapping (hs : BuiltByInit s)
    (hdis : kvmmDisableIdentityMapping s = some t) : BuiltByInit t := by
  obtain ⟨hd, hpresent, himage⟩ := hs
  unfold kvmmDisableIdentityMapping at hdis
  rw [hd.self.load_pd, Option.bind_eq_bind, Option.bind_some, hd.self.store_pd] at hdis
  obtain rfl := Option.some.inj hdis
  have hother : ∀ j,
      (put s.frames s.cr3 0 { s.frames s.cr3 0 with present := false } s.cr3 j).present = true →
      put s.frames s.cr3 0 { s.frames s.cr3 0 with present := false } s.cr3 j =
        s.frames s.cr3 j := by
    intro j hp
    refine put_of_index_ne _ ?_
    rintro rfl
    rw [put_self] at hp
    cases hp
  have hslot : ∀ j, j ≠ 0 →
      put s.frames s.cr3 0 { s.frames s.cr3 0 with present := false } s.cr3 j =
        s.frames s.cr3 j := fun j hj => put_of_index_ne _ hj
  have h768 := hslot 768 (by decide)
  have htable : (s.frames s.cr3 768).frame ≠ s.cr3 := hd.tidy.ne_root 768 (by decide) hpresent
  refine ⟨⟨⟨?_, ?_⟩, ⟨?_, ?_⟩, hd.below, hd.dir_used, ?_⟩, ?_, ?_⟩
  · exact (congrArg PageEntry.present (hslot 1023 (by decide))).trans hd.self.present
  · exact (congrArg PageEntry.frame (hslot 1023 (by decide))).trans hd.self.frame
  · intro i hi hp
    have heq := hother i hp
    have hp' : (s.frames s.cr3 i).present = true := heq ▸ hp
    exact (congrArg PageEntry.frame heq).trans_ne (hd.tidy.ne_root i hi hp')
  · intro i j hi hj hpi hpj heq
    have hi' := hother i hpi
    have hj' := hother j hpj
    have hpi' : (s.frames s.cr3 i).present = true := hi' ▸ hpi
    have hpj' : (s.frames s.cr3 j).present = true := hj' ▸ hpj
    refine hd.tidy.distinct i j hi hj hpi' hpj' ?_
    exact (congrArg PageEntry.frame hi').symm.trans (Eq.trans heq (congrArg PageEntry.frame hj'))
  · intro i hi hp
    have heq := hother i hp
    have hp' : (s.frames s.cr3 i).present = true := heq ▸ hp
    show s.pmm.flags[(put s.frames s.cr3 0 _ s.cr3 i).frame]? ≠ some true
    rw [heq]
    exact hd.table_used i hi hp'
  · exact (congrArg PageEntry.present h768).trans hpresent
  · intro i hi
    obtain ⟨attrs, hattrs⟩ := himage i hi
    refine ⟨attrs, ?_⟩
    show put s.frames s.cr3 0 _ (put s.frames s.cr3 0 _ s.cr3 768).frame i = _
    rw [h768, put_of_ne _ _ _ htable]
    exact hattrs

/-- Disabling the identity mapping maps no page. -/
theorem walk_disableIdentityMapping (hd : DirOk s) (hdis : kvmmDisableIdentityMapping s = some t)
    {k i g : Nat} (hk : k < 1023) (hi : i < 1024) (hwalk : t.walk (k * 1024 + i) = some g) :
    s.walk (k * 1024 + i) = some g := by
  unfold kvmmDisableIdentityMapping at hdis
  rw [hd.self.load_pd, Option.bind_eq_bind, Option.bind_some, hd.self.store_pd] at hdis
  obtain rfl := Option.some.inj hdis
  have hslot : k ≠ 0 ∨ k = 0 := ne_or_eq k 0
  rw [walk_page _ k hi] at hwalk ⊢
  rcases hslot with hslot | rfl
  · have hsame : put s.frames s.cr3 0 { s.frames s.cr3 0 with present := false } s.cr3 k =
        s.frames s.cr3 k := put_of_index_ne _ hslot
    simp only [hsame] at hwalk
    split_ifs at hwalk with hp
    have hne : (s.frames s.cr3 k).frame ≠ s.cr3 := hd.tidy.ne_root k hk hp.1
    rw [put_of_ne _ _ _ hne] at hp hwalk
    rw [if_pos hp, hwalk]
  · have habsent : (put s.frames s.cr3 0 { s.frames s.cr3 0 with present := false } s.cr3 0).present
        = false := by rw [put_self]
    rw [if_neg fun hc => absurd (habsent.symm.trans hc.1) Bool.false_ne_true] at hwalk
    cases hwalk

/-! ## Booted directories -/

/-- The directory of `kvmm_init`, before or after `kvmm_disable_identity_mapping`, over a bitmap in
which the free pages lie below 4 GiB and above the early heap. -/
structure FirstDirectory (s : Vmm) : Prop where
  built : ∃ m h pmm s₀ h', EarlyHeap.Ordered h ∧ Pmm.Below4G pmm ∧
    (∀ f : Nat, (f + 1) * 4096 ≤ h.stop → pmm.flags[f]? ≠ some true) ∧
    kvmmInit m h pmm = some (s₀, h') ∧ (s = s₀ ∨ kvmmDisableIdentityMapping s₀ = some s)

theorem FirstDirectory.builtByInit (hs : FirstDirectory s) : BuiltByInit s := by
  obtain ⟨m, h, pmm, s₀, h', ho, hbelow, hused, hinit, rfl | hdis⟩ := hs.built
  · exact builtByInit_kvmmInit ho hbelow hused hinit
  · exact builtByInit_disableIdentityMapping (builtByInit_kvmmInit ho hbelow hused hinit) hdis

/-- The directory of `kvmm_init` over an early heap of 256 KiB at `0x180000`, and a bitmap. -/
def initDir (bitmap : List (BitVec 8)) (free : Nat) : Vmm :=
  ((kvmmInit (fun _ _ => PageEntry.zero) ⟨0x180000, 0x1C0000, true⟩ ⟨bitmap, free⟩).get rfl).1

/-- Bytes of used pages before a bitmap. -/
theorem clearBits_used (n : Nat) (bitmap : List (BitVec 8)) :
    clearBits (List.replicate n 0xFF#8 ++ bitmap) =
      List.replicate (8 * n) false ++ clearBits bitmap := by
  induction n with
  | zero => rfl
  | succ n ih =>
    have hbyte : byteClearBits 0xFF#8 = List.replicate 8 false := by decide
    rw [List.replicate_succ, List.cons_append, clearBits, ih, hbyte, ← List.append_assoc,
      List.replicate_append_replicate, show 8 + 8 * n = 8 * (n + 1) by omega]

/-- Any bitmap will do in which the first 448 pages are used and no page is above 4 GiB. -/
theorem firstDirectory_initDir (bitmap : List (BitVec 8)) (free : Nat)
    (hlength : 56 + bitmap.length ≤ 2 ^ 17) :
    FirstDirectory (initDir (List.replicate 56 0xFF#8 ++ bitmap) free) := by
  refine ⟨_, ⟨0x180000, 0x1C0000, true⟩, _, _, _, ⟨by decide, by decide⟩,
    Pmm.below4G_of_length ?_, ?_, (Option.some_get rfl).symm, Or.inl rfl⟩
  · simp only [List.length_append, List.length_replicate]
    omega
  · intro f hf
    have hlow : f < 448 := by
      change (f + 1) * 4096 ≤ 0x1C0000 at hf
      omega
    have hused : (List.replicate (8 * 56) false ++ clearBits bitmap)[f]? = some false := by
      rw [List.getElem?_append_left (by rw [List.length_replicate]; omega),
        List.getElem?_replicate, if_pos (by omega)]
    rw [Pmm.flags, clearBits_used, hused]
    decide

/-- A machine with eight free pages below 4 MiB. -/
def smallMachine : Vmm := initDir (List.replicate 56 0xFF#8 ++ [0x00#8]) 8

theorem firstDirectory_smallMachine : FirstDirectory smallMachine :=
  firstDirectory_initDir [0x00#8] 8 (by decide)

end DelOs
