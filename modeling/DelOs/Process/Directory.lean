import DelOs.Process.Windows

/-!
# The new page directory and its tables

What each helper of `kprocess_create_user` does to the frames: one statement for each of them,
of the state however it ends and of the tables when it succeeds.

* `Extends` — what the construction leaves alone from its start on, its first mapping included,
  which may have to make the table of the windows.
* `allocPageDirectory_spec`, `cloneKernelHighHalf_spec`, `mapStubUserPage_spec`,
  `mapEntryIfKernel_spec`, `mapUserStack_spec`, `setupInitialStack_spec`.
-/

namespace DelOs

open Attempt FlagRuns TwoLevel

variable {r s t : Vmm} {own : List Nat}

/-! ## From the start of the construction -/

/-- The directory changes in the slot of the windows only, used frames stay used, and what they
held fades at most, the table of the windows apart. -/
structure Extends (s t : Vmm) : Prop where
  table : TableStep s t windowSlot kvmmFlagKernelRw
  entries : ∀ x, s.pmm.flags[x]? ≠ some true → x ≠ s.cr3 →
    ¬ ((t.frames t.cr3 windowSlot).present = true ∧ windowTable t = x) →
    ∀ i, Faded (s.frames x i) (t.frames x i)

theorem Extends.refl (hd : DirOk s) : Extends s s :=
  ⟨.refl hd _ _, fun _ _ _ _ _ => .refl _⟩

theorem Extends.trans (h₁ : Extends r s) (h₂ : Extends s t) : Extends r t := by
  refine ⟨h₁.table.trans h₂.table, ?_⟩
  intro x hx hne hout i
  have hs := h₁.table.used x hx
  refine (h₁.entries x hx hne ?_ i).trans
    (h₂.entries x (hs.trans_ne hx) (h₁.table.cr3 ▸ hne) hout i)
  rintro ⟨hp, hw⟩
  -- the slot stays once it is there
  have hslot := h₂.table.slot hp
  exact hout ⟨hslot ▸ hp, (congrArg PageEntry.frame hslot).trans hw⟩

theorem Builds.tableStep (h : Builds own s t) (hd : DirOk s) (k flags : Nat) :
    TableStep s t k flags := by
  refine ⟨h.dirOk hd, h.cr3, h.used, fun j _ => h.slot j, fun _ => h.slot k, ?_⟩
  intro h1 h2
  rw [h.slot, h1] at h2
  cases h2

/-- A stretch that names only what was free at the start. -/
theorem Extends.builds (h₁ : Extends r s) (h₂ : Builds own s t) (hs : Ready s)
    (hown : ∀ x ∈ own, r.pmm.flags[x]? = some true) : Extends r t := by
  refine ⟨h₁.table.trans (h₂.tableStep hs.dirOk _ _), ?_⟩
  intro x hx hne hout i
  have hw : x ≠ windowTable s := by
    rintro rfl
    exact hout ⟨(h₂.slot windowSlot).symm ▸ hs.windows, h₂.windowTable_eq⟩
  have hkept := h₂.kept x ((h₁.table.used x hx).trans_ne hx) hw fun hmem => hx (hown x hmem)
  rw [hkept]
  exact h₁.entries x hx hne (fun hc => hw hc.2.symm) i

/-- Opening the window of the directory, which may have to make the table of the windows. -/
theorem openWindow_spec (hd : DirOk s) {i : Nat} (hi : i < 1024) (phys : Nat) :
    Ensures (openWindow (windowVaddr i) phys) s (Extends s)
      (fun _ t => Ready t ∧ Shows t i (phys / kpmmPageSize)) := by
  have hv0 : windowVaddr i % 4096 = 0 := Nat.mul_mod_left _ _
  have hv := windowVaddr_lt hi
  have hpde := pdeIndex_windowVaddr hi
  have hpte := pteIndex_windowVaddr hi
  refine Ensures.bind (show Ensures _ s (Extends s) fun _ _ => True from ensures_call ?_)
    (fun t ht => ht) ?_
  · intro b t h
    obtain ⟨hstep, hfaded⟩ := kvmmUnmapPage_effect hd kvmmFlagKernelRw hv0 hv h
    rw [hpde] at hstep
    exact ⟨⟨hstep, fun x _ _ _ => hfaded x⟩, trivial⟩
  · intro _ s₁ h₁ _
    refine ensures_check ?_
    intro b t h
    have heffect := kvmmMapPage_effect h₁.table.dirOk hv (by decide) h
    have hstep := heffect.table
    rw [hpde] at hstep
    refine ⟨h₁.trans ⟨hstep, ?_⟩, ?_⟩
    · intro x _ hne hout
      cases b with
      | false => exact heffect.refused rfl x hne
      | true =>
        have hpresent := heffect.present rfl
        rw [hpde] at hpresent
        intro j
        refine heffect.others x hne j ?_
        rintro ⟨hx, -⟩
        rw [hpde] at hx
        exact hout ⟨hpresent, hx.symm⟩
    · rintro rfl
      have hpresent := heffect.present rfl
      obtain ⟨attrs, hentry⟩ := heffect.filled rfl
      rw [hpde, hpte] at hentry
      rw [hpde] at hpresent
      exact ⟨⟨hstep.dirOk, hpresent⟩, ⟨congrArg PageEntry.present hentry,
        congrArg PageEntry.frame hentry⟩⟩

/-- **`alloc_page_directory`**: an empty directory in a frame that was free. -/
theorem allocPageDirectory_spec (hd : DirOk s) :
    Ensures allocPageDirectory s (Extends s) (fun phys t => ∃ p, phys = p * kpmmPageSize ∧
      s.pmm.flags[p]? = some true ∧ Ready t ∧ Reserved t p ∧ Shows t 0 p ∧
      ∀ i, t.frames p i = PageEntry.zero) := by
  unfold allocPageDirectory
  refine (takePage_spec hd).bind ?_ ?_
  · rintro t ⟨hb, hframes⟩
    exact ⟨hb.tableStep hd _ _, fun x _ _ _ i => by rw [hframes]; exact .refl _⟩
  rintro _ s₁ ⟨hb, hframes⟩ ⟨p, rfl, hfree, hres⟩
  have h₁ : Extends s s₁ :=
    ⟨hb.tableStep hd _ _, fun x _ _ _ i => by rw [hframes]; exact .refl _⟩
  refine (openWindow_spec h₁.table.dirOk (i := 0) (by decide) _).bind (fun t ht => h₁.trans ht) ?_
  rintro _ s₂ h₂ ⟨hready, hshows⟩
  rw [Nat.mul_div_cancel p (by decide : 0 < kpmmPageSize)] at hshows
  have hres₂ := h₂.table.reserved hres
  have hbuild : Builds [p] s₂ (s₂.clearFrame p) :=
    builds_write hready hres₂ fun x hx => funext fun j => wipe_of_ne j _ hx
  have hmemset := memsetPage_eq (hready.walk (by decide) hshows)
  refine Ensures.after ?_ hmemset
  refine ensures_pure ((h₁.trans h₂).builds hbuild hready ?_) ?_
  · rintro x hx
    rw [List.mem_singleton.1 hx]
    exact hfree
  · exact ⟨p, rfl, hfree, hbuild.ready hready, hbuild.reserved hres₂, hbuild.shows hshows,
      fun i => wipe_self p i _⟩

/-! ## A directory under construction -/

/-- The new directory lies in frame `p`, which the first window shows. -/
structure Building (s : Vmm) (p : Nat) : Prop where
  ready : Ready s
  own : Reserved s p
  shows : Shows s 0 p

variable {p : Nat}

theorem Building.walk (h : Building s p) : s.walk (windowPage 0) = some p :=
  h.ready.walk (by decide) h.shows

theorem Builds.building (h : Builds own s t) (hs : Building s p) : Building t p :=
  ⟨h.ready hs.ready, h.reserved hs.own, h.shows hs.shows⟩

/-- Writing a slot of the new directory. -/
theorem Building.put (h : Building s p) (i : Nat) (e : PageEntry) :
    Builds [p] s { s with frames := put s.frames p i e } :=
  builds_write h.ready h.own fun _ hx => funext fun j => put_of_ne i j e hx

/-- Writing a slot of the new directory leaves the others alone. -/
theorem put_apply (m : Frames PageEntry) (f i : Nat) (e : PageEntry) (j : Nat) :
    put m f i e f j = if j = i then e else m f j := by
  by_cases hj : j = i
  · rw [if_pos hj, hj, put_self]
  · rw [if_neg hj, put_of_index_ne e hj]

/-- An entry of the frame that a window shows is written, and nothing else. -/
structure Wrote (s t : Vmm) (f i : Nat) (e : PageEntry) : Prop where
  builds : Builds [f] s t
  others : ∀ x ≠ f, t.frames x = s.frames x
  entry : ∀ j, t.frames f j = if j = i then e else s.frames f j

theorem wrote_put (hs : Ready s) {f : Nat} (hf : Reserved s f) (i : Nat) (e : PageEntry) :
    Wrote s { s with frames := put s.frames f i e } f i e := by
  have hout : ∀ x ≠ f, put s.frames f i e x = s.frames x :=
    fun x hx => funext fun j => put_of_ne i j e hx
  exact ⟨builds_write hs hf hout, hout, put_apply s.frames f i e⟩

/-- The windows stay where they are. -/
theorem Wrote.shows {f i w g : Nat} {e : PageEntry} (h : Wrote s t f i e) (hs : Ready s)
    (hf : Reserved s f) (hshows : Shows s w g) : Shows t w g := by
  have hsame : t.frames (windowTable t) = s.frames (windowTable s) := by
    rw [h.builds.windowTable_eq]
    exact h.others _ (hs.ne_windowTable hf).symm
  refine ⟨?_, ?_⟩
  · rw [hsame]
    exact hshows.present
  · rw [hsame]
    exact hshows.frame

theorem storeEntry_window (hs : Ready s) {f w : Nat} (hf : Reserved s f) (hw : w < 1024)
    (hshows : Shows s w f) (i : Nat) (e : PageEntry) :
    ∃ t, outcome (storeEntry (windowPage w) i e) s = some (some (), t) ∧ Wrote s t f i e :=
  ⟨_, storeEntry_eq (hs.walk hw hshows) i e, wrote_put hs hf i e⟩

theorem grantEntry_window (hs : Ready s) {f w : Nat} (hf : Reserved s f) (hw : w < 1024)
    (hshows : Shows s w f) (i phys : Nat) :
    ∃ t, outcome (grantEntry (windowPage w) i phys) s = some (some (), t) ∧
      Wrote s t f i ((s.frames f i).grant phys) :=
  ⟨_, grantEntry_eq (hs.walk hw hshows) i phys, wrote_put hs hf i _⟩

theorem grantUser_window (hs : Ready s) {f w : Nat} (hf : Reserved s f) (hw : w < 1024)
    (hshows : Shows s w f) (i : Nat) :
    ∃ t, outcome (grantUser (windowPage w) i) s = some (some (), t) ∧
      Wrote s t f i { s.frames f i with user := true } :=
  ⟨_, grantUser_eq (hs.walk hw hshows) i, wrote_put hs hf i _⟩

/-! ## The kernel half -/

/-- The loop of `clone_kernel_high_half`. -/
theorem cloneSlots_eq (i left : Nat) (h : Building s p) :
    ∃ t, outcome (cloneSlots (windowPage 0) recursivePd i left) s = some (some (), t) ∧
      Builds [p] s t ∧ ∀ j, t.frames p j =
        if i ≤ j ∧ j < i + left then s.frames s.cr3 j else s.frames p j := by
  induction left generalizing i s with
  | zero =>
    refine ⟨s, rfl, .refl h.ready.dirOk.below _, ?_⟩
    intro j
    rw [if_neg (by omega)]
  | succ left ih =>
    have hload := loadEntry_eq h.ready.dirOk.self.walk_pd i
    have hstore := storeEntry_eq h.walk i (s.frames s.cr3 i)
    have hb := h.put i (s.frames s.cr3 i)
    obtain ⟨t, ht, hbt, hslots⟩ := ih (i + 1) (hb.building h)
    refine ⟨t, ?_, hb.trans hbt (fun x hx => Or.inl hx), ?_⟩
    · rw [cloneSlots, outcome_bind_some hload, outcome_bind_some hstore]
      exact ht
    · intro j
      have hdir : put s.frames p i (s.frames s.cr3 i) s.cr3 j = s.frames s.cr3 j :=
        put_of_ne i j _ h.own.ne_dir.symm
      rw [hslots]
      show (if i + 1 ≤ j ∧ j < i + 1 + left then put s.frames p i (s.frames s.cr3 i) s.cr3 j
        else put s.frames p i (s.frames s.cr3 i) p j) = _
      rw [hdir, put_apply]
      by_cases hj : j = i
      · rw [if_neg (by omega), if_pos hj, if_pos (by omega), hj]
      · rw [if_neg hj]
        exact if_congr (by omega) rfl rfl

/-- The entry for the recursive slot. -/
def selfEntry (e : PageEntry) (p : Nat) : PageEntry :=
  { e with present := true, rw := true, user := false, frame := p }

/-- **`clone_kernel_high_half`**, on an empty directory. -/
theorem cloneKernelHighHalf_spec (h : Building s p) (hblank : ∀ i, s.frames p i = PageEntry.zero) :
    Ensures (cloneKernelHighHalf (windowPage 0) recursivePd (p * kpmmPageSize)) s (Builds [p] s)
      (fun _ t => ∀ i, t.frames p i =
        if kvmmPdIndex ≤ i ∧ i < 1023 then s.frames s.cr3 i
        else if i = 1023 then selfEntry PageEntry.zero p else PageEntry.zero) := by
  obtain ⟨t, ht, hb, hslots⟩ := cloneSlots_eq kvmmPdIndex (1023 - kvmmPdIndex) h
  have hbuilding := hb.building h
  have hload := loadEntry_eq hbuilding.walk 1023
  have hput := hbuilding.put 1023 (selfEntry (t.frames p 1023) p)
  have hzero : t.frames p 1023 = PageEntry.zero := by
    rw [hslots, if_neg (by decide), hblank]
  unfold cloneKernelHighHalf
  rw [Nat.mul_div_cancel p (by decide : 0 < kpmmPageSize)]
  refine Ensures.after ?_ ht
  refine Ensures.after ?_ hload
  refine ensures_of_outcome
    (storeEntry_eq hbuilding.walk 1023 (selfEntry (t.frames p 1023) p)) ?_ ?_
  · exact hb.trans hput fun x hx => Or.inl hx
  · intro i
    refine (put_apply t.frames p 1023 _ i).trans ?_
    rw [hzero]
    by_cases hi : i = 1023
    · rw [if_pos hi, if_neg (by omega), if_pos hi]
    · rw [if_neg hi, if_neg hi, hslots, hblank]
      exact if_congr (by unfold kvmmPdIndex; omega) rfl rfl

/-! ## Copied tables -/

/-- **A copy of a kernel table** in a frame that was free, which the second window shows. -/
theorem cloneTable_spec (hs : Ready s) {k : Nat} (hk : k < 1024)
    (hp : (s.frames s.cr3 k).present = true) :
    Ensures (cloneTable (recursivePt k)) s (Builds [] s) (fun phys t => ∃ u,
      phys = u * kpmmPageSize ∧ s.pmm.flags[u]? = some true ∧ Reserved t u ∧ Shows t 1 u ∧
      ((s.frames s.cr3 k).frame ≠ windowTable s → t.frames u = s.frames (s.frames s.cr3 k).frame))
      := by
  unfold cloneTable
  refine (takePage_spec hs.dirOk).bind (fun t ht => ht.1) ?_
  rintro _ s₁ ⟨hb₁, hframes₁⟩ ⟨u, rfl, hfree, hres⟩
  have hs₁ := hb₁.ready hs
  obtain ⟨s₂, hopen, hb₂, -, hout, hshows⟩ := openWindow_eq hs₁ (i := 1) (by decide) (by decide)
    (Nat.mul_mod_left u kpmmPageSize)
  rw [show u * kpmmPageSize / 4096 = u from Nat.mul_div_cancel u (by decide)] at hshows
  have hs₂ := hb₂.ready hs₁
  have hslot : s₂.frames s₂.cr3 k = s.frames s.cr3 k := (hb₂.slot k).trans (hb₁.slot k)
  have hsrc := hs₂.dirOk.self.walk_window hk (hslot ▸ hp)
  rw [hslot] at hsrc
  have hcopy := memcpyPage_eq (hs₂.walk (by decide) hshows) hsrc
  have hres₂ := hb₂.reserved hres
  have hb₃ : Builds [u] s₂ { s₂ with frames := paste s₂.frames u (s.frames s.cr3 k).frame } :=
    builds_write hs₂ hres₂ fun x hx => funext fun j => paste_of_ne _ j hx
  have hb : Builds [] s { s₂ with frames := paste s₂.frames u (s.frames s.cr3 k).frame } :=
    (hb₁.trans_nil hb₂).trans_fresh hb₃ hfree
  refine Ensures.after ?_ hopen
  refine Ensures.after ?_ hcopy
  refine ensures_pure hb ⟨u, rfl, hfree, hb₃.reserved hres₂, ?_, ?_⟩
  · have hne := hs₂.ne_windowTable hres₂
    have hkeep : paste s₂.frames u (s.frames s.cr3 k).frame (windowTable s₂) 1 =
        s₂.frames (windowTable s₂) 1 := paste_of_ne _ 1 hne.symm
    refine ⟨?_, ?_⟩
    · rw [hb₃.windowTable_eq]
      exact (congrArg PageEntry.present hkeep).trans hshows.present
    · rw [hb₃.windowTable_eq]
      exact (congrArg PageEntry.frame hkeep).trans hshows.frame
  · intro hne
    have hsame := hout _ (hb₁.windowTable_eq ▸ hne)
    rw [hframes₁] at hsame
    refine funext fun j => ?_
    exact (paste_self u _ j).trans (congrFun hsame j)

theorem stubs_pdeIndex (img : KernelImage) : pdeIndex img.ktaskStubs = kvmmPdIndex := by
  have h := img.stubs_slot
  unfold pdeIndex kvmmPdIndex at *
  omega

theorem syscall_pdeIndex (img : KernelImage) : pdeIndex img.syscall = kvmmPdIndex := by
  have h := img.syscall_slot
  unfold pdeIndex kvmmPdIndex at *
  omega

/-- The frame of the table that maps the kernel image. -/
def imageTable (s : Vmm) : Nat := (s.frames s.cr3 kvmmPdIndex).frame

/-- Setting a table entry's user bit. -/
def withUser (m : Nat → PageEntry) (j : Nat) : Nat → PageEntry :=
  fun i => if i = j then { m j with user := true } else m i

/-- What `map_stub_user_page` leaves: a copy `u` of the image's table, with the page of the stub
opened to ring 3, in the slot of the image. -/
structure StubMapped (img : KernelImage) (s t : Vmm) (p u : Nat) : Prop where
  free : s.pmm.flags[u]? = some true
  reserved : Reserved t u
  image : (s.frames s.cr3 kvmmPdIndex).present = true
  present : (s.frames (imageTable s) (pteIndex img.ktaskStubs)).present = true
  table : t.frames u = withUser (s.frames (imageTable s)) (pteIndex img.ktaskStubs)
  dir : ∀ i, t.frames p i =
    if i = kvmmPdIndex then (s.frames p kvmmPdIndex).grant (u * kpmmPageSize) else s.frames p i

/-- **`map_stub_user_page`**. -/
theorem mapStubUserPage_spec (img : KernelImage) (h : Building s p) :
    Ensures (mapStubUserPage img (windowPage 0)) s (Builds [p] s) (fun out t => ∃ u,
      out = (u * kpmmPageSize, kvmmPdIndex) ∧ StubMapped img s t p u) := by
  unfold mapStubUserPage
  rw [stubs_pdeIndex]
  refine Ensures.bind (?_ : Ensures _ s (fun t => t = s) fun e _ =>
    (s.frames s.cr3 kvmmPdIndex).present = true ∧
      e = s.frames (imageTable s) (pteIndex img.ktaskStubs)) ?_ ?_
  · intro q t ht
    obtain ⟨hp, rfl, rfl⟩ := loadEntry_pt h.ready.dirOk (by decide) ht
    exact ⟨rfl, fun e he => ⟨hp, (Option.some.inj he).symm⟩⟩
  · rintro t rfl
    exact .refl h.ready.dirOk.below _
  rintro e t rfl ⟨hp, rfl⟩
  split_ifs with hpresent
  · exact ensures_refuse (.refl h.ready.dirOk.below _)
  refine (cloneTable_spec h.ready (by decide) hp).bind
    (fun u hu => hu.weaken) ?_
  rintro _ s₁ hb₁ ⟨u, rfl, hfree, hres, hshows, hcopy⟩
  have hcopied := hcopy fun heq => by
    have hc := h.ready.dirOk.tidy.distinct kvmmPdIndex windowSlot (by decide) (by decide) hp
      h.ready.windows heq
    exact absurd hc (by decide)
  have h₁ := hb₁.building h
  have hpu := h.own.ne_free hfree
  obtain ⟨s₂, hgrant, hw₂⟩ := grantUser_window h₁.ready hres (by decide) hshows
    (pteIndex img.ktaskStubs)
  have h₂ := hw₂.builds.building h₁
  obtain ⟨s₃, hslot, hw₃⟩ := grantEntry_window h₂.ready h₂.own (by decide) h₂.shows kvmmPdIndex
    (u * kpmmPageSize)
  have hb : Builds [p] t s₃ :=
    (hb₁.weaken.trans_fresh hw₂.builds hfree).trans_own hw₃.builds (List.mem_singleton_self p)
  refine Ensures.after ?_ hgrant
  refine Ensures.after ?_ hslot
  refine ensures_pure hb ⟨u, rfl, hfree, ?_, hp, ?_, ?_, ?_⟩
  · exact hw₃.builds.reserved (hw₂.builds.reserved hres)
  · exact Bool.eq_true_of_not_eq_false hpresent
  · rw [hw₃.others u hpu.symm]
    funext i
    rw [hw₂.entry, hcopied]
    rfl
  · intro i
    rw [hw₃.entry, hw₂.others p hpu, hb₁.frames_eq h.ready h.own List.not_mem_nil]

/-- What `map_entry_if_kernel` leaves: nothing changes for an entry of user space; one in the
image's slot has its page opened in the table `u`; for any other a copy `v` of its table is put
in its slot. -/
inductive EntryMapped (entry : Nat) (s t : Vmm) (p u : Nat) : Prop where
  | user (low : entry < kernelVirtualBase) (dir : t.frames p = s.frames p)
      (table : t.frames u = s.frames u)
  | image (high : kernelVirtualBase ≤ entry) (slot : pdeIndex entry = kvmmPdIndex)
      (present : (s.frames (imageTable s) (pteIndex entry)).present = true)
      (dir : t.frames p = s.frames p)
      (table : t.frames u = withUser (s.frames u) (pteIndex entry))
  | other (v : Nat) (high : kernelVirtualBase ≤ entry) (slot : pdeIndex entry ≠ kvmmPdIndex)
      (free : s.pmm.flags[v]? = some true) (reserved : Reserved t v)
      (dir : ∀ i, t.frames p i = if i = pdeIndex entry then
        (s.frames p (pdeIndex entry)).grant (v * kpmmPageSize) else s.frames p i)
      (table : t.frames u = s.frames u)

/-- The table of `map_entry_if_kernel`. -/
theorem entryTable_spec {u k : Nat} (h : Building s p) (hk : k < 1024)
    (hp : (s.frames s.cr3 k).present = true) (hu : Reserved s u) (hpu : p ≠ u) :
    Ensures (entryTable (windowPage 0) k (u * kpmmPageSize) kvmmPdIndex) s (Builds [p] s)
      (fun phys t => (k = kvmmPdIndex ∧ phys = u * kpmmPageSize ∧ t = s) ∨
        (k ≠ kvmmPdIndex ∧ ∃ v, phys = v * kpmmPageSize ∧ s.pmm.flags[v]? = some true ∧
          Reserved t v ∧ t.frames u = s.frames u ∧ ∀ i, t.frames p i =
            if i = k then (s.frames p k).grant (v * kpmmPageSize) else s.frames p i)) := by
  have hrefl : Builds [p] s s := .refl h.ready.dirOk.below _
  unfold entryTable
  split_ifs with hslot
  · exact ensures_pure hrefl (Or.inl ⟨hslot, rfl, rfl⟩)
  refine (cloneTable_spec h.ready hk hp).bind (fun t ht => ht.weaken) ?_
  rintro _ s₁ hb₁ ⟨v, rfl, hfree, hres, -, -⟩
  have h₁ := hb₁.building h
  obtain ⟨s₂, hgrant, hw₂⟩ := grantEntry_window h₁.ready h₁.own (by decide) h₁.shows k
    (v * kpmmPageSize)
  refine Ensures.after ?_ hgrant
  refine ensures_pure (hb₁.weaken.trans_own hw₂.builds (List.mem_singleton_self p))
    (Or.inr ⟨hslot, v, rfl, hfree, hw₂.builds.reserved hres, ?_, ?_⟩)
  · rw [hw₂.others u hpu.symm, hb₁.frames_eq h.ready hu List.not_mem_nil]
  · intro i
    rw [hw₂.entry, hb₁.frames_eq h.ready h.own List.not_mem_nil]

/-- **`map_entry_if_kernel`**. -/
theorem mapEntryIfKernel_spec {u : Nat} (entry : Nat) (h : Building s p) (hu : Reserved s u)
    (hpu : p ≠ u) :
    Ensures (mapEntryIfKernel (windowPage 0) entry (u * kpmmPageSize) kvmmPdIndex) s
      (Builds [p, u] s) (fun _ t => EntryMapped entry s t p u) := by
  have hrefl : Builds [p, u] s s := .refl h.ready.dirOk.below _
  unfold mapEntryIfKernel
  dsimp only
  split_ifs with hlow
  · exact ensures_pure hrefl (.user hlow rfl rfl)
  have hhigh : kernelVirtualBase ≤ entry := by omega
  refine Ensures.bind (?_ : Ensures _ s (fun t => t = s) fun e _ =>
    (s.frames s.cr3 (pdeIndex entry)).present = true ∧
      e = s.frames (s.frames s.cr3 (pdeIndex entry)).frame (pteIndex entry)) ?_ ?_
  · intro q t ht
    obtain ⟨hp, rfl, rfl⟩ := loadEntry_pt h.ready.dirOk (pdeIndex_lt entry) ht
    exact ⟨rfl, fun e he => ⟨hp, (Option.some.inj he).symm⟩⟩
  · rintro t rfl
    exact hrefl
  rintro e t rfl ⟨hp, rfl⟩
  split_ifs with hpresent
  · exact ensures_refuse hrefl
  have hentry := Bool.eq_true_of_not_eq_false hpresent
  have hp₁ : p ∈ [p, u] := List.mem_cons_self
  have hu₁ : u ∈ [p, u] := List.mem_cons_of_mem p (List.mem_singleton_self u)
  have hsub : ∀ x ∈ [p], x ∈ [p, u] ∨ t.pmm.flags[x]? = some true :=
    fun x hx => Or.inl (List.mem_singleton.1 hx ▸ hp₁)
  refine (entryTable_spec h (pdeIndex_lt entry) hp hu hpu).bind
    (fun t' ht' => ht'.mono hsub) ?_
  intro phys s₁ hb₁ hcase
  have h₁ := hb₁.building h
  have hu₁' := hb₁.reserved hu
  -- the table whose entry is opened, whichever it is
  obtain ⟨g, rfl, hg⟩ : ∃ g, phys = g * kpmmPageSize ∧ Reserved s₁ g := by
    rcases hcase with ⟨-, rfl, -⟩ | ⟨-, v, rfl, -, hv, -⟩
    · exact ⟨u, rfl, hu₁'⟩
    · exact ⟨v, rfl, hv⟩
  obtain ⟨s₂, hopen, hb₂, -, hout, hshows⟩ := openWindow_eq h₁.ready (i := 1) (by decide)
    (by decide) (Nat.mul_mod_left g kpmmPageSize)
  rw [show g * kpmmPageSize / 4096 = g from Nat.mul_div_cancel g (by decide)] at hshows
  have h₂ := hb₂.building h₁
  have hpages : ∀ f, Reserved s₁ f → s₂.frames f = s₁.frames f :=
    fun f hf => hb₂.frames_eq h₁.ready hf List.not_mem_nil
  obtain ⟨s₃, hgrant, hw₃⟩ := grantUser_window h₂.ready (hb₂.reserved hg) (by decide) hshows
    (pteIndex entry)
  have hb₁₂ : Builds [p, u] t s₂ := (hb₁.mono hsub).trans_nil hb₂
  refine Ensures.after ?_ hopen
  rcases hcase with ⟨hslot, hgu, rfl⟩ | ⟨hslot, v, hgv, hfree, hv, htable, hdir⟩
  · obtain rfl : g = u := Nat.eq_of_mul_eq_mul_right (by decide) hgu
    refine ensures_of_outcome hgrant (hb₁₂.trans_own hw₃.builds hu₁)
      (.image hhigh hslot ?_ ?_ ?_)
    · rw [hslot] at hentry
      exact hentry
    · rw [hw₃.others p hpu, hpages p h₁.own]
    · funext i
      rw [hw₃.entry, hpages g hg]
      rfl
  · obtain rfl : g = v := Nat.eq_of_mul_eq_mul_right (by decide) hgv
    refine ensures_of_outcome hgrant (hb₁₂.trans_fresh hw₃.builds hfree)
      (.other g hhigh hslot hfree (hw₃.builds.reserved (hb₂.reserved hg)) ?_ ?_)
    · intro i
      rw [hw₃.others p (h.own.ne_free hfree), hpages p h₁.own, hdir]
    · rw [hw₃.others u (hu.ne_free hfree), hpages u hu₁', htable]

/-! ## The user stack -/

/-- The directory slot of the user stack, and the table entry of its first page. -/
def stackSlot : Nat := 767
def stackPte : Nat := 0x3FA

theorem pdeIndex_stack {i : Nat} (hi : i < kprocessUserStackPageCount) :
    pdeIndex (kprocessUserStackBottom + i * kpmmPageSize) = stackSlot := by
  unfold pdeIndex kprocessUserStackBottom kpmmPageSize stackSlot
  unfold kprocessUserStackPageCount at hi
  omega

theorem pteIndex_stack {i : Nat} (hi : i < kprocessUserStackPageCount) :
    pteIndex (kprocessUserStackBottom + i * kpmmPageSize) = stackPte + i := by
  unfold pteIndex kprocessUserStackBottom kpmmPageSize stackPte
  unfold kprocessUserStackPageCount at hi
  omega

/-- The table of the stack, with its first `n` pages mapped to the frames from `a` on. -/
def StackPages (s : Vmm) (q a n : Nat) : Prop :=
  ∀ i, s.frames q i = if stackPte ≤ i ∧ i < stackPte + n
    then PageEntry.zero.grant ((a + (i - stackPte)) * kpmmPageSize) else PageEntry.zero

/-- A new, empty table for a slot that has none. -/
theorem ensureStackTable_spec {k : Nat} (h : Building s p) (hk : (s.frames p k).present = false) :
    Ensures (ensureStackTable (windowPage 0) k) s (Builds [p] s) (fun _ t => ∃ q,
      s.pmm.flags[q]? = some true ∧ Reserved t q ∧ (∀ i, t.frames q i = PageEntry.zero) ∧
      ∀ i, t.frames p i =
        if i = k then (s.frames p k).grant (q * kpmmPageSize) else s.frames p i) := by
  unfold ensureStackTable
  refine Ensures.after ?_ (loadEntry_eq h.walk k)
  rw [if_pos hk]
  refine (takePage_spec h.ready.dirOk).bind (fun t ht => ht.1.weaken) ?_
  rintro _ s₁ ⟨hb₁, hframes₁⟩ ⟨q, rfl, hfree, hres⟩
  have h₁ := hb₁.building h
  obtain ⟨s₂, hopen, hb₂, -, hout, hshows⟩ := openWindow_eq h₁.ready (i := 1) (by decide)
    (by decide) (Nat.mul_mod_left q kpmmPageSize)
  rw [show q * kpmmPageSize / 4096 = q from Nat.mul_div_cancel q (by decide)] at hshows
  have h₂ := hb₂.building h₁
  have hres₂ := hb₂.reserved hres
  have hb₃ : Builds [q] s₂ (s₂.clearFrame q) :=
    builds_write h₂.ready hres₂ fun x hx => funext fun j => wipe_of_ne j _ hx
  have h₃ := hb₃.building h₂
  obtain ⟨s₄, hgrant, hw₄⟩ := grantEntry_window h₃.ready h₃.own (by decide) h₃.shows k
    (q * kpmmPageSize)
  have hpq := h.own.ne_free hfree
  have hpd : (s₂.clearFrame q).frames p = s.frames p := by
    rw [← hframes₁, ← hb₂.frames_eq h₁.ready h₁.own List.not_mem_nil]
    exact funext fun j => wipe_of_ne j _ hpq
  refine Ensures.after ?_ hopen
  refine Ensures.after ?_ (memsetPage_eq (h₂.ready.walk (by decide) hshows))
  refine ensures_of_outcome hgrant ?_ ⟨q, hfree, ?_, ?_, ?_⟩
  · exact ((hb₁.weaken.trans_nil hb₂).trans_fresh hb₃ hfree).trans_own hw₄.builds
      (List.mem_singleton_self p)
  · exact hw₄.builds.reserved (hb₃.reserved hres₂)
  · intro i
    rw [hw₄.others q hpq.symm]
    exact wipe_self q i _
  · intro i
    rw [hw₄.entry, hpd]

theorem ensureStackTable_of_present {k : Nat} (h : Building s p)
    (hk : (s.frames p k).present = true) :
    outcome (ensureStackTable (windowPage 0) k) s = some (some (), s) := by
  unfold ensureStackTable
  rw [outcome_bind_some (loadEntry_eq h.walk k), if_neg (by rw [hk]; decide)]
  rfl

/-- An entry of the table `q` that the slot names. -/
theorem fillStackEntry_spec {k j phys q : Nat} (h : Building s p) (hq : Reserved s q)
    (hpq : p ≠ q) (hslot : (s.frames p k).frame = q) :
    Ensures (fillStackEntry (windowPage 0) k j phys) s (Builds [q] s) (fun _ t =>
      t.frames p = s.frames p ∧
      ∀ i, t.frames q i = if i = j then (s.frames q j).grant phys else s.frames q i) := by
  unfold fillStackEntry
  refine Ensures.after ?_ (loadEntry_eq h.walk k)
  rw [hslot]
  obtain ⟨s₁, hopen, hb₁, -, -, hshows⟩ := openWindow_eq h.ready (i := 1) (by decide)
    (by decide) (Nat.mul_mod_left q kpmmPageSize)
  rw [show q * kpmmPageSize / 4096 = q from Nat.mul_div_cancel q (by decide)] at hshows
  have h₁ := hb₁.building h
  refine Ensures.after ?_ hopen
  refine Ensures.after ?_ (loadEntry_eq (h₁.ready.walk (by decide) hshows) j)
  split_ifs
  · exact ensures_refuse hb₁.weaken
  obtain ⟨s₂, hgrant, hw₂⟩ := grantEntry_window h₁.ready (hb₁.reserved hq) (by decide) hshows j phys
  refine ensures_of_outcome hgrant (hb₁.weaken.trans_own hw₂.builds (List.mem_singleton_self q))
    ⟨?_, ?_⟩
  · rw [hw₂.others p hpq, hb₁.frames_eq h.ready h.own List.not_mem_nil]
  · intro i
    rw [hw₂.entry, hb₁.frames_eq h.ready hq List.not_mem_nil]

/-- One more page of the stack. -/
theorem fillStackEntry_stackPages {a i q : Nat} (h : Building s p) (hq : Reserved s q)
    (hpq : p ≠ q) (hslot : (s.frames p stackSlot).frame = q) (ha : a + 4 ≤ 2 ^ 20)
    (hi : i < kprocessUserStackPageCount) (hpages : StackPages s q a i) :
    Ensures (fillStackEntry (windowPage 0)
        (pdeIndex (kprocessUserStackBottom + i * kpmmPageSize))
        (pteIndex (kprocessUserStackBottom + i * kpmmPageSize))
        (u32 (a * kpmmPageSize + i * kpmmPageSize))) s (Builds [q] s)
      (fun _ t => t.frames p = s.frames p ∧ StackPages t q a (i + 1)) := by
  have hphys : u32 (a * kpmmPageSize + i * kpmmPageSize) = (a + i) * kpmmPageSize := by
    rw [← Nat.add_mul]
    refine u32_eq ?_
    unfold kpmmPageSize
    unfold kprocessUserStackPageCount at hi
    omega
  rw [pdeIndex_stack hi, pteIndex_stack hi, hphys]
  refine (fillStackEntry_spec h hq hpq hslot).mono (fun t ht => ht) ?_
  rintro _ t - ⟨hp, hentry⟩
  refine ⟨hp, ?_⟩
  intro j
  rw [hentry, hpages, hpages]
  by_cases hj : j = stackPte + i
  · rw [if_pos hj, if_neg (by omega), if_pos (by omega), hj, Nat.add_sub_cancel_left]
  · rw [if_neg hj]
    exact if_congr (by omega) rfl rfl

/-- The loop of `map_user_stack`, once the stack has its table. -/
theorem mapStackPages_spec {a q : Nat} (i left : Nat) (h : Building s p) (hq : Reserved s q)
    (hpq : p ≠ q) (hpresent : (s.frames p stackSlot).present = true)
    (hslot : (s.frames p stackSlot).frame = q) (ha : a + 4 ≤ 2 ^ 20)
    (hi : i + left ≤ kprocessUserStackPageCount) (hpages : StackPages s q a i) :
    Ensures (mapStackPages (windowPage 0) (a * kpmmPageSize) i left) s (Builds [q] s)
      (fun _ t => t.frames p = s.frames p ∧ StackPages t q a (i + left)) := by
  induction left generalizing i s with
  | zero => exact ensures_pure (.refl h.ready.dirOk.below _) ⟨rfl, hpages⟩
  | succ left ih =>
    unfold mapStackPages
    refine Ensures.after ?_ (ensureStackTable_of_present h
      (by rw [pdeIndex_stack (by omega)]; exact hpresent))
    refine (fillStackEntry_stackPages h hq hpq hslot ha (by omega) hpages).bind (fun t ht => ht) ?_
    rintro _ s₁ hb₁ ⟨hp₁, hpages₁⟩
    refine (ih (i + 1) (hb₁.building h) (hb₁.reserved hq) (hp₁ ▸ hpresent) (hp₁ ▸ hslot) (by omega)
      hpages₁).mono (fun t ht => hb₁.trans_own ht (List.mem_singleton_self q)) ?_
    rintro _ t - ⟨hp, hpages'⟩
    refine ⟨hp.trans hp₁, ?_⟩
    rw [show i + (left + 1) = i + 1 + left by omega]
    exact hpages'

/-- What `map_user_stack` leaves: the frames from `a` on, behind a table `q` of its own. -/
structure StackMapped (s t : Vmm) (p q a : Nat) : Prop where
  bound : a + kprocessUserStackPageCount ≤ 2 ^ 20
  stack : ∀ j < kprocessUserStackPageCount,
    s.pmm.flags[a + j]? = some true ∧ Reserved t (a + j) ∧ q ≠ a + j
  free : s.pmm.flags[q]? = some true
  reserved : Reserved t q
  pages : StackPages t q a kprocessUserStackPageCount
  dir : ∀ i, t.frames p i =
    if i = stackSlot then (s.frames p stackSlot).grant (q * kpmmPageSize) else s.frames p i

/-- **`map_user_stack`**. -/
theorem mapUserStack_spec (h : Building s p) (hslot : (s.frames p stackSlot).present = false) :
    Ensures (mapUserStack (windowPage 0)) s (Builds [p] s)
      (fun phys t => ∃ q a, phys = a * kpmmPageSize ∧ StackMapped s t p q a) := by
  unfold mapUserStack
  refine (takePages_spec h.ready.dirOk kprocessUserStackPageCount).bind
    (fun t ht => ht.1.weaken) ?_
  rintro _ s₁ ⟨hb₁, hframes₁⟩ ⟨a, -, rfl, ha, hrun⟩
  have h₁ := hb₁.building h
  have hslot₁ : (s₁.frames p stackSlot).present = false := by
    rw [hframes₁]
    exact hslot
  -- the first page makes the table
  have hloop : Ensures (mapStackPages (windowPage 0) (a * kpmmPageSize) 0
      kprocessUserStackPageCount) s₁ (Builds [p] s₁) (fun _ t => ∃ q,
        s₁.pmm.flags[q]? = some true ∧ Reserved t q ∧
        StackPages t q a kprocessUserStackPageCount ∧ ∀ i, t.frames p i =
          if i = stackSlot then (s₁.frames p stackSlot).grant (q * kpmmPageSize)
          else s₁.frames p i) := by
    unfold kprocessUserStackPageCount mapStackPages
    have hensure := ensureStackTable_spec h₁ hslot₁
    rw [← pdeIndex_stack (i := 0) (by decide)] at hensure
    refine hensure.bind (fun t ht => ht) ?_
    rintro _ s₂ hb₂ ⟨q, hfree, hres, hblank, hdir⟩
    rw [pdeIndex_stack (by decide)] at hdir
    have h₂ := hb₂.building h₁
    have hpq := h₁.own.ne_free hfree
    have hslot₂ : s₂.frames p stackSlot = (s₁.frames p stackSlot).grant (q * kpmmPageSize) := by
      rw [hdir, if_pos rfl]
    have hframe : (s₂.frames p stackSlot).frame = q := by
      rw [hslot₂]
      exact Nat.mul_div_cancel q (by decide)
    have hpages : StackPages s₂ q a 0 := by
      intro i
      rw [hblank, if_neg (by omega)]
    refine (fillStackEntry_stackPages h₂ hres hpq hframe ha (by decide) hpages).bind
      (fun t ht => hb₂.trans_fresh ht hfree) ?_
    rintro _ s₃ hb₃ ⟨hp₃, hpages₃⟩
    refine (mapStackPages_spec 1 3 (hb₃.building h₂) (hb₃.reserved hres) hpq ?_ (hp₃ ▸ hframe) ha
      (by decide) hpages₃).mono (fun t ht => (hb₂.trans_fresh hb₃ hfree).trans_fresh ht hfree) ?_
    · rw [hp₃, hslot₂]
      rfl
    · rintro _ t ht ⟨hp, hpages'⟩
      refine ⟨q, hfree, ht.reserved (hb₃.reserved hres), hpages', ?_⟩
      intro i
      rw [hp, hp₃, hdir]
  refine hloop.bind (fun t ht => hb₁.weaken.trans ht fun x hx => Or.inl hx) ?_
  rintro _ s₂ hb₂ ⟨q, hfree, hres, hpages, hdir⟩
  refine ensures_pure (hb₁.weaken.trans hb₂ fun x hx => Or.inl hx) ⟨q, a, rfl, ha, ?_, ?_, hres,
    hpages, ?_⟩
  · intro j hj
    obtain ⟨hfreej, hresj⟩ := hrun j hj
    exact ⟨hfreej, hb₂.reserved hresj, (hresj.ne_free hfree).symm⟩
  · exact hb₁.free hfree
  · intro i
    rw [hdir, hframes₁]

/-- **`setup_initial_stack`** writes the last page of the stack. -/
theorem setupInitialStack_spec {a : Nat} (entry : Nat) (process : UserProcess) (hs : Ready s)
    (ha : a + kprocessUserStackPageCount ≤ 2 ^ 20) (hlast : Reserved s (a + 3)) :
    Ensures (setupInitialStack (a * kpmmPageSize) entry process) s (Builds [a + 3] s)
      (fun out _ => out = { process with esp := kprocessUserStackTop - 8 }) := by
  have hphys : u32 (a * kpmmPageSize + (kprocessUserStackPageCount - 1) * kpmmPageSize) =
      (a + 3) * kpmmPageSize := by
    rw [← Nat.add_mul]
    refine u32_eq ?_
    unfold kprocessUserStackPageCount at *
    unfold kpmmPageSize
    omega
  unfold setupInitialStack
  dsimp only
  rw [hphys]
  obtain ⟨s₁, hopen, hb₁, -, -, hshows⟩ := openWindow_eq hs (i := 2) (by decide)
    (by decide) (Nat.mul_mod_left (a + 3) kpmmPageSize)
  rw [show (a + 3) * kpmmPageSize / 4096 = a + 3 from Nat.mul_div_cancel _ (by decide)] at hshows
  have hs₁ := hb₁.ready hs
  have hres₁ := hb₁.reserved hlast
  obtain ⟨s₂, hstore₂, hw₂⟩ := storeEntry_window hs₁ hres₁ (by decide) hshows 1023
    (PageEntry.ofWord entry)
  have hs₂ := hw₂.builds.ready hs₁
  have hres₂ := hw₂.builds.reserved hres₁
  obtain ⟨s₃, hstore₃, hw₃⟩ := storeEntry_window hs₂ hres₂ (by decide)
    (hw₂.shows hs₁ hres₁ hshows) 1022 (PageEntry.ofWord 0)
  have hmem := List.mem_singleton_self (a + 3)
  refine Ensures.after ?_ hopen
  refine Ensures.after ?_ hstore₂
  refine Ensures.after ?_ hstore₃
  exact ensures_pure ((hb₁.weaken.trans_own hw₂.builds hmem).trans_own hw₃.builds hmem) rfl

end DelOs
