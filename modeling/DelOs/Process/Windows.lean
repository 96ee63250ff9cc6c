import DelOs.Memory.TableFrames
import DelOs.Process.User

/-!
# The temporary windows

Once the directory slot of the three windows of `kprocess_create_user` has a table, mapping a
window to a frame changes one entry of that table, and what is then written through the window
is written to the frame.

* `Ready` — the directory is well formed and the windows have their table.
* `Shows` — a window is mapped to a frame.
* `Builds` — **what one stretch of the construction leaves alone**: of the frames that were in
  use before it, only the table of the windows and those it names are written.
* `takePages_spec`, `openWindow_eq` — frames are taken, a window is opened.
* `loadEntry_eq`, `storeEntry_eq`, `grantEntry_eq`, `grantUser_eq` — accesses at a window.
-/

namespace DelOs

open Attempt FlagRuns TwoLevel

variable {r s t : Vmm} {own own' : List Nat}

/-! ## The slot of the windows -/

/-- The directory slot of the windows. -/
def windowSlot : Nat := 896

/-- The frame of their table. -/
def windowTable (s : Vmm) : Nat := (s.frames s.cr3 windowSlot).frame

/-- The page of window `i`, and its address. -/
def windowPage (i : Nat) : Nat := 0xE0000 + i
def windowVaddr (i : Nat) : Nat := windowPage i * 4096

@[simp] theorem pageOf_pdTmp : pageOf kprocessPdTmpVaddr = windowPage 0 := rfl

@[simp] theorem pageOf_ptTmp : pageOf kprocessPtTmpVaddr = windowPage 1 := rfl

@[simp] theorem pageOf_stackTmp : pageOf kprocessStackTmpVaddr = windowPage 2 := rfl

@[simp] theorem pdTmp_eq : kprocessPdTmpVaddr = windowVaddr 0 := rfl

@[simp] theorem ptTmp_eq : kprocessPtTmpVaddr = windowVaddr 1 := rfl

@[simp] theorem stackTmp_eq : kprocessStackTmpVaddr = windowVaddr 2 := rfl

theorem windowVaddr_lt {i : Nat} (hi : i < 1024) : windowVaddr i < windowStart * 4096 := by
  unfold windowVaddr windowPage windowStart
  omega

theorem pdeIndex_windowVaddr {i : Nat} (hi : i < 1024) : pdeIndex (windowVaddr i) = windowSlot := by
  unfold pdeIndex windowVaddr windowPage windowSlot
  omega

theorem pteIndex_windowVaddr {i : Nat} (hi : i < 1024) : pteIndex (windowVaddr i) = i := by
  unfold pteIndex windowVaddr windowPage
  omega

/-- The directory is well formed and the windows have their table. -/
structure Ready (s : Vmm) : Prop where
  dirOk : DirOk s
  windows : (s.frames s.cr3 windowSlot).present = true

/-- Window `i` is mapped to frame `f`. -/
structure Shows (s : Vmm) (i f : Nat) : Prop where
  present : (s.frames (windowTable s) i).present = true
  frame : (s.frames (windowTable s) i).frame = f

namespace Ready

theorem windowTable_ne (hs : Ready s) : windowTable s ≠ s.cr3 :=
  hs.dirOk.tidy.ne_root windowSlot (by decide) hs.windows

theorem ne_windowTable (hs : Ready s) {f : Nat} (hf : Reserved s f) : f ≠ windowTable s :=
  fun h => hf.ne_table windowSlot (by decide) hs.windows h.symm

/-- An access at a window goes to the frame it shows. -/
theorem walk (hs : Ready s) {i f : Nat} (hi : i < 1024) (h : Shows s i f) :
    s.walk (windowPage i) = some f := by
  have hdiv : windowPage i / 1024 = windowSlot := by
    unfold windowPage windowSlot
    omega
  have hmod : windowPage i % 1024 = i := by
    unfold windowPage
    omega
  have hroot : TableEntry.present (s.frames s.cr3 windowSlot) = true := hs.windows
  have hnext : TableEntry.next (s.frames s.cr3 windowSlot) = windowTable s := rfl
  have hleaf : TableEntry.present (s.frames (windowTable s) i) = true := h.present
  simp [Vmm.walk, Vmm.entries, lookup, hdiv, hmod, hroot, hnext, hleaf, h.frame]

end Ready

/-! ## Stretches of the construction -/

/-- Of the frames in use at the start, only the table of the windows and those of `own` are
written; the directory, the first window and the bits of used frames stay. -/
structure Builds (own : List Nat) (s t : Vmm) : Prop where
  cr3 : t.cr3 = s.cr3
  below : t.pmm.Below4G
  used : ∀ x : Nat, s.pmm.flags[x]? ≠ some true → t.pmm.flags[x]? = s.pmm.flags[x]?
  dir : t.frames s.cr3 = s.frames s.cr3
  window : t.frames (windowTable s) 0 = s.frames (windowTable s) 0
  kept : ∀ x, s.pmm.flags[x]? ≠ some true → x ≠ windowTable s → x ∉ own →
    t.frames x = s.frames x

namespace Builds

theorem refl (hs : s.pmm.Below4G) (own : List Nat) : Builds own s s :=
  ⟨rfl, hs, fun _ _ => rfl, rfl, rfl, fun _ _ _ _ => rfl⟩

theorem slot (h : Builds own s t) (k : Nat) : t.frames t.cr3 k = s.frames s.cr3 k := by
  rw [h.cr3, h.dir]

theorem windowTable_eq (h : Builds own s t) : windowTable t = windowTable s :=
  congrArg PageEntry.frame (h.slot windowSlot)

theorem dirOk (h : Builds own s t) (hd : DirOk s) : DirOk t := by
  refine hd.congr h.cr3 (fun k => congrFun h.dir k) h.below ?_
  intro x hx
  rw [h.used x hx]
  exact hx

theorem ready (h : Builds own s t) (hs : Ready s) : Ready t := by
  refine ⟨h.dirOk hs.dirOk, ?_⟩
  rw [h.slot]
  exact hs.windows

theorem reserved (h : Builds own s t) {f : Nat} (hf : Reserved s f) : Reserved t f := by
  refine ⟨?_, h.cr3.symm ▸ hf.ne_dir, ?_⟩
  · rw [h.used f (by rw [hf.used]; decide)]
    exact hf.used
  · intro k hk hp
    rw [h.slot] at hp ⊢
    exact hf.ne_table k hk hp

theorem shows (h : Builds own s t) {f : Nat} (hf : Shows s 0 f) : Shows t 0 f := by
  refine ⟨?_, ?_⟩
  · rw [h.windowTable_eq, h.window]
    exact hf.present
  · rw [h.windowTable_eq, h.window]
    exact hf.frame

/-- What was free at the end was free at the start. -/
theorem free (h : Builds own s t) {x : Nat} (hx : t.pmm.flags[x]? = some true) :
    s.pmm.flags[x]? = some true := by
  by_contra hc
  exact hc ((h.used x hc) ▸ hx)

/-- A reserved frame that is not named is not written. -/
theorem frames_eq (h : Builds own s t) (hs : Ready s) {f : Nat} (hf : Reserved s f)
    (hown : f ∉ own) : t.frames f = s.frames f :=
  h.kept f (by rw [hf.used]; decide) (hs.ne_windowTable hf) hown

/-- Nor is a table of the kernel. -/
theorem table_eq (h : Builds own s t) (hs : Ready s) {k : Nat} (hk : k < 1023)
    (hp : (s.frames s.cr3 k).present = true) (hne : k ≠ windowSlot)
    (hown : ∀ x ∈ own, Reserved s x ∨ s.pmm.flags[x]? = some true) :
    t.frames (s.frames s.cr3 k).frame = s.frames (s.frames s.cr3 k).frame := by
  refine h.kept _ (hs.dirOk.table_used k hk hp) ?_ ?_
  · intro heq
    exact hne (hs.dirOk.tidy.distinct k windowSlot hk (by decide) hp hs.windows heq)
  · intro hmem
    rcases hown _ hmem with hres | hfree
    · exact hres.ne_table k hk hp rfl
    · exact hs.dirOk.table_used k hk hp hfree

/-- Two stretches make one; what the second names was named by the first, or free before it. -/
theorem trans (h₁ : Builds own r s) (h₂ : Builds own' s t)
    (hown : ∀ x ∈ own', x ∈ own ∨ r.pmm.flags[x]? = some true) : Builds own r t := by
  have hw := h₁.windowTable_eq
  refine ⟨h₂.cr3.trans h₁.cr3, h₂.below, ?_, ?_, ?_, ?_⟩
  · intro x hx
    have hs := h₁.used x hx
    rw [h₂.used x (hs.trans_ne hx), hs]
  · have h := h₂.dir
    rw [h₁.cr3] at h
    rw [h, h₁.dir]
  · have h := h₂.window
    rw [hw] at h
    rw [h, h₁.window]
  · intro x hx hne hout
    have hs := h₁.used x hx
    rw [h₂.kept x (hs.trans_ne hx) (hw ▸ hne) ?_, h₁.kept x hx hne hout]
    intro hmem
    exact (hown x hmem).elim hout hx

theorem mono (h : Builds own s t) (hsub : ∀ x ∈ own, x ∈ own' ∨ s.pmm.flags[x]? = some true) :
    Builds own' s t :=
  ⟨h.cr3, h.below, h.used, h.dir, h.window, fun x hx hne hout =>
    h.kept x hx hne fun hmem => (hsub x hmem).elim hout hx⟩

theorem weaken (h : Builds [] s t) : Builds own s t :=
  h.mono fun _ hx => absurd hx List.not_mem_nil

/-- A stretch that writes a frame that was free. -/
theorem trans_fresh (h₁ : Builds own r s) {f : Nat} (h₂ : Builds [f] s t)
    (hfree : r.pmm.flags[f]? = some true) : Builds own r t :=
  h₁.trans h₂ fun _ hx => Or.inr (List.mem_singleton.1 hx ▸ hfree)

/-- A stretch that writes a frame already named. -/
theorem trans_own (h₁ : Builds own r s) {f : Nat} (h₂ : Builds [f] s t) (hf : f ∈ own) :
    Builds own r t :=
  h₁.trans h₂ fun _ hx => Or.inl (List.mem_singleton.1 hx ▸ hf)

/-- A stretch that writes the table of the windows only. -/
theorem trans_nil (h₁ : Builds own r s) (h₂ : Builds [] s t) : Builds own r t :=
  h₁.trans h₂ fun _ hx => absurd hx List.not_mem_nil

end Builds

/-- A frame in use was not free. -/
theorem Reserved.ne_free {f g : Nat} (hf : Reserved s f) (hg : s.pmm.flags[g]? = some true) :
    f ≠ g := by
  rintro rfl
  have hused := hf.used
  rw [hg] at hused
  cases hused

/-- Writing one frame that is neither the directory nor one of its tables. -/
theorem builds_write (hs : Ready s) {f : Nat} (hf : Reserved s f) {m : Frames PageEntry}
    (hm : ∀ x ≠ f, m x = s.frames x) : Builds [f] s { s with frames := m } := by
  refine ⟨rfl, hs.dirOk.below, fun _ _ => rfl, hm _ hf.ne_dir.symm, ?_, ?_⟩
  · exact congrFun (hm _ (hs.ne_windowTable hf).symm) 0
  · intro x _ _ hout
    exact hm x fun h => hout (h ▸ List.mem_singleton_self f)

/-! ## Taking frames -/

theorem takePages_spec (hd : DirOk s) (n : Nat) :
    Ensures (takePages n) s (fun t => Builds [] s t ∧ t.frames = s.frames)
      (fun phys t => ∃ a, a ≠ 0 ∧ phys = a * kpmmPageSize ∧ a + n ≤ 2 ^ 20 ∧
        ∀ j < n, s.pmm.flags[a + j]? = some true ∧ Reserved t (a + j)) := by
  refine Ensures.bind
    (ensures_call (Q := fun phys t => phys ≠ 0 → ∃ a, phys = a * kpmmPageSize ∧ a + n ≤ 2 ^ 20 ∧
      ∀ j < n, Reserved t (a + j) ∧ s.pmm.flags[a + j]? = some true) ?_) (fun t ht => ht) ?_
  · intro phys t h
    obtain ⟨⟨p, pmm⟩, halloc, heq⟩ := Option.map_eq_some_iff.1 h
    cases heq
    obtain ⟨hbelow, hused, -⟩ := Pmm.allocPages_takes hd.below halloc
    exact ⟨⟨⟨rfl, hbelow, hused, rfl, rfl, fun _ _ _ _ => rfl⟩, rfl⟩,
      (reserved_allocPages hd halloc).2.2⟩
  · intro phys t ht hq
    split_ifs with h0
    · exact ensures_refuse ht
    · obtain ⟨a, rfl, hend, hrun⟩ := hq h0
      refine ensures_pure ht ⟨a, ?_, rfl, hend, fun j hj => ⟨(hrun j hj).2, (hrun j hj).1⟩⟩
      rintro rfl
      exact h0 (Nat.zero_mul _)

/-- One frame. -/
theorem takePage_spec (hd : DirOk s) :
    Ensures (takePages 1) s (fun t => Builds [] s t ∧ t.frames = s.frames)
      (fun phys t => ∃ f, phys = f * kpmmPageSize ∧ s.pmm.flags[f]? = some true ∧ Reserved t f) := by
  refine (takePages_spec hd 1).mono (fun t ht => ht) ?_
  rintro phys t - ⟨a, -, rfl, -, hrun⟩
  obtain ⟨hfree, hres⟩ := hrun 0 (by decide)
  exact ⟨a, rfl, hfree, hres⟩

/-! ## Opening a window -/

/-- An entry of the table of the windows is written. -/
theorem builds_window (hs : Ready s) {i : Nat} (hi : 0 < i) (e : PageEntry) :
    Builds [] s { s with frames := put s.frames (windowTable s) i e } := by
  refine ⟨rfl, hs.dirOk.below, fun _ _ => rfl, ?_, put_of_index_ne e hi.ne, ?_⟩
  · exact funext fun j => put_of_ne i j e hs.windowTable_ne.symm
  · intro x _ hne _
    exact funext fun j => put_of_ne i j e hne

/-- **Opening a window** other than that of the directory. -/
theorem openWindow_eq (hs : Ready s) {i phys : Nat} (hpos : 0 < i) (hi : i < 1024)
    (hphys : phys % 4096 = 0) :
    ∃ t, outcome (openWindow (windowVaddr i) phys) s = some (some (), t) ∧ Builds [] s t ∧
      t.pmm = s.pmm ∧ (∀ x ≠ windowTable s, t.frames x = s.frames x) ∧
      Shows t i (phys / 4096) := by
  have hv0 : windowVaddr i % 4096 = 0 := Nat.mul_mod_left _ _
  -- after the unmapping, the entry is absent
  obtain ⟨b, s₁, hunmap, hb₁, hpmm₁, hout₁, habsent⟩ :
      ∃ b s₁, s.kvmmUnmapPage (windowVaddr i) = some (b, s₁) ∧ Builds [] s s₁ ∧
        s₁.pmm = s.pmm ∧ (∀ x ≠ windowTable s, s₁.frames x = s.frames x) ∧
        (s₁.frames (windowTable s) i).present = false := by
    rw [kvmmUnmapPage_eq hs.dirOk.self hv0, pdeIndex_windowVaddr hi, pteIndex_windowVaddr hi]
    split_ifs with hp
    · refine ⟨true, _, rfl, builds_window hs hpos _, rfl, ?_, ?_⟩
      · intro x hx
        exact funext fun j => put_of_ne i j _ hx
      · exact congrArg PageEntry.present (put_self (windowTable s) i PageEntry.zero)
    · refine ⟨false, s, rfl, .refl hs.dirOk.below _, rfl, fun _ _ => rfl, ?_⟩
      exact Bool.eq_false_iff.2 fun hc => hp ⟨hs.windows, hc⟩
  have hs₁ := hb₁.ready hs
  have hw := hb₁.windowTable_eq
  have hslot : (s₁.frames s₁.cr3 (pdeIndex (windowVaddr i))).present = true := by
    rw [pdeIndex_windowVaddr hi]
    exact hs₁.windows
  have htable : (s₁.frames s₁.cr3 (pdeIndex (windowVaddr i))).frame = windowTable s₁ := by
    rw [pdeIndex_windowVaddr hi]
    rfl
  have hmap : s₁.kvmmMapPage (windowVaddr i) phys kvmmFlagKernelRw =
      some (true, withEntry s₁ (windowVaddr i) phys kvmmFlagKernelRw) := by
    rw [kvmmMapPage_of_present hs₁.dirOk.self hslot hv0 hphys, fillEntry_eq hs₁.dirOk.self _ _ hslot,
      htable, pteIndex_windowVaddr hi, hw, habsent]
    rfl
  have hframes : (withEntry s₁ (windowVaddr i) phys kvmmFlagKernelRw).frames =
      put s₁.frames (windowTable s₁) i
        ((s₁.frames (windowTable s₁) i).assign kvmmFlagKernelRw (phys / kpmmPageSize)) := by
    unfold withEntry
    rw [htable, pteIndex_windowVaddr hi]
  have hb₂ : Builds [] s₁ (withEntry s₁ (windowVaddr i) phys kvmmFlagKernelRw) := by
    have h := builds_window hs₁ hpos
      ((s₁.frames (windowTable s₁) i).assign kvmmFlagKernelRw (phys / kpmmPageSize))
    rw [← hframes] at h
    exact h
  have hentry : (withEntry s₁ (windowVaddr i) phys kvmmFlagKernelRw).frames (windowTable s₁) i =
      (s₁.frames (windowTable s₁) i).assign kvmmFlagKernelRw (phys / kpmmPageSize) := by
    rw [hframes]
    exact put_self _ _ _
  refine ⟨_, ?_, hb₁.trans hb₂ (fun _ h => absurd h List.not_mem_nil), hpmm₁, ?_, ?_, ?_⟩
  · unfold openWindow
    rw [outcome_bind_some (a := b) (t := s₁) (by
      show (s.kvmmUnmapPage (windowVaddr i)).map _ = _
      rw [hunmap]
      rfl)]
    show (s₁.kvmmMapPage (windowVaddr i) phys kvmmFlagKernelRw).map _ = _
    rw [hmap]
    rfl
  · intro x hx
    rw [hframes, ← hout₁ x hx]
    exact funext fun j => put_of_ne i j _ (hw ▸ hx)
  · rw [hb₂.windowTable_eq, hentry]
    rfl
  · rw [hb₂.windowTable_eq, hentry]
    rfl

/-! ## Accesses -/

section Accesses

variable {page f : Nat}

theorem loadEntry_eq (h : s.walk page = some f) (i : Nat) :
    outcome (loadEntry page i) s = some (some (s.frames f i), s) := by
  show ((s.load page i).map _).map _ = _
  rw [Vmm.load, h]
  rfl

theorem storeEntry_eq (h : s.walk page = some f) (i : Nat) (e : PageEntry) :
    outcome (storeEntry page i e) s = some (some (), { s with frames := put s.frames f i e }) := by
  show ((s.store page i e).map _).map _ = _
  rw [Vmm.store, h]
  rfl

theorem grantEntry_eq (h : s.walk page = some f) (i phys : Nat) :
    outcome (grantEntry page i phys) s =
      some (some (), { s with frames := put s.frames f i ((s.frames f i).grant phys) }) := by
  unfold grantEntry
  rw [outcome_bind_some (loadEntry_eq h i)]
  exact storeEntry_eq h i _

theorem grantUser_eq (h : s.walk page = some f) (i : Nat) :
    outcome (grantUser page i) s =
      some (some (), { s with frames := put s.frames f i { s.frames f i with user := true } }) := by
  unfold grantUser
  rw [outcome_bind_some (loadEntry_eq h i)]
  exact storeEntry_eq h i _

theorem memsetPage_eq (h : s.walk page = some f) :
    outcome (write fun s => s.memsetPage page) s = some (some (), s.clearFrame f) := by
  show ((s.memsetPage page).map _).map _ = _
  rw [Vmm.memsetPage, h]
  rfl

theorem memcpyPage_eq {src g : Nat} (h : s.walk page = some f) (hsrc : s.walk src = some g) :
    outcome (write fun s => s.memcpyPage page src) s =
      some (some (), { s with frames := paste s.frames f g }) := by
  show ((s.memcpyPage page src).map _).map _ = _
  rw [Vmm.memcpyPage, h, hsrc]
  rfl

/-- A table of the kernel that can be read is there. -/
theorem loadEntry_pt (hd : DirOk s) {k i : Nat} (hk : k < 1024) {q : Option PageEntry}
    (h : outcome (loadEntry (recursivePt k) i) s = some (q, t)) :
    (s.frames s.cr3 k).present = true ∧ t = s ∧
      q = some (s.frames (s.frames s.cr3 k).frame i) := by
  cases hp : (s.frames s.cr3 k).present with
  | true =>
    rw [loadEntry_eq (hd.self.walk_window hk hp) i] at h
    obtain ⟨rfl, rfl⟩ := Prod.mk.inj (Option.some.inj h)
    exact ⟨rfl, rfl, rfl⟩
  | false =>
    have hwalk : s.walk (recursivePt k) = none := by
      rw [hd.self.walk_recursivePt hk, hp, if_neg Bool.false_ne_true]
    have hnone : outcome (loadEntry (recursivePt k) i) s = none := by
      show ((s.load (recursivePt k) i).map _).map _ = _
      rw [Vmm.load, hwalk]
      rfl
    rw [hnone] at h
    cases h

end Accesses

end DelOs
