import DelOs.Fs.Mount

/-!
# Who holds which node

The working directory and each open descriptor hold a node of their own, for as long as `kvfs_open`
does not close the working directory.

* `Mounted` — the records in use: the tree, the node of the working directory, and for each
  descriptor its record and its node, which no other one holds.
* `InUse` — an entry to which a holder refers through its node.
* `Effect`, `Stationary` — what one call does to all that, and one that leaves the working
  directory where it is.
* `kfdOpen_effect`, `kfdClose_effect`, `kmkdir_effect`, `kvfsUnlink_effect`, `krmdir_effect`,
  `kvfsChdir_effect`, `lookupOpenClose_effect` — **the calls keep the holders apart**.
-/

namespace DelOs

open FirstFit

namespace Fs

variable {s r : Fs} {t t' : OrderedTree Ptr} {gone fresh : Ptr}

/-- The file system stores the tree; the working directory has a node; each open descriptor has a
record and a node of its own. -/
structure Mounted (s : Fs) (t : OrderedTree Ptr) : Prop where
  stands : Stands s t
  cwd : ∃ f, s.obj s.kvfsCwd = some (.node (newNode f))
  desc : ∀ p i, s.fds p i ≠ 0 → ∃ d f, s.obj (s.fds p i) = some (.desc d) ∧ d.refcount = 1 ∧
    s.obj d.node = some (.node (newNode f)) ∧ d.node ≠ s.kvfsRootMountDir ∧ d.node ≠ s.kvfsCwd
  apart : ∀ p i p' i' d d', s.obj (s.fds p i) = some (.desc d) →
    s.obj (s.fds p' i') = some (.desc d') → d.node = d'.node → p = p' ∧ i = i'

/-- The working directory or an open descriptor refers to the entry `x`. -/
def InUse (s : Fs) (x : Ptr) : Prop :=
  s.obj s.kvfsCwd = some (.node (newNode x)) ∨
    ∃ p i d, s.obj (s.fds p i) = some (.desc d) ∧ s.obj d.node = some (.node (newNode x))

/-- What a call does: at most one leaf of the tree comes or goes, the holders stay apart, a new
reference is one to an entry in use, and the data of the files stay. -/
structure Effect (s r : Fs) (t t' : OrderedTree Ptr) (gone fresh : Ptr) : Prop where
  mounted : Mounted r t'
  change : TreeChange s.Granted s.entries r.entries t gone fresh t'
  uses : ∀ x, r.InUse x → s.InUse x ∨ ∃ e, r.entries x = some e
  data : ∀ q bytes, s.obj q = some (.data bytes) → r.obj q = some (.data bytes)
  granted : s.Granted → r.Granted
  root : r.kvfsRootMountDir = s.kvfsRootMountDir

/-- The effect of a call that leaves the working directory where it is. -/
structure Stationary (s r : Fs) (t t' : OrderedTree Ptr) (gone fresh : Ptr) : Prop
    extends Effect s r t t' gone fresh where
  cwd : r.kvfsCwd = s.kvfsCwd

/-! ## Calls that leave the holders alone -/

theorem Mounted.kept (h : Mounted s t) (hk : Keeps s r)
    (hc : TreeChange s.Granted s.entries r.entries t gone fresh t') : Mounted r t' := by
  have hnode : ∀ {q n}, s.obj q = some (.node n) → r.obj q = some (.node n) := fun hq =>
    hk.other _ _ hq (by simp)
  have hdesc : ∀ {q d}, s.obj q = some (.desc d) → r.obj q = some (.desc d) := fun hq =>
    hk.other _ _ hq (by simp)
  have hback : ∀ {p i d}, r.obj (r.fds p i) = some (.desc d) → s.obj (s.fds p i) = some (.desc d) := by
    intro p i d hd
    rw [hk.frame.fds] at hd
    have h0 : s.fds p i ≠ 0 := ne_zero_of_obj hd
    obtain ⟨d₀, -, hd₀, -⟩ := h.desc p i h0
    rw [hdesc hd₀] at hd
    rw [hd₀, hd]
  refine ⟨⟨hc.stored h.stands.tree, ?_⟩, ?_, fun p i hp => ?_, fun p i p' i' d d' hd hd' =>
    h.apart p i p' i' d d' (hback hd) (hback hd')⟩
  · rw [hk.frame.root, hc.root]
    exact hnode h.stands.root
  · obtain ⟨f, hf⟩ := h.cwd
    exact ⟨f, by rw [hk.frame.cwd, hnode hf]⟩
  · rw [hk.frame.fds] at hp ⊢
    obtain ⟨d, f, hd, hone, hf, hroot, hcwd⟩ := h.desc p i hp
    exact ⟨d, f, hdesc hd, hone, hnode hf, by rwa [hk.frame.root], by rwa [hk.frame.cwd]⟩

theorem InUse.back (h : Mounted s t) (hk : Keeps s r) {x : Ptr} (hx : r.InUse x) : s.InUse x := by
  have hnode : ∀ {q f}, s.obj q = some (.node (newNode f)) →
      r.obj q = some (.node (newNode x)) → s.obj q = some (.node (newNode x)) := by
    intro q f hq hr
    rw [hk.other q _ hq (by simp)] at hr
    rw [hq, hr]
  rcases hx with hx | ⟨p, i, d, hd, hx⟩
  · obtain ⟨f, hf⟩ := h.cwd
    rw [hk.frame.cwd] at hx
    exact Or.inl (hnode hf hx)
  · rw [hk.frame.fds] at hd
    obtain ⟨d₀, f, hd₀, -, hf, -⟩ := h.desc p i (ne_zero_of_obj hd)
    rw [hk.other _ _ hd₀ (by simp)] at hd
    obtain rfl : d₀ = d := by simpa using hd
    exact Or.inr ⟨p, i, d₀, hd₀, hnode hf hx⟩

/-- A call that leaves all nodes and descriptors as they are. -/
theorem Stationary.of_keeps (h : Mounted s t) (hk : Keeps s r)
    (hc : TreeChange s.Granted s.entries r.entries t gone fresh t') :
    Stationary s r t t' gone fresh :=
  ⟨⟨h.kept hk hc, hc, fun _ hx => Or.inl (hx.back h hk), fun _ _ hq => hk.other _ _ hq (by simp),
    hk.frame.granted, hk.frame.root⟩, hk.frame.cwd⟩

theorem Stationary.refl (h : Mounted s t) : Stationary s s t t 0 0 :=
  .of_keeps h (Keeps.refl s) (.same rfl)

/-- A call, and after it one that leaves the tree alone. -/
theorem Effect.trans_same {r' : Fs} (h : Effect s r t t' gone fresh)
    (h' : Effect r r' t' t' 0 0) (hent : r'.entries = r.entries) :
    Effect s r' t t' gone fresh := by
  refine ⟨h'.mounted, by rw [hent]; exact h.change, fun x hx => ?_, fun q bytes hq =>
    h'.data q bytes (h.data q bytes hq), fun hg => h'.granted (h.granted hg), h'.root.trans h.root⟩
  rw [hent]
  rcases h'.uses x hx with hx | hx
  · exact h.uses x hx
  · rw [hent] at hx
    exact Or.inr hx

theorem Stationary.trans_same {r' : Fs} (h : Stationary s r t t' gone fresh)
    (h' : Stationary r r' t' t' 0 0) (hent : r'.entries = r.entries) :
    Stationary s r' t t' gone fresh :=
  ⟨h.toEffect.trans_same h'.toEffect hent, h'.cwd.trans h.cwd⟩

/-! ## Descriptors -/

/-- A node that no holder has. -/
structure Unheld (s : Fs) (q : Ptr) : Prop where
  root : q ≠ s.kvfsRootMountDir
  cwd : q ≠ s.kvfsCwd
  desc : ∀ p i d, s.obj (s.fds p i) = some (.desc d) → d.node ≠ q

/-- A node that was not in use before is held by nobody. -/
theorem Unheld.of_fresh (h : Mounted s t) (hk : Keeps s r) {q : Ptr}
    (hq : ∀ n, s.obj q ≠ some (.node n)) : Unheld r q := by
  refine ⟨?_, ?_, fun p i d hd => ?_⟩
  · rintro rfl
    rw [hk.frame.root] at hq
    exact hq _ h.stands.root
  · rintro rfl
    obtain ⟨f, hf⟩ := h.cwd
    rw [hk.frame.cwd] at hq
    exact hq _ hf
  · rintro rfl
    rw [hk.frame.fds] at hd
    obtain ⟨d₀, f, hd₀, -, hf, -⟩ := h.desc p i (ne_zero_of_obj hd)
    rw [hk.other _ _ hd₀ (by simp)] at hd
    obtain rfl : d₀ = d := by simpa using hd
    exact hq _ hf

/-- A descriptor cannot be made: no place of the table is free, or there is no memory for the
record. -/
def descRefused (s : Fs) (proc : Nat) : Bool :=
  ((List.range KFD_MAX_COUNT).all fun fd => decide (s.fds proc fd ≠ 0)) ||
    decide ((s.kmalloc sizeofFileDesc).1 = 0)

/-- A record has been put into a free place of a table. -/
structure Described (s r : Fs) (proc fd : Nat) (p q : Ptr) (flags : Nat) : Prop where
  keeps : Keeps s r
  bound : fd < KFD_MAX_COUNT
  empty : s.fds proc fd = 0
  dead : s.obj p = none
  obj : r.obj = Function.update s.obj p (some (.desc ⟨q, 0, flags, 1⟩))

/-- What `kfd_create_for_process` does with a node: there is no free place in the table, or no
memory for the record; or the record `p` is put into the free place `fd`. -/
theorem kfdCreateForProcess_spec (s : Fs) (proc flags : Nat) {q : Ptr} (hq : q ≠ 0) :
    (∃ r, s.descRefused proc = true ∧ s.kfdCreateForProcess proc q flags = (KFD_ERROR, r) ∧
      Keeps s r ∧ r.obj = s.obj) ∨
    ∃ (fd : Nat) (p : Ptr) (r : Fs), s.kfdCreateForProcess proc q flags =
      ((fd : Int), r.setFd proc fd p) ∧ Described s r proc fd p q flags := by
  unfold kfdCreateForProcess
  rw [if_neg hq]
  cases hfind : (List.range KFD_MAX_COUNT).find? fun fd => s.fds proc fd = 0 with
  | none =>
    refine Or.inl ⟨s, ?_, rfl, Keeps.refl s, rfl⟩
    have hfull : ∀ fd < KFD_MAX_COUNT, s.fds proc fd ≠ 0 := by simpa using hfind
    simpa [descRefused] using Or.inl hfull
  | some fd =>
    have hempty : s.fds proc fd = 0 := by simpa using List.find?_some hfind
    rcases hnew : s.new sizeofFileDesc (.desc ⟨q, 0, flags, 1⟩) with ⟨p, r⟩
    have hsize : 0 < sizeofFileDesc ∧ sizeofFileDesc ≤ 2 ^ 29 := by decide
    have halloc : Alloc s r p (.desc ⟨q, 0, flags, 1⟩) := new_alloc hsize.1 hsize.2 hnew
    rcases halloc.made with ⟨rfl, hobj, -⟩ | ⟨hp, hdead, hobj⟩
    · refine Or.inl ⟨r, ?_, by simp, halloc.keeps, hobj⟩
      have hnull : (s.kmalloc sizeofFileDesc).1 = 0 := by
        by_contra hp
        simp [new, hp] at hnew
      simp [descRefused, hnull]
    · have hbound : fd < KFD_MAX_COUNT := List.mem_range.1 (List.mem_of_find?_eq_some hfind)
      exact Or.inr ⟨fd, p, r, by simp [hp], halloc.keeps, hbound, hempty, hdead, hobj⟩

/-- The descriptors of the new table are the new one and those that were there. -/
theorem Described.back {proc fd flags : Nat} {p q : Ptr} (h : Described s r proc fd p q flags)
    (hs : Mounted s t) {p' i' : Nat} {d : FileDesc}
    (hd : (r.setFd proc fd p).obj ((r.setFd proc fd p).fds p' i') = some (.desc d)) :
    (p' = proc ∧ i' = fd ∧ d = ⟨q, 0, flags, 1⟩) ∨ s.obj (s.fds p' i') = some (.desc d) := by
  have hd' : r.obj (if p' = proc ∧ i' = fd then p else r.fds p' i') = some (.desc d) := hd
  split_ifs at hd' with hpi
  · rw [h.obj, Function.update_self] at hd'
    exact Or.inl ⟨hpi.1, hpi.2, by simpa using hd'.symm⟩
  · rw [h.keeps.frame.fds] at hd'
    obtain ⟨d₀, -, hd₀, -⟩ := hs.desc p' i' (ne_zero_of_obj hd')
    rw [h.keeps.other _ _ hd₀ (by simp)] at hd'
    exact Or.inr (hd₀.trans hd')

/-- The new descriptor is in its place. -/
theorem Described.made {proc fd flags : Nat} {p q : Ptr} (h : Described s r proc fd p q flags) :
    (r.setFd proc fd p).obj ((r.setFd proc fd p).fds proc fd) = some (.desc ⟨q, 0, flags, 1⟩) := by
  show r.obj (if proc = proc ∧ fd = fd then p else r.fds proc fd) = _
  rw [if_pos ⟨rfl, rfl⟩, h.obj, Function.update_self]

/-- A descriptor that was there is in its place. -/
theorem Described.stays {proc fd flags : Nat} {p q : Ptr} (h : Described s r proc fd p q flags)
    {p' i' : Nat} {d : FileDesc} (hd : s.obj (s.fds p' i') = some (.desc d)) :
    (r.setFd proc fd p).obj ((r.setFd proc fd p).fds p' i') = some (.desc d) := by
  have hpi : ¬(p' = proc ∧ i' = fd) := by
    rintro ⟨rfl, rfl⟩
    exact ne_zero_of_obj hd h.empty
  show r.obj (if p' = proc ∧ i' = fd then p else r.fds p' i') = _
  rw [if_neg hpi, h.keeps.frame.fds]
  exact h.keeps.other _ _ hd (by simp)

theorem Described.entries {proc fd flags : Nat} {p q : Ptr}
    (h : Described s r proc fd p q flags) : r.entries = s.entries :=
  entries_update h.obj (by simp [h.dead]) (by simp)

/-- **The holders are apart** behind a new descriptor of a node that nobody held. -/
theorem Described.mounted {proc fd flags : Nat} {p q x : Ptr}
    (h : Described s r proc fd p q flags) (hs : Mounted s t)
    (hq : s.obj q = some (.node (newNode x))) (hfree : Unheld s q) :
    Mounted (r.setFd proc fd p) t := by
  have hr : Mounted r t := hs.kept h.keeps (.same h.entries (G := s.Granted))
  refine ⟨⟨hr.stands.tree, hr.stands.root⟩, hr.cwd, fun p' i' hp' => ?_,
    fun p₁ i₁ p₂ i₂ d₁ d₂ h₁ h₂ heq => ?_⟩
  · by_cases hpi : p' = proc ∧ i' = fd
    · obtain ⟨rfl, rfl⟩ := hpi
      refine ⟨_, x, h.made, rfl, h.keeps.other _ _ hq (by simp), ?_, ?_⟩
      · show q ≠ r.kvfsRootMountDir
        rw [h.keeps.frame.root]
        exact hfree.root
      · show q ≠ r.kvfsCwd
        rw [h.keeps.frame.cwd]
        exact hfree.cwd
    · have hfds : (r.setFd proc fd p).fds p' i' = r.fds p' i' := if_neg hpi
      rw [hfds] at hp' ⊢
      exact hr.desc p' i' hp'
  · rcases h.back hs h₁ with ⟨rfl, rfl, rfl⟩ | hd₁
    · rcases h.back hs h₂ with ⟨rfl, rfl, rfl⟩ | hd₂
      · exact ⟨rfl, rfl⟩
      · exact absurd heq.symm (hfree.desc p₂ i₂ d₂ hd₂)
    · rcases h.back hs h₂ with ⟨rfl, rfl, rfl⟩ | hd₂
      · exact absurd heq (hfree.desc p₁ i₁ d₁ hd₁)
      · exact hs.apart p₁ i₁ p₂ i₂ d₁ d₂ hd₁ hd₂ heq

/-- **A new descriptor** holds a node that nobody held. -/
theorem Described.effect {proc fd flags : Nat} {p q x : Ptr}
    (h : Described s r proc fd p q flags) (hs : Mounted s t)
    (hq : s.obj q = some (.node (newNode x))) (hx : ∃ e, s.entries x = some e)
    (hfree : Unheld s q) : Stationary s (r.setFd proc fd p) t t 0 0 := by
  refine ⟨⟨h.mounted hs hq hfree, .same h.entries, fun y hy => ?_,
    fun y bytes hy => h.keeps.other _ _ hy (by simp), h.keeps.frame.granted, h.keeps.frame.root⟩,
    h.keeps.frame.cwd⟩
  rcases hy with hy | ⟨p', i', d, hd, hy⟩
  · exact Or.inl (InUse.back hs h.keeps (Or.inl hy))
  · rcases h.back hs hd with ⟨-, -, rfl⟩ | hd'
    · have hy' : r.obj q = some (.node (newNode y)) := hy
      rw [h.keeps.other _ _ hq (by simp)] at hy'
      obtain rfl : x = y := by simpa [newNode] using hy'
      obtain ⟨e, he⟩ := hx
      exact Or.inr ⟨e, (congrFun h.entries x).trans he⟩
    · left
      obtain ⟨d₀, f, hd₀, -, hf, -⟩ := hs.desc p' i' (ne_zero_of_obj hd')
      obtain rfl : d₀ = d := by simpa using hd₀.symm.trans hd'
      have hy' : r.obj d₀.node = some (.node (newNode y)) := hy
      rw [h.keeps.other _ _ hf (by simp)] at hy'
      exact Or.inr ⟨p', i', d₀, hd₀, hf.trans hy'⟩

/-- A node that has got no descriptor changes nothing for the holders, one that has got one is held
by it. -/
theorem kfdCreateForProcess_effect (h : Mounted s t) {q x : Ptr}
    (hq : s.obj q = some (.node (newNode x))) (hx : ∃ e, s.entries x = some e)
    (hfree : Unheld s q) (proc flags : Nat) :
    Stationary s (s.kfdCreateForProcess proc q flags).2 t t 0 0 ∧
      (s.kfdCreateForProcess proc q flags).2.entries = s.entries := by
  rcases kfdCreateForProcess_spec s proc flags (ne_zero_of_obj hq) with
    ⟨r, -, hnone, hk, hobj⟩ | ⟨fd, p, r, hmade, hdesc⟩
  · have hent : r.entries = s.entries := entries_congr fun y e => by rw [hobj]
    rw [hnone]
    exact ⟨.of_keeps h hk (.same hent), hent⟩
  · rw [hmade]
    exact ⟨hdesc.effect h hq hx hfree, hdesc.entries⟩

/-- **`kfd_open` keeps the holders apart**, unless it closes the working directory. -/
theorem kfdOpen_effect (h : Mounted s t) {path : CString} {d : Ptr} (hd : StartsAt s path d)
    (proc flags mode : Nat) (hk : s.KeepsCwd path flags) :
    ∃ fd r t' fresh, s.kfdOpen proc path flags mode = some (fd, r) ∧
      Stationary s r t t' 0 fresh ∧
      (fresh ≠ 0 → flagSet flags KVFS_O_CREAT = true ∧ nameOf r.entries fresh = lastName path) := by
  obtain ⟨q, r, fresh, x, t', hopen, ⟨hchange, hnamed, hnode, -⟩, hkeeps⟩ :=
    kvfsOpen_spec h.stands hd flags mode
  have heffect := Stationary.of_keeps h (hkeeps hk) hchange
  by_cases hq : q = 0
  · exact ⟨KFD_ERROR, r, t', fresh, by simp [kfdOpen, hopen, hq], heffect, hnamed⟩
  · obtain ⟨hlive, hx, hnew⟩ := hnode hq
    obtain ⟨hmade, hent⟩ := kfdCreateForProcess_effect heffect.mounted hlive hx
      (.of_fresh h (hkeeps hk) hnew) proc flags
    exact ⟨(r.kfdCreateForProcess proc q flags).1, _, t', fresh, by simp [kfdOpen, hopen, hq],
      heffect.trans_same hmade hent, fun h0 => by rw [hent]; exact hnamed h0⟩

/-- A descriptor `d` has been taken out of its place, with its record and its node. -/
structure Closed (s r : Fs) (proc fd : Nat) (d : FileDesc) : Prop where
  root : r.kvfsRootMountDir = s.kvfsRootMountDir
  cwd : r.kvfsCwd = s.kvfsCwd
  granted : s.Granted → r.Granted
  fds : ∀ p i, r.fds p i = if p = proc ∧ i = fd then 0 else s.fds p i
  stay : ∀ q o, s.obj q = some o → q ≠ d.node → q ≠ s.fds proc fd → r.obj q = some o
  back : ∀ q o, r.obj q = some o → s.obj q = some o ∧ q ≠ d.node ∧ q ≠ s.fds proc fd

/-- A descriptor that is there is in its place of the table. -/
theorem kfdGet_of_ne_zero {proc : Nat} {fd : Int} (h : s.kfdGet proc fd ≠ 0) :
    s.kfdGet proc fd = s.fds proc fd.toNat := by
  unfold kfdGet at h ⊢
  split_ifs at h ⊢ with hbad
  · exact absurd rfl h
  · rfl

/-- What `kfd_close` does: there is no such descriptor, or it is closed. -/
theorem kfdClose_spec (h : Mounted s t) (proc : Nat) (fd : Int) :
    s.kfdClose proc fd = some (false, s) ∨
      ∃ d r, s.obj (s.fds proc fd.toNat) = some (.desc d) ∧ s.kfdClose proc fd = some (true, r) ∧
        Closed s r proc fd.toNat d := by
  by_cases hp0 : s.kfdGet proc fd = 0
  · exact Or.inl (by simp [kfdClose, hp0])
  have hget := kfdGet_of_ne_zero hp0
  rw [hget] at hp0
  obtain ⟨d, f, hd, hone, hf, hroot, hcwd⟩ := h.desc proc fd.toNat hp0
  obtain ⟨r, hclose, hframe, -, hobj⟩ := kvfsClose_spec hf hroot
  have hrobj : (r.kfree (s.fds proc fd.toNat)).obj =
      Function.update (Function.update s.obj d.node none) (s.fds proc fd.toNat) none := by
    rw [obj_kfree, hobj]
  refine Or.inr ⟨d, (r.kfree (s.fds proc fd.toNat)).setFd proc fd.toNat 0, hd, ?_, hframe.root,
    hframe.cwd, hframe.granted, fun p i => ?_, fun q o hq h1 h2 => ?_, fun q o hq => ?_⟩
  · simp [kfdClose, hget, hp0, descAt_of_obj hd, hone, hclose]
  · show (if p = proc ∧ i = fd.toNat then 0 else r.fds p i) = _
    rw [hframe.fds]
  · show (r.kfree (s.fds proc fd.toNat)).obj q = _
    rw [hrobj, Function.update_of_ne h2, Function.update_of_ne h1, hq]
  · have hq' : (r.kfree (s.fds proc fd.toNat)).obj q = some o := hq
    rw [hrobj, Function.update_apply] at hq'
    split_ifs at hq' with h2
    rw [Function.update_apply] at hq'
    split_ifs at hq' with h1
    exact ⟨hq', h1, h2⟩

/-- The descriptors that are left were there before. -/
theorem Closed.desc_back {proc fd : Nat} {d : FileDesc} (h : Closed s r proc fd d) {p i : Nat}
    {d' : FileDesc} (hd' : r.obj (r.fds p i) = some (.desc d')) :
    s.obj (s.fds p i) = some (.desc d') := by
  rw [h.fds] at hd'
  split_ifs at hd'
  · exact absurd rfl (ne_zero_of_obj hd')
  · exact (h.back _ _ hd').1

/-- The record and the node of a descriptor are what their kind says. -/
theorem Closed.node_stays {proc fd : Nat} {d : FileDesc} (h : Closed s r proc fd d)
    (hd : s.obj (s.fds proc fd) = some (.desc d)) {q : Ptr} {n : VfsNode}
    (hq : s.obj q = some (.node n)) (hne : q ≠ d.node) : r.obj q = some (.node n) := by
  refine h.stay q _ hq hne ?_
  rintro rfl
  rw [hd] at hq
  cases hq

theorem Closed.entries {proc fd : Nat} {d : FileDesc} {f : Ptr} (h : Closed s r proc fd d)
    (hd : s.obj (s.fds proc fd) = some (.desc d)) (hf : s.obj d.node = some (.node (newNode f))) :
    r.entries = s.entries := by
  apply entries_congr
  intro q e
  refine ⟨fun hq => (h.back q _ hq).1, fun hq => h.stay q _ hq ?_ ?_⟩
  · rintro rfl
    rw [hf] at hq
    cases hq
  · rintro rfl
    rw [hd] at hq
    cases hq

/-- Another descriptor stays, and so does its node. -/
theorem Closed.desc_stays {proc fd : Nat} {d : FileDesc} {f : Ptr} (h : Closed s r proc fd d)
    (hs : Mounted s t) (hd : s.obj (s.fds proc fd) = some (.desc d))
    (hf : s.obj d.node = some (.node (newNode f))) {p i : Nat} (hpi : ¬(p = proc ∧ i = fd))
    {d' : FileDesc} (hd' : s.obj (s.fds p i) = some (.desc d')) :
    r.obj (r.fds p i) = some (.desc d') ∧ d'.node ≠ d.node := by
  have hnode : d'.node ≠ d.node := fun heq => hpi (hs.apart p i proc fd d' d hd' hd heq)
  refine ⟨?_, hnode⟩
  rw [h.fds, if_neg hpi]
  refine h.stay _ _ hd' ?_ ?_
  · intro heq
    rw [heq, hf] at hd'
    cases hd'
  · intro heq
    rw [heq, hd] at hd'
    obtain rfl : d = d' := by simpa using hd'
    exact hnode rfl

theorem Closed.mounted {proc fd : Nat} {d : FileDesc} (h : Closed s r proc fd d)
    (hs : Mounted s t) (hd : s.obj (s.fds proc fd) = some (.desc d)) : Mounted r t := by
  obtain ⟨d₀, f, hd₀, -, hf, hroot, hcwd⟩ := hs.desc proc fd (ne_zero_of_obj hd)
  obtain rfl : d₀ = d := by simpa using hd₀.symm.trans hd
  refine ⟨⟨by rw [h.entries hd hf]; exact hs.stands.tree, ?_⟩, ?_, fun p i hp => ?_,
    fun p i p' i' d₁ d₂ h₁ h₂ heq =>
      hs.apart p i p' i' d₁ d₂ (h.desc_back h₁) (h.desc_back h₂) heq⟩
  · rw [h.root]
    exact h.node_stays hd hs.stands.root hroot.symm
  · obtain ⟨g, hg⟩ := hs.cwd
    rw [h.cwd]
    exact ⟨g, h.node_stays hd hg hcwd.symm⟩
  · have hpi : ¬(p = proc ∧ i = fd) := by
      intro hpi
      rw [h.fds, if_pos hpi] at hp
      exact hp rfl
    have hp' : s.fds p i ≠ 0 := by rwa [h.fds, if_neg hpi] at hp
    obtain ⟨d', g, hd', hone', hg, hroot', hcwd'⟩ := hs.desc p i hp'
    obtain ⟨hrec, hnode⟩ := h.desc_stays hs hd hf hpi hd'
    exact ⟨d', g, hrec, hone', h.node_stays hd hg hnode, by rwa [h.root], by rwa [h.cwd]⟩

/-- **`kfd_close` takes a descriptor away**, with its node. -/
theorem kfdClose_effect (h : Mounted s t) (proc : Nat) (fd : Int) :
    ∃ closed r, s.kfdClose proc fd = some (closed, r) ∧ Stationary s r t t 0 0 ∧
      r.entries = s.entries := by
  rcases kfdClose_spec h proc fd with hnone | ⟨d, r, hd, hclose, hclosed⟩
  · exact ⟨false, s, hnone, .refl h, rfl⟩
  obtain ⟨d₀, f, hd₀, -, hf, -⟩ := h.desc proc fd.toNat (ne_zero_of_obj hd)
  obtain rfl : d₀ = d := by simpa using hd₀.symm.trans hd
  have hent := hclosed.entries hd hf
  refine ⟨true, r, hclose, ⟨⟨hclosed.mounted h hd, .same hent, fun x hx => Or.inl ?_,
    fun q bytes hq => hclosed.stay q _ hq ?_ ?_, hclosed.granted, hclosed.root⟩, hclosed.cwd⟩, hent⟩
  · rcases hx with hx | ⟨p, i, d', hd', hx⟩
    · rw [hclosed.cwd] at hx
      exact Or.inl (hclosed.back _ _ hx).1
    · exact Or.inr ⟨p, i, d', hclosed.desc_back hd', (hclosed.back _ _ hx).1⟩
  · rintro rfl
    rw [hf] at hq
    cases hq
  · rintro rfl
    rw [hd] at hq
    cases hq

/-! ## Calls by path -/

/-- **`kmkdir` keeps the holders apart**, unless its `kfd_open` closes the working directory. -/
theorem kmkdir_effect (h : Mounted s t) {path : CString} {d : Ptr} (hd : StartsAt s path d)
    (proc : Nat) (hk : refusedPath path = true ∨
      s.KeepsCwd path (KVFS_O_CREAT ||| KVFS_O_DIRECTORY ||| KVFS_O_EXCL)) :
    ∃ code r t' fresh, s.kmkdir proc path = some (code, r) ∧ Stationary s r t t' 0 fresh ∧
      (fresh ≠ 0 → refusedPath path = false ∧ nameOf r.entries fresh = lastName path) := by
  by_cases hrefused : refusedPath path = true
  · exact ⟨-1, s, t, 0, by simp [kmkdir, hrefused], .refl h, fun h0 => absurd rfl h0⟩
  have hrefused' : refusedPath path = false := by simpa using hrefused
  obtain ⟨fd, r, t', fresh, hopen, heffect, hnamed⟩ := kfdOpen_effect h hd proc
    (KVFS_O_CREAT ||| KVFS_O_DIRECTORY ||| KVFS_O_EXCL) 0o666 (hk.resolve_left hrefused)
  by_cases hfd : fd = KFD_ERROR
  · exact ⟨-1, r, t', fresh, by simp [kmkdir, hrefused', hopen, hfd], heffect,
      fun h0 => ⟨hrefused', (hnamed h0).2⟩⟩
  · obtain ⟨closed, r', hclose, heffect', hent⟩ := kfdClose_effect heffect.mounted proc fd
    exact ⟨0, r', t', fresh, by simp [kmkdir, hrefused', hopen, hfd, hclose],
      heffect.trans_same heffect' hent, fun h0 => ⟨hrefused', by rw [hent]; exact (hnamed h0).2⟩⟩

/-- Removing by path leaves the holders alone. -/
theorem RemovesAt.effect (h : Mounted s t) {x : Ptr} {removed : Bool}
    (hr : RemovesAt s r t x removed) : ∃ t' gone, Stationary s r t t' gone 0 := by
  obtain ⟨hk, ⟨-, -, hchange⟩ | ⟨-, hsame⟩⟩ := hr
  · obtain ⟨t', ht'⟩ := hchange s.Granted
    exact ⟨t', x, .of_keeps h hk ht'⟩
  · exact ⟨t, 0, .of_keeps h hk (.same hsame)⟩

theorem kvfsUnlink_effect (h : Mounted s t) {path : CString} {d : Ptr} (hd : StartsAt s path d) :
    ∃ removed r t' gone, s.kvfsUnlink path = some (removed, r) ∧ Stationary s r t t' gone 0 := by
  obtain ⟨removed, r, hunlink, hr, -⟩ := kvfsUnlink_spec h.stands hd
  obtain ⟨t', gone, heffect⟩ := hr.effect h
  exact ⟨removed, r, t', gone, hunlink, heffect⟩

theorem krmdir_effect (h : Mounted s t) {path : CString} {d : Ptr} (hd : StartsAt s path d) :
    ∃ code r t' gone, s.krmdir path = some (code, r) ∧ Stationary s r t t' gone 0 := by
  by_cases hrefused : refusedPath path = true
  · exact ⟨-1, s, t, 0, by simp [krmdir, hrefused], .refl h⟩
  · obtain ⟨removed, r, hrmdir, hr, -⟩ := kvfsRmdir_spec h.stands hd
    obtain ⟨t', gone, heffect⟩ := hr.effect h
    exact ⟨if removed then 0 else -1, r, t', gone, by simp [krmdir, hrefused, hrmdir], heffect⟩

/-- A lookup and a close leave everything as it was. -/
theorem lookupOpenClose_effect (h : Mounted s t) {path : CString} {d : Ptr}
    (hd : StartsAt s path d) :
    ∃ q r r', s.kvfsLookupOpen path = some (q, r) ∧ r.kvfsClose q = some r' ∧
      Stationary s r' t t 0 0 := by
  obtain ⟨q, r, hlook, hopen, htemp, -⟩ :=
    kvfsLookupOpen_spec h.stands.tree h.stands.root_live hd.node hd.entry
  by_cases hq : q = 0
  · exact ⟨q, r, r, hlook, by simp [kvfsClose, hq], .of_keeps h hopen.keeps (.same hopen.entries)⟩
  · obtain ⟨r', hclose, hent, -, -, hkeeps⟩ := kvfsClose_live (hopen.node hq).1
    exact ⟨q, r, r', hlook, hclose, .of_keeps h (hkeeps s hopen.keeps (htemp hq))
      (.same (hent.trans hopen.entries))⟩

/-! ## Changing the working directory -/

/-- The working directory is given back: its node is freed, unless it is the root. -/
theorem closeCwd_spec (h : Mounted s t) :
    ∃ r, s.kvfsClose s.kvfsCwd = some r ∧ Frame s r ∧
      (∀ q o, s.obj q = some o → q ≠ s.kvfsCwd ∨ q = s.kvfsRootMountDir → r.obj q = some o) ∧
      (∀ q o, r.obj q = some o → s.obj q = some o) ∧
      (s.kvfsCwd = s.kvfsRootMountDir ∨ r.obj s.kvfsCwd = none) := by
  obtain ⟨f, hf⟩ := h.cwd
  by_cases hroot : s.kvfsCwd = s.kvfsRootMountDir
  · exact ⟨s, by rw [hroot, kvfsClose_root], Frame.refl s, fun _ _ hq _ => hq, fun _ _ hq => hq,
      Or.inl hroot⟩
  · obtain ⟨r, hclose, hframe, -, hobj⟩ := kvfsClose_spec hf hroot
    refine ⟨r, hclose, hframe, fun q o hq hne => ?_, fun q o hq => ?_,
      Or.inr (by rw [hobj, Function.update_self])⟩
    · rw [hobj, Function.update_of_ne, hq]
      rintro rfl
      exact hne.elim (fun hne => hne rfl) hroot
    · rw [hobj, Function.update_apply] at hq
      split_ifs at hq
      exact hq

/-- A node that nobody holds, or the root, takes the place of the working directory. -/
theorem Mounted.setCwd (h : Mounted s t) {q x : Ptr} (hq : s.obj q = some (.node (newNode x)))
    (hx : ∃ e, s.entries x = some e) (htemp : Unheld s q ∨ q = s.kvfsRootMountDir) :
    ∃ r, s.kvfsClose s.kvfsCwd = some r ∧ Effect s { r with kvfsCwd := q } t t 0 0 ∧
      ({ r with kvfsCwd := q } : Fs).entries = s.entries := by
  obtain ⟨r, hclose, hframe, hstay, hback, -⟩ := closeCwd_spec h
  have hent : ({ r with kvfsCwd := q } : Fs).entries = s.entries := by
    obtain ⟨f, hf⟩ := h.cwd
    apply entries_congr
    intro y e
    show r.obj y = _ ↔ _
    refine ⟨hback y _, fun hy => hstay y _ hy (Or.inl ?_)⟩
    rintro rfl
    rw [hf] at hy
    cases hy
  have hqr : r.obj q = some (.node (newNode x)) := by
    refine hstay q _ hq ?_
    rcases htemp with hfree | hroot
    · exact Or.inl hfree.cwd
    · exact Or.inr hroot
  have hdq : ∀ {p i d}, s.obj (s.fds p i) = some (.desc d) → d.node ≠ q := by
    intro p i d hd
    rcases htemp with hfree | rfl
    · exact hfree.desc p i d hd
    · obtain ⟨d', -, hd', -, -, hne, -⟩ := h.desc p i (ne_zero_of_obj hd)
      rw [hd] at hd'
      obtain rfl : d = d' := by simpa using hd'
      exact hne
  have hold : ∀ {p i d}, r.obj (r.fds p i) = some (.desc d) → s.obj (s.fds p i) = some (.desc d) := by
    intro p i d hd
    rw [hframe.fds] at hd
    exact hback _ _ hd
  have hmounted : Mounted { r with kvfsCwd := q } t := by
    refine ⟨⟨by rw [hent]; exact h.stands.tree, ?_⟩, ⟨x, hqr⟩, fun p i hp => ?_,
      fun p i p' i' d d' hd hd' heq => h.apart p i p' i' d d' (hold hd) (hold hd') heq⟩
    · show r.obj r.kvfsRootMountDir = _
      rw [hframe.root]
      exact hstay _ _ h.stands.root (Or.inr rfl)
    · have hp' : s.fds p i ≠ 0 := by
        rw [← hframe.fds]
        exact hp
      obtain ⟨f, hf⟩ := h.cwd
      obtain ⟨d, g, hd, hone, hg, hroot, hcwd⟩ := h.desc p i hp'
      refine ⟨d, g, ?_, hone, hstay _ _ hg (Or.inl hcwd), ?_, hdq hd⟩
      · show r.obj (r.fds p i) = _
        rw [hframe.fds]
        refine hstay _ _ hd (Or.inl ?_)
        intro heq
        rw [heq, hf] at hd
        cases hd
      · show d.node ≠ r.kvfsRootMountDir
        rwa [hframe.root]
  refine ⟨r, hclose, ⟨hmounted, .same hent, fun y hy => ?_, fun y bytes hy =>
    hstay y _ hy (Or.inl ?_), hframe.granted, hframe.root⟩, hent⟩
  · rcases hy with hy | ⟨p, i, d, hd, hy⟩
    · have hy' : r.obj q = some (.node (newNode y)) := hy
      rw [hqr] at hy'
      obtain rfl : x = y := by simpa [newNode] using hy'
      obtain ⟨e, he⟩ := hx
      exact Or.inr ⟨e, by rw [hent, he]⟩
    · exact Or.inl (Or.inr ⟨p, i, d, hold hd, hback _ _ hy⟩)
  · obtain ⟨f, hf⟩ := h.cwd
    rintro rfl
    rw [hf] at hy
    cases hy

/-- The metadata of the entry that a node stands for. -/
theorem kvfsStatFromNode_newNode {q x : Ptr} {e : TmpfsEntry}
    (hq : s.obj q = some (.node (newNode x))) (hx : s.entries x = some e) :
    s.kvfsStatFromNode q = some (some e.stat) := by
  have hops : (newNode x).ops = .ktmpfsOperations := rfl
  have hpriv : (newNode x).priv = x := rfl
  simp only [kvfsStatFromNode, ktmpfsStat, ne_zero_of_obj hq, nodeAt_of_obj hq, hops, hpriv,
    entryAt_of_obj (entries_eq_some.1 hx), if_false, if_true, Option.bind_eq_bind,
    Option.bind_some, Option.pure_def]

/-- What `kvfs_chdir` comes to: the lookup finds nothing, or no directory, and its node is closed; or
that node, which is one of a directory, takes the place of the working directory. -/
theorem kvfsChdir_spec (h : Mounted s t) {path : CString} {d : Ptr} (hd : StartsAt s path d) :
    ∃ q r, Opened s r q (walkTree s.entries t d (pathNames path)) ∧ NewNodes s r q ∧
      (q ≠ 0 → Temp s q) ∧
      ((q = 0 ∧ s.kvfsChdir path = some (-1, r)) ∨
        (q ≠ 0 ∧ s.kvfsChdir path = (r.kvfsClose q).map fun r' => (-1, r')) ∨
        (q ≠ 0 ∧ s.kvfsChdir path =
            (r.kvfsClose r.kvfsCwd).map (fun r' => (0, { r' with kvfsCwd := q })) ∧
          ∃ e, s.entries (walkTree s.entries t d (pathNames path)) = some e ∧
            e.isDir = true)) := by
  obtain ⟨q, r, hlook, hopen, hnodes, htemp, -⟩ :=
    kvfsLookupOpen_part h.stands.tree s.includes_entries h.stands.root_live hd.node hd.entry
  refine ⟨q, r, hopen, hnodes, htemp, ?_⟩
  by_cases hq : q = 0
  · exact Or.inl ⟨hq, by simp [kvfsChdir, hlook, hq]⟩
  obtain ⟨hnode, e, he⟩ := hopen.node hq
  have hstat := kvfsStatFromNode_newNode hnode (by rw [hopen.entries, he])
  by_cases hdir : kvfsStatIsDir e.stat.mode = true
  · refine Or.inr (Or.inr ⟨hq, ?_, e, he, hdir⟩)
    simp [kvfsChdir, hlook, hq, hstat, hdir, Option.map_eq_bind]
  · refine Or.inr (Or.inl ⟨hq, ?_⟩)
    simp [kvfsChdir, hlook, hq, hstat, hdir, Option.map_eq_bind]

/-- The node that a path has been walked to is held by nobody, or is the root. -/
theorem Opened.unheld {q f : Ptr} (hopen : Opened s r q f) (h : Mounted s t) (htemp : Temp s q) :
    Unheld r q ∨ q = r.kvfsRootMountDir := by
  rcases htemp with hroot | hnew
  · exact Or.inr (hroot.trans hopen.keeps.frame.root.symm)
  · exact Or.inl (.of_fresh h hopen.keeps hnew)

/-- **`kvfs_chdir` keeps the holders apart**: the new working directory has a node of its own, or is
the root. -/
theorem kvfsChdir_effect (h : Mounted s t) {path : CString} {d : Ptr} (hd : StartsAt s path d) :
    ∃ code r, s.kvfsChdir path = some (code, r) ∧ Effect s r t t 0 0 := by
  obtain ⟨q, r, hopen, -, htemp, ⟨-, hcall⟩ | ⟨hq, hcall⟩ | ⟨hq, hcall, -⟩⟩ := kvfsChdir_spec h hd
  · exact ⟨-1, r, hcall, (Stationary.of_keeps h hopen.keeps (.same hopen.entries)).toEffect⟩
  · obtain ⟨hnode, -⟩ := hopen.node hq
    obtain ⟨r', hclose, hent, -, -, hkeeps⟩ := kvfsClose_live hnode
    exact ⟨-1, r', by rw [hcall, hclose, Option.map_some],
      (Stationary.of_keeps h (hkeeps s hopen.keeps (htemp hq))
        (.same (hent.trans hopen.entries))).toEffect⟩
  · have heffect : Effect s r t t 0 0 :=
      (Stationary.of_keeps h hopen.keeps (.same hopen.entries)).toEffect
    obtain ⟨hnode, e, he⟩ := hopen.node hq
    obtain ⟨r', hclose, heffect', hent⟩ :=
      heffect.mounted.setCwd hnode ⟨e, by rw [hopen.entries, he]⟩ (hopen.unheld h (htemp hq))
    exact ⟨0, { r' with kvfsCwd := q }, by rw [hcall, hclose, Option.map_some],
      heffect.trans_same heffect' hent⟩

end Fs

end DelOs
