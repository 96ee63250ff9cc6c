import DelOs.Fs.FailedWrite
import DelOs.Fs.FileArray
import DelOs.Fs.TreeShape
import DelOs.Fs.WriteBounds

/-!
# Calls through descriptors

`kfd_read`, `kfd_write` and `kfd_readdir` leave the tree and its holders as they are, as long as
the data of the files lie in blocks of their own.

* `Rewritten` — all that such a call may change: offsets, and what entries hold.
* `Mounted.rewritten`, `UsesLive.rewritten` — **the tree and its holders stay**.
* `FilesSound` — the data of each entry lie in a block of its own.
* `WriteKeeps` — the write gets the room that it needs, or there is nothing to lose.
* `kfdRead_rewritten`, `kfdReaddir_rewritten`, `kfdWrite_rewritten` — the three calls.
-/

namespace DelOs

open FirstFit LinkedList Splice

namespace Fs

variable {s r r' : Fs} {t : OrderedTree Ptr}

/-! ## What a call may change -/

/-- Nodes stay, entries keep their places, descriptors change their offsets at most. -/
structure Rewritten (s r : Fs) : Prop where
  frame : Frame s r
  node : ∀ q n, r.obj q = some (.node n) ↔ s.obj q = some (.node n)
  desc : ∀ q d, s.obj q = some (.desc d) → ∃ o, r.obj q = some (.desc { d with offset := o })
  desc_back : ∀ q d, r.obj q = some (.desc d) → ∃ o, s.obj q = some (.desc { d with offset := o })
  entry : SamePlaces s.entries r.entries

theorem Rewritten.refl (s : Fs) : Rewritten s s := by
  exact ⟨Frame.refl s, fun _ _ => Iff.rfl, fun _ d h => ⟨d.offset, h⟩, fun _ d h => ⟨d.offset, h⟩,
    .of_eq rfl⟩

theorem Rewritten.trans (h : Rewritten s r) (h' : Rewritten r r') : Rewritten s r' := by
  refine ⟨h.frame.trans h'.frame, fun q n => (h'.node q n).trans (h.node q n), fun q d hd => ?_,
    fun q d hd => ?_, h.entry.trans h'.entry⟩
  · obtain ⟨o, ho⟩ := h.desc q d hd
    obtain ⟨o', ho'⟩ := h'.desc q _ ho
    exact ⟨o', ho'⟩
  · obtain ⟨o, ho⟩ := h'.desc_back q d hd
    obtain ⟨o', ho'⟩ := h.desc_back q _ ho
    exact ⟨o', ho'⟩

/-- A change that no node and no descriptor notices. -/
theorem Rewritten.of_sameHandles (hframe : Frame s r) (hsame : SameHandles s r)
    (hentry : SamePlaces s.entries r.entries) : Rewritten s r :=
  ⟨hframe, fun q n => hsame q _ (by simp) (by simp),
    fun q d hd => ⟨d.offset, (hsame q _ (by simp) (by simp)).2 hd⟩,
    fun q d hd => ⟨d.offset, (hsame q _ (by simp) (by simp)).1 hd⟩, hentry⟩

theorem rewritten_put {file : Ptr} {e e' : TmpfsEntry} (he : s.obj file = some (.entry e))
    (hsame : SameLinks e e') : Rewritten s (s.put file (.entry e')) :=
  .of_sameHandles (frame_put s file _) (sameHandles_put he) <| by
    rw [entries_put (by simp [he])]
    exact samePlaces_update (entries_eq_some.2 he) hsame

/-- A descriptor moves on. -/
theorem rewritten_setOffset {desc : Ptr} {d : FileDesc} (hd : s.obj desc = some (.desc d))
    (offset : Nat) : Rewritten s (s.put desc (.desc { d with offset := offset })) := by
  have hobj := obj_put (s := s) (p := desc) (by simp [hd]) (.desc { d with offset := offset })
  have hent : (s.put desc (.desc { d with offset := offset })).entries = s.entries :=
    entries_update hobj (by simp [hd]) (by simp)
  refine ⟨frame_put s desc _, fun q n => ?_, fun q d' hd' => ?_, fun q d' hd' => ?_,
    .of_eq hent⟩
  · rw [hobj, Function.update_apply]
    split_ifs with hq
    · simp [hq, hd]
    · rfl
  · rw [hobj, Function.update_apply]
    split_ifs with hq
    · obtain rfl : d = d' := by simpa [hq, hd] using hd'
      exact ⟨offset, rfl⟩
    · exact ⟨d'.offset, hd'⟩
  · rw [hobj, Function.update_apply] at hd'
    split_ifs at hd' with hq
    · obtain rfl : { d with offset := offset } = d' := by simpa using hd'
      exact ⟨d.offset, hq ▸ hd⟩
    · exact ⟨d'.offset, hd'⟩

/-- **The tree and its holders stay.** -/
theorem Mounted.rewritten (h : Mounted s t) (hr : Rewritten s r) : Mounted r t := by
  refine ⟨⟨h.stands.tree.congr hr.entry, ?_⟩, ?_, fun p i hp => ?_, fun p i p' i' d d' hd hd' heq => ?_⟩
  · rw [hr.frame.root, hr.node]
    exact h.stands.root
  · obtain ⟨f, hf⟩ := h.cwd
    exact ⟨f, by rw [hr.frame.cwd, hr.node, hf]⟩
  · rw [hr.frame.fds] at hp ⊢
    obtain ⟨d, f, hd, hone, hf, hroot, hcwd⟩ := h.desc p i hp
    obtain ⟨o, ho⟩ := hr.desc _ d hd
    exact ⟨_, f, ho, hone, (hr.node _ _).2 hf, by rwa [hr.frame.root], by rwa [hr.frame.cwd]⟩
  · rw [hr.frame.fds] at hd hd'
    obtain ⟨o, ho⟩ := hr.desc_back _ d hd
    obtain ⟨o', ho'⟩ := hr.desc_back _ d' hd'
    exact h.apart p i p' i' _ _ ho ho' heq

theorem UsesLive.rewritten (hl : UsesLive s) (hr : Rewritten s r) : UsesLive r := by
  have hlive : ∀ x, (∃ e, s.entries x = some e) → ∃ e, r.entries x = some e := by
    rintro x ⟨e, he⟩
    rcases hr.entry x with ⟨hnone, -⟩ | ⟨-, e', -, he', -⟩
    · rw [he] at hnone
      cases hnone
    · exact ⟨e', he'⟩
  rintro x (hx | ⟨p, i, d, hd, hx⟩)
  · rw [hr.frame.cwd, hr.node] at hx
    exact hlive x (hl x (Or.inl hx))
  · rw [hr.frame.fds] at hd
    obtain ⟨o, ho⟩ := hr.desc_back _ d hd
    exact hlive x (hl x (Or.inr ⟨p, i, _, ho, (hr.node _ _).1 hx⟩))

/-! ## The data of the files -/

/-- The data of each entry lie in a block of its own, which is as long as the entry says. -/
structure FilesSound (s : Fs) : Prop where
  content : ∀ q e, s.entries q = some e → ∃ bytes, Content s e bytes ∧ e.size = bytes.length
  apart : ∀ q q' e e', s.entries q = some e → s.entries q' = some e' →
    e.dataPtr = e'.dataPtr → e.dataPtr = 0 ∨ q = q'

/-- The entry has no data yet. -/
def NoData (e : TmpfsEntry) : Prop := e.dataPtr = 0 ∧ e.capacity = 0 ∧ e.size = 0

/-- The entry has the data of another one. -/
def SameData (e e' : TmpfsEntry) : Prop :=
  e'.dataPtr = e.dataPtr ∧ e'.capacity = e.capacity ∧ e'.size = e.size

/-- What the entries hold does not change with their links, nor with new entries. -/
theorem FilesSound.kept (h : FilesSound s)
    (hdata : ∀ q bytes, s.obj q = some (.data bytes) → r.obj q = some (.data bytes))
    (hent : ∀ q e', r.entries q = some e' →
      NoData e' ∨ ∃ e, s.entries q = some e ∧ SameData e e') : FilesSound r := by
  constructor
  · intro q e' he'
    rcases hent q e' he' with ⟨hptr, hcap, hsize⟩ | ⟨e, he, hptr, hcap, hsize⟩
    · exact ⟨[], Or.inl ⟨hptr, hcap, rfl⟩, hsize⟩
    · obtain ⟨bytes, hcon, hlen⟩ := h.content q e he
      refine ⟨bytes, ?_, hsize.trans hlen⟩
      rcases hcon with hzero | ⟨data, hobj, hrest⟩
      · left
        rwa [hptr, hcap]
      · right
        rw [hptr, hcap]
        exact ⟨data, hdata _ _ hobj, hrest⟩
  · intro q q' e₁ e₂ he₁ he₂ heq
    rcases hent q e₁ he₁ with ⟨hptr, -⟩ | ⟨e, he, hptr, -⟩
    · exact Or.inl hptr
    · rcases hent q' e₂ he₂ with ⟨hptr', -⟩ | ⟨e', he', hptr', -⟩
      · exact Or.inl (heq.trans hptr')
      · rw [hptr]
        exact h.apart q q' e e' he he' (by rw [← hptr, ← hptr', heq])

/-- A call by path keeps the data of the files. -/
theorem FilesSound.effect {t' : OrderedTree Ptr} {gone fresh : Ptr} (h : FilesSound s)
    (heffect : Effect s r t t' gone fresh) : FilesSound r := by
  refine h.kept heffect.data fun q e' he' => ?_
  by_cases hq : q = fresh
  · subst hq
    have h0 : q ≠ 0 := ne_zero_of_obj (entries_eq_some.1 he')
    obtain ⟨name, next, parent, mode, hnew⟩ := heffect.change.fresh_eq h0
    rw [he'] at hnew
    obtain rfl := Option.some.inj hnew
    exact Or.inl ⟨rfl, rfl, rfl⟩
  · obtain ⟨e, he, hsame⟩ := heffect.change.back he' hq
    exact Or.inr ⟨e, he, hsame.dataPtr, hsame.capacity, hsame.size⟩

/-- A fresh mount has no data. -/
theorem Fresh.filesSound {f : Ptr} (h : Fresh s f) : FilesSound s := by
  have hroot : ∀ q e, s.entries q = some e → q = f ∧ e = rootEntry := by
    intro q e he
    rw [h.entries, Function.update_apply] at he
    split_ifs at he with hq
    exact ⟨hq, (Option.some.inj he).symm⟩
  refine ⟨fun q e he => ?_, fun q q' e e' he he' _ => ?_⟩
  · obtain ⟨-, rfl⟩ := hroot q e he
    exact ⟨[], Or.inl ⟨rfl, rfl, rfl⟩, rfl⟩
  · exact Or.inr ((hroot q e he).1.trans (hroot q' e' he').1.symm)

/-- Writing the metadata of an entry. -/
theorem FilesSound.put (h : FilesSound s) {file : Ptr} {e e' : TmpfsEntry}
    (he : s.obj file = some (.entry e)) (hsame : SameData e e') :
    FilesSound (s.put file (.entry e')) := by
  have hobj := obj_put (s := s) (p := file) (by simp [he]) (.entry e')
  refine h.kept (fun q bytes hq => ?_) fun q e₁ he₁ => ?_
  · rw [hobj, Function.update_of_ne, hq]
    rintro rfl
    rw [he] at hq
    cases hq
  · rw [entries_put (by simp [he]), Function.update_apply] at he₁
    split_ifs at he₁ with hq
    · obtain rfl := Option.some.inj he₁
      exact Or.inr ⟨e, by rw [hq, entries_eq_some.2 he], hsame⟩
    · exact Or.inr ⟨e₁, he₁, rfl, rfl, rfl⟩

/-- Moving a descriptor on. -/
theorem FilesSound.setOffset (h : FilesSound s) {desc : Ptr} {d : FileDesc}
    (hd : s.obj desc = some (.desc d)) (offset : Nat) :
    FilesSound (s.put desc (.desc { d with offset := offset })) := by
  have hobj := obj_put (s := s) (p := desc) (by simp [hd]) (.desc { d with offset := offset })
  refine h.kept (fun q bytes hq => ?_) fun q e he => ?_
  · rw [hobj, Function.update_of_ne, hq]
    rintro rfl
    rw [hd] at hq
    cases hq
  · rw [entries_update hobj (by simp [hd]) (by simp)] at he
    exact Or.inr ⟨e, he, rfl, rfl, rfl⟩

/-- There is no entry where the data of a file are. -/
theorem Content.entries_eq {e : TmpfsEntry} {bytes : List UInt8} (h : Content s e bytes) :
    s.entries e.dataPtr = none := by
  unfold Fs.entries
  rcases h with ⟨hzero, -⟩ | ⟨data, hdata, -⟩
  · rw [hzero, obj_zero]
  · rw [hdata]

/-- A block of data that a write leaves alone. -/
theorem Rewrites.data_stays {file p : Ptr} {e e' : TmpfsEntry} {data bytes : List UInt8}
    (h : Rewrites s r file e e' data) (he : s.obj file = some (.entry e))
    (hp : s.obj p = some (.data bytes)) (hne : p ≠ e.dataPtr) : r.obj p = some (.data bytes) := by
  have hfile : p ≠ file := by
    rintro rfl
    rw [he] at hp
    cases hp
  have hnew : p ≠ e'.dataPtr := by
    rcases h.block with hb | hb
    · rwa [hb]
    · rintro rfl
      rw [hb] at hp
      cases hp
  rw [h.obj, Function.update_of_ne hfile, Function.update_of_ne hnew, Function.update_of_ne hne, hp]

/-- **A write keeps the data of each file in a block of its own.** -/
theorem Rewrites.filesSound {file : Ptr} {e e' : TmpfsEntry} {data : List UInt8}
    (h : Rewrites s r file e e' data) (hs : FilesSound s) (he : s.obj file = some (.entry e))
    (hfile : file ≠ e'.dataPtr) (hcap : data.length = e'.capacity) (hsize : e'.size ≤ data.length) :
    FilesSound r := by
  have hent := entries_eq_some.2 he
  obtain ⟨bytes, hcon, -⟩ := hs.content file e hent
  have hentries := h.entries hcon.entries_eq
  have hback : ∀ q e₁, r.entries q = some e₁ →
      (q = file ∧ e₁ = e') ∨ (q ≠ file ∧ s.entries q = some e₁) := by
    intro q e₁ he₁
    rw [hentries, Function.update_apply] at he₁
    split_ifs at he₁ with hq
    · exact Or.inl ⟨hq, (Option.some.inj he₁).symm⟩
    · exact Or.inr ⟨hq, he₁⟩
  -- the new block is no other file's
  have hother : ∀ q e₁, q ≠ file → s.entries q = some e₁ → e₁.dataPtr ≠ e'.dataPtr := by
    intro q e₁ hq he₁ heq
    rcases h.block with hb | hb
    · rcases hs.apart q file e₁ e he₁ hent (heq.trans hb) with hzero | hsame
      · exact h.ne_zero (heq.symm.trans hzero)
      · exact hq hsame
    · obtain ⟨bytes₁, ⟨hzero, -⟩ | ⟨b, hb₁, -⟩, -⟩ := hs.content q e₁ he₁
      · exact h.ne_zero (heq.symm.trans hzero)
      · rw [heq, hb] at hb₁
        cases hb₁
  constructor
  · intro q e₁ he₁
    rcases hback q e₁ he₁ with ⟨rfl, rfl⟩ | ⟨hq, hold⟩
    · refine ⟨data.take e₁.size, Or.inr ⟨data, ?_, hcap, ?_, ?_⟩, ?_⟩
      · rw [h.obj, Function.update_of_ne hfile.symm, Function.update_self]
      · rw [List.length_take]
        exact Nat.min_le_right _ _
      · rw [List.length_take, Nat.min_eq_left hsize]
      · rw [List.length_take, Nat.min_eq_left hsize]
    · obtain ⟨bytes₁, hcon₁, hlen⟩ := hs.content q e₁ hold
      refine ⟨bytes₁, ?_, hlen⟩
      rcases hcon₁ with hzero | ⟨b, hb, hrest⟩
      · exact Or.inl hzero
      · have hne : e₁.dataPtr ≠ e.dataPtr := by
          intro heq
          rcases hs.apart q file e₁ e hold hent heq with hzero | hsame
          · exact ne_zero_of_obj hb hzero
          · exact hq hsame
        exact Or.inr ⟨b, h.data_stays he hb hne, hrest⟩
  · intro q q' e₁ e₂ he₁ he₂ heq
    rcases hback q e₁ he₁ with ⟨hq, rfl⟩ | ⟨hq, hold⟩
    · rcases hback q' e₂ he₂ with ⟨hq', rfl⟩ | ⟨hq', hold'⟩
      · exact Or.inr (hq.trans hq'.symm)
      · exact absurd heq.symm (hother q' e₂ hq' hold')
    · rcases hback q' e₂ he₂ with ⟨hq', rfl⟩ | ⟨hq', hold'⟩
      · exact absurd heq (hother q e₁ hq hold)
      · exact hs.apart q q' e₁ e₂ hold hold' heq

/-- A write leaves the tree and its holders. -/
theorem Rewrites.rewritten {file : Ptr} {e e' : TmpfsEntry} {data bytes : List UInt8}
    (h : Rewrites s r file e e' data) (he : s.obj file = some (.entry e))
    (hcon : Content s e bytes) (hsame : SameLinks e e') : Rewritten s r :=
  .of_sameHandles h.frame (h.sameHandles he hcon) <| by
    rw [h.entries hcon.entries_eq]
    exact samePlaces_update (entries_eq_some.2 he) hsame

/-! ## The calls -/

variable {proc : Nat} {fd : Int} {d : FileDesc} {f : Ptr} {e : TmpfsEntry}

/-- What a descriptor stands for. -/
structure Descriptor (s : Fs) (proc : Nat) (fd : Int) (d : FileDesc) (f : Ptr) (e : TmpfsEntry) :
    Prop where
  desc : s.obj (s.kfdGet proc fd) = some (.desc d)
  node : s.Refers d.node f
  entry : s.obj f = some (.entry e)

theorem Descriptor.node_ne_zero (h : Descriptor s proc fd d f e) : d.node ≠ 0 := by
  obtain ⟨n, hn, -⟩ := h.node
  exact ne_zero_of_obj hn

/-- Access through a descriptor is refused, or to an entry in use. -/
theorem kfdAccess_cases (h : Mounted s t) (hl : UsesLive s) (proc : Nat) (fd : Int) (access : Nat)
    (permitted : VfsStat → Bool) :
    s.kfdAccess proc fd access permitted = some none ∨
      ∃ d f e, Descriptor s proc fd d f e ∧ kfdCheckAccess d access = true ∧
        permitted e.stat = true ∧ s.kfdAccess proc fd access permitted = some (some d) := by
  by_cases h0 : s.kfdGet proc fd = 0
  · exact Or.inl (by simp [kfdAccess, h0])
  have hget := kfdGet_of_ne_zero h0
  obtain ⟨d, f, hd, -, hf, -⟩ := h.desc proc fd.toNat (hget ▸ h0)
  obtain ⟨e, he⟩ := hl f (Or.inr ⟨proc, fd.toNat, d, hd, hf⟩)
  rw [← hget] at hd
  have hdesc : Descriptor s proc fd d f e := ⟨hd, refers_newNode hf, entries_eq_some.1 he⟩
  have hacc := kfdAccess_spec access permitted hd hdesc.node hdesc.entry
  by_cases hok : (kfdCheckAccess d access && permitted e.stat) = true
  · have hboth := Bool.and_eq_true_iff.1 hok
    exact Or.inr ⟨d, f, e, hdesc, hboth.1, hboth.2, by rw [hacc, if_pos hok]⟩
  · exact Or.inl (by rw [hacc, if_neg hok])

/-- Storing the offset after the operation. -/
theorem Descriptor.setOffset (h : Descriptor s proc fd d f e) (hr : Rewritten s r)
    (hfiles : FilesSound r) (offset : Nat) :
    ∃ r', r.setOffset (r.kfdGet proc fd) offset = some r' ∧ Rewritten s r' ∧ FilesSound r' := by
  obtain ⟨o, ho⟩ := hr.desc _ d h.desc
  have hget : r.kfdGet proc fd = s.kfdGet proc fd := by rw [kfdGet, kfdGet, hr.frame.fds]
  rw [hget]
  exact ⟨_, setOffset_spec ho offset, hr.trans (rewritten_setOffset ho offset),
    hfiles.setOffset ho offset⟩

/-- Writing the access time of an entry. -/
theorem put_atime (hs : FilesSound s) (he : s.obj f = some (.entry e)) :
    Rewritten s (s.put f (.entry { e with stat := kvfsStatUpdateAtime e.stat })) ∧
      FilesSound (s.put f (.entry { e with stat := kvfsStatUpdateAtime e.stat })) :=
  ⟨rewritten_put he ⟨rfl, rfl, rfl, rfl, rfl, rfl⟩, hs.put he ⟨rfl, rfl, rfl⟩⟩

/-! ### Reading -/

/-- The bytes that a read copies lie in the block of the file. -/
theorem copyOut_total {bytes : List UInt8} (hcon : Content s e bytes) {offset n : Nat}
    (hle : offset + n ≤ bytes.length) : ∃ out, s.copyOut e.dataPtr offset n = some out := by
  unfold copyOut
  by_cases h0 : n = 0
  · exact ⟨[], if_pos h0⟩
  · rcases hcon with ⟨-, -, rfl⟩ | ⟨data, hdata, -, hlen, -⟩
    · simp only [List.length_nil] at hle
      omega
    · refine ⟨(data.drop offset).take n, ?_⟩
      rw [if_neg h0]
      simp only [dataAt_of_obj hdata, Option.bind_eq_bind, Option.bind_some]
      rw [if_pos (by omega)]

theorem ktmpfsRead_rewritten (ht : TreeStored s.entries t) (hs : FilesSound s) {node : Ptr}
    (hnode : s.Refers node f) (he : s.obj f = some (.entry e)) (offset len : Nat) :
    ∃ bytes offset' r, s.ktmpfsRead node offset len = some (bytes, offset', r) ∧ Rewritten s r ∧
      FilesSound r := by
  by_cases hlen : len = 0
  · exact ⟨[], offset, s, by simp [ktmpfsRead, hlen], .refl s, hs⟩
  have hchr := ht.isChr (entries_eq_some.2 he)
  obtain ⟨n, hn, -, rfl⟩ := hnode
  by_cases hreg : e.isReg = true
  · by_cases hbehind : offset > e.size
    · refine ⟨[], offset, s, ?_, .refl s, hs⟩
      simp [ktmpfsRead, ne_zero_of_obj hn, ne_zero_of_obj he, hlen, nodeAt_of_obj hn,
        entryAt_of_obj he, hchr, hreg, hbehind]
    · obtain ⟨bytes, hcon, hsize⟩ := hs.content _ e (entries_eq_some.2 he)
      have hle : offset + (if e.size - offset > len then len else e.size - offset) ≤
          bytes.length := by
        split_ifs <;> omega
      obtain ⟨out, hout⟩ := copyOut_total hcon hle
      obtain ⟨hrew, hfiles⟩ := put_atime hs he
      refine ⟨out, u32 (offset + if e.size - offset > len then len else e.size - offset), _, ?_,
        hrew, hfiles⟩
      simp only [ktmpfsRead, Option.bind_eq_bind, Option.pure_def, nodeAt_of_obj hn,
        entryAt_of_obj he, Option.bind_some, hchr, hreg, if_neg hbehind, hout]
      simp [ne_zero_of_obj hn, ne_zero_of_obj he, hlen]
  · refine ⟨[], offset, s, ?_, .refl s, hs⟩
    simp [ktmpfsRead, ne_zero_of_obj hn, ne_zero_of_obj he, hlen, nodeAt_of_obj hn,
      entryAt_of_obj he, hchr, hreg]

/-- **`kfd_read` leaves the tree and its holders.** -/
theorem kfdRead_rewritten (h : Mounted s t) (hl : UsesLive s) (hs : FilesSound s) (proc : Nat)
    (fd : Int) (len : Nat) :
    ∃ bytes r, s.kfdRead proc fd len = some (bytes, r) ∧ Rewritten s r ∧ FilesSound r := by
  by_cases hlen : len = 0
  · exact ⟨[], s, by simp [kfdRead, hlen], .refl s, hs⟩
  rcases kfdAccess_cases h hl proc fd KFD_ACCESS_READ (kvfsStatCanRead · Cred.root) with
    hnone | ⟨d, f, e, hdesc, -, -, hacc⟩
  · refine ⟨[], s, ?_, .refl s, hs⟩
    simp only [kfdRead, if_neg hlen, hnone, Option.bind_eq_bind, Option.bind_some, Option.pure_def]
  · obtain ⟨bytes, offset, r, hread, hrew, hfiles⟩ :=
      ktmpfsRead_rewritten h.stands.tree hs hdesc.node hdesc.entry d.offset len
    have hkvfs : s.kvfsRead d.node d.offset len = some (bytes, offset, r) := by
      simp [kvfsRead, hdesc.node_ne_zero, hlen, kvfsGetStat_refers hdesc.node hdesc.entry, hread]
    obtain ⟨r', hset, hrew', hfiles'⟩ := hdesc.setOffset hrew hfiles offset
    refine ⟨bytes, r', ?_, hrew', hfiles'⟩
    simp only [kfdRead, if_neg hlen, hacc, hkvfs, hset, Option.bind_eq_bind, Option.bind_some,
      Option.pure_def]

/-! ### Reading a directory -/

/-- Following the links of a list of entries: the entry at an index, `NULL` behind the last one. -/
theorem nthChild_isList {p : Ptr} {l : List Ptr} (h : IsList (nextOf s.entries) p l) (index : Nat) :
    s.nthChild index p = some (l[index]?.getD 0) := by
  induction index generalizing p l with
  | zero =>
    cases l with
    | nil => exact congrArg some h
    | cons x l => exact congrArg some h.1
  | succ index ih =>
    cases l with
    | nil =>
      have hp : p = 0 := h
      simp [nthChild, hp]
    | cons x l =>
      obtain ⟨rfl, hne, next, hnext, hl⟩ := h
      obtain ⟨e, he, rfl⟩ := Option.map_eq_some_iff.1 hnext
      simp [nthChild, hne, entryAt_of_obj (entries_eq_some.1 he), ih hl]

theorem ktmpfsReaddir_rewritten (h : Mounted s t) (hs : FilesSound s) {node : Ptr}
    (hnode : s.Refers node f) (he : s.obj f = some (.entry e)) (offset : Nat) :
    ∃ out offset' r, s.ktmpfsReaddir node offset = some (out, offset', r) ∧ Rewritten s r ∧
      FilesSound r := by
  obtain ⟨n, hn, -, rfl⟩ := hnode
  obtain ⟨hrew, hfiles⟩ := put_atime hs he
  have ht := (h.rewritten hrew).stands.tree
  have hnew := entries_put (s := s) (p := n.priv) (by simp [he])
    { e with stat := kvfsStatUpdateAtime e.stat }
  have hwalk := nthChild_isList
    (ht.child n.priv { e with stat := kvfsStatUpdateAtime e.stat } (by rw [hnew, Function.update_self]))
    offset
  obtain ⟨out, hout⟩ : ∃ out, (s.put n.priv (.entry { e with
      stat := kvfsStatUpdateAtime e.stat })).fillOutDirent ((t.kids n.priv)[offset]?.getD 0) =
        some out := by
    cases hq : (t.kids n.priv)[offset]? with
    | none => exact ⟨none, by simp [fillOutDirent]⟩
    | some q =>
      obtain ⟨e', he'⟩ := (ht.mem q).1 (t.kid_mem (List.mem_of_getElem? hq)).2.1
      have hq0 : q ≠ 0 := ne_zero_of_obj (entries_eq_some.1 he')
      exact ⟨some { inode := 0, type := kvfsStatType e'.stat.mode, name := e'.name },
        by simp [fillOutDirent, hq0, entryAt_of_obj (entries_eq_some.1 he')]⟩
  refine ⟨out, u32 (offset + 1), _, ?_, hrew, hfiles⟩
  simp [ktmpfsReaddir, ne_zero_of_obj hn, nodeAt_of_obj hn, entryAt_of_obj he, hwalk, hout]

/-- **`kfd_readdir` leaves the tree and its holders.** -/
theorem kfdReaddir_rewritten (h : Mounted s t) (hl : UsesLive s) (hs : FilesSound s) (proc : Nat)
    (fd : Int) :
    ∃ out r, s.kfdReaddir proc fd = some (out, r) ∧ Rewritten s r ∧ FilesSound r := by
  rcases kfdAccess_cases h hl proc fd KFD_ACCESS_READ (kvfsStatIsDir ·.mode) with
    hnone | ⟨d, f, e, hdesc, -, hdir, hacc⟩
  · refine ⟨none, s, ?_, .refl s, hs⟩
    simp only [kfdReaddir, hnone, Option.bind_eq_bind, Option.bind_some, Option.pure_def]
  · obtain ⟨out, offset, r, hread, hrew, hfiles⟩ :=
      ktmpfsReaddir_rewritten h hs hdesc.node hdesc.entry d.offset
    have hkvfs : s.kvfsReaddir d.node d.offset = some (out, offset, r) := by
      simp [kvfsReaddir, hdesc.node_ne_zero, kvfsGetStat_refers hdesc.node hdesc.entry, hdir, hread]
    obtain ⟨r', hset, hrew', hfiles'⟩ := hdesc.setOffset hrew hfiles offset
    refine ⟨out, r', ?_, hrew', hfiles'⟩
    simp only [kfdReaddir, hacc, hkvfs, hset, Option.bind_eq_bind, Option.bind_some,
      Option.pure_def]

/-! ### Writing -/

/-- The write gets the room that it needs; or it gets none, and the file has no data that it could
lose. -/
def StoreKeeps (s : Fs) (e : TmpfsEntry) (offset len : Nat) : Prop :=
  WriteFits s e offset len ∨ WriteRefused s e (u32 (offset + len)) ∧ e.dataPtr = 0

/-- The write through the descriptor, if it is carried out, keeps the data of the file. -/
def WriteKeeps (s : Fs) (proc : Nat) (fd : Int) (buffer : List UInt8) : Prop :=
  ∀ d ∈ s.descAt (s.kfdGet proc fd), ∀ n ∈ s.nodeAt d.node, ∀ e ∈ s.entryAt n.priv,
    buffer.length ≠ 0 → kfdCheckAccess d KFD_ACCESS_WRITE = true → e.isReg = true →
      StoreKeeps s e d.offset buffer.length

instance (s : Fs) (e : TmpfsEntry) (offset len : Nat) : Decidable (StoreKeeps s e offset len) :=
  inferInstanceAs (Decidable ((_ ∧ (_ → _)) ∨ (_ ∧ _) ∧ _))

instance (s : Fs) (proc : Nat) (fd : Int) (buffer : List UInt8) :
    Decidable (WriteKeeps s proc fd buffer) :=
  inferInstanceAs (Decidable (∀ d ∈ _, ∀ n ∈ _, ∀ e ∈ _, _ → _ → _ → StoreKeeps _ _ _ _))

/-- A write that gets no room for a file without data changes nothing. -/
theorem ktmpfsWrite_refused (hs : FilesSound s) {n : VfsNode} {node : Ptr} {offset : Nat}
    {buffer : List UInt8} (hn : s.obj node = some (.node n)) (he : s.obj n.priv = some (.entry e))
    (hreg : e.isReg = true) (hlen : buffer.length ≠ 0)
    (hrefused : WriteRefused s e (u32 (offset + buffer.length))) (hptr : e.dataPtr = 0) :
    ∃ r, s.ktmpfsWrite node offset buffer = some (0, offset, r) ∧ Rewritten s r ∧ FilesSound r := by
  obtain ⟨r, hre, hwrite⟩ := ktmpfsWrite_of_refused (nodeAt_of_obj hn) (entryAt_of_obj he) hreg hlen
    hrefused.1 hrefused.2
  have hheap : r.heap = s.heap := by rw [krealloc_null hre, if_pos hptr]
  have hobj : r.obj = s.obj := by
    funext q
    rw [obj, obj, hheap]
  have hent : r.entries = s.entries := entries_congr fun q e => by rw [hobj]
  have hframe : Frame s r := by
    have hpos : u32 (offset + buffer.length) ≠ 0 := Nat.ne_zero_of_lt hrefused.1
    rw [hptr] at hre
    simp only [krealloc, reallocSize, if_neg hpos, hrefused.2, Option.bind_eq_bind,
      Option.bind_some, Option.pure_def, if_true, Option.some.injEq, Prod.mk.injEq, true_and] at hre
    rw [← hre]
    exact kmalloc_frame s _
  exact ⟨r, hwrite, .of_sameHandles hframe (fun q o _ _ => by rw [hobj]) (.of_eq hent),
    hs.kept (fun q bytes hq => by rw [hobj, hq]) fun q e he => Or.inr ⟨e, by rw [← hent, he],
      rfl, rfl, rfl⟩⟩

theorem ktmpfsWrite_rewritten (ht : TreeStored s.entries t) (hs : FilesSound s) {node : Ptr}
    (hnode : s.Refers node f) (he : s.obj f = some (.entry e)) {offset : Nat} {buffer : List UInt8}
    (hlen : buffer.length ≠ 0) (hkeeps : e.isReg = true → StoreKeeps s e offset buffer.length) :
    ∃ written offset' r, s.ktmpfsWrite node offset buffer = some (written, offset', r) ∧
      Rewritten s r ∧ FilesSound r := by
  by_cases hreg : e.isReg = true
  · rcases hkeeps hreg with ⟨hfit, halloc⟩ | ⟨hrefused, hptr⟩
    · obtain ⟨bytes, hcon, hsize⟩ := hs.content f e (entries_eq_some.2 he)
      obtain ⟨r, e', data, hwrite, hrew, he', hne, hroom, hle, -⟩ :=
        ktmpfsWrite_rewrites hnode he hreg hcon hlen hfit halloc
      have hsame : SameLinks e e' := by
        rw [he']
        constructor <;> simp
      refine ⟨buffer.length, offset + buffer.length, r, hwrite, hrew.rewritten he hcon hsame,
        hrew.filesSound hs he hne ?_ ?_⟩
      · rw [length_splice buffer (by omega), he']
        exact max_eq_right hroom
      · rw [length_splice buffer (by omega), he']
        simp only
        omega
    · obtain ⟨n, hn, -, rfl⟩ := hnode
      obtain ⟨r, hwrite, hrest⟩ := ktmpfsWrite_refused hs hn he hreg hlen hrefused hptr
      exact ⟨0, offset, r, hwrite, hrest⟩
  · refine ⟨0, offset, s, ?_, .refl s, hs⟩
    have hchr := ht.isChr (entries_eq_some.2 he)
    obtain ⟨n, hn, -, rfl⟩ := hnode
    simp [ktmpfsWrite, ne_zero_of_obj hn, ne_zero_of_obj he, hlen, nodeAt_of_obj hn,
      entryAt_of_obj he, hchr, hreg]

/-- **`kfd_write` leaves the tree and its holders.** -/
theorem kfdWrite_rewritten (h : Mounted s t) (hl : UsesLive s) (hs : FilesSound s) {proc : Nat}
    {fd : Int} {buffer : List UInt8} (hkeeps : WriteKeeps s proc fd buffer) :
    ∃ written r, s.kfdWrite proc fd buffer = some (written, r) ∧ Rewritten s r ∧
      FilesSound r := by
  by_cases hlen : buffer.length = 0
  · exact ⟨0, s, by simp [kfdWrite, hlen], .refl s, hs⟩
  rcases kfdAccess_cases h hl proc fd KFD_ACCESS_WRITE (kvfsStatCanWrite · Cred.root) with
    hnone | ⟨d, f, e, hdesc, haccess, -, hacc⟩
  · refine ⟨0, s, ?_, .refl s, hs⟩
    simp only [kfdWrite, if_neg hlen, hnone, Option.bind_eq_bind, Option.bind_some, Option.pure_def]
  · obtain ⟨written, offset, r, hwrite, hrew, hfiles⟩ :=
      ktmpfsWrite_rewritten h.stands.tree hs hdesc.node hdesc.entry hlen fun hreg => by
        obtain ⟨n, hn, -, hpriv⟩ := hdesc.node
        exact hkeeps d (descAt_of_obj hdesc.desc) n (nodeAt_of_obj hn) e
          (hpriv ▸ entryAt_of_obj hdesc.entry) hlen haccess hreg
    have hkvfs : s.kvfsWrite d.node d.offset buffer = some (written, offset, r) := by
      simp [kvfsWrite, hdesc.node_ne_zero, hlen, kvfsGetStat_refers hdesc.node hdesc.entry, hwrite]
    obtain ⟨r', hset, hrew', hfiles'⟩ := hdesc.setOffset hrew hfiles offset
    refine ⟨written, r', ?_, hrew', hfiles'⟩
    simp only [kfdWrite, if_neg hlen, hacc, hkvfs, hset, Option.bind_eq_bind, Option.bind_some,
      Option.pure_def]

end Fs

end DelOs
