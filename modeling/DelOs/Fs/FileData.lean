import DelOs.Fs.Calls

/-!
# The data of a regular file

What `ktmpfs_write` and `ktmpfs_read` do to a file whose data lie in a block of their own, when
the allocator gives the room that a growing file asks for.

* `Refers` — a live node of an entry.
* `FileHolds` — the file holds an array of bytes: its sizes are the length of the array, and the
  first bytes of its block are the array.
* `Rewrites` — all that a write may change: the entry of the file and the block of its data.
* `krealloc_spec`, `growData_spec`, `storeBytes_spec` — the steps of a write.
* `ktmpfsWrite_spec`, `ktmpfsRead_spec` — **a write splices the array, a read takes a slice of
  it**, whatever bytes lie behind the data.
-/

namespace DelOs

open FirstFit Splice

namespace Fs

/-! ## Live nodes -/

/-- `node` is a live node of the tmpfs for the entry at `entry`. -/
def Refers (s : Fs) (node entry : Ptr) : Prop :=
  ∃ n, s.obj node = some (.node n) ∧ n.ops = .ktmpfsOperations ∧ n.priv = entry

instance (s : Fs) (node entry : Ptr) : Decidable (s.Refers node entry) :=
  match h : s.obj node with
  | some (.node n) =>
      decidable_of_iff (n.ops = .ktmpfsOperations ∧ n.priv = entry) (by simp [Refers, h])
  | none | some .raw | some (.entry _) | some (.desc _) | some (.data _) =>
      isFalse (by simp [Refers, h])

theorem kvfsGetStat_refers {s : Fs} {node file : Ptr} {e : TmpfsEntry} (h : s.Refers node file)
    (he : s.obj file = some (.entry e)) : s.kvfsGetStat node = some (some e.stat) := by
  obtain ⟨n, hn, hops, rfl⟩ := h
  simp [kvfsGetStat, ktmpfsStat, ne_zero_of_obj hn, nodeAt_of_obj hn, hops, entryAt_of_obj he]

/-! ## What a file holds -/

/-- The block of a file's data begins with `bytes`; a file never written has no block. -/
def Content (s : Fs) (e : TmpfsEntry) (bytes : List UInt8) : Prop :=
  (e.dataPtr = 0 ∧ e.capacity = 0 ∧ bytes = []) ∨
    ∃ data, s.obj e.dataPtr = some (.data data) ∧ data.length = e.capacity ∧
      bytes.length ≤ data.length ∧ data.take bytes.length = bytes

/-- The entry of a regular file that holds `bytes`. -/
structure Holds (s : Fs) (e : TmpfsEntry) (bytes : List UInt8) : Prop where
  isReg : e.isReg = true
  size : e.size = bytes.length
  statSize : e.stat.size = bytes.length
  content : Content s e bytes

/-- The regular file at `file` holds `bytes`. -/
def FileHolds (s : Fs) (file : Ptr) (bytes : List UInt8) : Prop :=
  ∃ e, s.obj file = some (.entry e) ∧ Holds s e bytes

theorem Content.length_le {s : Fs} {e : TmpfsEntry} {bytes : List UInt8}
    (h : Content s e bytes) : bytes.length ≤ e.capacity := by
  rcases h with ⟨-, -, rfl⟩ | ⟨data, -, hcap, hle, -⟩
  · simp
  · omega

/-- What a file holds depends on the block of its data alone. -/
theorem Holds.congr {s t : Fs} {e : TmpfsEntry} {bytes : List UInt8} (h : Holds s e bytes)
    (hobj : ∀ data, s.obj e.dataPtr = some (.data data) → t.obj e.dataPtr = some (.data data)) :
    Holds t e bytes := by
  refine ⟨h.isReg, h.size, h.statSize, ?_⟩
  rcases h.content with hzero | ⟨data, hdata, hrest⟩
  · exact Or.inl hzero
  · exact Or.inr ⟨data, hobj data hdata, hrest⟩

/-- A file holds one array of bytes. -/
theorem FileHolds.unique {s : Fs} {file : Ptr} {bytes bytes' : List UInt8}
    (h : s.FileHolds file bytes) (h' : s.FileHolds file bytes') : bytes = bytes' := by
  obtain ⟨e, he, hh⟩ := h
  obtain ⟨e', he', hh'⟩ := h'
  obtain rfl : e = e' := by simpa [he] using he'
  have hlen : bytes.length = bytes'.length := hh.size.symm.trans hh'.size
  rcases hh.content with ⟨-, -, rfl⟩ | ⟨data, hdata, -, -, htake⟩
  · exact (List.length_eq_zero_iff.1 hlen.symm).symm
  · rcases hh'.content with ⟨-, -, rfl⟩ | ⟨data', hdata', -, -, htake'⟩
    · exact List.length_eq_zero_iff.1 hlen
    · obtain rfl : data = data' := by simpa [hdata] using hdata'
      rw [← htake, hlen, htake']

/-- All that a write to the file at `file` may change: its entry, and the block of its data,
which may be a new one. -/
structure Rewrites (s t : Fs) (file : Ptr) (e e' : TmpfsEntry) (data : List UInt8) : Prop where
  frame : Frame s t
  block : e'.dataPtr = e.dataPtr ∨ s.obj e'.dataPtr = none
  ne_zero : e'.dataPtr ≠ 0
  obj : t.obj = Function.update (Function.update (Function.update s.obj e.dataPtr none)
    e'.dataPtr (some (.data data))) file (some (.entry e'))

/-- A change of the entry and the data after a rewrite is a rewrite. -/
theorem Rewrites.trans {s t r : Fs} {file : Ptr} {e e' e'' : TmpfsEntry}
    {data data' : List UInt8} (h : Rewrites s t file e e' data) (hf : Frame t r)
    (hptr : e''.dataPtr = e'.dataPtr)
    (hobj : r.obj = Function.update (Function.update t.obj e'.dataPtr (some (.data data'))) file
      (some (.entry e''))) : Rewrites s r file e e'' data' := by
  refine ⟨h.frame.trans hf, hptr ▸ h.block, hptr ▸ h.ne_zero, ?_⟩
  rw [hobj, h.obj, hptr]
  funext q
  simp only [Function.update_apply]
  split_ifs <;> rfl

/-! ## The steps of a write -/

/-- An allocation of `n` bytes succeeds: it returns a block with room for them. -/
def Allocates (s : Fs) (n : Nat) : Prop :=
  (get (s.kmalloc n).2.heap (s.kmalloc n).1).any (fun b => n ≤ b.size) = true

instance (s : Fs) (n : Nat) : Decidable (s.Allocates n) :=
  inferInstanceAs (Decidable (Option.any _ _ = true))

/-- The page layers willing, an allocation of up to half a gigabyte succeeds. -/
theorem allocates_of_granted {s : Fs} {n : Nat} (h0 : 0 < n) (hn : n ≤ 2 ^ 29)
    (hg : s.Granted) : s.Allocates n := by
  have hblocks : kmallocBlocks (s.pages 0) Obj.raw s.heap n =
      ((s.kmalloc n).1, (s.kmalloc n).2.heap) := rfl
  obtain ⟨⟨b, hb, -, hsize⟩, -⟩ := get_kmallocBlocks hn hblocks (kmalloc_granted h0 hn (hg 0))
  simpa [Allocates, hb] using (le_alignUp hn).trans hsize

@[simp] theorem length_readBytes (s : Fs) (bytes : List UInt8) (n : Nat) :
    (s.readBytes bytes n).length = n := by
  simp [readBytes]

/-- Reading past the end of the old bytes keeps them in front. -/
theorem take_readBytes (s : Fs) {bytes : List UInt8} {n : Nat} (h : bytes.length ≤ n) :
    (s.readBytes bytes n).take bytes.length = bytes := by
  apply List.ext_getElem?
  intro i
  rw [List.getElem?_take]
  by_cases hi : i < bytes.length
  · rw [if_pos hi, readBytes, List.getElem?_map, List.getElem?_range (by omega)]
    simp [hi]
  · rw [if_neg hi, List.getElem?_eq_none (by omega)]

/-- A `krealloc` that gets a block moves the data there. -/
theorem krealloc_spec {s : Fs} {ptr n : Nat} {old : List UInt8} (hn : n ≠ 0)
    (hold : (ptr = 0 ∧ old = []) ∨ s.obj ptr = some (.data old)) (ha : s.Allocates n) :
    ∃ p t, s.krealloc ptr n = some (p, t) ∧ Frame s t ∧ p ≠ 0 ∧ s.obj p = none ∧
      t.obj = Function.update (Function.update s.obj ptr none) p
        (some (.data (s.readBytes old n))) := by
  rcases hk : s.kmalloc n with ⟨p, r⟩
  obtain ⟨b, hb, hroom⟩ := (Option.any_eq_true _ _).1 ha
  simp only [hk, decide_eq_true_eq] at hb hroom
  have hp : p ≠ 0 := by
    intro h0
    simp [h0] at hb
  have hframe : Frame s r := by simpa [hk] using kmalloc_frame s n
  obtain ⟨hdead, ⟨c, hc, hfree⟩, hrest⟩ := kmalloc_block hk hp
  have hlive : r.obj p ≠ none := by simp [obj, hc, hfree]
  have hput : r.putData p (s.readBytes old n) = some (r.put p (.data (s.readBytes old n))) := by
    simp [putData, hb, hroom]
  have hread : r.readBytes old n = s.readBytes old n := by simp [readBytes, hframe.junk]
  have hobj : (r.put p (.data (s.readBytes old n))).obj =
      Function.update s.obj p (some (.data (s.readBytes old n))) := by
    rw [obj_put hlive]
    funext q
    by_cases hq : q = p
    · simp [hq]
    · simp [hq, obj, hrest q hq]
  rcases hold with ⟨rfl, rfl⟩ | hold
  · -- no old block: the new one holds whatever lies in it
    refine ⟨p, r.put p (.data (s.readBytes [] n)), ?_,
      hframe.trans (frame_put r p (.data (s.readBytes [] n))), hp, hdead, ?_⟩
    · simp only [krealloc, reallocSize, if_neg hn, hk, if_neg hp, Option.bind_eq_bind,
        Option.bind_some, Option.pure_def, hread, hput, if_true]
    · have hzero : Function.update s.obj 0 none = s.obj := by
        rw [← obj_zero s, Function.update_eq_self]
      rw [hobj, hzero]
  · have hptr := ne_zero_of_obj hold
    have hne : ptr ≠ p := by
      rintro rfl
      rw [hdead] at hold
      cases hold
    have hsame : r.obj ptr = s.obj ptr := by simp [obj, hrest ptr hne]
    have hdata : r.dataAt ptr = some old := dataAt_of_obj (hsame.trans hold)
    refine ⟨p, (r.put p (.data (s.readBytes old n))).kfree ptr, ?_,
      (hframe.trans (frame_put r p (.data (s.readBytes old n)))).trans (frame_kfree _ ptr), hp,
      hdead, ?_⟩
    · simp only [krealloc, reallocSize, if_neg hn, hk, if_neg hp, if_neg hptr,
        Option.bind_eq_bind, Option.bind_some, Option.pure_def, hread, hput, hdata]
    · rw [obj_kfree, hobj, Function.update_comm hne]

/-- Making room for a write: the file holds what it held, and has the capacity asked for. -/
theorem growData_spec {s : Fs} {file : Ptr} {e : TmpfsEntry} {bytes : List UInt8}
    {newSize : Nat} (he : s.obj file = some (.entry e)) (hcon : Content s e bytes)
    (h0 : newSize ≠ 0) (ha : e.capacity < newSize → s.Allocates newSize) :
    ∃ t e' data, s.growData file e newSize = some (true, t) ∧ Rewrites s t file e e' data ∧
      e' = { e with dataPtr := e'.dataPtr, capacity := e'.capacity } ∧
      newSize ≤ data.length ∧ data.length = e'.capacity ∧ bytes.length ≤ data.length ∧
      data.take bytes.length = bytes := by
  by_cases hcap : newSize ≤ e.capacity
  · -- there is room already
    rcases hcon with ⟨-, hc, -⟩ | ⟨data, hdata, hlen, hle, htake⟩
    · omega
    refine ⟨s, e, data, by simp [growData, hcap], ⟨Frame.refl s, Or.inl rfl,
      ne_zero_of_obj hdata, ?_⟩, rfl, by omega, hlen, hle, htake⟩
    funext q
    simp only [Function.update_apply]
    split_ifs with h1 h2
    · rw [h1, he]
    · rw [h2, hdata]
    · rfl
  · obtain ⟨old, hold, htake, hle⟩ : ∃ old : List UInt8,
        ((e.dataPtr = 0 ∧ old = []) ∨ s.obj e.dataPtr = some (.data old)) ∧
          old.take bytes.length = bytes ∧ old.length = e.capacity := by
      rcases hcon with ⟨hptr, hc, rfl⟩ | ⟨data, hdata, hlen, -, htake⟩
      · exact ⟨[], Or.inl ⟨hptr, rfl⟩, rfl, hc.symm⟩
      · exact ⟨data, Or.inr hdata, htake, hlen⟩
    obtain ⟨p, t, hre, hframe, hp, hdead, hobj⟩ := krealloc_spec h0 hold (ha (by omega))
    have hpf : file ≠ p := by
      rintro rfl
      rw [hdead] at he
      cases he
    have hfe : file ≠ e.dataPtr := by
      rintro rfl
      rcases hold with ⟨hz, -⟩ | hd
      · exact ne_zero_of_obj he hz
      · rw [he] at hd
        cases hd
    have hfile : t.obj file = some (.entry e) := by
      rw [hobj, Function.update_of_ne hpf, Function.update_of_ne hfe, he]
    have hlenle : bytes.length ≤ old.length := by
      have := congrArg List.length htake
      simp only [List.length_take] at this
      omega
    refine ⟨t.put file (.entry { e with dataPtr := p, capacity := newSize }),
      { e with dataPtr := p, capacity := newSize }, s.readBytes old newSize, ?_,
      ⟨hframe.trans (frame_put t file (.entry { e with dataPtr := p, capacity := newSize })),
        Or.inr hdead, hp, ?_⟩, rfl, by simp, by simp, by rw [length_readBytes]; omega, ?_⟩
    · simp only [growData, if_neg hcap, hre, if_neg hp, entryAt_of_obj hfile,
        Option.bind_eq_bind, Option.bind_some, Option.pure_def]
    · rw [obj_put (by simp [hfile]), hobj]
    · have hfront : (s.readBytes old newSize).take old.length = old :=
        take_readBytes s (by omega)
      calc (s.readBytes old newSize).take bytes.length
          = ((s.readBytes old newSize).take old.length).take bytes.length := by
            rw [List.take_take, Nat.min_eq_left hlenle]
        _ = bytes := by rw [hfront, htake]

/-- Copying the bytes of a write, when there is room for them. -/
theorem storeBytes_spec {s t : Fs} {file : Ptr} {e e' : TmpfsEntry} {data : List UInt8}
    {offset : Nat} {buffer : List UInt8} (newSize : Nat) (h : Rewrites s t file e e' data)
    (hfile : file ≠ e'.dataPtr) (hroom : offset + buffer.length ≤ data.length) :
    ∃ r e'', t.storeBytes file offset buffer newSize = some r ∧
      e'' = { e' with
        size := max newSize e'.size
        stat := kvfsStatUpdateSize e'.stat (max newSize e'.size) } ∧
      Rewrites s r file e e'' (splice data offset buffer) := by
  have hentry : t.obj file = some (.entry e') := by rw [h.obj, Function.update_self]
  have hdata : t.obj e'.dataPtr = some (.data data) := by
    rw [h.obj, Function.update_of_ne hfile.symm, Function.update_self]
  have hmid : (t.put e'.dataPtr (.data (splice data offset buffer))).obj =
      Function.update t.obj e'.dataPtr (some (.data (splice data offset buffer))) :=
    obj_put (by simp [hdata]) _
  refine ⟨(t.put e'.dataPtr (.data (splice data offset buffer))).put file (.entry { e' with
    size := max newSize e'.size
    stat := kvfsStatUpdateSize e'.stat (max newSize e'.size) }), _, ?_, rfl, h.trans
    ((frame_put t e'.dataPtr (.data (splice data offset buffer))).trans
      (frame_put (t.put e'.dataPtr (.data (splice data offset buffer))) file (.entry { e' with
        size := max newSize e'.size
        stat := kvfsStatUpdateSize e'.stat (max newSize e'.size) }))) rfl ?_⟩
  · simp only [storeBytes, entryAt_of_obj hentry, dataAt_of_obj hdata, Option.bind_eq_bind,
      Option.bind_some, Option.pure_def, if_neg (not_lt.2 hroom)]
  · rw [obj_put (by rw [hmid, Function.update_of_ne hfile, hentry]; exact Option.some_ne_none _),
      hmid]

/-! ## Writing and reading -/

/-- The operations on the data of a file leave its name, its kind and its place in the tree. -/
structure SameLinks (e e' : TmpfsEntry) : Prop where
  name : e'.name = e.name
  mode : e'.stat.mode = e.stat.mode
  nlink : e'.stat.nlink = e.stat.nlink
  parent : e'.parent = e.parent
  child : e'.child = e.child
  next : e'.next = e.next

theorem SameLinks.refl (e : TmpfsEntry) : SameLinks e e := ⟨rfl, rfl, rfl, rfl, rfl, rfl⟩

theorem SameLinks.trans {e e' e'' : TmpfsEntry} (h : SameLinks e e') (h' : SameLinks e' e'') :
    SameLinks e e'' :=
  ⟨h'.name.trans h.name, h'.mode.trans h.mode, h'.nlink.trans h.nlink, h'.parent.trans h.parent,
    h'.child.trans h.child, h'.next.trans h.next⟩

/-- The block of a file's data is not the file's entry. -/
theorem Rewrites.file_ne {s t : Fs} {file : Ptr} {e e' : TmpfsEntry} {data bytes : List UInt8}
    (h : Rewrites s t file e e' data) (he : s.obj file = some (.entry e))
    (hcon : Content s e bytes) : file ≠ e'.dataPtr := by
  intro hf
  rcases h.block with hb | hb
  · rcases hcon with ⟨hz, -⟩ | ⟨d, hd, -⟩
    · exact h.ne_zero (hb.trans hz)
    · rw [hf, hb, hd] at he
      cases he
  · rw [hf, hb] at he
    cases he

/-- A write that gets its room rewrites the file, wherever it begins. -/
theorem ktmpfsWrite_rewrites {s : Fs} {node file offset : Nat} {e : TmpfsEntry}
    {bytes buffer : List UInt8} (hnode : s.Refers node file)
    (he : s.obj file = some (.entry e)) (hreg : e.isReg = true) (hcon : Content s e bytes)
    (hlen : buffer.length ≠ 0) (hfit : offset + buffer.length < 2 ^ 32)
    (ha : e.capacity < offset + buffer.length → s.Allocates (offset + buffer.length)) :
    ∃ t e' data, s.ktmpfsWrite node offset buffer =
        some (buffer.length, offset + buffer.length, t) ∧
      Rewrites s t file e e' (splice data offset buffer) ∧
      e' = { e with
        dataPtr := e'.dataPtr
        capacity := data.length
        size := max (offset + buffer.length) e.size
        stat := kvfsStatUpdateSize e.stat (max (offset + buffer.length) e.size) } ∧
      file ≠ e'.dataPtr ∧ offset + buffer.length ≤ data.length ∧ bytes.length ≤ data.length ∧
      data.take bytes.length = bytes := by
  obtain ⟨n, hn, hops, rfl⟩ := hnode
  obtain ⟨t, e₁, data, hgrow, hrew, he₁, hroom, hcap, hle, htake⟩ :=
    growData_spec he hcon (by omega) ha
  have hfile := hrew.file_ne he hcon
  obtain ⟨r, e₂, hstore, he₂, hrew₂⟩ :=
    storeBytes_spec (offset + buffer.length) hrew hfile hroom
  have hchr : kvfsStatIsChr e.stat.mode = false := isChr_of_isReg hreg
  have hu : u32 (offset + buffer.length) = offset + buffer.length := u32_eq hfit
  refine ⟨r, e₂, data, ?_, hrew₂, ?_, by rw [he₂]; exact hfile, hroom, hle, htake⟩
  · simp only [ktmpfsWrite, Option.bind_eq_bind, Option.pure_def, nodeAt_of_obj hn,
      entryAt_of_obj he, Option.bind_some, hchr, hreg, hu, hgrow, hstore]
    simp [ne_zero_of_obj hn, ne_zero_of_obj he, hlen]
  · rw [he₂, he₁, hcap]

/-- **A write splices the array that the file holds.** -/
theorem ktmpfsWrite_spec {s : Fs} {node file offset : Nat} {e : TmpfsEntry}
    {bytes buffer : List UInt8} (hnode : s.Refers node file)
    (he : s.obj file = some (.entry e)) (hh : Holds s e bytes) (hoff : offset ≤ bytes.length)
    (hlen : buffer.length ≠ 0) (hfit : offset + buffer.length < 2 ^ 32)
    (ha : e.capacity < offset + buffer.length → s.Allocates (offset + buffer.length)) :
    ∃ t e' data, s.ktmpfsWrite node offset buffer =
        some (buffer.length, offset + buffer.length, t) ∧ Rewrites s t file e e' data ∧
      SameLinks e e' ∧ Holds t e' (splice bytes offset buffer) := by
  obtain ⟨r, e', data, hwrite, hrew, he', hfile, hroom, hle, htake⟩ :=
    ktmpfsWrite_rewrites hnode he hh.isReg hh.content hlen hfit ha
  have hlength : (splice bytes offset buffer).length = max (offset + buffer.length) bytes.length :=
    length_splice buffer hoff
  have hcap : e'.capacity = data.length := by rw [he']
  refine ⟨r, e', _, hwrite, hrew, ?_, ?_, ?_, ?_, ?_⟩
  · rw [he']
    constructor <;> simp
  · rw [he']
    simpa [TmpfsEntry.isReg] using hh.isReg
  · rw [he', hlength, hh.size]
  · rw [he', hlength, hh.size]
    simp
  · -- the first bytes of the new block are the spliced array
    right
    refine ⟨splice data offset buffer, ?_, ?_, ?_, ?_⟩
    · rw [hrew.obj, Function.update_of_ne hfile.symm, Function.update_self]
    · rw [length_splice buffer (by omega), hcap]
      omega
    · rw [hlength, length_splice buffer (by omega)]
      omega
    · rw [hlength, take_splice buffer hle hoff, htake]

/-- **A read takes a slice of the array that the file holds.** -/
theorem ktmpfsRead_spec {s : Fs} {node file offset len : Nat} {e : TmpfsEntry}
    {bytes : List UInt8} (hnode : s.Refers node file) (he : s.obj file = some (.entry e))
    (hh : Holds s e bytes) (hoff : offset ≤ bytes.length) (hlen : len ≠ 0) :
    s.ktmpfsRead node offset len =
      some ((bytes.drop offset).take len, u32 (offset + min len (bytes.length - offset)),
        s.put file (.entry { e with stat := kvfsStatUpdateAtime e.stat })) := by
  obtain ⟨n, hn, hops, rfl⟩ := hnode
  have hchr : kvfsStatIsChr e.stat.mode = false := isChr_of_isReg hh.isReg
  have hcount : (if e.size - offset > len then len else e.size - offset) =
      min len (bytes.length - offset) := by
    rw [hh.size]
    split_ifs <;> omega
  have hcopy : s.copyOut e.dataPtr offset (min len (bytes.length - offset)) =
      some ((bytes.drop offset).take len) := by
    have hslice : (bytes.drop offset).take len =
        (bytes.drop offset).take (min len (bytes.length - offset)) := by
      rw [← List.length_drop, List.take_eq_take_min]
    unfold copyOut
    split_ifs with h0
    · rw [hslice, h0, List.take_zero]
    · rcases hh.content with ⟨-, -, rfl⟩ | ⟨data, hdata, -, hle, htake⟩
      · simp at h0
      · have hdrop : (bytes.drop offset).take (min len (bytes.length - offset)) =
            (data.drop offset).take (min len (bytes.length - offset)) := by
          rw [← slice_take data (n := bytes.length) (by omega), htake]
        simp only [dataAt_of_obj hdata, Option.bind_eq_bind, Option.bind_some]
        rw [if_pos (by omega), hslice, hdrop]
  simp only [ktmpfsRead, Option.bind_eq_bind, Option.pure_def, nodeAt_of_obj hn,
    entryAt_of_obj he, Option.bind_some, hchr, hh.isReg, hcount, hcopy]
  simp [ne_zero_of_obj hn, ne_zero_of_obj he, hlen, hh.size, hoff]

end Fs

end DelOs
