import DelOs.Fs.Contents
import DelOs.Fs.Initrd
import DelOs.Fs.Mount

/-!
# Unpacking the boot archive

* `readEntry_entryBytes` — the kernel reads the entry that the tool has written.
* `Unpacking` — the file system between two steps of the unpacking: what it holds, and the node of
  its root.
* `lookupOrMake_found`, `lookupOrMake_made` — a name on the way.
* `ensureParts_spec` — **a list of names makes the directories that are missing**.
-/

namespace DelOs

open FirstFit Splice

/-! ## Entries -/

theorem length_nameBuffer (name : CString) : (nameBuffer name).length = KINITRD_NAME_MAX := by
  simp [nameBuffer, KINITRD_NAME_MAX]

@[simp] theorem length_entryBytes (name : CString) (size type : Nat) :
    (entryBytes name size type).length = sizeofInitrdEntry := by
  simp [entryBytes, length_nameBuffer, Fs.wordBytes, KINITRD_NAME_MAX, sizeofInitrdEntry]

/-- A word behind other bytes. -/
theorem nameWord_append {front : List UInt8} (back : List UInt8) {i : Nat}
    (hi : front.length = i) : Fs.nameWord (front ++ back) i = Fs.nameWord back 0 := by
  subst hi
  simp [Fs.nameWord, List.getElem?_append_right]

/-- A word is read as it was written. -/
theorem nameWord_wordBytes {n : Nat} (hn : n < 2 ^ 32) (rest : List UInt8) :
    Fs.nameWord (Fs.wordBytes n ++ rest) 0 = n := by
  simp [Fs.nameWord, Fs.wordBytes]
  omega

/-- The name in its buffer ends where it ended before. -/
theorem takeWhile_nameBuffer {name : CString} (hnul : (0 : UInt8) ∉ name)
    (hlen : name.length < KINITRD_NAME_MAX) (rest : List UInt8) :
    (nameBuffer name ++ rest).takeWhile (· ≠ 0) = name := by
  have hle : name.length ≤ KINITRD_NAME_MAX - 1 := Nat.le_sub_one_of_lt hlen
  obtain ⟨k, hk⟩ : ∃ k, KINITRD_NAME_MAX - name.length = k + 1 :=
    Nat.exists_eq_succ_of_ne_zero (Nat.sub_ne_zero_of_lt hlen)
  rw [nameBuffer, List.take_of_length_le hle, hk, List.replicate_succ, List.append_assoc,
    List.takeWhile_append_of_pos]
  · simp
  · intro c hc
    simpa using fun h0 : c = 0 => hnul (h0 ▸ hc)

/-- **The kernel reads the entry that the tool has written.** -/
theorem readEntry_entryBytes {name : CString} (hnul : (0 : UInt8) ∉ name)
    (hlen : name.length < KINITRD_NAME_MAX) {size type : Nat} (hsize : size < 2 ^ 32)
    (htype : type < 2 ^ 32) (rest : List UInt8) :
    readEntry (entryBytes name size type ++ rest) = ⟨name, size, type⟩ := by
  have hname : (entryBytes name size type ++ rest).takeWhile (· ≠ 0) = name := by
    rw [entryBytes, List.append_assoc, List.append_assoc]
    exact takeWhile_nameBuffer hnul hlen _
  have hsize' : Fs.nameWord (entryBytes name size type ++ rest) KINITRD_NAME_MAX = size := by
    rw [entryBytes, List.append_assoc, List.append_assoc,
      nameWord_append _ (length_nameBuffer name), nameWord_wordBytes hsize]
  have htype' : Fs.nameWord (entryBytes name size type ++ rest) (KINITRD_NAME_MAX + 4) = type := by
    have hfront : (nameBuffer name ++ Fs.wordBytes size).length = KINITRD_NAME_MAX + 4 := by
      simp [length_nameBuffer, Fs.wordBytes]
    rw [entryBytes, List.append_assoc, nameWord_append _ hfront, nameWord_wordBytes htype]
  rw [readEntry, hname, hsize', htype']

namespace Fs

variable {s r : Fs} {root : Ptr} {t : OrderedTree Ptr} {F : PathTree CString (List UInt8)}

/-! ## Between two steps -/

/-- `node` is an open node of the entry at the path. -/
def OpenAt (s : Fs) (t : OrderedTree Ptr) (path : List CString) (node : Ptr) : Prop :=
  ∃ x, s.obj node = some (.node (newNode x)) ∧ s.At t path x

/-- The file system between two steps: it holds the tree `F`, its root is open, and the page layers
do not refuse. -/
structure Unpacking (s : Fs) (root : Ptr) (t : OrderedTree Ptr)
    (F : PathTree CString (List UInt8)) : Prop where
  rep : Represents s t F
  open_root : s.OpenAt t [] root
  granted : s.Granted

/-- The nodes that are open stay open, and `q` is none of them. -/
def Beside (s r : Fs) (t t' : OrderedTree Ptr) (q : Ptr) : Prop :=
  ∀ p path, s.OpenAt t path p → p ≠ q ∧ r.OpenAt t' path p

theorem OpenAt.ne_zero {path : List CString} {node : Ptr} (h : s.OpenAt t path node) : node ≠ 0 := by
  obtain ⟨x, hx, -⟩ := h
  exact ne_zero_of_obj hx

/-- A node stays open while entries and nodes stay. -/
theorem OpenAt.congr {path : List CString} {node : Ptr} (h : s.OpenAt t path node)
    (hent : r.entries = s.entries) (hnode : r.obj node = s.obj node) : r.OpenAt t path node := by
  obtain ⟨x, hx, hat⟩ := h
  refine ⟨x, by rw [hnode, hx], ?_⟩
  unfold At
  rw [hent]
  exact hat

/-- **Closing a node other than the root** changes nothing but that node. -/
theorem Unpacking.close (h : Unpacking s root t F) {path : List CString} {q : Ptr}
    (hopen : s.OpenAt t path q) (hne : q ≠ root) :
    ∃ r, s.kvfsClose q = some r ∧ Unpacking r root t F ∧
      ∀ p path', p ≠ q → s.OpenAt t path' p → r.OpenAt t path' p := by
  obtain ⟨x, hx, -⟩ := hopen
  obtain ⟨r, hclose, hent, hpages, hother, -⟩ := kvfsClose_live hx
  have hstay : ∀ p path', p ≠ q → s.OpenAt t path' p → r.OpenAt t path' p :=
    fun p path' hp hp' => hp'.congr hent (hother p hp)
  refine ⟨r, hclose, ⟨h.rep.congr hent fun p bytes hp => ?_, hstay _ _ hne.symm h.open_root, ?_⟩,
    hstay⟩
  · rw [hother, hp]
    rintro rfl
    rw [hx] at hp
    cases hp
  · intro k
    rw [hpages]
    exact h.granted k

/-- The same, where the root is left alone. -/
theorem Unpacking.closeUnless (h : Unpacking s root t F) {path : List CString} {q : Ptr}
    (hopen : s.OpenAt t path q) :
    ∃ r, s.closeUnless root q = some r ∧ Unpacking r root t F ∧
      ∀ p path', p ≠ q → s.OpenAt t path' p → r.OpenAt t path' p := by
  by_cases hq : q = root
  · exact ⟨s, by simp [Fs.closeUnless, hq], h, fun p path' _ hp => hp⟩
  · obtain ⟨r, hclose, hr⟩ := h.close hopen hq
    exact ⟨r, by simp [Fs.closeUnless, hq, hclose], hr⟩

/-! ## One name -/

/-- **A lookup opens what is there.** -/
theorem Unpacking.lookup (h : Unpacking s root t F) {path : List CString} {node x : Ptr}
    (hnode : s.obj node = some (.node (newNode x))) (hat : s.At t path x) (name : CString) :
    (findIn s.entries t x name = 0 ∧ s.kvfsLookup node name = some (0, s)) ∨
      (findIn s.entries t x name ≠ 0 ∧ ∃ q r, s.kvfsLookup node name = some (q, r) ∧ q ≠ 0 ∧
        Unpacking r root t F ∧ r.entries = s.entries ∧
        r.obj q = some (.node (newNode (findIn s.entries t x name))) ∧ Beside s r t t q) := by
  obtain ⟨q, r, hlook, hfound⟩ :=
    kvfsLookup_spec h.rep.tree hnode ((h.rep.tree.mem x).1 hat.mem) name
  rcases hfound with ⟨hf, rfl, rfl⟩ | ⟨hf, halloc⟩
  · exact Or.inl ⟨hf, hlook⟩
  have hreach : Reached s r q (findIn s.entries t x name) :=
    Found.reached (Or.inr ⟨hf, halloc⟩)
  have hq : q ≠ 0 := by
    rcases halloc.made with ⟨-, -, hno⟩ | ⟨hq, -⟩
    · rw [h.granted 0] at hno
      cases hno
    · exact hq
  obtain ⟨hdead, hlive⟩ := hreach.node hq
  have hbeside : Beside s r t t q := by
    intro p path' hp
    have hstay := hp
    obtain ⟨y, hy, -⟩ := hp
    refine ⟨?_, hstay.congr hreach.entries ?_⟩
    · rintro rfl
      rw [hdead] at hy
      cases hy
    · rw [hreach.keeps.other _ _ hy (by simp), hy]
  refine Or.inr ⟨hf, q, r, hlook, hq, ⟨h.rep.congr hreach.entries fun p bytes hp => ?_,
    (hbeside _ _ h.open_root).2, hreach.frame.granted h.granted⟩, hreach.entries, hlive, hbeside⟩
  exact hreach.keeps.other _ _ hp (by simp)

/-- A name that is there is opened. -/
theorem Unpacking.lookupOrMake_found (h : Unpacking s root t F) {path : List CString} {node : Ptr}
    (hopen : s.OpenAt t path node) {name : CString} (hthere : F (path ++ [name]) ≠ none)
    (make : Fs → Ptr → CString → Option (Bool × Fs)) :
    ∃ q r, lookupOrMake make s node name = some (q, r) ∧ q ≠ 0 ∧ Unpacking r root t F ∧
      r.OpenAt t (path ++ [name]) q ∧ Beside s r t t q := by
  obtain ⟨x, hx, hat⟩ := hopen
  obtain ⟨y, hy⟩ := h.rep.found _ hthere
  obtain ⟨p, hp, hkid, hname⟩ := OrderedTree.pathTo_snoc.1 hy
  obtain rfl := h.rep.at_unique hat hp
  have hfind : findIn s.entries t x name = y := by
    rw [← hname]
    exact h.rep.named.findIn_kid h.rep.tree hkid
  have hy0 : y ≠ 0 := by
    obtain ⟨e, he⟩ := (h.rep.tree.mem y).1 hy.mem
    exact ne_zero_of_obj (entries_eq_some.1 he)
  rcases h.lookup hx hat name with
    ⟨h0, -⟩ | ⟨-, q, r, hlook, hq, hr, hent, hnode, hbeside⟩
  · exact absurd (hfind.symm.trans h0) hy0
  · rw [hfind] at hnode
    refine ⟨q, r, by simp [lookupOrMake, ne_zero_of_obj hx, hlook, hq], hq, hr, ⟨y, hnode, ?_⟩,
      hbeside⟩
    unfold At
    rw [hent]
    exact hy

/-- **A name that is not there is made**, and opened: `n` is what the new entry is. -/
theorem Unpacking.lookupOrMake_made (h : Unpacking s root t F) {path : List CString} {node : Ptr}
    (hopen : s.OpenAt t path node) (hdir : F path = some .dir) {name : CString}
    (hname : Proper name) (hnone : F (path ++ [name]) = none)
    (make : Fs → Ptr → CString → Option (Bool × Fs)) (mode : Nat) (n : PathNode (List UInt8))
    (hmode : kvfsStatIsDir mode = true ∨ kvfsStatIsReg mode = true)
    (hmake : ∀ d e, s.obj node = some (.node (newNode d)) → s.entries d = some e →
      e.isDir = true → ∃ x r, make s node name = some (decide (x ≠ 0), r) ∧
        Made s r x (insertEntry s.entries d x e name mode))
    (hn : ∀ (r : Fs) x next parent, r.entries x = some (newEntry name next parent mode) →
      r.IsNode x n) :
    ∃ q r t' x next parent, lookupOrMake make s node name = some (q, r) ∧ q ≠ 0 ∧
      Unpacking r root t' (Function.update F (path ++ [name]) (some n)) ∧
      r.obj q = some (.node (newNode x)) ∧ r.At t' (path ++ [name]) x ∧
      r.entries x = some (newEntry name next parent mode) ∧ Beside s r t t' q := by
  obtain ⟨d, hd, hat⟩ := hopen
  obtain ⟨e, he, hedir⟩ := h.rep.isDir hat hdir
  have hfree : findIn s.entries t d name = 0 := by
    by_contra hne
    obtain ⟨hkid, heq⟩ := findIn_proper hname hne
    obtain ⟨n', hn', -⟩ := h.rep.node _ _ (OrderedTree.pathTo_snoc.2 ⟨d, hat, hkid, heq⟩)
    rw [hnone] at hn'
    cases hn'
  have hlook : s.kvfsLookup node name = some (0, s) := by
    rcases h.lookup hd hat name with ⟨-, hlook⟩ | ⟨hne, -⟩
    · exact hlook
    · exact absurd hfree hne
  obtain ⟨x, r₁, hmk, hmade⟩ := hmake d e hd he hedir
  obtain ⟨hx0, hdead, hent⟩ : x ≠ 0 ∧ s.obj x = none ∧
      r₁.entries = insertEntry s.entries d x e name mode := by
    rcases hmade.made with ⟨-, -, hno⟩ | hmade
    · rw [h.granted 0] at hno
      cases hno
    · exact hmade
  have hxnone : s.entries x = none := by simp [entries, hdead]
  have hxd : x ≠ d := by
    rintro rfl
    rw [hxnone] at he
    cases he
  have hxent : r₁.entries x = some (newEntry name e.child d mode) := by
    rw [hent, insertEntry_new hxd.symm]
  obtain ⟨t', hrep, hatx, hstay, hfind⟩ := h.rep.make hat he hedir hxnone hx0 hname hmode hfree
    hmade.keeps hent (hn r₁ x _ _ hxent)
  have hopens : ∀ p path', s.OpenAt t path' p → r₁.OpenAt t' path' p := by
    rintro p path' ⟨y, hy, hat'⟩
    exact ⟨y, hmade.keeps.other _ _ hy (by simp), hstay _ _ hat'⟩
  have h₁ : Unpacking r₁ root t' (Function.update F (path ++ [name]) (some n)) :=
    ⟨hrep, hopens _ _ h.open_root, hmade.keeps.frame.granted h.granted⟩
  have hd₁ : r₁.obj node = some (.node (newNode d)) := hmade.keeps.other _ _ hd (by simp)
  rcases h₁.lookup hd₁ (hstay _ _ hat) name with
    ⟨h0, -⟩ | ⟨-, q, r, hlook', hq, hr, hent', hnode, hbeside⟩
  · exact absurd (hfind.symm.trans h0) hx0
  · rw [hfind] at hnode
    refine ⟨q, r, t', x, e.child, d, ?_, hq, hr, hnode, ?_, by rw [hent', hxent],
      fun p path' hp => hbeside p path' (hopens p path' hp)⟩
    · simp [lookupOrMake, ne_zero_of_obj hd, hlook, hmk, hx0, hlook']
    · unfold At
      rw [hent']
      exact hatx

/-! ## Directories -/

/-- What is on the way is there afterwards, and open. -/
theorem Unpacking.getOrCreateDirectory (h : Unpacking s root t F) {path : List CString} {node : Ptr}
    (hopen : s.OpenAt t path node) (hdir : F path = some .dir) {name : CString}
    (hname : Proper name) :
    ∃ q r t', s.kinitrdGetOrCreateDirectory node name = some (q, r) ∧ q ≠ 0 ∧
      Unpacking r root t' (F.mkdirs (path ++ [name])) ∧ r.OpenAt t' (path ++ [name]) q ∧
      Beside s r t t' q := by
  have hmode : kvfsStatIsDir (mkdirMode 0o755) = true := isDir_mask_or _
  by_cases hnone : F (path ++ [name]) = none
  · obtain ⟨q, r, t', x, next, parent, hmake, hq, hr, hx, hat, -, hbeside⟩ :=
      h.lookupOrMake_made hopen hdir hname hnone
        (fun s parent name => s.kvfsMkdir parent name 0o755) (mkdirMode 0o755) .dir (Or.inl hmode)
        (fun d e hd he hedir => kvfsMkdir_spec hd he hedir name 0o755)
        fun r x next parent hent =>
          ⟨_, hent, by simpa [TmpfsEntry.isDir, newEntry] using hmode⟩
    rw [PathTree.mkdirs_snoc h.rep.closed (by simp [hdir]) hnone]
    exact ⟨q, r, t', hmake, hq, hr, ⟨x, hx, hat⟩, hbeside⟩
  · obtain ⟨q, r, hfound, hq, hr, hat, hbeside⟩ := h.lookupOrMake_found hopen hnone
      fun s parent name => s.kvfsMkdir parent name 0o755
    rw [PathTree.mkdirs_of_some h.rep.closed hnone]
    exact ⟨q, r, t, hfound, hq, hr, hat, hbeside⟩

/-- **A list of names makes the directories that are missing**, and leaves the last of them open,
which is the node that it starts from if there are no names. -/
theorem ensureParts_spec {parts : List CString} (h : Unpacking s root t F) {path : List CString}
    {current : Ptr} (hopen : s.OpenAt t path current) (hdir : F path = some .dir)
    (hproper : ∀ name ∈ parts, Proper name)
    (hfile : ∀ p bytes, p <+: path ++ parts → F p ≠ some (.file bytes)) :
    ∃ q r t', ensureParts root s current parts = some (q, r) ∧
      Unpacking r root t' (F.mkdirs (path ++ parts)) ∧ r.OpenAt t' (path ++ parts) q := by
  induction parts generalizing s t F path current with
  | nil =>
    rw [List.append_nil, PathTree.mkdirs_of_some h.rep.closed (by simp [hdir])]
    exact ⟨current, s, t, rfl, h, hopen⟩
  | cons name parts ih =>
    have hsplit : path ++ name :: parts = (path ++ [name]) ++ parts := by simp
    have hpre : path ++ [name] <+: path ++ name :: parts := hsplit ▸ List.prefix_append _ _
    obtain ⟨q, r, t', hget, hq, hr, hopen', hbeside⟩ := h.getOrCreateDirectory hopen hdir
      (hproper name List.mem_cons_self)
    obtain ⟨hne, hcur⟩ := hbeside _ _ hopen
    obtain ⟨r', hclose, hr', hstay⟩ := hr.closeUnless hcur
    obtain ⟨q', r'', t'', hrest, hr'', hopen''⟩ := ih hr' (hstay q _ hne.symm hopen')
      (PathTree.mkdirs_self fun bytes => hfile _ bytes hpre)
      (fun name' hname' => hproper name' (List.mem_cons_of_mem name hname'))
      fun p bytes hp heq => hfile p bytes (hsplit ▸ hp) (PathTree.mkdirs_eq_file.1 heq)
    rw [PathTree.mkdirs_mkdirs (List.prefix_append _ _), ← hsplit] at hr''
    rw [← hsplit] at hopen''
    exact ⟨q', r'', t'', by simp [ensureParts, hget, hclose, hq, hrest], hr'', hopen''⟩

end Fs

end DelOs
