import DelOs.Fs.PlainNames
import DelOs.Fs.SpareNodes
import DelOs.Fs.SplitBuffer
import DelOs.Fs.TreeShape
import DelOs.Shell.Arguments

/-!
# The working directory by name

`kshell_pwd` of `src/kernel/shell/commands/fs/pwd.c` climbs from the working directory to the root,
and puts the name of each directory in front of those below it, in a buffer of fixed size.

* `Fs.kshellPwd` — the function, with its buffer.
* `padded`, `pushName_padded` — **a name is put in front of a path** if the buffer has room for it.
* `Fs.pwdLoop_spec`, `Fs.kshellPwd_spec` — **the buffer gets the path of the working directory**, or
  a store runs over its end; and nothing is left of the nodes on the way.
* `walkTree_plain` — what a path of so many names without slashes leads to.
* `Fs.pwd_names_cwd` — **the path leads back to the working directory** just if the tree is not
  deeper than the resolver walks and no name on the way has a slash.
-/

namespace DelOs

open FirstFit LinkedList Splice Transition
open Shell (Buffer kmemmove copyDown line)

/-! ## The function -/

/-- `char buffer[KVFS_MAX_PATH_PARTS * KVFS_MAX_NAME_LEN]`. -/
def pwdBufferSize : Nat := KVFS_MAX_PATH_PARTS * KVFS_MAX_NAME_LEN

/-- Store some bytes from `buffer + offset` on. -/
def storeAt (buffer : Buffer) (offset : Nat) (bytes : List UInt8) : Option Buffer :=
  if offset + bytes.length ≤ buffer.length then some (splice buffer offset bytes) else none

/-- Make room in front of the path in the buffer, its terminator included, and put a slash and a
name there. -/
def pushName (buffer : Buffer) (bufLen : Nat) (name : CString) : Option Buffer := do
  let buffer ← kmemmove buffer (name.length + 1) 0 (bufLen + 1)
  let buffer ← storeAt buffer 0 [slash]
  storeAt buffer 1 name

namespace Fs

/-- The loop of `kshell_pwd`: whether it is left at the root, and the buffer. -/
def pwdLoop : Nat → Fs → Ptr → Buffer → Nat → Option (Bool × Buffer × Fs)
  | 0, _, _, _, _ => none
  | fuel + 1, s, node, buffer, bufLen =>
    if node = 0 then some (true, buffer, s)
    else do
      let (parent, s) ← s.kvfsLookup node dotDotName
      if parent = 0 then return (false, buffer, ← s.kvfsClose node)
      let n ← s.nodeAt node
      let p ← s.nodeAt parent
      if p.priv = n.priv then
        let s ← s.kvfsClose parent
        return (true, buffer, ← s.kvfsClose node)
      let entry ← s.entryAt n.priv
      let buffer ← pushName buffer bufLen entry.name
      let s ← s.kvfsClose node
      pwdLoop fuel s parent buffer (bufLen + (entry.name.length + 1))

/-- `kshell_pwd`: what it returns, 0 if the path is in the buffer, and the buffer.  The loop comes to
the root after as many rounds as there are blocks at most. -/
def kshellPwd (s : Fs) : Option (Nat × Buffer × Fs) := do
  let buffer := List.replicate pwdBufferSize 0
  let (node, r) ← s.kvfsLookup s.kvfsCwd dotName
  if node = 0 then return (1, buffer, r)
  let (arrived, buffer, r) ← r.pwdLoop (s.heap.length + 1) node buffer 0
  if arrived = false then return (1, buffer, r)
  if buffer.headD 0 = 0 then
    let buffer ← storeAt buffer 0 [slash]
    return (0, ← storeAt buffer 1 [0], r)
  return (0, buffer, r)

end Fs

/-! ## The buffer -/

/-- The buffer with a path in it, and nothing behind it. -/
def padded (path : CString) : Buffer := path ++ List.replicate (pwdBufferSize - path.length) 0

theorem length_padded {path : CString} (h : path.length ≤ pwdBufferSize) :
    (padded path).length = pwdBufferSize := by
  rw [padded, List.length_append, List.length_replicate]
  omega

/-- Copying downwards to a place that is not in front moves the bytes. -/
theorem copyDown_getElem? (n : Nat) {d s : Nat} {buffer : Buffer} (hds : s ≤ d)
    (hlen : d + n ≤ buffer.length) :
    ∃ moved, copyDown n d s buffer = some moved ∧ moved.length = buffer.length ∧
      ∀ i, moved[i]? = if d ≤ i ∧ i < d + n then buffer[i - d + s]? else buffer[i]? := by
  induction n generalizing buffer with
  | zero => exact ⟨buffer, rfl, rfl, fun i => by rw [if_neg (by omega)]⟩
  | succ n ih =>
    have hs : s + n < buffer.length := by omega
    have hd : d + n < buffer.length := by omega
    obtain ⟨moved, heq, hlength, hmoved⟩ := @ih (buffer.set (d + n) buffer[s + n])
      (by rw [List.length_set]; omega)
    refine ⟨moved, ?_, by rw [hlength, List.length_set], fun i => ?_⟩
    · rw [copyDown, List.getElem?_eq_getElem hs]
      exact (if_pos hd).trans heq
    · rw [hmoved i]
      rcases lt_trichotomy i (d + n) with hi | rfl | hi
      · by_cases hdi : d ≤ i
        · rw [if_pos (by omega), if_pos (by omega), List.getElem?_set_ne (by omega)]
        · rw [if_neg (by omega), if_neg (by omega), List.getElem?_set_ne (by omega)]
      · rw [if_neg (by omega), if_pos (by omega), List.getElem?_set_self hd,
          List.getElem?_eq_getElem (by omega)]
        congr 2
        omega
      · rw [if_neg (by omega), if_neg (by omega), List.getElem?_set_ne (by omega)]

/-- A copy that runs over the end of the buffer begins with a store behind it. -/
theorem copyDown_none {n d s : Nat} {buffer : Buffer} (hn : 0 < n) (h : buffer.length < d + n) :
    copyDown n d s buffer = none := by
  obtain ⟨n, rfl⟩ : ∃ k, n = k + 1 := ⟨n - 1, by omega⟩
  rw [copyDown]
  split
  · rfl
  · exact if_neg (by omega)

theorem getElem?_padded {path : CString} (i : Nat) :
    (padded path)[i]? =
      if i < path.length then path[i]? else if i < pwdBufferSize then some 0 else none := by
  unfold padded
  split_ifs with hpath hsize
  · rw [List.getElem?_append_left hpath]
  · rw [List.getElem?_append_right (by omega), List.getElem?_replicate, if_pos (by omega)]
  · rw [List.getElem?_append_right (by omega), List.getElem?_replicate, if_neg (by omega)]

/-- **A name is put in front of the path in the buffer**, if there is room for both. -/
theorem pushName_padded {path name : CString}
    (h : name.length + 1 + path.length + 1 ≤ pwdBufferSize) :
    pushName (padded path) path.length name = some (padded (slash :: (name ++ path))) := by
  have hpath : path.length ≤ pwdBufferSize := by omega
  have hsize := length_padded hpath
  obtain ⟨moved, heq, hlength, hmoved⟩ := @copyDown_getElem? (path.length + 1) (name.length + 1) 0
    (padded path) (Nat.zero_le _) (by omega)
  have hmove : kmemmove (padded path) (name.length + 1) 0 (path.length + 1) = some moved := by
    rw [kmemmove, if_pos (Nat.succ_pos _), heq]
  have hone : storeAt moved 0 [slash] = some (splice moved 0 [slash]) :=
    if_pos (by simp only [List.length_cons, List.length_nil]; omega)
  have hlength' : (splice moved 0 [slash]).length = pwdBufferSize := by
    rw [length_splice _ (Nat.zero_le _)]
    simp only [List.length_cons, List.length_nil]
    omega
  have htwo : storeAt (splice moved 0 [slash]) 1 name =
      some (splice (splice moved 0 [slash]) 1 name) := if_pos (by omega)
  simp only [pushName, hmove, hone, htwo, Option.bind_eq_bind, Option.bind_some, Option.some.injEq]
  apply List.ext_getElem?
  intro i
  rw [getElem?_splice _ (by omega), getElem?_splice _ (Nat.zero_le _), hmoved, getElem?_padded,
    getElem?_padded, getElem?_padded]
  simp only [List.length_cons, List.length_append, List.length_nil]
  rcases i with _ | i
  · simp
  rw [List.getElem?_cons_succ]
  by_cases hname : i < name.length
  · rw [if_pos (by omega), if_pos (by omega), List.getElem?_append_left hname, Nat.add_sub_cancel]
  · rw [if_neg (by omega), if_neg (by omega)]
    rw [List.getElem?_append_right (by omega)]
    by_cases hpath : i < name.length + path.length
    · rw [if_pos (by omega), if_pos (by omega), if_pos (by omega)]
      congr 1
      omega
    · by_cases hend : i = name.length + path.length
      · rw [if_pos (by omega), if_neg (by omega), if_pos (by omega), if_neg (by omega),
          if_pos (by omega)]
      · rw [if_neg (by omega), if_neg (by omega),
          if_neg (show ¬i + 1 < name.length + path.length + 1 by omega)]

/-- Without room for the name and the path a store runs over the end of the buffer. -/
theorem pushName_none {path name : CString} (hpath : path.length < pwdBufferSize)
    (h : pwdBufferSize < name.length + 1 + path.length + 1) :
    pushName (padded path) path.length name = none := by
  have hsize := length_padded hpath.le
  have hmove : kmemmove (padded path) (name.length + 1) 0 (path.length + 1) = none := by
    rw [kmemmove, if_pos (Nat.succ_pos _)]
    exact copyDown_none (Nat.succ_pos _) (by omega)
  simp only [pushName, hmove, Option.bind_eq_bind, Option.bind_none]

/-- The names on the way down, each behind a slash. -/
def upPath (names : List CString) : CString := names.flatMap fun name => slash :: name

theorem upPath_snoc (names : List CString) (name path : CString) :
    upPath (names ++ [name]) ++ path = upPath names ++ slash :: (name ++ path) := by
  simp [upPath]

namespace Fs

variable {s r r₁ r₂ : Fs} {t : OrderedTree Ptr} {f cur p : Ptr}

/-! ## The climb -/

/-- A climb leaves the records as they were, and the blocks of two nodes spare. -/
structure Climbed (s r : Fs) : Prop where
  frame : Frame s r
  obj : r.obj = s.obj
  spares : TwoSpares r

/-- At the root the climb ends: the parent of the root is the root. -/
theorem pwdLoop_root (ht : TreeStored s.entries t) (hroot : s.obj s.kvfsRootMountDir ≠ none)
    (h : Reached s r cur t.root) (hcur : cur ≠ 0) (hlasts : Lasts r cur) (fuel : Nat)
    (buffer : Buffer) (bufLen : Nat) :
    ∃ r', r.pwdLoop (fuel + 1) cur buffer bufLen = some (true, buffer, r') ∧ Climbed s r' := by
  obtain ⟨-, hlive⟩ := h.node hcur
  obtain ⟨e, he⟩ := (ht.mem _).1 t.root_mem
  have hnr := h.ne_root hcur hroot
  have hup : findIn s.entries t t.root dotDotName = t.root := by
    have hne : dotDotName ≠ dotName := by decide
    simp [findIn, he, ht.root_isDir e he, hne]
  have hroot0 : t.root ≠ 0 := ne_zero_of_obj (entries_eq_some.1 he)
  have hm : r.Includes s.entries := fun x e hx => by rw [h.entries, hx]
  rcases hmade : r.ktmpfsCreateVfsNode t.root with ⟨p, r₁⟩
  have hlook : r.kvfsLookup cur dotDotName = some (p, r₁) := by
    rw [kvfsLookup_eq ht hm hlive ⟨e, he⟩, hup, hmade]
  have hnext := hlasts.made (by simp [hlive]) hroot0 hmade
  -- the two nodes, both of the root
  have hp : r₁.obj p = some (.node (newNode t.root)) := by rw [hnext.obj, Function.update_self]
  have hcur₁ : r₁.obj cur = some (.node (newNode t.root)) := by
    rw [hnext.obj, Function.update_of_ne hnext.ne.symm, hlive]
  have hpr : p ≠ r₁.kvfsRootMountDir := by
    rw [hnext.frame.root, h.frame.root]
    rintro rfl
    exact hroot (by rw [← h.back hcur, Function.update_of_ne hnext.ne, hnext.dead])
  -- closing them leaves what was there before the climb
  obtain ⟨r₂, hclose₁, hframe₁, -, hobj₁⟩ := kvfsClose_spec hp hpr
  have hback : r₂.obj = r.obj := by
    rw [hobj₁, hnext.obj, Function.update_idem, ← hnext.dead, Function.update_eq_self]
  have hcur₂ : r₂.obj cur = some (.node (newNode t.root)) := by rw [hback, hlive]
  have hcr : cur ≠ r₂.kvfsRootMountDir := by
    rw [hframe₁.root, hnext.frame.root]
    exact hnr
  obtain ⟨r₃, hclose₂, hframe₂, -, hobj₂⟩ := kvfsClose_spec hcur₂ hcr
  obtain ⟨hspare₁, hrest₁⟩ := kvfsClose_blocks hp hpr hclose₁
  obtain ⟨hspare₂, hrest₂⟩ := kvfsClose_blocks hcur₂ hcr hclose₂
  refine ⟨r₃, ?_, h.frame.trans (hnext.frame.trans (hframe₁.trans hframe₂)), ?_, p, cur, hnext.ne,
    ?_, hspare₂ ?_⟩
  · simp [pwdLoop, hcur, hlook, hnext.ne_zero, nodeAt_of_obj hcur₁, nodeAt_of_obj hp, hclose₁,
      hclose₂]
  · rw [hobj₂, hback, h.back hcur]
  · obtain ⟨b, hb, hfree, hsize⟩ := hspare₁ hnext.roomy
    exact ⟨b, (hrest₂ p hnext.ne).trans hb, hfree, hsize⟩
  · obtain ⟨b, hb, hsize⟩ := hnext.stays
    exact ⟨b, (hrest₁ cur hnext.ne.symm).trans hb, hsize⟩

/-- A round of the climb, below the root. -/
theorem pwdLoop_round (ht : TreeStored s.entries t) (hroot : s.obj s.kvfsRootMountDir ≠ none)
    {e : TmpfsEntry} (he : s.entries f = some e) (hdir : e.isDir = true) (hf : f ∈ t.kids p)
    (h : Reached s r cur f) (hcur : cur ≠ 0) (hlasts : Lasts r cur) (fuel : Nat)
    (buffer : Buffer) (bufLen : Nat) :
    ∃ q r₂, Reached s r₂ q p ∧ q ≠ 0 ∧ Lasts r₂ q ∧
      r.pwdLoop (fuel + 1) cur buffer bufLen = (pushName buffer bufLen e.name).bind fun buffer =>
        r₂.pwdLoop fuel q buffer (bufLen + (e.name.length + 1)) := by
  obtain ⟨-, hlive⟩ := h.node hcur
  obtain ⟨hpm, -, hparent, hne⟩ := t.kid_mem hf
  have hnr := h.ne_root hcur hroot
  have hup : findIn s.entries t f dotDotName = p := by
    have hdots : dotDotName ≠ dotName := by decide
    simp [findIn, he, hdir, hdots, hne, hparent]
  obtain ⟨ep, hep⟩ := (ht.mem p).1 hpm
  have hp0 : p ≠ 0 := ne_zero_of_obj (entries_eq_some.1 hep)
  have hpf : p ≠ f := by
    rintro rfl
    exact t.not_mem_kids_self p hf
  have hm : r.Includes s.entries := fun x e hx => by rw [h.entries, hx]
  obtain ⟨q, r₁, r₂, hlook, hclose, hreach⟩ :=
    h.step ht s.includes_entries hroot hcur ⟨e, he⟩ dotDotName
  rw [hup] at hreach
  have hmade : r.ktmpfsCreateVfsNode p = (q, r₁) := by
    rw [kvfsLookup_eq ht hm hlive ⟨e, he⟩, hup] at hlook
    exact Option.some.inj hlook
  have hnext := hlasts.made (by simp [hlive]) hp0 hmade
  have hq : r₁.obj q = some (.node (newNode p)) := by rw [hnext.obj, Function.update_self]
  have hcur₁ : r₁.obj cur = some (.node (newNode f)) := by
    rw [hnext.obj, Function.update_of_ne hnext.ne.symm, hlive]
  have hent : r₁.entryAt f = some e := by
    have hkeeps := entries_update hnext.obj (by simp [hnext.dead]) (by simp)
    exact entryAt_of_obj (entries_eq_some.1 (by rw [hkeeps, h.entries, he]))
  refine ⟨q, r₂, hreach, hnext.ne_zero, hnext.step hlive hnr hclose, ?_⟩
  have hpriv : ∀ x, (newNode x).priv = x := fun _ => rfl
  simp only [pwdLoop, if_neg hcur, hlook, if_neg hnext.ne_zero, nodeAt_of_obj hcur₁,
    nodeAt_of_obj hq, hpriv, if_neg hpf, hent, hclose, Option.bind_eq_bind, Option.bind_some]

/-- **The climb puts the names on the way in front of the path in the buffer**, or runs over the
end of the buffer. -/
theorem pwdLoop_spec (ht : TreeStored s.entries t) (hroot : s.obj s.kvfsRootMountDir ≠ none)
    {names : List CString} (hat : s.At t names f) {e : TmpfsEntry} (he : s.entries f = some e)
    (hdir : e.isDir = true) (h : Reached s r cur f) (hcur : cur ≠ 0) (hlasts : Lasts r cur)
    {fuel : Nat} (hfuel : names.length < fuel) {path : CString}
    (hpath : path.length < pwdBufferSize) :
    ((upPath names ++ path).length < pwdBufferSize →
      ∃ r', r.pwdLoop fuel cur (padded path) path.length =
        some (true, padded (upPath names ++ path), r') ∧ Climbed s r') ∧
    (pwdBufferSize ≤ (upPath names ++ path).length →
      r.pwdLoop fuel cur (padded path) path.length = none) := by
  -- on the way from the root: the climb goes it backwards
  induction hat generalizing r cur fuel path e with
  | root =>
    obtain ⟨fuel, rfl⟩ : ∃ k, fuel = k + 1 := ⟨fuel - 1, by omega⟩
    refine ⟨fun _ => ?_, fun hlong => absurd hpath (not_lt.2 (by simpa [upPath] using hlong))⟩
    simpa [upPath] using pwdLoop_root ht hroot h hcur hlasts fuel (padded path) path.length
  | @kid above names p f _ hf hnames ih =>
    subst hnames
    obtain ⟨fuel, rfl⟩ : ∃ k, fuel = k + 1 := ⟨fuel - 1, by omega⟩
    obtain ⟨ep, hep⟩ := (ht.mem p).1 (t.kid_mem hf).1
    obtain ⟨q, r₂, hreach, hq, hlasts', hround⟩ :=
      pwdLoop_round ht hroot he hdir hf h hcur hlasts fuel (padded path) path.length
    have hname : nameOf s.entries f = e.name := by simp [nameOf, he]
    rw [hround, upPath_snoc, hname]
    have hlen : (slash :: (e.name ++ path)).length = path.length + (e.name.length + 1) := by
      simp only [List.length_cons, List.length_append]
      omega
    have hfuel' : above.length < fuel := by
      rw [List.length_append, List.length_cons] at hfuel
      omega
    by_cases hroom : e.name.length + 1 + path.length + 1 ≤ pwdBufferSize
    · rw [pushName_padded hroom, Option.bind_some, ← hlen]
      exact ih hep (ht.isDir_of_kid hep hf) hreach hq hlasts' hfuel' (by omega)
    · rw [pushName_none hpath (by omega), Option.bind_none]
      refine ⟨fun hshort => ?_, fun _ => rfl⟩
      rw [List.length_append, hlen] at hshort
      omega

/-- The parent of an entry, as the entry has it. -/
def parentOf (m : Entries) (q : Ptr) : Option Ptr := (m q).map TmpfsEntry.parent

/-- The way from an entry up to the root is a list of entries, linked by their parents. -/
theorem At.isList (ht : TreeStored s.entries t) {names : List CString} (h : s.At t names f) :
    ∃ l, IsList (parentOf s.entries) f l ∧ l.length = names.length + 1 ∧
      ∀ q ∈ l, ∃ e, s.entries q = some e := by
  induction h with
  | root =>
    obtain ⟨e, he⟩ := (ht.mem _).1 t.root_mem
    have hparent := ht.parent _ e he
    rw [if_pos rfl] at hparent
    refine ⟨[t.root], ⟨rfl, ne_zero_of_obj (entries_eq_some.1 he), 0, ?_, rfl⟩, rfl, ?_⟩
    · simp [parentOf, he, hparent]
    · intro q hq
      rw [List.mem_singleton.1 hq]
      exact ⟨e, he⟩
  | @kid above names p q _ hq hnames ih =>
    obtain ⟨l, hlist, hlen, hl⟩ := ih
    obtain ⟨-, hqm, hparent, hne⟩ := t.kid_mem hq
    obtain ⟨e, he⟩ := (ht.mem q).1 hqm
    have hup := ht.parent q e he
    rw [if_neg hne, hparent] at hup
    refine ⟨q :: l, ⟨rfl, ne_zero_of_obj (entries_eq_some.1 he), p, ?_, hlist⟩, ?_, ?_⟩
    · simp [parentOf, he, hup]
    · rw [List.length_cons, hlen, hnames]
      simp
    · intro x hx
      rcases List.mem_cons.1 hx with rfl | hx
      · exact ⟨e, he⟩
      · exact hl x hx

/-- The tree is not as deep as the heap has blocks. -/
theorem At.length_lt (ht : TreeStored s.entries t) {names : List CString} (h : s.At t names f) :
    names.length < s.heap.length + 1 := by
  obtain ⟨l, hlist, hlen, hl⟩ := h.isList ht
  have hle : l.length ≤ s.heap.length := hlist.length_le fun q hq => by
    obtain ⟨e, he⟩ := hl q hq
    by_contra hlt
    rw [entries_of_length_lt (by omega)] at he
    cases he
  omega

/-! ## The command -/

/-- The working directory is the directory of the tree that the names lead to. -/
structure CwdAt (s : Fs) (t : OrderedTree Ptr) (names : List CString) (x : Ptr) : Prop where
  node : s.obj s.kvfsCwd = some (.node (newNode x))
  place : s.At t names x
  isDir : ∃ e, s.entries x = some e ∧ e.isDir = true

/-- The first lookup of the command is one of the working directory itself. -/
theorem CwdAt.lookup (hs : Stands s t) {names : List CString} {x : Ptr} (hx : CwdAt s t names x) :
    x ≠ 0 ∧ ∃ q r, s.ktmpfsCreateVfsNode x = (q, r) ∧
      s.kvfsLookup s.kvfsCwd dotName = some (q, r) ∧ Reached s r q x := by
  obtain ⟨e, he, hdir⟩ := hx.isDir
  have hself : findIn s.entries t x dotName = x := by simp [findIn, he, hdir]
  obtain ⟨q, r, hlook, hfound⟩ := kvfsLookup_spec hs.tree hx.node ⟨e, he⟩ dotName
  rw [hself] at hfound
  refine ⟨ne_zero_of_obj (entries_eq_some.1 he), q, r, ?_, hlook, hfound.reached⟩
  rw [kvfsLookup_eq hs.tree s.includes_entries hx.node ⟨e, he⟩, hself] at hlook
  exact Option.some.inj hlook

/-- A directory has a parent, which is the root for the root. -/
theorem findIn_dotDot_ne_zero (ht : TreeStored s.entries t) {e : TmpfsEntry}
    (he : s.entries f = some e) (hdir : e.isDir = true) :
    findIn s.entries t f dotDotName ≠ 0 := by
  intro h0
  exact (findIn_eq_zero ht he hdir h0).2.1 rfl

/-- Where there is no memory for two nodes the command fails before it has stored anything. -/
theorem kshellPwd_refused (hs : Stands s t) {names : List CString} {x : Ptr}
    (hx : CwdAt s t names x) (h : ¬TwoNodes s) :
    ∃ r, s.kshellPwd = some (1, padded [], r) := by
  obtain ⟨e, he, hdir⟩ := hx.isDir
  obtain ⟨hx0, q, r, hmade, hlook, hreach⟩ := hx.lookup hs
  have hfst := createVfsNode_fst (s := s) hx0
  rw [hmade] at hfst
  have hblank : padded [] = List.replicate pwdBufferSize 0 := rfl
  by_cases hq : q = 0
  · exact ⟨r, by simp [kshellPwd, hlook, hq, hblank]⟩
  -- the node of the working directory is there, and none for its parent
  have hone : (s.kmalloc sizeofVfsNode).1 ≠ 0 := hfst ▸ hq
  have hsecond := createVfsNode_kmalloc hx0 hone sizeofVfsNode
  rw [hmade] at hsecond
  obtain ⟨p, r₁, r₂, hlook', hclose, -⟩ :=
    hreach.step hs.tree s.includes_entries hs.root_live hq ⟨e, he⟩ dotDotName
  have hm : r.Includes s.entries := fun y e hy => by rw [hreach.entries, hy]
  have hp : p = 0 := by
    have hmade' := hlook'
    rw [kvfsLookup_eq hs.tree hm (hreach.node hq).2 ⟨e, he⟩] at hmade'
    have hfst' := createVfsNode_fst (s := r) (findIn_dotDot_ne_zero hs.tree he hdir)
    rw [Option.some.inj hmade', hsecond] at hfst'
    by_contra hp
    exact h ⟨hone, hfst' ▸ hp⟩
  exact ⟨r₂, by simp [kshellPwd, hlook, hq, pwdLoop, hlook', hp, hclose, hblank]⟩

/-- The names on the way down make the path that joins them. -/
theorem upPath_eq {names : List CString} (hne : names ≠ []) : upPath names = joinedPath names := by
  induction names with
  | nil => exact absurd rfl hne
  | cons name names ih =>
    rcases names with _ | ⟨name', names⟩
    · simp [upPath, joinedPath, joinNames]
    · have hrest := ih (List.cons_ne_nil _ _)
      have hcons : upPath (name :: name' :: names) = slash :: name ++ upPath (name' :: names) := rfl
      rw [hcons, hrest]
      rfl

/-- **`kshell_pwd` leaves the path of the working directory in its buffer**, or stores behind the
end of the buffer. -/
theorem kshellPwd_spec (hs : Stands s t) {names : List CString} {x : Ptr}
    (hx : CwdAt s t names x) (h : TwoNodes s) :
    ((upPath names).length < pwdBufferSize →
      ∃ r, s.kshellPwd = some (0, padded (joinedPath names), r) ∧ Climbed s r) ∧
    (pwdBufferSize ≤ (upPath names).length → s.kshellPwd = none) := by
  obtain ⟨e, he, hdir⟩ := hx.isDir
  obtain ⟨hx0, q, r, hmade, hlook, hreach⟩ := hx.lookup hs
  have hfst := createVfsNode_fst (s := s) hx0
  have hsecond := createVfsNode_kmalloc hx0 h.1 sizeofVfsNode
  rw [hmade] at hfst hsecond
  have hq : q ≠ 0 := hfst.trans_ne h.1
  have hlasts : Lasts r q := ⟨(createVfsNode_blocks hx0 hmade hq).1, hsecond.trans_ne h.2⟩
  have hblank : padded [] = List.replicate pwdBufferSize 0 := rfl
  have hempty : ([] : CString).length < pwdBufferSize := by decide
  obtain ⟨hfits, hover⟩ := pwdLoop_spec hs.tree hs.root_live hx.place he hdir hreach hq hlasts
    (hx.place.length_lt hs.tree) hempty
  rw [List.append_nil, hblank, List.length_nil] at hfits hover
  refine ⟨fun hshort => ?_, fun hlong => ?_⟩
  · obtain ⟨r', hloop, hclimbed⟩ := hfits hshort
    refine ⟨r', ?_, hclimbed⟩
    simp only [kshellPwd, hlook, if_neg hq, hloop, Option.bind_eq_bind, Option.bind_some,
      Option.pure_def, Bool.true_eq_false, if_false]
    by_cases hnames : names = []
    · subst hnames
      have hstores : (storeAt (padded []) 0 [slash]).bind (fun buffer => storeAt buffer 1 [0]) =
          some (padded [slash]) := by decide +kernel
      have hhead : (padded (upPath [])).headD 0 = 0 := by decide +kernel
      rw [if_pos hhead]
      obtain ⟨first, hfirst, hsecond⟩ := Option.bind_eq_some_iff.1 hstores
      have hfirst' : storeAt (padded (upPath [])) 0 [slash] = some first := hfirst
      rw [hfirst', Option.bind_some, hsecond]
      rfl
    · have hpath := upPath_eq hnames
      have hhead : (padded (upPath names)).headD 0 ≠ 0 := by
        rw [hpath]
        show slash ≠ 0
        decide
      rw [if_neg hhead, hpath]
  · simp [kshellPwd, hlook, hq, hover hlong]

/-! ## What paths lead to -/

/-- The way to the directory above is a part of the way to an entry. -/
theorem At.parent {path : List CString} {d : Ptr} (hd : s.At t path d) (hne : d ≠ t.root)
    (hpath : ∀ name ∈ path, slash ∉ name) :
    ∃ path', s.At t path' (t.parent d) ∧ path'.length ≤ path.length + 1 ∧
      ∀ name ∈ path', slash ∉ name := by
  cases hd with
  | root => exact absurd rfl hne
  | @kid above names p q hp hq hnames =>
    rw [(t.kid_mem hq).2.2.1]
    refine ⟨above, hp, ?_, fun name hname => hpath name ?_⟩
    · rw [hnames, List.length_append]
      omega
    · rw [hnames]
      exact List.mem_append_left _ hname

/-- **A walk by names without slashes stays on such names**, and goes no deeper than there are
names. -/
theorem walkTree_plain (ht : TreeStored s.entries t) {names path : List CString} {d : Ptr}
    (hd : s.At t path d) (hpath : ∀ name ∈ path, slash ∉ name)
    (hnames : ∀ name ∈ names, slash ∉ name) (hne : walkTree s.entries t d names ≠ 0) :
    ∃ path', s.At t path' (walkTree s.entries t d names) ∧
      path'.length ≤ path.length + names.length ∧ ∀ name ∈ path', slash ∉ name := by
  induction names generalizing path d with
  | nil => exact ⟨path, hd, Nat.le_refl _, hpath⟩
  | cons name names ih =>
    have hstep : findIn s.entries t d name ≠ 0 := fun h0 => hne (by
      show walkTree s.entries t (findIn s.entries t d name) names = 0
      rw [h0, walkTree_zero ht.zero])
    -- where one step leads
    have hnext : ∃ path₁, s.At t path₁ (findIn s.entries t d name) ∧
        path₁.length ≤ path.length + 1 ∧ ∀ part ∈ path₁, slash ∉ part := by
      rcases findIn_cases hstep with ⟨-, heq⟩ | ⟨-, heq⟩ | ⟨hkid, hname⟩
      · rw [heq]
        exact ⟨path, hd, Nat.le_succ _, hpath⟩
      · rw [heq]
        by_cases hroot : d = t.root
        · rw [if_pos hroot]
          exact ⟨path, hd, Nat.le_succ _, hpath⟩
        · rw [if_neg hroot]
          exact hd.parent hroot hpath
      · refine ⟨path ++ [name], .kid hd hkid (by rw [hname]), by simp, fun part hpart => ?_⟩
        rcases List.mem_append.1 hpart with hpart | hpart
        · exact hpath part hpart
        · rw [List.mem_singleton.1 hpart]
          exact hnames name List.mem_cons_self
    obtain ⟨path₁, hat₁, hlen₁, hplain₁⟩ := hnext
    obtain ⟨path', hat', hlen', hplain'⟩ :=
      ih hat₁ hplain₁ (fun part hpart => hnames part (List.mem_cons_of_mem _ hpart)) hne
    refine ⟨path', hat', ?_, hplain'⟩
    rw [List.length_cons]
    omega

/-! ## The path and the resolver -/

/-- **`pwd` names the working directory.**  It comes to its end with all stores inside its buffer, and
leaves an absolute path there that `kvfs_lookup_open` resolves to the entry of the working
directory. -/
def PwdNames (s : Fs) : Prop :=
  ∃ code buffer r, s.kshellPwd = some (code, buffer, r) ∧ 0 ∈ buffer ∧
    kvfsIsAbsolutePath (line buffer) = true ∧
      ∃ x node r', s.Refers s.kvfsCwd x ∧ r.kvfsLookupOpen (line buffer) = some (node, r') ∧
        r'.Refers node x

/-- The entry to which the path that `pwd` leaves is resolved. -/
def pwdEntry (s : Fs) : Option Ptr := do
  let (_, buffer, r) ← s.kshellPwd
  let (node, r) ← r.kvfsLookupOpen (line buffer)
  let n ← r.nodeAt node
  return n.priv

/-- The names of the entries are strings. -/
def NamesText (s : Fs) : Prop := ∀ q e, s.entries q = some e → 0 ∉ e.name

theorem length_upPath_le {names : List CString} (h : ∀ name ∈ names, FitsName name) :
    (upPath names).length ≤ names.length * KVFS_MAX_NAME_LEN := by
  induction names with
  | nil => exact Nat.zero_le _
  | cons name names ih =>
    have hname : name.length ≤ KVFS_MAX_NAME_LEN - 1 := h name List.mem_cons_self
    have hnames := ih fun part hpart => h part (List.mem_cons_of_mem _ hpart)
    have hcons : upPath (name :: names) = slash :: name ++ upPath names := rfl
    rw [hcons, List.length_append, List.length_cons, List.length_cons, Nat.succ_mul]
    simp only [KVFS_MAX_NAME_LEN] at hname hnames ⊢
    omega

theorem zero_not_mem_joinedPath {names : List CString} (h : ∀ name ∈ names, 0 ∉ name) :
    0 ∉ joinedPath names := by
  have hslash : (0 : UInt8) ≠ slash := by decide
  by_cases hnames : names = []
  · subst hnames
    simpa [joinedPath, joinNames] using hslash
  · rw [← upPath_eq hnames]
    intro hmem
    obtain ⟨name, hname, hc⟩ := List.mem_flatMap.1 hmem
    rcases List.mem_cons.1 hc with hc | hc
    · exact hslash hc
    · exact h name hname hc

/-- The path in the buffer is what stands in front of the first NUL. -/
theorem line_padded {path : CString} (h0 : 0 ∉ path) (h : path.length < pwdBufferSize) :
    line (padded path) = path ∧ 0 ∈ padded path := by
  obtain ⟨k, hk⟩ : ∃ k, pwdBufferSize - path.length = k + 1 :=
    ⟨pwdBufferSize - path.length - 1, by omega⟩
  rw [padded, hk, List.replicate_succ]
  exact ⟨Shell.takeWhile_string h0 _, by simp⟩

theorem At.text (hs : Stands s t) (htext : NamesText s) {names : List CString}
    (hat : s.At t names f) : ∀ name ∈ names, 0 ∉ name := by
  intro name hname
  obtain ⟨d, q, hq, rfl⟩ := hat.names name hname
  obtain ⟨e, he⟩ := (hs.tree.mem q).1 (t.kid_mem hq).2.1
  simpa [nameOf, he] using htext q e he

theorem Climbed.stands (h : Climbed s r) (hs : Stands s t) : Stands r t ∧ r.entries = s.entries := by
  have hent : r.entries = s.entries := entries_congr fun q e => by rw [h.obj]
  refine ⟨⟨by rw [hent]; exact hs.tree, ?_⟩, hent⟩
  rw [h.obj, h.frame.root]
  exact hs.root

/-- **The path leads back to the working directory** where there is memory for two nodes, the tree is
not deeper than the resolver walks, and no name on the way has a slash. -/
theorem pwdNames_of_plain (hs : Stands s t) (hn : WellNamed s.entries t) (htext : NamesText s)
    {names : List CString} {x : Ptr} (hx : CwdAt s t names x) (hmem : TwoNodes s)
    (hlen : names.length ≤ KVFS_MAX_PATH_PARTS - 1) (hplain : ∀ name ∈ names, slash ∉ name) :
    PwdNames s := by
  have hvalid := hx.place.valid hn hplain
  have hup := length_upPath_le fun name hname => (hvalid name hname).2.1
  have hfits : (upPath names).length < pwdBufferSize := by
    simp only [pwdBufferSize, KVFS_MAX_PATH_PARTS, KVFS_MAX_NAME_LEN] at hup hlen ⊢
    omega
  have hshort : (joinedPath names).length < pwdBufferSize := by
    by_cases hnil : names = []
    · subst hnil
      decide
    · rwa [← upPath_eq hnil]
  obtain ⟨r, hpwd, hclimbed⟩ := (kshellPwd_spec hs hx hmem).1 hfits
  obtain ⟨hline, hzero⟩ := line_padded (zero_not_mem_joinedPath (hx.place.text hs htext)) hshort
  obtain ⟨hstands, hent⟩ := hclimbed.stands hs
  have hwalk : walkTree r.entries t t.root (pathNames (joinedPath names)) = x := by
    rw [pathNames_joinedPath hvalid hlen, hent]
    exact walkTree_at hn hs.tree hx.place
  have hx0 : x ≠ 0 := (hx.lookup hs).1
  have habs : kvfsIsAbsolutePath (joinedPath names) = true := rfl
  obtain ⟨node, r', hlook, -, hrefers⟩ := lookupOpen_of_spares hstands hclimbed.spares habs
    (by rw [hwalk]; exact hx0)
  rw [hwalk] at hrefers
  exact ⟨0, _, r, hpwd, hzero, by rw [hline, habs], x, node, r', refers_newNode hx.node,
    by rw [hline]; exact hlook, hrefers⟩

/-- What an absolute path is resolved to is not deeper than the resolver walks, and has no name with
a slash above it. -/
theorem resolved_plain (hs : Stands r t) {path : CString} (habs : kvfsIsAbsolutePath path = true)
    {node x : Ptr} {r' : Fs} (hlook : r.kvfsLookupOpen path = some (node, r'))
    (hrefers : r'.Refers node x) :
    ∃ names, r.At t names x ∧ names.length ≤ KVFS_MAX_PATH_PARTS - 1 ∧
      ∀ name ∈ names, slash ∉ name := by
  have hstart := hs.startsAt habs
  obtain ⟨q, r₁, hlook', hopen, -⟩ :=
    kvfsLookupOpen_spec hs.tree hs.root_live hstart.node hstart.entry
  obtain ⟨rfl, rfl⟩ := Prod.mk.inj (Option.some.inj (hlook'.symm.trans hlook))
  have hq : q ≠ 0 := by
    obtain ⟨n, hn, -⟩ := hrefers
    exact ne_zero_of_obj hn
  obtain ⟨hnode, e, he⟩ := hopen.node hq
  obtain rfl := refers_unique hrefers (refers_newNode hnode)
  have hne := ne_zero_of_obj (entries_eq_some.1 he)
  obtain ⟨names, hat, hlen, hplain⟩ := walkTree_plain hs.tree (.root : r.At t [] t.root) nofun
    (fun name hname => (splitParts_valid _ path name hname).2.2) hne
  refine ⟨names, hat, hlen.trans ?_, hplain⟩
  have hroom : partsRoom path = KVFS_MAX_PATH_PARTS - 1 := by simp [partsRoom, habs]
  rw [List.length_nil, Nat.zero_add, ← hroom]
  exact splitParts_length _ _

/-- **`pwd` names the working directory** just where there is memory for two nodes, the tree is not
deeper than the resolver walks, and no name on the way has a slash. -/
theorem pwdNames_iff (hs : Stands s t) (hn : WellNamed s.entries t) (htext : NamesText s)
    {names : List CString} {x : Ptr} (hx : CwdAt s t names x) :
    PwdNames s ↔ TwoNodes s ∧ names.length ≤ KVFS_MAX_PATH_PARTS - 1 ∧
      ∀ name ∈ names, slash ∉ name := by
  refine ⟨?_, fun ⟨hmem, hlen, hplain⟩ => pwdNames_of_plain hs hn htext hx hmem hlen hplain⟩
  rintro ⟨code, buffer, r, hpwd, -, habs, y, node, r', hy, hlook, hrefers⟩
  have hmem : TwoNodes s := by
    by_contra hno
    obtain ⟨r₀, hrefused⟩ := kshellPwd_refused hs hx hno
    rw [hpwd, Option.some.injEq, Prod.mk.injEq, Prod.mk.injEq] at hrefused
    rw [hrefused.2.1] at habs
    have hblank : kvfsIsAbsolutePath (line (padded [])) = false := by decide +kernel
    rw [hblank] at habs
    cases habs
  obtain ⟨hfits, hover⟩ := kshellPwd_spec hs hx hmem
  rcases Nat.lt_or_ge (upPath names).length pwdBufferSize with hshort | hlong
  · obtain ⟨r₀, hdone, hclimbed⟩ := hfits hshort
    obtain ⟨-, rfl, rfl⟩ : code = 0 ∧ buffer = padded (joinedPath names) ∧ r = r₀ := by
      simpa [hpwd] using hdone
    obtain ⟨hstands, hent⟩ := hclimbed.stands hs
    obtain ⟨names', hat, hlen, hplain⟩ := resolved_plain hstands habs hlook hrefers
    obtain rfl := refers_unique hy (refers_newNode hx.node)
    have hat' : s.At t names' y := by
      unfold At at hat ⊢
      rwa [hent] at hat
    obtain rfl := hx.place.path_unique hat'
    exact ⟨hmem, hlen, hplain⟩
  · rw [hover hlong] at hpwd
    cases hpwd

/-! ## Changing the working directory -/

/-- The working directory has a node of a directory. -/
def InDirectory (s : Fs) : Prop :=
  ∃ x e, s.obj s.kvfsCwd = some (.node (newNode x)) ∧ s.entries x = some e ∧ e.isDir = true

/-- A well-formed tree, and the working directory in it. -/
structure WorkingTree (s : Fs) (t : OrderedTree Ptr) : Prop where
  mounted : Mounted s t
  named : WellNamed s.entries t
  text : NamesText s
  inDirectory : InDirectory s

/-- The working directory is where some names lead. -/
theorem WorkingTree.cwdAt (h : WorkingTree s t) : ∃ names x, CwdAt s t names x := by
  obtain ⟨x, e, hx, he, hdir⟩ := h.inDirectory
  obtain ⟨names, hat⟩ := OrderedTree.exists_pathTo (nameOf s.entries)
    ((h.mounted.stands.tree.mem x).2 ⟨e, he⟩)
  exact ⟨names, x, hx, hat, e, he, hdir⟩

/-- Any path can be walked from there. -/
theorem WorkingTree.startsAt (h : WorkingTree s t) (path : CString) : ∃ d, StartsAt s path d := by
  obtain ⟨x, e, hx, he, -⟩ := h.inDirectory
  by_cases habs : kvfsIsAbsolutePath path = true
  · exact ⟨t.root, h.mounted.stands.startsAt habs⟩
  · refine ⟨x, ?_, e, he⟩
    rw [startNode, if_neg habs, hx]

/-- The records of the working directory are kept, where it stays. -/
theorem InDirectory.keeps (h : InDirectory s) (hk : Keeps s r) (hent : r.entries = s.entries) :
    InDirectory r := by
  obtain ⟨x, e, hx, he, hdir⟩ := h
  refine ⟨x, e, ?_, by rw [hent, he], hdir⟩
  rw [hk.frame.cwd]
  exact hk.other _ _ hx (by simp)

/-- **`kvfs_chdir` leaves the working directory a directory of the same tree.** -/
theorem WorkingTree.chdir (h : WorkingTree s t) (path : CString) :
    ∃ code r, s.kvfsChdir path = some (code, r) ∧ WorkingTree r t := by
  obtain ⟨d, hd⟩ := h.startsAt path
  obtain ⟨code, r, hcall, heffect⟩ := kvfsChdir_effect h.mounted hd
  suffices hkept : r.entries = s.entries ∧ InDirectory r by
    refine ⟨code, r, hcall, heffect.mounted, by rw [hkept.1]; exact h.named, ?_, hkept.2⟩
    intro q e hq
    rw [hkept.1] at hq
    exact h.text q e hq
  obtain ⟨q, r₁, hopen, -, htemp, ⟨-, hdone⟩ | ⟨hq, hdone⟩ | ⟨hq, hdone, e, he, hdir⟩⟩ :=
    kvfsChdir_spec h.mounted hd
  · rw [hcall] at hdone
    cases hdone
    exact ⟨hopen.entries, h.inDirectory.keeps hopen.keeps hopen.entries⟩
  · obtain ⟨r₂, hclose, hent, -, -, hkeeps⟩ := kvfsClose_live (hopen.node hq).1
    rw [hcall, hclose] at hdone
    cases hdone
    have hentries := hent.trans hopen.entries
    exact ⟨hentries, h.inDirectory.keeps (hkeeps s hopen.keeps (htemp hq)) hentries⟩
  · have hmounted : Mounted r₁ t := h.mounted.kept hopen.keeps (.same hopen.entries (G := s.Granted))
    obtain ⟨hnode, -⟩ := hopen.node hq
    obtain ⟨r₂, hclose, heffect', hent⟩ := hmounted.setCwd hnode
      ⟨e, by rw [hopen.entries, he]⟩ (hopen.unheld h.mounted (htemp hq))
    obtain ⟨r₃, hclose', -, -, hback, -⟩ := closeCwd_spec hmounted
    obtain rfl : r₂ = r₃ := Option.some.inj (hclose.symm.trans hclose')
    rw [hcall, hclose] at hdone
    cases hdone
    -- the new node is that of the directory that has been found
    obtain ⟨x, hx⟩ := heffect'.mounted.cwd
    have hsame := hback q _ hx
    rw [hnode] at hsame
    exact ⟨hent.trans hopen.entries, _, e, hsame ▸ hx, by rw [hent, hopen.entries, he], hdir⟩

/-- **`pwd` names the working directory**, wherever `kvfs_chdir` calls have led to, just where there
is memory for two nodes, the directory is not deeper than the resolver walks, and no name on the way
has a slash. -/
theorem pwd_names_cwd (h : WorkingTree s t) {is : List Input}
    (hchdirs : ∀ i ∈ is, ∃ path, i.call = .kvfsChdir path) :
    ∃ r, run step s is = some r ∧ ∃ names x, CwdAt r t names x ∧
      ∀ pages, PwdNames { r with pages := pages } ↔
        TwoNodes { r with pages := pages } ∧ names.length ≤ KVFS_MAX_PATH_PARTS - 1 ∧
          ∀ name ∈ names, slash ∉ name := by
  have hadm : Admissible step (fun _ i => ∃ path, i.call = .kvfsChdir path) s is :=
    admissible_of_mem fun i hi _ => hchdirs i hi
  obtain ⟨r, hrun, hr⟩ := run_total (P := fun r => WorkingTree r t)
    (fun r i hr ⟨path, hi⟩ => by
      have hin : WorkingTree (r.withInput i) t :=
        ⟨hr.mounted.withInput i, hr.named, hr.text, hr.inDirectory⟩
      obtain ⟨code, r', hcall, hr'⟩ := hin.chdir path
      exact ⟨r', by simp [Fs.step, stepResult, hi, call, hcall], hr'⟩) h hadm
  obtain ⟨names, x, hx⟩ := hr.cwdAt
  refine ⟨r, hrun, names, x, hx, fun pages => ?_⟩
  have hstands : Stands { r with pages := pages } t := ⟨hr.mounted.stands.tree, hr.mounted.stands.root⟩
  exact pwdNames_iff hstands hr.named hr.text ⟨hx.node, hx.place, hx.isDir⟩

/-- No name has a NUL. -/
def namesText (s : Fs) : Bool :=
  (List.range (s.heap.length + 1)).all fun q => (s.entries q).all fun e => !e.name.contains 0

theorem namesText_sound (h : namesText s = true) : NamesText s := by
  intro q e hq
  have hbound : q < s.heap.length + 1 :=
    Nat.lt_succ_of_le (Nat.le_of_not_lt fun hlt => by
      rw [entries_of_length_lt hlt] at hq
      cases hq)
  have hall := List.all_eq_true.1 h q (List.mem_range.2 hbound)
  simpa [hq] using hall

/-- In the root, by `cd /`. -/
theorem pwd_names_cwd_root : ∃ t r, run step mountedRoot [plainInput (.kvfsChdir [slash])] = some r ∧
    ∃ names x, CwdAt r t names x ∧
      ∀ pages, PwdNames { r with pages := pages } ↔
        TwoNodes { r with pages := pages } ∧ names.length ≤ KVFS_MAX_PATH_PARTS - 1 ∧
          ∀ name ∈ names, slash ∉ name := by
  obtain ⟨f, hfresh⟩ := freshMount_mountedRoot.stands
  have hroot : mountedRoot.entries f = some rootEntry := by
    rw [hfresh.entries, Function.update_self]
  have hdir : InDirectory mountedRoot :=
    ⟨f, _, by rw [hfresh.cwd, hfresh.stands.root]; rfl, hroot, rfl⟩
  exact ⟨_, pwd_names_cwd
    ⟨hfresh.mounted, wellNamed_single _ _, namesText_sound (by decide +kernel), hdir⟩
    fun i hi => ⟨[slash], by rw [List.mem_singleton.1 hi]; rfl⟩⟩

/-! ## A directory too deep -/

/-- Sixteen directories, one in the other, and the way back to the root. -/
def sixteenDirectories : List Input :=
  ((List.replicate 16 [Call.kmkdir [0x64], .kvfsChdir [0x64]]).flatten ++
    [Call.kvfsChdir [slash]]).map plainInput

/-- The way down, one directory after the other. -/
def sixteenDown : List Input := List.replicate 16 (plainInput (.kvfsChdir [0x64]))

/-- **In the sixteenth directory `pwd` prints a path that leads to the fifteenth.** -/
theorem pwd_loses_cwd : FreshMount mountedRoot ∧ ∃ s t r,
    run step mountedRoot sixteenDirectories = some s ∧ WorkingTree s t ∧
      run step s sixteenDown = some r ∧ TwoNodes r ∧ ¬PwdNames r := by
  have hcalls : Admissible step TreeCall mountedRoot sixteenDirectories :=
    treeCalls (by decide +kernel)
  have hcwd : Admissible step CwdStays mountedRoot sixteenDirectories := by decide +kernel
  obtain ⟨s, t, hrun, hs⟩ := treeInv_of_run freshMount_mountedRoot hcalls hcwd
  have hdeep : (run step mountedRoot sixteenDirectories).any (fun s =>
      namesText s && decide (s.kvfsCwd = s.kvfsRootMountDir) &&
        (run step s sixteenDown).any fun r => decide (TwoNodes r) &&
          decide (pwdEntry r = some 18) && decide (r.obj r.kvfsCwd = some (.node (newNode 19)))) =
      true := by decide +kernel
  rw [hrun, Option.any_some] at hdeep
  simp only [Bool.and_eq_true, decide_eq_true_eq, Option.any_eq_true] at hdeep
  obtain ⟨⟨htext, hroot⟩, r, hdown, ⟨hmem, hentry⟩, hnode⟩ := hdeep
  have hdir : InDirectory s := by
    obtain ⟨e, he⟩ := (hs.mounted.stands.tree.mem _).1 t.root_mem
    exact ⟨t.root, e, by rw [hroot, hs.mounted.stands.root], he,
      hs.mounted.stands.tree.root_isDir e he⟩
  refine ⟨freshMount_mountedRoot, s, t, r, hrun,
    ⟨hs.mounted, hs.named, namesText_sound htext, hdir⟩, hdown, hmem, ?_⟩
  rintro ⟨code, buffer, r₁, hpwd, -, -, x, node, r₂, hx, hlook, ⟨n, hn, -, hpriv⟩⟩
  obtain rfl := refers_unique hx (refers_newNode hnode)
  -- the path leads to another entry
  have hled : pwdEntry r = some 19 := by simp [pwdEntry, hpwd, hlook, nodeAt_of_obj hn, hpriv]
  rw [hentry] at hled
  cases hled

end Fs

end DelOs
