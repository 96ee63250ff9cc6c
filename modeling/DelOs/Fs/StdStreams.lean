import DelOs.Fs.Calls
import DelOs.Fs.Holders
import DelOs.Fs.MountPoint
import DelOs.Fs.UnpackAny

/-!
# The standard streams

`src/kernel/fs/fs_manager.c` makes the devices in a tmpfs of their own, and
`kprocess_attach_std_streams` opens them by path for every process.

* `Fs.kfsInit`, `Fs.kfsCreateDevices` — the boot of the file system.
* `Fs.kprocessAttachStdStreams`, `Fs.kprocessCreateKernel` — the descriptors of a new process.
* `Outside` — the devices lie outside of the tree of the root, and no link leads from them into it.
* `kfsInit_standsIn` — **after a boot the tree of the root is one of directories and files**, for
  every image.
* `kprocessAttachStdStreams_inTree` — the descriptors of a new process are open on entries of it.
* `std_streams_never_open` — **so no process has its standard streams**.
-/

namespace DelOs

open FirstFit LinkedList

/-- `"stdin"`, `"stdout"`, `"stderr"` -/
def stdinName : CString := [0x73, 0x74, 0x64, 0x69, 0x6e]
def stdoutName : CString := [0x73, 0x74, 0x64, 0x6f, 0x75, 0x74]
def stderrName : CString := [0x73, 0x74, 0x64, 0x65, 0x72, 0x72]

/-- The path of a device. -/
def devicePath (name : CString) : CString := devPath ++ slash :: name

def KSTDIN_FILENO : Nat := 0
def KSTDOUT_FILENO : Nat := 1
def KSTDERR_FILENO : Nat := 2

namespace Fs

/-! ## The devices -/

/-- One device of `kfs_setup_devices`: look it up, and store its function. -/
def kfsSetupDevice (s : Fs) (devNode : Ptr) (name : CString) (setChr : TmpfsEntry → TmpfsEntry) :
    Option (Bool × Fs) := do
  let (tmp, s) ← s.ktmpfsLookup devNode name
  if tmp = 0 then return (false, s)
  let n ← s.nodeAt tmp
  if n.priv = 0 then return (false, ← s.kvfsClose tmp)
  let entry ← s.entryAt n.priv
  return (true, ← (s.put n.priv (.entry (setChr entry))).kvfsClose tmp)

/-- `kfs_setup_devices`. -/
def kfsSetupDevices (s : Fs) (devNode : Ptr) : Option (Bool × Fs) := do
  if devNode = 0 then return (false, s)
  let (ok, s) ← s.kfsSetupDevice devNode stdoutName ({ · with chrWrite := some .kfsVgaWrite })
  if ok = false then return (false, s)
  let (ok, s) ← s.kfsSetupDevice devNode stderrName ({ · with chrWrite := some .kfsVgaWrite })
  if ok = false then return (false, s)
  s.kfsSetupDevice devNode stdinName ({ · with chrRead := some .kfsKeyboardRead })

/-- `kfs_create_devices`. -/
def kfsCreateDevices (s : Fs) (devNode : Ptr) : Option (Bool × Fs) := do
  if devNode = 0 then return (false, s)
  let (ok, s) ← s.ktmpfsCreate devNode stdoutName (KVFS_STAT_IFCHR ||| 0o666)
  if ok = false then return (false, s)
  let (ok, s) ← s.ktmpfsCreate devNode stderrName (KVFS_STAT_IFCHR ||| 0o666)
  if ok = false then return (false, s)
  let (ok, s) ← s.ktmpfsCreate devNode stdinName (KVFS_STAT_IFCHR ||| 0o666)
  if ok = false then return (false, s)
  s.kfsSetupDevices devNode

/-- `kfs_init`; `image` is what lies between the two symbols of the initrd. -/
def kfsInit (s : Fs) (image : List UInt8) : Option (Bool × Fs) := do
  if kinitrdIsSizeValid image.length = false then return (false, s)
  let (root, s) ← s.kvfsMountAt tmpfsName [slash]
  if root = 0 then return (false, s)
  let (ok, s) ← kinitrdUnpack { s with kvfsCwd := root } root image
  if ok = false then return (false, s)
  let (devNode, s) ← s.ktmpfsMountAt devPath
  if devNode = 0 then return (false, s)
  s.kfsCreateDevices devNode

/-! ## A new process -/

/-- `kprocess_attach_std_streams`. -/
def kprocessAttachStdStreams (s : Fs) (proc : Nat) : Option Fs := do
  let (fdStdin, s) ← s.kfdOpen proc (devicePath stdinName) KVFS_O_RDONLY 0
  if fdStdin ≠ KSTDIN_FILENO then return s
  let (fdStdout, s) ← s.kfdOpen proc (devicePath stdoutName) KVFS_O_WRONLY 0
  if fdStdout ≠ KSTDOUT_FILENO then return s
  let (_, s) ← s.kfdOpen proc (devicePath stderrName) KVFS_O_WRONLY 0
  return s

/-- The allocations of a new process and its task: blocks of the given sizes. -/
def allocateBlocks (s : Fs) (sizes : List Nat) : Fs := sizes.foldl (fun s n => (s.kmalloc n).2) s

/-- `kprocess_kernel_init` and `kprocess_create_kernel`, the part that the file system sees: the
blocks of the process, its task and its stack, a table without descriptors, and the streams. -/
def kprocessCreateKernel (s : Fs) (proc : Nat) (sizes : List Nat) : Option Fs :=
  let s := s.allocateBlocks sizes
  let s := { s with fds := fun p fd => if p = proc then 0 else s.fds p fd }
  s.kprocessAttachStdStreams proc

variable {s r : Fs} {m : Entries} {t : OrderedTree Ptr} {node f : Ptr}

/-! ## Outside of the tree -/

/-- `NULL`, or an entry in use that is not among `m`. -/
def Out (s : Fs) (m : Entries) (q : Ptr) : Prop :=
  q = 0 ∨ (m q = none ∧ ∃ e, s.entries q = some e)

/-- The directory `f` of the node lies outside of the tree of the root, and no link leads from
outside into the tree. -/
structure Outside (s : Fs) (m : Entries) (t : OrderedTree Ptr) (node f : Ptr) : Prop where
  stands : StandsIn s m t
  live : s.obj node = some (.node (newNode f))
  dir : ∃ e, s.entries f = some e ∧ e.isDir = true
  out : m f = none
  links : ∀ q e, s.entries q = some e → m q = none → Out s m e.child ∧ Out s m e.next

theorem Out.mono {q : Ptr} (h : Out s m q)
    (hent : ∀ q e, s.entries q = some e → ∃ e', r.entries q = some e') : Out r m q := by
  rcases h with h | ⟨hm, e, he⟩
  · exact Or.inl h
  · exact Or.inr ⟨hm, hent q e he⟩

/-- `ktmpfs_create` makes an entry in the directory that the node stands for. -/
theorem ktmpfsCreate_spec {e : TmpfsEntry} (hnode : s.obj node = some (.node (newNode f)))
    (hf : s.entries f = some e) (hdir : e.isDir = true) (name : CString) (mode : Nat) :
    ∃ x r, s.ktmpfsCreate node name mode = some (decide (x ≠ 0), r) ∧
      Made s r x (insertEntry s.entries f x e name mode) := by
  obtain ⟨x, r, r', hcreate, hinc, hnull, hmade⟩ := makeEntry_spec hnode hf hdir name mode
  have hpriv : (newNode f).priv = f := rfl
  refine ⟨x, r', ?_, hmade⟩
  by_cases hx : x = 0
  · simp [ktmpfsCreate, ne_zero_of_obj hnode, nodeAt_of_obj hnode, hpriv, hcreate, hx, hnull hx]
  · simp [ktmpfsCreate, ne_zero_of_obj hnode, nodeAt_of_obj hnode, hpriv, hcreate, hx, hinc hx]

/-- Creating an entry in the directory keeps it outside. -/
theorem Outside.create (h : Outside s m t node f) (name : CString) (mode : Nat) :
    ∃ created r, s.ktmpfsCreate node name mode = some (created, r) ∧ Outside r m t node f := by
  obtain ⟨e, hf, hdir⟩ := h.dir
  obtain ⟨x, r, hcreate, hmade⟩ := ktmpfsCreate_spec h.live hf hdir name mode
  have hstands := hmade.standsIn h.stands h.out
  have hlive := hmade.keeps.other _ _ h.live (by simp)
  refine ⟨_, r, hcreate, ?_⟩
  rcases hmade.made with ⟨-, hent, -⟩ | ⟨hx, hdead, hent⟩
  · exact ⟨hstands, hlive, ⟨e, by rw [hent, hf], hdir⟩, h.out, fun q e' hq hm => by
      rw [hent] at hq
      obtain ⟨hchild, hnext⟩ := h.links q e' hq hm
      have hsame : ∀ q e, s.entries q = some e → ∃ e', r.entries q = some e' :=
        fun q e he => ⟨e, by rw [hent, he]⟩
      exact ⟨hchild.mono hsame, hnext.mono hsame⟩⟩
  · have hxf : x ≠ f := by
      rintro rfl
      rw [entries_eq_some, hdead] at hf
      cases hf
    have hxm : m x = none := by
      cases hmx : m x with
      | none => rfl
      | some ex =>
        have hold := entries_eq_some.1 (h.stands.part x ex hmx)
        rw [hdead] at hold
        cases hold
    have hmono : ∀ q e, s.entries q = some e → ∃ e', r.entries q = some e' := by
      intro q e' he'
      rw [hent]
      exact exists_insertEntry he'
    obtain ⟨hchild, hnext⟩ := h.links f e hf h.out
    refine ⟨hstands, hlive, ⟨{ e with child := x, stat := kvfsStatIncNlink e.stat }, by
      rw [hent, insertEntry, Function.update_self], hdir⟩, h.out, fun q e' hq hm => ?_⟩
    rw [hent, insertEntry, Function.update_apply, Function.update_apply] at hq
    split_ifs at hq with hqf hqx
    · obtain rfl := Option.some.inj hq
      refine ⟨Or.inr ⟨hxm, ?_⟩, hnext.mono hmono⟩
      rw [hent, insertEntry, Function.update_of_ne hxf, Function.update_self]
      exact ⟨_, rfl⟩
    · obtain rfl := Option.some.inj hq
      exact ⟨Or.inl rfl, hchild.mono hmono⟩
    · obtain ⟨hc, hn⟩ := h.links q e' hq hm
      exact ⟨hc.mono hmono, hn.mono hmono⟩

/-- A walk that starts outside of the tree stays outside. -/
theorem Outside.walkChildren (h : Outside s m t node f) {stop : Ptr → TmpfsEntry → Bool}
    {fuel prev tmp prev' q : Ptr} (htmp : Out s m tmp)
    (hwalk : s.walkChildren stop fuel prev tmp = some (prev', q)) : Out s m q := by
  induction fuel generalizing prev tmp with
  | zero => cases hwalk
  | succ fuel ih =>
    rcases htmp with rfl | ⟨hm, e, he⟩
    · simp only [Fs.walkChildren, if_true, Option.some.injEq, Prod.mk.injEq] at hwalk
      exact Or.inl hwalk.2.symm
    · have hobj := entries_eq_some.1 he
      simp only [Fs.walkChildren, if_neg (ne_zero_of_obj hobj), entryAt_of_obj hobj,
        Option.bind_eq_bind, Option.bind_some, Option.pure_def] at hwalk
      split_ifs at hwalk
      · obtain ⟨-, rfl⟩ := Prod.mk.inj (Option.some.inj hwalk)
        exact Or.inr ⟨hm, e, he⟩
      · exact ih (h.links tmp e he hm).2 hwalk

/-- A lookup in the directory opens a new node of an entry outside, or none. -/
theorem Outside.lookup (h : Outside s m t node f) {name : CString} (hdot : name ≠ dotName)
    (hdots : name ≠ dotDotName) {tmp : Ptr}
    (hlook : s.ktmpfsLookup node name = some (tmp, r)) :
    (tmp = 0 ∨ ∃ x e, m x = none ∧ s.entries x = some e ∧ s.obj tmp = none ∧
      r.obj tmp = some (.node (newNode x))) ∧ Keeps s r ∧ r.entries = s.entries := by
  obtain ⟨e, hf, hdir⟩ := h.dir
  have hobj := entries_eq_some.1 hf
  have hpriv : (newNode f).priv = f := rfl
  simp only [ktmpfsLookup, if_neg (ne_zero_of_obj h.live), nodeAt_of_obj h.live, hpriv,
    if_neg (ne_zero_of_obj hobj), findEntry, entryAt_of_obj hobj, hdir, Bool.true_eq_false,
    if_neg hdot, if_neg hdots, if_false, Option.bind_eq_bind, Option.bind_some,
    Option.pure_def] at hlook
  obtain ⟨child, hfind, hmake⟩ := Option.bind_eq_some_iff.1 hlook
  obtain ⟨⟨prev, q⟩, hwalk, heq⟩ := Option.bind_eq_some_iff.1 hfind
  obtain rfl : q = child := Option.some.inj heq
  have hout := h.walkChildren (h.links f e hf h.out).1 hwalk
  have hmake := Option.some.inj hmake
  by_cases hq : q = 0
  · simp only [ktmpfsCreateVfsNode, if_pos hq, Prod.mk.injEq] at hmake
    obtain ⟨rfl, rfl⟩ := hmake
    exact ⟨Or.inl rfl, Keeps.refl s, rfl⟩
  · obtain ⟨hm, ex, hex⟩ := hout.resolve_left hq
    have halloc := ktmpfsCreateVfsNode_spec (s := s) hq
    rw [hmake] at halloc
    rcases halloc.made with ⟨htmp, hobj', -⟩ | ⟨-, hdead, hobj'⟩
    · exact ⟨Or.inl htmp, halloc.keeps, entries_congr fun p e => by rw [hobj']⟩
    · exact ⟨Or.inr ⟨q, ex, hm, hex, hdead, by rw [hobj', Function.update_self]⟩, halloc.keeps,
        entries_update hobj' (by simp [hdead]) (by simp)⟩

/-- Storing the function of a device keeps the directory outside. -/
theorem Outside.put (h : Outside s m t node f) {x : Ptr} {e e' : TmpfsEntry} (hm : m x = none)
    (hx : s.entries x = some e) (hsame : SameLinks e e') :
    Outside (s.put x (.entry e')) m t node f := by
  have hkeeps := keeps_put hx e'
  have hent : (s.put x (.entry e')).entries = Function.update s.entries x (some e') :=
    entries_put (by simp [entries_eq_some.1 hx]) e'
  have hmono : ∀ q e, s.entries q = some e →
      ∃ e₁, (s.put x (.entry e')).entries q = some e₁ := by
    intro q e₀ he₀
    rw [hent, Function.update_apply]
    split_ifs
    · exact ⟨e', rfl⟩
    · exact ⟨e₀, he₀⟩
  refine ⟨⟨h.stands.tree, fun q e₀ hq => ?_, hkeeps.other _ _ h.stands.root (by simp)⟩,
    hkeeps.other _ _ h.live (by simp), ?_, h.out, fun q e₀ hq hmq => ?_⟩
  · rw [hent, Function.update_of_ne, h.stands.part q e₀ hq]
    rintro rfl
    rw [hm] at hq
    cases hq
  · obtain ⟨ef, hf, hdir⟩ := h.dir
    by_cases hfx : f = x
    · subst hfx
      obtain rfl : e = ef := by simpa [hx] using hf
      exact ⟨e', by rw [hent, Function.update_self], by simpa [TmpfsEntry.isDir, hsame.mode] using hdir⟩
    · exact ⟨ef, by rw [hent, Function.update_of_ne hfx, hf], hdir⟩
  · rw [hent, Function.update_apply] at hq
    split_ifs at hq with hqx
    · obtain rfl := Option.some.inj hq
      obtain ⟨hchild, hnext⟩ := h.links x e hx hm
      rw [hsame.child, hsame.next]
      exact ⟨hchild.mono hmono, hnext.mono hmono⟩
    · obtain ⟨hchild, hnext⟩ := h.links q e₀ hq hmq
      exact ⟨hchild.mono hmono, hnext.mono hmono⟩

/-- The entries are what they were, and so are the nodes of the root and the directory. -/
theorem Outside.congr (h : Outside s m t node f) {s₀ : Fs} (hr : Keeps s₀ r)
    (hroot : s₀.obj s₀.kvfsRootMountDir = some (.node (newNode t.root)))
    (hlive : s₀.obj node = some (.node (newNode f))) (hent : r.entries = s.entries) :
    Outside r m t node f := by
  have hout : ∀ q, Out s m q → Out r m q := fun q hq =>
    hq.mono fun q e he => ⟨e, by rw [hent, he]⟩
  refine ⟨⟨h.stands.tree, fun q e hq => by rw [hent, h.stands.part q e hq], ?_⟩,
    hr.other _ _ hlive (by simp), by rw [hent]; exact h.dir, h.out, fun q e hq hm => ?_⟩
  · rw [hr.frame.root]
    exact hr.other _ _ hroot (by simp)
  · rw [hent] at hq
    obtain ⟨hchild, hnext⟩ := h.links q e hq hm
    exact ⟨hout _ hchild, hout _ hnext⟩

/-- Setting up a device keeps the directory outside. -/
theorem Outside.setupDevice (h : Outside s m t node f) {name : CString} (hdot : name ≠ dotName)
    (hdots : name ≠ dotDotName) {setChr : TmpfsEntry → TmpfsEntry}
    (hset : ∀ e, SameLinks e (setChr e)) {ok : Bool}
    (hrun : s.kfsSetupDevice node name setChr = some (ok, r)) : Outside r m t node f := by
  simp only [kfsSetupDevice, Option.bind_eq_bind, Option.pure_def] at hrun
  obtain ⟨⟨tmp, s₁⟩, hlook, hrun⟩ := Option.bind_eq_some_iff.1 hrun
  obtain ⟨htmp, hkeeps, hent⟩ := h.lookup hdot hdots hlook
  have h₁ := h.congr hkeeps h.stands.root h.live hent
  simp only at hrun
  rcases htmp with rfl | ⟨x, e, hm, hx, hfresh, hnode⟩
  · obtain ⟨-, rfl⟩ : _ ∧ s₁ = r := by simpa using hrun
    exact h₁
  · have hx₁ : s₁.entries x = some e := by rw [hent, hx]
    have hpriv : (newNode x).priv = x := rfl
    simp only [if_neg (ne_zero_of_obj hnode), nodeAt_of_obj hnode, hpriv,
      if_neg (ne_zero_of_obj (entries_eq_some.1 hx₁)), entryAt_of_obj (entries_eq_some.1 hx₁),
      Option.bind_some] at hrun
    obtain ⟨s₂, hclose, heq⟩ := Option.bind_eq_some_iff.1 hrun
    obtain ⟨-, rfl⟩ := Prod.mk.inj (Option.some.inj heq)
    have hput := keeps_put hx₁ (setChr e)
    obtain ⟨s₃, hclose', hent', -, -, htemp⟩ := kvfsClose_live (hput.other _ _ hnode (by simp))
    obtain rfl : s₃ = s₂ := Option.some.inj (hclose'.symm.trans hclose)
    -- the node closed is a new one
    have hto := hkeeps.trans hput
    exact (h₁.put hm hx₁ (hset e)).congr (htemp s hto (Or.inr fun n => by simp [hfresh]))
      h.stands.root h.live hent'

/-- **Creating the devices** leaves the tree of the root as it is. -/
theorem Outside.createDevices (h : Outside s m t node f) {ok : Bool}
    (hrun : s.kfsCreateDevices node = some (ok, r)) : Outside r m t node f := by
  have hne := ne_zero_of_obj h.live
  have hset : ∀ c (e : TmpfsEntry), SameLinks e { e with chrWrite := c } :=
    fun _ _ => ⟨rfl, rfl, rfl, rfl, rfl, rfl⟩
  have hsetRead : ∀ c (e : TmpfsEntry), SameLinks e { e with chrRead := c } :=
    fun _ _ => ⟨rfl, rfl, rfl, rfl, rfl, rfl⟩
  obtain ⟨ok₁, s₁, hrun₁, h₁⟩ := h.create stdoutName (KVFS_STAT_IFCHR ||| 0o666)
  obtain ⟨ok₂, s₂, hrun₂, h₂⟩ := h₁.create stderrName (KVFS_STAT_IFCHR ||| 0o666)
  obtain ⟨ok₃, s₃, hrun₃, h₃⟩ := h₂.create stdinName (KVFS_STAT_IFCHR ||| 0o666)
  simp only [kfsCreateDevices, kfsSetupDevices, if_neg hne, hrun₁, hrun₂, hrun₃, Option.bind_eq_bind,
    Option.bind_some, Option.pure_def] at hrun
  split_ifs at hrun
  · cases hrun
    exact h₁
  · cases hrun
    exact h₂
  · cases hrun
    exact h₃
  · obtain ⟨⟨ok₄, s₄⟩, hrun₄, hrun⟩ := Option.bind_eq_some_iff.1 hrun
    have h₄ := h₃.setupDevice (show stdoutName ≠ dotName by decide) (by decide) (hset _) hrun₄
    split_ifs at hrun
    · cases hrun
      exact h₄
    · obtain ⟨⟨ok₅, s₅⟩, hrun₅, hrun⟩ := Option.bind_eq_some_iff.1 hrun
      have h₅ := h₄.setupDevice (show stderrName ≠ dotName by decide) (by decide) (hset _) hrun₅
      split_ifs at hrun
      · cases hrun
        exact h₅
      · exact h₅.setupDevice (show stdinName ≠ dotName by decide) (by decide) (hsetRead _) hrun

/-- A new mount lies outside of the tree. -/
theorem RootMade.outside {loc : CString} (h : RootMade s r loc node f) (hs : Stands s t) :
    Outside r s.entries t node f := by
  have hout : s.entries f = none := by simp [Fs.entries, h.entry_fresh]
  refine ⟨h.standsIn hs.standsIn, h.live, ⟨_, h.entry, isDir_newRoot loc⟩, hout, fun q e hq hm => ?_⟩
  rw [h.entries, Function.update_apply] at hq
  split_ifs at hq with hqf
  · obtain rfl := Option.some.inj hq
    exact ⟨Or.inl rfl, Or.inl rfl⟩
  · rw [hm] at hq
    cases hq

/-! ## The boot -/

/-- A heap on which the file system has no record in use. -/
def NoRecords (s : Fs) : Prop := ∀ p o, s.obj p = some o → o = .raw

/-- **After a boot the tree of the root is one of directories and files**, whatever the image. -/
theorem kfsInit_standsIn (hraw : NoRecords s) (hfds : ∀ proc fd, s.fds proc fd = 0)
    {image : List UInt8} (hrun : s.kfsInit image = some (true, r)) :
    ∃ m t, StandsIn r m t := by
  simp only [kfsInit, Option.bind_eq_bind, Option.pure_def] at hrun
  split_ifs at hrun
  · cases hrun
  obtain ⟨⟨root, s₁⟩, hmount, hrun⟩ := Option.bind_eq_some_iff.1 hrun
  simp only at hrun
  split_ifs at hrun with hroot
  · cases hrun
  -- the mount of the root is the one that all runs start from
  have hfresh : FreshMount { s₁ with kvfsCwd := root } :=
    ⟨s, hraw, hfds, by rw [kvfsMount_eq, hmount]; simp [hroot]⟩
  obtain ⟨f₀, hfresh⟩ := hfresh.stands
  obtain rfl : root = s₁.kvfsRootMountDir := hfresh.cwd
  obtain ⟨⟨ok, s₂⟩, hunpack, hrun⟩ := Option.bind_eq_some_iff.1 hrun
  cases ok with
  | false => cases hrun
  | true =>
    obtain ⟨t, hs₂, -⟩ := kinitrdUnpack_stands hfresh.stands hunpack
    simp only [Bool.true_eq_false, if_false] at hrun
    obtain ⟨⟨devNode, s₃⟩, hdev, hrun⟩ := Option.bind_eq_some_iff.1 hrun
    simp only at hrun
    split_ifs at hrun with hdev0
    · cases hrun
    have hfits : FitsName devPath := by decide
    obtain ⟨node', r', hmount', hmade⟩ := ktmpfsMount_spec s₂ devPath
    obtain ⟨rfl, rfl⟩ : node' = devNode ∧ r' = s₃ := by
      simpa [ktmpfsMountAt, hfits, hmount'] using hdev
    obtain ⟨-, f, hmade⟩ := hmade.resolve_left fun h => hdev0 h.1
    exact ⟨_, t, ((hmade.outside hs₂).createDevices hrun).stands⟩

/-! ## The descriptors of a new process -/

/-- The descriptors of the process are open on entries among `m`. -/
def InTree (s : Fs) (m : Entries) (proc : Nat) : Prop :=
  ∀ fd, s.fds proc fd ≠ 0 → ∃ d x, s.obj (s.fds proc fd) = some (.desc d) ∧
    s.obj d.node = some (.node (newNode x)) ∧ ∃ e, m x = some e

theorem InTree.kept {proc : Nat} (h : InTree s m proc) (hkeeps : Keeps s r) : InTree r m proc := by
  intro fd hfd
  rw [hkeeps.frame.fds] at hfd ⊢
  obtain ⟨d, x, hd, hx, he⟩ := h fd hfd
  exact ⟨d, x, hkeeps.other _ _ hd (by simp), hkeeps.other _ _ hx (by simp), he⟩

theorem StandsIn.kept (h : StandsIn s m t) (hkeeps : Keeps s r) (hent : r.Includes m) :
    StandsIn r m t := by
  refine ⟨h.tree, hent, ?_⟩
  rw [hkeeps.frame.root]
  exact hkeeps.other _ _ h.root (by simp)

/-- An allocation of a block takes no record away. -/
theorem keeps_kmalloc (s : Fs) (size : Nat) : Keeps s (s.kmalloc size).2 := by
  refine ⟨kmalloc_frame s size, fun q o hq _ => ?_⟩
  rcases hk : s.kmalloc size with ⟨p, r⟩
  by_cases hp : p = 0
  · subst hp
    have hheap := kmalloc_null hk
    unfold obj at hq ⊢
    rwa [hheap]
  · obtain ⟨hdead, -, hrest⟩ := kmalloc_block hk hp
    have hqp : q ≠ p := by
      rintro rfl
      rw [hdead] at hq
      cases hq
    unfold obj at hq ⊢
    rwa [hrest q hqp]

theorem includes_kmalloc (h : s.Includes m) (size : Nat) : (s.kmalloc size).2.Includes m := by
  intro q e hq
  have hobj := entries_eq_some.1 (h q e hq)
  rcases hk : s.kmalloc size with ⟨p, r⟩
  rw [entries_eq_some]
  by_cases hp : p = 0
  · subst hp
    have hheap := kmalloc_null hk
    unfold obj at hobj ⊢
    rwa [hheap]
  · obtain ⟨hdead, -, hrest⟩ := kmalloc_block hk hp
    have hqp : q ≠ p := by
      rintro rfl
      rw [hdead] at hobj
      cases hobj
    unfold obj at hobj ⊢
    rwa [hrest q hqp]

theorem StandsIn.allocateBlocks (h : StandsIn s m t) (sizes : List Nat) :
    StandsIn (s.allocateBlocks sizes) m t := by
  induction sizes generalizing s with
  | nil => exact h
  | cons n sizes ih => exact ih (h.kept (keeps_kmalloc s n) (includes_kmalloc h.part n))

/-- **`kvfs_open` of an absolute path, where nothing is created**, opens a new node of an entry of
the tree, or none. -/
theorem kvfsOpen_part (hs : StandsIn s m t) {path : CString}
    (habs : kvfsIsAbsolutePath path = true) {flags : Nat}
    (hflags : flagSet flags KVFS_O_CREAT = false) (mode : Nat) :
    ∃ q r, s.kvfsOpen path flags mode = some (q, r) ∧ r.entries = s.entries ∧ Keeps s r ∧
      (q ≠ 0 → ∃ x, r.obj q = some (.node (newNode x)) ∧ ∃ e, m x = some e) := by
  have hroot : s.obj s.kvfsRootMountDir ≠ none := by simp [hs.root]
  have hstart : s.startNode path = s.kvfsRootMountDir := by simp [startNode, habs]
  obtain ⟨parent, r₁, hresolve, hopen, -, -, hparent, -⟩ :=
    kvfsResolveParentFrom_part hs.tree hs.part hroot (by rw [hstart]; exact hs.root)
      hs.root_entry
  by_cases hp0 : parent = 0
  · exact ⟨0, r₁, by simp [kvfsOpen, hresolve, hp0], hopen.entries, hopen.keeps,
      fun h => absurd rfl h⟩
  have htemp : Temp s parent := by
    rcases hparent hp0 with htemp | ⟨-, -, hrel, -⟩
    · exact htemp
    · rw [habs] at hrel
      cases hrel
  obtain ⟨hnode, e, he⟩ := hopen.node hp0
  obtain ⟨e', he'⟩ := walkTree_mem hs.tree hs.root_entry (ne_zero_of_obj (entries_eq_some.1 he))
  have hinc : r₁.Includes m := fun q e hq => by rw [hopen.entries, hs.part q e hq]
  have hstat := kvfsGetStat_refers (refers_newNode hnode)
    (entries_eq_some.1 (hinc _ e' he'))
  obtain ⟨q, r₂, hopenNode, hent, hq, -, -, hkeeps⟩ :=
    openNode_part hs.tree hinc hnode ⟨e', he'⟩ (lastName path) flags
  have hcreat : r₁.openCreat parent e'.stat (lastName path) flags mode = some (true, r₁) := by
    simp [openCreat, hflags]
  refine ⟨q, r₂, by simp [kvfsOpen, hresolve, hp0, hstat, hcreat, hopenNode],
    hent.trans hopen.entries, hkeeps s hopen.keeps (Or.inl htemp), fun hq0 => ?_⟩
  obtain ⟨-, hfind, hnode'⟩ := hq hq0
  exact ⟨_, hnode', hs.tree.findIn_mem hfind⟩

/-- A new descriptor of a node of the tree. -/
theorem kfdCreateForProcess_inTree (hs : StandsIn s m t) {proc : Nat} (hin : InTree s m proc)
    {q x : Ptr} (hx : s.obj q = some (.node (newNode x))) (he : ∃ e, m x = some e) (flags : Nat) :
    StandsIn (s.kfdCreateForProcess proc q flags).2 m t ∧
      InTree (s.kfdCreateForProcess proc q flags).2 m proc := by
  rcases kfdCreateForProcess_spec s proc flags (ne_zero_of_obj hx) with
    ⟨r, -, hcall, hk, hobj⟩ | ⟨fd, p, r, hcall, hdesc⟩
  · rw [hcall]
    have hent : r.entries = s.entries := entries_congr fun q e => by rw [hobj]
    exact ⟨hs.kept hk fun q e hq => by rw [hent, hs.part q e hq], hin.kept hk⟩
  · rw [hcall]
    have hk := hdesc.keeps
    have hent : r.entries = s.entries :=
      entries_update hdesc.obj (by simp [hdesc.dead]) (by simp)
    have hr : StandsIn r m t := hs.kept hk fun q e hq => by rw [hent, hs.part q e hq]
    refine ⟨⟨hr.tree, hr.part, hr.root⟩, fun i hi => ?_⟩
    by_cases hfd : i = fd
    · subst hfd
      exact ⟨_, x, hdesc.made, hk.other _ _ hx (by simp), he⟩
    · have hfds : (r.setFd proc fd p).fds proc i = r.fds proc i := by simp [setFd, hfd]
      rw [hfds] at hi ⊢
      exact hin.kept hk i hi

/-- One of the opens keeps the descriptors on entries of the tree. -/
theorem kfdOpen_inTree (hs : StandsIn s m t) {proc : Nat} (hin : InTree s m proc) (path : CString)
    (habs : kvfsIsAbsolutePath path = true) (flags : Nat)
    (hflags : flagSet flags KVFS_O_CREAT = false) (mode : Nat) :
    ∃ n r, s.kfdOpen proc path flags mode = some (n, r) ∧ StandsIn r m t ∧ InTree r m proc := by
  obtain ⟨q, r, hopen, hent, hkeeps, hq⟩ := kvfsOpen_part hs habs hflags mode
  have hr : StandsIn r m t := hs.kept hkeeps fun q e hq => by rw [hent, hs.part q e hq]
  by_cases hq0 : q = 0
  · exact ⟨KFD_ERROR, r, by simp [kfdOpen, hopen, hq0], hr, hin.kept hkeeps⟩
  · obtain ⟨x, hx, he⟩ := hq hq0
    exact ⟨(r.kfdCreateForProcess proc q flags).1, (r.kfdCreateForProcess proc q flags).2,
      by simp [kfdOpen, hopen, hq0], kfdCreateForProcess_inTree hr (hin.kept hkeeps) hx he flags⟩

/-- **The descriptors of a new process are open on entries of the tree.** -/
theorem kprocessAttachStdStreams_inTree (hs : StandsIn s m t) {proc : Nat} (hin : InTree s m proc) :
    ∃ r, s.kprocessAttachStdStreams proc = some r ∧ StandsIn r m t ∧ InTree r m proc := by
  obtain ⟨n₀, s₀, hopen₀, hs₀, hin₀⟩ :=
    kfdOpen_inTree hs hin (devicePath stdinName) rfl KVFS_O_RDONLY rfl 0
  obtain ⟨n₁, s₁, hopen₁, hs₁, hin₁⟩ :=
    kfdOpen_inTree hs₀ hin₀ (devicePath stdoutName) rfl KVFS_O_WRONLY rfl 0
  obtain ⟨n₂, s₂, hopen₂, hs₂, hin₂⟩ :=
    kfdOpen_inTree hs₁ hin₁ (devicePath stderrName) rfl KVFS_O_WRONLY rfl 0
  simp only [kprocessAttachStdStreams, hopen₀, hopen₁, hopen₂, Option.bind_eq_bind,
    Option.bind_some, Option.pure_def]
  split_ifs
  · exact ⟨s₀, rfl, hs₀, hin₀⟩
  · exact ⟨s₁, rfl, hs₁, hin₁⟩
  · exact ⟨s₂, rfl, hs₂, hin₂⟩

/-- The process is created: its streams are attached as far as they can be opened. -/
theorem kprocessCreateKernel_inTree (hs : StandsIn s m t) (proc : Nat) (sizes : List Nat) :
    ∃ r, s.kprocessCreateKernel proc sizes = some r ∧ StandsIn r m t ∧ InTree r m proc := by
  have hnew := hs.allocateBlocks sizes
  have hempty : StandsIn { s.allocateBlocks sizes with
      fds := fun p fd => if p = proc then 0 else (s.allocateBlocks sizes).fds p fd } m t :=
    ⟨hnew.tree, hnew.part, hnew.root⟩
  exact kprocessAttachStdStreams_inTree hempty fun fd hfd => by simp at hfd

/-! ## The streams -/

/-- The descriptor is open, with the access, on the character device of the name. -/
def OpenOnDevice (s : Fs) (proc fd requiredAccess : Nat) (name : CString) : Prop :=
  ∃ d x e, s.obj (s.fds proc fd) = some (.desc d) ∧ s.Refers d.node x ∧
    s.entries x = some e ∧ kvfsStatIsChr e.stat.mode = true ∧ e.name = name ∧
    kfdCheckAccess d requiredAccess = true

/-- The process has its three streams. -/
structure StdStreams (s : Fs) (proc : Nat) : Prop where
  stdin : OpenOnDevice s proc KSTDIN_FILENO KFD_ACCESS_READ stdinName
  stdout : OpenOnDevice s proc KSTDOUT_FILENO KFD_ACCESS_WRITE stdoutName
  stderr : OpenOnDevice s proc KSTDERR_FILENO KFD_ACCESS_WRITE stderrName

/-- A descriptor that is open on an entry of the tree is open on no device. -/
theorem InTree.not_openOnDevice {proc : Nat} (h : InTree s m proc) (hs : StandsIn s m t)
    (fd requiredAccess : Nat) (name : CString) :
    ¬ OpenOnDevice s proc fd requiredAccess name := by
  rintro ⟨d, x, e, hd, ⟨n, hn, -, hpriv⟩, he, hchr, -⟩
  obtain ⟨d', x', hd', hx', e', he'⟩ := h fd (ne_zero_of_obj hd)
  obtain rfl : d' = d := by simpa [hd] using hd'.symm
  obtain rfl : newNode x' = n := by simpa [hx'] using hn
  obtain rfl : x' = x := hpriv
  obtain rfl : e = e' := by simpa [hs.part _ _ he'] using he.symm
  rcases hs.tree.kind _ _ he' with ⟨hdir, -⟩ | ⟨hreg, -⟩
  · rw [isChr_of_isDir hdir] at hchr
    cases hchr
  · rw [isChr_of_isReg hreg] at hchr
    cases hchr

/-- **No process has its standard streams**, whatever image the kernel has booted from: a process
created after the boot has none of its descriptors open on a device. -/
theorem std_streams_never_open (hraw : NoRecords s) (hfds : ∀ proc fd, s.fds proc fd = 0)
    {image : List UInt8} (hboot : s.kfsInit image = some (true, r)) (proc : Nat)
    (sizes : List Nat) :
    ∃ r', r.kprocessCreateKernel proc sizes = some r' ∧ ¬ StdStreams r' proc ∧
      ∀ fd requiredAccess name, ¬ OpenOnDevice r' proc fd requiredAccess name := by
  obtain ⟨m, t, hs⟩ := kfsInit_standsIn hraw hfds hboot
  obtain ⟨r', hcreate, hs', hin⟩ := kprocessCreateKernel_inTree hs proc sizes
  exact ⟨r', hcreate, fun h => hin.not_openOnDevice hs' _ _ _ h.stdin, hin.not_openOnDevice hs'⟩

/-- The heap before the boot. -/
def bootHeap : Fs := ⟨[], 0, 0, fun _ _ => 0, fun _ => true, fun _ => 0⟩

theorem noRecords_bootHeap : NoRecords bootHeap := by
  intro p o h
  cases h

theorem kfsInit_endEntry : ∃ r, bootHeap.kfsInit endEntry = some (true, r) := by
  have hrun : (bootHeap.kfsInit endEntry).map Prod.fst = some true := by decide +kernel
  obtain ⟨⟨ok, r⟩, hboot, rfl⟩ := Option.map_eq_some_iff.1 hrun
  exact ⟨r, hboot⟩

theorem std_streams_never_open_empty :
    ∃ r r', bootHeap.kfsInit endEntry = some (true, r) ∧
      r.kprocessCreateKernel 0 [256, 128, 2048] = some r' ∧ ¬ StdStreams r' 0 := by
  obtain ⟨r, hboot⟩ := kfsInit_endEntry
  obtain ⟨r', hcreate, hnot, -⟩ :=
    std_streams_never_open noRecords_bootHeap (fun _ _ => rfl) hboot 0 [256, 128, 2048]
  exact ⟨r, r', hboot, hcreate, hnot⟩

/-- **The kernel process starts without descriptors** after a boot from an empty archive: `"/dev"` is
no directory of the root, and the open of `"/dev/stdin"` fails. -/
theorem kernel_process_without_streams :
    ∃ r r', bootHeap.kfsInit endEntry = some (true, r) ∧
      r.kprocessCreateKernel 0 [256, 128, 2048] = some r' ∧
      (r'.fds 0 0 = 0 ∧ r'.fds 0 1 = 0 ∧ r'.fds 0 2 = 0) ∧ ¬ StdStreams r' 0 := by
  obtain ⟨r, hboot⟩ := kfsInit_endEntry
  have hrun : ((bootHeap.kfsInit endEntry).bind fun (_, r) =>
      r.kprocessCreateKernel 0 [256, 128, 2048]).map (fun r' => (r'.fds 0 0, r'.fds 0 1, r'.fds 0 2)) =
        some (0, 0, 0) := by decide +kernel
  rw [hboot, Option.bind_some] at hrun
  obtain ⟨r', hcreate, hfds⟩ := Option.map_eq_some_iff.1 hrun
  simp only [Prod.mk.injEq] at hfds
  refine ⟨r, r', hboot, hcreate, hfds, fun h => ?_⟩
  obtain ⟨d, -, -, hd, -⟩ := h.stdin
  exact ne_zero_of_obj hd hfds.1

end Fs

end DelOs
