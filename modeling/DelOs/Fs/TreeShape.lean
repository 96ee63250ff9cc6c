import DelOs.Fs.Names
import DelOs.Fs.TreeRuns

/-!
# The shape of the tree over a run

The entries in use make up one tree in every state, with proper names and counted links, as long as
no call takes the working directory or an entry in use away.

* `UsesLive` — the holders refer to entries in use.
* `UsedStay`, `CwdStays` — the call removes no entry in use; it does not close the node of the
  working directory.
* `WellFormed` — the tree, its names and its links.
* `well_formed_of_run`, `renamed_twice` — **a run keeps them**; and a run that closes the working
  directory and gives two files one name.
-/

namespace DelOs

open Transition

namespace Fs

variable {s r : Fs} {t t' : OrderedTree Ptr} {gone fresh : Ptr}

/-! ## Entries in use -/

/-- The entries to which the working directory and the descriptors refer have not been freed. -/
def UsesLive (s : Fs) : Prop := ∀ x, s.InUse x → ∃ e, s.entries x = some e

/-- The entry of the working directory is there for a walk to start at. -/
theorem UsesLive.startsInUse (hl : UsesLive s) (h : Mounted s t) (path : CString) :
    StartsInUse s path := by
  obtain ⟨f, hf⟩ := h.cwd
  obtain ⟨e, he⟩ := hl f (Or.inl hf)
  have hpriv : (newNode f).priv = f := rfl
  right
  rw [nodeAt_of_obj hf]
  simp [hpriv, he]

/-- A call that removes no entry in use leaves the holders with entries in use. -/
theorem UsesLive.effect (hl : UsesLive s) (h : Effect s r t t' gone fresh)
    (hstay : ∀ x, s.InUse x → s.entries x ≠ none → r.entries x ≠ none) : UsesLive r := by
  intro x hx
  rcases h.uses x hx with hold | hnew
  · obtain ⟨e, he⟩ := hl x hold
    exact Option.ne_none_iff_exists'.1 (hstay x hold (by simp [he]))
  · exact hnew

theorem Fresh.usesLive {f : Ptr} (h : Fresh s f) : UsesLive s := by
  rintro x (hx | ⟨p, i, d, hd, -⟩)
  · rw [h.cwd, h.stands.root] at hx
    obtain rfl : (OrderedTree.single f).root = x := by simpa [newNode] using hx
    exact (h.stands.tree.mem _).1 (OrderedTree.root_mem _)
  · rw [h.fds] at hd
    exact absurd rfl (ne_zero_of_obj hd)

/-! ## Runs -/

/-- The call removes no entry to which the working directory or a descriptor refers. -/
def UsedStay (s : Fs) (i : Input) : Prop :=
  ∀ r, step s i = some r → ∀ x, s.InUse x → s.entries x ≠ none → r.entries x ≠ none

/-- A call by path that gets the memory it asks for, and removes no entry in use. -/
structure TreeCall (s : Fs) (i : Input) : Prop where
  onTree : i.call.onTree = true
  granted : ∀ k, i.pages k = true
  unused : UsedStay s i

/-- The call does not close the node of the working directory. -/
def CwdStays (s : Fs) (i : Input) : Prop :=
  ∀ o ∈ i.call.opens?, (s.withInput i).KeepsCwd o.1 o.2

instance (s : Fs) (i : Input) : Decidable (CwdStays s i) :=
  inferInstanceAs (Decidable (∀ o ∈ i.call.opens?, (s.withInput i).KeepsCwd o.1 o.2))

/-- The entries in use are the nodes of the tree `t`: each one is listed by its parent alone, only
directories list any, and the links of a directory are two and one for each child.  The names in a
directory are distinct, and such as an entry may have. -/
structure WellFormed (s : Fs) (t : OrderedTree Ptr) : Prop where
  stands : Stands s t
  named : WellNamed s.entries t

/-- What a run keeps. -/
structure TreeInv (s : Fs) (t : OrderedTree Ptr) : Prop where
  mounted : Mounted s t
  named : WellNamed s.entries t
  live : UsesLive s

theorem Fresh.treeInv {f : Ptr} (h : Fresh s f) : TreeInv s (OrderedTree.single f) :=
  ⟨h.mounted, wellNamed_single _ _, h.usesLive⟩

/-- One call keeps the shape of the tree. -/
theorem TreeInv.step (h : TreeInv s t) {i : Input} (hi : TreeCall s i) (hcwd : CwdStays s i) :
    ∃ r t', step s i = some r ∧ TreeInv r t' := by
  have hmounted := h.mounted.withInput i
  have hlive : UsesLive (s.withInput i) := h.live
  have hok : CallOk (s.withInput i) i.call :=
    ⟨fun path _ => hlive.startsInUse hmounted path, hcwd⟩
  obtain ⟨result, r, t', gone, fresh, hdone, heffect, -⟩ :=
    call_effect hmounted i.proc hi.onTree hok
  have hstep : Fs.step s i = some r := by simp [Fs.step, stepResult, hdone]
  have hentries : (s.withInput i).entries = s.entries := rfl
  have hchange := heffect.change
  rw [hentries] at hchange
  exact ⟨r, t', hstep, heffect.mounted,
    h.named.change h.mounted.stands.tree hchange hi.granted, hlive.effect heffect (hi.unused r hstep)⟩

/-- A run keeps the shape of the tree. -/
theorem treeInv_of_run (hs : FreshMount s) {is : List Input}
    (hcalls : Admissible step TreeCall s is) (hcwd : Admissible step CwdStays s is) :
    ∃ r t, run step s is = some r ∧ TreeInv r t := by
  obtain ⟨f, hfresh⟩ := hs.stands
  obtain ⟨r, hrun, t, ht⟩ := run_total (P := fun r => ∃ t, TreeInv r t)
    (fun r i ⟨_, hr⟩ hi => by
      obtain ⟨r', t', hstep, hr'⟩ := hr.step hi.1 hi.2
      exact ⟨r', hstep, t', hr'⟩) ⟨_, hfresh.treeInv⟩ (hcalls.and hcwd)
  exact ⟨r, t, hrun, ht⟩

/-- **The tree stays well formed** in every run in which no call closes the working directory. -/
theorem well_formed_of_run (hs : FreshMount s) {is : List Input}
    (hcalls : Admissible step TreeCall s is) (hcwd : Admissible step CwdStays s is) :
    ∃ r t, run step s is = some r ∧ WellFormed r t := by
  obtain ⟨r, t, hrun, ht⟩ := treeInv_of_run hs hcalls hcwd
  exact ⟨r, t, hrun, ht.mounted.stands, ht.named⟩

/-! ## Runs without removals -/

/-- The call removes no entry at all. -/
def keepsEntries (s : Fs) (i : Input) : Bool :=
  (step s i).all fun r => (List.range (s.heap.length + 1)).all fun q =>
    (s.entries q).isNone || (r.entries q).isSome

theorem usedStay_of_keepsEntries {i : Input} (h : keepsEntries s i = true) : UsedStay s i := by
  intro r hr x _ hx hgone
  have hbound : x < s.heap.length + 1 :=
    Nat.lt_succ_of_le (Nat.le_of_not_lt fun hlt => hx (entries_of_length_lt hlt))
  rw [keepsEntries, hr, Option.all_some] at h
  have hkept := List.all_eq_true.1 h x (List.mem_range.2 hbound)
  simp only [hgone, Option.isSome_none, Bool.or_false, Option.isNone_iff_eq_none] at hkept
  exact hx hkept

/-- The calls of the first process, with all the memory there is, remove nothing. -/
theorem treeCalls {cs : List Call}
    (h : Admissible step (fun s i => i.call.onTree = true ∧ keepsEntries s i = true) s
      (cs.map plainInput)) : Admissible step TreeCall s (cs.map plainInput) := by
  have hgranted : Admissible step (fun _ i => ∀ k, i.pages k = true) s (cs.map plainInput) := by
    refine admissible_of_mem fun i hi _ k => ?_
    obtain ⟨c, -, rfl⟩ := List.mem_map.1 hi
    rfl
  exact (h.and hgranted).mono fun s i hi => ⟨hi.1.1, hi.2, usedStay_of_keepsEntries hi.1.2⟩

/-- A directory and a file in it. -/
theorem well_formed_of_run_two : ∃ r t, run step mountedRoot
    ([.kmkdir [slash, 0x64], .kfdOpen [slash, 0x64, slash, 0x66] 0x40 0].map plainInput) = some r ∧
      WellFormed r t :=
  well_formed_of_run freshMount_mountedRoot (treeCalls (by decide +kernel)) (by decide +kernel)

/-- `e` and `f` are created in the root, each before an attempt to open a file that is not there in
the working directory: the first one frees the node of the working directory, in the block of which
the entry of `f` is made, and the second one counts a reference of that node down, which is the
first letter of a name by then. -/
def renamingCalls : List Input :=
  [.kmkdir [slash, 0x64], .kvfsChdir [slash, 0x64], .kfdOpen [slash, 0x65] 0x40 0,
    .kfdOpen [0x6e] 0 0, .kfdOpen [slash, 0x66] 0x40 0, .kfdOpen [0x7a] 0 0].map plainInput

/-- **Two entries of the root get one name.** -/
theorem renamed_twice : FreshMount mountedRoot ∧ Admissible step TreeCall mountedRoot renamingCalls ∧
    ∃ r, run step mountedRoot renamingCalls = some r ∧ ¬∃ t, WellFormed r t := by
  have hmade : (run step mountedRoot renamingCalls).any (fun r =>
      decide (r.obj r.kvfsRootMountDir = some (.node (newNode 1))) &&
        (r.entries 4).any (fun e => decide (e.parent = 1)) &&
        (r.entries 5).any (fun e => decide (e.parent = 1)) &&
        decide (nameOf r.entries 4 = nameOf r.entries 5)) = true := by decide +kernel
  obtain ⟨r, hrun, hr⟩ := (Option.any_eq_true _ _).1 hmade
  simp only [Bool.and_eq_true, decide_eq_true_eq, Option.any_eq_true] at hr
  obtain ⟨⟨⟨hroot, e, he, hparent⟩, e', he', hparent'⟩, hname⟩ := hr
  refine ⟨freshMount_mountedRoot, treeCalls (by decide +kernel), r, hrun, ?_⟩
  rintro ⟨t, hwell⟩
  have ht : t.root = 1 := by
    have hnode := hwell.stands.root
    rw [hroot] at hnode
    simpa [newNode, eq_comm] using hnode
  have htree := hwell.stands.tree
  -- both are children of the root
  have hkid : ∀ {q e}, r.entries q = some e → e.parent = 1 → q ≠ 1 → q ∈ t.kids 1 := by
    intro q e hq hp hne
    have hparent := htree.parent q e hq
    rw [ht, if_neg hne, hp] at hparent
    rw [hparent]
    exact t.listed ((htree.mem q).2 ⟨e, hq⟩) (by rwa [ht])
  have heq := hwell.named.distinct 1 4 5 (hkid he hparent (by decide)) (hkid he' hparent' (by decide))
    hname
  exact absurd heq (by decide)

end Fs

end DelOs
