import DelOs.Fs.Nodes
import DelOs.Lib.Ends

/-!
# Operations on entries

What creates or removes an entry stores entries, takes a block for one and gives it back, and does
nothing else, whatever the entry and whether it succeeds or not.

* `EntrySteps` — a property that those steps keep.
* `EntrySteps.openMake` — **creating a file or a directory keeps it**; `EntrySteps.ktmpfsUnlink` and
  `EntrySteps.ktmpfsRmdir`: **so does removing one**.
* `entrySteps_newNodes` — nodes are made by lookups only: none is in use behind such an operation
  that was not in use before.
-/

namespace DelOs

open FirstFit

namespace Fs

/-! ## Properties that entries do not concern -/

/-- A property that storing an entry keeps, and so do taking a block for one and giving it back. -/
structure EntrySteps (I : Fs → Prop) : Prop where
  put : ∀ {s : Fs} (p : Ptr) (e : TmpfsEntry), I s → I (s.put p (.entry e))
  kfree : ∀ {s : Fs} (p : Ptr), I s → I (s.kfree p)
  kcallocEntry : ∀ {s : Fs}, I s → I s.kcallocEntry.2

namespace EntrySteps

variable {I : Fs → Prop} {s : Fs}

theorem ktmpfsCreateEntry (hI : EntrySteps I) (h : I s) (parent : Ptr) (name : CString)
    (mode : Nat) : Ends (s.ktmpfsCreateEntry parent name mode) (I ·.2) := by
  have hnew := hI.kcallocEntry h
  refine ends_guard h fun _ => ?_
  apply ends_read
  intro dir _
  refine ends_guard h fun _ => ?_
  refine ends_guard hnew fun _ => ?_
  apply ends_read
  intro _ _
  apply ends_read
  intro _ _
  apply ends_read
  intro _ _
  exact ends_some (hI.put _ _ (hI.put _ _ (hI.put _ _ hnew)))

theorem incNlink (hI : EntrySteps I) (h : I s) (parent : Ptr) : Ends (s.incNlink parent) I := by
  apply ends_read
  intro n _
  apply ends_read
  intro dir _
  exact ends_some (hI.put _ _ h)

/-- What `ktmpfs_create` and `ktmpfs_mkdir` share: an entry, and one more link of its parent. -/
theorem createLinked (hI : EntrySteps I) (h : I s) (parent d : Ptr) (name : CString) (mode : Nat) :
    Ends ((s.ktmpfsCreateEntry d name mode).bind fun (entry, s) =>
      if entry = 0 then some (false, s) else (s.incNlink parent).bind fun s => some (true, s))
      (I ·.2) := by
  apply (hI.ktmpfsCreateEntry h d name mode).bind
  rintro ⟨entry, r⟩ hr
  refine ends_guard hr fun _ => ?_
  exact (hI.incNlink hr parent).bind fun _ hr => ends_some hr

/-- What `kvfs_create` and `kvfs_mkdir` share: they look at the permissions of the parent first. -/
theorem makeIn (hI : EntrySteps I) (h : I s) (parent : Ptr) (name : CString) (mode : Nat)
    (refused : VfsStat → Prop) [DecidablePred refused] :
    Ends ((s.kvfsGetStat parent).bind fun
      | none => some (false, s)
      | some st =>
        if refused st then some (false, s)
        else if parent = 0 then some (false, s)
        else (s.nodeAt parent).bind fun n =>
          (s.ktmpfsCreateEntry n.priv name mode).bind fun (entry, s) =>
            if entry = 0 then some (false, s)
            else (s.incNlink parent).bind fun s => some (true, s)) (I ·.2) := by
  apply ends_read
  intro st _
  cases st with
  | none => exact ends_some h
  | some st =>
    refine ends_guard h fun _ => ?_
    refine ends_guard h fun _ => ?_
    exact ends_read fun _ _ => hI.createLinked h _ _ _ _

theorem kvfsCreate (hI : EntrySteps I) (h : I s) (parent : Ptr) (name : CString) (mode : Nat) :
    Ends (s.kvfsCreate parent name mode) (I ·.2) :=
  hI.makeIn h parent name _ fun st => kvfsStatCanWrite st Cred.root = false

theorem kvfsMkdir (hI : EntrySteps I) (h : I s) (parent : Ptr) (name : CString) (mode : Nat) :
    Ends (s.kvfsMkdir parent name mode) (I ·.2) :=
  hI.makeIn h parent name _ fun st =>
    kvfsStatCanWrite st Cred.root = false ∨ kvfsStatCanExec st Cred.root = false

/-- **Creating a file or a directory.** -/
theorem openMake (hI : EntrySteps I) (h : I s) (parent : Ptr) (name : CString) (flags mode : Nat) :
    Ends (s.openMake parent name flags mode) (I ·.2) :=
  ends_ite (fun _ => hI.kvfsMkdir h parent name mode) fun _ => hI.kvfsCreate h parent name mode

theorem unlinkChild (hI : EntrySteps I) (h : I s) (parent prev next : Ptr) :
    Ends (s.unlinkChild parent prev next) I := by
  have hput (x : Option TmpfsEntry) (p : Ptr) (f : TmpfsEntry → TmpfsEntry) :
      Ends (x.map fun dir => s.put p (.entry (f dir))) I :=
    Ends.map (Q := fun _ => True) ⟨fun _ _ => trivial⟩ fun dir _ => hI.put p (f dir) h
  exact ends_ite (fun _ => hput _ _ _) fun _ => hput _ _ _

theorem ktmpfsRemoveFromParentLl (hI : EntrySteps I) (h : I s) (parent entry : Ptr) :
    Ends (s.ktmpfsRemoveFromParentLl parent entry) (I ·.2) := by
  refine ends_guard h fun _ => ?_
  apply ends_read
  intro dir _
  apply ends_read
  rintro ⟨prev, tmp⟩ _
  refine ends_guard h fun _ => ?_
  apply ends_read
  intro e _
  apply (hI.unlinkChild h parent prev e.next).bind
  intro r hr
  apply ends_read
  intro dir _
  exact ends_some (hI.put _ _ (hI.kfree tmp hr))

/-- **Removing a file.** -/
theorem ktmpfsUnlink (hI : EntrySteps I) (h : I s) (node : Ptr) :
    Ends (s.ktmpfsUnlink node) (I ·.2) := by
  refine ends_guard h fun _ => ?_
  apply ends_read
  intro n _
  refine ends_guard h fun _ => ?_
  apply ends_read
  intro e _
  exact ends_guard h fun _ => hI.ktmpfsRemoveFromParentLl h _ _

/-- **Removing a directory.** -/
theorem ktmpfsRmdir (hI : EntrySteps I) (h : I s) (node : Ptr) :
    Ends (s.ktmpfsRmdir node) (I ·.2) := by
  refine ends_guard h fun _ => ?_
  apply ends_read
  intro n _
  refine ends_guard h fun _ => ?_
  apply ends_read
  intro e _
  exact ends_guard h fun _ => ends_guard h fun _ => hI.ktmpfsRemoveFromParentLl h _ _

end EntrySteps

/-! ## Nodes -/

variable {s r : Fs}

theorem newNodes_putEntry (s : Fs) (p : Ptr) (e : TmpfsEntry) :
    NewNodes s (s.put p (.entry e)) 0 := by
  by_cases hp : s.obj p = none
  · have hput := obj_put_dead hp (.entry e)
    exact fun q n hq => Or.inr ⟨n, by rw [← hput, hq]⟩
  · exact newNodes_update_other (obj_put hp (.entry e)) (by simp)

theorem newNodes_kfree (s : Fs) (p : Ptr) : NewNodes s (s.kfree p) 0 :=
  newNodes_update_other (obj_kfree s p) (by simp)

/-- An allocation changes one block. -/
theorem Alloc.newNode {p : Ptr} {o : Obj} (h : Alloc s r p o) : NewNodes s r p := by
  rcases h.made with ⟨-, hobj, -⟩ | ⟨-, -, hobj⟩
  · exact fun q n hq => Or.inr ⟨n, by rw [← hobj, hq]⟩
  · exact newNodes_update hobj

/-- An allocation makes a node only where one is stored in its block. -/
theorem Alloc.newNodes {p : Ptr} {o : Obj} (h : Alloc s r p o) (ho : ∀ n, o ≠ .node n) :
    NewNodes s r 0 := by
  rcases h.made with ⟨-, hobj, -⟩ | ⟨-, -, hobj⟩
  · exact fun q n hq => Or.inr ⟨n, by rw [← hobj, hq]⟩
  · exact newNodes_update_other hobj (by simpa using ho)

/-- **No operation on entries makes a node.** -/
theorem entrySteps_newNodes (s : Fs) : EntrySteps (NewNodes s · 0) where
  put p e h := h.trans (newNodes_putEntry _ p e)
  kfree p h := h.trans (newNodes_kfree _ p)
  kcallocEntry {t} h := by
    have hsize : 0 < sizeofTmpfsEntry ∧ sizeofTmpfsEntry ≤ 2 ^ 29 := by decide
    have halloc : Alloc t t.kcallocEntry.2 t.kcallocEntry.1 (.entry TmpfsEntry.zero) :=
      new_alloc hsize.1 hsize.2 rfl
    exact h.trans (halloc.newNodes (by simp))

theorem kvfsCreate_newNodes {parent : Ptr} {name : CString} {mode : Nat} {made : Bool}
    (h : s.kvfsCreate parent name mode = some (made, r)) : NewNodes s r 0 :=
  ((entrySteps_newNodes s).kvfsCreate (NewNodes.refl s 0) parent name mode).result _ h

theorem kvfsMkdir_newNodes {parent : Ptr} {name : CString} {mode : Nat} {made : Bool}
    (h : s.kvfsMkdir parent name mode = some (made, r)) : NewNodes s r 0 :=
  ((entrySteps_newNodes s).kvfsMkdir (NewNodes.refl s 0) parent name mode).result _ h

theorem openMake_newNodes {parent : Ptr} {name : CString} {flags mode : Nat} {made : Bool}
    (h : s.openMake parent name flags mode = some (made, r)) : NewNodes s r 0 :=
  ((entrySteps_newNodes s).openMake (NewNodes.refl s 0) parent name flags mode).result _ h

theorem ktmpfsUnlink_newNodes {node : Ptr} {removed : Bool}
    (h : s.ktmpfsUnlink node = some (removed, r)) : NewNodes s r 0 :=
  ((entrySteps_newNodes s).ktmpfsUnlink (NewNodes.refl s 0) node).result _ h

theorem ktmpfsRmdir_newNodes {node : Ptr} {removed : Bool}
    (h : s.ktmpfsRmdir node = some (removed, r)) : NewNodes s r 0 :=
  ((entrySteps_newNodes s).ktmpfsRmdir (NewNodes.refl s 0) node).result _ h

end Fs

end DelOs
