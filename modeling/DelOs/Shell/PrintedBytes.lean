import DelOs.Shell.PathCommands
import DelOs.Tty.Prints

/-!
# Where the printed bytes come from

The file system invents no characters: what the commands print is made of the bytes of the paths
that they were given, and of the texts of the kernel.

* `PathFs.MadeOf` — every name and every file is made of some bytes.
* `Print.made` — so is a print.
* `PathFs.execute_made` — **a command keeps and prints such bytes**.
* `PathShell.round_made` — and so does the line.
-/

namespace DelOs

open Shell (bytesOf lineWords)

/-- Every byte of a string meets `P`. -/
def Made (P : UInt8 → Prop) (s : CString) : Prop := ∀ c ∈ s, P c

/-- The characters of the kernel's own texts. -/
def isPlain (c : UInt8) : Bool := 0x20 ≤ c && c ≤ 0x7e || c == 0x0a

variable {P : UInt8 → Prop}

/-- The texts of a print. -/
def Print.made (P : UInt8 → Prop) : Print → Prop
  | .log _ format args => Made P format ∧ ∀ arg ∈ args, Made P arg
  | .date => True
  | .puts text => Made P text
  | .putc c => P c

/-- Every print is made of such bytes. -/
def MadePrints (P : UInt8 → Prop) (prints : List Print) : Prop := ∀ print ∈ prints, print.made P

theorem madePrints_nil : MadePrints P [] := fun _ h => absurd h List.not_mem_nil

theorem madePrints_singleton {print : Print} (h : print.made P) : MadePrints P [print] :=
  List.forall_mem_singleton.2 h

theorem Made.append {s more : CString} (h : Made P s) (hmore : Made P more) : Made P (s ++ more) :=
  List.forall_mem_append.2 ⟨h, hmore⟩

theorem Made.of_all (hP : ∀ c, isPlain c = true → P c) {s : CString} (h : s.all isPlain = true) :
    Made P s := fun c hc => hP c (List.all_eq_true.1 h c hc)

theorem Made.subset {s t : CString} (h : Made P t) (hs : s ⊆ t) : Made P s :=
  fun c hc => h c (hs hc)

namespace PathFs

/-- **Every name, the working directory and every file are made of such bytes.** -/
structure MadeOf (P : UInt8 → Prop) (A : PathFs) : Prop where
  names : ∀ p, ∀ name ∈ A.list p, Made P name
  cwd : ∀ name ∈ A.cwd, Made P name
  bytes : ∀ p bytes, A.tree p = some (.file bytes) → Made P bytes

theorem MadeOf.empty : MadeOf P PathFs.empty := by
  refine ⟨fun p name h => absurd h List.not_mem_nil, fun name h => absurd h List.not_mem_nil, ?_⟩
  intro p bytes h
  simp only [PathFs.empty] at h
  split_ifs at h
  cases Option.some.inj h

/-! ## Paths -/

theorem components_made {path : CString} (h : Made P path) :
    ∀ name ∈ components path, Made P name := fun _ hname =>
  h.subset fun _ hc => Words.mem_of_mem_splitOnP (List.mem_of_mem_filter hname) hc

variable {A : PathFs}

/-- A walk leads to names that it started with, or was given. -/
theorem walk_made {here names p : List CString} (h : A.walk here names = some p)
    (hhere : ∀ name ∈ here, Made P name) (hnames : ∀ name ∈ names, Made P name) :
    ∀ name ∈ p, Made P name := by
  induction names generalizing here with
  | nil =>
    obtain rfl := Option.some.inj h
    exact hhere
  | cons name names ih =>
    obtain ⟨mid, hmid, hrest⟩ := Option.bind_eq_some_iff.1 h
    refine ih hrest ?_ fun n hn => hnames n (List.mem_cons_of_mem name hn)
    rw [PathTree.enter] at hmid
    split at hmid
    · split_ifs at hmid <;> obtain rfl := Option.some.inj hmid
      · exact hhere
      · exact fun n hn => hhere n (List.mem_of_mem_dropLast hn)
      · exact List.forall_mem_append.2
          ⟨hhere, List.forall_mem_singleton.2 (hnames name List.mem_cons_self)⟩
    · cases hmid

theorem MadeOf.start (h : A.MadeOf P) (path : CString) : ∀ name ∈ A.start path, Made P name := by
  unfold PathFs.start
  split_ifs
  · exact fun name hname => absurd hname List.not_mem_nil
  · exact h.cwd

theorem MadeOf.resolve (h : A.MadeOf P) {path : CString} (hpath : Made P path)
    {p : List CString} (hp : A.resolve path = some p) : ∀ name ∈ p, Made P name := by
  rw [PathFs.resolve] at hp
  split_ifs at hp
  exact walk_made hp (h.start path) (components_made hpath)

/-! ## The calls -/

theorem MadeOf.make (h : A.MadeOf P) {parent : List CString} {name : CString}
    (hname : Made P name) {n : PathNode (List UInt8)} (hn : ∀ bytes, n = .file bytes → bytes = []) :
    (A.make parent name n).MadeOf P := by
  refine ⟨fun p other hother => ?_, h.cwd, fun p bytes hp => ?_⟩
  · simp only [PathFs.make] at hother
    split_ifs at hother
    · rcases List.mem_cons.1 hother with rfl | hother
      · exact hname
      · exact h.names p other hother
    · cases hother
    · exact h.names p other hother
  · simp only [PathFs.make, Function.update_apply] at hp
    split_ifs at hp
    · rw [hn bytes (Option.some.inj hp)]
      exact fun c hc => absurd hc List.not_mem_nil
    · exact h.bytes p bytes hp

theorem MadeOf.openAt (h : A.MadeOf P) (hslash : P slash) {path : CString} (hpath : Made P path)
    (flags : Nat) : (A.openAt path flags).2.MadeOf P := by
  have hlast : Made P ((components path).getLastD [slash]) := by
    cases hc : components path using List.reverseRecOn with
    | nil => exact List.forall_mem_singleton.2 hslash
    | append_singleton front last =>
      rw [List.getLastD_concat]
      exact components_made hpath last (hc ▸ List.mem_append_right _ List.mem_cons_self)
  unfold PathFs.openAt
  split_ifs
  · exact h
  split
  · exact h
  · unfold PathFs.openNamed
    split
    · exact h
    · split_ifs
      · exact h.make hlast fun bytes hbytes => by cases hbytes
      · exact h.make hlast fun bytes hbytes => by cases hbytes; rfl
      · exact h

theorem MadeOf.remove (h : A.MadeOf P) (gone : Option (List CString)) :
    (A.remove gone).MadeOf P := by
  cases gone with
  | none => exact h
  | some q =>
    refine ⟨fun p name hname => ?_, h.cwd, fun p bytes hp => ?_⟩
    · simp only [PathFs.remove] at hname
      split_ifs at hname
      · exact h.names p name (List.mem_of_mem_filter hname)
      · exact h.names p name hname
    · simp only [PathFs.remove, PathTree.erase, Function.update_apply] at hp
      split_ifs at hp
      exact h.bytes p bytes hp

theorem MadeOf.krmdir (h : A.MadeOf P) (path : CString) : (A.krmdir path).2.MadeOf P := by
  unfold PathFs.krmdir
  split
  · exact h
  · exact h.remove _

/-! ## The commands -/

variable (hP : ∀ c, isPlain c = true → P c)

include hP

theorem kprintfError_made {text : String} (h : (bytesOf text).all isPlain = true) :
    MadePrints P (kprintfError text) :=
  madePrints_singleton ⟨Made.of_all hP h, fun _ harg => absurd harg List.not_mem_nil⟩

theorem kprintfErrorText_made {text : String} (h : (bytesOf text).all isPlain = true) :
    MadePrints P (kprintfErrorText text) :=
  madePrints_singleton ⟨Made.of_all hP (by decide),
    List.forall_mem_singleton.2 (Made.of_all hP h)⟩

theorem complains_made {ok : Bool} {text : String} (h : (bytesOf text).all isPlain = true) :
    MadePrints P (complains ok text).2 := by
  unfold complains
  split_ifs
  · exact madePrints_nil
  · exact kprintfError_made hP h

theorem MadeOf.ls (h : A.MadeOf P) (proc : Nat) (path : CString) :
    MadePrints P (A.ls proc path).2 := by
  unfold PathFs.ls
  split
  · exact kprintfError_made hP (by decide)
  · unfold PathFs.listing
    split_ifs
    · intro print hprint
      obtain ⟨name, hname, rfl⟩ := List.mem_map.1 hprint
      refine ⟨Made.of_all hP (by decide), List.forall_mem_cons.2 ⟨h.names _ name hname, ?_⟩⟩
      refine List.forall_mem_singleton.2 ?_
      split_ifs
      · exact Made.of_all hP (by decide)
      · exact fun c hc => absurd hc List.not_mem_nil
    · exact madePrints_nil

theorem MadeOf.cat (h : A.MadeOf P) (proc : Nat) {path : CString} (hpath : Made P path) :
    MadePrints P (A.cat proc path).2 := by
  unfold PathFs.cat
  split
  · exact kprintfError_made hP (by decide)
  · split
    · next p bytes hp =>
      split_ifs
      · exact madePrints_nil
      · refine List.forall_mem_append.2 ⟨List.forall_mem_cons.2
          ⟨⟨Made.of_all hP (by decide), List.forall_mem_singleton.2 hpath⟩,
            madePrints_singleton ?_⟩, ?_⟩
        · exact (h.bytes _ _ hp).subset (List.takeWhile_subset _)
        · split_ifs
          · exact madePrints_nil
          · exact madePrints_singleton (hP _ (by decide))
    · exact madePrints_nil

theorem joinNames_made {names : List CString} (h : ∀ name ∈ names, Made P name) :
    Made P (joinNames names) := by
  induction names with
  | nil => exact fun c hc => absurd hc List.not_mem_nil
  | cons name names ih =>
    have hrest := ih fun n hn => h n (List.mem_cons_of_mem name hn)
    have hname := h name List.mem_cons_self
    cases names with
    | nil => exact hname
    | cons next names => exact hname.append (List.forall_mem_cons.2 ⟨hP _ (by decide), hrest⟩)

theorem MadeOf.pwd (h : A.MadeOf P) : MadePrints P A.pwd.2 := by
  refine madePrints_singleton ⟨Made.of_all hP (by decide), List.forall_mem_singleton.2 ?_⟩
  have hjoined : Made P (joinedPath A.cwd) :=
    List.forall_mem_cons.2 ⟨hP _ (by decide), joinNames_made hP h.cwd⟩
  exact hjoined.subset (List.takeWhile_subset _)

theorem MadeOf.cd (h : A.MadeOf P) {path : CString} (hpath : Made P path) :
    (A.cd path).2.MadeOf P ∧ MadePrints P (A.cd path).1.2 := by
  refine ⟨?_, complains_made hP (by decide)⟩
  show (A.kvfsChdir path).2.MadeOf P
  unfold PathFs.kvfsChdir
  split
  · exact h
  · next p hp =>
    split_ifs
    · exact ⟨h.names, h.resolve hpath hp, h.bytes⟩
    · exact h

theorem MadeOf.kmkdir (h : A.MadeOf P) (proc : Nat) {path : CString} (hpath : Made P path) :
    (A.kmkdir proc path).2.MadeOf P := by
  have hopen := h.openAt (hP slash (by decide)) hpath
    (KVFS_O_CREAT ||| KVFS_O_DIRECTORY ||| KVFS_O_EXCL)
  unfold PathFs.kmkdir
  split_ifs
  · exact h
  · split
    · next heq =>
      rw [heq] at hopen
      exact hopen
    · next heq =>
      rw [heq] at hopen
      exact hopen

/-- **A command keeps and prints such bytes.** -/
theorem MadeOf.shellFunc (h : A.MadeOf P) {proc : Nat} {path : Option CString}
    (hpath : ∀ p ∈ path, Made P p) {func : ShellFunc} {y : (Nat × List Print) × PathFs}
    (hy : A.shellFunc proc path func = some y) : y.2.MadeOf P ∧ MadePrints P y.1.2 := by
  cases func <;> cases path <;> try cases hy
  case kshellLs.none => exact ⟨h, h.ls hP proc dotName⟩
  case kshellLs.some p => exact ⟨h, h.ls hP proc p⟩
  case kshellMkdir.none => exact ⟨h, kprintfError_made hP (by decide)⟩
  case kshellMkdir.some p => exact ⟨h.kmkdir hP proc (hpath p rfl), complains_made hP (by decide)⟩
  case kshellTouch.none => exact ⟨h, kprintfErrorText_made hP (by decide)⟩
  case kshellTouch.some p =>
    exact ⟨h.openAt (hP slash (by decide)) (hpath p rfl) _, complains_made hP (by decide)⟩
  case kshellCat.none => exact ⟨h, kprintfError_made hP (by decide)⟩
  case kshellCat.some p => exact ⟨h, h.cat hP proc (hpath p rfl)⟩
  case kshellUnlink.none => exact ⟨h, kprintfErrorText_made hP (by decide)⟩
  case kshellUnlink.some p => exact ⟨h.remove _, complains_made hP (by decide)⟩
  case kshellRmdir.none => exact ⟨h, kprintfErrorText_made hP (by decide)⟩
  case kshellRmdir.some p => exact ⟨h.krmdir p, complains_made hP (by decide)⟩
  case kshellPwd.none => exact ⟨h, h.pwd hP⟩
  case kshellPwd.some p => exact ⟨h, h.pwd hP⟩
  case kshellCd.none =>
    exact h.cd hP (List.forall_mem_singleton.2 (hP slash (by decide)))
  case kshellCd.some p => exact h.cd hP (hpath p rfl)

theorem MadeOf.execute (h : A.MadeOf P) {proc : Nat} {words : List CString}
    (hwords : ∀ word ∈ words, Made P word) {y : (Nat × List Print) × PathFs}
    (hy : A.execute proc words = some y) : y.2.MadeOf P ∧ MadePrints P y.1.2 := by
  cases words with
  | nil =>
    obtain rfl := Option.some.inj hy
    exact ⟨h, madePrints_nil⟩
  | cons name args =>
    have hargs : ∀ p ∈ args.head?, Made P p := fun p hp =>
      hwords p (List.mem_cons_of_mem name (List.mem_of_mem_head? hp))
    rw [PathFs.execute] at hy
    split at hy
    · exact h.shellFunc hP hargs hy
    · obtain rfl := Option.some.inj hy
      exact ⟨h, madePrints_singleton ⟨Made.of_all hP (by decide),
        List.forall_mem_singleton.2 (hwords name List.mem_cons_self)⟩⟩

end PathFs

/-! ## The characters -/

theorem filled_made {format : CString} {args : List CString} (hformat : Made P format)
    (hargs : ∀ arg ∈ args, Made P arg) : Made P (filled format args) := by
  induction format, args using filled.induct with
  | case1 args => exact hformat
  | case2 c args => exact hformat
  | case3 d format args ih =>
    have hrest : Made P format := hformat.subset fun x hx => by simp [hx]
    rw [filled, if_pos rfl]
    refine Made.append ?_ (ih hrest fun arg harg => hargs arg (List.mem_of_mem_tail harg))
    cases args with
    | nil => exact fun c hc => absurd hc List.not_mem_nil
    | cons arg args => exact hargs arg List.mem_cons_self
  | case4 c d format args hc ih =>
    rw [filled, if_neg hc]
    exact List.forall_mem_cons.2 ⟨hformat c List.mem_cons_self,
      ih (hformat.subset fun x hx => List.mem_cons_of_mem c hx) hargs⟩

/-- A digit is a plain character. -/
theorem digitChar_plain : ∀ i < 10, isPlain (digitChar false i) = true := by decide

theorem numeralChars_plain (n : Nat) : (numeralChars 10 false n).all isPlain = true := by
  refine List.all_eq_true.2 fun c hc => ?_
  obtain ⟨i, hi, rfl⟩ := List.mem_map.1 hc
  exact digitChar_plain i (Numerals.numeral_lt (by decide) hi)

theorem clockText_plain (clock : Tty.Clock) : clock.text.all isPlain = true := by
  have hsign : ∀ v : Int, (signChars v).all isPlain = true := fun v => by
    unfold signChars
    split_ifs <;> decide
  have hzeros : ∀ n, (List.replicate n (0x30 : UInt8)).all isPlain = true := fun n =>
    List.all_eq_true.2 fun c hc => by rw [List.eq_of_mem_replicate hc]; decide
  simp only [Tty.Clock.text, padLeft, if_true, List.all_append, hsign, hzeros, numeralChars_plain,
    Bool.and_true]
  decide

/-- The first components of coloured characters. -/
theorem forall_mem_colored {color : UInt8} {text : CString} (h : Made P text) :
    ∀ cell ∈ Tty.colored color text, P cell.1 := by
  intro cell hcell
  obtain ⟨c, hc, rfl⟩ := List.mem_map.1 hcell
  exact h c hc

theorem untilNul_made {s : CString} (h : Made P s) : Made P (untilNul s).1 :=
  h.subset (List.takeWhile_subset _)

/-- **The characters of a print are such bytes.** -/
theorem cells_made (hP : ∀ c, isPlain c = true → P c) (clock : Tty.Clock) {print : Print}
    (h : print.made P) : ∀ cell ∈ print.cells clock, P cell.1 := by
  have hdate : Made P clock.text := Made.of_all hP (clockText_plain clock)
  cases print with
  | log level format args =>
    have hlabel : Made P level.label.1 := by
      cases level <;> exact Made.of_all hP (by decide)
    have hargs : ∀ arg ∈ args.map fun s => (untilNul s).1, Made P arg := fun arg harg => by
      obtain ⟨s, hs, rfl⟩ := List.mem_map.1 harg
      exact untilNul_made (h.2 s hs)
    simp only [Print.cells, Tty.labelCells, List.forall_mem_append]
    exact ⟨⟨forall_mem_colored hdate, ⟨forall_mem_colored (Made.of_all hP (by decide)),
      forall_mem_colored hlabel⟩, forall_mem_colored (Made.of_all hP (by decide))⟩,
      forall_mem_colored ((filled_made h.1 hargs).append (Made.of_all hP (by decide)))⟩
  | date => exact forall_mem_colored hdate
  | puts text => exact forall_mem_colored (untilNul_made h)
  | putc c => exact List.forall_mem_singleton.2 h

theorem printCells_made (hP : ∀ c, isPlain c = true → P c) (clock : Nat → Tty.Clock)
    {prints : List Print} (h : MadePrints P prints) :
    ∀ cell ∈ printCells clock prints, P cell.1 := by
  induction prints generalizing clock with
  | nil => exact fun cell hcell => absurd hcell List.not_mem_nil
  | cons print prints ih =>
    exact List.forall_mem_append.2 ⟨cells_made hP _ (h print List.mem_cons_self),
      ih _ fun p hp => h p (List.mem_cons_of_mem print hp)⟩

end DelOs
