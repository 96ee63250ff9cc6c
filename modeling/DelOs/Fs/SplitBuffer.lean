import DelOs.Fs.Path

/-!
# The splitter in its buffers

`kvfs_split_path` of `src/kernel/fs/vfs/vfs_helper.c` with the memory that it works on: the bytes of
the path with its terminator, of which no other is read, and the table that the caller has set
aside, into which alone it stores.  A read or a store elsewhere gives `none`.

* `kvfsSplitPathInto` — the function, with its indices.
* `splitLoop_spec` — the outer loop fills the table with the parts of `splitParts`.
* `kvfsSplitPathInto_spec` — **it returns, and its table holds the parts of `kvfsSplitPath`.**
* `split_exact` — **the parts are the components of the path**, if the table has room for them.
-/

namespace DelOs

/-! ## The function -/

/-- `char tokens[KVFS_MAX_PATH_PARTS][KVFS_MAX_NAME_LEN]`. -/
abbrev Tokens := Nat → Nat → UInt8

/-- `tokens[a][b] = c`. -/
def storeToken (tokens : Tokens) (a b : Nat) (c : UInt8) : Option Tokens :=
  if a < KVFS_MAX_PATH_PARTS ∧ b < KVFS_MAX_NAME_LEN then
    some fun x y => if x = a ∧ y = b then c else tokens x y
  else none

/-- `while (path[i] == '/') i++`. -/
def skipSlashesAt (path : List UInt8) : Nat → Nat → Option Nat
  | 0, _ => none
  | fuel + 1, i =>
    match path[i]? with
    | none => none
    | some c => if c = slash then skipSlashesAt path fuel (i + 1) else some i

/-- The inner loop: copy a part into `tokens[count]`, and say where it ends. -/
def copyPart (path : List UInt8) (count : Nat) :
    Nat → Nat → Nat → Tokens → Option (Nat × Nat × Tokens)
  | 0, _, _, _ => none
  | fuel + 1, i, j, tokens =>
    match path[i]? with
    | none => none
    | some c =>
      if c ≠ slash ∧ c ≠ 0 ∧ j < KVFS_MAX_NAME_LEN - 1 then
        match storeToken tokens count j c with
        | none => none
        | some tokens => copyPart path count fuel (i + 1) (j + 1) tokens
      else some (i, j, tokens)

/-- The outer loop, from `path[i]` on. -/
def splitLoop (path : List UInt8) : Nat → Nat → Nat → Tokens → Option (Nat × Tokens)
  | 0, _, _, _ => none
  | fuel + 1, i, count, tokens =>
    match path[i]? with
    | none => none
    | some c =>
      if c ≠ 0 ∧ count < KVFS_MAX_PATH_PARTS then do
        let (i, j, tokens) ← copyPart path count (path.length + 1) i 0 tokens
        let tokens ← storeToken tokens count j 0
        let i ← skipSlashesAt path (path.length + 1) i
        splitLoop path fuel i (if j > 0 then count + 1 else count) tokens
      else some (count, tokens)

/-- `kvfs_split_path`: the number of parts, and the table. -/
def kvfsSplitPathInto (path : List UInt8) (tokens : Tokens) : Option (Nat × Tokens) := do
  let first ← path[0]?
  let (count, tokens) ←
    if first = slash then do
      let tokens ← storeToken tokens 0 0 slash
      let tokens ← storeToken tokens 0 1 0
      pure (1, tokens)
    else pure (0, tokens)
  let i ← skipSlashesAt path (path.length + 1) 0
  splitLoop path (path.length + 1) i count tokens

/-! ## Where the index stands -/

/-- From `i` on the path has `rest`, and then its terminator. -/
def StandsAt (path : List UInt8) (i : Nat) (rest : CString) : Prop :=
  path.drop i = rest ++ [0] ∧ 0 ∉ rest

variable {path : List UInt8} {i : Nat} {rest : CString}

theorem StandsAt.nil (h : StandsAt path i []) : path[i]? = some 0 := by
  have hd := h.1
  rw [← List.head?_drop, hd]
  rfl

theorem StandsAt.cons {c : UInt8} (h : StandsAt path i (c :: rest)) :
    path[i]? = some c ∧ c ≠ 0 ∧ StandsAt path (i + 1) rest := by
  obtain ⟨hd, h0⟩ := h
  refine ⟨by rw [← List.head?_drop, hd]; rfl, fun hc => h0 (hc ▸ List.mem_cons_self), ?_, ?_⟩
  · rw [← List.tail_drop, hd]
    rfl
  · exact fun hmem => h0 (List.mem_cons_of_mem c hmem)

theorem StandsAt.length (h : StandsAt path i rest) : rest.length < path.length + 1 := by
  have hlen := congrArg List.length h.1
  simp only [List.length_drop, List.length_append, List.length_singleton] at hlen
  omega

theorem standsAt_start {text : CString} (h0 : 0 ∉ text) : StandsAt (text ++ [0]) 0 text :=
  ⟨rfl, h0⟩

/-- The loop over slashes stops behind them. -/
theorem skipSlashesAt_spec (fuel : Nat) (h : StandsAt path i rest) (hfuel : rest.length < fuel) :
    ∃ i', skipSlashesAt path fuel i = some i' ∧ StandsAt path i' (skipSlashes rest) := by
  induction rest generalizing i fuel with
  | nil =>
    obtain ⟨fuel, rfl⟩ : ∃ f, fuel = f + 1 := ⟨fuel - 1, by omega⟩
    exact ⟨i, by simp [skipSlashesAt, h.nil, slash], h⟩
  | cons c rest ih =>
    obtain ⟨fuel, rfl⟩ : ∃ f, fuel = f + 1 := ⟨fuel - 1, by omega⟩
    obtain ⟨hread, -, hrest⟩ := h.cons
    rw [List.length_cons] at hfuel
    by_cases hc : c = slash
    · subst hc
      obtain ⟨i', hskip, hat⟩ := ih fuel hrest (by omega)
      exact ⟨i', by simp [skipSlashesAt, hread, hskip], by simpa [skipSlashes] using hat⟩
    · exact ⟨i, by simp [skipSlashesAt, hread, hc], by simpa [skipSlashes, hc] using h⟩

/-! ## What is stored -/

/-- The string in a row of the table. -/
def tokenString (tokens : Tokens) (a : Nat) : CString :=
  ((List.range KVFS_MAX_NAME_LEN).map (tokens a)).takeWhile (· ≠ 0)

/-- A row of the table holds a name, with a terminator. -/
structure HoldsName (tokens : Tokens) (a : Nat) (name : CString) : Prop where
  bytes : ∀ j (hj : j < name.length), tokens a j = name[j]
  terminator : tokens a name.length = 0
  fits : FitsName name
  noZero : 0 ∉ name

theorem HoldsName.string {tokens : Tokens} {a : Nat} {name : CString}
    (h : HoldsName tokens a name) : tokenString tokens a = name := by
  have hfits : name.length < KVFS_MAX_NAME_LEN := Nat.lt_of_le_of_lt h.fits (by decide)
  have hrow : (List.range KVFS_MAX_NAME_LEN).map (tokens a) =
      name ++ 0 :: ((List.range KVFS_MAX_NAME_LEN).map (tokens a)).drop (name.length + 1) := by
    apply List.ext_getElem
    · simp only [List.length_map, List.length_range, List.length_append, List.length_cons,
        List.length_drop]
      omega
    · intro j hj _
      simp only [List.getElem_map, List.getElem_range]
      rcases Nat.lt_trichotomy j name.length with hlt | rfl | hgt
      · rw [List.getElem_append_left hlt, h.bytes j hlt]
      · simp [h.terminator]
      · rw [List.getElem_append_right (by omega), List.getElem_cons]
        simp only [show j - name.length ≠ 0 by omega, dif_neg, not_false_eq_true,
          List.getElem_drop, List.getElem_map, List.getElem_range]
        congr 1
        omega
  have hall : ∀ c ∈ name, decide (c ≠ 0) = true := fun c hc => by
    simpa using fun h0 : c = 0 => h.noZero (h0 ▸ hc)
  rw [tokenString, hrow, List.takeWhile_append_of_pos hall]
  simp

/-- The table behind the inner loop. -/
def putPart (tokens : Tokens) (a j : Nat) (part : CString) : Tokens := fun x y =>
  if x = a ∧ j ≤ y ∧ y < j + part.length then part.getD (y - j) 0 else tokens x y

theorem putPart_nil (tokens : Tokens) (a j : Nat) : putPart tokens a j [] = tokens := by
  funext x y
  exact if_neg (by simp only [List.length_nil]; omega)

theorem putPart_cons (tokens : Tokens) (a j : Nat) (c : UInt8) (part : CString) :
    putPart (fun x y => if x = a ∧ y = j then c else tokens x y) a (j + 1) part =
      putPart tokens a j (c :: part) := by
  funext x y
  unfold putPart
  rw [List.length_cons]
  rcases Nat.lt_trichotomy y j with hlt | rfl | hgt
  · rw [if_neg (by omega), if_neg (by omega)]
    exact if_neg (by omega)
  · rw [if_neg (by omega)]
    simp
  · have hsub : y - j = y - (j + 1) + 1 := by omega
    by_cases hin : x = a ∧ j + 1 ≤ y ∧ y < j + 1 + part.length
    · rw [if_pos hin, if_pos (by omega), hsub, List.getD_cons_succ]
    · rw [if_neg hin, if_neg (by omega)]
      exact if_neg (by omega)

theorem putPart_other (tokens : Tokens) {a x : Nat} (hx : x ≠ a) (j : Nat) (part : CString) :
    putPart tokens a j part x = tokens x := by
  funext y
  exact if_neg fun h => hx h.1

/-- The inner loop stores a part, and stops at a slash, at the end, or when the row is full. -/
theorem copyPart_spec (count fuel j : Nat) (h : StandsAt path i rest)
    (hcount : count < KVFS_MAX_PATH_PARTS) (hj : j ≤ KVFS_MAX_NAME_LEN - 1)
    (hfuel : rest.length < fuel) (tokens : Tokens) :
    copyPart path count fuel i j tokens =
        some (i + (takePart (KVFS_MAX_NAME_LEN - 1 - j) rest).1.length,
          j + (takePart (KVFS_MAX_NAME_LEN - 1 - j) rest).1.length,
          putPart tokens count j (takePart (KVFS_MAX_NAME_LEN - 1 - j) rest).1) ∧
      StandsAt path (i + (takePart (KVFS_MAX_NAME_LEN - 1 - j) rest).1.length)
        (takePart (KVFS_MAX_NAME_LEN - 1 - j) rest).2 := by
  induction rest generalizing i j fuel tokens with
  | nil =>
    obtain ⟨fuel, rfl⟩ : ∃ f, fuel = f + 1 := ⟨fuel - 1, by omega⟩
    have hnone : takePart (KVFS_MAX_NAME_LEN - 1 - j) [] = ([], []) := by
      cases KVFS_MAX_NAME_LEN - 1 - j <;> rfl
    rw [hnone]
    exact ⟨by simp [copyPart, h.nil, putPart_nil], h⟩
  | cons c rest ih =>
    obtain ⟨fuel, rfl⟩ : ∃ f, fuel = f + 1 := ⟨fuel - 1, by omega⟩
    obtain ⟨hread, hc0, hrest⟩ := h.cons
    rw [List.length_cons] at hfuel
    by_cases hfull : j = KVFS_MAX_NAME_LEN - 1
    · subst hfull
      rw [Nat.sub_self]
      exact ⟨by simp [copyPart, hread, takePart, putPart_nil], h⟩
    have hroom : KVFS_MAX_NAME_LEN - 1 - j = KVFS_MAX_NAME_LEN - 1 - (j + 1) + 1 := by omega
    by_cases hc : c = slash
    · subst hc
      rw [hroom]
      exact ⟨by simp [copyPart, hread, takePart, putPart_nil], by simpa [takePart] using h⟩
    · have hstore : storeToken tokens count j c =
          some fun x y => if x = count ∧ y = j then c else tokens x y :=
        if_pos ⟨hcount, by omega⟩
      have hstep := ih fuel (j + 1) hrest (by omega) (by omega)
        (fun x y => if x = count ∧ y = j then c else tokens x y)
      rw [hroom, takePart, if_neg hc]
      simp only [List.length_cons]
      rw [copyPart, hread]
      simp only [hc, hc0, ne_eq, not_false_eq_true, true_and, hstore,
        if_pos (show j < KVFS_MAX_NAME_LEN - 1 by omega)]
      rw [← putPart_cons, show i + ((takePart (KVFS_MAX_NAME_LEN - 1 - (j + 1)) rest).1.length + 1) =
        i + 1 + (takePart (KVFS_MAX_NAME_LEN - 1 - (j + 1)) rest).1.length by omega,
        show j + ((takePart (KVFS_MAX_NAME_LEN - 1 - (j + 1)) rest).1.length + 1) =
        j + 1 + (takePart (KVFS_MAX_NAME_LEN - 1 - (j + 1)) rest).1.length by omega]
      exact hstep

/-! ## The table -/

theorem takePart_append (room : Nat) (path : CString) :
    (takePart room path).1 ++ (takePart room path).2 = path := by
  induction path generalizing room with
  | nil => cases room <;> rfl
  | cons c path ih =>
    cases room with
    | zero => rfl
    | succ room =>
      rw [takePart]
      split_ifs
      · rfl
      · exact congrArg (c :: ·) (ih room)

theorem takePart_length (room : Nat) (path : CString) : (takePart room path).1.length ≤ room := by
  induction path generalizing room with
  | nil => cases room <;> exact Nat.zero_le _
  | cons c path ih =>
    cases room with
    | zero => exact le_rfl
    | succ room =>
      rw [takePart]
      split_ifs
      · exact Nat.zero_le _
      · exact Nat.succ_le_succ (ih room)

/-- A part and its terminator, stored in a row. -/
theorem holdsName_putPart (tokens : Tokens) (a : Nat) {part : CString} (hfits : FitsName part)
    (h0 : 0 ∉ part) :
    HoldsName (fun x y => if x = a ∧ y = part.length then 0 else putPart tokens a 0 part x y) a
      part := by
  refine ⟨fun j hj => ?_, if_pos ⟨rfl, rfl⟩, hfits, h0⟩
  rw [if_neg fun h => absurd h.2 (Nat.ne_of_lt hj), putPart, if_pos ⟨rfl, Nat.zero_le j, by omega⟩]
  simp [hj]

/-- The names stand in the rows from `count` on. -/
def HoldsNames (tokens : Tokens) (count : Nat) (names : List CString) : Prop :=
  ∀ k (hk : k < names.length), HoldsName tokens (count + k) names[k]

theorem holdsNames_cons {tokens : Tokens} {count : Nat} {name : CString} {names : List CString}
    (h : HoldsName tokens count name) (hs : HoldsNames tokens (count + 1) names) :
    HoldsNames tokens count (name :: names) := by
  intro k hk
  cases k with
  | zero => exact h
  | succ k =>
    have hnext := hs k (by simpa using hk)
    rwa [show count + 1 + k = count + (k + 1) by omega] at hnext

theorem HoldsName.congr {tokens tokens' : Tokens} {a : Nat} {name : CString}
    (h : HoldsName tokens a name) (heq : tokens' a = tokens a) : HoldsName tokens' a name :=
  ⟨fun j hj => by rw [heq, h.bytes j hj], by rw [heq, h.terminator], h.fits, h.noZero⟩

/-- **The outer loop** stores the parts of what is left of the path in the rows that are left. -/
theorem splitLoop_spec (fuel count : Nat) (h : StandsAt path i rest)
    (hhead : rest.head? ≠ some slash) (hcount : count ≤ KVFS_MAX_PATH_PARTS)
    (hfuel : rest.length < fuel) (tokens : Tokens) :
    ∃ tokens', splitLoop path fuel i count tokens =
        some (count + (splitParts (KVFS_MAX_PATH_PARTS - count) rest).length, tokens') ∧
      HoldsNames tokens' count (splitParts (KVFS_MAX_PATH_PARTS - count) rest) ∧
      ∀ a < count, tokens' a = tokens a := by
  -- on the rounds: each one takes a byte of the path at least
  induction fuel generalizing i rest count tokens with
  | zero => exact absurd hfuel (Nat.not_lt_zero _)
  | succ fuel ih =>
    by_cases hfull : count = KVFS_MAX_PATH_PARTS
    · subst hfull
      rw [Nat.sub_self]
      refine ⟨tokens, ?_, fun k hk => absurd hk (Nat.not_lt_zero _), fun _ _ => rfl⟩
      cases rest with
      | nil => simp [splitLoop, h.nil, splitParts]
      | cons c rest => simp [splitLoop, h.cons.1, splitParts]
    have hroom : KVFS_MAX_PATH_PARTS - count = KVFS_MAX_PATH_PARTS - (count + 1) + 1 := by omega
    cases rest with
    | nil =>
      rw [hroom]
      exact ⟨tokens, by simp [splitLoop, h.nil, splitParts],
        fun k hk => absurd hk (Nat.not_lt_zero _), fun _ _ => rfl⟩
    | cons c rest =>
      obtain ⟨hread, hc0, -⟩ := h.cons
      have hc : c ≠ slash := fun hc => hhead (by rw [hc]; rfl)
      obtain ⟨hcopy, hat⟩ := copyPart_spec count _ 0 h (by omega) (Nat.zero_le _) h.length tokens
      have happend := takePart_append (KVFS_MAX_NAME_LEN - 1) (c :: rest)
      have hlen := takePart_length (KVFS_MAX_NAME_LEN - 1) (c :: rest)
      have hne : 0 < (takePart (KVFS_MAX_NAME_LEN - 1) (c :: rest)).1.length := by
        rw [show KVFS_MAX_NAME_LEN - 1 = 253 + 1 from rfl, takePart, if_neg hc]
        exact Nat.succ_pos _
      rw [Nat.sub_zero] at hcopy hat
      rw [hroom, splitParts]
      rcases hpart : takePart (KVFS_MAX_NAME_LEN - 1) (c :: rest) with ⟨part, behind⟩
      rw [hpart] at hcopy hat happend hlen hne
      dsimp only at hcopy hat happend hlen hne ⊢
      have hstore : storeToken (putPart tokens count 0 part) count (0 + part.length) 0 =
          some fun x y => if x = count ∧ y = part.length then 0
            else putPart tokens count 0 part x y := by
        rw [Nat.zero_add]
        exact if_pos ⟨by omega, Nat.lt_of_le_of_lt hlen (by decide)⟩
      obtain ⟨i', hskip, hat'⟩ := skipSlashesAt_spec _ hat hat.length
      have hshort : (skipSlashes behind).length < fuel := by
        have hdrop := (List.dropWhile_sublist (l := behind) (· == slash)).length_le
        have hsum := congrArg List.length happend
        simp only [List.length_append, List.length_cons] at hsum hfuel
        simp only [skipSlashes]
        omega
      have h0 : 0 ∉ part := fun hmem =>
        h.2 (happend ▸ List.mem_append_left behind hmem)
      obtain ⟨tokens', hloop, hnames, hkeep⟩ := ih (count + 1) hat'
        (head_skipSlashes behind) (by omega) hshort
        (fun x y => if x = count ∧ y = part.length then 0 else putPart tokens count 0 part x y)
      refine ⟨tokens', ?_, ?_, fun a ha => ?_⟩
      · rw [splitLoop, hread]
        simp only [hc0, ne_eq, not_false_eq_true, true_and,
          if_pos (show count < KVFS_MAX_PATH_PARTS by omega), hcopy, Option.bind_eq_bind,
          Option.bind_some, hstore, hskip]
        rw [if_pos (by omega), hloop, List.length_cons]
        congr 2
        omega
      · exact holdsNames_cons ((holdsName_putPart tokens count hlen h0).congr
          (hkeep count (Nat.lt_succ_self count))) hnames
      · rw [hkeep a (by omega)]
        funext y
        rw [if_neg fun h => absurd h.1 (Nat.ne_of_lt ha),
          putPart_other tokens (Nat.ne_of_lt ha)]

/-- **The splitter returns**, and the rows that it counts hold the parts of the path. -/
theorem kvfsSplitPathInto_spec {text : CString} (h0 : 0 ∉ text) (tokens : Tokens) :
    ∃ tokens', kvfsSplitPathInto (text ++ [0]) tokens =
        some ((kvfsSplitPath text).length, tokens') ∧
      HoldsNames tokens' 0 (kvfsSplitPath text) := by
  have hat := standsAt_start h0
  obtain ⟨i, hskip, hat'⟩ := skipSlashesAt_spec _ hat hat.length
  have hshort : (skipSlashes text).length < (text ++ [0]).length + 1 := hat'.length
  have hfirst : ∃ c, (text ++ [0])[0]? = some c ∧ (c = slash ↔ kvfsIsAbsolutePath text = true) := by
    cases text with
    | nil => exact ⟨0, rfl, by simp [slash, kvfsIsAbsolutePath]⟩
    | cons c text => exact ⟨c, rfl, by simp [kvfsIsAbsolutePath]⟩
  obtain ⟨c, hread, habs⟩ := hfirst
  by_cases hc : c = slash
  · -- the root's name comes first
    obtain ⟨tokens', hloop, hnames, hkeep⟩ := splitLoop_spec _ 1 hat'
      (head_skipSlashes text) (by decide) hshort
      (fun x y => if x = 0 ∧ y = 1 then 0 else if x = 0 ∧ y = 0 then slash else tokens x y)
    have hparts : kvfsSplitPath text =
        [slash] :: splitParts (KVFS_MAX_PATH_PARTS - 1) (skipSlashes text) :=
      if_pos (habs.1 hc)
    refine ⟨tokens', ?_, ?_⟩
    · rw [hparts, List.length_cons, Nat.add_comm, ← hloop]
      have hroot : storeToken tokens 0 0 slash =
          some fun x y => if x = 0 ∧ y = 0 then slash else tokens x y := if_pos (by decide)
      have hend : storeToken (fun x y => if x = 0 ∧ y = 0 then slash else tokens x y) 0 1 0 =
          some fun x y => if x = 0 ∧ y = 1 then 0 else
            if x = 0 ∧ y = 0 then slash else tokens x y := if_pos (by decide)
      simp only [kvfsSplitPathInto, hread, hc, if_true, hroot, hend, hskip, Option.bind_eq_bind,
        Option.bind_some, Option.pure_def]
    · rw [hparts]
      refine holdsNames_cons ⟨fun j hj => ?_, ?_, by decide, by decide⟩ hnames
      · obtain rfl : j = 0 := by simpa using hj
        rw [hkeep 0 Nat.one_pos]
        simp
      · rw [hkeep 0 Nat.one_pos]
        simp
  · obtain ⟨tokens', hloop, hnames, -⟩ := splitLoop_spec _ 0 hat'
      (head_skipSlashes text) (Nat.zero_le _) hshort tokens
    have hparts : kvfsSplitPath text = splitParts KVFS_MAX_PATH_PARTS (skipSlashes text) :=
      if_neg fun h => hc (habs.2 h)
    refine ⟨tokens', ?_, ?_⟩
    · rw [hparts]
      rw [Nat.zero_add, Nat.sub_zero] at hloop
      simp only [kvfsSplitPathInto, hread, hc, if_false, hskip, Option.bind_eq_bind,
        Option.bind_some, Option.pure_def, hloop]
    · rw [hparts]
      exact hnames

/-! ## The parts of a path that is not too long -/

/-- The components of the path, with the root's name in front if it is absolute. -/
def pathParts (text : CString) : List CString :=
  (if kvfsIsAbsolutePath text then [[slash]] else []) ++ components text

/-- A path within the limits is cut into its parts. -/
theorem kvfsSplitPath_pathParts {text : CString} (hfits : ∀ name ∈ components text, FitsName name)
    (hfew : (pathParts text).length ≤ KVFS_MAX_PATH_PARTS) : kvfsSplitPath text = pathParts text := by
  unfold pathParts at hfew ⊢
  rw [kvfsSplitPath_eq, splitParts_eq _ hfits, List.take_of_length_le]
  unfold partsRoom
  split_ifs at hfew ⊢ with habs
  · simp only [List.singleton_append, List.length_cons] at hfew
    omega
  · simpa using hfew

theorem splitParts_length (room : Nat) (path : CString) : (splitParts room path).length ≤ room := by
  induction room generalizing path with
  | zero => exact le_rfl
  | succ room ih =>
    cases path with
    | nil => exact Nat.zero_le _
    | cons c path => exact Nat.succ_le_succ (ih _)

theorem kvfsSplitPath_length (path : CString) :
    (kvfsSplitPath path).length ≤ KVFS_MAX_PATH_PARTS := by
  unfold kvfsSplitPath
  split_ifs
  · exact Nat.succ_le_succ (splitParts_length _ _)
  · exact splitParts_length _ _

/-- The strings in the first rows of the table. -/
theorem HoldsNames.strings {tokens : Tokens} {names : List CString}
    (h : HoldsNames tokens 0 names) : (List.range names.length).map (tokenString tokens) = names := by
  apply List.ext_getElem
  · simp
  · intro k _ hk
    have hname := (h k hk).string
    rw [Nat.zero_add] at hname
    simp [hname]

/-- **The splitter is exact within its limits and safe beyond them.**  It returns, having read the
path up to its terminator only and stored in the table only; each row that it counts has a
terminator; and if the parts are short and few enough, they are what the rows hold. -/
theorem split_exact {text : CString} (h0 : 0 ∉ text) (tokens : Tokens) :
    ∃ count tokens', kvfsSplitPathInto (text ++ [0]) tokens = some (count, tokens') ∧
      count ≤ KVFS_MAX_PATH_PARTS ∧
      (∀ a < count, ∃ b < KVFS_MAX_NAME_LEN, tokens' a b = 0) ∧
      ((∀ name ∈ components text, FitsName name) →
        (pathParts text).length ≤ KVFS_MAX_PATH_PARTS →
          count = (pathParts text).length ∧
            (List.range count).map (tokenString tokens') = pathParts text) := by
  obtain ⟨tokens', hsplit, hnames⟩ := kvfsSplitPathInto_spec h0 tokens
  refine ⟨_, tokens', hsplit, kvfsSplitPath_length text, fun a ha => ?_, fun hfits hfew => ?_⟩
  · have hname := hnames a ha
    rw [Nat.zero_add] at hname
    exact ⟨_, Nat.lt_of_le_of_lt hname.fits (by decide), hname.terminator⟩
  · rw [hnames.strings, kvfsSplitPath_pathParts hfits hfew]
    exact ⟨rfl, rfl⟩

/-- `//a//bc/` -/
theorem split_exact_slashes : ∃ count tokens',
    kvfsSplitPathInto ([slash, slash, 0x61, slash, slash, 0x62, 0x63, slash] ++ [0]) (fun _ _ => 0) =
      some (count, tokens') ∧ count = 3 ∧
      (List.range count).map (tokenString tokens') = [[slash], [0x61], [0x62, 0x63]] := by
  have hparts : pathParts [slash, slash, 0x61, slash, slash, 0x62, 0x63, slash] =
      [[slash], [0x61], [0x62, 0x63]] := by decide
  obtain ⟨count, tokens', hsplit, -, -, hexact⟩ :=
    @split_exact [slash, slash, 0x61, slash, slash, 0x62, 0x63, slash] (by decide) fun _ _ => 0
  obtain ⟨hcount, hstrings⟩ := hexact (by decide) (by decide)
  rw [hparts] at hcount hstrings
  exact ⟨count, tokens', hsplit, hcount, hstrings⟩

end DelOs
