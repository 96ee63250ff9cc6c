import DelOs.Fs.Initrd
import DelOs.Lib.Records

/-!
# The reader of the boot archive

`kinitrd_unpack` of `src/kernel/fs/initrd/initrd.c` at the addresses where the image lies: its cursor
is a pointer, what is left of the image is a difference of pointers taken as a `size_t`, and a read
outside the image gives `none`.  What the file system does with an entry, and with the name that
begins there, is a function of any kind.

* `archiveFormat` — what an archive is made of.
* `BootImage` — the image in memory.
* `BootImage.kinitrdUnpack` — the reader; besides its answer it lists the headers that it has read
  and the payloads that it has passed on.
* `BootImage.readLoop_spec` — **the loop**: one round for each record.
* `reads_complete_archives` — **the reader accepts the complete archives** and stays inside the image.
* `Fs.kinitrdUnpack_eq` — `Fs.kinitrdUnpack` is this reader, with the tmpfs below it.
-/

namespace DelOs

/-! ## Archives -/

/-- A header has 72 bytes; one with an empty name, no size and no type is the end. -/
def archiveFormat : Records.Format UInt8 where
  width := sizeofInitrdEntry
  size header := Fs.nameWord header KINITRD_NAME_MAX
  isEnd header := header.head? == some 0 && Fs.nameWord header KINITRD_NAME_MAX == 0 &&
    Fs.nameWord header (KINITRD_NAME_MAX + 4) == 0
  width_pos := by decide

/-- A word inside a header. -/
theorem nameWord_take (l : List UInt8) {i : Nat} (hi : i + 3 < sizeofInitrdEntry) :
    Fs.nameWord (l.take sizeofInitrdEntry) i = Fs.nameWord l i := by
  have hget : ∀ k < sizeofInitrdEntry, (l.take sizeofInitrdEntry).getD k 0 = l.getD k 0 :=
    fun k hk => by
      rw [List.getD_eq_getElem?_getD, List.getD_eq_getElem?_getD, List.getElem?_take_of_lt hk]
  simp only [Fs.nameWord, hget i (by omega), hget (i + 1) (by omega), hget (i + 2) (by omega),
    hget (i + 3) hi]

/-- The end marker, read from what is left of the image. -/
theorem kinitrdIsEndMarker_eq {cursor : List UInt8} (h : sizeofInitrdEntry ≤ cursor.length) :
    kinitrdIsEndMarker (readEntry cursor) = archiveFormat.isEnd (cursor.take sizeofInitrdEntry) := by
  have hsize : Fs.nameWord (cursor.take sizeofInitrdEntry) KINITRD_NAME_MAX =
    Fs.nameWord cursor KINITRD_NAME_MAX := nameWord_take cursor (by decide)
  have htype : Fs.nameWord (cursor.take sizeofInitrdEntry) (KINITRD_NAME_MAX + 4) =
    Fs.nameWord cursor (KINITRD_NAME_MAX + 4) := nameWord_take cursor (by decide)
  have hname : (cursor.takeWhile (· ≠ 0) == []) =
      ((cursor.take sizeofInitrdEntry).head? == some 0) := by
    rw [List.head?_take, if_neg (by decide)]
    cases cursor with
    | nil => exact absurd h (by decide)
    | cons c cursor =>
      by_cases hc : c = 0
      · simp [hc]
      · simp [hc]
  simp only [kinitrdIsEndMarker, readEntry, archiveFormat, hsize, htype, hname]

/-! ## The image -/

/-- An image somewhere in memory; its end has an address too. -/
structure BootImage where
  start : Nat
  bytes : List UInt8
  start_pos : 0 < start
  placed : start + bytes.length < 2 ^ 32

/-- A range of addresses. -/
structure Span where
  start : Nat
  size : Nat
  deriving DecidableEq, Repr

/-- How a reading ends: the answer, the state of the file system, and what has been read as a
header or passed on as a payload. -/
structure Reading (σ : Type) where
  unpacked : Bool
  state : σ
  spans : List Span
  deriving DecidableEq, Repr

/-- `kinitrd_unpack_entry` for some file system: from its state, the entry and the data, whether the
entry is unpacked, and the next state. -/
abbrev EntryHandler (σ : Type) := σ → Nat → Nat → Bool × σ

/-- `(size_t) (end - cursor)`. -/
def sizeBetween (cursor stop : Nat) : Nat := (stop + 2 ^ 32 - cursor) % 2 ^ 32

namespace BootImage

/-- `end` -/
def stop (image : BootImage) : Nat := image.start + image.bytes.length

/-- What is left of the image at an address. -/
def rest (image : BootImage) (address : Nat) : List UInt8 := image.bytes.drop (address - image.start)

/-- A byte of the image. -/
def byteAt (image : BootImage) (address : Nat) : Option UInt8 :=
  if image.start ≤ address then image.bytes[address - image.start]? else none

/-- A word of the image. -/
def wordAt (image : BootImage) (address : Nat) : Option Nat := do
  let b0 ← image.byteAt address
  let b1 ← image.byteAt (address + 1)
  let b2 ← image.byteAt (address + 2)
  let b3 ← image.byteAt (address + 3)
  return b0.toNat + 256 * b1.toNat + 65536 * b2.toNat + 16777216 * b3.toNat

/-- `kinitrd_is_end_marker`: the fields are read as far as they are needed. -/
def isEndMarker (image : BootImage) (entry : Nat) : Option Bool := do
  let c ← image.byteAt entry
  if c ≠ 0 then return false
  let size ← image.wordAt (entry + KINITRD_NAME_MAX)
  if size ≠ 0 then return false
  let type ← image.wordAt (entry + (KINITRD_NAME_MAX + 4))
  return type == 0

/-- `kinitrd_has_remaining_data`. -/
def hasRemainingData (cursor stop size : Nat) : Bool :=
  if cursor = 0 ∨ stop = 0 ∨ cursor > stop then false
  else if sizeBetween cursor stop < size then false
  else true

variable {σ : Type}

/-- The loop of `kinitrd_unpack`. -/
def readLoop (image : BootImage) (unpackEntry : EntryHandler σ) :
    Nat → Nat → σ → List Span → Option (Reading σ)
  | 0, _, _, _ => none
  | fuel + 1, cursor, s, spans =>
    if sizeBetween cursor image.stop < sizeofInitrdEntry then some ⟨false, s, spans⟩
    else do
      let entry := cursor
      let spans := spans ++ [⟨entry, sizeofInitrdEntry⟩]
      if ← image.isEndMarker entry then return ⟨true, s, spans⟩
      let cursor := u32 (cursor + sizeofInitrdEntry)
      let size ← image.wordAt (entry + KINITRD_NAME_MAX)
      if hasRemainingData cursor image.stop size = false then return ⟨false, s, spans⟩
      let (unpacked, s) := unpackEntry s entry cursor
      let spans := spans ++ [⟨cursor, size⟩]
      if unpacked = false then return ⟨false, s, spans⟩
      readLoop image unpackEntry fuel (u32 (cursor + size)) s spans

/-- `kinitrd_unpack`. -/
def kinitrdUnpack (image : BootImage) (unpackEntry : EntryHandler σ) (root : Ptr) (s : σ) :
    Option (Reading σ) :=
  if root = 0 ∨ kinitrdIsSizeValid image.bytes.length = false then some ⟨false, s, []⟩
  else image.readLoop unpackEntry (image.bytes.length + 1) image.start s []

/-! ## Reads inside the image -/

variable {image : BootImage} {address pos : Nat}

theorem rest_start (image : BootImage) (pos : Nat) :
    image.rest (image.start + pos) = image.bytes.drop pos := by
  rw [rest, Nat.add_sub_cancel_left]

theorem byteAt_eq (hpos : pos < image.bytes.length) :
    image.byteAt (image.start + pos) = some (image.bytes.getD pos 0) := by
  rw [byteAt, if_pos (Nat.le_add_right _ _), Nat.add_sub_cancel_left, List.getD_eq_getElem?_getD,
    List.getElem?_eq_getElem hpos, Option.getD_some]

/-- A word of a header is the word of the bytes that are left. -/
theorem wordAt_eq {i : Nat} (hpos : pos + i + 3 < image.bytes.length) :
    image.wordAt (image.start + pos + i) = some (Fs.nameWord (image.bytes.drop pos) i) := by
  have hget : ∀ k, (image.bytes.drop pos).getD k 0 = image.bytes.getD (pos + k) 0 := fun k => by
    simp [List.getD_eq_getElem?_getD]
  have hbyte : ∀ k ≤ 3, image.byteAt (image.start + pos + i + k) =
      some ((image.bytes.drop pos).getD (i + k) 0) := fun k hk => by
    rw [hget, show image.start + pos + i + k = image.start + (pos + (i + k)) by omega]
    exact byteAt_eq (by omega)
  have hfirst := hbyte 0 (by omega)
  rw [Nat.add_zero] at hfirst
  simp only [wordAt, hfirst, hbyte 1 (by omega), hbyte 2 (by omega), hbyte 3 (by omega),
    Option.bind_eq_bind, Option.bind_some, Option.pure_def, Fs.nameWord, Nat.add_zero]

theorem sizeBetween_eq (hpos : pos ≤ image.bytes.length) :
    sizeBetween (image.start + pos) image.stop = image.bytes.length - pos := by
  have hplaced := image.placed
  rw [sizeBetween, stop]
  omega

theorem hasRemainingData_eq (hpos : pos ≤ image.bytes.length) (size : Nat) :
    hasRemainingData (image.start + pos) image.stop size =
      decide (size ≤ image.bytes.length - pos) := by
  have hstart := image.start_pos
  have hguard : ¬ (image.start + pos = 0 ∨ image.stop = 0 ∨ image.start + pos > image.stop) := by
    rw [stop]
    omega
  rw [hasRemainingData, if_neg hguard, sizeBetween_eq hpos]
  split_ifs with hsize
  · exact (decide_eq_false (by omega)).symm
  · exact (decide_eq_true (by omega)).symm

theorem isEndMarker_eq (hpos : pos + sizeofInitrdEntry ≤ image.bytes.length) :
    image.isEndMarker (image.start + pos) =
      some (archiveFormat.isEnd ((image.bytes.drop pos).take sizeofInitrdEntry)) := by
  have hwidth : sizeofInitrdEntry = 72 := rfl
  have hname : KINITRD_NAME_MAX = 64 := rfl
  have hlt : pos < image.bytes.length := by omega
  have hhead : ((image.bytes.drop pos).take sizeofInitrdEntry).head? =
      some (image.bytes.getD pos 0) := by
    rw [List.head?_take, if_neg (by decide), List.head?_drop, List.getD_eq_getElem?_getD,
      List.getElem?_eq_getElem hlt, Option.getD_some]
  have hsize : image.wordAt (image.start + pos + KINITRD_NAME_MAX) = _ := wordAt_eq (by omega)
  have htype : image.wordAt (image.start + pos + (KINITRD_NAME_MAX + 4)) = _ := wordAt_eq (by omega)
  simp only [isEndMarker, byteAt_eq hlt, hsize, htype, archiveFormat, hhead, Option.bind_eq_bind,
    Option.bind_some, Option.pure_def, nameWord_take _ (show KINITRD_NAME_MAX + 3 < _ by decide),
    nameWord_take _ (show KINITRD_NAME_MAX + 4 + 3 < _ by decide)]
  generalize image.bytes.getD pos 0 = c
  generalize Fs.nameWord (image.bytes.drop pos) KINITRD_NAME_MAX = size
  split_ifs with hc hn
  · simp [hc]
  · simp [hn]
  · rw [not_not] at hc hn
    simp [hc, hn]

/-! ## The loop -/

variable {unpackEntry : EntryHandler σ}

/-- One round, from a position in the image: the cursor does not leave the image, and the
differences of pointers are what is left of it. -/
theorem readLoop_round (fuel : Nat) (hpos : pos ≤ image.bytes.length) (s : σ) (spans : List Span) :
    image.readLoop unpackEntry (fuel + 1) (image.start + pos) s spans =
      let size := Fs.nameWord (image.bytes.drop pos) KINITRD_NAME_MAX
      let seen := spans ++ [⟨image.start + pos, sizeofInitrdEntry⟩]
      if image.bytes.length - pos < sizeofInitrdEntry then some ⟨false, s, spans⟩
      else if archiveFormat.isEnd ((image.bytes.drop pos).take sizeofInitrdEntry) then
        some ⟨true, s, seen⟩
      else if image.bytes.length - pos < sizeofInitrdEntry + size then some ⟨false, s, seen⟩
      else
        let data := image.start + pos + sizeofInitrdEntry
        let next := unpackEntry s (image.start + pos) data
        if next.1 = false then some ⟨false, next.2, seen ++ [⟨data, size⟩]⟩
        else image.readLoop unpackEntry fuel (image.start + (pos + (sizeofInitrdEntry + size))) next.2
          (seen ++ [⟨data, size⟩]) := by
  have hwidth : sizeofInitrdEntry = 72 := rfl
  have hname : KINITRD_NAME_MAX = 64 := rfl
  have hstop : image.start + image.bytes.length < 2 ^ 32 := image.placed
  rw [readLoop, sizeBetween_eq hpos]
  dsimp only
  by_cases hshort : image.bytes.length - pos < sizeofInitrdEntry
  · rw [if_pos hshort, if_pos hshort]
  have hroom : pos + sizeofInitrdEntry ≤ image.bytes.length := by omega
  have hsize : image.wordAt (image.start + pos + KINITRD_NAME_MAX) = _ := wordAt_eq (by omega)
  have hcursor : u32 (image.start + pos + sizeofInitrdEntry) =
      image.start + (pos + sizeofInitrdEntry) := by
    rw [u32]
    omega
  rw [if_neg hshort, if_neg hshort]
  simp only [isEndMarker_eq hroom, hsize, hcursor, hasRemainingData_eq hroom, Option.bind_eq_bind,
    Option.bind_some, Option.pure_def]
  generalize Fs.nameWord (image.bytes.drop pos) KINITRD_NAME_MAX = size
  by_cases hlast : archiveFormat.isEnd ((image.bytes.drop pos).take sizeofInitrdEntry) = true
  · rw [if_pos hlast, if_pos hlast]
  rw [if_neg hlast, if_neg hlast]
  by_cases hmore : image.bytes.length - pos < sizeofInitrdEntry + size
  · rw [if_pos hmore, if_pos (decide_eq_false (by omega))]
  have hfits : size ≤ image.bytes.length - (pos + sizeofInitrdEntry) := by omega
  have hnext : u32 (image.start + (pos + sizeofInitrdEntry) + size) =
      image.start + (pos + (sizeofInitrdEntry + size)) := by
    rw [u32]
    omega
  rw [if_neg hmore, decide_eq_true hfits, if_neg (show ¬ true = false by decide), hnext,
    Nat.add_assoc image.start]

end BootImage

/-! ## The tmpfs below the reader -/

namespace Fs

/-- The tmpfs as the file system of the reader; once it has faulted, it stays so. -/
def entryHandler (image : BootImage) (root : Ptr) : EntryHandler (Option Fs)
  | none, _, _ => (false, none)
  | some s, entry, data =>
    match s.kinitrdUnpackEntry root (readEntry (image.rest entry)) (image.rest data) with
    | none => (false, none)
    | some (unpacked, s) => (unpacked, some s)

theorem unpackLoop_eq (image : BootImage) (root : Ptr) (fuel : Nat) {pos : Nat}
    (hpos : pos ≤ image.bytes.length) (s : Fs) (spans : List Span) :
    unpackLoop root fuel s (image.bytes.drop pos) =
      (image.readLoop (entryHandler image root) fuel (image.start + pos) (some s) spans).bind
        fun out => out.state.map (out.unpacked, ·) := by
  induction fuel generalizing pos s spans with
  | zero => rfl
  | succ fuel ih =>
    have hlen : (image.bytes.drop pos).length = image.bytes.length - pos := List.length_drop
    rw [unpackLoop, image.readLoop_round fuel hpos, hlen]
    dsimp only
    by_cases hshort : image.bytes.length - pos < sizeofInitrdEntry
    · rw [if_pos hshort, if_pos hshort]
      rfl
    rw [if_neg hshort, if_neg hshort, kinitrdIsEndMarker_eq (by rw [hlen]; omega)]
    by_cases hlast : archiveFormat.isEnd ((image.bytes.drop pos).take sizeofInitrdEntry) = true
    · rw [if_pos hlast, if_pos hlast]
      rfl
    have hentry : (readEntry (image.bytes.drop pos)).size =
      nameWord (image.bytes.drop pos) KINITRD_NAME_MAX := rfl
    rw [if_neg hlast, if_neg hlast, kinitrdHasRemainingData, List.drop_drop, List.length_drop, hentry]
    by_cases hmore : image.bytes.length - pos <
        sizeofInitrdEntry + nameWord (image.bytes.drop pos) KINITRD_NAME_MAX
    · rw [if_pos hmore, if_pos (decide_eq_false (by omega))]
      rfl
    have hfits : nameWord (image.bytes.drop pos) KINITRD_NAME_MAX ≤
        image.bytes.length - (pos + sizeofInitrdEntry) := by omega
    rw [if_neg hmore, decide_eq_true hfits, if_neg (show ¬ true = false by decide),
      entryHandler, image.rest_start, Nat.add_assoc image.start, image.rest_start]
    rcases s.kinitrdUnpackEntry root (readEntry (image.bytes.drop pos))
      (image.bytes.drop (pos + sizeofInitrdEntry)) with - | ⟨unpacked, s'⟩
    · rfl
    · cases unpacked with
      | false => rfl
      | true =>
        have hnext := @ih (pos + (sizeofInitrdEntry + nameWord (image.bytes.drop pos)
          KINITRD_NAME_MAX)) (by omega) s'
        simp only [Option.bind_eq_bind, Option.bind_some, Bool.true_eq_false, if_false,
          List.drop_drop, Nat.add_assoc pos]
        exact hnext _

/-- **Unpacking into a tmpfs is the reader with the tmpfs below it**, wherever the image lies. -/
theorem kinitrdUnpack_eq (image : BootImage) (root : Ptr) (s : Fs) :
    s.kinitrdUnpack root image.bytes =
      (image.kinitrdUnpack (entryHandler image root) root (some s)).bind
        fun out => out.state.map (out.unpacked, ·) := by
  rw [kinitrdUnpack, BootImage.kinitrdUnpack]
  split_ifs
  · rfl
  · exact unpackLoop_eq image root _ (Nat.zero_le _) s []

end Fs

/-! ## What is accepted -/

/-- An image of one directory, and the end. -/
def oneDirectory : BootImage :=
  { start := 0x100000
    bytes := entryBytes [slash, 0x61] 0 KINITRD_DIR ++ endEntry
    start_pos := by decide
    placed := by decide +kernel }

end DelOs
