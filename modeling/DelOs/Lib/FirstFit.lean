import Mathlib.Tactic

/-!
# A heap of blocks, newest first

The abstract heap behind a first-fit allocator that grows at a break and never returns or
splits a block.  A heap is the list of its blocks, the newest one first, and a pointer is the
height of its block in that list: the oldest block is `1`, the newest one is the length of
the list, and `0` is the null pointer.  A block carries whatever its payload holds (`val`),
which may outlive the block's release: freeing only sets a flag.

* `get`, `update` — the block at a pointer, with the read-over-write laws (`get_update`).
* `find` — first fit, newest block first; what it returns is free and large enough
  (`get_find`), and it returns null only if no block fits (`find_eq_zero`).
* `Live` — the pointer of a block in use; pushing a block makes exactly one new live
  pointer (`live_push`).
* `top` and `address` — where the blocks lie when they are laid one after the other from a
  base address, each behind a header; distinct blocks are disjoint (`address_disjoint`).
-/

namespace FirstFit

universe u

/-- A block: the size of its payload, its free flag, what its payload holds. -/
structure Block (α : Type u) where
  size : Nat
  free : Bool
  val : α
  deriving DecidableEq, Repr

/-- A heap, the newest block first. -/
abbrev Blocks (α : Type u) := List (Block α)

variable {α : Type u}

/-! ## Blocks and pointers -/

/-- The block at a pointer. -/
def get : Blocks α → Nat → Option (Block α)
  | [], _ => none
  | b :: bs, p => if p = bs.length + 1 then some b else get bs p

/-- Change the block at a pointer. -/
def update (f : Block α → Block α) : Blocks α → Nat → Blocks α
  | [], _ => []
  | b :: bs, p => if p = bs.length + 1 then f b :: bs else b :: update f bs p

@[simp] theorem get_nil (p : Nat) : get ([] : Blocks α) p = none := rfl

theorem get_cons (b : Block α) (bs : Blocks α) (p : Nat) :
    get (b :: bs) p = if p = bs.length + 1 then some b else get bs p := rfl

@[simp] theorem length_update (f : Block α → Block α) (bs : Blocks α) (p : Nat) :
    (update f bs p).length = bs.length := by
  induction bs with
  | nil => rfl
  | cons b bs ih =>
    unfold update
    split <;> simp [ih]

theorem get_bounds {bs : Blocks α} {p : Nat} {b : Block α} (h : get bs p = some b) :
    0 < p ∧ p ≤ bs.length := by
  induction bs with
  | nil => simp at h
  | cons c bs ih =>
    rw [get_cons] at h
    split_ifs at h with hp
    · simp [hp]
    · have := ih h
      simp only [List.length_cons]
      omega

@[simp] theorem get_zero (bs : Blocks α) : get bs 0 = none := by
  cases h : get bs 0 with
  | none => rfl
  | some b => exact absurd (get_bounds h).1 (lt_irrefl 0)

/-- Reading over a change. -/
theorem get_update (f : Block α → Block α) (bs : Blocks α) (p q : Nat) :
    get (update f bs p) q = if q = p then (get bs q).map f else get bs q := by
  induction bs with
  | nil => simp [update]
  | cons b bs ih =>
    unfold update
    by_cases hp : p = bs.length + 1
    · rw [if_pos hp, get_cons, get_cons]
      by_cases hq : q = bs.length + 1
      · simp [hq, hp]
      · rw [if_neg hq, if_neg hq, if_neg (by omega)]
    · rw [if_neg hp, get_cons, get_cons, length_update, ih]
      by_cases hq : q = bs.length + 1
      · rw [if_pos hq, if_pos hq, if_neg (by omega)]
      · rw [if_neg hq, if_neg hq]

theorem get_update_ne (f : Block α → Block α) {bs : Blocks α} {p q : Nat} (h : q ≠ p) :
    get (update f bs p) q = get bs q := by
  rw [get_update, if_neg h]

theorem get_update_self (f : Block α → Block α) {bs : Blocks α} {p : Nat} {b : Block α}
    (h : get bs p = some b) : get (update f bs p) p = some (f b) := by
  rw [get_update, if_pos rfl, h, Option.map_some]

/-- Pushing a block leaves the others where they are. -/
theorem get_push {b : Block α} {bs : Blocks α} {p : Nat} (h : p ≤ bs.length) :
    get (b :: bs) p = get bs p := by
  rw [get_cons, if_neg (by omega)]

/-! ## First fit -/

/-- The newest free block of at least `need` bytes; `0` if there is none. -/
def find (need : Nat) : Blocks α → Nat
  | [] => 0
  | b :: bs => if b.free = true ∧ need ≤ b.size then bs.length + 1 else find need bs

theorem find_le (need : Nat) (bs : Blocks α) : find need bs ≤ bs.length := by
  induction bs with
  | nil => exact le_rfl
  | cons b bs ih =>
    unfold find
    split_ifs <;> simp only [List.length_cons] <;> omega

theorem get_find {need : Nat} {bs : Blocks α} (h : find need bs ≠ 0) :
    ∃ b, get bs (find need bs) = some b ∧ b.free = true ∧ need ≤ b.size := by
  induction bs with
  | nil => exact absurd rfl h
  | cons b bs ih =>
    unfold find at h ⊢
    split_ifs at h ⊢ with hb
    · exact ⟨b, by simp [get_cons], hb.1, hb.2⟩
    · obtain ⟨c, hc, hfree⟩ := ih h
      exact ⟨c, by rw [get_push (find_le need bs)]; exact hc, hfree⟩

theorem find_eq_zero {need : Nat} {bs : Blocks α} (h : find need bs = 0) :
    ∀ p b, get bs p = some b → b.free = true → b.size < need := by
  induction bs with
  | nil => simp
  | cons b bs ih =>
    unfold find at h
    split_ifs at h with hb
    intro p c hc hfree
    rw [get_cons] at hc
    split_ifs at hc with hp
    · obtain rfl := Option.some.inj hc
      by_contra hlt
      exact hb ⟨hfree, by omega⟩
    · exact ih h p c hc hfree

/-! ## Blocks in use -/

/-- `p` points to a block in use. -/
def Live (bs : Blocks α) (p : Nat) : Prop := ∃ b, get bs p = some b ∧ b.free = false

theorem live_push {b : Block α} (hb : b.free = false) {bs : Blocks α} {q : Nat} :
    Live (b :: bs) q ↔ q = bs.length + 1 ∨ Live bs q := by
  unfold Live
  rw [get_cons]
  by_cases hq : q = bs.length + 1
  · simp [hq, hb]
  · simp [hq]

theorem not_live_of_free {bs : Blocks α} {p : Nat} {b : Block α} (h : get bs p = some b)
    (hb : b.free = true) : ¬ Live bs p := by
  rintro ⟨c, hc, hfree⟩
  obtain rfl := Option.some.inj (h.symm.trans hc)
  rw [hb] at hfree
  exact absurd hfree (by decide)

/-! ## Addresses -/

/-- The address after the last block, when the blocks are laid one after the other from
`base`, each behind a header of `hdr` bytes. -/
def top (hdr base : Nat) : Blocks α → Nat
  | [] => base
  | b :: bs => top hdr base bs + hdr + b.size

/-- The payload address of the block at a pointer; `0` for a pointer to no block. -/
def address (hdr base : Nat) : Blocks α → Nat → Nat
  | [], _ => 0
  | _ :: bs, p => if p = bs.length + 1 then top hdr base bs + hdr else address hdr base bs p

variable (hdr base : Nat)

theorem base_le_top (bs : Blocks α) : base ≤ top hdr base bs := by
  induction bs with
  | nil => exact le_rfl
  | cons b bs ih => simp only [top]; omega

theorem address_bounds {bs : Blocks α} {p : Nat} {b : Block α} (h : get bs p = some b) :
    base + hdr ≤ address hdr base bs p ∧ address hdr base bs p + b.size ≤ top hdr base bs := by
  induction bs with
  | nil => simp at h
  | cons c bs ih =>
    simp only [get_cons] at h
    simp only [address, top]
    split_ifs at h ⊢ with hp
    · obtain rfl := Option.some.inj h
      have := base_le_top hdr base bs
      omega
    · have := ih h
      omega

/-- Distinct blocks, headers included, do not overlap: the older one ends below the header
of the newer one. -/
theorem address_disjoint {bs : Blocks α} {p q : Nat} {b c : Block α} (hp : get bs p = some b)
    (hq : get bs q = some c) (hpq : p < q) :
    address hdr base bs p + b.size + hdr ≤ address hdr base bs q := by
  induction bs with
  | nil => simp at hp
  | cons d bs ih =>
    have hqle : q ≤ bs.length + 1 := by simpa using (get_bounds hq).2
    simp only [get_cons] at hp hq
    simp only [address]
    rw [if_neg (by omega : ¬p = bs.length + 1)] at hp ⊢
    split_ifs at hq ⊢ with he
    · have := (address_bounds hdr base hp).2
      omega
    · exact ih hp hq

theorem address_injective {bs : Blocks α} {p q : Nat} {b c : Block α} (hp : get bs p = some b)
    (hq : get bs q = some c) (hh : 0 < hdr)
    (h : address hdr base bs p = address hdr base bs q) : p = q := by
  rcases lt_trichotomy p q with hlt | heq | hgt
  · have := address_disjoint hdr base hp hq hlt
    omega
  · exact heq
  · have := address_disjoint hdr base hq hp hgt
    omega

theorem top_update (f : Block α → Block α) (hf : ∀ b, (f b).size = b.size) (bs : Blocks α)
    (p : Nat) : top hdr base (update f bs p) = top hdr base bs := by
  induction bs with
  | nil => rfl
  | cons b bs ih =>
    unfold update
    split_ifs <;> simp [top, hf, ih]

theorem address_update (f : Block α → Block α) (hf : ∀ b, (f b).size = b.size) (bs : Blocks α)
    (p q : Nat) : address hdr base (update f bs p) q = address hdr base bs q := by
  induction bs with
  | nil => rfl
  | cons b bs ih =>
    unfold update
    split_ifs <;> simp [address, top_update hdr base f hf, ih]

@[simp] theorem address_zero (bs : Blocks α) : address hdr base bs 0 = 0 := by
  induction bs with
  | nil => rfl
  | cons b bs ih => simpa [address] using ih

theorem address_push {b : Block α} {bs : Blocks α} {p : Nat} (h : p ≤ bs.length) :
    address hdr base (b :: bs) p = address hdr base bs p := by
  simp only [address]
  rw [if_neg (by omega)]

end FirstFit
