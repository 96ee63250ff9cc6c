import DelOs.Lib.Transition
import DelOs.Memory.EarlyHeap

/-!
# Runs of the early allocator

The two entry points of the early allocator move one cursor, each rounding in its own way.

* `EarlyCall`, `EarlyHeap.call` — a call of `kearly_malloc` or of `kearly_malloc_aligned`.
* `EarlyCall.Fits` — the slack of the alignment and the size do not wrap to something that fits.
* `call_granted` — what a call gives that fits, and `mallocAligned_wraps` what it gives otherwise.
* `early_disjoint` — **in every run of calls that fit, the blocks are disjoint and inside the
  heap.**
* `early_wraps` — a run with a block that goes beyond the heap.
-/

namespace DelOs

open Transition

/-! ## Calls -/

/-- `kearly_malloc(bytes)` or `kearly_malloc_aligned(bytes, alignment)`. -/
inductive EarlyCall
  | malloc (bytes : Nat)
  | mallocAligned (bytes alignment : Nat)
  deriving DecidableEq, Repr

namespace EarlyCall

def bytes : EarlyCall → Nat
  | malloc n => n
  | mallocAligned n _ => n

/-- What the result is a multiple of. -/
def alignment : EarlyCall → Nat
  | malloc _ => 1
  | mallocAligned _ a => a

/-- The arguments: any word for a size, and a power of two for an alignment. -/
def Valid : EarlyCall → Prop
  | malloc n => n < 2 ^ 32
  | mallocAligned n a => n < 2 ^ 32 ∧ ∃ k < 32, a = 2 ^ k

end EarlyCall

namespace EarlyHeap

/-- One call: the pointer that it returns, 0 for `NULL`, and the cursors behind it. -/
def call (h : EarlyHeap) : EarlyCall → Option (Nat × EarlyHeap)
  | .malloc n => h.malloc n
  | .mallocAligned n a => h.mallocAligned n a

/-- One call, without its result. -/
def step (h : EarlyHeap) (c : EarlyCall) : Option EarlyHeap := (h.call c).map Prod.snd

/-- How far the cursor is from an aligned address, as a word. -/
def slack (h : EarlyHeap) (a : Nat) : Nat := u32 (alignUp h.start a + (2 ^ 32 - h.start))

/-- What is left of the heap. -/
def room (h : EarlyHeap) : Nat := h.stop - h.start

end EarlyHeap

/-- **The sum that the aligned entry point compares with the room does not wrap**, or it is too
large all the same. -/
def EarlyCall.Fits (h : EarlyHeap) : EarlyCall → Prop
  | .malloc _ => True
  | .mallocAligned n a =>
    h.slack a + n < 2 ^ 32 ∨ h.room < h.slack a + n - 2 ^ 32

instance (h : EarlyHeap) : (c : EarlyCall) → Decidable (c.Fits h)
  | .malloc _ => isTrue trivial
  | .mallocAligned _ _ => inferInstanceAs (Decidable (_ ∨ _))

/-- The blocks that some calls were given: each with its call. -/
def granted (calls : List EarlyCall) (results : List Nat) : List (EarlyCall × Nat) :=
  (calls.zip results).filter fun g => g.2 ≠ 0

/-! ## One call -/

namespace EarlyHeap

/-- The allocator is in use. -/
structure Ready (h : EarlyHeap) : Prop where
  available : h.available = true
  start_pos : 0 < h.start
  ordered : h.Ordered

variable {h h' : EarlyHeap}

theorem Ready.usable (hr : h.Ready) : ¬ (h.available = false ∨ h.start = 0 ∨ h.stop = 0) := by
  have hpos := hr.start_pos
  have hle := hr.ordered.1
  rw [hr.available]
  rintro (hfalse | hzero | hzero)
  · cases hfalse
  · omega
  · omega

theorem Ready.room_eq (hr : h.Ready) : u32 (h.stop + (2 ^ 32 - h.start)) = h.room := by
  obtain ⟨hle, hlt⟩ := hr.ordered
  unfold u32 room
  omega

/-- What a call leaves: nothing is moved for `NULL`, and otherwise the block lies between the old
cursor and the new one. -/
structure Granted (h : EarlyHeap) (c : EarlyCall) (p : Nat) (h' : EarlyHeap) : Prop where
  null : p = 0 → h' = h
  block : p ≠ 0 → h.start ≤ p ∧ p + c.bytes ≤ h'.start ∧ p % c.alignment = 0
  start_le : h.start ≤ h'.start
  le_stop : h'.start ≤ h.stop
  stop : h'.stop = h.stop
  available : h'.available = h.available

theorem Granted.refused (hr : h.Ready) (c : EarlyCall) : Granted h c 0 h :=
  ⟨fun _ => rfl, fun hne => absurd rfl hne, le_rfl, hr.ordered.1, rfl, rfl⟩

theorem Granted.ready {c : EarlyCall} {p : Nat} (hg : Granted h c p h') (hr : h.Ready) :
    h'.Ready := by
  have hstart := hg.start_le
  have hstop := hg.le_stop
  have hpos := hr.start_pos
  exact ⟨hg.available.trans hr.available, by omega, by rw [hg.stop]; exact hstop,
    by rw [hg.stop]; exact hr.ordered.2⟩

/-- **`kearly_malloc`** rounds a size to a multiple of 8; what wraps is rounded to 0 and refused. -/
theorem malloc_granted (hr : h.Ready) {n : Nat} (hn : n < 2 ^ 32) :
    ∃ p h', h.malloc n = some (p, h') ∧ Granted h (.malloc n) p h' := by
  obtain ⟨hle, hlt⟩ := hr.ordered
  have hpos := hr.start_pos
  rw [malloc, if_neg hr.usable, hr.room_eq]
  by_cases hroom : h.room < alignUp n 8
  · exact ⟨0, h, if_pos hroom, Granted.refused hr _⟩
  rw [if_neg hroom]
  by_cases hzero : alignUp n 8 = 0
  · exact ⟨0, h, if_pos hzero, Granted.refused hr _⟩
  refine ⟨_, _, if_neg hzero, fun hp => absurd hp hpos.ne', fun _ => ?_, ?_, ?_, rfl, rfl⟩
  all_goals
    unfold alignUp u32 room at *
    dsimp only [EarlyCall.bytes, EarlyCall.alignment]
    omega

/-- An address that is rounded up is behind the old one, or it has wrapped to 0. -/
theorem alignUp_cases {x a : Nat} (ha : 0 < a) (ha32 : a ≤ 2 ^ 32) (hx : x < 2 ^ 32) :
    (x ≤ alignUp x a ∧ alignUp x a < 2 ^ 32) ∨ (alignUp x a = 0 ∧ 2 ^ 32 ≤ x + (a - 1)) := by
  unfold alignUp u32
  by_cases hwrap : x + (a - 1) < 2 ^ 32
  · left
    rw [Nat.mod_eq_of_lt hwrap]
    have hsplit := Nat.div_add_mod (x + (a - 1)) a
    have hrem := Nat.mod_lt (x + (a - 1)) ha
    rw [Nat.mul_comm] at hsplit
    omega
  · right
    rw [Nat.div_eq_of_lt (by omega), Nat.zero_mul]
    exact ⟨rfl, by omega⟩

/-- The slack of an alignment that does not wrap. -/
theorem slack_eq {a : Nat} (hle : h.start ≤ alignUp h.start a) (hlt : alignUp h.start a < 2 ^ 32) :
    h.start + h.slack a = alignUp h.start a := by
  unfold slack u32
  omega

/-- **`kearly_malloc_aligned`**, if the sum of slack and size does not wrap to something that
fits. -/
theorem mallocAligned_granted (hr : h.Ready) {n a : Nat} (hn : n < 2 ^ 32)
    (ha : ∃ k < 32, a = 2 ^ k) (hfits : EarlyCall.Fits h (.mallocAligned n a)) :
    ∃ p h', h.mallocAligned n a = some (p, h') ∧ Granted h (.mallocAligned n a) p h' := by
  obtain ⟨hle, hlt⟩ := hr.ordered
  have hpos := hr.start_pos
  obtain ⟨k, hk, rfl⟩ := ha
  have hsmall : 2 ^ k ≤ 2 ^ 32 := Nat.pow_le_pow_right (by decide) hk.le
  rw [mallocAligned, if_neg hr.usable, hr.room_eq]
  by_cases hzero : n = 0
  · exact ⟨0, h, if_pos hzero, Granted.refused hr _⟩
  rw [if_neg hzero]
  by_cases hroom : h.room < u32 (h.slack (2 ^ k) + n)
  · exact ⟨0, h, if_pos hroom, Granted.refused hr _⟩
  have hslack : h.slack (2 ^ k) < 2 ^ 32 := Nat.mod_lt _ (by decide)
  -- the sum has not wrapped, so that the block ends inside
  have htotal : h.slack (2 ^ k) + n ≤ h.room := by
    unfold EarlyCall.Fits at hfits
    unfold u32 at hroom
    omega
  have hinside : h.room < 2 ^ 32 - h.start := by
    unfold room
    omega
  have haligned : h.start + h.slack (2 ^ k) = alignUp h.start (2 ^ k) := by
    rcases alignUp_cases (Nat.two_pow_pos k) hsmall (show h.start < 2 ^ 32 by omega) with hup | hup
    · exact slack_eq hup.1 hup.2
    · have hword : h.slack (2 ^ k) = 2 ^ 32 - h.start := by
        unfold slack u32
        rw [hup.1]
        omega
      omega
  have hend : u32 (alignUp h.start (2 ^ k) + n) = alignUp h.start (2 ^ k) + n :=
    u32_eq (by omega)
  have hstop : h.room = h.stop - h.start := rfl
  refine ⟨_, _, if_neg hroom, fun hp => ?_, fun _ => ⟨?_, hend.ge, Nat.mul_mod_left _ _⟩, ?_, ?_,
    rfl, rfl⟩
  · omega
  · omega
  · show h.start ≤ u32 (alignUp h.start (2 ^ k) + n)
    omega
  · show u32 (alignUp h.start (2 ^ k) + n) ≤ h.stop
    omega

/-- **What a call gives that fits.** -/
theorem call_granted (hr : h.Ready) {c : EarlyCall} (hc : c.Valid) (hfits : c.Fits h) :
    ∃ p h', h.call c = some (p, h') ∧ Granted h c p h' := by
  cases c with
  | malloc n => exact malloc_granted hr hc
  | mallocAligned n a => exact mallocAligned_granted hr hc.1 hc.2 hfits

/-- **A sum that wraps to something that fits** is taken for it: the block goes beyond the heap, or
`NULL` is returned with the cursor set to the size. -/
theorem mallocAligned_wraps (hr : h.Ready) {n k : Nat} (hk : k < 32) (hn : n < 2 ^ 32)
    (hwraps : ¬ EarlyCall.Fits h (.mallocAligned n (2 ^ k))) :
    ∃ p h', h.mallocAligned n (2 ^ k) = some (p, h') ∧
      (p ≠ 0 ∧ h.stop < p + n ∨ p = 0 ∧ h'.start = n) := by
  obtain ⟨hle, hlt⟩ := hr.ordered
  have hpos := hr.start_pos
  have hsmall : 2 ^ k ≤ 2 ^ 32 := Nat.pow_le_pow_right (by decide) hk.le
  have hslack : h.slack (2 ^ k) < 2 ^ 32 := Nat.mod_lt _ (by decide)
  unfold EarlyCall.Fits at hwraps
  have hroom : ¬ h.room < u32 (h.slack (2 ^ k) + n) := by
    unfold u32
    omega
  rw [mallocAligned, if_neg hr.usable, hr.room_eq, if_neg (by omega)]
  refine ⟨_, _, if_neg hroom, ?_⟩
  rcases alignUp_cases (Nat.two_pow_pos k) hsmall (show h.start < 2 ^ 32 by omega) with hup | hup
  · have haligned := slack_eq hup.1 hup.2
    exact .inl ⟨by omega, by omega⟩
  · refine .inr ⟨hup.1, ?_⟩
    show u32 (alignUp h.start (2 ^ k) + n) = n
    rw [hup.1, Nat.zero_add, u32_eq hn]

/-! ## Whole runs -/

/-- What a run has given away, between the first cursor and the last one. -/
structure Tiled (h : EarlyHeap) (blocks : List (EarlyCall × Nat)) (h' : EarlyHeap) : Prop where
  ready : h'.Ready
  start_le : h.start ≤ h'.start
  stop : h'.stop = h.stop
  inside : ∀ g ∈ blocks, h.start ≤ g.2 ∧ g.2 + g.1.bytes ≤ h'.start ∧ g.2 % g.1.alignment = 0
  disjoint : blocks.Pairwise fun g g' => g.2 + g.1.bytes ≤ g'.2

/-- One more call in front of a run. -/
theorem granted_cons (c : EarlyCall) (calls : List EarlyCall) (p : Nat) (results : List Nat) :
    granted (c :: calls) (p :: results) =
      if p = 0 then granted calls results else (c, p) :: granted calls results := by
  unfold granted
  rw [List.zip_cons_cons, List.filter_cons]
  split_ifs <;> simp_all

/-- A call in front of a run. -/
theorem Granted.tiled {c : EarlyCall} {p : Nat} {mid : EarlyHeap} (hg : Granted h c p mid)
    {calls : List EarlyCall} {results : List Nat}
    (ht : Tiled mid (granted calls results) h') :
    Tiled h (granted (c :: calls) (p :: results)) h' := by
  have hfirst := hg.start_le
  have hrest := ht.start_le
  have hlater : ∀ g ∈ granted calls results, h.start ≤ g.2 ∧ g.2 + g.1.bytes ≤ h'.start ∧
      g.2 % g.1.alignment = 0 := fun g hmem =>
    ⟨hfirst.trans (ht.inside g hmem).1, (ht.inside g hmem).2⟩
  refine ⟨ht.ready, hfirst.trans hrest, ht.stop.trans hg.stop, ?_, ?_⟩
  · rw [granted_cons]
    split_ifs with hp
    · exact hlater
    · obtain ⟨hlow, hhigh, haligned⟩ := hg.block hp
      exact List.forall_mem_cons.2 ⟨⟨hlow, hhigh.trans hrest, haligned⟩, hlater⟩
  · rw [granted_cons]
    split_ifs with hp
    · exact ht.disjoint
    · obtain ⟨-, hhigh, -⟩ := hg.block hp
      exact List.pairwise_cons.2
        ⟨fun g hmem => hhigh.trans (ht.inside g hmem).1, ht.disjoint⟩

/-- **Runs of calls that fit.** -/
theorem run_tiled (hr : h.Ready) {calls : List EarlyCall} (hcalls : ∀ c ∈ calls, c.Valid)
    (hfits : Admissible step (fun h c => c.Fits h) h calls) :
    ∃ results h', outputs call h calls = some (results, h') ∧
      Tiled h (granted calls results) h' := by
  induction calls generalizing h with
  | nil =>
    exact ⟨[], h, rfl, hr, le_rfl, rfl, List.forall_mem_nil _, List.Pairwise.nil⟩
  | cons c calls ih =>
    obtain ⟨p, mid, hcall, hg⟩ := call_granted hr (hcalls c List.mem_cons_self) hfits.1
    have hstep : step h c = some mid := by rw [step, hcall]; rfl
    obtain ⟨results, h', hrun, htiled⟩ := ih (hg.ready hr)
      (fun c' h => hcalls c' (List.mem_cons_of_mem c h)) (hfits.2 mid hstep)
    exact ⟨p :: results, h', by simp [outputs, hcall, hrun], hg.tiled htiled⟩

/-- The allocator is ready behind `kearly_malloc_init`. -/
theorem ready_mallocInit {symbol : Nat} (hinit : h.mallocInit symbol = some h')
    (hpos : 0 < symbol) : h'.Ready := by
  unfold mallocInit at hinit
  split_ifs at hinit with havailable hcursors horder
  obtain rfl := Option.some.inj hinit
  have hword : u32 (symbol + kearlySize) < 2 ^ 32 := Nat.mod_lt _ (by decide)
  exact ⟨by simpa using havailable, hpos, (not_le.1 horder).le, hword⟩

end EarlyHeap

open EarlyHeap

variable {h h₀ : EarlyHeap}

/-- **Early allocations are disjoint**, in every run after `kearly_malloc_init` whose aligned calls
do not wrap: the blocks lie one behind the other inside the heap, and aligned; the cursor has not
gone back or passed the end; and the next call that does not wrap moves it only for a block. -/
theorem early_disjoint {symbol : Nat} (hinit : h.mallocInit symbol = some h₀) (hpos : 0 < symbol)
    {calls : List EarlyCall} (hcalls : ∀ c ∈ calls, c.Valid)
    (hfits : Admissible EarlyHeap.step (fun h c => c.Fits h) h₀ calls) :
    ∃ results h', outputs EarlyHeap.call h₀ calls = some (results, h') ∧
      (granted calls results).Pairwise (fun g g' => g.2 + g.1.bytes ≤ g'.2) ∧
      (∀ g ∈ granted calls results, h₀.start ≤ g.2 ∧ g.2 + g.1.bytes ≤ h₀.stop ∧
        g.2 % g.1.alignment = 0) ∧
      h₀.start ≤ h'.start ∧ h'.start ≤ h'.stop ∧ h'.stop = h₀.stop ∧
      ∀ c : EarlyCall, c.Valid → c.Fits h' → ∃ p h'', h'.call c = some (p, h'') ∧
        (p = 0 → h'' = h') ∧ h'.start ≤ h''.start ∧ h''.start ≤ h''.stop := by
  obtain ⟨results, h', hrun, ht⟩ := run_tiled (ready_mallocInit hinit hpos) hcalls hfits
  have hle := ht.ready.ordered.1
  rw [ht.stop] at hle
  refine ⟨results, h', hrun, ht.disjoint, fun g hg => ?_, ht.start_le, ht.ready.ordered.1, ht.stop,
    fun c hc hfits => ?_⟩
  · obtain ⟨hlow, hhigh, haligned⟩ := ht.inside g hg
    exact ⟨hlow, hhigh.trans hle, haligned⟩
  · obtain ⟨p, h'', hcall, hg⟩ := call_granted ht.ready hc hfits
    exact ⟨p, h'', hcall, hg.null, hg.start_le, (hg.ready ht.ready).ordered.1⟩

/-- The heap before `kearly_malloc_init`, and behind it. -/
def earlyUnset : EarlyHeap := ⟨0, 0, true⟩

def earlySet : EarlyHeap := ⟨0x200000, 0x240000, true⟩

/-- Five bytes, and then a page. -/
theorem early_disjoint_page :
    ∃ results h', outputs EarlyHeap.call earlySet [.malloc 5, .mallocAligned 4096 4096] =
        some (results, h') ∧
      (granted [.malloc 5, .mallocAligned 4096 4096] results).Pairwise
        (fun g g' => g.2 + g.1.bytes ≤ g'.2) ∧
      (∀ g ∈ granted [.malloc 5, .mallocAligned 4096 4096] results, earlySet.start ≤ g.2 ∧
        g.2 + g.1.bytes ≤ earlySet.stop ∧ g.2 % g.1.alignment = 0) ∧
      earlySet.start ≤ h'.start ∧ h'.start ≤ h'.stop ∧ h'.stop = earlySet.stop ∧
      ∀ c : EarlyCall, c.Valid → c.Fits h' → ∃ p h'', h'.call c = some (p, h'') ∧
        (p = 0 → h'' = h') ∧ h'.start ≤ h''.start ∧ h''.start ≤ h''.stop := by
  have hvalid : ∀ c ∈ [EarlyCall.malloc 5, .mallocAligned 4096 4096], c.Valid := by
    intro c hc
    rcases List.mem_cons.1 hc with rfl | hc
    · exact (by decide : 5 < 2 ^ 32)
    · rw [List.mem_singleton.1 hc]
      exact ⟨by decide, 12, by decide, rfl⟩
  exact early_disjoint (show earlyUnset.mallocInit 0x200000 = some earlySet by decide) (by decide)
    hvalid (by decide)

/-- **`kearly_malloc(8)` and `kearly_malloc_aligned(0xFFFFFFF0, 4096)`**: the second block goes
beyond the heap. -/
theorem early_wraps :
    ¬ ∀ calls : List EarlyCall, (∀ c ∈ calls, c.Valid) →
      ∃ results h', outputs EarlyHeap.call earlySet calls = some (results, h') ∧
        ∀ g ∈ granted calls results, g.2 + g.1.bytes ≤ earlySet.stop := by
  intro hclaim
  have hvalid : ∀ c ∈ [EarlyCall.malloc 8, .mallocAligned 0xFFFFFFF0 4096], c.Valid := by
    intro c hc
    rcases List.mem_cons.1 hc with rfl | hc
    · exact (by decide : 8 < 2 ^ 32)
    · rw [List.mem_singleton.1 hc]
      exact ⟨by decide, 12, by decide, rfl⟩
  obtain ⟨results, h', hrun, hinside⟩ := hclaim _ hvalid
  have hcode : outputs EarlyHeap.call earlySet [.malloc 8, .mallocAligned 0xFFFFFFF0 4096] =
      some ([0x200000, 0x201000], ⟨0x200FF0, 0x240000, true⟩) := by decide
  obtain ⟨rfl, -⟩ := Prod.mk.inj (Option.some.inj (hrun.symm.trans hcode))
  exact absurd hinside (by decide)

end DelOs
