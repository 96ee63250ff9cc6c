import DelOs.Lib.Transition
import DelOs.Memory.Pmm

/-!
# Physical pages over whole runs

A run of the page allocator is a sequence of allocations of any sizes and of releases of
outstanding ones, in any order.

* `Pmm.Exact` — a bitmap of at most `2 ^ 20` pages, page 0 used, the counter exact.
* `PmmRun`, `pmmStep` — the allocator with the ranges its callers hold.
* `PmmInv` — the ranges held are disjoint and their bits set; no other bit has moved.
* `pmm_run_owns` — **every state a run reaches satisfies it**, and each call takes only free
  pages and gives back exactly what it took.
-/

namespace DelOs

open FlagRuns Transition

/-! ## Exact bitmaps -/

/-- What `kpmm_init` establishes: the bitmap fits 32-bit addresses, page 0 is used, and the
counter is the number of clear bits. -/
structure Pmm.Exact (s : Pmm) : Prop where
  small : s.kpmmBitmap.length ≤ 2 ^ 17
  zero_used : s.flags[0]? ≠ some true
  counted : s.kpmmFreePagesAmount = s.flags.count true

namespace Pmm.Exact

variable {s t : Pmm}

theorem free_lt (he : s.Exact) : s.kpmmFreePagesAmount < 2 ^ 32 := by
  have hle := List.count_le_length (a := true) (l := s.flags)
  have hlen := s.length_flags
  have hsmall := he.small
  rw [he.counted]
  omega

/-- An allocation keeps the counter exact; what it returns, if not null, is the address of a
run of pages that were free, and it takes them and no others. -/
theorem allocPages (he : s.Exact) {n p : Nat} (h : s.allocPages n = some (p, t)) :
    t.Exact ∧ (p = 0 → t = s) ∧
      (p ≠ 0 → ∃ start, p = start * kpmmPageSize ∧ 0 < n ∧ start + n ≤ s.flags.length ∧
        FreeRun n s.flags start ∧ t.flags = setRun false s.flags start n) := by
  rcases allocPages_cases (below4G_of_length he.small) h with ⟨-, rfl, rfl⟩ |
      ⟨start, hn, hfirst, hend, rfl, hflags, hlen, hfree⟩
  · exact ⟨he, fun _ => rfl, fun hp => absurd rfl hp⟩
  · have hstart : start ≠ 0 := by
      rintro rfl
      exact he.zero_used (hfirst.1 0 hn)
    have hcount := count_setRun_false hfirst.1
    refine ⟨⟨hlen.trans_le he.small, ?_, ?_⟩, ?_, ?_⟩
    · rw [hflags, getElem?_setRun _ (by omega), if_neg (by omega)]
      exact he.zero_used
    · rw [hflags]
      have hcounted := he.counted
      have := hfree (by omega) he.free_lt
      omega
    · intro hp
      rcases Nat.mul_eq_zero.1 hp with h0 | h0
      · exact absurd h0 hstart
      · exact absurd h0 (by decide)
    · intro _
      exact ⟨start, rfl, hn, hend, hfirst.1, hflags⟩

/-- Releasing a run of used pages keeps the counter exact. -/
theorem freePages (he : s.Exact) {start n : Nat} (hstart : 0 < start) (hn : 0 < n)
    (hend : start + n ≤ s.flags.length) (hused : ∀ i < n, s.flags[start + i]? = some false) :
    ∃ t, s.freePages (start * kpmmPageSize) n = some (true, t) ∧ t.Exact ∧
      t.flags = setRun true s.flags start n := by
  have hlow : start + n ≤ 2 ^ 20 := by
    have hsmall := he.small
    rw [length_flags] at hend
    omega
  obtain ⟨t, ht, hflags, hlen, hfree⟩ := freePages_some hlow hn hend
  have hcount := count_setRun_true hused
  refine ⟨t, ht, ⟨hlen.trans_le he.small, ?_, ?_⟩, hflags⟩
  · rw [hflags, getElem?_setRun _ (by omega), if_neg (by omega)]
    exact he.zero_used
  · have hlt : s.kpmmFreePagesAmount + n < 2 ^ 32 := by
      have hle := List.count_le_length (a := true) (l := setRun true s.flags start n)
      have hsmall := he.small
      rw [length_setRun, length_flags, hcount] at hle
      rw [he.counted]
      omega
    rw [hflags, hcount, hfree hlt, he.counted]

end Pmm.Exact

/-! ## Runs -/

/-- The calls of the page allocator. -/
inductive PmmCall where
  | allocPages (pageCount : Nat)
  | freePages (pagePtr pageCount : Nat)
  deriving DecidableEq, Repr

/-- The allocator, the allocations outstanding, and all that were ever made. -/
structure PmmRun where
  pmm : Pmm
  outstanding : List (Nat × Nat)
  ever : List (Nat × Nat)

/-- One call; `none` when the kernel panics. -/
def pmmStep (s : PmmRun) : PmmCall → Option PmmRun
  | .allocPages n => (s.pmm.allocPages n).map fun r =>
      if r.1 = 0 then { s with pmm := r.2 }
      else { pmm := r.2, outstanding := (r.1, n) :: s.outstanding, ever := (r.1, n) :: s.ever }
  | .freePages p n => (s.pmm.freePages p n).map fun r =>
      { s with pmm := r.2, outstanding := s.outstanding.erase (p, n) }

/-- A caller releases only what it holds. -/
def PmmOk (s : PmmRun) : PmmCall → Prop
  | .allocPages _ => True
  | .freePages p n => (p, n) ∈ s.outstanding

instance (s : PmmRun) : ∀ call, Decidable (PmmOk s call)
  | .allocPages _ => inferInstanceAs (Decidable True)
  | .freePages p n => inferInstanceAs (Decidable ((p, n) ∈ s.outstanding))

/-! ## The invariant -/

/-- Page `k` lies in the range of an allocation. -/
def Covers (r : Nat × Nat) (k : Nat) : Prop :=
  r.1 / kpmmPageSize ≤ k ∧ k < r.1 / kpmmPageSize + r.2

/-- Two ranges share no page. -/
def Apart (r q : Nat × Nat) : Prop := ∀ k, ¬ (Covers r k ∧ Covers q k)

theorem Apart.symm {r q : Nat × Nat} (h : Apart r q) : Apart q r :=
  fun k hk => h k ⟨hk.2, hk.1⟩

theorem covers_mul {start n k : Nat} :
    Covers (start * kpmmPageSize, n) k ↔ start ≤ k ∧ k < start + n := by
  unfold Covers
  rw [Nat.mul_div_cancel _ (by decide)]

/-- A range held by a caller: a page-aligned address other than null, inside the bitmap, all of
its bits set. -/
structure Held (pmm : Pmm) (r : Nat × Nat) : Prop where
  aligned : r.1 / kpmmPageSize * kpmmPageSize = r.1
  not_null : 0 < r.1 / kpmmPageSize
  not_empty : 0 < r.2
  inside : r.1 / kpmmPageSize + r.2 ≤ pmm.flags.length
  used : ∀ k, Covers r k → pmm.flags[k]? = some false

/-- The ranges held are disjoint and used, and only pages that were allocated at some time
have changed since the start. -/
structure PmmInv (start : Pmm) (s : PmmRun) : Prop where
  exact : s.pmm.Exact
  length : s.pmm.flags.length = start.flags.length
  apart : s.outstanding.Pairwise Apart
  held : ∀ r ∈ s.outstanding, Held s.pmm r
  known : ∀ r ∈ s.outstanding, r ∈ s.ever
  untouched : ∀ k, (∀ r ∈ s.ever, ¬ Covers r k) → s.pmm.flags[k]? = start.flags[k]?

/-! ## One call -/

/-- What one call does to the bits: an allocation that returns null does nothing, any other
takes pages that were free and no others; a release clears its own range. -/
structure PmmFrame (s t : PmmRun) (call : PmmCall) : Prop where
  refused : ∀ n, call = .allocPages n → (∃ r, s.pmm.allocPages n = some (0, r)) →
    t.pmm = s.pmm
  allocated : ∀ n p r, call = .allocPages n → s.pmm.allocPages n = some (p, r) → p ≠ 0 →
    (∀ k, Covers (p, n) k → s.pmm.flags[k]? = some true ∧ t.pmm.flags[k]? = some false) ∧
    ∀ k, ¬ Covers (p, n) k → t.pmm.flags[k]? = s.pmm.flags[k]?
  freed : ∀ p n, call = .freePages p n →
    (∀ k, Covers (p, n) k → t.pmm.flags[k]? = some true) ∧
    ∀ k, ¬ Covers (p, n) k → t.pmm.flags[k]? = s.pmm.flags[k]?

variable {start : Pmm} {s t : PmmRun}

theorem PmmInv.allocated {n p : Nat} {pmm : Pmm} (hi : PmmInv start s)
    (h : s.pmm.allocPages n = some (p, pmm)) (hp : p ≠ 0) :
    PmmInv start ⟨pmm, (p, n) :: s.outstanding, (p, n) :: s.ever⟩ := by
  obtain ⟨he, -, hsome⟩ := hi.exact.allocPages h
  obtain ⟨first, rfl, hn, hend, hfree, hflags⟩ := hsome hp
  have hlen : pmm.flags.length = s.pmm.flags.length := by rw [hflags, length_setRun]
  have hget : ∀ k, pmm.flags[k]? =
      if first ≤ k ∧ k < first + n then some false else s.pmm.flags[k]? := by
    intro k
    rw [hflags]
    exact getElem?_setRun false hend k
  -- the pages taken were free, those of the ranges held were not
  have hapart : ∀ r ∈ s.outstanding, Apart (first * kpmmPageSize, n) r := by
    rintro r hr k ⟨hk, hrk⟩
    rw [covers_mul] at hk
    have hused := (hi.held r hr).used k hrk
    have hwas := hfree (k - first) (by omega)
    rw [show first + (k - first) = k by omega, hused] at hwas
    cases hwas
  have hfirst : 0 < first := by
    rcases Nat.eq_zero_or_pos first with h0 | hpos
    · exact absurd (by rw [h0, Nat.zero_mul]) hp
    · exact hpos
  refine ⟨he, hlen.trans hi.length, ?_, ?_, ?_, ?_⟩
  · exact List.pairwise_cons.2 ⟨hapart, hi.apart⟩
  · intro r hr
    rcases List.mem_cons.1 hr with rfl | hr
    · have hdiv : first * kpmmPageSize / kpmmPageSize = first :=
        Nat.mul_div_cancel _ (by decide)
      refine ⟨by rw [hdiv], by rw [hdiv]; exact hfirst, hn, ?_, ?_⟩
      · show first * kpmmPageSize / kpmmPageSize + n ≤ pmm.flags.length
        rw [hdiv, hlen]
        exact hend
      · intro k hk
        rw [hget, if_pos (covers_mul.1 hk)]
    · have hold := hi.held r hr
      refine ⟨hold.aligned, hold.not_null, hold.not_empty, ?_, ?_⟩
      · show r.1 / kpmmPageSize + r.2 ≤ pmm.flags.length
        rw [hlen]
        exact hold.inside
      · intro k hk
        rw [hget, if_neg (fun hin => hapart r hr k ⟨covers_mul.2 hin, hk⟩)]
        exact hold.used k hk
  · intro r hr
    rcases List.mem_cons.1 hr with rfl | hr
    · exact List.mem_cons_self
    · exact List.mem_cons_of_mem _ (hi.known r hr)
  · intro k hk
    show pmm.flags[k]? = start.flags[k]?
    rw [hget, if_neg (fun hin => hk _ List.mem_cons_self (covers_mul.2 hin))]
    exact hi.untouched k fun r hr => hk r (List.mem_cons_of_mem _ hr)

/-- What is held besides one range is apart from it. -/
theorem apart_of_mem_erase {l : List (Nat × Nat)} {r q : Nat × Nat} (h : l.Pairwise Apart)
    (hr : r ∈ l) (hq : q ∈ l.erase r) : Apart r q := by
  have hsymm : ∀ {a b : Nat × Nat}, Apart a b → Apart b a := fun hab => hab.symm
  have hperm := ((List.perm_cons_erase hr).pairwise_iff hsymm).1 h
  exact (List.pairwise_cons.1 hperm).1 q hq

theorem PmmInv.released {n p : Nat} (hi : PmmInv start s) (hmem : (p, n) ∈ s.outstanding) :
    ∃ pmm, s.pmm.freePages p n = some (true, pmm) ∧
      pmm.flags = setRun true s.pmm.flags (p / kpmmPageSize) n ∧
      PmmInv start { s with pmm := pmm, outstanding := s.outstanding.erase (p, n) } := by
  have hheld := hi.held _ hmem
  have hend : p / kpmmPageSize + n ≤ s.pmm.flags.length := hheld.inside
  have hused : ∀ i < n, s.pmm.flags[p / kpmmPageSize + i]? = some false := by
    intro i hlt
    refine hheld.used _ ⟨Nat.le_add_right _ _, ?_⟩
    show p / kpmmPageSize + i < p / kpmmPageSize + n
    omega
  obtain ⟨pmm, hpmm, he, hflags⟩ := hi.exact.freePages hheld.not_null hheld.not_empty hend hused
  rw [hheld.aligned] at hpmm
  refine ⟨pmm, hpmm, hflags, ?_⟩
  have hlen : pmm.flags.length = s.pmm.flags.length := by rw [hflags, length_setRun]
  have hget : ∀ k, ¬ Covers (p, n) k → pmm.flags[k]? = s.pmm.flags[k]? := by
    intro k hk
    have hout : ¬ (p / kpmmPageSize ≤ k ∧ k < p / kpmmPageSize + n) := hk
    rw [hflags, getElem?_setRun true hend, if_neg hout]
  refine ⟨he, hlen.trans hi.length, ?_, ?_, ?_, ?_⟩
  · exact hi.apart.sublist List.erase_sublist
  · intro r hr
    have hold := hi.held r (List.mem_of_mem_erase hr)
    refine ⟨hold.aligned, hold.not_null, hold.not_empty, ?_, ?_⟩
    · show r.1 / kpmmPageSize + r.2 ≤ pmm.flags.length
      rw [hlen]
      exact hold.inside
    · intro k hk
      have hout : ¬ Covers (p, n) k := fun hin =>
        apart_of_mem_erase hi.apart hmem hr k ⟨hin, hk⟩
      exact (hget k hout).trans (hold.used k hk)
  · intro r hr
    exact hi.known r (List.mem_of_mem_erase hr)
  · intro k hk
    exact (hget k (hk _ (hi.known _ hmem))).trans (hi.untouched k hk)

/-- **Every call keeps the invariant**, and touches no bits but its own. -/
theorem pmmStep_inv {call : PmmCall} (hi : PmmInv start s) (hok : PmmOk s call)
    (hstep : pmmStep s call = some t) : PmmInv start t ∧ PmmFrame s t call := by
  cases call with
  | allocPages n =>
    obtain ⟨⟨p, pmm⟩, h, rfl⟩ := Option.map_eq_some_iff.1 hstep
    obtain ⟨he, hnull, hsome⟩ := hi.exact.allocPages h
    by_cases hp : p = 0
    · subst hp
      obtain rfl := hnull rfl
      refine ⟨hi, fun _ _ _ => rfl, ?_, by rintro _ _ ⟨⟩⟩
      intro n' p' r hcall h' hne
      cases hcall
      rw [h] at h'
      cases h'
      exact absurd rfl hne
    · dsimp only
      rw [if_neg hp]
      refine ⟨hi.allocated h hp, ?_, ?_, by rintro _ _ ⟨⟩⟩
      · rintro n' hcall ⟨r, h'⟩
        cases hcall
        rw [h] at h'
        cases h'
        exact absurd rfl hp
      · intro n' p' r hcall h' _
        cases hcall
        rw [h] at h'
        cases h'
        obtain ⟨first, rfl, hn, hend, hfree, hflags⟩ := hsome hp
        have hget := getElem?_setRun false hend
        constructor
        · intro k hk
          rw [covers_mul] at hk
          have hwas := hfree (k - first) (by omega)
          rw [show first + (k - first) = k by omega] at hwas
          refine ⟨hwas, ?_⟩
          show pmm.flags[k]? = some false
          rw [hflags, hget, if_pos hk]
        · intro k hk
          rw [covers_mul] at hk
          show pmm.flags[k]? = s.pmm.flags[k]?
          rw [hflags, hget, if_neg hk]
  | freePages p n =>
    obtain ⟨⟨answer, pmm⟩, h, rfl⟩ := Option.map_eq_some_iff.1 hstep
    obtain ⟨pmm', h', hflags, hinv⟩ := hi.released hok
    rw [h] at h'
    cases h'
    have hend : p / kpmmPageSize + n ≤ s.pmm.flags.length := (hi.held _ hok).inside
    have hget : ∀ k, pmm.flags[k]? =
        if p / kpmmPageSize ≤ k ∧ k < p / kpmmPageSize + n then some true
        else s.pmm.flags[k]? := by
      intro k
      rw [hflags]
      exact getElem?_setRun true hend k
    refine ⟨hinv, by rintro _ ⟨⟩, by rintro _ _ _ ⟨⟩, ?_⟩
    intro p' n' hcall
    cases hcall
    constructor
    · intro k hk
      exact (hget k).trans (if_pos hk)
    · intro k hk
      exact (hget k).trans (if_neg hk)

/-- **Physical pages over whole runs.**  From an exact bitmap, in every state that allocations
and releases reach, the ranges outstanding are disjoint, inside the bitmap and used, the
counter is exact, and no bit outside the ranges ever allocated has changed; and every call
from there takes only free pages and gives back exactly its own. -/
theorem pmm_run_owns (he : start.Exact)
    (hrun : Reachable pmmStep PmmOk ⟨start, [], []⟩ s) :
    PmmInv start s ∧
      ∀ call t, PmmOk s call → pmmStep s call = some t → PmmFrame s t call := by
  have hinit : PmmInv start ⟨start, [], []⟩ :=
    ⟨he, rfl, List.Pairwise.nil, fun r hr => absurd hr List.not_mem_nil,
      fun r hr => absurd hr List.not_mem_nil, fun _ _ => rfl⟩
  have hi : PmmInv start s :=
    reachable_invariant (fun _ _ _ hi hok hstep => (pmmStep_inv hi hok hstep).1) hinit hrun
  exact ⟨hi, fun call t hok hstep => (pmmStep_inv hi hok hstep).2⟩

/-- A run that fragments the bitmap and fills the gap. -/
theorem pmm_run_owns_fragmented :
    ∃ s, run pmmStep ⟨⟨[0x01#8, 0x10#8], 14⟩, [], []⟩
        [.allocPages 2, .allocPages 6, .freePages 4096 2, .allocPages 1, .allocPages 3] = some s ∧
      s.outstanding = [(9 * 4096, 3), (4096, 1), (3 * 4096, 6)] ∧
      PmmInv ⟨[0x01#8, 0x10#8], 14⟩ s := by
  have he : Pmm.Exact ⟨[0x01#8, 0x10#8], 14⟩ := ⟨by decide, by decide, by decide⟩
  have hadm : Admissible pmmStep PmmOk ⟨⟨[0x01#8, 0x10#8], 14⟩, [], []⟩
      [.allocPages 2, .allocPages 6, .freePages 4096 2, .allocPages 1, .allocPages 3] := by
    decide +kernel
  exact ⟨_, rfl, by decide +kernel, (pmm_run_owns he ⟨_, hadm, rfl⟩).1⟩

end DelOs
