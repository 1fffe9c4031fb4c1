import AlaphiOS.Memory.BuddyTiling
import Mathlib.Algebra.Order.Ring.Nat

/-!
# The buddy heap over whole runs

`init`, `alloc_inner` and `dealloc_inner` composed from the moves of
`BuddyTiling`, and then over every run in which clients free what they were
given and scribble over the blocks they hold.

The run invariant is `Tiled` with the live blocks as the used ones. Two things
make it survive arbitrary client writes: a live block is apart from every free
block (so no link word changes), and `Tiled` says nothing about the bytes of a
used block.
-/

namespace AlaphiOS.Memory

open Lib Function List Option

/-! ## Orders -/

/-- A loop of at most `k` rounds that counts up while `P` holds. -/
theorem scan_spec {scan : Nat → Nat → Nat} {P : Nat → Prop} (hend : ∀ i, scan 0 i = i)
    (hskip : ∀ k i, P i → scan (k + 1) i = scan k (i + 1))
    (hstop : ∀ k i, ¬ P i → scan (k + 1) i = i) (k i : Nat) :
    i ≤ scan k i ∧ scan k i ≤ i + k ∧ (scan k i < i + k → ¬ P (scan k i)) ∧
      ∀ j, i ≤ j → j < scan k i → P j := by
  induction k generalizing i with
  | zero =>
    rw [hend]
    exact ⟨le_rfl, le_rfl, fun h => absurd h (by omega), fun j _ _ => absurd ‹i ≤ j› (by omega)⟩
  | succ k ih =>
    by_cases hP : P i
    · rw [hskip k i hP]
      obtain ⟨h₁, h₂, h₃, h₄⟩ := ih (i + 1)
      refine ⟨by omega, by omega, fun h => h₃ (by omega), fun j hj hlt => ?_⟩
      rcases Nat.eq_or_lt_of_le hj with rfl | hj
      · exact hP
      · exact h₄ j hj hlt
    · rw [hstop k i hP]
      exact ⟨le_rfl, by omega, fun _ => hP, fun j _ _ => absurd ‹i ≤ j› (by omega)⟩

theorem orderLoop_spec (size k ord : Nat) :
    ord ≤ orderLoop size k ord ∧ orderLoop size k ord ≤ ord + k ∧
      (orderLoop size k ord < ord + k → ¬ blockSize (orderLoop size k ord) < size) ∧
      ∀ j, ord ≤ j → j < orderLoop size k ord → blockSize j < size :=
  scan_spec (P := fun i => blockSize i < size) (fun _ => rfl) (fun _ _ h => if_pos h)
    (fun _ _ h => if_neg h) k ord

theorem layoutOrder_le (layout : Layout) : layoutOrder layout ≤ maxOrder := by
  have := (orderLoop_spec (requestSize layout) maxOrder 0).2.1
  unfold layoutOrder
  omega

/-- The search stops at the first list that is not empty, or behind the last. -/
theorem findOrder_spec (h : Arena) (k found : Nat) :
    found ≤ findOrder h k found ∧ findOrder h k found ≤ found + k ∧
      (findOrder h k found < found + k → h.freeLists (findOrder h k found) ≠ 0) ∧
      ∀ j, found ≤ j → j < findOrder h k found → h.freeLists j = 0 :=
  scan_spec (P := fun i => h.freeLists i = 0) (fun _ => rfl) (fun _ _ h => if_pos h)
    (fun _ _ h => if_neg h) k found

variable {s s' : HeapState} {curr end_ ord size start : Nat} {layout : Layout}

/-- A block big enough for a layout's alignment is aligned to it: both are
powers of two. -/
theorem align_dvd_blockSize
    (h : requestSize layout ≤ blockSize ord) : layout.align ∣ blockSize ord := by
  obtain ⟨k, hk⟩ := layout.align_pow
  have hle : layout.align ≤ blockSize ord :=
    Nat.le_trans (Nat.le_trans (Nat.le_max_right _ _) (Nat.le_max_left _ _)) h
  rw [hk, blockSize_eq] at hle ⊢
  exact Nat.pow_dvd_pow 2 ((Nat.pow_le_pow_iff_right (by decide)).mp hle)

/-! ## The operations keep the tiling -/

section Operations

variable {free : Nat → List Nat} {used : List Block} {R : Region}

/-- Splitting down to `ord` leaves the lowest block of that order in hand. Where
the lists on the way were empty, each upper half comes without its buddy. -/
theorem splitLoop_tiled {block : Nat} (k : Nat) {h : Arena}
    (t : Tiled h free (⟨block, ord + k⟩ :: used) R) :
    ∃ free', Tiled (splitLoop block ord k h) free' (⟨block, ord⟩ :: used) R ∧
      ((∀ j, ord ≤ j → j < ord + k → free j = []) → Coalesced free → Coalesced free') := by
  induction k generalizing h free with
  | zero => exact ⟨free, t, fun _ hc => hc⟩
  | succ k ih =>
    rw [splitLoop]
    obtain ⟨free', t', hco⟩ := ih (addToFreeList_tiled (split_tiled t))
    refine ⟨free', t', fun hempty hc => hco (fun j hj hlt => ?_) (hc.push fun _ => ?_)⟩
    · rw [update_of_ne (by omega)]
      exact hempty j hj (by omega)
    · rw [hempty (ord + k) (by omega) (by omega)]
      exact not_mem_nil

variable {h : Arena}

/-- `alloc_inner` either gives up without touching anything, or moves a block
big enough for the layout from the free lists to the used ones. -/
theorem allocInner_tiled (t : Tiled h free used R) (layout : Layout) :
    allocInner h layout = (h, 0) ∨
    (requestSize layout ≤ blockSize (layoutOrder layout) ∧
      ∃ free', Tiled (allocInner h layout).1 free'
        (⟨(allocInner h layout).2, layoutOrder layout⟩ :: used) R ∧
        (Coalesced free → Coalesced free')) := by
  unfold allocInner
  dsimp only
  split
  · exact .inl rfl
  next hsize =>
    split
    · exact .inl rfl
    next hfound =>
      right
      refine ⟨Nat.le_of_not_lt hsize, ?_⟩
      have hord := layoutOrder_le layout
      -- The first list at or above the order that is not empty; its head is split down to the
      -- order.
      obtain ⟨hle, _, hne, hnull⟩ := findOrder_spec h (maxOrder + 1 - layoutOrder layout)
        (layoutOrder layout)
      generalize findOrder h (maxOrder + 1 - layoutOrder layout) (layoutOrder layout) = found
        at hfound hle hne hnull
      have hfree : h.freeLists found ≠ 0 := hne (by omega)
      obtain ⟨l, hl, tpop⟩ := pop_tiled t (i := found) (by omega) hfree
      have hk : layoutOrder layout + (found - layoutOrder layout) = found := by omega
      obtain ⟨free', t', hco⟩ :=
        splitLoop_tiled (found - layoutOrder layout) (by rw [hk]; exact tpop)
      refine ⟨free', t', fun hc => hco (fun j hj hlt => ?_) (hc.shrink ?_)⟩
      · rw [update_of_ne (by omega)]
        have hchain := t.chain j (by omega)
        rw [hnull j hj (by omega), ptr_zero] at hchain
        exact hchain.of_none
      · rw [hl]
        exact subset_cons_self _ _

/-- Freeing a block merges it upwards as far as its buddies are free and puts
the result back, so the block put back has no free buddy. -/
theorem mergeLoop_tiled : ∀ (k : Nat) {h : Arena} {free : Nat → List Nat} {current ord : Nat},
    ord + k = maxOrder → Tiled h free (⟨current, ord⟩ :: used) R →
      ∃ h' free', mergeLoop k h current ord = some h' ∧ Tiled h' free' used R ∧
        (Coalesced free → Coalesced free') := by
  intro k
  -- At most as many merges as there are orders above.
  induction k with
  | zero =>
    intro h free current ord hk t
    exact ⟨_, _, rfl, addToFreeList_tiled t, fun hc => hc.push fun hlt => absurd hlt (by omega)⟩
  | succ k ih =>
    intro h free current ord hk t
    have hord : ord ≤ maxOrder := by omega
    have hlen := t.length_le hord
    rw [← t.heap.2] at hlen
    rcases findBuddy_tiled (current ^^^ blockSize ord) t hord (h.heapSize + 1) .head [] (free ord)
        rfl (t.chain ord hord) rfl (by omega) (by simp)
      with ⟨hnot, hbuddy⟩ | ⟨h', pre, post, hfound, hl, t'⟩
    -- The buddy is not free: the block goes to the list of its order.
    · refine ⟨_, _, ?_, addToFreeList_tiled t, fun hc => hc.push fun _ => hbuddy⟩
      rw [mergeLoop]
      simp only [hnot, bind_eq_bind, bind_some, Bool.false_eq_true, if_false]
    -- The buddy has been unlinked; the block of the next order is freed in turn.
    · obtain ⟨h'', free'', hrun, t'', hco⟩ :=
        ih (show ord + 1 + k = maxOrder by omega) (merge_tiled (by omega) t')
      refine ⟨h'', free'', ?_, t'', fun hc => hco (hc.shrink ?_)⟩
      · rw [mergeLoop]
        simp only [hfound, bind_eq_bind, bind_some, if_true]
        exact hrun
      · rw [hl]
        exact (sublist_cons_self _ _).append_left _ |>.subset

theorem deallocInner_tiled {p : Nat} (t : Tiled h free (⟨p, layoutOrder layout⟩ :: used) R) :
    ∃ h' free', deallocInner h p layout = some h' ∧ Tiled h' free' used R ∧
      (Coalesced free → Coalesced free') := by
  have hord := layoutOrder_le layout
  exact mergeLoop_tiled (maxOrder - layoutOrder layout) (by omega) t

/-- Bytes of a used block are the client's: changing them disturbs nothing. -/
theorem write_tiled {b : Block} {a : Nat} {v : UInt8}
    (t : Tiled h free used R) (hb : b ∈ used) (ha : b.span.Has a) :
    Tiled { h with mem := update h.mem a v } free used R where
  chain := by
    intro i hi
    refine (t.chain i hi).frame (fun c hc => readWord_congr (fun x h₁ h₂ => ?_))
    have hap := t.free_apart_used hi hc hb
    have hge := blockSize_ge i
    simp only [Span.Apart, Span.Has, Block.span] at hap ha
    exact update_of_ne (by omega) _ _
  freeAl := t.freeAl
  usedAl := t.usedAl
  cov := t.cov
  heap := t.heap

end Operations

/-! ## `init` builds a tiling -/

/-- The order `init` picks is `0`, or its block is aligned and ends in time; no
larger block would be. -/
theorem initOrder_spec (n : Nat) (h : initOrder curr end_ n = some ord) :
    ord ≤ n ∧ (ord = 0 ∨ (blockSize ord ∣ curr ∧ curr + blockSize ord ≤ end_)) ∧
      ∀ j, ord < j → j ≤ n → blockSize j ∣ curr → end_ < curr + blockSize j := by
  induction n generalizing ord with
  | zero =>
    cases h
    exact ⟨le_rfl, .inl rfl, fun j hlt hle => absurd hlt (by omega)⟩
  | succ n ih =>
    rw [initOrder] at h
    obtain ⟨top, htop, h⟩ := bind_inv h
    obtain ⟨rfl, _⟩ := usizeAdd_eq htop
    have hmask : curr &&& (blockSize (n + 1) - 1) = 0 ↔ blockSize (n + 1) ∣ curr := by
      rw [blockSize_eq, Nat.and_two_pow_sub_one_eq_mod, Nat.dvd_iff_mod_eq_zero]
    split at h
    next hok =>
      cases h
      exact ⟨le_rfl, .inr ⟨hmask.mp hok.2, hok.1⟩, fun j hlt hle => absurd hlt (by omega)⟩
    next hno =>
      obtain ⟨hle, hcase, hmax⟩ := ih h
      refine ⟨by omega, hcase, fun j hlt hj hdvd => ?_⟩
      rcases Nat.eq_or_lt_of_le hj with rfl | hj
      · exact Nat.lt_of_not_le fun hfit => hno ⟨hfit, hmask.mpr hdvd⟩
      · exact hmax j hlt (by omega) hdvd

theorem blockSize_mono {i j : Nat} (h : i ≤ j) : blockSize i ≤ blockSize j :=
  Nat.le_of_dvd (Nat.lt_of_lt_of_le (by decide) (blockSize_ge j)) (blockSize_dvd h)

theorem initOrder_isSome (end_ : Nat) (n : Nat) (hn : curr + blockSize n < 2 ^ 64) :
    (initOrder curr end_ n).isSome := by
  induction n with
  | zero => rfl
  | succ n ih =>
    have hle : blockSize n ≤ blockSize (n + 1) := blockSize_mono (Nat.le_succ n)
    rw [initOrder, usizeAdd, bind_of_eq (if_pos hn)]
    split
    · rfl
    · exact ih (by omega)

theorem initLoop_isSome (hend : end_ + blockSize maxOrder ≤ 2 ^ 64) (fuel curr : Nat) (h : Arena) :
    (initLoop end_ fuel curr h).isSome := by
  induction fuel generalizing curr h with
  | zero => rfl
  | succ fuel ih =>
    rw [initLoop]
    split
    next hlt =>
      obtain ⟨ord, hord⟩ := isSome_iff_exists.mp
        (initOrder_isSome end_ maxOrder (show curr + blockSize maxOrder < 2 ^ 64 by omega))
      have hle := blockSize_mono (initOrder_spec maxOrder hord).1
      rw [hord, bind_eq_bind, bind_some, usizeAdd, if_pos (by omega),
        bind_some]
      split
      · rfl
      · exact ih _ _
    · rfl

/-- No address sum of `init` overflows when the heap ends one largest block
short of the address space. -/
theorem init_isSome (h : Arena)
    (hend : start + size + blockSize maxOrder ≤ 2 ^ 64) : (init h start size).isSome := by
  have hpos := blockSize_ge maxOrder
  rw [init, usizeAdd, if_pos (by omega)]
  exact initLoop_isSome hend _ _ _

/-- The heap of `init` after it has placed everything up to `curr`. -/
def initRegion (start size curr : Nat) (hpos : 0 < start) (htop : start + size < 2 ^ 64)
    (hcurr : curr ≤ start + size) : Region where
  start := start
  size := size
  count := fun x => if start ≤ x ∧ x < curr then 1 else 0
  once := fun x => by split <;> omega
  inHeap := fun x hx => by
    split at hx
    next h => omega
    · exact absurd rfl hx
  start_pos := hpos
  top := htop

variable {hpos : 0 < start} {htop : start + size < 2 ^ 64}

/-- Counting the next block in: what `init` has placed grows by one block. -/
theorem initRegion_grow {h : Arena} {free : Nat → List Nat} {hcurr : curr ≤ start + size}
    (hle : start ≤ curr) (hord : ord ≤ maxOrder) (hal : blockSize ord ∣ curr)
    (hend : curr + blockSize ord ≤ start + size)
    (t : Tiled h free [] (initRegion start size curr hpos htop hcurr)) :
    Tiled h free [⟨curr, ord⟩]
      (initRegion start size (curr + blockSize ord) hpos htop hend) where
  chain := t.chain
  freeAl := t.freeAl
  usedAl := fun b hb => by
    obtain rfl := mem_singleton.mp hb
    exact ⟨hord, hal⟩
  cov := by
    intro x
    have hc := t.cov x
    rw [cover_usedSpans_cons]
    rw [show cover (usedSpans []) x = 0 from rfl] at hc ⊢
    have hnew : (Block.mk curr ord).span.Has x ↔ curr ≤ x ∧ x < curr + blockSize ord := Iff.rfl
    simp only [initRegion, Nat.add_zero, Nat.zero_add] at hc ⊢
    rw [hc]
    -- An address is in the old part, in the new block or in neither.
    by_cases hold : start ≤ x ∧ x < curr
    · rw [if_pos hold, if_neg (by rw [hnew]; omega), if_pos (by omega)]
    · rw [if_neg hold]
      by_cases hx : (Block.mk curr ord).span.Has x
      · rw [if_pos hx, if_pos (by rw [hnew] at hx; omega)]
      · rw [if_neg hx, if_neg (by rw [hnew] at hx; omega)]
  heap := t.heap

/-- No block below the top order could have been placed one order larger. -/
def Greedy (end_ : Nat) (free : Nat → List Nat) : Prop :=
  ∀ i, i < maxOrder → ∀ a ∈ free i, blockSize (i + 1) ∣ a → end_ < a + blockSize (i + 1)

theorem Greedy.push {free : Nat → List Nat} (hg : Greedy end_ free)
    (hmax : ∀ j, ord < j → j ≤ maxOrder → blockSize j ∣ curr → end_ < curr + blockSize j) :
    Greedy end_ (update free ord (curr :: free ord)) := by
  intro i hi a ha hdvd
  by_cases hio : i = ord
  · subst hio
    rw [update_self] at ha
    rcases mem_cons.mp ha with rfl | ha
    · exact hmax (i + 1) (Nat.lt_succ_self i) hi hdvd
    · exact hg i hi a ha hdvd
  · rw [update_of_ne hio] at ha
    exact hg i hi a ha hdvd

/-- Of two free buddies the lower one could have been placed one order larger. -/
theorem Greedy.coalesced {h : Arena} {free : Nat → List Nat} {used : List Block} {R : Region}
    (hg : Greedy (R.start + R.size) free) (t : Tiled h free used R) : Coalesced free := by
  intro i hi a ha hb
  have hin := t.free_inHeap (Nat.le_of_lt hi) ha
  have hin' := t.free_inHeap (Nat.le_of_lt hi) hb
  have hsucc := blockSize_succ i
  rcases buddy_cases (t.freeAl i (Nat.le_of_lt hi) a ha) with ⟨hup, hdvd⟩ | ⟨hdown, hdvd⟩
  · have := hg i hi a ha hdvd
    omega
  · have := hg i hi _ hb hdvd
    omega

/-- The loop of `init` places everything up to the last multiple of
`MIN_BLOCK_SIZE`, each block as large as it can be: fuel for each remaining
minimal block is enough. -/
theorem initLoop_tiled : ∀ (fuel : Nat) {curr : Nat} {h h' : Arena} {free : Nat → List Nat}
      {hcurr : curr ≤ start + size}, start ≤ curr → minBlockSize ∣ curr →
      (start + size - curr) / minBlockSize < fuel →
      Tiled h free [] (initRegion start size curr hpos htop hcurr) →
      Greedy (start + size) free →
      initLoop (start + size) fuel curr h = some h' →
      ∃ last, ∃ hlast : last ≤ start + size, start + size < last + minBlockSize ∧
        minBlockSize ∣ last ∧
        ∃ free', Tiled h' free' [] (initRegion start size last hpos htop hlast) ∧
          Greedy (start + size) free' := by
  intro fuel
  induction fuel with
  | zero => intro curr h h' free hcurr _ _ hf; exact absurd hf (Nat.not_lt_zero _)
  | succ fuel ih =>
    intro curr h h' free hcurr hle hal hf t hg hrun
    rw [initLoop] at hrun
    split at hrun
    next hlt =>
      obtain ⟨ord, hord, hrun⟩ := bind_inv hrun
      obtain ⟨top, htop', hrun⟩ := bind_inv hrun
      obtain ⟨rfl, _⟩ := usizeAdd_eq htop'
      obtain ⟨hordle, hcase, hmax⟩ := initOrder_spec maxOrder hord
      have hsize := blockSize_ge ord
      split at hrun
      next hover =>
        -- only the minimal block can fail to fit
        cases hrun
        refine ⟨curr, hcurr, ?_, hal, free, t, hg⟩
        rcases hcase with rfl | ⟨_, hfit⟩
        · exact hover
        · omega
      next hfit =>
        have hfit : curr + blockSize ord ≤ start + size := Nat.le_of_not_lt hfit
        have hdvd : blockSize ord ∣ curr := by
          rcases hcase with rfl | ⟨hd, _⟩
          · exact hal
          · exact hd
        have t' := addToFreeList_tiled (initRegion_grow hle hordle hdvd hfit t)
        refine ih (by omega) ?_ ?_ t' (hg.push hmax) hrun
        · exact Nat.dvd_add hal (blockSize_dvd (Nat.zero_le ord))
        · have hlt' : (start + size - (curr + blockSize ord)) / minBlockSize
              < (start + size - curr) / minBlockSize := by
            unfold minBlockSize
            omega
          omega
    next hge =>
      cases hrun
      exact ⟨curr, hcurr, by unfold minBlockSize; omega, hal, free, t, hg⟩

/-- `init` tiles `[heap_start, heap_start + heap_size)` up to a remainder
smaller than a block, and leaves no two buddies free. -/
theorem init_tiled {m : Mem} {h : Arena} (hpos : 0 < start)
    (hal : minBlockSize ∣ start) (hinit : init (Arena.empty m) start size = some h) :
    ∃ last, ∃ htop : start + size < 2 ^ 64, ∃ hlast : last ≤ start + size,
      start + size < last + minBlockSize ∧ minBlockSize ∣ last ∧
      ∃ free, Tiled h free [] (initRegion start size last hpos htop hlast) ∧
        Coalesced free := by
  unfold init at hinit
  obtain ⟨end_, hend, hrun⟩ := bind_inv hinit
  obtain ⟨rfl, htop⟩ := usizeAdd_eq hend
  -- Before the loop nothing is placed and nothing is free.
  have t₀ : Tiled { Arena.empty m with heapStart := start, heapSize := size } (fun _ => []) []
      (initRegion start size start hpos htop (Nat.le_add_right _ _)) := by
    refine ⟨fun i _ => .nil, by simp,
      by simp, fun x => ?_, rfl, rfl⟩
    have hfs : cover (freeSpans fun _ => []) x = 0 := by
      refine Nat.eq_zero_of_not_pos (fun hp => ?_)
      obtain ⟨s, hs, _⟩ := cover_pos_iff.mp hp
      obtain ⟨k, _, hk⟩ := mem_families.mp hs
      exact absurd hk (by simp [listSpans])
    rw [hfs]
    simp only [initRegion]
    rw [if_neg (by omega)]
    rfl
  obtain ⟨last, hlast, hclose, hdvd, free, t, hg⟩ :=
    initLoop_tiled (size / minBlockSize + 1) le_rfl hal
      (by rw [Nat.add_sub_cancel_left]; omega) t₀ (by simp [Greedy]) hrun
  exact ⟨last, htop, hlast, hclose, hdvd, free, t, hg.coalesced t⟩

/-! ## Runs -/

/-- The allocator and, as a ghost, what it has handed out and not got back. -/
structure HeapState where
  arena : Arena
  live : List (Nat × Layout)

/-- What clients can do: allocate, free what they were given, and write bytes
of the blocks they hold. -/
inductive HeapOp where
  | alloc (layout : Layout)
  | dealloc (ptr : Nat) (layout : Layout)
  | write (addr : Nat) (byte : UInt8)

/-- The block behind a live pointer. -/
def liveBlock (pl : Nat × Layout) : Block := ⟨pl.1, layoutOrder pl.2⟩

/-- One call of the allocator. -/
def heapStep (s : HeapState) : HeapOp → Option HeapState
  | .alloc layout =>
    let r := allocInner s.arena layout
    some ⟨r.1, if r.2 = 0 then s.live else (r.2, layout) :: s.live⟩
  | .dealloc ptr layout =>
    if (ptr, layout) ∈ s.live then
      (deallocInner s.arena ptr layout).map fun h => ⟨h, s.live.erase (ptr, layout)⟩
    else none
  | .write addr byte =>
    if ∃ pl ∈ s.live, (liveBlock pl).span.Has addr then
      some { s with arena := { s.arena with mem := update s.arena.mem addr byte } }
    else none

/-- The run invariant: the live blocks are the used ones of a tiling. -/
def HeapInv (R : Region) (s : HeapState) : Prop :=
  ∃ free, Tiled s.arena free (s.live.map liveBlock) R

variable {op : HeapOp}

/-- Each operation keeps the tiling, and leaves no new pair of free buddies. -/
theorem heapStep_tiled {R : Region} {free : Nat → List Nat}
    (t : Tiled s.arena free (s.live.map liveBlock) R) (hstep : heapStep s op = some s') :
    ∃ free', Tiled s'.arena free' (s'.live.map liveBlock) R ∧
      (Coalesced free → Coalesced free') := by
  cases op with
  | alloc layout =>
    cases hstep
    rcases allocInner_tiled t layout with hnull | ⟨_, free', t', hco⟩
    · rw [hnull]
      exact ⟨free, t, id⟩
    · have hne : (allocInner s.arena layout).2 ≠ 0 := by
        have := (t'.used_inHeap mem_cons_self).1
        have := R.start_pos
        simp only at *
        omega
      refine ⟨free', ?_, hco⟩
      rw [if_neg hne]
      exact t'
  -- The caller gives back a block it has, with the layout it had it for.
  | dealloc p layout =>
    unfold heapStep at hstep
    dsimp only at hstep
    split at hstep
    next hmem =>
      have hperm : (s.live.map liveBlock).Perm
          (⟨p, layoutOrder layout⟩ :: (s.live.erase (p, layout)).map liveBlock) :=
        (perm_cons_erase hmem).map liveBlock
      obtain ⟨h', free', hd, t', hco⟩ := deallocInner_tiled (t.perm hperm)
      rw [hd] at hstep
      cases hstep
      exact ⟨free', t', hco⟩
    · cases hstep
  -- Callers write only into their own blocks, where the allocator keeps nothing.
  | write addr byte =>
    unfold heapStep at hstep
    dsimp only at hstep
    split at hstep
    next hown =>
      obtain ⟨pl, hpl, hhas⟩ := hown
      cases hstep
      exact ⟨free, write_tiled t (mem_map.mpr ⟨pl, hpl, rfl⟩) hhas, id⟩
    · cases hstep

theorem heapStep_inv {R : Region}
    (hI : HeapInv R s) (hstep : heapStep s op = some s') : HeapInv R s' := by
  obtain ⟨free, t⟩ := hI
  obtain ⟨free', t', _⟩ := heapStep_tiled t hstep
  exact ⟨free', t'⟩

theorem exec_heapInv {R : Region} {ops : List HeapOp}
    (hI : HeapInv R s) (h : exec heapStep s ops = some s') : HeapInv R s' :=
  exec_induction (P := fun _ _ => True) (fun _ _ _ hI _ hs => heapStep_inv hI hs)
    hI along_true h

/-! ## Safety -/

/-- Following the links of `free_lists[0..=MAX_ORDER]` finds the blocks `free`. -/
def ListsHold (h : Arena) (free : Nat → List Nat) : Prop :=
  ∀ i, i ≤ maxOrder → Chain h.mem (ptr (h.freeLists i)) (free i)

/-- The free blocks, found by following the links, and the live blocks do not
overlap and make up the same bytes as the lists `free₀`; blocks of list `i` are
aligned to `32 << i`. -/
def Partitioned (free₀ : Nat → List Nat) (s : HeapState) : Prop :=
  ∃ free, ListsHold s.arena free ∧
    (∀ i, i ≤ maxOrder → ∀ a ∈ free i, blockSize i ∣ a) ∧
    (freeSpans free ++ usedSpans (s.live.map liveBlock)).Pairwise Span.Apart ∧
    ∀ x, (∃ sp ∈ freeSpans free ++ usedSpans (s.live.map liveBlock), sp.Has x)
      ↔ ∃ sp ∈ freeSpans free₀, sp.Has x

/-- A result `p` of an allocation in `s` is good: aligned, big enough, inside
the heap and apart from every live block. -/
def GoodBlock (start size : Nat) (s : HeapState) (layout : Layout) (p : Nat) : Prop :=
  layout.align ∣ p ∧ layout.size ≤ blockSize (layoutOrder layout) ∧
    start ≤ p ∧ p + blockSize (layoutOrder layout) ≤ start + size ∧
    ∀ pl ∈ s.live, (Block.mk p (layoutOrder layout)).span.Apart (liveBlock pl).span

theorem HeapInv.partitioned {R : Region} {free₀ : Nat → List Nat}
    (h₀ : ∀ x, cover (freeSpans free₀) x = R.count x) (hI : HeapInv R s) :
    Partitioned free₀ s := by
  obtain ⟨free, t⟩ := hI
  refine ⟨free, t.chain, t.freeAl, t.pairwise, fun x => ?_⟩
  rw [← cover_pos_iff, ← cover_pos_iff, cover_append, t.cov, h₀]

theorem HeapInv.goodBlock {R : Region} (hI : HeapInv R s) (layout : Layout)
    (hne : (allocInner s.arena layout).2 ≠ 0) :
    GoodBlock R.start R.size s layout (allocInner s.arena layout).2 := by
  obtain ⟨free, t⟩ := hI
  rcases allocInner_tiled t layout with hnull | ⟨hsize, free', t', _⟩
  · exact absurd (by rw [hnull]) hne
  · have hmem := mem_cons_self (a := (⟨(allocInner s.arena layout).2, layoutOrder layout⟩
      : Block)) (l := s.live.map liveBlock)
    obtain ⟨hlo, hhi⟩ := t'.used_inHeap hmem
    refine ⟨?_, ?_, hlo, hhi, fun pl hpl => ?_⟩
    · exact Nat.dvd_trans (align_dvd_blockSize hsize) (t'.usedAl _ hmem).2
    · exact Nat.le_trans (Nat.le_trans (Nat.le_max_left _ _) (Nat.le_max_left _ _)) hsize
    · have hp := (pairwise_append.mp t'.pairwise).2.1
      exact (pairwise_cons.mp hp).1 _
        (mem_map.mpr ⟨_, mem_map.mpr ⟨pl, hpl, rfl⟩, rfl⟩)

theorem HeapInv.dealloc_isSome {R : Region} (hI : HeapInv R s)
    {pl : Nat × Layout} (hpl : pl ∈ s.live) :
    (deallocInner s.arena pl.1 pl.2).isSome := by
  obtain ⟨free, t⟩ := hI
  have hperm : (s.live.map liveBlock).Perm
      (⟨pl.1, layoutOrder pl.2⟩ :: (s.live.erase pl).map liveBlock) :=
    (perm_cons_erase hpl).map liveBlock
  obtain ⟨h', _, hd, _, _⟩ := deallocInner_tiled (t.perm hperm)
  rw [hd]
  rfl

/-- **Buddy allocator safety.** From any `init` whose address sums do not
overflow, over every run of allocations, matching frees and client writes into
live blocks: the lists and the live blocks partition what `init` placed, every
block handed out is good, and every matching free returns. -/
theorem buddy_runs_safe {m : Mem} {start size : Nat} {h : Arena} (hpos : 0 < start)
    (hal : minBlockSize ∣ start) (hinit : init (Arena.empty m) start size = some h) :
    ∃ free₀, ListsHold h free₀ ∧
      ∀ ops s, exec heapStep ⟨h, []⟩ ops = some s →
        Partitioned free₀ s ∧
        (∀ layout, (allocInner s.arena layout).2 ≠ 0 →
          GoodBlock start size s layout (allocInner s.arena layout).2) ∧
        ∀ pl ∈ s.live, (deallocInner s.arena pl.1 pl.2).isSome := by
  obtain ⟨last, htop, hlast, _, _, free₀, t₀, _⟩ := init_tiled hpos hal hinit
  refine ⟨free₀, t₀.chain, fun ops s hrun => ?_⟩
  have hI : HeapInv (initRegion start size last hpos htop hlast) s :=
    exec_heapInv ⟨free₀, t₀⟩ hrun
  refine ⟨hI.partitioned (fun x => ?_), fun layout hne => hI.goodBlock layout hne,
    fun pl hpl => hI.dealloc_isSome hpl⟩
  have := t₀.cov x
  rwa [show cover (usedSpans []) x = 0 from rfl, Nat.add_zero] at this

/-- A heap of 200 bytes at 64: what `init` places is what runs keep. -/
theorem buddy_runs_safe_small : ∃ h, init (Arena.empty fun _ => 0) 64 200 = some h ∧
    ∃ free₀, ListsHold h free₀ ∧
      ∀ ops s, exec heapStep ⟨h, []⟩ ops = some s →
        Partitioned free₀ s ∧
        (∀ layout, (allocInner s.arena layout).2 ≠ 0 →
          GoodBlock 64 200 s layout (allocInner s.arena layout).2) ∧
        ∀ pl ∈ s.live, (deallocInner s.arena pl.1 pl.2).isSome := by
  obtain ⟨h, hinit⟩ := isSome_iff_exists.mp
    (init_isSome (Arena.empty fun _ => 0) (show 64 + 200 + blockSize maxOrder ≤ 2 ^ 64 by decide))
  exact ⟨h, hinit, buddy_runs_safe (by decide) (by decide) hinit⟩

end AlaphiOS.Memory
