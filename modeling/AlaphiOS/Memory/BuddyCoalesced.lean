import AlaphiOS.Memory.BuddyRun
import AlaphiOS.Lib.Dyadic
import Mathlib.Data.List.Pairwise
import Mathlib.Order.Bounds.Basic

/-!
# What the free lists hold

`buddy_runs_safe` says that free and live blocks partition the heap; it does not
say which partition. `Coalesced` does: the free lists are a packing of the bytes
that no live block holds, without two halves of one block, and there is only one
such packing (`Lib.Dyadic`).

> `Tiled.packing` the free lists make up the bytes that are not used,
> `Coalesced.noHalves` two halves of one block are buddies,
> `within_unheld` the bytes `init` could not place belong to no aligned block.

So what is free is a function of what is live, and `alloc_inner`, which looks
only at the heads of the lists, finds a block whenever there is room for one.
-/

namespace AlaphiOS.Memory

open Lib List

theorem blockSize_doubles : Doubles blockSize :=
  ⟨Nat.lt_of_lt_of_le (by decide) (blockSize_ge 0), blockSize_succ⟩

/-! ## The free lists as a packing -/

section Packing

variable {h : Arena} {free : Nat → List Nat} {used : List Block} {R : Region}

/-- No byte is in two blocks of a tiling's free lists. -/
theorem Tiled.free_once (t : Tiled h free used R) {i j a b x : Nat} (hi : i ≤ maxOrder)
    (hj : j ≤ maxOrder) (ha : a ∈ free i) (hb : b ∈ free j) (hxa : (Block.mk a i).span.Has x)
    (hxb : (Block.mk b j).span.Has x) : i = j ∧ a = b := by
  have hmeet : ¬ (Block.mk a i).span.Apart (Block.mk b j).span := by
    unfold Span.Has at hxa hxb
    unfold Span.Apart
    omega
  by_cases hij : i = j
  · subst hij
    refine ⟨rfl, Decidable.byContradiction fun hab => hmeet ?_⟩
    have : Std.Symm fun a b => (Block.mk a i).span.Apart (Block.mk b i).span :=
      ⟨fun _ _ h => h.symm⟩
    exact (t.list_pairwise hi).forall ha hb hab
  · exact absurd (t.free_apart_free hi hj hij ha hb) hmeet

/-- The free lists make up the bytes that are not used. -/
theorem Tiled.packing (t : Tiled h free used R) :
    Packing blockSize maxOrder (fun i a => i ≤ maxOrder ∧ a ∈ free i)
      (fun x => R.count x ≠ 0 ∧ ∀ b ∈ used, ¬ b.span.Has x) where
  ord := fun h => h.1
  aligned := fun h => t.freeAl _ h.1 _ h.2
  covers := by
    intro x
    have hcov := t.cov x
    have honce := R.once x
    have hused : (∀ b ∈ used, ¬ b.span.Has x) ↔ cover (usedSpans used) x = 0 := by
      rw [← Nat.le_zero, ← Nat.not_lt, cover_pos_iff]
      simp [usedSpans]
    have hfree : (∃ i a, (i ≤ maxOrder ∧ a ∈ free i) ∧ (⟨a, blockSize i⟩ : Span).Has x) ↔
        0 < cover (freeSpans free) x := by
      rw [cover_pos_iff]
      constructor
      · rintro ⟨i, a, ⟨hi, ha⟩, hx⟩
        exact ⟨_, mem_freeSpans hi ha, hx⟩
      · rintro ⟨sp, hsp, hx⟩
        obtain ⟨i, hi, hmem⟩ := mem_families.mp hsp
        obtain ⟨a, ha, rfl⟩ := mem_map.mp hmem
        exact ⟨i, a, ⟨Nat.le_of_lt_succ hi, ha⟩, hx⟩
    rw [hused, hfree]
    omega
  once := fun h h' hx hx' => t.free_once h.1 h'.1 h.2 h'.2 hx hx'

/-- Two halves of one block are buddies. -/
theorem Coalesced.noHalves (hc : Coalesced free) :
    NoHalves blockSize maxOrder (fun i a => i ≤ maxOrder ∧ a ∈ free i) := by
  intro i a hi hdvd ha hb
  refine hc i hi a ha.2 ?_
  have hal := Nat.dvd_trans (blockSize_dvd (Nat.le_succ i)) hdvd
  rcases buddy_cases hal with ⟨hup, _⟩ | ⟨hdown, hd⟩
  · rw [hup]
    exact hb.2
  -- an address aligned to the doubled size is the lower of the two
  · rw [hdown] at hdvd
    have hle := Nat.le_of_dvd (Nat.lt_of_lt_of_le (by decide) (blockSize_ge i))
      ((Nat.dvd_add_right hd).mp hdvd)
    have := blockSize_succ i
    have := blockSize_ge i
    omega

end Packing

/-! ## The bytes no live block holds -/

/-- The bytes of the heap that no live block holds. -/
def Unheld (start size : Nat) (live : List (Nat × Layout)) (x : Nat) : Prop :=
  (start ≤ x ∧ x < start + size) ∧ ∀ pl ∈ live, ¬ (liveBlock pl).span.Has x

variable {last ord size start : Nat} {s : HeapState}

/-- The end of the heap that `init` could not place is shorter than any block,
so a block fits into the heap if and only if it fits into what was placed. -/
theorem within_unheld (hpos : 0 < start) (htop : start + size < 2 ^ 64)
    (hlast : last ≤ start + size) (hclose : start + size < last + minBlockSize)
    (hdvd : minBlockSize ∣ last) (live : List (Nat × Layout)) {k a : Nat} (ha : blockSize k ∣ a) :
    Within blockSize (fun x => (initRegion start size last hpos htop hlast).count x ≠ 0 ∧
        ∀ b ∈ live.map liveBlock, ¬ b.span.Has x) k a
      ↔ Within blockSize (Unheld start size live) k a := by
  have hcount : ∀ x, (initRegion start size last hpos htop hlast).count x ≠ 0 ↔
      start ≤ x ∧ x < last := by
    intro x
    simp only [initRegion]
    split
    · simp_all
    · simp_all
  simp only [Within, Unheld, hcount, forall_mem_map]
  constructor
  · intro hw x hx
    obtain ⟨⟨hlo, hhi⟩, hlive⟩ := hw x hx
    exact ⟨⟨hlo, by omega⟩, hlive⟩
  · intro hw x hx
    obtain ⟨⟨hlo, _⟩, hlive⟩ := hw x hx
    refine ⟨⟨hlo, ?_⟩, hlive⟩
    -- the block ends at a multiple of the minimal size, and before the end of the heap
    have hge := blockSize_ge k
    have hend := (hw (a + blockSize k - 1) ⟨by dsimp only; omega, by dsimp only; omega⟩).1.2
    obtain ⟨p, hp⟩ := Nat.dvd_add (Nat.dvd_trans (blockSize_dvd (Nat.zero_le k)) ha)
      (blockSize_dvd (Nat.zero_le k))
    obtain ⟨q, hq⟩ := hdvd
    have hx := hx.2
    simp only [blockSize, minBlockSize, Nat.shiftLeft_zero] at hp hq hclose hge hend hx
    omega

/-! ## Runs -/

/-- The run invariant: the live blocks are the used ones of a tiling, and no two
buddies are free. -/
def CoalescedHeap (R : Region) (s : HeapState) : Prop :=
  ∃ free, Tiled s.arena free (s.live.map liveBlock) R ∧ Coalesced free

theorem exec_coalescedHeap {R : Region} {s' : HeapState} {ops : List HeapOp}
    (hI : CoalescedHeap R s) (h : exec heapStep s ops = some s') : CoalescedHeap R s' := by
  refine exec_induction (P := fun _ _ => True) (fun s s' op hI _ hstep => ?_) hI along_true h
  obtain ⟨free, t, hc⟩ := hI
  obtain ⟨free', t', hco⟩ := heapStep_tiled t hstep
  exact ⟨free', t', hco hc⟩

/-- Following the links of `free_lists[i]` meets `a`. -/
def OnList (h : Arena) (i a : Nat) : Prop :=
  ∃ l, Chain h.mem (ptr (h.freeLists i)) l ∧ a ∈ l

theorem Tiled.onList_iff {h : Arena} {free : Nat → List Nat} {used : List Block} {R : Region}
    (t : Tiled h free used R) {i a : Nat} (hi : i ≤ maxOrder) : OnList h i a ↔ a ∈ free i := by
  constructor
  · rintro ⟨l, hl, ha⟩
    rwa [hl.unique (t.chain i hi)] at ha
  · intro ha
    exact ⟨free i, t.chain i hi, ha⟩

/-- What is known of every state a run from `init` reaches: the invariant, over a
region that ends less than a block before the heap does. -/
theorem init_coalescedHeap {m : Mem} {h : Arena} (hpos : 0 < start)
    (hal : minBlockSize ∣ start) (hinit : init (Arena.empty m) start size = some h) :
    ∃ last, ∃ htop : start + size < 2 ^ 64, ∃ hlast : last ≤ start + size,
      start + size < last + minBlockSize ∧ minBlockSize ∣ last ∧
      ∀ ops s, exec heapStep ⟨h, []⟩ ops = some s →
        CoalescedHeap (initRegion start size last hpos htop hlast) s := by
  obtain ⟨last, htop, hlast, hclose, hdvd, free, t, hc⟩ := init_tiled hpos hal hinit
  exact ⟨last, htop, hlast, hclose, hdvd, fun ops s hrun => exec_coalescedHeap ⟨free, t, hc⟩ hrun⟩

variable {hpos : 0 < start} {htop : start + size < 2 ^ 64} {hlast : last ≤ start + size}

/-- In a reachable state the free blocks are the largest blocks that fit. -/
theorem CoalescedHeap.onList_iff_largest
    (hclose : start + size < last + minBlockSize) (hdvd : minBlockSize ∣ last)
    (hI : CoalescedHeap (initRegion start size last hpos htop hlast) s) {i a : Nat}
    (hi : i ≤ maxOrder) :
    OnList s.arena i a ↔ Largest blockSize maxOrder (Unheld start size s.live) i a := by
  obtain ⟨free, t, hc⟩ := hI
  rw [t.onList_iff hi,
    ← Largest.congr (fun k a ha => within_unheld hpos htop hlast hclose hdvd s.live ha),
    ← t.packing.mem_iff_largest blockSize_doubles hc.noHalves]
  exact (and_iff_right hi).symm

/-- **Maximal coalescing.** From any `init` whose address sums do not overflow,
over every run of allocations, matching frees and client writes: each list is
finite and repeats no block, and the blocks of order `i` on it are exactly the
blocks of that order that fit into the memory no live block holds and lie in no
larger such block. So two runs that leave the same blocks live leave the same
blocks free, and a run that leaves nothing live leaves what `init` built. -/
theorem buddy_runs_coalesced {m : Mem} {start size : Nat} {h : Arena} (hpos : 0 < start)
    (hal : minBlockSize ∣ start) (hinit : init (Arena.empty m) start size = some h) :
    ∀ ops s, exec heapStep ⟨h, []⟩ ops = some s → ∀ i, i ≤ maxOrder →
      (∃ l, Chain s.arena.mem (ptr (s.arena.freeLists i)) l ∧ l.Nodup) ∧
      (∀ a, OnList s.arena i a ↔ Largest blockSize maxOrder (Unheld start size s.live) i a) ∧
      (∀ ops' s', exec heapStep ⟨h, []⟩ ops' = some s' →
        (∀ b, b ∈ s.live.map liveBlock ↔ b ∈ s'.live.map liveBlock) →
        ∀ a, OnList s.arena i a ↔ OnList s'.arena i a) ∧
      (s.live = [] → ∀ a, OnList s.arena i a ↔ OnList h i a) := by
  obtain ⟨last, htop, hlast, hclose, hdvd, hreach⟩ := init_coalescedHeap hpos hal hinit
  intro ops s hrun i hi
  have hlists : ∀ {ops s}, exec heapStep ⟨h, []⟩ ops = some s → ∀ a,
      OnList s.arena i a ↔ Largest blockSize maxOrder (Unheld start size s.live) i a :=
    fun hrun _ => (hreach _ _ hrun).onList_iff_largest hclose hdvd hi
  -- what is unheld depends on the live blocks as a set only
  have hsame : ∀ ops' s', exec heapStep ⟨h, []⟩ ops' = some s' →
      (∀ b, b ∈ s.live.map liveBlock ↔ b ∈ s'.live.map liveBlock) →
      ∀ a, OnList s.arena i a ↔ OnList s'.arena i a := by
    intro ops' s' hrun' hlive a
    have hunheld : Unheld start size s.live = Unheld start size s'.live := by
      funext x
      simp only [Unheld, ← forall_mem_map (f := liveBlock) (P := fun b => ¬ b.span.Has x),
        hlive]
    rw [hlists hrun, hlists hrun', hunheld]
  refine ⟨?_, hlists hrun, hsame, fun hnil a => ?_⟩
  · obtain ⟨free, t, _⟩ := hreach ops s hrun
    exact ⟨free i, t.chain i hi, t.list_nodup hi⟩
  · exact hsame [] ⟨h, []⟩ rfl (by simp [hnil]) a

/-- A heap of 200 bytes at 64. -/
theorem buddy_runs_coalesced_small : ∃ h, init (Arena.empty fun _ => 0) 64 200 = some h ∧
    ∀ ops s, exec heapStep ⟨h, []⟩ ops = some s → ∀ i, i ≤ maxOrder →
      (∃ l, Chain s.arena.mem (ptr (s.arena.freeLists i)) l ∧ l.Nodup) ∧
      (∀ a, OnList s.arena i a ↔ Largest blockSize maxOrder (Unheld 64 200 s.live) i a) ∧
      (∀ ops' s', exec heapStep ⟨h, []⟩ ops' = some s' →
        (∀ b, b ∈ s.live.map liveBlock ↔ b ∈ s'.live.map liveBlock) →
        ∀ a, OnList s.arena i a ↔ OnList s'.arena i a) ∧
      (s.live = [] → ∀ a, OnList s.arena i a ↔ OnList h i a) := by
  obtain ⟨h, hinit⟩ := Option.isSome_iff_exists.mp
    (init_isSome (Arena.empty fun _ => 0) (show 64 + 200 + blockSize maxOrder ≤ 2 ^ 64 by decide))
  exact ⟨h, hinit, buddy_runs_coalesced (by decide) (by decide) hinit⟩

/-! ## When an allocation fails -/

/-- The order computed for a layout is the least that is large enough, if one is. -/
theorem layoutOrder_eq {layout : Layout} (hsize : requestSize layout ≤ blockSize maxOrder)
    (hord : IsLeast {k | requestSize layout ≤ blockSize k} ord) : layoutOrder layout = ord := by
  obtain ⟨_, _, hfits, hsmall⟩ := orderLoop_spec (requestSize layout) maxOrder 0
  rw [Nat.zero_add] at hfits
  refine Nat.le_antisymm (Nat.le_of_not_lt fun hlt => ?_) (hord.2 ?_)
  · exact absurd (hsmall ord (Nat.zero_le _) hlt) (Nat.not_lt.mpr hord.1)
  · rcases Nat.lt_or_eq_of_le (layoutOrder_le layout) with hlt | heq
    · exact Nat.le_of_not_lt (hfits hlt)
    · show requestSize layout ≤ blockSize (layoutOrder layout)
      rw [heq]
      exact hsize

/-- `alloc_inner` returns null if the request is too large for any list, or if
all lists from its order on are empty. -/
theorem allocInner_null_iff (h : Arena) (layout : Layout) :
    (allocInner h layout).2 = 0 ↔ blockSize maxOrder < requestSize layout ∨
      ∀ j, layoutOrder layout ≤ j → j ≤ maxOrder → h.freeLists j = 0 := by
  have hord := layoutOrder_le layout
  obtain ⟨_, hle, hne, hnull⟩ := findOrder_spec h (maxOrder + 1 - layoutOrder layout)
    (layoutOrder layout)
  have hbig : blockSize (layoutOrder layout) < requestSize layout ↔
      blockSize maxOrder < requestSize layout := by
    constructor
    · intro hlt
      obtain ⟨_, _, hfits, _⟩ := orderLoop_spec (requestSize layout) maxOrder 0
      rw [Nat.zero_add] at hfits
      rcases Nat.lt_or_eq_of_le hord with hlt' | heq
      · exact absurd hlt (hfits hlt')
      · rwa [heq] at hlt
    · intro hlt
      exact Nat.lt_of_le_of_lt (blockSize_mono hord) hlt
  unfold allocInner
  dsimp only
  split
  next hlt => exact iff_of_true rfl (.inl (hbig.mp hlt))
  next hfits =>
    split
    next hfound =>
      exact iff_of_true rfl (.inr fun j hj hjm => hnull j hj (by omega))
    next hfound =>
      refine iff_of_false (hne (by omega)) ?_
      rintro (hlt | hempty)
      · exact hfits (hbig.mpr hlt)
      · exact hne (by omega) (hempty _ ‹_› (by omega))

/-- A block of order `ord` at `a` lies in the heap and meets no live block. -/
def Fits (start size : Nat) (live : List (Nat × Layout)) (ord a : Nat) : Prop :=
  blockSize ord ∣ a ∧ (start ≤ a ∧ a + blockSize ord ≤ start + size) ∧
    ∀ pl ∈ live, (Block.mk a ord).span.Apart (liveBlock pl).span

theorem Fits.within {live : List (Nat × Layout)} {a : Nat}
    (hf : Fits start size live ord a) : Within blockSize (Unheld start size live) ord a := by
  obtain ⟨_, ⟨hlo, hhi⟩, hap⟩ := hf
  intro x hx
  unfold Span.Has at hx
  dsimp only at hx
  refine ⟨⟨by omega, by omega⟩, fun pl hpl hin => ?_⟩
  have := hap pl hpl
  unfold Span.Apart Block.span at this
  unfold Span.Has Block.span at hin
  dsimp only at this hin
  omega

/-- There is room for a block of order `ord` if and only if a block of at least
that order is free. -/
theorem CoalescedHeap.fits_iff
    (hclose : start + size < last + minBlockSize) (hdvd : minBlockSize ∣ last)
    (hI : CoalescedHeap (initRegion start size last hpos htop hlast) s)
    (hord : ord ≤ maxOrder) :
    (∃ a, Fits start size s.live ord a) ↔
      ∃ j, ord ≤ j ∧ j ≤ maxOrder ∧ s.arena.freeLists j ≠ 0 := by
  obtain ⟨free, t, hc⟩ := hI
  constructor
  · rintro ⟨a, hf⟩
    have hw := (within_unheld hpos htop hlast hclose hdvd s.live hf.1).mpr hf.within
    obtain ⟨j, b, hj, ⟨hjm, hb⟩, _⟩ :=
      t.packing.block_of_within blockSize_doubles hc.noHalves hord hf.1 hw
    refine ⟨j, hj, hjm, fun hnull => ?_⟩
    have hchain := t.chain j hjm
    rw [hnull, ptr_zero] at hchain
    rw [hchain.of_none] at hb
    exact not_mem_nil hb
  · rintro ⟨j, hj, hjm, hne⟩
    have hchain := t.chain j hjm
    rw [ptr_ne hne] at hchain
    obtain ⟨l, hl, _⟩ := hchain.of_some
    have hmem : s.arena.freeLists j ∈ free j := by rw [hl]; exact mem_cons_self
    -- the lowest block of order `ord` in the free block
    obtain ⟨hlo, hhi⟩ := t.free_inHeap hjm hmem
    have hmono := blockSize_mono hj
    refine ⟨s.arena.freeLists j, Nat.dvd_trans (blockSize_dvd hj) (t.freeAl j hjm _ hmem),
      ⟨hlo, Nat.le_trans (Nat.add_le_add_left hmono _) hhi⟩, fun pl hpl => ?_⟩
    have hap := t.free_apart_used hjm hmem (mem_map.mpr ⟨pl, hpl, rfl⟩)
    unfold Span.Apart Block.span at hap ⊢
    dsimp only at hap ⊢
    omega

/-- **Completeness of allocation.** In every reachable state and for every
layout, with `ord` the least order whose blocks are large enough: `alloc_inner`
returns null if and only if the request exceeds the largest block, or no block
of order `ord` lies in the heap without meeting a live block. -/
theorem alloc_null_iff_no_room {m : Mem} {start size : Nat} {h : Arena} (hpos : 0 < start)
    (hal : minBlockSize ∣ start) (hinit : init (Arena.empty m) start size = some h) :
    ∀ ops s, exec heapStep ⟨h, []⟩ ops = some s → ∀ (layout : Layout) (ord : Nat),
      IsLeast {k | requestSize layout ≤ blockSize k} ord →
      ((allocInner s.arena layout).2 = 0 ↔
        blockSize maxOrder < requestSize layout ∨ ¬ ∃ a, Fits start size s.live ord a) := by
  obtain ⟨last, htop, hlast, hclose, hdvd, hreach⟩ := init_coalescedHeap hpos hal hinit
  intro ops s hrun layout ord hord
  rw [allocInner_null_iff]
  by_cases hbig : blockSize maxOrder < requestSize layout
  · exact iff_of_true (.inl hbig) (.inl hbig)
  · have heq := layoutOrder_eq (Nat.le_of_not_lt hbig) hord
    rw [(hreach ops s hrun).fits_iff hclose hdvd (heq ▸ layoutOrder_le layout), heq]
    refine or_congr Iff.rfl ?_
    simp only [not_exists, not_and, not_not]

/-- A heap of 200 bytes at 64. -/
theorem alloc_null_iff_no_room_small : ∃ h, init (Arena.empty fun _ => 0) 64 200 = some h ∧
    ∀ ops s, exec heapStep ⟨h, []⟩ ops = some s → ∀ (layout : Layout) (ord : Nat),
      IsLeast {k | requestSize layout ≤ blockSize k} ord →
      ((allocInner s.arena layout).2 = 0 ↔
        blockSize maxOrder < requestSize layout ∨ ¬ ∃ a, Fits 64 200 s.live ord a) := by
  obtain ⟨h, hinit⟩ := Option.isSome_iff_exists.mp
    (init_isSome (Arena.empty fun _ => 0) (show 64 + 200 + blockSize maxOrder ≤ 2 ^ 64 by decide))
  exact ⟨h, hinit, alloc_null_iff_no_room (by decide) (by decide) hinit⟩

end AlaphiOS.Memory
