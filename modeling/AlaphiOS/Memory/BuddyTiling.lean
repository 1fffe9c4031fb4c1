import AlaphiOS.Memory.Buddy
import AlaphiOS.Lib.Spans
import Mathlib.Data.Nat.Bitwise
import Mathlib.Data.List.Perm.Subperm

/-!
# The buddy heap as a tiling

What the intrusive lists are for: at every moment the free blocks (found by
following the links) and the blocks handed out tile the memory `init` was
given. `Tiled h free used R` states it with a count: the byte `x` lies in
exactly `R.count x` blocks, `R` being fixed by `init` and the count at most `1`.

Blocks in flight between two lists are simply counted among `used`, so each
primitive move of the allocator is one lemma:

> `pop_tiled` a list's head becomes a used block,
> `addToFreeList_tiled` a used block becomes a list's head,
> `split_tiled`, `merge_tiled` a used block is its two halves,
> `unlink_tiled` a block in the middle of a list becomes a used block.

`Tiled` never mentions the order of operations: the run lemmas in `BuddyRun`
only compose these moves.
-/

namespace AlaphiOS.Memory

open Lib Function List

/-! ## Block sizes -/

theorem blockSize_eq (ord : Nat) : blockSize ord = 2 ^ (ord + 5) := by
  rw [blockSize, minBlockSize, Nat.shiftLeft_eq, Nat.pow_add, Nat.mul_comm]

theorem blockSize_succ (ord : Nat) : blockSize (ord + 1) = blockSize ord + blockSize ord := by
  rw [blockSize_eq, blockSize_eq, show ord + 1 + 5 = ord + 5 + 1 by omega, Nat.pow_succ]
  omega

theorem blockSize_ge (ord : Nat) : 32 ≤ blockSize ord := by
  rw [blockSize_eq]
  exact Nat.pow_le_pow_right (n := 2) (by decide) (show 5 ≤ ord + 5 by omega)

variable {a j k : Nat}

theorem blockSize_dvd {i : Nat} (h : i ≤ j) : blockSize i ∣ blockSize j := by
  rw [blockSize_eq, blockSize_eq]
  exact Nat.pow_dvd_pow 2 (by omega)

/-- Flipping the size bit of an aligned address moves it by one block, up from
an even position and down from an odd one; either way the lower of the two is
aligned to the doubled size. -/
theorem buddy_cases {ord : Nat} (h : blockSize ord ∣ a) :
    (a ^^^ blockSize ord = a + blockSize ord ∧ blockSize (ord + 1) ∣ a) ∨
    (a = (a ^^^ blockSize ord) + blockSize ord ∧
      blockSize (ord + 1) ∣ a ^^^ blockSize ord) := by
  obtain ⟨q, rfl⟩ := h
  have hxor : blockSize ord * q ^^^ blockSize ord = blockSize ord * (q ^^^ 1) := by
    have hdist := Nat.shiftLeft_xor_distrib (a := q) (b := 1) (i := ord + 5)
    simp only [Nat.shiftLeft_eq, Nat.one_mul] at hdist
    rw [blockSize_eq, Nat.mul_comm, ← hdist, Nat.mul_comm]
  rw [hxor, blockSize_succ]
  rcases Nat.mod_two_eq_zero_or_one q with hq | hq
  · left
    obtain ⟨r, rfl⟩ : ∃ r, q = 2 * r := ⟨q / 2, by omega⟩
    have hq1 : 2 * r ^^^ 1 = 2 * r + 1 := Nat.xor_one_of_even ⟨r, by omega⟩
    rw [hq1, Nat.mul_add, Nat.mul_one]
    exact ⟨rfl, ⟨r, by rw [← Nat.two_mul, Nat.mul_assoc, Nat.mul_left_comm]⟩⟩
  · right
    obtain ⟨r, rfl⟩ : ∃ r, q = 2 * r + 1 := ⟨q / 2, by omega⟩
    have hq1 : (2 * r + 1) ^^^ 1 = 2 * r := Nat.xor_one_of_odd ⟨r, rfl⟩
    rw [hq1, Nat.mul_add, Nat.mul_one]
    exact ⟨rfl, ⟨r, by rw [← Nat.two_mul, Nat.mul_assoc, Nat.mul_left_comm]⟩⟩

/-! ## The invariant -/

/-- A block of `32 << ord` bytes. -/
structure Block where
  addr : Nat
  ord : Nat
  deriving DecidableEq

/-- The addresses of a block. -/
def Block.span (b : Block) : Span := ⟨b.addr, blockSize b.ord⟩

/-- The spans of one free list. -/
def listSpans (ord : Nat) (l : List Nat) : List Span := l.map fun a => (Block.mk a ord).span

/-- The spans of all free lists, `free_lists[0..=MAX_ORDER]`. -/
def freeSpans (free : Nat → List Nat) : List Span :=
  families (fun i => listSpans i (free i)) (maxOrder + 1)

def usedSpans (used : List Block) : List Span := used.map Block.span

/-- What a heap manages: some bytes of `[start, start + size)`, each counted
once, away from the null address and from the end of the address space. -/
structure Region where
  start : Nat
  size : Nat
  count : Nat → Nat
  once : ∀ x, count x ≤ 1
  inHeap : ∀ x, count x ≠ 0 → start ≤ x ∧ x < start + size
  start_pos : 0 < start
  top : start + size < 2 ^ 64

/-- The free lists hold `free`, and together with the blocks `used` they cover
each byte `x` exactly `R.count x` times. -/
structure Tiled (h : Arena) (free : Nat → List Nat) (used : List Block)
    (R : Region) : Prop where
  chain : ∀ i, i ≤ maxOrder → Chain h.mem (ptr (h.freeLists i)) (free i)
  freeAl : ∀ i, i ≤ maxOrder → ∀ a ∈ free i, blockSize i ∣ a
  usedAl : ∀ b ∈ used, b.ord ≤ maxOrder ∧ blockSize b.ord ∣ b.addr
  cov : ∀ x, cover (freeSpans free) x + cover (usedSpans used) x = R.count x
  heap : h.heapStart = R.start ∧ h.heapSize = R.size

theorem freeSpans_update (free : Nat → List Nat) (k : Nat) (l : List Nat) :
    freeSpans (update free k l)
      = families (update (fun i => listSpans i (free i)) k (listSpans k l))
          (maxOrder + 1) := by
  unfold freeSpans
  congr 1
  funext i
  by_cases h : i = k
  · subst h; rw [update_self, update_self]
  · rw [update_of_ne h, update_of_ne h]

/-- Replacing one free list exchanges its coverage. -/
theorem cover_freeSpans_update (free : Nat → List Nat) (l : List Nat)
    (hk : k ≤ maxOrder) (x : Nat) :
    cover (freeSpans (update free k l)) x + cover (listSpans k (free k)) x
      = cover (freeSpans free) x + cover (listSpans k l) x := by
  rw [freeSpans_update]
  exact cover_families_update x (Nat.lt_succ_of_le hk)

theorem cover_listSpans_cons (ord a : Nat) (l : List Nat) (x : Nat) :
    cover (listSpans ord (a :: l)) x
      = cover (listSpans ord l) x + if (Block.mk a ord).span.Has x then 1 else 0 :=
  cover_cons _ _ _

theorem cover_usedSpans_cons (b : Block) (used : List Block) (x : Nat) :
    cover (usedSpans (b :: used)) x
      = cover (usedSpans used) x + if b.span.Has x then 1 else 0 :=
  cover_cons _ _ _

/-! ## Reading a tiling -/

section Reading

variable {h : Arena} {free : Nat → List Nat} {used : List Block} {R : Region}

/-- The blocks of a tiling are pairwise apart. -/
theorem Tiled.pairwise (t : Tiled h free used R) :
    (freeSpans free ++ usedSpans used).Pairwise Span.Apart := by
  refine pairwise_apart_of_cover (fun s hs => ?_) (fun x => ?_)
  · have hsz : ∃ b : Block, s = b.span := by
      rcases mem_append.mp hs with hf | hu
      · obtain ⟨k, _, hk⟩ := mem_families.mp hf
        obtain ⟨a, _, rfl⟩ := mem_map.mp hk
        exact ⟨⟨a, k⟩, rfl⟩
      · obtain ⟨b, _, rfl⟩ := mem_map.mp hu
        exact ⟨b, rfl⟩
    obtain ⟨b, rfl⟩ := hsz
    exact Nat.lt_of_lt_of_le (by decide) (blockSize_ge b.ord)
  · rw [cover_append, t.cov]
    exact R.once x

variable {i : Nat} {b : Block}

theorem mem_freeSpans (hi : i ≤ maxOrder) (ha : a ∈ free i) :
    (Block.mk a i).span ∈ freeSpans free :=
  mem_families.mpr ⟨i, Nat.lt_succ_of_le hi, mem_map.mpr ⟨a, ha, rfl⟩⟩

section

variable (t : Tiled h free used R)

include t

/-- A free block meets no used one. -/
theorem Tiled.free_apart_used
    (hi : i ≤ maxOrder) (ha : a ∈ free i) (hb : b ∈ used) :
    (Block.mk a i).span.Apart b.span :=
  (pairwise_append.mp t.pairwise).2.2 _ (mem_freeSpans hi ha) _
    (mem_map.mpr ⟨b, hb, rfl⟩)

/-- Blocks of two different free lists do not meet. -/
theorem Tiled.free_apart_free {b : Nat}
    (hi : i ≤ maxOrder) (hj : j ≤ maxOrder) (hij : i ≠ j) (ha : a ∈ free i) (hb : b ∈ free j) :
    (Block.mk a i).span.Apart (Block.mk b j).span :=
  apart_of_families (pairwise_append.mp t.pairwise).1 (Nat.lt_succ_of_le hi)
    (Nat.lt_succ_of_le hj) hij (mem_map.mpr ⟨a, ha, rfl⟩) (mem_map.mpr ⟨b, hb, rfl⟩)

/-- The blocks of one free list do not meet. -/
theorem Tiled.list_pairwise (hi : i ≤ maxOrder) :
    (free i).Pairwise fun a b => (Block.mk a i).span.Apart (Block.mk b i).span :=
  pairwise_map.mp
    (pairwise_of_families (pairwise_append.mp t.pairwise).1 (Nat.lt_succ_of_le hi))

/-- Every byte of a block of the tiling is a byte of the heap. -/
theorem Tiled.has_inHeap {s : Span} {x : Nat}
    (hs : s ∈ freeSpans free ++ usedSpans used) (hx : s.Has x) :
    R.start ≤ x ∧ x < R.start + R.size := by
  have hpos := cover_pos_iff.mpr ⟨s, hs, hx⟩
  rw [cover_append, t.cov] at hpos
  exact R.inHeap x (by omega)

/-- A block of the tiling lies inside the heap. -/
theorem Tiled.block_inHeap
    (hb : b.span ∈ freeSpans free ++ usedSpans used) :
    R.start ≤ b.addr ∧ b.addr + blockSize b.ord ≤ R.start + R.size := by
  have hge := blockSize_ge b.ord
  have hlo := t.has_inHeap hb (x := b.addr) ⟨le_rfl, by simp only [Block.span]; omega⟩
  have hhi := t.has_inHeap hb (x := b.addr + blockSize b.ord - 1)
    ⟨by simp only [Block.span]; omega, by simp only [Block.span]; omega⟩
  omega

/-- A used block lies inside the heap. -/
theorem Tiled.used_inHeap (hb : b ∈ used) :
    R.start ≤ b.addr ∧ b.addr + blockSize b.ord ≤ R.start + R.size :=
  t.block_inHeap (mem_append_right _ (mem_map.mpr ⟨b, hb, rfl⟩))

/-- A free block lies inside the heap. -/
theorem Tiled.free_inHeap (hi : i ≤ maxOrder)
    (ha : a ∈ free i) : R.start ≤ a ∧ a + blockSize i ≤ R.start + R.size :=
  t.block_inHeap (b := ⟨a, i⟩) (mem_append_left _ (mem_freeSpans hi ha))

/-- A free block begins inside the heap. -/
theorem Tiled.free_mem_heap (hi : i ≤ maxOrder)
    (ha : a ∈ free i) : R.start ≤ a ∧ a < R.start + R.size := by
  have hge := blockSize_ge i
  have := t.free_inHeap hi ha
  omega

/-- A list head is null or a block inside the heap, so it fits a word. -/
theorem Tiled.head_lt (hi : i ≤ maxOrder) : h.freeLists i < 2 ^ 64 := by
  have htop := R.top
  by_cases h0 : h.freeLists i = 0
  · rw [h0]; decide
  · have hc := t.chain i hi
    rw [ptr_ne h0] at hc
    obtain ⟨l, hl, _⟩ := hc.of_some
    have := t.free_mem_heap hi (a := h.freeLists i) (by rw [hl]; exact mem_cons_self)
    omega

/-- The order of the used blocks does not matter. -/
theorem Tiled.perm {used' : List Block}
    (hp : used.Perm used') : Tiled h free used' R where
  chain := t.chain
  freeAl := t.freeAl
  usedAl := fun b hb => t.usedAl b (hp.mem_iff.mpr hb)
  cov := fun x => by
    have : cover _ x = cover _ x := (hp.map Block.span).countP_eq _
    have hc := t.cov x
    unfold usedSpans at hc ⊢
    omega
  heap := t.heap

end

end Reading

/-! ## The moves -/

section Moves

variable {h : Arena} {free : Nat → List Nat} {used : List Block} {R : Region} {i b : Nat}
  {post pre : List Nat}

/-- Blocks that are apart have their link words apart. -/
theorem words_apart (h : (Block.mk a i).span.Apart (Block.mk b j).span) :
    a + 8 ≤ b ∨ b + 8 ≤ a := by
  have hi := blockSize_ge i
  have hj := blockSize_ge j
  simp only [Span.Apart, Block.span] at h
  omega

/-- A used block goes to the front of its free list. -/
theorem addToFreeList_tiled {p : Nat} (t : Tiled h free (⟨p, i⟩ :: used) R) :
    Tiled (addToFreeList h p i) (update free i (p :: free i)) used R where
  chain := by
    have hmem : (⟨p, i⟩ : Block) ∈ (⟨p, i⟩ :: used : List Block) := mem_cons_self
    have hp0 : p ≠ 0 := by
      have := (t.used_inHeap hmem).1
      have := R.start_pos
      simp only at *
      omega
    intro j hj
    -- The link is written into the block, which lies apart from all that are free.
    have hapart : ∀ b ∈ free j, b + 8 ≤ p ∨ p + 8 ≤ b :=
      fun b hb => words_apart (t.free_apart_used hj hb hmem)
    unfold addToFreeList
    dsimp only
    by_cases hji : j = i
    · subst hji
      rw [update_self, update_self, ptr_ne hp0]
      exact (t.chain j hj).push (t.head_lt hj) hapart
    · rw [update_of_ne hji, update_of_ne hji]
      exact (t.chain j hj).frame (fun b hb => readWord_writeWord_ne (hapart b hb))
  freeAl := by
    intro j hj a ha
    by_cases hji : j = i
    · subst hji
      rw [update_self] at ha
      rcases mem_cons.mp ha with rfl | ha'
      · exact (t.usedAl ⟨a, j⟩ mem_cons_self).2
      · exact t.freeAl j hj a ha'
    · rw [update_of_ne hji] at ha
      exact t.freeAl j hj a ha
  usedAl := fun b hb => t.usedAl b (mem_cons_of_mem _ hb)
  cov := by
    intro x
    have hi : i ≤ maxOrder := (t.usedAl ⟨p, i⟩ mem_cons_self).1
    -- What the free blocks gain, the used ones lose.
    have hex := cover_freeSpans_update free (p :: free i) hi x
    have hc := t.cov x
    rw [cover_listSpans_cons] at hex
    rw [cover_usedSpans_cons] at hc
    omega
  heap := t.heap

/-- The head of a free list becomes a used block. -/
theorem pop_tiled (t : Tiled h free used R) (hi : i ≤ maxOrder) (hne : h.freeLists i ≠ 0) :
    ∃ l, free i = h.freeLists i :: l ∧
      Tiled { h with freeLists :=
          Function.update h.freeLists i (readWord h.mem (h.freeLists i)) }
        (Function.update free i l) (⟨h.freeLists i, i⟩ :: used) R := by
  have hc := t.chain i hi
  rw [ptr_ne hne] at hc
  obtain ⟨l, hl, hrest⟩ := hc.of_some
  refine ⟨l, hl, ?_, ?_, ?_, ?_, t.heap⟩
  · intro j hj
    dsimp only
    by_cases hji : j = i
    · subst hji; rw [Function.update_self, Function.update_self]; exact hrest
    · rw [Function.update_of_ne hji, Function.update_of_ne hji]; exact t.chain j hj
  · intro j hj a ha
    by_cases hji : j = i
    · subst hji
      rw [Function.update_self] at ha
      exact t.freeAl j hj a (by rw [hl]; exact mem_cons_of_mem _ ha)
    · rw [Function.update_of_ne hji] at ha
      exact t.freeAl j hj a ha
  · intro b hb
    rcases mem_cons.mp hb with rfl | hb'
    · exact ⟨hi, t.freeAl i hi _ (by rw [hl]; exact mem_cons_self)⟩
    · exact t.usedAl b hb'
  -- What the free blocks lose, the used ones gain.
  · intro x
    have hex := cover_freeSpans_update free l hi x
    have hc' := t.cov x
    rw [hl, cover_listSpans_cons] at hex
    rw [cover_usedSpans_cons]
    omega

/-- A used block is its lower and its upper half. -/
theorem split_tiled (t : Tiled h free (⟨a, k + 1⟩ :: used) R) :
    Tiled h free (⟨a + blockSize k, k⟩ :: ⟨a, k⟩ :: used) R where
  chain := t.chain
  freeAl := t.freeAl
  usedAl := by
    obtain ⟨hk, hal⟩ := t.usedAl ⟨a, k + 1⟩ mem_cons_self
    have hal' : blockSize k ∣ a := Nat.dvd_trans (blockSize_dvd (Nat.le_succ k)) hal
    have hk' : k ≤ maxOrder := Nat.le_of_succ_le hk
    intro b hb
    rcases mem_cons.mp hb with rfl | hb
    · exact ⟨hk', Nat.dvd_add hal' (Nat.dvd_refl _)⟩
    · rcases mem_cons.mp hb with rfl | hb
      · exact ⟨hk', hal'⟩
      · exact t.usedAl b (mem_cons_of_mem _ hb)
  cov := by
    intro x
    have hsp := cover_split a (blockSize k) (blockSize k) x (usedSpans used)
    rw [← t.cov x]
    rw [← blockSize_succ] at hsp
    simp only [usedSpans, map_cons, Block.span, cover_cons] at hsp ⊢
    omega
  heap := t.heap

/-- Two neighbouring used blocks, the lower aligned to the doubled size, are one
block of the next order. -/
theorem join_tiled (hk : k < maxOrder) (hal : blockSize (k + 1) ∣ a)
    (t : Tiled h free (⟨a + blockSize k, k⟩ :: ⟨a, k⟩ :: used) R) :
    Tiled h free (⟨a, k + 1⟩ :: used) R where
  chain := t.chain
  freeAl := t.freeAl
  usedAl := by
    intro b hb
    rcases mem_cons.mp hb with rfl | hb
    · exact ⟨hk, hal⟩
    · exact t.usedAl b (mem_cons_of_mem _ (mem_cons_of_mem _ hb))
  cov := by
    intro x
    have hsp := cover_split a (blockSize k) (blockSize k) x (usedSpans used)
    rw [← t.cov x]
    rw [← blockSize_succ] at hsp
    simp only [usedSpans, map_cons, Block.span, cover_cons] at hsp ⊢
    omega
  heap := t.heap

/-- A block and its buddy merge, whichever of the two is the lower. -/
theorem merge_tiled (hk : k < maxOrder)
    (t : Tiled h free (⟨a ^^^ blockSize k, k⟩ :: ⟨a, k⟩ :: used) R) :
    Tiled h free (⟨min a (a ^^^ blockSize k), k + 1⟩ :: used) R := by
  have hal : blockSize k ∣ a :=
    (t.usedAl ⟨a, k⟩ (mem_cons_of_mem _ mem_cons_self)).2
  rcases buddy_cases hal with ⟨hup, hal'⟩ | ⟨hdown, hal'⟩
  · rw [hup] at t ⊢
    rw [Nat.min_eq_left (Nat.le_add_right _ _)]
    exact join_tiled hk hal' t
  · generalize hb : a ^^^ blockSize k = b at t hdown hal' ⊢
    subst hdown
    rw [Nat.min_eq_right (Nat.le_add_right _ _)]
    exact join_tiled hk hal' (t.perm (List.Perm.swap _ _ _))

/-! ## Walking a free list -/

/-- `slot` is the pointer that follows the prefix `pre` of list `ord`. -/
def SlotAt (h : Arena) (ord : Nat) (pre : List Nat) : Slot → Prop
  | .head => pre = []
  | .node c => ∃ pre', pre = pre' ++ [c] ∧ Path h.mem (ptr (h.freeLists ord)) pre' (some c)

/-- The free list of one order, as a set of words, avoids any block apart from
its blocks. -/
theorem Tiled.list_words (t : Tiled h free used R) (hi : i ≤ maxOrder) {c : Nat}
    (hl : free i = pre ++ c :: post) :
    ∀ b, b ∈ pre ∨ b ∈ post → b + 8 ≤ c ∨ c + 8 ≤ b := by
  have hp := t.list_pairwise hi
  rw [hl] at hp
  obtain ⟨_, hpost, hpre⟩ := pairwise_append.mp hp
  intro b hb
  rcases hb with hb | hb
  · exact words_apart (hpre b hb c mem_cons_self)
  · exact (words_apart ((pairwise_cons.mp hpost).1 b hb)).symm

/-- A block met in the middle of a free list becomes a used block when the
pointer before it is redirected past it. -/
theorem unlink_tiled {slot : Slot}
    (t : Tiled h free used R) (hi : i ≤ maxOrder) (hl : free i = pre ++ b :: post)
    (hslot : SlotAt h i pre slot) (hpost : Chain h.mem (ptr (readWord h.mem b)) post)
    (hw : readWord h.mem b < 2 ^ 64) :
    Tiled (slot.store h i (readWord h.mem b)) (update free i (pre ++ post))
      (⟨b, i⟩ :: used) R := by
  have hbmem : b ∈ free i := by rw [hl]; simp
  have hal : ∀ j, j ≤ maxOrder → ∀ a ∈ update free i (pre ++ post) j,
      blockSize j ∣ a := by
    intro j hj a ha
    by_cases hji : j = i
    · subst hji
      rw [update_self] at ha
      refine t.freeAl j hj a ?_
      rw [hl]
      rcases mem_append.mp ha with ha | ha
      · exact mem_append_left _ ha
      · exact mem_append_right _ (mem_cons_of_mem _ ha)
    · rw [update_of_ne hji] at ha
      exact t.freeAl j hj a ha
  have hual : ∀ c ∈ (⟨b, i⟩ :: used : List Block), c.ord ≤ maxOrder ∧ blockSize c.ord ∣ c.addr := by
    intro c hc
    rcases mem_cons.mp hc with rfl | hc
    · exact ⟨hi, t.freeAl i hi b hbmem⟩
    · exact t.usedAl c hc
  have hcov : ∀ x, cover (freeSpans (update free i (pre ++ post))) x
      + cover (usedSpans (⟨b, i⟩ :: used)) x = R.count x := by
    intro x
    have hex := cover_freeSpans_update free (pre ++ post) hi x
    have hc := t.cov x
    rw [cover_usedSpans_cons]
    rw [hl] at hex
    simp only [listSpans, map_append, map_cons, cover_append, cover_cons] at hex
    omega
  -- The pointer to `b` is the head of the list or the link of the block before it.
  cases slot with
  | head =>
    obtain rfl : pre = [] := hslot
    refine ⟨?_, hal, hual, hcov, t.heap⟩
    intro j hj
    unfold Slot.store
    dsimp only
    by_cases hji : j = i
    · subst hji; rw [update_self, update_self]; exact hpost
    · rw [update_of_ne hji, update_of_ne hji]; exact t.chain j hj
  | node c =>
    obtain ⟨pre', rfl, hpath⟩ := hslot
    have hl' : free i = pre' ++ c :: (b :: post) := by rw [hl]; simp
    have hcmem : c ∈ free i := by rw [hl']; simp
    refine ⟨?_, hal, hual, hcov, t.heap⟩
    intro j hj
    unfold Slot.store
    dsimp only
    by_cases hji : j = i
    · subst hji
      rw [update_self, append_assoc]
      -- The link of `c` is the only word that changes in this list.
      refine Chain.unlink hpath hpost hw (fun a ha => t.list_words hj hl' a ?_)
      exact ha.imp_right (mem_cons_of_mem _)
    · rw [update_of_ne hji]
      -- The other lists have no block where that word is.
      refine (t.chain j hj).frame (fun a ha => readWord_writeWord_ne ?_)
      exact words_apart (t.free_apart_free hj hi hji ha hcmem)

/-- A free list holds each of its blocks once. -/
theorem Tiled.list_nodup (t : Tiled h free used R) (hi : i ≤ maxOrder) : (free i).Nodup := by
  refine (t.list_pairwise hi).imp ?_
  intro a b hab heq
  have := words_apart hab
  omega

/-- A free list is no longer than the heap. -/
theorem Tiled.length_le (t : Tiled h free used R) (hi : i ≤ maxOrder) :
    (free i).length ≤ R.size := by
  have hsub : free i ⊆ range' R.start R.size := by
    intro a ha
    have := t.free_mem_heap hi ha
    exact mem_range'_1.mpr this
  have := (subperm_of_subset (t.list_nodup hi) hsub).length_le
  rwa [length_range'] at this

/-- The walk over list `ord` returns: either the buddy is not on it and nothing
changed, or the buddy was unlinked. -/
theorem findBuddy_tiled (buddy : Nat) (t : Tiled h free used R) (hi : i ≤ maxOrder) (fuel : Nat)
    (slot : Slot) (pre post : List Nat) (hslot : SlotAt h i pre slot)
    (hpost : Chain h.mem (ptr (slot.load h i)) post) (hl : free i = pre ++ post)
    (hlen : post.length < fuel) (hpre : buddy ∉ pre) :
    (findBuddy h i buddy fuel slot = some (h, false) ∧ buddy ∉ free i) ∨
      (∃ h' pre' post', findBuddy h i buddy fuel slot = some (h', true) ∧
      free i = pre' ++ buddy :: post' ∧
      Tiled h' (update free i (pre' ++ post')) (⟨buddy, i⟩ :: used) R) := by
  induction fuel generalizing slot pre post with
  | zero => exact absurd hlen (by omega)
  | succ fuel ih =>
    by_cases h0 : slot.load h i = 0
    · -- the end of the list
      left
      rw [h0, ptr_zero] at hpost
      rw [hpost.of_none, append_nil] at hl
      refine ⟨?_, by rw [hl]; exact hpre⟩
      rw [findBuddy]
      simp only [h0, if_true]
    · rw [ptr_ne h0] at hpost
      obtain ⟨rest, rfl, hrest⟩ := hpost.of_some
      have hmem : slot.load h i ∈ free i := by rw [hl]; simp
      by_cases hb : slot.load h i = buddy
      · right
        rw [hb] at hl hrest h0
        have hw : readWord h.mem buddy < 2 ^ 64 := by
          -- the next cell, if any, is a block of the same list
          by_cases hz : readWord h.mem buddy = 0
          · rw [hz]; decide
          · rw [ptr_ne hz] at hrest
            obtain ⟨l, hl2, _⟩ := hrest.of_some
            have hin : readWord h.mem buddy ∈ free i := by rw [hl, hl2]; simp
            have := t.free_mem_heap hi hin
            have := R.top
            omega
        refine ⟨slot.store h i (readWord h.mem buddy), pre, rest, ?_, hl,
          unlink_tiled t hi hl hslot hrest hw⟩
        rw [findBuddy]
        simp only [hb, if_neg h0, if_true]
      · -- one step further: the prefix takes the node in
        have hstep : findBuddy h i buddy (fuel + 1) slot
            = findBuddy h i buddy fuel (.node (slot.load h i)) := by
          rw [findBuddy]
          simp only [if_neg h0, if_neg hb]
        rw [hstep]
        have hpath : Path h.mem (ptr (h.freeLists i)) pre (some (slot.load h i)) := by
          cases slot with
          | head =>
            obtain rfl : pre = [] := hslot
            rw [← ptr_ne h0]
            exact .nil
          | node c =>
            obtain ⟨pre', rfl, hp⟩ := hslot
            rw [← ptr_ne h0]
            exact hp.snoc
        refine ih (.node (slot.load h i)) (pre ++ [slot.load h i]) rest
          ⟨pre, rfl, hpath⟩ hrest ?_ ?_ ?_
        · rw [hl, append_assoc]; rfl
        · simp only [length_cons] at hlen
          omega
        · intro hin
          rcases mem_append.mp hin with hin | hin
          · exact hpre hin
          · exact hb (mem_singleton.mp hin).symm

end Moves

/-! ## No two free buddies -/

/-- No free block below the top order has its buddy on the same list. -/
def Coalesced (free : Nat → List Nat) : Prop :=
  ∀ i, i < maxOrder → ∀ a ∈ free i, a ^^^ blockSize i ∉ free i

section Coalesced

variable {free : Nat → List Nat} {i : Nat}

theorem buddy_buddy (a i : Nat) : (a ^^^ blockSize i) ^^^ blockSize i = a := by
  rw [Nat.xor_assoc, Nat.xor_self, Nat.xor_zero]

theorem buddy_ne (a i : Nat) : a ^^^ blockSize i ≠ a := by
  intro h
  have hzero : a ^^^ (a ^^^ blockSize i) = 0 := by rw [h, Nat.xor_self]
  rw [← Nat.xor_assoc, Nat.xor_self, Nat.zero_xor] at hzero
  have := blockSize_ge i
  omega

/-- Taking blocks off a list leaves no new buddies. -/
theorem Coalesced.shrink (hc : Coalesced free) {l : List Nat} (hsub : l ⊆ free i) :
    Coalesced (update free i l) := by
  intro j hj a ha hb
  by_cases hji : j = i
  · subst hji
    rw [update_self] at ha hb
    exact hc j hj a (hsub ha) (hsub hb)
  · rw [update_of_ne hji] at ha hb
    exact hc j hj a ha hb

/-- A block may go on its list when its buddy is not there. -/
theorem Coalesced.push (hc : Coalesced free) {p : Nat}
    (hp : i < maxOrder → p ^^^ blockSize i ∉ free i) :
    Coalesced (update free i (p :: free i)) := by
  intro j hj a ha hb
  by_cases hji : j = i
  · subst hji
    rw [update_self] at ha hb
    -- of two buddies on the longer list one is the new block, and the other was there before
    rcases mem_cons.mp ha with rfl | ha'
    · rcases mem_cons.mp hb with hself | hb'
      · exact buddy_ne a j hself
      · exact hp hj hb'
    · rcases mem_cons.mp hb with rfl | hb'
      · exact hp hj (by rw [buddy_buddy]; exact ha')
      · exact hc j hj a ha' hb'
  · rw [update_of_ne hji] at ha hb
    exact hc j hj a ha hb

end Coalesced

end AlaphiOS.Memory
