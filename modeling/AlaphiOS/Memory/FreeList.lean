import AlaphiOS.Lib.Chain

/-!
# The frame allocator's free list

`kernel/src/memory/free_list.rs`. A free frame holds, in its first eight bytes,
the physical address of the next one; `head` is the address of the first. The
word `0` ends the list, so frame `0` can only ever be the last frame on it: a
frame pushed in front of it cuts it off.

Mirroring notes:
- A `PhysFrame` is its frame number, `frameAddr` its start address. Physical
  memory is reached through `phys_offset`, which is mapped one to one, so the
  memory is indexed by physical address.
- `none` is a panic: `PhysAddr::new` refuses an address of 2^52 or more, and
  `free_count -= 1` is checked.

`FreeFrames m fa free` says which frames are on the list. The spec of the two
operations is in those terms: `allocate` takes the first frame of `free`
(`allocate_cons`, `allocate_nil`), `deallocate` puts one in front.
-/

namespace AlaphiOS.Memory

open Lib

/-- Start address of a frame (or, for virtual addresses, of a page). -/
def frameAddr (f : Nat) : Nat := 4096 * f

/-- `FreeListAllocator`. -/
structure FreeListAllocator where
  head : Option Nat
  freeCount : Nat

namespace FreeListAllocator

/-- `FreeListAllocator::empty`. -/
def empty : FreeListAllocator := ⟨none, 0⟩

/-- `allocate`: the head of the list, and what its link word says comes next. -/
def allocate (m : Mem) (fa : FreeListAllocator) : Option (Option Nat × FreeListAllocator) :=
  match fa.head with
  | none => some (none, fa)
  | some headPhys =>
    let nextPhys := readWord m headPhys
    if nextPhys ≥ 2 ^ 52 then none
    else if fa.freeCount = 0 then none
    else some (some (headPhys / 4096), ⟨ptr nextPhys, fa.freeCount - 1⟩)

/-- `deallocate`: the old head goes into the frame's first word. -/
def deallocate (m : Mem) (fa : FreeListAllocator) (frame : Nat) : Mem × FreeListAllocator :=
  (writeWord m (frameAddr frame) (fa.head.getD 0), ⟨some (frameAddr frame), fa.freeCount + 1⟩)

/-- `allocate` returns `None` only without having changed anything. -/
theorem allocate_none {m : Mem} {fa fa' : FreeListAllocator}
    (h : fa.allocate m = some (none, fa')) : fa' = fa := by
  unfold allocate at h
  split at h
  · cases h
    rfl
  · dsimp only at h
    split at h
    · cases h
    · split at h
      · cases h
      · cases h

end FreeListAllocator

/-! ## Frames do not overlap -/

variable {dst g n : Nat} {b : Nat → UInt8}

theorem frameAddr_inj {f : Nat} (h : frameAddr f = frameAddr g) : f = g := by
  unfold frameAddr at h
  omega

theorem frameAddr_apart {f : Nat} (h : f ≠ g) :
    frameAddr f + 4096 ≤ frameAddr g ∨ frameAddr g + 4096 ≤ frameAddr f := by
  unfold frameAddr
  omega

theorem frameAddr_div (f : Nat) : frameAddr f / 4096 = f := by
  unfold frameAddr
  omega

/-- Overwriting bytes of one frame leaves every byte of the others alone. -/
theorem blit_other_frame {m : Mem} {f x : Nat} (h : f ≠ g)
    (hlo : frameAddr f ≤ dst) (hhi : dst + n ≤ frameAddr f + 4096)
    (hx : frameAddr g ≤ x) (hx' : x < frameAddr g + 4096) : blit m dst n b x = m x := by
  have := frameAddr_apart h
  exact blit_out (by omega)

theorem readWord_other_frame {m m' : Mem}
    (h : ∀ x, frameAddr g ≤ x → x < frameAddr g + 4096 → m' x = m x) :
    readWord m' (frameAddr g) = readWord m (frameAddr g) :=
  readWord_congr fun x h₁ h₂ => h x h₁ (by omega)

/-! ## Which frames are free -/

/-- The frames `free` are the ones on the list, in order: each once, each a
physical frame, and counted. -/
structure FreeFrames (m : Mem) (fa : FreeListAllocator) (free : List Nat) : Prop where
  chain : Chain m fa.head (free.map frameAddr)
  nodup : free.Nodup
  phys : ∀ f ∈ free, frameAddr f < 2 ^ 52
  count : free.length ≤ fa.freeCount

namespace FreeFrames

variable {m m' : Mem} {fa fa' : FreeListAllocator} {free rest : List Nat} {f : Nat}

/-- Memory outside the free frames does not matter. -/
theorem frame (h : FreeFrames m fa free)
    (hm : ∀ f ∈ free, readWord m' (frameAddr f) = readWord m (frameAddr f)) :
    FreeFrames m' fa free where
  chain := h.chain.frame (fun a ha => by
    obtain ⟨g, hg, rfl⟩ := List.mem_map.mp ha
    exact hm g hg)
  nodup := h.nodup
  phys := h.phys
  count := h.count

/-- Bytes of a frame that is not free do not matter. -/
theorem blit (h : FreeFrames m fa free) (hf : f ∉ free)
    (hlo : frameAddr f ≤ dst) (hhi : dst + n ≤ frameAddr f + 4096) :
    FreeFrames (Lib.blit m dst n b) fa free := by
  refine h.frame (fun g hg => readWord_other_frame (fun x hx hx' => ?_))
  exact blit_other_frame (g := g) (fun he => hf (by rw [he]; exact hg)) hlo hhi hx hx'

/-- The list is determined by the memory and the allocator. -/
theorem unique {free' : List Nat} (h : FreeFrames m fa free)
    (h' : Chain m fa.head (free'.map frameAddr)) : free' = free :=
  List.map_injective_iff.mpr (fun _ _ => frameAddr_inj) (h'.unique h.chain)

theorem allocate_nil (h : FreeFrames m fa []) : fa.allocate m = some (none, fa) := by
  rw [FreeListAllocator.allocate, h.chain.of_nil]

/-- With a frame on the list, `allocate` does not panic and takes the first. -/
theorem allocate_cons (h : FreeFrames m fa (f :: rest)) :
    ∃ fa', fa.allocate m = some (some f, fa') ∧ FreeFrames m fa' rest := by
  obtain ⟨hhead, hrest⟩ := h.chain.of_cons
  have hcount := h.count
  rw [List.length_cons] at hcount
  have hnext : readWord m (frameAddr f) < 2 ^ 52 := by
    -- the next word is null or the address of the next free frame
    by_cases h0 : readWord m (frameAddr f) = 0
    · rw [h0]; decide
    · rw [ptr_ne h0] at hrest
      obtain ⟨l, hl, _⟩ := hrest.of_some
      obtain ⟨g, hg, hga⟩ := List.mem_map.mp
        (show readWord m (frameAddr f) ∈ rest.map frameAddr by rw [hl]; exact List.mem_cons_self)
      rw [← hga]
      exact h.phys g (List.mem_cons_of_mem _ hg)
  refine ⟨⟨ptr (readWord m (frameAddr f)), fa.freeCount - 1⟩, ?_, ?_, ?_, ?_, ?_⟩
  · rw [FreeListAllocator.allocate, hhead]
    dsimp only
    rw [if_neg (by omega), if_neg (by omega), frameAddr_div]
  · dsimp only
    exact hrest
  · exact (List.nodup_cons.mp h.nodup).2
  · exact fun g hg => h.phys g (List.mem_cons_of_mem _ hg)
  · dsimp only
    omega

/-- What `allocate` can do: nothing on an empty list, else pop the first frame. -/
theorem allocate_cases (h : FreeFrames m fa free) {r : Option Nat}
    (ha : fa.allocate m = some (r, fa')) :
    (free = [] ∧ r = none ∧ fa' = fa) ∨
    (∃ f rest, free = f :: rest ∧ r = some f ∧ FreeFrames m fa' rest) := by
  cases free with
  | nil =>
    rw [h.allocate_nil] at ha
    injection ha with ha
    injection ha with h₁ h₂
    exact .inl ⟨rfl, h₁.symm, h₂.symm⟩
  | cons f rest =>
    obtain ⟨fa'', hf, hrest⟩ := h.allocate_cons
    rw [hf] at ha
    injection ha with ha
    injection ha with h₁ h₂
    exact .inr ⟨f, rest, rfl, h₁.symm, h₂ ▸ hrest⟩

/-- The first link is the first frame of the list, or 0. -/
theorem head_getD (h : FreeFrames m fa free) :
    fa.head.getD 0 = (free.head?.map frameAddr).getD 0 := by
  cases free with
  | nil => rw [h.chain.of_nil]; rfl
  | cons g rest => rw [h.chain.of_cons.1]; rfl

/-- In front of any frame but 0, whose address reads as the end of the list. -/
theorem deallocate_front (h : FreeFrames m fa free) (hf : f ∉ free) (hphys : frameAddr f < 2 ^ 52)
    (h0 : free.head? ≠ some 0) :
    FreeFrames (fa.deallocate m f).1 (fa.deallocate m f).2 (f :: free) := by
  have hchain : Chain m (ptr (fa.head.getD 0)) (free.map frameAddr) := by
    rw [h.head_getD]
    cases free with
    | nil => exact .nil
    | cons g rest =>
      have hne : frameAddr g ≠ 0 := fun hg => h0 (congrArg some (frameAddr_inj (g := 0) hg))
      show Chain m (ptr (frameAddr g)) _
      rw [ptr_ne hne, ← h.chain.of_cons.1]
      exact h.chain
  have hlt : fa.head.getD 0 < 2 ^ 64 := by
    rw [h.head_getD]
    cases free with
    | nil => decide
    | cons g rest =>
      have := h.phys g List.mem_cons_self
      show frameAddr g < 2 ^ 64
      omega
  refine ⟨hchain.push hlt (fun a ha => ?_), List.nodup_cons.mpr ⟨hf, h.nodup⟩, ?_, ?_⟩
  · obtain ⟨g, hg, rfl⟩ := List.mem_map.mp ha
    have := frameAddr_apart (fun he : g = f => hf (he ▸ hg))
    omega
  · intro g hg
    rcases List.mem_cons.mp hg with rfl | hg
    · exact hphys
    · exact h.phys g hg
  · rw [List.length_cons]
    exact Nat.succ_le_succ h.count

/-- `deallocate` puts a frame in front. The frames behind it are those that
were on the list, or none of them when frame `0` was the head. -/
theorem deallocate (h : FreeFrames m fa free) (hf : f ∉ free) (hphys : frameAddr f < 2 ^ 52) :
    ∃ rest, rest <+: free ∧
      FreeFrames (fa.deallocate m f).1 (fa.deallocate m f).2 (f :: rest) := by
  by_cases h0 : free.head? = some 0
  · refine ⟨[], List.nil_prefix, ?_, List.nodup_singleton f, ?_, Nat.le_add_left _ _⟩
    · refine .cons ?_
      rw [FreeListAllocator.deallocate, h.head_getD, h0]
      show Chain _ (ptr (readWord (writeWord m (frameAddr f) 0) (frameAddr f))) _
      rw [readWord_writeWord (by decide)]
      exact .nil
    · intro g hg
      rw [List.mem_singleton.mp hg]
      exact hphys
  · exact ⟨free, List.prefix_rfl, h.deallocate_front hf hphys h0⟩

/-- One frame after the other: the list has no others, and without frame `0` it has
them all. -/
theorem deallocate_all (frames : List Nat)
    (h : FreeFrames m fa free) (hnd : frames.Nodup) (hout : (∀ f ∈ frames, f ∉ free))
    (hphys : (∀ f ∈ frames, frameAddr f < 2 ^ 52)) :
    ∃ free', FreeFrames (frames.foldl (fun r f => r.2.deallocate r.1 f) (m, fa)).1
      (frames.foldl (fun r f => r.2.deallocate r.1 f) (m, fa)).2 free' ∧
      (∀ f ∈ free', f ∈ frames ∨ f ∈ free) ∧
      (0 ∉ frames → 0 ∉ free → free' = frames.reverse ++ free) := by
  induction frames generalizing m fa free with
  | nil => exact ⟨free, h, fun f hf => .inr hf, fun _ _ => rfl⟩
  | cons f frames ih =>
    obtain ⟨hf, hnd⟩ := List.nodup_cons.mp hnd
    have hfree := hout f List.mem_cons_self
    have hfphys := hphys f List.mem_cons_self
    -- What is behind `f` now: all of the list, unless its first frame is frame 0.
    obtain ⟨rest, hpre, h', hrest⟩ : ∃ rest, rest <+: free ∧
        FreeFrames (fa.deallocate m f).1 (fa.deallocate m f).2 (f :: rest) ∧
        (0 ∉ free → rest = free) := by
      by_cases h0 : free.head? = some 0
      · obtain ⟨rest, hpre, h'⟩ := h.deallocate hfree hfphys
        exact ⟨rest, hpre, h', fun hn => absurd (List.mem_of_head? h0) hn⟩
      · exact ⟨free, List.prefix_rfl, h.deallocate_front hfree hfphys h0, fun _ => rfl⟩
    obtain ⟨free', hfree', hsub, hall⟩ := ih h' hnd (fun g hg hmem => by
      rcases List.mem_cons.mp hmem with rfl | hmem
      · exact hf hg
      · exact hout g (List.mem_cons_of_mem _ hg) (hpre.subset hmem))
      (fun g hg => hphys g (List.mem_cons_of_mem _ hg))
    refine ⟨free', hfree', fun g hg => ?_, fun hn hn' => ?_⟩
    · rcases hsub g hg with hg | hg
      · exact .inl (List.mem_cons_of_mem _ hg)
      · rcases List.mem_cons.mp hg with rfl | hg
        · exact .inl List.mem_cons_self
        · exact .inr (hpre.subset hg)
    · obtain ⟨hne, hn⟩ := not_or.mp (mt List.mem_cons.mpr hn)
      rw [hall hn (fun hmem => by
        rcases List.mem_cons.mp hmem with h0 | hmem
        · exact hne h0
        · exact hn' (hpre.subset hmem)), hrest hn', List.reverse_cons, List.append_assoc]
      rfl

theorem empty (m : Mem) : FreeFrames m FreeListAllocator.empty [] :=
  ⟨.nil, List.nodup_nil, nofun, Nat.le_refl _⟩

end FreeFrames

end AlaphiOS.Memory
