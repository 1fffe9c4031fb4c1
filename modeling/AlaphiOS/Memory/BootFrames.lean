import AlaphiOS.Lib.Checked
import AlaphiOS.Lib.Run
import AlaphiOS.Memory.FreeList

/-!
# From the boot allocator to the free list

`BootFrameAllocator` of `kernel/src/memory/frame_allocator.rs`, `FreeListAllocator::init` of
`kernel/src/memory/free_list.rs`, and `memory::init`, which goes from the one to the other
by a bare count: `init` skips as many frames as the boot allocator has handed out.

The two walk the memory map in different ways. The boot allocator goes through every frame
that a Usable region touches; `init` steps from the region's first byte and stops at the
last whole page, so it has, region by region, the first few of the same frames
(`stepped_prefix`). That is enough for the boot frames to stay out of the free list
(`boot_frames_kept`). For the two together to be the usable frames it is not: with bounds
that are not page-aligned the frames at the edges are used although they are not wholly
usable, or frames get lost (`usable_frames`, `unaligned_regions`). Frame 0 is a case of its own:
its address is the word that ends the list.

Mirroring notes:
- A region's kind is only ever compared with `Usable`.
- `PhysAddr::new` and `PhysAddr + u64` refuse 2^52 and more; `none` is that panic, and that
  of `region.end - 1`.
- `region_idx` and the regions behind it are `regions.drop regionIdx`.
- `frames_consumed` counts distinct frames below 2^52, so it does not overflow.
- `heap::init` asks the boot allocator for 24576 frames and stops the kernel (`expect`) when
  there are fewer. In `memoryInit` the calls are `k`, for any `k`, and a call that returns `None`
  is one more call; that `expect` is left out.
-/

namespace AlaphiOS.Memory

open Lib List Option

/-- `PhysAddr::new`. -/
def physAddr (a : Nat) : Option Nat := if a < 2 ^ 52 then some a else none

/-- `PhysFrame::containing_address(PhysAddr::new(a))`. -/
def frameContaining (a : Nat) : Option Nat := (physAddr a).map (· / 4096)

variable {a f : Nat} {m' : Mem} {fa : FreeListAllocator} {frames : List Nat}

theorem physAddr_eq {b : Nat} (h : physAddr a = some b) : b = a ∧ a < 2 ^ 52 := by
  unfold physAddr at h
  split at h
  next hlt => exact ⟨(some.inj h).symm, hlt⟩
  · cases h

theorem frameContaining_eq (h : frameContaining a = some f) : f = a / 4096 := by
  obtain ⟨b, hb, rfl⟩ := map_inv h
  rw [(physAddr_eq hb).1]

/-- A region of the memory map. -/
structure MemoryRegion where
  start : Nat
  end_ : Nat
  usable : Bool
  deriving DecidableEq

open MemoryRegion

/-! ## `BootFrameAllocator` -/

/-- `BootFrameAllocator`. -/
structure BootFrameAllocator where
  regions : List MemoryRegion
  regionIdx : Nat
  cursor : Option Nat
  framesConsumed : Nat

open BootFrameAllocator

/-- The loop of `seek_to_first_usable_frame` over the regions from number `idx` on. -/
def seekFrom (idx : Nat) (cursor : Option Nat) : List MemoryRegion → Option (Nat × Option Nat)
  | [] => some (idx, none)
  | region :: rest =>
    if region.usable then do
      let startFrame ← frameContaining region.start
      let last ← usizeSub region.end_ 1
      let endFrame ← frameContaining last
      let candidate := cursor.getD startFrame
      if candidate ≤ endFrame then some (idx, some candidate)
      else seekFrom (idx + 1) none rest
    else seekFrom (idx + 1) none rest

namespace BootFrameAllocator

/-- `seek_to_first_usable_frame`. -/
def seekToFirstUsableFrame (b : BootFrameAllocator) : Option BootFrameAllocator :=
  (seekFrom b.regionIdx b.cursor (b.regions.drop b.regionIdx)).map fun r =>
    { b with regionIdx := r.1, cursor := r.2 }

/-- `BootFrameAllocator::new`. -/
def new (regions : List MemoryRegion) : Option BootFrameAllocator :=
  seekToFirstUsableFrame ⟨regions, 0, none, 0⟩

/-- `allocate_frame`. -/
def allocate (b : BootFrameAllocator) : Option (Option Nat × BootFrameAllocator) :=
  match b.cursor with
  | none => some (none, b)
  | some frame => do
    let next ← frameContaining (frameAddr frame + 4096)
    let b ← { b with
      cursor := some next
      framesConsumed := b.framesConsumed + 1 }.seekToFirstUsableFrame
    some (some frame, b)

/-- `k` calls of `allocate`, and the frames they return. -/
def allocateMany : Nat → BootFrameAllocator → Option (List Nat × BootFrameAllocator)
  | 0, b => some ([], b)
  | k + 1, b => do
    let (frame, b) ← b.allocate
    let (frames, b) ← allocateMany k b
    some (frame.toList ++ frames, b)

end BootFrameAllocator

/-! ## `FreeListAllocator::init` -/

/-- What the loops of `init` change: the frames still to skip, the memory, the allocator. -/
structure InitState where
  skip : Nat
  mem : Mem
  fa : FreeListAllocator

/-- The body of the inner loop, for the frame of its address. -/
def InitState.visit (s : InitState) (frame : Nat) : InitState :=
  if s.skip > 0 then { s with skip := s.skip - 1 }
  else
    let r := s.fa.deallocate s.mem frame
    { s with mem := r.1, fa := r.2 }

/-- `while addr + 4096 <= end`; the fuel is one more than the pages that are left. -/
def freeLoop (end_ : Nat) : Nat → Nat → InitState → Option InitState
  | 0, _, s => some s
  | fuel + 1, addr, s => do
    let next ← physAddr (addr + 4096)
    if next ≤ end_ then freeLoop end_ fuel next (s.visit (addr / 4096)) else some s

/-- The loop over one region. -/
def freeRegion (s : InitState) (region : MemoryRegion) : Option InitState :=
  if region.usable then do
    let start ← physAddr region.start
    let end_ ← physAddr region.end_
    freeLoop end_ ((end_ - start) / 4096 + 1) start s
  else some s

/-- `FreeListAllocator::init`. -/
def FreeListAllocator.init (m : Mem) (fa : FreeListAllocator) (regions : List MemoryRegion)
    (skip : Nat) : Option (Mem × FreeListAllocator) :=
  (regions.foldlM freeRegion ⟨skip, m, fa⟩).map fun s => (s.mem, s.fa)

/-- `memory::init` with `k` calls of the boot allocator: the frames they return, the memory and
`FRAME_ALLOCATOR`. -/
def memoryInit (m : Mem) (regions : List MemoryRegion) (k : Nat) :
    Option (List Nat × Mem × FreeListAllocator) := do
  let bootAlloc ← new regions
  let (frames, bootAlloc) ← bootAlloc.allocateMany k
  let (m, fa) ← FreeListAllocator.empty.init m regions bootAlloc.framesConsumed
  some (frames, m, fa)

/-! ## The frames of a region, both ways -/

namespace MemoryRegion

/-- Some byte of the frame is in the region. -/
def Touches (r : MemoryRegion) (f : Nat) : Prop := ∃ x, r.start ≤ x ∧ x < r.end_ ∧ x / 4096 = f

/-- The frames from `first` to the last one the region touches. -/
def framesFrom (r : MemoryRegion) (first : Nat) : List Nat :=
  if r.usable then range' first ((r.end_ - 1) / 4096 + 1 - first) else []

/-- The frames of the boot allocator. -/
def touched (r : MemoryRegion) : List Nat := r.framesFrom (r.start / 4096)

/-- The frames of `init`. -/
def stepped (r : MemoryRegion) : List Nat :=
  if r.usable then range' (r.start / 4096) ((r.end_ - r.start) / 4096) else []

theorem stepped_prefix (r : MemoryRegion) : r.stepped <+: r.touched := by
  unfold stepped touched framesFrom
  split
  · have hle : (r.end_ - r.start) / 4096 ≤ (r.end_ - 1) / 4096 + 1 - r.start / 4096 := by omega
    obtain ⟨n, hn⟩ := Nat.exists_eq_add_of_le hle
    rw [hn, ← range'_append_1]
    exact prefix_append ..
  · exact prefix_rfl

variable {r : MemoryRegion}

/-- The whole page that `init` steps over ends inside of the region. -/
theorem mem_stepped : f ∈ r.stepped ↔
    r.usable = true ∧ r.start / 4096 ≤ f ∧ r.start % 4096 + 4096 * (f + 1) ≤ r.end_ := by
  unfold stepped
  split
  next hu =>
    rw [mem_range'_1]
    exact ⟨fun hf => ⟨hu, by omega, by omega⟩, fun ⟨_, hlo, hhi⟩ => ⟨hlo, by omega⟩⟩
  next hu => exact ⟨nofun, fun hf => absurd hf.1 hu⟩

theorem mem_touched (h : r.start < r.end_) : f ∈ r.touched ↔ r.usable = true ∧ r.Touches f := by
  unfold touched framesFrom
  split
  next hu =>
    rw [mem_range'_1]
    refine ⟨fun hf => ⟨hu, max r.start (4096 * f), by omega, by omega, by omega⟩, ?_⟩
    rintro ⟨_, x, hlo, hhi, rfl⟩
    omega
  next hu => exact ⟨nofun, fun hf => absurd hf.1 hu⟩

theorem nodup_touched (r : MemoryRegion) : r.touched.Nodup := by
  unfold touched framesFrom
  split
  · exact nodup_range'
  · exact nodup_nil

end MemoryRegion

/-- The frames in the order of the boot allocator. -/
def bootFrames (regions : List MemoryRegion) : List Nat := regions.flatMap touched

/-- The frames in the order of `init`. -/
def initFrames (regions : List MemoryRegion) : List Nat := regions.flatMap stepped

/-! ## What the boot allocator hands out -/

/-- The frames from the cursor on. -/
def upcoming (cursor : Option Nat) : List MemoryRegion → List Nat
  | [] => []
  | r :: rs => r.framesFrom (cursor.getD (r.start / 4096)) ++ bootFrames rs

theorem upcoming_none (regions : List MemoryRegion) : upcoming none regions = bootFrames regions := by
  cases regions <;> rfl

/-- `seek` goes to the first frame that is left, if there is one. -/
theorem seekFrom_spec {regions : List MemoryRegion} {idx idx' : Nat} {cursor cursor' : Option Nat}
    (h : seekFrom idx cursor regions = some (idx', cursor')) :
    (cursor' = none ∧ upcoming cursor regions = []) ∨
      (∃ f n, cursor' = some f ∧ idx' = idx + n ∧
      upcoming cursor regions = f :: upcoming (some (f + 1)) (regions.drop n)) := by
  induction regions generalizing idx idx' cursor cursor' with
  | nil =>
    cases h
    exact .inl ⟨rfl, rfl⟩
  | cons r rs ih =>
    have hskip : seekFrom (idx + 1) none rs = some (idx', cursor') →
        r.framesFrom (cursor.getD (r.start / 4096)) = [] →
        (cursor' = none ∧ upcoming cursor (r :: rs) = []) ∨
        (∃ f n, cursor' = some f ∧ idx' = idx + n ∧
          upcoming cursor (r :: rs) = f :: upcoming (some (f + 1)) ((r :: rs).drop n)) := by
      intro hrest hempty
      have heq : upcoming cursor (r :: rs) = upcoming none rs := by
        rw [upcoming, hempty, upcoming_none]
        rfl
      rw [heq]
      refine (ih hrest).imp_right ?_
      rintro ⟨f, n, hf, hn, hup⟩
      exact ⟨f, n + 1, hf, by omega, hup⟩
    unfold seekFrom at h
    split at h
    next hu =>
      obtain ⟨startFrame, hstart, h⟩ := bind_inv h
      obtain ⟨last, hlast, h⟩ := bind_inv h
      obtain ⟨endFrame, hend, h⟩ := bind_inv h
      obtain rfl := frameContaining_eq hstart
      obtain ⟨rfl, _⟩ := usizeSub_eq hlast
      obtain rfl := frameContaining_eq hend
      dsimp only at h
      split at h
      next hle =>
        injection some.inj h with hidx hc
        refine .inr ⟨_, 0, hc.symm, hidx.symm, ?_⟩
        -- the first frame of the range, and the range without it
        rw [drop_zero, upcoming, upcoming]
        unfold framesFrom
        rw [if_pos hu, if_pos hu, Nat.succ_sub hle, range'_succ, getD_some,
          cons_append, Nat.add_sub_add_right]
      next hgt =>
        refine hskip h ?_
        unfold framesFrom
        rw [if_pos hu, Nat.sub_eq_zero_of_le (by omega)]
        rfl
    next hu =>
      refine hskip h ?_
      unfold framesFrom
      rw [if_neg hu]

namespace BootFrameAllocator

variable {b b' : BootFrameAllocator} {l : List Nat}

/-- The frames `l` are still to come. -/
def Left (b : BootFrameAllocator) (l : List Nat) : Prop :=
  (b.cursor = none ∧ l = []) ∨
  (∃ f, b.cursor = some f ∧ l = f :: upcoming (some (f + 1)) (b.regions.drop b.regionIdx))

theorem seek_left (h : b.seekToFirstUsableFrame = some b') :
    b'.Left (upcoming b.cursor (b.regions.drop b.regionIdx)) ∧
      b'.framesConsumed = b.framesConsumed := by
  obtain ⟨⟨idx, cursor⟩, hseek, rfl⟩ := map_inv h
  refine ⟨?_, rfl⟩
  rcases seekFrom_spec hseek with ⟨hc, hup⟩ | ⟨f, n, hc, hn, hup⟩
  · exact .inl ⟨hc, hup⟩
  · refine .inr ⟨f, hc, ?_⟩
    rw [hup, drop_drop]
    dsimp only
    rw [hn]

theorem new_left {regions : List MemoryRegion} (h : new regions = some b) :
    b.Left (bootFrames regions) ∧ b.framesConsumed = 0 := by
  obtain ⟨hleft, hcount⟩ := seek_left h
  refine ⟨?_, hcount⟩
  rw [← upcoming_none]
  exact hleft

theorem allocate_left {r : Option Nat} (hl : b.Left l) (h : b.allocate = some (r, b')) :
    r = l.head? ∧ b'.Left l.tail ∧ b'.framesConsumed = b.framesConsumed + r.toList.length := by
  unfold allocate at h
  rcases hl with ⟨hc, rfl⟩ | ⟨f, hc, rfl⟩
  · rw [hc] at h
    cases h
    exact ⟨rfl, .inl ⟨hc, rfl⟩, rfl⟩
  · rw [hc] at h
    obtain ⟨next, hnext, h⟩ := bind_inv h
    obtain ⟨b₁, hseek, h⟩ := bind_inv h
    cases h
    obtain ⟨hleft, hcount⟩ := seek_left hseek
    have hsucc : next = f + 1 := by
      rw [frameContaining_eq hnext]
      unfold frameAddr
      omega
    rw [hsucc] at hleft
    exact ⟨rfl, hleft, hcount⟩

theorem allocateMany_left {k : Nat} (hl : b.Left l) (h : allocateMany k b = some (frames, b')) :
    frames = l.take k ∧ b'.framesConsumed = b.framesConsumed + frames.length := by
  induction k generalizing b b' l frames with
  | zero =>
    cases h
    exact ⟨(take_zero ..).symm, rfl⟩
  | succ k ih =>
    obtain ⟨⟨r, b₁⟩, hr, h⟩ := bind_inv h
    obtain ⟨⟨fs, b₂⟩, hfs, h⟩ := bind_inv h
    cases h
    obtain ⟨rfl, hl₁, hcount₁⟩ := allocate_left hl hr
    obtain ⟨rfl, hcount₂⟩ := ih hl₁ hfs
    refine ⟨?_, by rw [hcount₂, hcount₁, length_append, Nat.add_assoc]⟩
    cases l with
    | nil => simp
    | cons f l => rfl

end BootFrameAllocator

/-! ## What `init` puts on the list -/

/-- `deallocate` of one frame after the other. -/
def deallocateAll (r : Mem × FreeListAllocator) (frames : List Nat) : Mem × FreeListAllocator :=
  frames.foldl (fun r f => r.2.deallocate r.1 f) r

theorem visit_all : ∀ (frames : List Nat) (skip : Nat) (m : Mem) (fa : FreeListAllocator),
    frames.foldl InitState.visit ⟨skip, m, fa⟩
      = ⟨skip - frames.length, (deallocateAll (m, fa) (frames.drop skip)).1,
          (deallocateAll (m, fa) (frames.drop skip)).2⟩
  | [], skip, m, fa => by rw [drop_nil]; rfl
  | f :: frames, 0, m, fa => by
    rw [foldl_cons]
    show frames.foldl InitState.visit ⟨0, _, _⟩ = _
    rw [visit_all frames 0, drop_zero, drop_zero]
    simp only [Nat.zero_sub]
    rfl
  | f :: frames, skip + 1, m, fa => by
    rw [foldl_cons]
    show frames.foldl InitState.visit ⟨skip, m, fa⟩ = _
    rw [visit_all frames skip, drop_succ_cons, length_cons, Nat.add_sub_add_right]

variable {end_ : Nat} {s s' : InitState}

/-- The inner loop visits the whole pages from `addr` on. -/
theorem freeLoop_spec {fuel addr : Nat}
    (hf : (end_ - addr) / 4096 < fuel) (h : freeLoop end_ fuel addr s = some s') :
    s' = (range' (addr / 4096) ((end_ - addr) / 4096)).foldl InitState.visit s ∧
      ∀ f ∈ range' (addr / 4096) ((end_ - addr) / 4096), frameAddr f < 2 ^ 52 := by
  induction fuel generalizing addr s s' with
  | zero => omega
  | succ fuel ih =>
    rw [freeLoop] at h
    obtain ⟨next, hnext, h⟩ := bind_inv h
    obtain ⟨rfl, hlt⟩ := physAddr_eq hnext
    split at h
    next hle =>
      obtain ⟨heq, hphys⟩ := ih (by omega) h
      have hcount : (end_ - addr) / 4096 = (end_ - (addr + 4096)) / 4096 + 1 := by omega
      have hframe : (addr + 4096) / 4096 = addr / 4096 + 1 := by omega
      rw [hframe] at heq hphys
      rw [hcount, range'_succ, foldl_cons]
      refine ⟨heq, fun f hf => ?_⟩
      rcases mem_cons.mp hf with rfl | hf
      · unfold frameAddr
        omega
      · exact hphys f hf
    next hgt =>
      cases h
      rw [show (end_ - addr) / 4096 = 0 by omega]
      exact ⟨rfl, nofun⟩

theorem freeRegion_spec {r : MemoryRegion} (h : freeRegion s r = some s') :
    s' = r.stepped.foldl InitState.visit s ∧ ∀ f ∈ r.stepped, frameAddr f < 2 ^ 52 := by
  unfold freeRegion at h
  unfold stepped
  split at h
  next hu =>
    obtain ⟨start, hstart, h⟩ := bind_inv h
    obtain ⟨end_, hend, h⟩ := bind_inv h
    obtain ⟨rfl, _⟩ := physAddr_eq hstart
    obtain ⟨rfl, _⟩ := physAddr_eq hend
    rw [if_pos hu]
    exact freeLoop_spec (Nat.lt_succ_self _) h
  next hu =>
    cases h
    rw [if_neg hu]
    exact ⟨rfl, nofun⟩

theorem init_spec {m : Mem} {fa' : FreeListAllocator} {regions : List MemoryRegion} {skip : Nat}
    (h : fa.init m regions skip = some (m', fa')) :
    (m', fa') = deallocateAll (m, fa) ((initFrames regions).drop skip) ∧
      ∀ f ∈ initFrames regions, frameAddr f < 2 ^ 52 := by
  obtain ⟨s, hs, heq⟩ := map_inv h
  have hall := foldlM_prefix_rule (I := fun rs (s : InitState) =>
      s = (initFrames rs).foldl InitState.visit ⟨skip, m, fa⟩ ∧
        ∀ f ∈ initFrames rs, frameAddr f < 2 ^ 52)
    (fun before s r t hI ht => ?_) ⟨rfl, nofun⟩ hs
  · obtain ⟨rfl, hphys⟩ := hall
    rw [visit_all] at heq
    exact ⟨heq.symm, hphys⟩
  · obtain ⟨rfl, hphys⟩ := hI
    obtain ⟨rfl, hphys'⟩ := freeRegion_spec ht
    unfold initFrames at hphys ⊢
    rw [flatMap_append, flatMap_singleton, foldl_append]
    refine ⟨rfl, fun f hf => ?_⟩
    rcases mem_append.mp hf with hf | hf
    · exact hphys f hf
    · exact hphys' f hf

/-- The boot allocator has the first `k` frames of its order, the free list what `init` has
in its own order behind as many. -/
theorem memoryInit_spec {m : Mem} {regions : List MemoryRegion} {k : Nat}
    (h : memoryInit m regions k = some (frames, m', fa)) :
    frames = (bootFrames regions).take k ∧
      (m', fa) = deallocateAll (m, .empty) ((initFrames regions).drop frames.length) ∧
      ∀ f ∈ initFrames regions, frameAddr f < 2 ^ 52 := by
  obtain ⟨b₀, hnew, h⟩ := bind_inv h
  obtain ⟨⟨fs, b⟩, halloc, h⟩ := bind_inv h
  obtain ⟨⟨m₁, fa₁⟩, hinit, h⟩ := bind_inv h
  cases h
  obtain ⟨hleft, hzero⟩ := new_left hnew
  obtain ⟨hframes, hcount⟩ := allocateMany_left hleft halloc
  rw [hzero, Nat.zero_add] at hcount
  rw [hcount] at hinit
  exact ⟨hframes, init_spec hinit⟩

/-! ## Two enumerations with a count between them -/

section

variable {α β : Type} {B I : α → List β}

theorem sublist_flatMap (hI : ∀ r, I r <+: B r) : ∀ rs : List α, (rs.flatMap I).Sublist (rs.flatMap B)
  | [] => List.Sublist.refl _
  | r :: rs => (hI r).sublist.append (sublist_flatMap hI rs)

/-- If `I` has, part by part, the first of what `B` has, then what `I` has behind `k` is not
among the first `k` of `B`. -/
theorem disjoint_take_drop_flatMap (hI : ∀ r, I r <+: B r) (rs : List α) (k : Nat)
    (hnd : (rs.flatMap B).Nodup) : ((rs.flatMap B).take k).Disjoint ((rs.flatMap I).drop k) := by
  induction rs generalizing k with
  | nil => simp
  | cons r rs ih =>
    rw [flatMap_cons] at hnd ⊢
    obtain ⟨hr, hrs, hsep⟩ := nodup_append.mp hnd
    obtain ⟨more, hmore⟩ := hI r
    rw [flatMap_cons, take_append, drop_append]
    intro x hx hx'
    rcases mem_append.mp hx with hx | hx <;> rcases mem_append.mp hx' with hx' | hx'
    -- Both in the first part.
    · refine disjoint_take_drop hr (Nat.le_refl k) hx ?_
      rw [← hmore, drop_append]
      exact mem_append_left _ hx'
    · have hB := (sublist_flatMap hI rs).subset (mem_of_mem_drop hx')
      exact hsep x (mem_of_mem_take hx) x hB rfl
    · have hB := (hI r).subset (mem_of_mem_drop hx')
      exact hsep x hB x (mem_of_mem_take hx) rfl
    -- Both behind it: `I` has got further, as its first part is not longer.
    · have hle : k - (B r).length ≤ k - (I r).length := Nat.sub_le_sub_left (hI r).length_le k
      refine ih _ hrs hx ?_
      obtain ⟨n, hn⟩ := Nat.exists_eq_add_of_le hle
      rw [hn, ← drop_drop] at hx'
      exact mem_of_mem_drop hx'

end

/-! ## It returns -/

section

variable {regions : List MemoryRegion}

/-- The frame under the cursor has a frame behind it. -/
def BootFrameAllocator.Below (b : BootFrameAllocator) : Prop :=
  ∀ f, b.cursor = some f → frameAddr f + 4096 < 2 ^ 52

theorem physAddr_of_lt (h : a < 2 ^ 52) : physAddr a = some a := if_pos h

theorem frameContaining_of_lt (h : a < 2 ^ 52) : frameContaining a = some (a / 4096) := by
  unfold frameContaining
  rw [physAddr_of_lt h]
  rfl

theorem seekFrom_returns (idx : Nat) (cursor : Option Nat)
    (hr : (∀ r ∈ regions, r.start < r.end_ ∧ r.end_ + 4096 < 2 ^ 52)) :
    ∃ idx' cursor', seekFrom idx cursor regions = some (idx', cursor') ∧
      ∀ f, cursor' = some f → frameAddr f + 4096 < 2 ^ 52 := by
  induction regions generalizing idx cursor with
  | nil => exact ⟨idx, none, rfl, nofun⟩
  | cons r rs ih =>
    obtain ⟨hne, hend⟩ := hr r mem_cons_self
    have hrest := ih (idx + 1) none fun r hmem => hr r (mem_cons_of_mem _ hmem)
    unfold seekFrom
    split
    · have hlast : usizeSub r.end_ 1 = some (r.end_ - 1) := if_pos (by omega)
      rw [frameContaining_of_lt (show r.start < 2 ^ 52 by omega), hlast]
      simp only [bind_eq_bind, bind_some]
      rw [frameContaining_of_lt (show r.end_ - 1 < 2 ^ 52 by omega), bind_some]
      split
      next hle =>
        refine ⟨idx, _, rfl, fun f hf => ?_⟩
        cases hf
        unfold frameAddr
        omega
      · exact hrest
    · exact hrest

theorem BootFrameAllocator.seek_returns {b : BootFrameAllocator}
    (hr : ∀ r ∈ b.regions, r.start < r.end_ ∧ r.end_ + 4096 < 2 ^ 52) :
    ∃ b', b.seekToFirstUsableFrame = some b' ∧ b'.regions = b.regions ∧ b'.Below := by
  obtain ⟨idx, cursor, hseek, hbelow⟩ := seekFrom_returns b.regionIdx b.cursor fun r hmem =>
    hr r (mem_of_mem_drop hmem)
  refine ⟨{ b with regionIdx := idx, cursor := cursor }, ?_, rfl, hbelow⟩
  unfold seekToFirstUsableFrame
  rw [hseek]
  rfl

theorem BootFrameAllocator.allocateMany_returns : ∀ (k : Nat) {b : BootFrameAllocator}, b.Below →
    (∀ r ∈ b.regions, r.start < r.end_ ∧ r.end_ + 4096 < 2 ^ 52) →
    ∃ frames b', allocateMany k b = some (frames, b') := by
  intro k
  induction k with
  | zero => exact fun _ _ => ⟨[], _, rfl⟩
  | succ k ih =>
    intro b hbelow hr
    have hone : ∃ r b', b.allocate = some (r, b') ∧ b'.regions = b.regions ∧ b'.Below := by
      unfold allocate
      cases hc : b.cursor with
      | none => exact ⟨none, b, rfl, rfl, hbelow⟩
      | some f =>
        dsimp only
        rw [bind_of_eq (frameContaining_of_lt (hbelow f hc))]
        obtain ⟨b', hseek, hregions, hbelow'⟩ := seek_returns (b := { b with
          cursor := some ((frameAddr f + 4096) / 4096)
          framesConsumed := b.framesConsumed + 1 }) hr
        rw [hseek]
        exact ⟨some f, b', rfl, hregions, hbelow'⟩
    obtain ⟨r, b₁, halloc, hregions, hbelow₁⟩ := hone
    obtain ⟨frames, b', hrest⟩ := ih hbelow₁ (hregions ▸ hr)
    refine ⟨r.toList ++ frames, b', ?_⟩
    rw [allocateMany, bind_of_eq halloc]
    dsimp only
    rw [hrest]
    rfl

theorem freeLoop_returns (hend : end_ + 4096 < 2 ^ 52) (fuel addr : Nat)
    (s : InitState) (hle : addr ≤ end_) : ∃ s', freeLoop end_ fuel addr s = some s' := by
  induction fuel generalizing addr s with
  | zero => exact ⟨s, rfl⟩
  | succ fuel ih =>
    rw [freeLoop, bind_of_eq (physAddr_of_lt (by omega))]
    split
    next hnext => exact ih _ _ hnext
    · exact ⟨s, rfl⟩

theorem freeRegions_returns (regions : List MemoryRegion) (s : InitState)
    (hr : (∀ r ∈ regions, r.start < r.end_ ∧ r.end_ + 4096 < 2 ^ 52)) :
    ∃ s', regions.foldlM freeRegion s = some s' := by
  induction regions generalizing s with
  | nil => exact ⟨s, rfl⟩
  | cons r rs ih =>
    obtain ⟨hne, hend⟩ := hr r mem_cons_self
    obtain ⟨s₁, hs₁⟩ : ∃ s₁, freeRegion s r = some s₁ := by
      unfold freeRegion
      split
      · rw [physAddr_of_lt (show r.start < 2 ^ 52 by omega),
          physAddr_of_lt (show r.end_ < 2 ^ 52 by omega), bind_eq_bind, bind_some,
          bind_some]
        exact freeLoop_returns hend _ _ s (by omega)
      · exact ⟨s, rfl⟩
    obtain ⟨s', hs'⟩ := ih s₁ fun r hmem => hr r (mem_cons_of_mem _ hmem)
    refine ⟨s', ?_⟩
    rw [foldlM_cons, hs₁]
    exact hs'

/-- Nothing overflows on a memory map that ends a page below the addresses the processor has. -/
theorem memoryInit_returns (m : Mem) (k : Nat)
    (hr : ∀ r ∈ regions, r.start < r.end_ ∧ r.end_ + 4096 < 2 ^ 52) :
    ∃ frames m' fa, memoryInit m regions k = some (frames, m', fa) := by
  obtain ⟨b₀, hnew, hregions, hbelow⟩ := seek_returns (b := ⟨regions, 0, none, 0⟩) hr
  obtain ⟨frames, b, halloc⟩ := allocateMany_returns k hbelow (hregions ▸ hr)
  obtain ⟨s, hinit⟩ := freeRegions_returns regions ⟨b.framesConsumed, m, .empty⟩ hr
  refine ⟨frames, s.mem, s.fa, ?_⟩
  unfold memoryInit new FreeListAllocator.init
  rw [bind_of_eq hnew, bind_of_eq halloc]
  dsimp only
  rw [hinit]
  rfl

end

/-! ## Boot frames are not handed out again -/

/-- No two Usable regions touch the same frame. -/
def UsableApart (regions : List MemoryRegion) : Prop :=
  regions.Pairwise fun r r' => r.usable = true → r'.usable = true →
    ∀ f, ¬ (r.Touches f ∧ r'.Touches f)

theorem nodup_bootFrames {regions : List MemoryRegion} (hne : ∀ r ∈ regions, r.start < r.end_)
    (hapart : UsableApart regions) : (bootFrames regions).Nodup := by
  refine nodup_flatMap.mpr ⟨fun r _ => r.nodup_touched, ?_⟩
  refine List.Pairwise.imp_of_mem (fun {r r'} hr hr' h f hf hf' => ?_) hapart
  obtain ⟨hu, ht⟩ := (mem_touched (hne r hr)).mp hf
  obtain ⟨hu', ht'⟩ := (mem_touched (hne r' hr')).mp hf'
  exact h hu hu' f ⟨ht, ht'⟩

/-- The free list after `memory::init`. -/
theorem memoryInit_free {m : Mem} {regions : List MemoryRegion} {k : Nat}
    (hnd : (initFrames regions).Nodup)
    (h : memoryInit m regions k = some (frames, m', fa)) :
    ∃ free, FreeFrames m' fa free ∧ (∀ f ∈ free, f ∈ (initFrames regions).drop frames.length) ∧
      (0 ∉ (initFrames regions).drop frames.length →
        free = ((initFrames regions).drop frames.length).reverse) := by
  obtain ⟨_, heq, hphys⟩ := memoryInit_spec h
  obtain ⟨free, hfree, hsub, hall⟩ := (FreeFrames.empty m).deallocate_all _
    (hnd.sublist (drop_sublist ..)) (fun _ _ => not_mem_nil) fun f hf => hphys f (mem_of_mem_drop hf)
  change FreeFrames (deallocateAll _ _).1 (deallocateAll _ _).2 _ at hfree
  rw [← heq] at hfree
  refine ⟨free, hfree, fun f hf => (hsub f hf).resolve_right not_mem_nil, fun h0 => ?_⟩
  rw [hall h0 not_mem_nil, append_nil]

/-- **Boot frames are never handed out again**: whatever the bounds of the regions are and
however many frames the heap takes, these are distinct, and none of them is on the free
list, which has no frame twice. -/
theorem boot_frames_kept (m : Mem) (regions : List MemoryRegion) (k : Nat)
    (hne : ∀ r ∈ regions, r.start < r.end_) (hapart : UsableApart regions)
    {frames : List Nat} {m' : Mem} {fa : FreeListAllocator}
    (h : memoryInit m regions k = some (frames, m', fa)) :
    frames.Nodup ∧ ∃ free, FreeFrames m' fa free ∧ free.Nodup ∧ ∀ f ∈ frames, f ∉ free := by
  have hnd := nodup_bootFrames hne hapart
  obtain ⟨free, hfree, hsub, _⟩ := memoryInit_free
    (hnd.sublist (sublist_flatMap MemoryRegion.stepped_prefix regions)) h
  obtain ⟨hframes, _⟩ := memoryInit_spec h
  have htake : frames = (bootFrames regions).take frames.length := by
    rw [hframes, length_take, ← take_eq_take_min]
  refine ⟨hframes ▸ hnd.sublist (take_sublist ..), free, hfree, hfree.nodup, fun f hf hmem => ?_⟩
  rw [htake] at hf
  exact disjoint_take_drop_flatMap MemoryRegion.stepped_prefix regions frames.length hnd hf (hsub f hmem)

/-- A memory map with bounds inside of pages. -/
def oddRegions : List MemoryRegion := [⟨0x1800, 0x2800, true⟩, ⟨0x4000, 0x6000, true⟩]

theorem oddRegions_apart : UsableApart oddRegions := by
  refine List.Pairwise.cons ?_ (pairwise_singleton ..)
  rintro r hr _ _ f ⟨⟨x, hlo, hhi, rfl⟩, y, hlo', _, heq⟩
  obtain rfl := mem_singleton.mp hr
  dsimp only at hlo hhi hlo'
  omega

/-- The heap takes two frames of it. -/
theorem boot_frames_kept_oddRegions :
    ∃ m' fa, memoryInit (fun _ => 0) oddRegions 2 = some ([1, 2], m', fa) ∧
      ∃ free, FreeFrames m' fa free ∧ free.Nodup ∧ ∀ f ∈ [1, 2], f ∉ free := by
  have hrun : (memoryInit (fun _ => 0) oddRegions 2).map Prod.fst = some [1, 2] := by decide
  obtain ⟨⟨frames, m', fa⟩, h, rfl⟩ := map_inv hrun
  exact ⟨m', fa, h, (boot_frames_kept _ oddRegions 2 (by decide) oddRegions_apart h).2⟩

/-! ## Usable frames -/

/-- Every byte of the frame is in a Usable region. -/
def WhollyUsable (regions : List MemoryRegion) (f : Nat) : Prop :=
  ∀ x, x / 4096 = f → ∃ r ∈ regions, r.usable = true ∧ r.start ≤ x ∧ x < r.end_

/-- After `k` calls of the boot allocator, the frames they returned and those on the free list are
the frames that are wholly usable. -/
def FramesAccounted (m : Mem) (regions : List MemoryRegion) (k : Nat) : Prop :=
  ∃ frames m' fa free, memoryInit m regions k = some (frames, m', fa) ∧ FreeFrames m' fa free ∧
    ∀ f, f ∈ frames ∨ f ∈ free ↔ WhollyUsable regions f

/-- The Usable regions begin and end at page boundaries. -/
def PageAligned (regions : List MemoryRegion) : Prop :=
  ∀ r ∈ regions, r.usable = true → r.start % 4096 = 0 ∧ r.end_ % 4096 = 0

section

variable {regions : List MemoryRegion} (hne : ∀ r ∈ regions, r.start < r.end_)
  (hincr : regions.Pairwise fun r r' => r.end_ ≤ r'.start) (haligned : PageAligned regions)

section

include hne haligned

theorem initFrames_of_aligned : initFrames regions = bootFrames regions := by
  unfold initFrames bootFrames
  refine flatMap_congr fun r hr => ?_
  have hlt := hne r hr
  unfold stepped touched framesFrom
  by_cases hu : r.usable = true
  · obtain ⟨hs, he⟩ := haligned r hr hu
    rw [if_pos hu, if_pos hu,
      show (r.end_ - r.start) / 4096 = (r.end_ - 1) / 4096 + 1 - r.start / 4096 by omega]
  · rw [if_neg hu, if_neg hu]

theorem mem_bootFrames_of_aligned : f ∈ bootFrames regions ↔ WhollyUsable regions f := by
  unfold bootFrames
  rw [mem_flatMap]
  refine ⟨?_, fun h => ?_⟩
  · rintro ⟨r, hr, hf⟩ x hx
    obtain ⟨hu, y, hlo, hhi, hy⟩ := (mem_touched (hne r hr)).mp hf
    obtain ⟨hs, he⟩ := haligned r hr hu
    exact ⟨r, hr, hu, by omega, by omega⟩
  · obtain ⟨r, hr, hu, hlo, hhi⟩ := h (4096 * f) (by omega)
    exact ⟨r, hr, (mem_touched (hne r hr)).mpr ⟨hu, _, hlo, hhi, by omega⟩⟩

end

include hincr haligned

theorem usableApart_of_aligned : UsableApart regions := by
  refine List.Pairwise.imp_of_mem (fun {r r'} hr hr' hle hu hu' f => ?_) hincr
  rintro ⟨⟨x, hlo, hhi, rfl⟩, y, hlo', hhi', heq⟩
  obtain ⟨_, he⟩ := haligned r hr hu
  omega

include hne

/-- Frame 0, if it is usable, is the first one. -/
theorem bootFrames_zero (h0 : 0 ∈ bootFrames regions) : ∃ l, bootFrames regions = 0 :: l := by
  cases regions with
  | nil => cases h0
  | cons r rs =>
    have hlt := hne r mem_cons_self
    rcases mem_append.mp h0 with h | h
    · unfold bootFrames
      rw [flatMap_cons]
      obtain ⟨hu, x, hlo, hhi, hx⟩ := (mem_touched hlt).mp h
      unfold touched framesFrom
      rw [if_pos hu, show r.start / 4096 = 0 by omega, Nat.sub_zero, range'_succ, cons_append]
      exact ⟨_, rfl⟩
    · -- No region is behind a region and begins at 0.
      obtain ⟨r', hr', hf⟩ := mem_flatMap.mp h
      have hmem := mem_cons_of_mem r hr'
      obtain ⟨hu, x, hlo, _, hx⟩ := (mem_touched (hne r' hmem)).mp hf
      have hle := (pairwise_cons.mp hincr).1 r' hr'
      have hs := (haligned r' hmem hu).1
      omega

end

section

variable {regions : List MemoryRegion}

/-- In increasing regions `init` has no frame twice, whatever their bounds are. -/
theorem nodup_initFrames (hincr : regions.Pairwise fun r r' => r.end_ ≤ r'.start) :
    (initFrames regions).Nodup := by
  refine nodup_flatMap.mpr ⟨fun r _ => ?_, ?_⟩
  · exact r.nodup_touched.sublist r.stepped_prefix.sublist
  · refine hincr.imp fun {r r'} hle f hf hf' => ?_
    obtain ⟨_, _, hend⟩ := mem_stepped.mp hf
    obtain ⟨_, hlo, _⟩ := mem_stepped.mp hf'
    omega

/-- If `init` has every frame the boot allocator has, the regions are page-aligned: of the last one
that is not, the frame of its last byte is missing. -/
theorem aligned_of_subset (hne : ∀ r ∈ regions, r.start < r.end_)
    (hincr : regions.Pairwise fun r r' => r.end_ ≤ r'.start)
    (hsub : bootFrames regions ⊆ initFrames regions) : PageAligned regions := by
  have hsuffix : ∀ rs pre, regions = pre ++ rs → PageAligned rs := by
    intro rs
    induction rs with
    | nil => exact nofun
    | cons r rs ih =>
      intro pre heq
      have hbehind := ih (pre ++ [r]) (by rw [heq, append_assoc]; rfl)
      have hr : r ∈ regions := heq ▸ mem_append_right _ mem_cons_self
      have hlt := hne r hr
      intro r₁ hr₁ hu₁
      rcases mem_cons.mp hr₁ with rfl | hr₁
      case inr => exact hbehind r₁ hr₁ hu₁
      have hlast : (r₁.end_ - 1) / 4096 ∈ bootFrames regions := mem_flatMap.mpr ⟨r₁, hr,
        (mem_touched hlt).mpr ⟨hu₁, r₁.end_ - 1, by omega, by omega, rfl⟩⟩
      obtain ⟨r₂, hr₂, hf⟩ := mem_flatMap.mp (hsub hlast)
      obtain ⟨hu₂, hlo, hhi⟩ := mem_stepped.mp hf
      rw [heq, pairwise_append] at hincr
      obtain ⟨_, htail, hcross⟩ := hincr
      rw [heq] at hr₂
      rcases mem_append.mp hr₂ with hr₂ | hr₂
      · have hle := hcross r₂ hr₂ r₁ mem_cons_self
        omega
      rcases mem_cons.mp hr₂ with rfl | hr₂
      · omega
      · have hle := (pairwise_cons.mp htail).1 r₂ hr₂
        have haligned := (hbehind r₂ hr₂ hu₂).1
        omega
  exact hsuffix regions [] rfl

variable {m : Mem} {k : Nat} (hne : ∀ r ∈ regions, r.start < r.end_)
  (hincr : regions.Pairwise fun r r' => r.end_ ≤ r'.start)

include hincr

/-- All frames taken, or none: what that says if everything is accounted for. -/
theorem FramesAccounted.subset (hnone : FramesAccounted m regions 0)
    (hall : FramesAccounted m regions (bootFrames regions).length) :
    bootFrames regions ⊆ initFrames regions := by
  obtain ⟨frames, m', fa, free, h, _, hmem⟩ := hall
  obtain ⟨frames₀, m₀, fa₀, free₀, h₀, hfree₀, hmem₀⟩ := hnone
  obtain ⟨hframes, _⟩ := memoryInit_spec h
  obtain ⟨hframes₀, _⟩ := memoryInit_spec h₀
  rw [take_length] at hframes
  rw [take_zero] at hframes₀
  obtain ⟨free₁, hfree₁, hsub, _⟩ := memoryInit_free (nodup_initFrames hincr) h₀
  rw [hfree₁.unique hfree₀.chain] at hmem₀
  intro f hf
  have husable := (hmem f).mp (.inl (hframes ▸ hf))
  rw [hframes₀] at hmem₀
  exact mem_of_mem_drop (hsub f (((hmem₀ f).mpr husable).resolve_left not_mem_nil))

include hne

/-- With aligned regions nothing is lost, unless frame 0 is left for the free list. -/
theorem memoryInit_aligned (haligned : PageAligned regions) (hzero : 0 < k ∨ ¬ WhollyUsable regions 0)
    (h : memoryInit m regions k = some (frames, m', fa)) :
    ∃ free, FreeFrames m' fa free ∧ ∀ f, f ∈ frames ∨ f ∈ free ↔ WhollyUsable regions f := by
  have hnd := nodup_bootFrames hne (usableApart_of_aligned hincr haligned)
  obtain ⟨hframes, _⟩ := memoryInit_spec h
  have htake : frames = (bootFrames regions).take frames.length := by
    rw [hframes, length_take, ← take_eq_take_min]
  obtain ⟨free, hfree, _, hall⟩ := memoryInit_free (nodup_initFrames hincr) h
  rw [initFrames_of_aligned hne haligned] at hall
  have h0 : 0 ∉ (bootFrames regions).drop frames.length := by
    intro hmem
    have hin := mem_of_mem_drop hmem
    rcases hzero with hk | hno
    · -- The heap has taken the first frame, which is frame 0.
      obtain ⟨l, hl⟩ := bootFrames_zero hne hincr haligned hin
      have htaken : 0 ∈ frames := by
        rw [hframes, hl, take_cons hk]
        exact mem_cons_self
      rw [htake] at htaken
      exact disjoint_take_drop hnd (Nat.le_refl _) htaken hmem
    · exact hno ((mem_bootFrames_of_aligned hne haligned).mp hin)
  refine ⟨free, hfree, fun f => ?_⟩
  have hmem : f ∈ frames ↔ f ∈ (bootFrames regions).take frames.length := by rw [← htake]
  rw [← mem_bootFrames_of_aligned hne haligned, hall h0, mem_reverse, hmem, ← mem_append,
    take_append_drop]

end

theorem deallocateAll_head (r : Mem × FreeListAllocator) (l : List Nat) (f : Nat) :
    (deallocateAll r (l ++ [f])).2.head = some (frameAddr f) := by
  unfold deallocateAll
  rw [foldl_append]
  rfl

/-- **Every usable frame is accounted for**, for every number of frames that are taken first, if
and only if the Usable regions are page-aligned and frame 0 is not one of several usable frames:
the free list cannot hold it behind another one. With aligned regions it is enough that one frame
is taken. -/
theorem usable_frames (m : Mem) (regions : List MemoryRegion)
    (hr : ∀ r ∈ regions, r.start < r.end_ ∧ r.end_ + 4096 < 2 ^ 52)
    (hincr : regions.Pairwise fun r r' => r.end_ ≤ r'.start) :
    (PageAligned regions → ∀ k, 0 < k → FramesAccounted m regions k) ∧
    ((∀ k, FramesAccounted m regions k) ↔ PageAligned regions ∧
      (WhollyUsable regions 0 → ∀ f, WhollyUsable regions f → f = 0)) := by
  have hne : ∀ r ∈ regions, r.start < r.end_ := fun r hmem => (hr r hmem).1
  have hsome : ∀ k, PageAligned regions → 0 < k ∨ ¬ WhollyUsable regions 0 →
      FramesAccounted m regions k := by
    intro k haligned hzero
    obtain ⟨frames, m', fa, h⟩ := memoryInit_returns m k hr
    obtain ⟨free, hfree, hmem⟩ := memoryInit_aligned hne hincr haligned hzero h
    exact ⟨frames, m', fa, free, h, hfree, hmem⟩
  refine ⟨fun haligned k hk => hsome k haligned (.inl hk), fun hall => ?_, fun h k => ?_⟩
  · have haligned := aligned_of_subset hne hincr (FramesAccounted.subset hincr (hall 0) (hall _))
    refine ⟨haligned, fun h0 f hf => ?_⟩
    -- frame 0 comes first, so with another one it is not the head of the list
    rw [← mem_bootFrames_of_aligned hne haligned] at h0 hf
    obtain ⟨l, hl⟩ := bootFrames_zero hne hincr haligned h0
    rcases eq_nil_or_concat' l with rfl | ⟨l', g, rfl⟩
    · rw [hl] at hf
      exact mem_singleton.mp hf
    obtain ⟨frames, m', fa, free, h, hfree, hmem⟩ := hall 0
    obtain ⟨hframes, heq, _⟩ := memoryInit_spec h
    rw [take_zero] at hframes
    subst hframes
    rw [initFrames_of_aligned hne haligned, hl, length_nil, drop_zero] at heq
    have hg : g ≠ 0 := by
      rintro rfl
      have hnd := nodup_bootFrames hne (usableApart_of_aligned hincr haligned)
      rw [hl] at hnd
      exact (nodup_cons.mp hnd).1 (mem_append_right _ (mem_singleton_self _))
    have hhead : fa.head = some (frameAddr g) :=
      (congrArg (fun r => r.2.head) heq).trans (deallocateAll_head _ (0 :: l') g)
    have h0free := ((hmem 0).mpr ((mem_bootFrames_of_aligned hne haligned).mp h0)).resolve_left
      not_mem_nil
    refine absurd (mem_map_of_mem (f := frameAddr) h0free) (hfree.chain.zero_notMem ?_)
    rw [hhead]
    exact fun h => hg (frameAddr_inj (some.inj h))
  · obtain ⟨haligned, honly⟩ := h
    by_cases hzero : 0 < k ∨ ¬ WhollyUsable regions 0
    · exact hsome k haligned hzero
    -- frame 0 is the only one, and nothing is put in front of it
    obtain ⟨hk, h0⟩ := not_or.mp hzero
    obtain rfl : k = 0 := by omega
    have h0 := not_not.mp h0
    have hmem := fun f => mem_bootFrames_of_aligned hne haligned (f := f)
    obtain ⟨l, hl⟩ := bootFrames_zero hne hincr haligned ((hmem 0).mpr h0)
    have hnd := nodup_bootFrames hne (usableApart_of_aligned hincr haligned)
    obtain rfl : l = [] := eq_nil_iff_forall_not_mem.mpr fun f hf => by
      have hf0 := honly h0 f ((hmem f).mp (hl ▸ mem_cons_of_mem _ hf))
      rw [hl, ← hf0] at hnd
      exact (nodup_cons.mp hnd).1 hf
    obtain ⟨frames, m', fa, h⟩ := memoryInit_returns m 0 hr
    obtain ⟨hframes, heq, _⟩ := memoryInit_spec h
    rw [take_zero] at hframes
    subst hframes
    rw [initFrames_of_aligned hne haligned, hl] at heq
    have hfree : FreeFrames m' fa [0] := by
      rw [show m' = _ from congrArg Prod.fst heq, show fa = _ from congrArg Prod.snd heq]
      exact (FreeFrames.empty m).deallocate_front not_mem_nil (by decide) (by simp)
    refine ⟨[], m', fa, [0], h, hfree, fun f => ?_⟩
    rw [← hmem, hl]
    exact or_iff_right not_mem_nil

/-- A region of two frames: with none or one taken first, the two are all there is. -/
theorem usable_frames_two : FramesAccounted (fun _ => 0) [⟨0x1000, 0x3000, true⟩] 0 ∧
    FramesAccounted (fun _ => 0) [⟨0x1000, 0x3000, true⟩] 1 := by
  have hall := (usable_frames (fun _ => 0) [⟨0x1000, 0x3000, true⟩] (by decide)
    (pairwise_singleton ..)).2.mpr ⟨by unfold PageAligned; decide, fun h0 => ?_⟩
  · exact ⟨hall 0, hall 1⟩
  · obtain ⟨r, hr, _, hlo, _⟩ := h0 0 rfl
    obtain rfl := mem_singleton.mp hr
    cases hlo

/-- Of the regions `[0x1800, 0x2800)` and `[0x4000, 0x6000)` the heap takes the frames 1 and
2, of which neither is wholly usable; `init` counts one frame less in the first region, skips
frame 4 for it, and frame 4 is lost. -/
theorem unaligned_regions :
    (∀ r ∈ oddRegions, r.start < r.end_) ∧
    (oddRegions.Pairwise fun r r' => r.end_ ≤ r'.start) ∧
    ∃ m' fa free, memoryInit (fun _ => 0) oddRegions 2 = some ([1, 2], m', fa) ∧
      FreeFrames m' fa free ∧ ¬ WhollyUsable oddRegions 1 ∧
      WhollyUsable oddRegions 4 ∧ 4 ∉ [1, 2] ∧ 4 ∉ free := by
  have hrun : (memoryInit (fun _ => 0) oddRegions 2).map Prod.fst = some [1, 2] := by decide
  obtain ⟨⟨frames, m', fa⟩, h, rfl⟩ := map_inv hrun
  obtain ⟨free, hfree, hsub, _⟩ := memoryInit_free (nodup_initFrames (by decide)) h
  refine ⟨by decide, by decide, m', fa, free, h, hfree, fun h1 => ?_, fun x hx => ?_, by decide,
    fun hmem => ?_⟩
  · obtain ⟨r, hr, _, hlo, hhi⟩ := h1 0x1000 rfl
    revert r
    decide
  · refine ⟨⟨0x4000, 0x6000, true⟩, by decide, rfl, ?_⟩
    dsimp only
    omega
  · exact absurd (hsub 4 hmem) (by decide)

end AlaphiOS.Memory
