import AlaphiOS.Io.Disk
import AlaphiOS.Memory.FreeList

/-!
# The swap partition

`SwapPartition` of `kernel/src/memory/swap.rs`: a RAM disk cut into page slots
of eight sectors, a flag per slot and a cursor that rotates over the slots.

Mirroring notes:
- The `for i in 0..SECTORS_PER_PAGE` loops are recursions on the number of
  sectors done so far: the case `n + 1` first does the sectors below `n`.
- `swap_out` gives up with `None` when a sector cannot be written, keeping the
  slot; `swap_in` panics (`none`) when one cannot be read.

The spec of the two transfers is `swapOut_spec` and `swapIn_spec`: a slot holds
the frame's 4096 bytes, and a frame gets the slot's 4096 bytes back.
-/

namespace AlaphiOS.Memory

open Lib Io List Option

/-- `SECTOR_SIZE`. -/
def swapSectorSize : Nat := 512

/-- `SECTORS_PER_PAGE`. -/
def sectorsPerPage : Nat := 8

/-- `SwapPartition`. -/
structure SwapPartition where
  disk : RamDisk
  free : List Bool
  cursor : Nat

namespace SwapPartition

/-- `SwapPartition::new`. -/
def new (pages : Nat) : SwapPartition where
  disk := RamDisk.new (pages * sectorsPerPage) swapSectorSize
  free := replicate pages true
  cursor := 0

/-- `alloc_slot`: the first free slot at or after the cursor, cyclically. -/
def allocSlot (s : SwapPartition) : Option (Nat × SwapPartition) :=
  let n := s.free.length
  match (range n).find? fun i => s.free.getD ((s.cursor + i) % n) false with
  | some i =>
    let idx := (s.cursor + i) % n
    some (idx, { s with free := s.free.set idx false, cursor := (idx + 1) % n })
  | none => none

/-- Sector `n` of a frame. -/
def frameSector (m : Mem) (frame n : Nat) : List UInt8 :=
  (range swapSectorSize).map fun k => m (frameAddr frame + n * swapSectorSize + k)

/-- The loop of `swap_out`; `false` when a sector was refused. -/
def writeSectors (m : Mem) (frame slot : Nat) : Nat → RamDisk → Option (Bool × RamDisk)
  | 0, d => some (true, d)
  | n + 1, d => do
    match ← writeSectors m frame slot n d with
    | (false, d) => some (false, d)
    | (true, d) =>
      match ← d.writeSector (slot * sectorsPerPage + n) (frameSector m frame n) with
      | .ok d' => some (true, d')
      | .error _ => some (false, d)

/-- `swap_out`. -/
def swapOut (m : Mem) (s : SwapPartition) (frame : Nat) : Option (Option Nat × SwapPartition) :=
  match s.allocSlot with
  | none => some (none, s)
  | some (slot, s) => do
    match ← writeSectors m frame slot sectorsPerPage s.disk with
    | (true, d) => some (some slot, { s with disk := d })
    | (false, d) => some (none, { s with disk := d })

/-- The loop of `swap_in`. -/
def readSectors (d : RamDisk) (frame slot : Nat) : Nat → Mem → Option Mem
  | 0, m => some m
  | n + 1, m => do
    let m ← readSectors d frame slot n m
    match ← d.readSector (slot * sectorsPerPage + n) with
    | .ok buf => some (blit m (frameAddr frame + n * swapSectorSize) swapSectorSize fun k => buf.getD k 0)
    | .error _ => none

/-- `free_slot`. -/
def freeSlot (s : SwapPartition) (slot : Nat) : SwapPartition :=
  { s with free := s.free.set slot true }

/-- `swap_in`. -/
def swapIn (m : Mem) (s : SwapPartition) (slot frame : Nat) : Option (Mem × SwapPartition) := do
  let m ← readSectors s.disk frame slot sectorsPerPage m
  some (m, s.freeSlot slot)

/-- Byte `k` of a slot. -/
def slotByte (s : SwapPartition) (slot k : Nat) : UInt8 := s.disk.data (slot * 4096 + k)

/-- Whatever the disk holds, `swap_in` writes into the frame only. -/
theorem readSectors_other {d : RamDisk} {frame slot x : Nat}
    (hx : x < frameAddr frame ∨ frameAddr frame + 4096 ≤ x) (n : Nat) {m m' : Mem}
    (hn : n ≤ sectorsPerPage) (h : readSectors d frame slot n m = some m') : m' x = m x := by
  induction n generalizing m m' with
  | zero => rw [← some.inj h]
  | succ n ih =>
    obtain ⟨m₁, h₁, h⟩ := bind_inv h
    obtain ⟨r, _, h⟩ := bind_inv h
    cases r with
    | error _ => cases h
    | ok buf =>
      rw [← some.inj h, blit_out, ih (by omega) h₁]
      unfold swapSectorSize sectorsPerPage at *
      omega

theorem swapIn_other {m m' : Mem} {s s' : SwapPartition} {slot frame x : Nat}
    (h : swapIn m s slot frame = some (m', s'))
    (hx : x < frameAddr frame ∨ frameAddr frame + 4096 ≤ x) : m' x = m x := by
  obtain ⟨m₁, h₁, h⟩ := bind_inv h
  injection some.inj h with hm _
  rw [← hm]
  exact readSectors_other hx sectorsPerPage (Nat.le_refl _) h₁

/-! ## A well-formed partition -/

/-- A partition of `pages` slots with its checksums in step. -/
structure Ok (s : SwapPartition) (pages : Nat) : Prop where
  disk : InStep s.disk (pages * sectorsPerPage)
  sectorSize : s.disk.sectorSize = swapSectorSize
  slots : s.free.length = pages

theorem sectors_eq : sectorsPerPage * swapSectorSize = 4096 := rfl

theorem new_ok {pages : Nat} (h : pages * 4096 < 2 ^ 64) : (new pages).Ok pages where
  disk := by
    have hbytes : pages * sectorsPerPage * swapSectorSize < 2 ^ 64 := by
      rw [Nat.mul_assoc, sectors_eq]
      exact h
    exact new_inStep hbytes
  sectorSize := rfl
  slots := length_replicate

variable {s s' : SwapPartition} {pages slot frame : Nat} {m : Mem}

/-- Counting `n` steps on from any cursor, modulo `n`, meets every index. -/
theorem rotation_hits (cursor : Nat) {i n : Nat} (hi : i < n) :
    ∃ j, j < n ∧ (cursor + j) % n = i := by
  have hlt := Nat.mod_lt cursor (Nat.zero_lt_of_lt hi)
  rcases Nat.lt_or_ge i (cursor % n) with hlo | hge
  · refine ⟨i + n - cursor % n, by omega, ?_⟩
    calc (cursor + (i + n - cursor % n)) % n
        = (cursor % n + (i + n - cursor % n)) % n := by rw [Nat.mod_add_mod]
      _ = (i + n) % n := by rw [show cursor % n + (i + n - cursor % n) = i + n by omega]
      _ = i := by rw [Nat.add_mod_right, Nat.mod_eq_of_lt hi]
  · refine ⟨i - cursor % n, by omega, ?_⟩
    calc (cursor + (i - cursor % n)) % n
        = (cursor % n + (i - cursor % n)) % n := by rw [Nat.mod_add_mod]
      _ = i := by rw [show cursor % n + (i - cursor % n) = i by omega, Nat.mod_eq_of_lt hi]

/-- What `alloc_slot` can do: a slot that was free is taken, or all are taken. -/
theorem allocSlot_cases (s : SwapPartition) :
    (s.allocSlot = none ∧ ∀ i < s.free.length, s.free.getD i false = false) ∨
    (∃ slot cursor, slot < s.free.length ∧ s.free.getD slot false = true ∧
      s.allocSlot = some (slot, { s with free := s.free.set slot false, cursor := cursor })) := by
  unfold allocSlot
  dsimp only
  generalize hfind : (range s.free.length).find?
    (fun i => s.free.getD ((s.cursor + i) % s.free.length) false) = r
  cases r with
  | none =>
    left
    refine ⟨rfl, fun i hi => ?_⟩
    have hnone := find?_eq_none.mp hfind
    obtain ⟨j, hj, hji⟩ := rotation_hits s.cursor hi
    have := hnone j (mem_range.mpr hj)
    rw [hji] at this
    exact Bool.not_eq_true _ ▸ this
  | some i =>
    right
    have hfree := find?_some hfind
    have hi := mem_range.mp (mem_of_find?_eq_some hfind)
    exact ⟨(s.cursor + i) % s.free.length, ((s.cursor + i) % s.free.length + 1) % s.free.length,
      Nat.mod_lt _ (by omega), hfree, rfl⟩

/-- Byte `k` of a slot lies in sector `k / 512` of the slot's eight. -/
theorem sector_lt {n : Nat} (hs : slot < pages) (hn : n < sectorsPerPage) :
    slot * sectorsPerPage + n < pages * sectorsPerPage := by
  unfold sectorsPerPage at *
  omega

/-- After `n` sectors the slot's first `512 n` bytes are the frame's, and no
other byte of the disk has changed. -/
theorem writeSectors_spec (hs : slot < pages) : ∀ (n : Nat), n ≤ sectorsPerPage →
    ∀ {d : RamDisk}, InStep d (pages * sectorsPerPage) → d.sectorSize = swapSectorSize →
    ∃ d', writeSectors m frame slot n d = some (true, d') ∧
      InStep d' (pages * sectorsPerPage) ∧ d'.sectorSize = swapSectorSize ∧
      d'.data = blit d.data (slot * 4096) (n * swapSectorSize)
        (fun k => m (frameAddr frame + k)) := by
  intro n
  -- One more sector behind the `n` that are written.
  induction n with
  | zero =>
    intro _ d hd hsz
    refine ⟨d, rfl, hd, hsz, ?_⟩
    funext x
    exact (blit_out (by omega)).symm
  | succ n ih =>
    intro hn d hd hsz
    obtain ⟨d₁, hrun, hd₁, hsz₁, hdata⟩ := ih (by omega) hd hsz
    obtain ⟨d₂, hw, hd₂, hsz₂, _, hdata₂⟩ := writeSector_inStep hd₁
      (sector_lt hs (show n < sectorsPerPage by omega))
      (show (frameSector m frame n).length = d₁.sectorSize by simp [frameSector, hsz₁])
    refine ⟨d₂, ?_, hd₂, hsz₂.trans hsz₁, ?_⟩
    · rw [writeSectors, hrun]
      simp only [bind_eq_bind, bind_some, hw]
    · rw [hdata₂, hdata, hsz₁]
      funext x
      unfold swapSectorSize sectorsPerPage at *
      -- An address is in the new sector, in one before it, or outside.
      by_cases hnew : (slot * 8 + n) * 512 ≤ x ∧ x < (slot * 8 + n) * 512 + 512
      · rw [blit_in hnew.1 hnew.2, blit_in (by omega) (by omega)]
        have hk : x - (slot * 8 + n) * 512 < 512 := by omega
        simp only [frameSector, swapSectorSize, getD_eq_getElem?_getD, getElem?_map,
          getElem?_range hk, map_some, getD_some]
        exact congrArg m (by omega)
      · rw [blit_out (by omega)]
        by_cases hold : slot * 4096 ≤ x ∧ x < slot * 4096 + n * 512
        · rw [blit_in hold.1 hold.2, blit_in (by omega) (by omega)]
        · rw [blit_out (by omega), blit_out (by omega)]

/-- `swap_out` either finds no slot and changes nothing, or stores the frame in
a slot that was free. -/
theorem swapOut_spec (m : Mem) (frame : Nat) (h : s.Ok pages) :
    (true ∉ s.free ∧ swapOut m s frame = some (none, s)) ∨
    (∃ slot s', swapOut m s frame = some (some slot, s') ∧ slot < pages ∧
      s.free.getD slot false = true ∧ s'.free = s.free.set slot false ∧ s'.Ok pages ∧
      s'.disk.data = blit s.disk.data (slot * 4096) 4096 (fun k => m (frameAddr frame + k))) := by
  rcases allocSlot_cases s with ⟨hnone, htaken⟩ | ⟨slot, cursor, hlt, hfree, hsome⟩
  · left
    refine ⟨fun hmem => ?_, by rw [swapOut, hnone]⟩
    obtain ⟨i, hi, hget⟩ := mem_iff_getElem.mp hmem
    have hfalse := htaken i hi
    rw [getD_eq_getElem?_getD, getElem?_eq_getElem hi, hget] at hfalse
    exact nomatch hfalse
  · right
    have hs : slot < pages := by rw [← h.slots]; exact hlt
    obtain ⟨d, hrun, hd, hsz, hdata⟩ := writeSectors_spec (m := m) hs sectorsPerPage
      (Nat.le_refl _) h.disk h.sectorSize
    refine ⟨slot, { disk := d, free := s.free.set slot false, cursor := cursor }, ?_, hs, hfree,
      rfl, ⟨hd, hsz, ?_⟩, hdata⟩
    · rw [swapOut, hsome]
      simp only [hrun, bind_eq_bind, bind_some]
    · rw [length_set]
      exact h.slots

theorem readSectors_spec (h : s.Ok pages) (hs : slot < pages) (n : Nat) (hn : n ≤ sectorsPerPage) :
    readSectors s.disk frame slot n m = some (blit m (frameAddr frame) (n * swapSectorSize)
      (fun k => s.slotByte slot k)) := by
  induction n with
  | zero =>
    rw [readSectors]
    congr 1
    funext x
    exact (blit_out (by omega)).symm
  | succ n ih =>
    have hread := readSector_inStep h.disk (sector_lt hs (show n < sectorsPerPage by omega))
    rw [readSectors, ih (by omega)]
    simp only [hread, bind_eq_bind, bind_some]
    congr 1
    funext x
    have hsz := h.sectorSize
    unfold swapSectorSize sectorsPerPage at *
    -- An address is in the new sector, in one before it, or outside.
    by_cases hnew : frameAddr frame + n * 512 ≤ x ∧ x < frameAddr frame + n * 512 + 512
    · rw [blit_in hnew.1 hnew.2, blit_in (by omega) (by omega)]
      have hk : x - (frameAddr frame + n * 512) < 512 := by omega
      simp only [RamDisk.sector, slotByte, hsz, getD_eq_getElem?_getD, getElem?_map,
        getElem?_range hk, map_some, getD_some]
      exact congrArg s.disk.data (by omega)
    · rw [blit_out (by omega)]
      by_cases hold : frameAddr frame ≤ x ∧ x < frameAddr frame + n * 512
      · rw [blit_in hold.1 hold.2, blit_in (by omega) (by omega)]
      · rw [blit_out (by omega), blit_out (by omega)]

/-- `swap_in` fills the frame with the slot's bytes and frees the slot. -/
theorem swapIn_spec (h : s.Ok pages) (hs : slot < pages) :
    swapIn m s slot frame
      = some (blit m (frameAddr frame) 4096 (fun k => s.slotByte slot k), s.freeSlot slot) := by
  rw [swapIn, readSectors_spec h hs sectorsPerPage (Nat.le_refl _), sectors_eq,
    bind_eq_bind, bind_some]

theorem freeSlot_ok (h : s.Ok pages) : (s.freeSlot slot).Ok pages where
  disk := h.disk
  sectorSize := h.sectorSize
  slots := by rw [freeSlot, length_set]; exact h.slots

end SwapPartition

end AlaphiOS.Memory
