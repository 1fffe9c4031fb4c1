import AlaphiOS.Lib.Bytes
import AlaphiOS.Lib.Checked
import AlaphiOS.Lib.Run

/-!
# The RAM disk and its checksums

`kernel/src/io/crc.rs` and the `DiskDevice` half of `kernel/src/io/disk.rs`. A
`RamDisk` is a region of kernel memory of its own (mapped once, never freed)
and one CRC-32 per sector, written with the sector and compared on every read.

Mirroring notes:
- `data` is indexed from the start of the region, `base` itself is left out of the
  disk. `new` is the disk `RamDisk::new` returns, `create` says when it does; the
  frames it maps are not modelled.
- A result is `none` for a panic: an overflowing product or sum, or an index
  outside `crcs`. `DiskError`s are values.
- `copy_nonoverlapping` moves `sector_size` bytes whatever the length of the
  buffer; the callers pass buffers of that length, here lists.

`InStep d` says that every stored checksum is that of the sector's bytes. Under
it a read of an existing sector succeeds and returns the bytes
(`readSector_inStep`), and a write of a sector-sized buffer keeps it and
changes that sector only (`writeSector_inStep`).
-/

namespace AlaphiOS.Io

open Lib List Option

/-! ## CRC-32 -/

/-- `CRC32_POLY`. -/
def crc32Poly : UInt32 := 0xEDB88320

/-- The body of `build_table`'s inner loop. -/
def tableStep (crc : UInt32) : UInt32 :=
  if crc &&& 1 ≠ 0 then (crc >>> 1) ^^^ crc32Poly else crc >>> 1

/-- `build_table`. -/
def crcTable : List UInt32 := (range 256).map fun i => Nat.repeat tableStep 8 (UInt32.ofNat i)

/-- `crc32`. -/
def crc32 (data : List UInt8) : UInt32 :=
  ~~~ data.foldl (fun crc b => (crc >>> 8) ^^^ crcTable.getD ((crc ^^^ b.toUInt32) &&& 0xFF).toNat 0)
    (~~~ 0)

-- the check value of the polynomial, the checksum of "123456789"
example : crc32 [0x31, 0x32, 0x33, 0x34, 0x35, 0x36, 0x37, 0x38, 0x39] = 0xCBF43926 := by
  decide +kernel

/-! ## `RamDisk` -/

/-- `DiskError`. -/
inductive DiskError where
  | outOfBounds
  | ioError
  | crcMismatch
  deriving DecidableEq

/-- `RamDisk`, with the CRC of every sector. -/
structure RamDisk where
  data : Mem
  byteLen : Nat
  sectorSize : Nat
  crcs : List UInt32

open RamDisk

namespace RamDisk

/-- `RamDisk::new`: all zeros, and the checksums to match. -/
def new (sectorCount sectorSize : Nat) : RamDisk where
  data := fun _ => 0
  byteLen := sectorCount * sectorSize
  sectorSize := sectorSize
  crcs := replicate sectorCount (crc32 (replicate sectorSize 0))

/-- `RAMDISK_VIRT_REGION_BASE`. -/
def virtRegionBase : Nat := 0xFFFF_D000_0000_0000

/-- `claim_virt_range`: the base of the range, and the cursor after it, which
`fetch_add` lets wrap. -/
def claimVirtRange (cursor byteLen : Nat) : Option (Nat × Nat) := do
  let pageAlignedLen ← usizeMul ((byteLen + 4095) / 4096) 4096
  some (cursor, (cursor + pageAlignedLen) % 2 ^ 64)

/-- `RamDisk::new` with `RAMDISK_VIRT_CURSOR` at `cursor`, as far as it can stop: the
last byte of the region has an address. -/
def create (cursor sectorCount sectorSize : Nat) : Option (RamDisk × Nat) := do
  let byteLen ← usizeMul sectorCount sectorSize
  let (base, cursor) ← claimVirtRange cursor byteLen
  let last ← usizeSub byteLen 1
  let _ ← usizeAdd base last
  some (new sectorCount sectorSize, cursor)

/-- The bytes of sector `lba`. -/
def sector (d : RamDisk) (lba : Nat) : List UInt8 :=
  (range d.sectorSize).map fun k => d.data (lba * d.sectorSize + k)

/-- `read_sector`: the bytes copied out, or the error. -/
def readSector (d : RamDisk) (lba : Nat) : Option (Except DiskError (List UInt8)) := do
  let start ← usizeMul lba d.sectorSize
  let top ← usizeAdd start d.sectorSize
  if top > d.byteLen then some (.error .outOfBounds)
  else
    let crc ← d.crcs[lba]?
    if crc32 (d.sector lba) ≠ crc then some (.error .crcMismatch) else some (.ok (d.sector lba))

/-- `write_sector`. -/
def writeSector (d : RamDisk) (lba : Nat) (buf : List UInt8) :
    Option (Except DiskError RamDisk) := do
  let start ← usizeMul lba d.sectorSize
  let top ← usizeAdd start d.sectorSize
  if top > d.byteLen then some (.error .outOfBounds)
  else if lba < d.crcs.length then
    some (.ok { d with
      crcs := d.crcs.set lba (crc32 buf)
      data := blit d.data start d.sectorSize fun k => buf.getD k 0 })
  else none

end RamDisk

/-! ## Checksums in step with the data -/

/-- A disk of `count` sectors whose checksums are those of its sectors. -/
structure InStep (d : RamDisk) (count : Nat) : Prop where
  size : d.byteLen = count * d.sectorSize
  fits : d.byteLen < 2 ^ 64
  len : d.crcs.length = count
  crc : ∀ lba, lba < count → d.crcs[lba]? = some (crc32 (d.sector lba))

variable {d : RamDisk} {count lba : Nat}

theorem new_inStep {sectorSize : Nat} (h : count * sectorSize < 2 ^ 64) :
    InStep (new count sectorSize) count where
  size := rfl
  fits := h
  len := length_replicate
  crc := fun lba hl => by
    have hz : (new count sectorSize).sector lba = replicate sectorSize 0 := by
      unfold sector new
      rw [map_const', length_range]
    rw [hz]
    exact getElem?_replicate_of_lt hl

variable {cursor cursor' size : Nat} {d' : RamDisk} {buf : List UInt8}

/-- A disk that was created has bytes, and the last of them has an address. -/
theorem create_inv (h : create cursor count size = some (d, cursor')) :
    d = new count size ∧ 0 < count * size ∧ count * size < 2 ^ 64 ∧
      cursor + (count * size - 1) < 2 ^ 64 := by
  unfold create at h
  obtain ⟨byteLen, hmul, h⟩ := bind_inv h
  obtain ⟨⟨base, cursor₁⟩, hclaim, h⟩ := bind_inv h
  obtain ⟨last, hlast, h⟩ := bind_inv h
  obtain ⟨top, htop, hd⟩ := bind_inv h
  obtain ⟨len, _, hbase⟩ := bind_inv hclaim
  cases hbase
  cases hd
  obtain ⟨rfl, hfits⟩ := usizeMul_eq hmul
  obtain ⟨rfl, hpos⟩ := usizeSub_eq hlast
  exact ⟨rfl, hpos, hfits, (usizeAdd_eq htop).2⟩

/-- In the region of the disks these are far fewer than `2 ^ 63`. -/
theorem create_eq (hcursor : virtRegionBase ≤ cursor)
    (h : create cursor count size = some (d, cursor')) :
    d = new count size ∧ 0 < count * size ∧ count * size < 2 ^ 63 := by
  obtain ⟨rfl, hpos, _, htop⟩ := create_inv h
  unfold virtRegionBase at hcursor
  refine ⟨rfl, hpos, ?_⟩
  omega

/-- Sector `lba` ends inside the disk. -/
theorem InStep.top_le (h : InStep d count) (hl : lba < count) :
    lba * d.sectorSize + d.sectorSize ≤ d.byteLen := by
  have := Nat.mul_le_mul_right d.sectorSize (Nat.succ_le_of_lt hl)
  rw [Nat.succ_mul] at this
  rw [h.size]
  exact this

/-- An existing sector is read without an error. -/
theorem readSector_inStep (h : InStep d count)
    (hl : lba < count) : d.readSector lba = some (.ok (d.sector lba)) := by
  have htop := h.top_le hl
  have hfits := h.fits
  rw [readSector, usizeMul_of_lt (by omega), bind_eq_bind, bind_some,
    usizeAdd_of_lt (by omega), bind_some, if_neg (by omega), h.crc lba hl,
    bind_eq_bind, bind_some, if_neg (by simp)]

theorem sector_eq_of_data (hs : d'.sectorSize = d.sectorSize) (h : ∀ k, k < d.sectorSize →
      d'.data (lba * d.sectorSize + k) = d.data (lba * d.sectorSize + k)) :
    d'.sector lba = d.sector lba := by
  unfold sector
  rw [hs]
  exact map_congr_left (fun k hk => h k (mem_range.mp hk))

/-- A write that succeeds is to an existing sector. -/
theorem writeSector_lt (h : d.writeSector lba buf = some (.ok d')) : lba < d.crcs.length := by
  unfold writeSector at h
  obtain ⟨start, _, h⟩ := bind_inv h
  obtain ⟨top, _, h⟩ := bind_inv h
  split at h
  · cases h
  · split at h
    next hlt => exact hlt
    · cases h

/-- A sector-sized write succeeds, stores the buffer in its sector and keeps
every other byte and the checksums in step. -/
theorem writeSector_inStep
    (h : InStep d count) (hl : lba < count) (hbuf : buf.length = d.sectorSize) :
    ∃ d', d.writeSector lba buf = some (.ok d') ∧ InStep d' count ∧
      d'.sectorSize = d.sectorSize ∧ d'.byteLen = d.byteLen ∧
      d'.data = blit d.data (lba * d.sectorSize) d.sectorSize (fun k => buf.getD k 0) := by
  have htop := h.top_le hl
  have hfits := h.fits
  refine ⟨{ d with
      crcs := d.crcs.set lba (crc32 buf)
      data := blit d.data (lba * d.sectorSize) d.sectorSize fun k => buf.getD k 0 },
    ?_, ⟨h.size, h.fits, ?_, ?_⟩, rfl, rfl, rfl⟩
  · rw [writeSector, usizeMul_of_lt (by omega), bind_eq_bind, bind_some,
      usizeAdd_of_lt (by omega), bind_some, if_neg (by omega), if_pos (by rw [h.len]; exact hl)]
  · rw [length_set]
    exact h.len
  · intro lba' hl'
    by_cases he : lba' = lba
    · -- the written sector is the buffer
      subst he
      rw [getElem?_set_self (by rw [h.len]; exact hl)]
      congr 2
      refine ext_getElem ?_ (fun k h₁ h₂ => ?_)
      · simp [sector, hbuf]
      · have hk : k < d.sectorSize := by rw [← hbuf]; exact h₁
        simp only [sector, getElem_map, getElem_range]
        rw [blit_at hk, getD_eq_getElem?_getD, getElem?_eq_getElem h₁, getD_some]
    · rw [getElem?_set_ne (fun h' => he h'.symm), h.crc lba' hl']
      congr 2
      symm
      refine sector_eq_of_data ?_ (fun k hk => ?_)
      · rfl
      dsimp only
      apply blit_out
      -- distinct sectors do not overlap
      rcases Nat.lt_or_gt_of_ne he with hlt | hgt
      · have := Nat.mul_le_mul_right d.sectorSize (Nat.succ_le_of_lt hlt)
        rw [Nat.succ_mul] at this
        omega
      · have := Nat.mul_le_mul_right d.sectorSize (Nat.succ_le_of_lt hgt)
        rw [Nat.succ_mul] at this
        omega

end AlaphiOS.Io
