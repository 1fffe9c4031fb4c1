import AlaphiOS.Io.Disk
import AlaphiOS.Lib.Run
import AlaphiOS.Lib.Slices

/-!
# The byte cursor over a disk

`DiskIo` of `kernel/src/fs/fat.rs`: the cursor through which the FAT library reads
and writes a `DiskDevice`. A transfer is cut at the sector boundaries. A read
copies its part out of each sector; a write stores whole sectors straight from
the caller's buffer and reads, changes and writes back the others.

None of that shows: over a RAM disk the cursor is a plain array of bytes with a
position. `Flat` is that array, and `diskIo_refines_flat` says that every run of
calls it accepts gives the same replies, position and bytes on the disk.

Mirroring notes:
- `none` is a panic (a sector size of zero, an overflow). `FatIoError` carries
  nothing, so an error is `Except FatIoError`, with the cursor as it is then.
- The loops are bounded by the length of the transfer; every round moves at least
  one byte (`readLoop_inStep`, `writeLoop_inStep`).
- What a failed `read` leaves in the caller's buffer is left out.
- `flush` does nothing.
-/

namespace AlaphiOS.Io

open Lib List Option

/-- `DiskDevice`. `readSector` also returns the buffer it was given. -/
class DiskDevice (D : Type) where
  sectorSize : D → Nat
  sectorCount : D → Option Nat
  readSector : D → Nat → List UInt8 → Option (Except DiskError Unit × D × List UInt8)
  writeSector : D → Nat → List UInt8 → Option (Except DiskError Unit × D)

open DiskDevice

/-- `read_sector` compares the checksum after it has filled the buffer. -/
instance : DiskDevice RamDisk where
  sectorSize := RamDisk.sectorSize
  sectorCount d := if d.sectorSize = 0 then none else some (d.byteLen / d.sectorSize)
  readSector d lba buf := (d.readSector lba).map fun
    | .ok bytes => (.ok (), d, bytes)
    | .error .crcMismatch => (.error .crcMismatch, d, d.sector lba)
    | .error e => (.error e, d, buf)
  writeSector d lba buf := (d.writeSector lba buf).map fun
    | .ok d' => (.ok (), d')
    | .error e => (.error e, d)

/-- `DiskIo`, on any device. -/
structure DiskIo (D : Type) where
  dev : D
  pos : Nat
  sectorBuf : List UInt8

inductive FatIoError where
  | fatIoError
  deriving DecidableEq

/-- `SeekFrom`. -/
inductive SeekFrom where
  | start (n : UInt64)
  | fromEnd (n : Int64)
  | current (n : Int64)

namespace DiskIo

variable {D : Type} [DiskDevice D]

def new (dev : D) : DiskIo D where
  dev := dev
  pos := 0
  sectorBuf := replicate (sectorSize dev) 0

/-- The part of `left` bytes that is in the sector of the position. -/
def toCopy (io : DiskIo D) (left : Nat) : Nat :=
  min (sectorSize io.dev - io.pos % sectorSize io.dev) left

/-- The loop of `read`, with `left` bytes to go. -/
def readLoop : Nat → DiskIo D → Nat → Option (Except FatIoError (List UInt8) × DiskIo D)
  | _, io, 0 => some (.ok [], io)
  | 0, _, _ + 1 => none
  | fuel + 1, io, left + 1 =>
    let sectorSize := sectorSize io.dev
    -- `pos / sector_size` panics
    if sectorSize = 0 then none
    else
      (readSector io.dev (io.pos / sectorSize) io.sectorBuf).bind fun
        | (.error _, dev, buf) => some (.error .fatIoError, ⟨dev, io.pos, buf⟩)
        | (.ok (), dev, buf) =>
          let n := io.toCopy (left + 1)
          (usizeAdd io.pos n).bind fun pos =>
            (readLoop fuel ⟨dev, pos, buf⟩ (left + 1 - n)).map fun (res, io') =>
              (res.map (((buf.drop (io.pos % sectorSize)).take n) ++ ·), io')

/-- `read`. -/
def read (io : DiskIo D) (len : Nat) : Option (Except FatIoError (List UInt8) × DiskIo D) :=
  readLoop len io len

/-- Store a part of sector `lba`: from the caller's buffer if it is the whole
sector, else through `sector_buf`. -/
def store (io : DiskIo D) (lba offset : Nat) (chunk : List UInt8) :
    Option (Except DiskError Unit × D × List UInt8) :=
  if offset = 0 ∧ chunk.length = sectorSize io.dev then
    (writeSector io.dev lba chunk).map fun (res, dev) => (res, dev, io.sectorBuf)
  else
    -- what surrounds the part has to be read first, as sectors are written whole
    (readSector io.dev lba io.sectorBuf).bind fun
      | (.error e, dev, buf) => some (.error e, dev, buf)
      | (.ok (), dev, buf) =>
        let buf := splice buf offset chunk
        (writeSector dev lba buf).map fun (res, dev) => (res, dev, buf)

/-- The loop of `write`, with the rest of the buffer: the number of bytes written. -/
def writeLoop : Nat → DiskIo D → List UInt8 → Option (Except FatIoError Nat × DiskIo D)
  | _, io, [] => some (.ok 0, io)
  | 0, _, _ :: _ => none
  | fuel + 1, io, b :: bs =>
    let sectorSize := sectorSize io.dev
    let n := io.toCopy (b :: bs).length
    if sectorSize = 0 then none
    else
      (io.store (io.pos / sectorSize) (io.pos % sectorSize) ((b :: bs).take n)).bind fun
        | (.error _, dev, buf) => some (.error .fatIoError, ⟨dev, io.pos, buf⟩)
        | (.ok (), dev, buf) =>
          (usizeAdd io.pos n).bind fun pos =>
            (writeLoop fuel ⟨dev, pos, buf⟩ ((b :: bs).drop n)).map fun (res, io') =>
              (res.map (n + ·), io')

/-- `write`. -/
def write (io : DiskIo D) (buf : List UInt8) : Option (Except FatIoError Nat × DiskIo D) :=
  writeLoop buf.length io buf

/-- The new position, computed in `i64` for the signed offsets. -/
def seekTarget (total pos : Nat) : SeekFrom → Option Nat
  | .start n => some n.toNat
  | .fromEnd n => (i64Add (asI64 total) n.toInt).map asU64
  | .current n => (i64Add (asI64 pos) n.toInt).map asU64

/-- `seek`. -/
def seek (io : DiskIo D) (whence : SeekFrom) : Option (Nat × DiskIo D) := do
  let total ← usizeMul (← sectorCount io.dev) (sectorSize io.dev)
  let pos ← seekTarget total io.pos whence
  some (pos, { io with pos := pos })

end DiskIo

/-! ## Calls and replies -/

namespace DiskIo

/-- A call of `fatfs` on its disk. -/
inductive Call where
  | seek (whence : SeekFrom)
  | read (len : Nat)
  | write (buf : List UInt8)

/-- What it returns. -/
inductive Reply where
  | pos (n : Nat)
  | bytes (bs : List UInt8)
  | wrote (n : Nat)
  deriving DecidableEq

/-- Make the call. -/
def call {D : Type} [DiskDevice D] (io : DiskIo D) :
    Call → Option (Except FatIoError Reply × DiskIo D)
  | .seek whence => (io.seek whence).map fun (n, io') => (.ok (.pos n), io')
  | .read len => (io.read len).map fun (res, io') => (res.map .bytes, io')
  | .write buf => (io.write buf).map fun (res, io') => (res.map .wrote, io')

end DiskIo

/-! ## The flat array

`none` is a call outside the array: a transfer that is not of bytes of the array, or
a position that no signed offset reaches. -/

/-- Bytes and a position. -/
structure Flat where
  bytes : List UInt8
  pos : Nat
  deriving DecidableEq

namespace Flat

open DiskIo (Call Reply)

def zeros (size : Nat) : Flat := ⟨replicate size 0, 0⟩

/-- The position a seek asks for. -/
def target (f : Flat) : SeekFrom → Int
  | .start n => n.toNat
  | .fromEnd n => f.bytes.length + n.toInt
  | .current n => f.pos + n.toInt

/-- The same call on a flat file. -/
def call (f : Flat) : Call → Option (Reply × Flat)
  | .seek whence =>
    if 0 ≤ f.target whence ∧ f.target whence < 2 ^ 63 then
      some (.pos (f.target whence).toNat, { f with pos := (f.target whence).toNat })
    else none
  | .read len =>
    if len = 0 ∨ f.pos + len ≤ f.bytes.length then
      some (.bytes ((f.bytes.drop f.pos).take len), { f with pos := f.pos + len })
    else none
  | .write buf =>
    if buf = [] then some (.wrote 0, f)
    else if f.pos + buf.length ≤ f.bytes.length then
      some (.wrote buf.length, ⟨splice f.bytes f.pos buf, f.pos + buf.length⟩)
    else none

end Flat

/-! ## Over a disk with its checksums in step -/

namespace DiskIo

variable {io : DiskIo RamDisk} {count : Nat}

theorem device_sectorSize (d : RamDisk) : sectorSize d = d.sectorSize := rfl

/-- A position on the disk is in one of its sectors. -/
theorem lba_lt (h : InStep io.dev count) (hss : 0 < io.dev.sectorSize)
    (hpos : io.pos < io.dev.byteLen) : io.pos / io.dev.sectorSize < count := by
  rw [Nat.div_lt_iff_lt_mul hss, ← h.size]
  exact hpos

/-- What one round moves: some bytes, no more than are left, all in one sector. -/
theorem toCopy_bounds (io : DiskIo RamDisk) (hss : 0 < io.dev.sectorSize) {left : Nat}
    (hleft : 0 < left) :
    0 < io.toCopy left ∧ io.toCopy left ≤ left ∧
      io.pos % io.dev.sectorSize + io.toCopy left ≤ io.dev.sectorSize := by
  have hlt := Nat.mod_lt io.pos hss
  have htc : io.toCopy left = min (io.dev.sectorSize - io.pos % io.dev.sectorSize) left := rfl
  omega

variable {d : RamDisk} {lba n pos : Nat} {buf : List UInt8}

theorem device_readSector (h : InStep d count) (hl : lba < count)
    (buf : List UInt8) : readSector d lba buf = some (.ok (), d, d.sector lba) := by
  show (d.readSector lba).map _ = _
  rw [readSector_inStep h hl]
  rfl

/-- The part of a sector from a position on. -/
theorem take_drop_sector (h : pos % d.sectorSize + n ≤ d.sectorSize) :
    ((d.sector (pos / d.sectorSize)).drop (pos % d.sectorSize)).take n = slice d.data pos n := by
  have hslice := take_drop_slice (m := d.data) (a := pos / d.sectorSize * d.sectorSize) h
  rw [Nat.div_add_mod'] at hslice
  exact hslice

/-- `read` returns the bytes from the position on. -/
theorem readLoop_inStep (fuel : Nat) (io : DiskIo RamDisk) (left : Nat) (h : InStep io.dev count)
    (hss : 0 < io.dev.sectorSize) (hrange : left = 0 ∨ io.pos + left ≤ io.dev.byteLen)
    (hfuel : left ≤ fuel) :
    ∃ buf, io.readLoop fuel left
      = some (.ok (slice io.dev.data io.pos left), ⟨io.dev, io.pos + left, buf⟩) := by
  induction fuel generalizing io left with
  | zero =>
    obtain rfl : left = 0 := Nat.le_zero.mp hfuel
    exact ⟨io.sectorBuf, rfl⟩
  | succ fuel ih =>
    cases left with
    | zero => exact ⟨io.sectorBuf, rfl⟩
    | succ left =>
      obtain ⟨hpos, hle, hsector⟩ := toCopy_bounds io hss (show 0 < left + 1 by omega)
      have hfits := h.fits
      have hend : io.pos + (left + 1) ≤ io.dev.byteLen := by omega
      have hl := lba_lt h hss (by omega)
      -- the rest of the transfer starts behind the chunk
      obtain ⟨buf, hrest⟩ := ih
        ⟨io.dev, io.pos + io.toCopy (left + 1), io.dev.sector (io.pos / io.dev.sectorSize)⟩
        (left + 1 - io.toCopy (left + 1)) h hss (by dsimp only; omega) (by omega)
      refine ⟨buf, ?_⟩
      rw [readLoop]
      dsimp only
      rw [device_sectorSize, if_neg (Nat.ne_of_gt hss), device_readSector h hl, bind_some]
      dsimp only
      rw [usizeAdd_of_lt (by omega), bind_some, hrest,
        take_drop_sector hsector]
      show some (Except.ok (_ ++ slice _ (_ + _) _), _) = _
      rw [slice_append]
      dsimp only
      rw [Nat.add_assoc, Nat.add_sub_cancel' hle]

theorem device_writeSector {d' : RamDisk} (h : d.writeSector lba buf = some (.ok d')) :
    writeSector d lba buf = some (.ok (), d') := by
  show (d.writeSector lba buf).map _ = _
  rw [h]
  rfl

/-- What a store of `chunk` at byte `pos` leaves of the disk `d`. -/
structure Stored (count : Nat) (d : RamDisk) (pos : Nat) (chunk : List UInt8) (d' : RamDisk) :
    Prop where
  inStep : InStep d' count
  sectorSize : d'.sectorSize = d.sectorSize
  byteLen : d'.byteLen = d.byteLen
  data : d'.data = blit d.data pos chunk.length fun i => chunk.getD i 0

/-- Both ways to store a part of a sector change these bytes and no others: the one
that skips the read stores a whole sector, the other writes back what it read
around the part. -/
theorem store_inStep (io : DiskIo RamDisk) {offset : Nat} {chunk : List UInt8}
    (h : InStep io.dev count) (hl : lba < count)
    (hsector : offset + chunk.length ≤ io.dev.sectorSize) :
    ∃ dev buf, io.store lba offset chunk = some (.ok (), dev, buf) ∧
      Stored count io.dev (lba * io.dev.sectorSize + offset) chunk dev := by
  unfold store
  rw [device_sectorSize]
  -- A whole sector is written as it is; a part is put into the sector that was read before.
  by_cases hwhole : offset = 0 ∧ chunk.length = io.dev.sectorSize
  · obtain ⟨d', hwrite, hstep, hsize, hlen, hdata⟩ := writeSector_inStep h hl hwhole.2
    refine ⟨d', io.sectorBuf, ?_, hstep, hsize, hlen, ?_⟩
    · rw [if_pos hwhole, device_writeSector hwrite]
      rfl
    · rw [hdata, hwhole.1, hwhole.2]
      rfl
  · have hbuf : (splice (io.dev.sector lba) offset chunk).length = io.dev.sectorSize := by
      have hsec : (io.dev.sector lba).length = io.dev.sectorSize := length_slice
      rw [length_splice (by rw [hsec]; exact hsector), hsec]
    obtain ⟨d', hwrite, hstep, hsize, hlen, hdata⟩ := writeSector_inStep h hl hbuf
    refine ⟨d', splice (io.dev.sector lba) offset chunk, ?_, hstep, hsize, hlen, ?_⟩
    · rw [if_neg hwhole, device_readSector h hl, bind_some]
      dsimp only
      rw [device_writeSector hwrite]
      rfl
    · rw [hdata]
      exact blit_splice hsector

/-- Nothing to store. -/
theorem Stored.nil (h : InStep d count) (pos : Nat) : Stored count d pos [] d := by
  refine ⟨h, rfl, rfl, ?_⟩
  funext x
  rw [blit_out (by rw [length_nil]; omega)]

/-- Storing the front of a buffer and then the rest behind it. -/
theorem Stored.trans {d₁ d₂ : RamDisk} (hn : n ≤ buf.length)
    (h₁ : Stored count d pos (buf.take n) d₁) (h₂ : Stored count d₁ (pos + n) (buf.drop n) d₂) :
    Stored count d pos buf d₂ where
  inStep := h₂.inStep
  sectorSize := h₂.sectorSize.trans h₁.sectorSize
  byteLen := h₂.byteLen.trans h₁.byteLen
  data := by
    rw [h₂.data, h₁.data, length_drop, length_take_of_le hn, ← blit_blit hn]
    congr 1
    exact blit_congr fun i hi => getD_take hi

/-- `write` stores the buffer at the position. -/
theorem writeLoop_inStep : ∀ (fuel : Nat) (io : DiskIo RamDisk) (buf : List UInt8),
    InStep io.dev count → 0 < io.dev.sectorSize →
      buf = [] ∨ io.pos + buf.length ≤ io.dev.byteLen → buf.length ≤ fuel →
      ∃ io', io.writeLoop fuel buf = some (.ok buf.length, io') ∧
        io'.pos = io.pos + buf.length ∧ Stored count io.dev io.pos buf io'.dev := by
  intro fuel
  -- A round writes at least one byte, so the length of the buffer is enough fuel.
  induction fuel with
  | zero =>
    intro io buf h hss hrange hfuel
    obtain rfl := eq_nil_of_length_eq_zero (Nat.le_zero.mp hfuel)
    exact ⟨io, rfl, rfl, Stored.nil h io.pos⟩
  | succ fuel ih =>
    intro io buf h hss hrange hfuel
    cases buf with
    | nil => exact ⟨io, rfl, rfl, Stored.nil h io.pos⟩
    | cons b bs =>
      have hend := hrange.resolve_left (cons_ne_nil b bs)
      have hfits := h.fits
      have hlen : 0 < (b :: bs).length := Nat.succ_pos _
      -- This round: `n` bytes, to the end of the sector at most.
      obtain ⟨hpos, hle, hsector⟩ := toCopy_bounds io hss hlen
      generalize hn : io.toCopy (b :: bs).length = n at hpos hle hsector
      have htake : ((b :: bs).take n).length = n := length_take_of_le hle
      have hl := lba_lt h hss (by omega)
      obtain ⟨dev, sb, hstore, hstored⟩ := store_inStep io h hl (by rw [htake]; exact hsector)
      rw [Nat.div_add_mod'] at hstored
      -- The rest of the buffer, behind them.
      obtain ⟨io', hrest, hpos', hstored'⟩ := ih ⟨dev, io.pos + n, sb⟩ ((b :: bs).drop n)
        hstored.inStep (by rw [hstored.sectorSize]; exact hss)
        (.inr (by rw [hstored.byteLen, length_drop]; dsimp only; omega))
        (by rw [length_drop]; omega)
      rw [length_drop] at hrest hpos'
      refine ⟨io', ?_, ?_, hstored.trans hle hstored'⟩
      · rw [writeLoop]
        dsimp only
        rw [device_sectorSize, if_neg (Nat.ne_of_gt hss), hn, hstore, bind_some]
        dsimp only
        rw [usizeAdd_of_lt (by omega), bind_some, hrest]
        show some (Except.ok (n + _), io') = _
        rw [Nat.add_sub_cancel' hle]
      · rw [hpos']
        dsimp only
        omega

end DiskIo

/-! ## Refinement -/

/-- The cursor, on a disk of `count` sectors of `size` bytes, stands for the array. -/
structure Flat.RefinedBy (count size : Nat) (f : Flat) (io : DiskIo RamDisk) : Prop where
  inStep : InStep io.dev count
  sectorSize : io.dev.sectorSize = size
  size_pos : 0 < size
  total_lt : count * size < 2 ^ 63
  bytes : slice io.dev.data 0 (count * size) = f.bytes
  pos : io.pos = f.pos
  pos_lt : f.pos < 2 ^ 63

namespace Flat.RefinedBy

open DiskIo (Call Reply)

variable {count size : Nat} {f f' : Flat} {io : DiskIo RamDisk} {r : Reply}

theorem length (h : f.RefinedBy count size io) : f.bytes.length = count * size := by
  rw [← h.bytes, length_slice]

theorem byteLen (h : f.RefinedBy count size io) : io.dev.byteLen = count * size := by
  rw [h.inStep.size, h.sectorSize]

theorem sectorSize_pos (h : f.RefinedBy count size io) : 0 < io.dev.sectorSize := by
  rw [h.sectorSize]
  exact h.size_pos

/-- A position and an offset that lead to a position, in `i64` and back. -/
theorem i64_position {base : Nat} {n : Int} (hbase : base < 2 ^ 63) (h₀ : 0 ≤ base + n)
    (h₁ : base + n < 2 ^ 63) : (i64Add (asI64 base) n).map asU64 = some (base + n).toNat := by
  rw [asI64_of_lt hbase, i64Add, if_pos (by omega), map_some, asU64_of_range h₀ h₁]

variable {whence : SeekFrom}

section

variable (h : f.RefinedBy count size io)

include h

theorem seekTarget (h₀ : 0 ≤ f.target whence)
    (h₁ : f.target whence < 2 ^ 63) :
    DiskIo.seekTarget (count * size) io.pos whence = some (f.target whence).toNat := by
  cases whence with
  | start n => rfl
  | fromEnd n =>
    unfold Flat.target at h₀ h₁ ⊢
    rw [h.length] at h₀ h₁ ⊢
    rw [DiskIo.seekTarget, i64_position h.total_lt h₀ h₁]
  | current n =>
    unfold Flat.target at h₀ h₁ ⊢
    rw [DiskIo.seekTarget, h.pos, i64_position h.pos_lt h₀ h₁]

theorem seek (hcall : f.call (.seek whence) = some (r, f')) :
    ∃ io', io.call (.seek whence) = some (.ok r, io') ∧ f'.RefinedBy count size io' := by
  unfold Flat.call at hcall
  obtain ⟨⟨h₀, h₁⟩, hcall⟩ := ite_none_right_eq_some.mp hcall
  cases hcall
  refine ⟨{ io with pos := (f.target whence).toNat }, ?_, h.inStep, h.sectorSize, h.size_pos,
    h.total_lt, h.bytes, rfl, by dsimp only; omega⟩
  have hcount : DiskDevice.sectorCount io.dev = some count := by
    show (if io.dev.sectorSize = 0 then none else some (io.dev.byteLen / io.dev.sectorSize)) = _
    rw [if_neg (Nat.ne_of_gt h.sectorSize_pos), h.inStep.size,
      Nat.mul_div_cancel _ h.sectorSize_pos]
  have htotal : usizeMul count (DiskDevice.sectorSize io.dev) = some (count * size) := by
    have hlt := h.total_lt
    rw [DiskIo.device_sectorSize, h.sectorSize, usizeMul_of_lt (by omega)]
  show (io.seek whence).map _ = _
  unfold DiskIo.seek
  rw [hcount, bind_eq_bind, bind_some, htotal, bind_some,
    h.seekTarget h₀ h₁]
  rfl

theorem read {len : Nat} (hcall : f.call (.read len) = some (r, f')) :
    ∃ io', io.call (.read len) = some (.ok r, io') ∧ f'.RefinedBy count size io' := by
  unfold Flat.call at hcall
  obtain ⟨hrange, hcall⟩ := ite_none_right_eq_some.mp hcall
  cases hcall
  have hlen := h.length
  have htotal := h.total_lt
  have hsmall := h.pos_lt
  obtain ⟨buf, hread⟩ := DiskIo.readLoop_inStep len io len h.inStep h.sectorSize_pos
    (by rw [h.pos, h.byteLen, ← hlen]; exact hrange) (Nat.le_refl len)
  have hbytes : slice io.dev.data io.pos len = (f.bytes.drop f.pos).take len := by
    rcases hrange with rfl | hrange
    · rw [take_zero]
      rfl
    · rw [← h.bytes, take_drop_slice (by omega), Nat.zero_add, h.pos]
  refine ⟨⟨io.dev, io.pos + len, buf⟩, ?_, h.inStep, h.sectorSize, h.size_pos, h.total_lt,
    h.bytes, by rw [h.pos], by dsimp only; omega⟩
  unfold DiskIo.call DiskIo.read
  dsimp only
  rw [hread, hbytes]
  rfl

theorem write {buf : List UInt8}
    (hcall : f.call (.write buf) = some (r, f')) :
    ∃ io', io.call (.write buf) = some (.ok r, io') ∧ f'.RefinedBy count size io' := by
  unfold Flat.call at hcall
  dsimp only at hcall
  split at hcall
  -- An empty buffer leaves the position where it is, wherever that is.
  next hnil =>
    cases hcall
    subst hnil
    exact ⟨io, rfl, h⟩
  · obtain ⟨hrange, hcall⟩ := ite_none_right_eq_some.mp hcall
    cases hcall
    rw [h.length] at hrange
    obtain ⟨io', hwrite, hpos, hstored⟩ := DiskIo.writeLoop_inStep buf.length io buf h.inStep
      h.sectorSize_pos (.inr (by rw [h.pos, h.byteLen]; exact hrange)) (Nat.le_refl _)
    have htotal := h.total_lt
    refine ⟨io', ?_, hstored.inStep, by rw [hstored.sectorSize, h.sectorSize], h.size_pos,
      h.total_lt, ?_, by rw [hpos, h.pos], by dsimp only; omega⟩
    · unfold DiskIo.call DiskIo.write
      dsimp only
      rw [hwrite]
      rfl
    -- The bytes of the disk are those of the flat file, with the buffer in them.
    · have hslice := slice_blit (m := io.dev.data) (a := 0) hrange
      rw [Nat.zero_add, h.bytes] at hslice
      rw [hstored.data, h.pos, hslice]

theorem call {c : Call} (hcall : f.call c = some (r, f')) :
    ∃ io', io.call c = some (.ok r, io') ∧ f'.RefinedBy count size io' := by
  cases c with
  | seek whence => exact h.seek hcall
  | read len => exact h.read hcall
  | write buf => exact h.write hcall

end

end Flat.RefinedBy

/-- A new disk is an array of zeros. -/
theorem zeros_refinedBy_new {size count : Nat} (hpos : 0 < count * size)
    (hlt : count * size < 2 ^ 63) :
    (Flat.zeros (count * size)).RefinedBy count size (DiskIo.new (RamDisk.new count size)) where
  inStep := new_inStep (by omega)
  sectorSize := rfl
  size_pos := Nat.pos_of_mul_pos_left hpos
  total_lt := hlt
  bytes := by
    refine eq_replicate_iff.mpr ⟨length_slice, fun b hb => ?_⟩
    obtain ⟨_, _, rfl⟩ := mem_map.mp hb
    rfl
  pos := rfl
  pos_lt := Nat.two_pow_pos 63

/-- **The cursor refines a flat array.** On a new RAM disk every run of seeks, reads and
writes that stays inside the array has the array's replies (never an error, so never
a checksum that does not match), and ends with its position and its bytes. -/
theorem diskIo_refines_flat {cursor cursor' count size : Nat} {d : RamDisk}
    (hcursor : RamDisk.virtRegionBase ≤ cursor)
    (hcreate : RamDisk.create cursor count size = some (d, cursor'))
    {calls : List DiskIo.Call} {replies : List DiskIo.Reply} {f : Flat}
    (hrun : runReplies Flat.call (Flat.zeros (count * size)) calls = some (replies, f)) :
    ∃ io, runReplies DiskIo.call (DiskIo.new d) calls = some (replies.map .ok, io) ∧
      io.pos = f.pos ∧ slice io.dev.data 0 (count * size) = f.bytes := by
  obtain ⟨rfl, hpos, hlt⟩ := create_eq hcursor hcreate
  obtain ⟨io, hio, href⟩ := runReplies_simulates (R := Flat.RefinedBy count size)
    (fun f _ c r f' h (hcall : f.call c = some (r, f')) => h.call hcall)
    (zeros_refinedBy_new hpos hlt) hrun
  exact ⟨io, hio, href.pos, href.bytes⟩

/-- Two sectors of four bytes: a write across the boundary, one of a whole sector and a
read of parts of both. -/
theorem diskIo_refines_flat_twoSectors :
    ∃ io, runReplies DiskIo.call (DiskIo.new (RamDisk.new 2 4))
        [.seek (.start 2), .write [1, 2, 3, 4], .seek (.fromEnd (-8)), .write [9, 8, 7, 6],
          .seek (.current (-1)), .read 3]
      = some ([.pos 2, .wrote 4, .pos 0, .wrote 4, .pos 3, .bytes [6, 3, 4]].map .ok, io) ∧
      io.pos = 6 ∧ slice io.dev.data 0 (2 * 4) = [9, 8, 7, 6, 3, 4, 0, 0] :=
  diskIo_refines_flat (f := ⟨[9, 8, 7, 6, 3, 4, 0, 0], 6⟩) (Nat.le_refl RamDisk.virtRegionBase) rfl
    (by decide +kernel)

end AlaphiOS.Io
