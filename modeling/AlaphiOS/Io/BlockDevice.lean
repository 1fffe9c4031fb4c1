import AlaphiOS.Io.Disk
import AlaphiOS.Lib.Run

/-!
# The byte interface of the RAM disk

`RamDisk` is also a `BlockDevice` (the second half of `kernel/src/io/disk.rs`): a
cursor, and `read` and `write` of bytes from there on, cut at the end of the disk.
`write` does not look at the checksums. So after it `read_sector` reports a
corrupted sector (`block_write_corrupts`), and the two interfaces agree only as long
as bytes are written back unchanged.

Mirroring notes:
- The cursor is beside the disk, whose other fields are in `AlaphiOS.Io.Disk`.
- `Ok(n)` is the number of bytes, for `read` with the bytes.
-/

namespace AlaphiOS.Io

open Lib

/-- A disk and a cursor. -/
structure BlockDisk where
  disk : RamDisk
  cursor : Nat

namespace BlockDisk

/-- `buf.len().min(avail)`. -/
def transfer (b : BlockDisk) (len : Nat) : Nat := min len (b.disk.byteLen - b.cursor)

/-- `read`. -/
def read (b : BlockDisk) (len : Nat) : Option (List UInt8 × BlockDisk) :=
  let n := b.transfer len
  if n = 0 then some ([], b)
  else
    (usizeAdd b.cursor n).map fun cursor =>
      ((List.range n).map fun i => b.disk.data (b.cursor + i), { b with cursor := cursor })

/-- `write`. -/
def write (b : BlockDisk) (buf : List UInt8) : Option (Nat × BlockDisk) :=
  let n := b.transfer buf.length
  if n = 0 then some (0, b)
  else
    (usizeAdd b.cursor n).map fun cursor =>
      (n, { disk := { b.disk with data := blit b.disk.data b.cursor n fun i => buf.getD i 0 }
            cursor := cursor })

/-- `seek`. -/
def seek (b : BlockDisk) (offset : Nat) : BlockDisk := { b with cursor := offset }

/-- A call of either interface. -/
inductive Op where
  | readSector (lba : Nat)
  | writeSector (lba : Nat) (buf : List UInt8)
  | read (len : Nat)
  | write (buf : List UInt8)
  | seek (offset : Nat)

/-- What the disk is after a call. -/
def step (b : BlockDisk) : Op → Option BlockDisk
  | .readSector lba => (b.disk.readSector lba).map fun _ => b
  | .writeSector lba buf =>
    (b.disk.writeSector lba buf).map fun res =>
      match res with
      | .ok disk => { b with disk := disk }
      | .error _ => b
  | .read len => (b.read len).map Prod.snd
  | .write buf => (b.write buf).map Prod.snd
  | .seek offset => some (b.seek offset)

/-- Sectors are written from buffers of their size. -/
def Op.Sized (sectorSize : Nat) : Op → Prop
  | .writeSector _ buf => buf.length = sectorSize
  | _ => True

/-- What is written through the cursor is what is there. -/
def WritesBack (b : BlockDisk) : Op → Prop
  | .write buf => ∀ i < b.transfer buf.length, buf.getD i 0 = b.disk.data (b.cursor + i)
  | _ => True

instance (sectorSize : Nat) : (op : Op) → Decidable (op.Sized sectorSize)
  | .writeSector _ buf => inferInstanceAs (Decidable (buf.length = sectorSize))
  | .readSector _ | .read _ | .write _ | .seek _ => inferInstanceAs (Decidable True)

instance (b : BlockDisk) : (op : Op) → Decidable (b.WritesBack op)
  | .write buf => inferInstanceAs
      (Decidable (∀ i < b.transfer buf.length, buf.getD i 0 = b.disk.data (b.cursor + i)))
  | .readSector _ | .writeSector _ _ | .read _ | .seek _ => inferInstanceAs (Decidable True)

/-- A new disk. -/
def new (sectorCount sectorSize : Nat) : BlockDisk := ⟨RamDisk.new sectorCount sectorSize, 0⟩

/-! ## Checksums -/

variable {b b' : BlockDisk} {count sectorSize : Nat}

theorem write_back {buf : List UInt8} (hback : b.WritesBack (.write buf))
    (h : (b.write buf).map Prod.snd = some b') : b'.disk = b.disk := by
  obtain ⟨⟨n, _⟩, hwrite, rfl⟩ := map_inv h
  unfold write at hwrite
  dsimp only at hwrite
  split at hwrite
  · cases hwrite; rfl
  · obtain ⟨cursor, _, heq⟩ := map_inv hwrite
    cases heq
    -- every byte is written over by itself
    have hdata : blit b.disk.data b.cursor (b.transfer buf.length) (fun i => buf.getD i 0)
        = b.disk.data := by
      funext x
      by_cases hx : b.cursor ≤ x ∧ x < b.cursor + b.transfer buf.length
      · rw [blit_in hx.1 hx.2, hback (x - b.cursor) (by omega), Nat.add_sub_cancel' hx.1]
      · exact if_neg hx
    dsimp only
    rw [hdata]

/-- One call keeps the checksums in step. -/
theorem step_inStep {op : Op} (h : InStep b.disk count) (hsize : b.disk.sectorSize = sectorSize)
    (hsized : op.Sized sectorSize) (hback : b.WritesBack op) (hstep : b.step op = some b') :
    InStep b'.disk count ∧ b'.disk.sectorSize = sectorSize := by
  cases op with
  | readSector lba =>
    obtain ⟨_, _, rfl⟩ := map_inv hstep
    exact ⟨h, hsize⟩
  -- `write_sector` computes the new checksum itself.
  | writeSector lba buf =>
    obtain ⟨res, hwrite, rfl⟩ := map_inv hstep
    cases res with
    | error e => exact ⟨h, hsize⟩
    | ok disk =>
      have hlba : lba < count := by rw [← h.len]; exact writeSector_lt hwrite
      obtain ⟨disk', hwrite', hin, hsize', _⟩ :=
        writeSector_inStep h hlba (hsized.trans hsize.symm)
      cases hwrite.symm.trans hwrite'
      exact ⟨hin, hsize'.trans hsize⟩
  | read len =>
    obtain ⟨⟨bytes, _⟩, hread, rfl⟩ := map_inv hstep
    unfold read at hread
    dsimp only at hread
    split at hread
    · cases hread; exact ⟨h, hsize⟩
    · obtain ⟨cursor, _, heq⟩ := map_inv hread
      cases heq
      exact ⟨h, hsize⟩
  -- `write` at the cursor does not, and so has to write what is there.
  | write buf =>
    rw [write_back hback hstep]
    exact ⟨h, hsize⟩
  | seek offset =>
    cases hstep
    exact ⟨h, hsize⟩

/-- **Checksums stay in step with the data** through any calls of the two
interfaces, if those through the cursor write back what is there: then every sector
has its checksum and is read without an error. -/
theorem checksums_in_step {ops : List Op} (hfits : count * sectorSize < 2 ^ 64)
    (hsized : ∀ op ∈ ops, op.Sized sectorSize)
    (hback : Along step WritesBack (new count sectorSize) ops)
    (h : exec step (new count sectorSize) ops = some b) :
    (∀ lba < count, b.disk.crcs[lba]? = some (crc32 (b.disk.sector lba))) ∧
      ∀ lba < count, b.disk.readSector lba = some (.ok (b.disk.sector lba)) := by
  obtain ⟨hin, _⟩ := exec_induction
    (I := fun b => InStep b.disk count ∧ b.disk.sectorSize = sectorSize)
    (fun _ _ _ hI hP hstep => step_inStep hI.1 hI.2 hP.1 hP.2 hstep)
    ⟨new_inStep hfits, rfl⟩ (hback.and_forall hsized) h
  exact ⟨hin.crc, fun lba hlba => readSector_inStep hin hlba⟩

/-- Sector writes, and a byte read and written back. -/
def sectorsAndBytes : List Op :=
  [.writeSector 1 [7], .seek 1, .read 4, .seek 1, .write [7], .readSector 1]

/-- Sectors and single bytes. -/
theorem checksums_in_step_sectorsAndBytes :
    ∃ b, exec step (new 2 1) sectorsAndBytes = some b ∧
      b.disk.readSector 1 = some (.ok (b.disk.sector 1)) := by
  obtain ⟨b, hb⟩ : ∃ b, exec step (new 2 1) sectorsAndBytes = some b :=
    Option.isSome_iff_exists.mp (by decide +kernel)
  exact ⟨b, hb, (checksums_in_step (by decide) (by decide) (by decide +kernel) hb).2 1 (by decide)⟩

/-- One byte written through the cursor, and the sector cannot be read. -/
theorem block_write_corrupts :
    (exec step (new 1 1) [.write [7]]).bind (fun b => b.disk.readSector 0)
      = some (.error .crcMismatch) := by
  decide +kernel

end BlockDisk

end AlaphiOS.Io
