import AlaphiOS.Io.Disk
import AlaphiOS.Lib.ShiftRegister

/-!
# What the checksum of a sector detects

`crc32` takes a byte at a time: the table has the eight shifts of every byte, and the rest
of the register moves down. `crc32_eq_bitSerial` says that this is the CRC by the book, a shift
register that is fed the message bit by bit. From this it follows what a
checksum is good for: an error within 32 consecutive bits changes it, wherever it is and
however long the message (`burst_errors_detected`), and `read_sector` reports it.
-/

namespace AlaphiOS.Io

open Lib Lib.ShiftRegister List Option

/-- The bits of a byte, the lowest first. -/
def byteBits (b : UInt8) : List Bool := (range 8).map b.toBitVec.getLsbD

/-- A message in the order in which its bits enter the CRC. -/
def messageBits (data : List UInt8) : List Bool := data.flatMap byteBits

/-- The reflected CRC-32, one bit at a time. -/
def bitSerialCrc32 (data : List UInt8) : UInt32 :=
  ⟨~~~ run 0xEDB88320#32 (BitVec.allOnes 32) (messageBits data)⟩

/-! ## Bytes at a time -/

theorem tableStep_toBitVec (crc : UInt32) :
    (tableStep crc).toBitVec = shift 0xEDB88320#32 crc.toBitVec := by
  have hbit : crc &&& 1 ≠ 0 ↔ crc.toBitVec.getLsbD 0 = true := by
    rw [ne_eq, ← UInt32.toBitVec_inj, UInt32.toBitVec_and]
    show ¬ crc.toBitVec &&& 1#32 = 0#32 ↔ _
    rw [BitVec.and_one_eq_setWidth_ofBool_getLsbD]
    cases crc.toBitVec.getLsbD 0 <;> decide
  unfold tableStep shift
  by_cases h : crc &&& 1 ≠ 0
  · rw [if_pos h, if_pos (hbit.mp h)]
    rfl
  · rw [if_neg h, if_neg (mt hbit.mpr h)]
    rfl

theorem repeat_tableStep (n : Nat) (crc : UInt32) :
    (Nat.repeat tableStep n crc).toBitVec = shifts 0xEDB88320#32 n crc.toBitVec := by
  induction n with
  | zero => rfl
  | succ n ih =>
    show (tableStep (Nat.repeat tableStep n crc)).toBitVec = shift _ (shifts _ n _)
    rw [tableStep_toBitVec, ih]

theorem crcTable_getD {i : Nat} (h : i < 256) :
    crcTable.getD i 0 = Nat.repeat tableStep 8 (UInt32.ofNat i) := by
  unfold crcTable
  rw [getD_eq_getElem?_getD, getElem?_map, getElem?_range h]
  rfl

theorem crcTable_lookup (x : UInt32) :
    (crcTable.getD (x &&& 0xFF).toNat 0).toBitVec
      = shifts 0xEDB88320#32 8 (x &&& 0xFF).toBitVec := by
  have hlt : (x &&& 0xFF).toNat < 256 := by
    rw [UInt32.toNat_and]
    exact Nat.lt_of_le_of_lt Nat.and_le_right (by decide)
  rw [crcTable_getD hlt, UInt32.ofNat_toNat, repeat_tableStep]

theorem getLsbD_toUInt32 (b : UInt8) (i : Nat) :
    b.toUInt32.toBitVec.getLsbD i = b.toBitVec.getLsbD i := by
  rw [UInt8.toBitVec_toUInt32, BitVec.getLsbD_setWidth]
  by_cases h : i < 32
  · rw [decide_eq_true h, Bool.true_and]
  · rw [decide_eq_false h, Bool.false_and, BitVec.getLsbD_of_ge _ _ (by omega)]

theorem byteBits_eq (b : UInt8) : byteBits b = lowBits 8 b.toUInt32.toBitVec :=
  map_congr_left fun i _ => (getLsbD_toUInt32 b i).symm

theorem getLsbD_and_0xFF (x : UInt32) (i : Nat) :
    (x &&& 0xFF).toBitVec.getLsbD i = (decide (i < 8) && x.toBitVec.getLsbD i) := by
  have hmask : (255#32).getLsbD i = decide (i < 8) := by
    rw [BitVec.getLsbD_ofNat, show 255 = 2 ^ 8 - 1 by rfl, Nat.testBit_two_pow_sub_one]
    by_cases h : i < 8
    · rw [decide_eq_true h, decide_eq_true (show i < 32 by omega), Bool.true_and]
    · rw [decide_eq_false h, Bool.and_false]
  rw [UInt32.toBitVec_and, BitVec.getLsbD_and, Bool.and_comm]
  exact congrArg (· && _) hmask

/-- One look at the table is the eight bits of a byte. -/
theorem crc_byte (crc : UInt32) (b : UInt8) :
    ((crc >>> 8) ^^^ crcTable.getD ((crc ^^^ b.toUInt32) &&& 0xFF).toNat 0).toBitVec
      = run 0xEDB88320#32 crc.toBitVec (byteBits b) := by
  have hbyte : ∀ i, 8 ≤ i → b.toUInt32.toBitVec.getLsbD i = false := by
    intro i hi
    rw [getLsbD_toUInt32, BitVec.getLsbD_of_ge _ _ hi]
  have hmove : (crc ^^^ b.toUInt32).toBitVec >>> 8 = (crc >>> 8).toBitVec := by
    refine BitVec.eq_of_getLsbD_eq fun i _ => ?_
    show _ = (crc.toBitVec >>> 8).getLsbD i
    rw [BitVec.getLsbD_ushiftRight, BitVec.getLsbD_ushiftRight, UInt32.toBitVec_xor,
      BitVec.getLsbD_xor, hbyte (8 + i) (Nat.le_add_right 8 i), Bool.xor_false]
  rw [byteBits_eq, run_bits 8 _ _ hbyte, ← UInt32.toBitVec_xor, shifts_split (getLsbD_and_0xFF _),
    hmove, ← crcTable_lookup, UInt32.toBitVec_xor]

theorem foldl_crc_byte (data : List UInt8) : ∀ crc : UInt32,
    (data.foldl (fun (crc : UInt32) b =>
      (crc >>> 8) ^^^ crcTable.getD ((crc ^^^ b.toUInt32) &&& 0xFF).toNat 0) crc).toBitVec
      = run 0xEDB88320#32 crc.toBitVec (messageBits data) := by
  induction data with
  | nil => exact fun crc => rfl
  | cons b data ih =>
    intro crc
    rw [foldl_cons, ih, crc_byte]
    unfold messageBits run
    rw [flatMap_cons, foldl_append]

theorem crc32_toBitVec (data : List UInt8) :
    (crc32 data).toBitVec = ~~~ run 0xEDB88320#32 (BitVec.allOnes 32) (messageBits data) := by
  unfold crc32
  rw [UInt32.toBitVec_not, foldl_crc_byte]
  rfl

/-- **The checksum is the CRC by the book**: the reflected CRC-32 of the message, fed bit by
bit into a register of ones and complemented at the end. -/
theorem crc32_eq_bitSerial (data : List UInt8) : crc32 data = bitSerialCrc32 data := by
  apply UInt32.toBitVec_inj.mp
  exact crc32_toBitVec data

/-! ## Bursts -/

theorem length_byteBits (b : UInt8) : (byteBits b).length = 8 := rfl

theorem byteBits_inj {a b : UInt8} (h : byteBits a = byteBits b) : a = b := by
  refine UInt8.toBitVec_inj.mp (BitVec.eq_of_getLsbD_eq fun i hi => ?_)
  exact map_inj_left.mp h i (mem_range.mpr hi)

theorem length_messageBits (data : List UInt8) : (messageBits data).length = data.length * 8 := by
  induction data with
  | nil => rfl
  | cons b data ih =>
    unfold messageBits at ih ⊢
    rw [flatMap_cons, length_append, ih, length_byteBits, length_cons, Nat.succ_mul,
      Nat.add_comm]

theorem messageBits_inj {a b : List UInt8} (hlen : a.length = b.length)
    (h : messageBits a = messageBits b) : a = b := by
  induction a generalizing b with
  | nil =>
    exact (eq_nil_of_length_eq_zero hlen.symm).symm
  | cons x a ih =>
    cases b with
    | nil => cases hlen
    | cons y b =>
      unfold messageBits at h
      rw [flatMap_cons, flatMap_cons] at h
      obtain ⟨hhead, htail⟩ := append_inj h rfl
      rw [byteBits_inj hhead, ih (Nat.succ.inj hlen) htail]

/-- Two messages of one length differ, but within 32 consecutive bits only. -/
structure Burst (a b : List UInt8) : Prop where
  length : a.length = b.length
  differ : a ≠ b
  window : ∃ p, ∀ i, (messageBits a)[i]? ≠ (messageBits b)[i]? → p ≤ i ∧ i < p + 32

theorem Burst.crc32_ne {a b : List UInt8} (h : Burst a b) : crc32 a ≠ crc32 b := by
  obtain ⟨p, hwindow⟩ := h.window
  have hlen : (messageBits a).length = (messageBits b).length := by
    rw [length_messageBits, length_messageBits, h.length]
  have hrun : run 0xEDB88320#32 (BitVec.allOnes 32) (messageBits a)
      ≠ run 0xEDB88320#32 (BitVec.allOnes 32) (messageBits b) :=
    run_ne_of_burst (by decide) _ hlen (fun heq => h.differ (messageBits_inj h.length heq)) hwindow
  intro heq
  have hregs := UInt32.toBitVec_inj.mpr heq
  rw [crc32_toBitVec, crc32_toBitVec] at hregs
  exact hrun (BitVec.not_inj.mp hregs)

/-- **Bursts are detected.** The checksums of two messages that differ by a burst are different.
So when the checksum of a sector is that of the bytes last written, and the bytes in memory
differ from those by a burst, `read_sector` reports the mismatch. -/
theorem burst_errors_detected :
    (∀ a b, Burst a b → crc32 a ≠ crc32 b) ∧
    ∀ (d : RamDisk) (lba : Nat) (written : List UInt8),
      lba * d.sectorSize + d.sectorSize ≤ d.byteLen → d.byteLen < 2 ^ 64 →
      d.crcs[lba]? = some (crc32 written) → Burst written (d.sector lba) →
      d.readSector lba = some (.error .crcMismatch) := by
  refine ⟨fun a b h => h.crc32_ne, fun d lba written htop hfits hcrc h => ?_⟩
  rw [RamDisk.readSector, usizeMul_of_lt (by omega), bind_eq_bind, bind_some,
    usizeAdd_of_lt (by omega), bind_some, if_neg (by omega), hcrc, bind_eq_bind,
    bind_some, if_pos h.crc32_ne.symm]

/-- A sector of six bytes was written, and the last bit of one byte and the first of the one
four behind it have flipped. -/
theorem burst_errors_detected_two_bits :
    Burst [1, 2, 3, 4, 5, 6] [1, 0x82, 3, 4, 5, 7] ∧
    RamDisk.readSector ⟨fun i => [1, 0x82, 3, 4, 5, 7].getD i 0, 6, 6, [crc32 [1, 2, 3, 4, 5, 6]]⟩ 0
      = some (.error .crcMismatch) := by
  have hburst : Burst [1, 2, 3, 4, 5, 6] [1, 0x82, 3, 4, 5, 7] := by
    have hbits : ∀ i < 48, (messageBits [1, 2, 3, 4, 5, 6])[i]?
        ≠ (messageBits [1, 0x82, 3, 4, 5, 7])[i]? → 15 ≤ i ∧ i < 15 + 32 := by
      decide
    refine ⟨rfl, by decide, 15, fun i hne => ?_⟩
    by_cases hi : i < 48
    · exact hbits i hi hne
    · rw [getElem?_eq_none (Nat.not_lt.mp hi), getElem?_eq_none (Nat.not_lt.mp hi)] at hne
      exact absurd rfl hne
  exact ⟨hburst, burst_errors_detected.2 _ 0 _ (by decide) (by decide) rfl hburst⟩

end AlaphiOS.Io
