import AlaphiOS.Io.DiskIo

/-!
# Accesses beyond the end of the disk

The bounds check of `read_sector` and `write_sector` (`kernel/src/io/disk.rs`) compares the end of
the sector with the length of the disk, and computes it first: `lba * sector_size + sector_size` is
a `u64`. So the check is right for every `lba` for which that sum fits, and for the others it stops
the kernel instead of refusing the access (`confined_iff`). The cursor of `DiskIo` gets there
easily. `seek` turns any signed sum into a `u64`, a position before the
start of the disk into one near `2 ^ 64`, and the next read or write panics; and the signed sum can
itself overflow. `Safe` is the exact condition on a call.

Nothing worse happens: whatever the calls, no byte outside the disk is written.
-/

namespace AlaphiOS.Io

open Lib List Option RamDisk

/-- `sector_ptr`, for a disk whose region starts at `base`. -/
def RamDisk.sectorPtr (base : Nat) (d : RamDisk) (lba : Nat) : Option Nat := do
  let start ← usizeMul lba d.sectorSize
  usizeAdd base start

/-- A disk of `count` sectors of `size` bytes; its contents may be anything. -/
structure Geometry (d : RamDisk) (count size : Nat) : Prop where
  sectorSize : d.sectorSize = size
  byteLen : d.byteLen = count * size
  crcs : d.crcs.length = count
  nonempty : 0 < count * size
  fits : count * size < 2 ^ 63

/-- The access to sector `lba` is refused without a trace if there is no such sector, and passes
the check if there is. -/
def Confined (d : RamDisk) (lba : Nat) (buf : List UInt8) : Prop :=
  ∃ count, DiskDevice.sectorCount d = some count ∧
    (count ≤ lba →
      DiskDevice.readSector d lba buf = some (.error .outOfBounds, d, buf) ∧
      DiskDevice.writeSector d lba buf = some (.error .outOfBounds, d)) ∧
    (lba < count →
      (∃ res d' buf', DiskDevice.readSector d lba buf = some (res, d', buf') ∧
        res ≠ .error .outOfBounds) ∧
      ∃ d', DiskDevice.writeSector d lba buf = some (.ok (), d'))

/-! ## The bounds check -/

section

variable {d : RamDisk} {count size lba : Nat}

/-- The end of a sector, computed step by step. -/
theorem usizeMul_usizeAdd {α : Type} (a b : Nat) (f : Nat → Nat → Option α) :
    ((usizeMul a b).bind fun start => (usizeAdd start b).bind (f start))
      = if (a + 1) * b < 2 ^ 64 then f (a * b) (a * b + b) else none := by
  rw [Nat.succ_mul]
  unfold usizeMul usizeAdd
  by_cases h : a * b + b < 2 ^ 64
  · rw [if_pos h, if_pos (show a * b < 2 ^ 64 by omega), bind_some, if_pos h,
      bind_some]
  · rw [if_neg h]
    by_cases h' : a * b < 2 ^ 64
    · rw [if_pos h', bind_some, if_neg h]
      rfl
    · rw [if_neg h']
      rfl

namespace Geometry

section

variable (g : Geometry d count size)

include g

theorem size_pos : 0 < size := Nat.pos_of_mul_pos_left g.nonempty

theorem sectorCount : DiskDevice.sectorCount d = some count := by
  show (if d.sectorSize = 0 then none else some (d.byteLen / d.sectorSize)) = _
  rw [g.sectorSize, if_neg (Nat.ne_of_gt g.size_pos), g.byteLen, Nat.mul_div_cancel _ g.size_pos]

/-- The sectors of the disk are those that end on it. -/
theorem top_le_iff : lba * size + size ≤ d.byteLen ↔ lba < count := by
  rw [← Nat.succ_mul, g.byteLen, Nat.mul_le_mul_right_iff g.size_pos, Nat.succ_le_iff]

theorem top_lt (h : lba < count) : (lba + 1) * size < 2 ^ 64 := by
  have := g.top_le_iff.mpr h
  have hlen := g.byteLen
  have hfits := g.fits
  rw [Nat.succ_mul]
  omega

theorem readSector_eq (lba : Nat) :
    d.readSector lba = if (lba + 1) * size < 2 ^ 64 then
      if lba < count then
        if d.crcs[lba]? = some (crc32 (d.sector lba)) then some (.ok (d.sector lba))
        else some (.error .crcMismatch)
      else some (.error .outOfBounds)
    else none := by
  unfold readSector
  rw [g.sectorSize]
  refine (usizeMul_usizeAdd ..).trans ?_
  congr 1
  by_cases h : lba < count
  · have hlt : lba < d.crcs.length := by rw [g.crcs]; exact h
    rw [if_neg (Nat.not_lt.mpr (g.top_le_iff.mpr h)), if_pos h, getElem?_eq_getElem hlt,
      bind_eq_bind, bind_some]
    by_cases hcrc : crc32 (d.sector lba) = d.crcs[lba]
    · rw [if_neg (not_not.mpr hcrc), if_pos (congrArg some hcrc.symm)]
    · rw [if_pos hcrc, if_neg fun heq => hcrc (some.inj heq).symm]
  · rw [if_pos (Nat.lt_of_not_le (mt g.top_le_iff.mp h)), if_neg h]

theorem writeSector_eq (lba : Nat) (buf : List UInt8) :
    d.writeSector lba buf = if (lba + 1) * size < 2 ^ 64 then
      if lba < count then
        some (.ok { d with
          crcs := d.crcs.set lba (crc32 buf)
          data := blit d.data (lba * size) size fun k => buf.getD k 0 })
      else some (.error .outOfBounds)
    else none := by
  unfold writeSector
  rw [g.sectorSize]
  refine (usizeMul_usizeAdd ..).trans ?_
  congr 1
  by_cases h : lba < count
  · rw [if_neg (Nat.not_lt.mpr (g.top_le_iff.mpr h)), if_pos h, if_pos (by rw [g.crcs]; exact h)]
  · rw [if_pos (Nat.lt_of_not_le (mt g.top_le_iff.mp h)), if_neg h]

theorem device_readSector_eq (lba : Nat) (buf : List UInt8) :
    DiskDevice.readSector d lba buf = if (lba + 1) * size < 2 ^ 64 then
      if lba < count then
        if d.crcs[lba]? = some (crc32 (d.sector lba)) then some (.ok (), d, d.sector lba)
        else some (.error .crcMismatch, d, d.sector lba)
      else some (.error .outOfBounds, d, buf)
    else none := by
  show (d.readSector lba).map _ = _
  rw [g.readSector_eq]
  split
  · split
    · split <;> rfl
    · rfl
  · rfl

theorem device_writeSector_eq (lba : Nat) (buf : List UInt8) :
    DiskDevice.writeSector d lba buf = if (lba + 1) * size < 2 ^ 64 then
      if lba < count then
        some (.ok (), { d with
          crcs := d.crcs.set lba (crc32 buf)
          data := blit d.data (lba * size) size fun k => buf.getD k 0 })
      else some (.error .outOfBounds, d)
    else none := by
  show (d.writeSector lba buf).map _ = _
  rw [g.writeSector_eq]
  split
  · split <;> rfl
  · rfl

/-- An access is confined exactly if the end of its sector can be computed. -/
theorem confined_iff (lba : Nat) (buf : List UInt8) :
    Confined d lba buf ↔ (lba + 1) * size < 2 ^ 64 := by
  unfold Confined
  rw [g.device_readSector_eq, g.device_writeSector_eq]
  constructor
  · intro ⟨count', hcount, hbeyond, hbelow⟩
    cases hcount.symm.trans g.sectorCount
    rcases Nat.lt_or_ge lba count with hlt | hge
    · exact g.top_lt hlt
    · -- a refusal is a result, so the computation has returned
      by_contra hno
      have hwrite := (hbeyond hge).2
      rw [if_neg hno] at hwrite
      exact nomatch hwrite
  · intro hfits
    refine ⟨count, g.sectorCount, fun hge => ?_, fun hlt => ?_⟩
    · rw [if_pos hfits, if_neg (Nat.not_lt.mpr hge), if_pos hfits, if_neg (Nat.not_lt.mpr hge)]
      exact ⟨rfl, rfl⟩
    · rw [if_pos hfits, if_pos hlt, if_pos hfits, if_pos hlt]
      refine ⟨?_, _, rfl⟩
      split <;> exact ⟨_, _, _, rfl, nofun⟩

/-- A sector of the disk is written inside it. -/
theorem set_sector (hlt : lba < count) (crc : UInt32)
    (f : Nat → UInt8) :
    Geometry { d with crcs := d.crcs.set lba crc, data := blit d.data (lba * size) size f }
      count size ∧
      ∀ x, count * size ≤ x → blit d.data (lba * size) size f x = d.data x := by
  refine ⟨⟨g.sectorSize, g.byteLen, (length_set ..).trans g.crcs, g.nonempty, g.fits⟩, ?_⟩
  intro x hx
  have htop := g.top_le_iff.mpr hlt
  rw [g.byteLen] at htop
  exact blit_out (.inr (Nat.le_trans htop hx))

end

end Geometry

/-! ## The cursor -/

/-- A disk of this geometry with the bytes outside as in `m`. -/
structure Inside (count size : Nat) (m : Mem) (d : RamDisk) : Prop where
  geometry : Geometry d count size
  outside : ∀ x, count * size ≤ x → d.data x = m x

namespace DiskIo

variable {m : Mem} {io : DiskIo RamDisk}

/-- What is asked of a call at a cursor: that the sums in it can be computed. -/
def Safe (count size : Nat) (io : DiskIo RamDisk) : Call → Prop
  | .seek (.start _) => True
  | .seek (.fromEnd n) => (count * size : Nat) + n.toInt < 2 ^ 63
  | .seek (.current n) => -2 ^ 63 ≤ asI64 io.pos + n.toInt ∧ asI64 io.pos + n.toInt < 2 ^ 63
  | .read len => len = 0 ∨ (io.pos / size + 1) * size < 2 ^ 64
  | .write buf => buf = [] ∨ (io.pos / size + 1) * size < 2 ^ 64

instance (count size : Nat) (io : DiskIo RamDisk) : (c : Call) → Decidable (Safe count size io c)
  | .seek (.start _) => inferInstanceAs (Decidable True)
  | .seek (.fromEnd _) => inferInstanceAs (Decidable (_ < _))
  | .seek (.current _) => inferInstanceAs (Decidable (_ ∧ _))
  | .read _ => inferInstanceAs (Decidable (_ ∨ _))
  | .write _ => inferInstanceAs (Decidable (_ ∨ _))

/-- A call, without what it returns. -/
def step (io : DiskIo RamDisk) (c : Call) : Option (DiskIo RamDisk) := (io.call c).map Prod.snd

variable {c : Call} {fuel left : Nat}

/-- After a part of a sector of the disk, the position is on the disk or at its end, and the
next end of a sector can be computed again. -/
theorem next_position (h : Inside count size m io.dev) (hleft : 0 < left)
    (hlt : io.pos / size < count) :
    0 < io.toCopy left ∧ io.toCopy left ≤ left ∧ io.pos + io.toCopy left < 2 ^ 64 ∧
      ((io.pos + io.toCopy left) / size + 1) * size < 2 ^ 64 := by
  have hsize := h.geometry.sectorSize
  obtain ⟨hpos, hle, hsector⟩ := toCopy_bounds io (by rw [hsize]; exact h.geometry.size_pos) hleft
  rw [hsize] at hsector
  have htop := h.geometry.top_le_iff.mpr hlt
  rw [h.geometry.byteLen] at htop
  have hdiv := Nat.div_add_mod' io.pos size
  have hnext : (io.pos + io.toCopy left) / size * size ≤ io.pos + io.toCopy left :=
    Nat.div_mul_le_self _ _
  have hfits := h.geometry.fits
  have hone := Nat.le_mul_of_pos_left size (Nat.pos_of_mul_pos_right h.geometry.nonempty)
  refine ⟨hpos, hle, by omega, ?_⟩
  rw [Nat.succ_mul]
  omega

/-- `read` returns if the end of its first sector can be computed: from there on it stays on the
disk, or is refused. -/
theorem readLoop_inside (fuel : Nat) (io : DiskIo RamDisk) (left : Nat)
    (h : Inside count size m io.dev) (hfuel : left ≤ fuel)
    (hsafe : left = 0 ∨ (io.pos / size + 1) * size < 2 ^ 64) :
    ∃ res io', io.readLoop fuel left = some (res, io') ∧ Inside count size m io'.dev := by
  induction fuel generalizing io left with
  | zero =>
    obtain rfl : left = 0 := Nat.le_zero.mp hfuel
    exact ⟨_, io, rfl, h⟩
  | succ fuel ih =>
    cases left with
    | zero => exact ⟨_, io, rfl, h⟩
    | succ left =>
      have hfits := hsafe.resolve_left (Nat.succ_ne_zero left)
      rw [readLoop]
      dsimp only
      rw [device_sectorSize, h.geometry.sectorSize, if_neg (Nat.ne_of_gt h.geometry.size_pos),
        h.geometry.device_readSector_eq, if_pos hfits]
      by_cases hlt : io.pos / size < count
      · rw [if_pos hlt]
        split
        · obtain ⟨hpos, hle, hsum, hnext⟩ := next_position h (show 0 < left + 1 by omega) hlt
          obtain ⟨res, io', hrest, h'⟩ := ih
            ⟨io.dev, io.pos + io.toCopy (left + 1), io.dev.sector (io.pos / size)⟩
            (left + 1 - io.toCopy (left + 1)) h (by omega) (.inr hnext)
          rw [bind_some]
          dsimp only
          rw [usizeAdd_of_lt hsum, bind_some, hrest]
          exact ⟨_, io', rfl, h'⟩
        · exact ⟨_, _, rfl, h⟩
      · rw [if_neg hlt]
        exact ⟨_, _, rfl, h⟩

/-- And it does not if it cannot. -/
theorem readLoop_overflow (h : Inside count size m io.dev)
    (hno : ¬ (io.pos / size + 1) * size < 2 ^ 64) : io.readLoop (fuel + 1) (left + 1) = none := by
  rw [readLoop]
  dsimp only
  rw [device_sectorSize, h.geometry.sectorSize, if_neg (Nat.ne_of_gt h.geometry.size_pos),
    h.geometry.device_readSector_eq, if_neg hno]
  rfl

theorem writeSector_inside (h : Inside count size m d)
    (hfits : (lba + 1) * size < 2 ^ 64) (buf : List UInt8) :
    ∃ res d', DiskDevice.writeSector d lba buf = some (res, d') ∧ Inside count size m d' ∧
      (res = .ok () → lba < count) := by
  rw [h.geometry.device_writeSector_eq, if_pos hfits]
  by_cases hlt : lba < count
  · rw [if_pos hlt]
    obtain ⟨hgeometry, hout⟩ := h.geometry.set_sector hlt (crc32 buf) fun k => buf.getD k 0
    exact ⟨_, _, rfl, ⟨hgeometry, fun x hx => (hout x hx).trans (h.outside x hx)⟩, fun _ => hlt⟩
  · rw [if_neg hlt]
    exact ⟨_, _, rfl, h, nofun⟩

/-- Both ways to store a part of a sector begin with an access to it. -/
theorem store_inside (offset : Nat) (h : Inside count size m io.dev)
    (hfits : (lba + 1) * size < 2 ^ 64) (chunk : List UInt8) :
    ∃ res dev buf, io.store lba offset chunk = some (res, dev, buf) ∧ Inside count size m dev ∧
      (res = .ok () → lba < count) := by
  unfold store
  split
  · obtain ⟨res, d', hwrite, h'⟩ := writeSector_inside h hfits chunk
    rw [hwrite]
    exact ⟨res, d', _, rfl, h'⟩
  · rw [h.geometry.device_readSector_eq, if_pos hfits]
    split
    · split
      · obtain ⟨res, d', hwrite, h'⟩ :=
          writeSector_inside h hfits (splice (io.dev.sector lba) offset chunk)
        rw [bind_some]
        dsimp only
        rw [hwrite]
        exact ⟨res, d', _, rfl, h'⟩
      · exact ⟨_, _, _, rfl, h, nofun⟩
    · exact ⟨_, _, _, rfl, h, nofun⟩

theorem store_overflow {offset : Nat} (h : Inside count size m io.dev)
    (hno : ¬ (lba + 1) * size < 2 ^ 64) (chunk : List UInt8) :
    io.store lba offset chunk = none := by
  unfold store
  rw [h.geometry.device_readSector_eq, h.geometry.device_writeSector_eq, if_neg hno, if_neg hno]
  split <;> rfl

/-- The same for `write`. -/
theorem writeLoop_inside (fuel : Nat) (io : DiskIo RamDisk) (buf : List UInt8)
    (h : Inside count size m io.dev) (hfuel : buf.length ≤ fuel)
    (hsafe : buf = [] ∨ (io.pos / size + 1) * size < 2 ^ 64) :
    ∃ res io', io.writeLoop fuel buf = some (res, io') ∧ Inside count size m io'.dev := by
  induction fuel generalizing io buf with
  | zero =>
    obtain rfl := eq_nil_of_length_eq_zero (Nat.le_zero.mp hfuel)
    exact ⟨_, io, rfl, h⟩
  | succ fuel ih =>
    cases buf with
    | nil => exact ⟨_, io, rfl, h⟩
    | cons b bs =>
      have hfits := hsafe.resolve_left (cons_ne_nil b bs)
      have hlen : 0 < (b :: bs).length := Nat.succ_pos _
      obtain ⟨res, dev, sb, hstore, h', hok⟩ := store_inside (io.pos % size) h hfits
        ((b :: bs).take (io.toCopy (b :: bs).length))
      rw [writeLoop]
      dsimp only
      rw [device_sectorSize, h.geometry.sectorSize, if_neg (Nat.ne_of_gt h.geometry.size_pos),
        hstore, bind_some]
      cases res with
      | error e => exact ⟨_, _, rfl, h'⟩
      | ok =>
        obtain ⟨hpos, hle, hsum, hnext⟩ := next_position h hlen (hok rfl)
        obtain ⟨res, io', hrest, h''⟩ := ih ⟨dev, io.pos + io.toCopy (b :: bs).length, sb⟩
          ((b :: bs).drop (io.toCopy (b :: bs).length)) h'
          (by rw [length_drop]; omega) (.inr hnext)
        dsimp only
        rw [usizeAdd_of_lt hsum, bind_some, hrest]
        exact ⟨_, io', rfl, h''⟩

theorem writeLoop_overflow (h : Inside count size m io.dev) {b : UInt8}
    {bs : List UInt8} (hno : ¬ (io.pos / size + 1) * size < 2 ^ 64) :
    io.writeLoop (fuel + 1) (b :: bs) = none := by
  rw [writeLoop]
  dsimp only
  rw [device_sectorSize, h.geometry.sectorSize, if_neg (Nat.ne_of_gt h.geometry.size_pos),
    store_overflow h hno]
  rfl

/-- `seek` leaves the disk alone, and returns exactly if the signed sum can be computed. -/
theorem seek_eq (h : Inside count size m io.dev) (whence : SeekFrom) :
    io.seek whence = (seekTarget (count * size) io.pos whence).map fun pos =>
      (pos, { io with pos := pos }) := by
  have hfits := h.geometry.fits
  unfold seek
  rw [h.geometry.sectorCount, device_sectorSize, h.geometry.sectorSize, bind_eq_bind,
    bind_some, usizeMul_of_lt (by omega), bind_some]
  cases seekTarget (count * size) io.pos whence <;> rfl

theorem isSome_i64Add_iff (a b : Int) :
    ((i64Add a b).map asU64).isSome ↔ -2 ^ 63 ≤ a + b ∧ a + b < 2 ^ 63 := by
  unfold i64Add
  split
  next h => exact ⟨fun _ => h, fun _ => rfl⟩
  next h => exact ⟨nofun, fun h' => absurd h' h⟩

theorem seekTarget_isSome_iff (hfits : count * size < 2 ^ 63) (whence : SeekFrom) :
    (seekTarget (count * size) io.pos whence).isSome ↔ Safe count size io (.seek whence) := by
  cases whence with
  | start n => exact ⟨fun _ => trivial, fun _ => rfl⟩
  | fromEnd n =>
    -- the total is not negative, so the sum cannot be too small
    have hlo := n.le_toInt
    unfold seekTarget Safe
    rw [isSome_i64Add_iff, asI64_of_lt hfits]
    exact ⟨fun h' => h'.2, fun h' => ⟨by omega, h'⟩⟩
  | current n =>
    unfold seekTarget Safe
    exact isSome_i64Add_iff (asI64 io.pos) n.toInt

section

variable (h : Inside count size m io.dev)

include h

theorem call_inside (hsafe : Safe count size io c) :
    ∃ io', io.step c = some io' ∧ Inside count size m io'.dev := by
  unfold step
  cases c with
  | seek whence =>
    obtain ⟨pos, hpos⟩ := isSome_iff_exists.mp
      ((seekTarget_isSome_iff h.geometry.fits whence).mpr hsafe)
    refine ⟨{ io with pos := pos }, ?_, h⟩
    unfold call
    dsimp only
    rw [seek_eq h, hpos]
    rfl
  | read len =>
    obtain ⟨res, io', hread, h'⟩ := readLoop_inside len io len h (Nat.le_refl len) hsafe
    refine ⟨io', ?_, h'⟩
    unfold call read
    dsimp only
    rw [hread]
    rfl
  | write buf =>
    obtain ⟨res, io', hwrite, h'⟩ := writeLoop_inside buf.length io buf h (Nat.le_refl _) hsafe
    refine ⟨io', ?_, h'⟩
    unfold call write
    dsimp only
    rw [hwrite]
    rfl

theorem call_overflow (hno : ¬ Safe count size io c) :
    io.step c = none := by
  unfold step
  cases c with
  | seek whence =>
    have hnone := not_isSome_iff_eq_none.mp
      (mt (seekTarget_isSome_iff h.geometry.fits whence).mp hno)
    unfold call
    dsimp only
    rw [seek_eq h, hnone]
    rfl
  | read len =>
    obtain ⟨hlen, hover⟩ := not_or.mp hno
    obtain ⟨k, rfl⟩ := Nat.exists_eq_succ_of_ne_zero hlen
    unfold call read
    dsimp only
    rw [readLoop_overflow h hover]
    rfl
  | write buf =>
    obtain ⟨hbuf, hover⟩ := not_or.mp hno
    obtain ⟨b, bs, rfl⟩ := exists_cons_of_ne_nil hbuf
    unfold call write
    dsimp only
    rw [length_cons, writeLoop_overflow h hover]
    rfl

/-- One call: it returns exactly if it is safe. -/
theorem step_isSome_iff (c : Call) :
    (io.step c).isSome ↔ Safe count size io c := by
  constructor
  · intro hsome
    by_contra hno
    rw [call_overflow h hno] at hsome
    cases hsome
  · intro hsafe
    obtain ⟨io', hstep, _⟩ := call_inside h hsafe
    rw [hstep]
    rfl

/-- And when it returns, it has stayed inside. -/
theorem step_inside {io' : DiskIo RamDisk}
    (hstep : io.step c = some io') : Inside count size m io'.dev := by
  obtain ⟨io₁, hstep', h'⟩ := call_inside h ((step_isSome_iff h c).mp (by rw [hstep]; rfl))
  cases hstep.symm.trans hstep'
  exact h'

end

end DiskIo

end

theorem new_geometry {count size : Nat} (hpos : 0 < count * size) (hlt : count * size < 2 ^ 63) :
    Geometry (new count size) count size :=
  ⟨rfl, rfl, length_replicate, hpos, hlt⟩

/-- The sectors of a created disk have addresses. -/
theorem sectorPtr_create {cursor cursor' count size lba : Nat} {d : RamDisk}
    (h : create cursor count size = some (d, cursor')) (hlt : lba < count) :
    d.sectorPtr cursor lba = some (cursor + lba * size) := by
  obtain ⟨rfl, hpos, _, htop⟩ := create_inv h
  have hsector : lba * size + size ≤ count * size := by
    rw [← Nat.succ_mul]
    exact Nat.mul_le_mul_right size hlt
  have hsize : 0 < size := Nat.pos_of_mul_pos_left hpos
  unfold sectorPtr
  show (usizeMul lba size).bind _ = _
  rw [usizeMul_of_lt (by omega), bind_some, usizeAdd_of_lt (by omega)]

/-- **Accesses stay on the disk as far as their sums can be computed.** On a created disk, whatever
its contents: an access to a sector is confined exactly if the end of the sector fits
a `u64`, and the sectors of the disk have addresses. A run of seeks, reads and writes
of the cursor returns exactly if every call is safe, and then no byte outside the disk
has changed. -/
theorem disk_accesses_confined_iff {cursor cursor' count size : Nat} {d : RamDisk}
    (hcursor : RamDisk.virtRegionBase ≤ cursor)
    (hcreate : RamDisk.create cursor count size = some (d, cursor')) :
    Geometry d count size ∧
    (∀ e, Geometry e count size → ∀ lba buf,
      (Confined e lba buf ↔ (lba + 1) * size < 2 ^ 64)) ∧
    (∀ lba < count, d.sectorPtr cursor lba = some (cursor + lba * size)) ∧
    ∀ calls,
      ((exec DiskIo.step (DiskIo.new d) calls).isSome ↔
        Along DiskIo.step (DiskIo.Safe count size) (DiskIo.new d) calls) ∧
      ∀ io, exec DiskIo.step (DiskIo.new d) calls = some io →
        Geometry io.dev count size ∧ ∀ x, count * size ≤ x → io.dev.data x = d.data x := by
  have hptr : ∀ lba < count, d.sectorPtr cursor lba = some (cursor + lba * size) :=
    fun lba hlt => sectorPtr_create hcreate hlt
  obtain ⟨rfl, hpos, hlt⟩ := create_eq hcursor hcreate
  have h : Inside count size (RamDisk.new count size).data
      (DiskIo.new (RamDisk.new count size)).dev := ⟨new_geometry hpos hlt, fun _ _ => rfl⟩
  refine ⟨h.geometry, fun e g lba buf => g.confined_iff lba buf, hptr, fun calls => ⟨?_, ?_⟩⟩
  · exact exec_isSome_iff (fun io c h => DiskIo.step_isSome_iff h c)
      (fun io c io' h hstep => DiskIo.step_inside h hstep) h
  · intro io hrun
    have h' := exec_induction (P := fun _ _ => True)
      (fun _ _ _ h _ hstep => DiskIo.step_inside h hstep) h along_true hrun
    exact ⟨h'.geometry, h'.outside⟩

/-- Two sectors of four bytes: a write across both, one that is refused at the end of the disk, and
a read from far behind it. -/
theorem disk_accesses_confined_two_sectors :
    (exec DiskIo.step (DiskIo.new (RamDisk.new 2 4))
      [.seek (.start 2), .write [1, 2, 3, 4], .seek (.fromEnd (-2)), .write [7, 8, 9],
        .seek (.start 0x8000000000000000), .read 4]).isSome ∧
    Confined (RamDisk.new 2 4) (2 ^ 62 - 2) [] := by
  have hcreate : RamDisk.create RamDisk.virtRegionBase 2 4
      = some (RamDisk.new 2 4, RamDisk.virtRegionBase + 4096) := rfl
  obtain ⟨hgeometry, hconfined, _, hrun⟩ :=
    disk_accesses_confined_iff (Nat.le_refl RamDisk.virtRegionBase) hcreate
  refine ⟨(hrun _).1.mpr ?_, (hconfined _ hgeometry _ _).mpr ?_⟩
  · decide +kernel
  · decide

/-- A position one before the start of the disk is the last one of all, and the end of its sector
does not fit a `u64`: the read that should be refused stops the kernel. So does an access to
the first sector whose start does not fit. -/
theorem seek_before_start_stops_kernel :
    ∃ d cursor', RamDisk.create RamDisk.virtRegionBase 2 512 = some (d, cursor') ∧
      (exec DiskIo.step (DiskIo.new d) [.seek (.current (-1))]).map DiskIo.pos = some (2 ^ 64 - 1) ∧
      exec DiskIo.step (DiskIo.new d) [.seek (.current (-1)), .read 1] = none ∧
      DiskDevice.sectorCount d = some 2 ∧ d.readSector (2 ^ 55) = none ∧
      ∀ buf, d.writeSector (2 ^ 55) buf = none := by
  refine ⟨RamDisk.new 2 512, RamDisk.virtRegionBase + 4096, rfl, ?_, ?_, ?_, ?_, fun _ => ?_⟩
  · decide +kernel
  · exact isNone_iff_eq_none.mp (by decide +kernel)
  · decide +kernel
  · exact isNone_iff_eq_none.mp (by decide +kernel)
  · rfl

end AlaphiOS.Io
