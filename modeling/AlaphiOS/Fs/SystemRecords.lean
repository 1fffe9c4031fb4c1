import AlaphiOS.Fs.Overlay
import AlaphiOS.Fs.Vfs
import AlaphiOS.Lib.Slices

/-!
# The records of `auth.db` and `perms.db`

The record codecs of `kernel/src/fs/system_domain.rs`. Both files hold records of a
fixed size that begin with a status byte. A path is stored in 64 bytes padded with
zeros: a longer one is cut, and one that does not decode is read as the empty path.

`RecordFormat` is what the rest of the module of the source needs of a codec: what
was decoded once is encoded and decoded again without a change (`decode_encode`,
for the pairs a record can hold). `authFormat` and `permsFormat` are the two.

Mirroring notes:
- `core::str::from_utf8` and `str::as_bytes` are `fromUtf8` and `asBytes`.
- A buffer is a `Block`, so that the `try_into().unwrap()`s have nothing to check.
-/

namespace AlaphiOS.Fs

open Lib List Block

/-- `PATH_MAX`. -/
def pathMax : Nat := 64

/-- `AUTH_RECORD_SIZE`. -/
def authRecordSize : Nat := 1 + 4 + 16 + 32

/-- `PERMS_RECORD_SIZE`. -/
def permsRecordSize : Nat := 1 + pathMax + 4 + 4 + 1 + 1 + 1

/-- `STATUS_CLEAN`. -/
def statusClean : UInt8 := 0

/-- `STATUS_DIRTY`. -/
def statusDirty : UInt8 := 1

/-! ## Passwords -/

/-- `encode_auth_record`. -/
def encodeAuthRecord (status : UInt8) (entry : AuthEntry) : Block authRecordSize :=
  (((byte status).append (toLE 4 entry.uid.toNat)).append entry.salt).append entry.hash

/-- `decode_auth_record`. -/
def decodeAuthRecord (buf : Block authRecordSize) : UInt8 × AuthEntry :=
  (buf.1.getD 0 0,
    { uid := UInt32.ofNat (ofLE (buf.cut 1 4 (by decide)))
      salt := buf.cut 5 16 (by decide)
      hash := buf.cut 21 32 (by decide) })

/-- A `u32` in four bytes and back. -/
theorem ofNat_ofLE_toLE (v : UInt32) : UInt32.ofNat (ofLE (toLE 4 v.toNat)) = v := by
  rw [ofLE_toLE v.toNat_lt, UInt32.ofNat_toNat]

/-- A record of a user is read back as it was. -/
theorem decode_encodeAuthRecord (status : UInt8) (entry : AuthEntry) :
    decodeAuthRecord (encodeAuthRecord status entry) = (status, entry) := by
  have huid : (encodeAuthRecord status entry).cut 1 4 (by decide) = toLE 4 entry.uid.toNat :=
    (cut_append_left (by decide) _).trans
      ((cut_append_left (by decide) _).trans (cut_append_right _))
  have hsalt : (encodeAuthRecord status entry).cut 5 16 (by decide) = entry.salt :=
    (cut_append_left (by decide) _).trans (cut_append_right _)
  have hhash : (encodeAuthRecord status entry).cut 21 32 (by decide) = entry.hash :=
    cut_append_right _
  unfold decodeAuthRecord
  rw [huid, hsalt, hhash, ofNat_ofLE_toLE]
  rfl

/-! ## Permissions -/

/-- `str::as_bytes`. -/
def asBytes (path : Path) : List UInt8 := (String.ofList path).toByteArray.data.toList

/-- `core::str::from_utf8`. -/
def fromUtf8 (bytes : List UInt8) : Option Path :=
  (String.fromUTF8? bytes.toByteArray).map String.toList

/-- The path field: the bytes of the path, as many as fit, and zeros. -/
def pathField (path : Path) : Block pathMax :=
  let n := min (asBytes path).length pathMax
  ⟨(asBytes path).take n ++ replicate (pathMax - n) 0, by
    rw [length_append, length_take, length_replicate]
    omega⟩

/-- The bytes up to the first zero, or all of them. -/
def pathOf (raw : Block pathMax) : Path :=
  (fromUtf8 (raw.1.takeWhile (· ≠ 0))).getD []

/-- `encode_perms_record`. -/
def encodePermsRecord (status : UInt8) (path : Path) (entry : PermEntry) : Block permsRecordSize :=
  ((((((byte status).append (pathField path)).append
    (toLE 4 entry.uid.toNat)).append (toLE 4 entry.gid.toNat)).append
    (byte entry.ownerRwx.bits)).append (byte entry.groupRwx.bits)).append
    (byte entry.worldRwx.bits)

/-- `decode_perms_record`. -/
def decodePermsRecord (buf : Block permsRecordSize) : UInt8 × Path × PermEntry :=
  let off := 1 + pathMax
  (buf.1.getD 0 0, pathOf (buf.cut 1 pathMax (by decide)),
    { uid := UInt32.ofNat (ofLE (buf.cut off 4 (by decide)))
      gid := UInt32.ofNat (ofLE (buf.cut (off + 4) 4 (by decide)))
      ownerRwx := ⟨buf.1.getD (off + 8) 0⟩
      groupRwx := ⟨buf.1.getD (off + 9) 0⟩
      worldRwx := ⟨buf.1.getD (off + 10) 0⟩ })

/-- UTF-8 is read back. -/
theorem fromUtf8_asBytes (path : Path) : fromUtf8 (asBytes path) = some path := by
  unfold fromUtf8 asBytes String.fromUTF8?
  rw [show ∀ b : ByteArray, b.data.toList.toByteArray = b from
    fun b => ByteArray.ext (Array.toList_inj.mp toList_data_toByteArray),
    dif_pos (String.isValidUTF8 _)]
  exact congrArg some String.toList_ofList

/-- What was read is the UTF-8 of it. -/
theorem asBytes_of_fromUtf8 {bytes : List UInt8} {path : Path} (h : fromUtf8 bytes = some path) :
    asBytes path = bytes := by
  obtain ⟨s, hs, rfl⟩ := Option.map_eq_some_iff.mp h
  unfold String.fromUTF8? at hs
  split at hs
  next hvalid =>
    cases hs
    unfold asBytes
    rw [String.ofList_toList]
    exact toList_data_toByteArray
  · cases hs

/-- A path that a record holds whole. -/
def Fits (path : Path) : Prop := (asBytes path).length ≤ pathMax ∧ ∀ b ∈ asBytes path, b ≠ 0

/-- A path that was read fits in its field. -/
theorem pathOf_fits (raw : Block pathMax) : Fits (pathOf raw) := by
  unfold pathOf
  cases h : fromUtf8 (raw.1.takeWhile (· ≠ 0)) with
  | none =>
    have hnil : asBytes [] = [] := rfl
    show Fits []
    unfold Fits
    rw [hnil]
    exact ⟨Nat.zero_le _, nofun⟩
  | some path =>
    show Fits path
    unfold Fits
    rw [asBytes_of_fromUtf8 h]
    refine ⟨?_, fun b hb => ?_⟩
    · exact Nat.le_trans ( takeWhile_prefix _).length_le (Nat.le_of_eq raw.2)
    · exact of_decide_eq_true (all_eq_true.mp all_takeWhile b hb)

/-- A path that fits is read back. -/
theorem pathOf_pathField {path : Path} (h : Fits path) : pathOf (pathField path) = path := by
  have hbytes : (pathField path).1.takeWhile (· ≠ 0) = asBytes path := by
    show ((asBytes path).take _ ++ replicate _ 0).takeWhile _ = _
    rw [Nat.min_eq_left h.1, take_length,
      takeWhile_append_of_pos fun b hb => decide_eq_true (h.2 b hb)]
    cases pathMax - (asBytes path).length with
    | zero | succ => exact append_nil _
  unfold pathOf
  rw [hbytes, fromUtf8_asBytes]
  rfl

/-- So is a record of permissions, if its path fits. -/
theorem decode_encodePermsRecord (status : UInt8) {path : Path} (entry : PermEntry)
    (h : Fits path) :
    decodePermsRecord (encodePermsRecord status path entry) = (status, path, entry) := by
  -- the rights are the last three arrays, so the numbers and the path are left of them
  have hleft : ∀ {i j : Nat} (h : i + j ≤ 1 + pathMax + 4 + 4) (h' : i + j ≤ permsRecordSize),
      (encodePermsRecord status path entry).cut i j h'
        = ((((byte status).append (pathField path)).append
            (toLE 4 entry.uid.toNat)).append (toLE 4 entry.gid.toNat)).cut i j h := by
    intro i j h h'
    refine (cut_append_left (Nat.le_trans h (by decide)) _).trans ?_
    refine (cut_append_left (Nat.le_trans h (by decide)) _).trans ?_
    exact cut_append_left h _
  have hpath : (encodePermsRecord status path entry).cut 1 pathMax (by decide)
      = pathField path := by
    refine (hleft (by decide) _).trans ?_
    refine (cut_append_left (by decide) _).trans ?_
    exact (cut_append_left (by decide) _).trans (cut_append_right _)
  have huid : (encodePermsRecord status path entry).cut (1 + pathMax) 4 (by decide)
      = toLE 4 entry.uid.toNat := by
    refine (hleft (by decide) _).trans ?_
    exact (cut_append_left (by decide) _).trans (cut_append_right _)
  have hgid : (encodePermsRecord status path entry).cut (1 + pathMax + 4) 4 (by decide)
      = toLE 4 entry.gid.toNat :=
    (hleft (by decide) _).trans (cut_append_right _)
  have howner : (encodePermsRecord status path entry).1.getD (1 + pathMax + 8) 0
      = entry.ownerRwx.bits := by
    refine (getD_append_left (by decide)).trans ?_
    exact (getD_append_left (by decide)).trans getD_append_right
  have hgroup : (encodePermsRecord status path entry).1.getD (1 + pathMax + 9) 0
      = entry.groupRwx.bits :=
    (getD_append_left (by decide)).trans getD_append_right
  have hworld : (encodePermsRecord status path entry).1.getD (1 + pathMax + 10) 0
      = entry.worldRwx.bits :=
    getD_append_right
  unfold decodePermsRecord
  dsimp only
  rw [hpath, huid, hgid, howner, hgroup, hworld, ofNat_ofLE_toLE, ofNat_ofLE_toLE,
    pathOf_pathField h]
  rfl

/-! ## Formats -/

/-- The records of a table, and the pairs of a key and a value that they can hold. -/
structure RecordFormat (κ β : Type) where
  size : Nat
  size_pos : 0 < size
  encode : UInt8 → κ × β → Block size
  decode : Block size → UInt8 × κ × β
  Holds : κ × β → Prop
  decode_holds : ∀ buf, Holds (decode buf).2
  decode_encode : ∀ status kv, Holds kv → decode (encode status kv) = (status, kv)

/-- Records of users. -/
def authFormat : RecordFormat UInt32 AuthEntry where
  size := authRecordSize
  size_pos := by decide
  encode status kv := encodeAuthRecord status kv.2
  decode buf := ((decodeAuthRecord buf).1, (decodeAuthRecord buf).2.uid, (decodeAuthRecord buf).2)
  Holds kv := kv.1 = kv.2.uid
  decode_holds _ := rfl
  decode_encode status kv h := by
    obtain ⟨uid, entry⟩ := kv
    obtain rfl : uid = entry.uid := h
    rw [decode_encodeAuthRecord]

/-- Records of permissions. -/
def permsFormat : RecordFormat Path PermEntry where
  size := permsRecordSize
  size_pos := by decide
  encode status kv := encodePermsRecord status kv.1 kv.2
  decode := decodePermsRecord
  Holds kv := Fits kv.1
  decode_holds _ := pathOf_fits _
  decode_encode status kv h := decode_encodePermsRecord status kv.2 h

end AlaphiOS.Fs
