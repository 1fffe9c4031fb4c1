import AlaphiOS.Fs.SystemRecords
import AlaphiOS.Lib.Records

/-!
# The `/.system` files

`kernel/src/fs/system_domain.rs`. At boot the password and permission tables are read
from `auth.db` and `perms.db`, record by record. A record marked dirty is skipped, and
so is the torn tail a crash can leave; a file that had either is rewritten from the
table and cut. Later entries are appended.

Mirroring notes:
- A file is its bytes, `none` if there is no file. Reads come in chunks whose lengths
  are arbitrary: `split i` bytes and one at most by the `i`-th call, at least one
  unless the file is at its end. Writes and `truncate` succeed.
- `none` as a result: the loop has not ended (`loadDb_eq`: it does).
- The two loaders and the two repairs differ in the codec only; they are `loadDb` and
  `repairDb` at `authFormat` and `permsFormat`. The messages are left out.

`boot_sound_idempotent` is what booting makes of two files of any content,
`auth_log_faithful` that appending entries to what it leaves is a log.
-/

namespace AlaphiOS.Fs

open Std AlaphiOS.Lib Option RecordFormat

/-! ## Reading -/

/-- An open file: what is left to read, and how many reads there were. -/
structure FileReader where
  rest : List UInt8
  calls : Nat

/-- `file.read(&mut buf)` into `len` bytes. -/
def FileReader.read (split : Nat → Nat) (file : FileReader) (len : Nat) :
    List UInt8 × FileReader :=
  let n := min (split file.calls + 1) len
  (file.rest.take n, ⟨file.rest.drop n, file.calls + 1⟩)

/-- The loop of `read_exact_or_eof`, with `got` in the buffer: a full buffer, nothing at
the end of the file, or an error behind a torn tail. -/
def readExactOrEof (split : Nat → Nat) (size fuel : Nat) (got : List UInt8) (file : FileReader) :
    Option (Except Unit (Option (Block size)) × FileReader) :=
  if h : got.length = size then some (.ok (some ⟨got, h⟩), file)
  else
    match fuel with
    | 0 => none
    | fuel + 1 =>
      let (chunk, file) := file.read split (size - got.length)
      -- nothing was read: the end of the file, between two records or inside one
      if chunk = [] then some (if got = [] then .ok none else .error (), file)
      else readExactOrEof split size fuel (got ++ chunk) file

section

variable {κ β : Type} [Ord κ] (F : RecordFormat κ β)

/-- The loop of `load_auth_db` and `load_perms_db`. -/
def loadLoop (split : Nat → Nat) : Nat → Bool → TreeMap κ β → FileReader →
    Option (Bool × TreeMap κ β)
  | 0, _, _, _ => none
  | fuel + 1, dirty, table, file =>
    (readExactOrEof split F.size F.size [] file).bind fun
      | (.ok (some buf), file) =>
        if (F.decode buf).1 = statusDirty then loadLoop split fuel true table file
        else
          loadLoop split fuel dirty (table.insert (F.decode buf).2.1 (F.decode buf).2.2) file
      | (.ok none, _) => some (dirty, table)
      -- the file is repaired, which cuts the torn tail off
      | (.error (), _) => some (true, table)

/-- `load_auth_db` and `load_perms_db`: whether the file is to be repaired, and the
table. -/
def loadDb (split : Nat → Nat) (file : Option (List UInt8)) (table : TreeMap κ β) :
    Option (Bool × TreeMap κ β) :=
  match file with
  | none => some (false, table)
  | some bytes => loadLoop F split (bytes.length + 1) false table ⟨bytes, 0⟩

end

/-! ## Writing -/

/-- A file open for writing. -/
structure FileWriter where
  bytes : List UInt8
  pos : Nat

/-- `create_file` opens a file that exists. -/
def FileWriter.create (file : Option (List UInt8)) : FileWriter := ⟨file.getD [], 0⟩

/-- `seek(SeekFrom::End(0))`. -/
def FileWriter.seekEnd (file : FileWriter) : FileWriter := { file with pos := file.bytes.length }

/-- `write_all`. -/
def FileWriter.writeAll (file : FileWriter) (buf : List UInt8) : FileWriter :=
  ⟨splice file.bytes file.pos buf, file.pos + buf.length⟩

/-- `truncate`: the file ends at the position. -/
def FileWriter.truncate (file : FileWriter) : FileWriter :=
  { file with bytes := file.bytes.take file.pos }

section

variable {κ β : Type} [Ord κ] (F : RecordFormat κ β)

/-- `repair_auth_db` and `repair_perms_db` up to `truncate`. -/
def rewrite (file : Option (List UInt8)) (table : TreeMap κ β) : FileWriter :=
  table.toList.foldl (fun file kv => file.writeAll (F.encode statusClean kv).1)
    (FileWriter.create file)

/-- `repair_auth_db` and `repair_perms_db`. -/
def repairDb (file : Option (List UInt8)) (table : TreeMap κ β) : List UInt8 :=
  (rewrite F file table).truncate.bytes

/-- `append_auth_entry` and `append_perms_entry`, if the first `n` bytes of the record
reach the file. -/
def appendBytes (file : Option (List UInt8)) (kv : κ × β) (n : Nat) : List UInt8 :=
  ((FileWriter.create file).seekEnd.writeAll ((F.encode statusClean kv).1.take n)).bytes

end

/-! ## The two tables -/

/-- The two files. -/
structure SystemFiles where
  auth : Option (List UInt8)
  perms : Option (List UInt8)

/-- What `load_at_boot` leaves, with its two local variables. -/
structure Boot where
  auth : AuthDb
  perms : PermsDb
  authDirty : Bool
  permsDirty : Bool
  files : SystemFiles

/-- `load_auth_db`. -/
def loadAuthDb := loadDb authFormat

/-- `load_perms_db`. -/
def loadPermsDb := loadDb permsFormat

/-- `repair_auth_db`. -/
def repairAuthDb := repairDb authFormat

/-- `repair_perms_db`. -/
def repairPermsDb := repairDb permsFormat

/-- `append_auth_entry`. -/
def appendAuthEntry (file : Option (List UInt8)) (entry : AuthEntry) : List UInt8 :=
  appendBytes authFormat file (entry.uid, entry) authRecordSize

/-- `load_at_boot`; each file has its own way of splitting reads. -/
def loadAtBoot (split split' : Nat → Nat) (files : SystemFiles) (auth : AuthDb)
    (perms : PermsDb) : Option Boot := do
  let (authDirty, auth) ← loadAuthDb split files.auth auth
  let (permsDirty, perms) ← loadPermsDb split' files.perms perms
  some
    { auth, perms, authDirty, permsDirty
      files :=
        { auth := if authDirty then some (repairAuthDb files.auth auth) else files.auth
          perms := if permsDirty then some (repairPermsDb files.perms perms) else files.perms } }

/-! ## What loading makes of a file -/

namespace RecordFormat

variable {κ β : Type} (F : RecordFormat κ β)

/-- The pair in a record, unless it is marked dirty. -/
def entry (buf : Block F.size) : Option (κ × β) :=
  if (F.decode buf).1 = statusDirty then none else some (F.decode buf).2

/-- The pairs in the complete records that are not marked dirty. -/
def entries (bytes : List UInt8) : List (κ × β) := (records F.size bytes).filterMap F.entry

/-- Some record is marked dirty, or the tail is torn. -/
def isDirty (bytes : List UInt8) : Bool :=
  (records F.size bytes).any (fun buf => (F.decode buf).1 = statusDirty) ||
    bytes.length % F.size ≠ 0

variable {F} {bytes : List UInt8}

theorem entries_of_le (h : F.size ≤ bytes.length) :
    F.entries bytes = (F.entry ⟨bytes.take F.size, List.length_take_of_le h⟩).toList
      ++ F.entries (bytes.drop F.size) := by
  unfold entries
  rw [records_of_le F.size_pos h]
  cases he : F.entry ⟨bytes.take F.size, List.length_take_of_le h⟩ with
  | none => rw [List.filterMap_cons_none he]; rfl
  | some kv => rw [List.filterMap_cons_some he]; rfl

theorem isDirty_of_le (h : F.size ≤ bytes.length) :
    F.isDirty bytes
      = (decide ((F.decode ⟨bytes.take F.size, List.length_take_of_le h⟩).1 = statusDirty) ||
        F.isDirty (bytes.drop F.size)) := by
  unfold isDirty
  rw [records_of_le F.size_pos h, List.any_cons, List.length_drop, Bool.or_assoc,
    ← Nat.mod_eq_sub_mod h]

theorem entries_of_lt (h : bytes.length < F.size) : F.entries bytes = [] := by
  unfold entries
  rw [records_of_lt h]
  rfl

theorem isDirty_of_lt (h : bytes.length < F.size) : F.isDirty bytes = decide (bytes ≠ []) := by
  unfold isDirty
  rw [records_of_lt h, Nat.mod_eq_of_lt h, List.any_nil, Bool.false_or]
  cases bytes <;> rfl

theorem entries_nil : F.entries [] = [] := rfl

theorem isDirty_nil : F.isDirty [] = false :=
  isDirty_of_lt (show ([] : List UInt8).length < F.size from F.size_pos)

/-- A clean file is whole records, none of them dirty. -/
theorem clean_iff : F.isDirty bytes = false ↔
    (records F.size bytes).any (fun buf => (F.decode buf).1 = statusDirty) = false ∧
      bytes.length % F.size = 0 := by
  unfold isDirty
  rw [Bool.or_eq_false_iff, decide_eq_false_iff_not, Decidable.not_not]

/-- What follows a clean file is read as if it stood alone. -/
theorem records_append (h : F.isDirty bytes = false) (tail : List UInt8) :
    records F.size (bytes ++ tail) = records F.size bytes ++ records F.size tail := by
  rw [← records_join_append F.size_pos, join_records F.size_pos (clean_iff.mp h).2]

theorem entries_append (h : F.isDirty bytes = false) (tail : List UInt8) :
    F.entries (bytes ++ tail) = F.entries bytes ++ F.entries tail := by
  unfold entries
  rw [records_append h, List.filterMap_append]

theorem clean_append {tail : List UInt8} (h : F.isDirty bytes = false)
    (htail : F.isDirty tail = false) : F.isDirty (bytes ++ tail) = false := by
  rw [clean_iff] at htail ⊢
  rw [records_append h, List.any_append, (clean_iff.mp h).1, htail.1, List.length_append,
    Nat.add_mod, (clean_iff.mp h).2, htail.2]
  exact ⟨rfl, Nat.zero_mod _⟩

theorem holds_of_mem_entries {kv : κ × β} (h : kv ∈ F.entries bytes) : F.Holds kv := by
  obtain ⟨buf, _, hbuf⟩ := List.mem_filterMap.mp h
  unfold entry at hbuf
  split at hbuf
  · cases hbuf
  · cases hbuf
    exact F.decode_holds buf

end RecordFormat

/-! ## The loops end -/

section

variable {split : Nat → Nat} {size : Nat}

/-- What `read_exact_or_eof` makes of the bytes that are left. -/
def outcome (size : Nat) (bytes : List UInt8) : Except Unit (Option (Block size)) :=
  if h : size ≤ bytes.length then .ok (some ⟨bytes.take size, List.length_take_of_le h⟩)
  else if bytes = [] then .ok none
  else .error ()

/-- A read returns at least one byte and no more than were asked for. -/
theorem FileReader.read_eq (split : Nat → Nat) (file : FileReader) {len : Nat} (h : 0 < len) :
    ∃ n, 0 < n ∧ n ≤ len ∧
      file.read split len = (file.rest.take n, ⟨file.rest.drop n, file.calls + 1⟩) :=
  ⟨min (split file.calls + 1) len, by omega, by omega, rfl⟩

theorem readExactOrEof_full {fuel : Nat} {got : List UInt8} {file : FileReader}
    (h : got.length = size) :
    readExactOrEof split size fuel got file
      = some (outcome size (got ++ file.rest), ⟨(got ++ file.rest).drop size, file.calls⟩) := by
  have hle : size ≤ (got ++ file.rest).length := by rw [List.length_append]; omega
  have hout : outcome size (got ++ file.rest) = .ok (some ⟨got, h⟩) := by
    unfold outcome
    rw [dif_pos hle]
    congr 3
    exact List.take_left' h
  rw [readExactOrEof.eq_def, dif_pos h, hout, List.drop_left' h]

/-- However the reads are split. The buffer and what is left to read are together the
same bytes in every round. -/
theorem readExactOrEof_eq (split : Nat → Nat) (size : Nat) (fuel : Nat) (got : List UInt8)
    (file : FileReader) (hle : got.length ≤ size) (hfuel : size ≤ got.length + fuel) :
    ∃ calls, readExactOrEof split size fuel got file
      = some (outcome size (got ++ file.rest), ⟨(got ++ file.rest).drop size, calls⟩) := by
  induction fuel generalizing got file with
  | zero => exact ⟨file.calls, readExactOrEof_full (by omega)⟩
  | succ fuel ih =>
    by_cases hfull : got.length = size
    · exact ⟨file.calls, readExactOrEof_full hfull⟩
    · obtain ⟨n, hpos, hn, hread⟩ :=
        file.read_eq split (show 0 < size - got.length by omega)
      rw [readExactOrEof, dif_neg hfull, hread]
      dsimp only
      cases hrest : file.rest with
      | nil =>
        -- the end of the file
        have hshort : ¬ size ≤ (got ++ []).length := by rw [List.append_nil]; omega
        refine ⟨file.calls + 1, ?_⟩
        rw [if_pos List.take_nil, List.drop_nil, outcome, dif_neg hshort, List.append_nil,
          List.drop_of_length_le hle]
      | cons b bs =>
        have hchunk : (b :: bs).take n ≠ [] := by
          obtain ⟨m, rfl⟩ := Nat.exists_eq_add_of_lt hpos
          rw [Nat.zero_add, List.take_succ_cons]
          exact List.cons_ne_nil _ _
        have hlen := List.length_take_le n (b :: bs)
        have hgot : 0 < ((b :: bs).take n).length := List.length_pos_iff.mpr hchunk
        obtain ⟨calls, ih⟩ := ih (got ++ (b :: bs).take n) ⟨(b :: bs).drop n, file.calls + 1⟩
          (by rw [List.length_append]; omega) (by rw [List.length_append]; omega)
        rw [List.append_assoc, List.take_append_drop] at ih
        exact ⟨calls, by rw [if_neg hchunk, ih]⟩

variable {κ β : Type} [Ord κ] {F : RecordFormat κ β}

theorem loadLoop_eq : ∀ (fuel : Nat) (dirty : Bool) (table : TreeMap κ β) (file : FileReader),
    file.rest.length < fuel →
      loadLoop F split fuel dirty table file
        = some (dirty || F.isDirty file.rest, insertAll table (F.entries file.rest)) := by
  intro fuel
  -- A round consumes a whole record or ends the loop.
  induction fuel with
  | zero => exact fun _ _ _ h => absurd h (Nat.not_lt_zero _)
  | succ fuel ih =>
    intro dirty table file hfuel
    have hsize := F.size_pos
    obtain ⟨calls, hread⟩ := readExactOrEof_eq split F.size F.size [] file
      (Nat.zero_le _) (by rw [List.length_nil]; omega)
    rw [List.nil_append] at hread
    rw [loadLoop, hread, bind_some, outcome]
    -- A record that is not whole ends the loop, and makes the file dirty unless it is empty.
    by_cases hle : F.size ≤ file.rest.length
    · have hih := fun dirty table => ih dirty table ⟨file.rest.drop F.size, calls⟩
        (by rw [List.length_drop]; omega)
      rw [dif_pos hle, entries_of_le hle, isDirty_of_le hle,
        entry]
      dsimp only at hih ⊢
      split
      next hdirty =>
        rw [hih, decide_eq_true hdirty, Bool.true_or, Bool.or_true]
        rfl
      next hclean =>
        rw [hih, decide_eq_false hclean, Bool.false_or]
        rfl
    · have hlt : file.rest.length < F.size := by omega
      rw [dif_neg hle, entries_of_lt hlt, isDirty_of_lt hlt]
      by_cases hnil : file.rest = []
      · rw [if_pos hnil, decide_eq_false (by rw [hnil]; simp), Bool.or_false]
        rfl
      · rw [if_neg hnil, decide_eq_true hnil, Bool.or_true]
        rfl

/-- A file that is not there is loaded as an empty one. -/
theorem loadDb_eq (split : Nat → Nat) (file : Option (List UInt8)) (table : TreeMap κ β) :
    loadDb F split file table
      = some (F.isDirty (file.getD []), insertAll table (F.entries (file.getD []))) := by
  cases file with
  | none =>
    rw [getD_none, isDirty_nil, entries_nil]
    rfl
  | some bytes => exact loadLoop_eq _ false table ⟨bytes, 0⟩ (Nat.lt_succ_self _)

end

/-! ## What a repair leaves -/

section

/-- Arrays written one behind the other. -/
theorem foldl_writeAll {n : Nat} (bs : List (Block n)) : ∀ (file : FileWriter),
    file.pos ≤ file.bytes.length →
      bs.foldl (fun file b => file.writeAll b.1) file
        = ⟨splice file.bytes file.pos (join bs), file.pos + (join bs).length⟩ := by
  induction bs with
  | nil =>
    intro file _
    show file = ⟨splice file.bytes file.pos [], file.pos⟩
    rw [splice, List.append_nil, List.length_nil, Nat.add_zero, List.take_append_drop]
  | cons b bs ih =>
    intro file hpos
    have hlen : (file.writeAll b.1).pos ≤ (file.writeAll b.1).bytes.length := by
      show file.pos + b.1.length ≤ (file.bytes.take file.pos ++ b.1 ++ _).length
      rw [List.length_append, List.length_append, List.length_take_of_le hpos]
      omega
    rw [List.foldl_cons, ih _ hlen, join_cons]
    show FileWriter.mk (splice (splice _ _ _) (_ + _) _) _ = _
    rw [splice_splice hpos, List.length_append, ← Nat.add_assoc]
    rfl

variable {κ β : Type} {F : RecordFormat κ β} {l : List (κ × β)}

/-- The clean records of some pairs. -/
def RecordFormat.encodeAll (F : RecordFormat κ β) (l : List (κ × β)) : List UInt8 :=
  join (l.map (F.encode statusClean))

theorem rewrite_eq [Ord κ] (file : Option (List UInt8)) (table : TreeMap κ β) :
    rewrite F file table
      = ⟨splice (file.getD []) 0 (F.encodeAll table.toList), (F.encodeAll table.toList).length⟩ := by
  have h := foldl_writeAll (table.toList.map (F.encode statusClean)) (FileWriter.create file)
    (Nat.zero_le _)
  rw [List.foldl_map] at h
  show table.toList.foldl _ _ = _
  rw [h]
  show FileWriter.mk _ (0 + _) = _
  rw [Nat.zero_add]
  rfl

theorem repairDb_eq [Ord κ] (file : Option (List UInt8)) (table : TreeMap κ β) :
    repairDb F file table = F.encodeAll table.toList := by
  show (rewrite F file table).bytes.take (rewrite F file table).pos = _
  rw [rewrite_eq]
  show ((file.getD []).take 0 ++ _ ++ _).take _ = _
  rw [List.take_zero, List.nil_append, List.take_left]

theorem entry_encode {kv : κ × β} (h : F.Holds kv) :
    F.entry (F.encode statusClean kv) = some kv := by
  unfold entry
  rw [F.decode_encode statusClean kv h, if_neg (by show statusClean ≠ statusDirty; decide)]

theorem filterMap_entry_encode (h : ∀ kv ∈ l, F.Holds kv) :
    (l.map (F.encode statusClean)).filterMap F.entry = l := by
  rw [List.filterMap_map]
  induction l with
  | nil => rfl
  | cons kv l ih =>
    have hkv : (F.entry ∘ F.encode statusClean) kv = some kv :=
      entry_encode (h kv List.mem_cons_self)
    rw [List.filterMap_cons_some hkv, ih fun kv hkv => h kv (List.mem_cons_of_mem _ hkv)]

/-- Pairs that were written are loaded again. -/
theorem entries_encodeAll (h : ∀ kv ∈ l, F.Holds kv) : F.entries (F.encodeAll l) = l := by
  unfold entries encodeAll
  rw [records_join F.size_pos, filterMap_entry_encode h]

theorem clean_encodeAll (h : ∀ kv ∈ l, F.Holds kv) : F.isDirty (F.encodeAll l) = false := by
  unfold encodeAll
  rw [clean_iff, records_join F.size_pos, length_join, Nat.mul_mod_left,
    List.any_map, List.any_eq_false]
  refine ⟨fun kv hkv => ?_, rfl⟩
  show ¬ decide ((F.decode (F.encode statusClean kv)).1 = statusDirty) = true
  rw [F.decode_encode statusClean kv (h kv hkv)]
  show ¬ decide (statusClean = statusDirty) = true
  decide

end

/-! ## Booting -/

namespace RecordFormat

section

variable {κ β : Type} [Ord κ] (F : RecordFormat κ β)

/-- The table that a file is loaded as. -/
def table (file : Option (List UInt8)) : TreeMap κ β := insertAll ∅ (F.entries (file.getD []))

/-- The file after it was loaded, and repaired if it had to be. -/
def afterBoot (file : Option (List UInt8)) : Option (List UInt8) :=
  if F.isDirty (file.getD []) then some (repairDb F file (F.table file)) else file

variable {F} {file : Option (List UInt8)}

theorem afterBoot_of_clean (h : F.isDirty (file.getD []) = false) : F.afterBoot file = file := by
  unfold afterBoot
  rw [h]
  rfl

variable [DecidableEq κ] [TransOrd κ] [LawfulEqOrd κ]

theorem lookup_table (k : κ) : lookup (F.table file) k = lastOf (F.entries (file.getD [])) k :=
  lookup_insertAll_empty

/-- A table that was loaded can be written. -/
theorem holds_of_mem_table (file : Option (List UInt8)) {kv : κ × β}
    (h : kv ∈ (F.table file).toList) : F.Holds kv := by
  have hlookup := mem_toList_iff.mp h
  rw [lookup_table] at hlookup
  exact holds_of_mem_entries (mem_of_lastOf hlookup)

/-- The file is clean, and holds the table it was loaded as. -/
theorem afterBoot_clean : F.isDirty ((F.afterBoot file).getD []) = false := by
  unfold afterBoot
  split
  · rw [getD_some, repairDb_eq]
    exact clean_encodeAll fun _ => holds_of_mem_table file
  next h => exact Bool.eq_false_iff.mpr h

theorem lookup_afterBoot (k : κ) :
    lookup (F.table (F.afterBoot file)) k = lookup (F.table file) k := by
  unfold afterBoot
  split
  · rw [lookup_table, getD_some, repairDb_eq,
      entries_encodeAll fun _ => holds_of_mem_table file, lastOf_toList]
  · rfl

end

end RecordFormat

/-- Booting from empty tables. -/
theorem loadAtBoot_eq (split split' : Nat → Nat) (files : SystemFiles) :
    loadAtBoot split split' files ∅ ∅ = some
      { auth := authFormat.table files.auth
        perms := permsFormat.table files.perms
        authDirty := authFormat.isDirty (files.auth.getD [])
        permsDirty := permsFormat.isDirty (files.perms.getD [])
        files := ⟨authFormat.afterBoot files.auth, permsFormat.afterBoot files.perms⟩ } := by
  unfold loadAtBoot loadAuthDb loadPermsDb
  rw [loadDb_eq, loadDb_eq]
  rfl

/-- **Boot repair is sound and idempotent.** Whatever the two files hold and however reads
are split, booting leaves under each key the last complete record that is not marked
dirty; booting again, from the files it leaves, finds nothing dirty and loads the same
tables. -/
theorem boot_sound_idempotent (split split' : Nat → Nat) (files : SystemFiles) :
    ∃ b, loadAtBoot split split' files ∅ ∅ = some b ∧
      (∀ uid, lookup b.auth uid = lastOf (authFormat.entries (files.auth.getD [])) uid) ∧
      (∀ path, lookup b.perms path = lastOf (permsFormat.entries (files.perms.getD [])) path) ∧
      ∀ again again' : Nat → Nat, ∃ b', loadAtBoot again again' b.files ∅ ∅ = some b' ∧
        lookup b'.auth = lookup b.auth ∧ lookup b'.perms = lookup b.perms ∧
        b'.authDirty = false ∧ b'.permsDirty = false ∧ b'.files = b.files := by
  refine ⟨_, loadAtBoot_eq split split' files, fun uid => RecordFormat.lookup_table uid,
    fun path => RecordFormat.lookup_table path, fun again again' => ?_⟩
  refine ⟨_, loadAtBoot_eq again again' _, funext fun uid => RecordFormat.lookup_afterBoot uid,
    funext fun path => RecordFormat.lookup_afterBoot path, RecordFormat.afterBoot_clean,
    RecordFormat.afterBoot_clean, ?_⟩
  dsimp only
  rw [RecordFormat.afterBoot_of_clean RecordFormat.afterBoot_clean,
    RecordFormat.afterBoot_of_clean RecordFormat.afterBoot_clean]

/-! ## The log -/

/-- An entry with its key. -/
def AuthEntry.keyed (entry : AuthEntry) : UInt32 × AuthEntry := (entry.uid, entry)

/-- The file after some `append_auth_entry`s. -/
def appendAll (file : Option (List UInt8)) (entries : List AuthEntry) : Option (List UInt8) :=
  entries.foldl (fun file entry => some (appendAuthEntry file entry)) file

/-- The last `append_auth_entry` may be cut off after some bytes. -/
def appendCut (file : Option (List UInt8)) : Option (AuthEntry × Nat) → Option (List UInt8)
  | none => file
  | some (entry, n) => some (appendBytes authFormat file entry.keyed n)

/-- The entry of the last one, if all its bytes reached the file. -/
def fullyWritten : Option (AuthEntry × Nat) → List AuthEntry
  | none => []
  | some (entry, n) => if authRecordSize ≤ n then [entry] else []

theorem holds_keyed (entries : List AuthEntry) :
    ∀ kv ∈ entries.map AuthEntry.keyed, authFormat.Holds kv := by
  intro kv hkv
  obtain ⟨entry, _, rfl⟩ := List.mem_map.mp hkv
  rfl

/-- Appended bytes are behind those of the file. -/
theorem appendBytes_eq {κ β : Type} [Ord κ] {F : RecordFormat κ β} (file : Option (List UInt8))
    (kv : κ × β) (n : Nat) :
    appendBytes F file kv n = file.getD [] ++ (F.encode statusClean kv).1.take n := by
  show splice (file.getD []) (file.getD []).length _ = _
  rw [splice, List.take_length, List.drop_of_length_le (by omega), List.append_nil]

/-- All of them are a record. -/
theorem take_encode {κ β : Type} {F : RecordFormat κ β} (kv : κ × β) {n : Nat} (h : F.size ≤ n) :
    (F.encode statusClean kv).1.take n = F.encodeAll [kv] := by
  have hlen : (F.encode statusClean kv).1.length = F.size := (F.encode statusClean kv).2
  rw [List.take_of_length_le (Nat.le_trans (Nat.le_of_eq hlen) h)]
  exact (List.append_nil _).symm

/-- Records that are appended one by one. -/
theorem foldl_appendBytes {κ β : Type} [Ord κ] {F : RecordFormat κ β} (kvs : List (κ × β))
    (file : Option (List UInt8)) :
    (kvs.foldl (fun file kv => some (appendBytes F file kv F.size)) file).getD []
      = file.getD [] ++ F.encodeAll kvs := by
  induction kvs generalizing file with
  | nil => exact (List.append_nil _).symm
  | cons kv kvs ih =>
    rw [List.foldl_cons, ih, getD_some, appendBytes_eq, take_encode kv (Nat.le_refl _),
      List.append_assoc]
    congr 1
    exact List.flatMap_append.symm

theorem appendAll_eq (file : Option (List UInt8)) (entries : List AuthEntry) :
    (appendAll file entries).getD []
      = file.getD [] ++ authFormat.encodeAll (entries.map AuthEntry.keyed) := by
  rw [← foldl_appendBytes, List.foldl_map]
  rfl

/-- A record that was cut is no record. -/
theorem entries_appendCut {file : Option (List UInt8)}
    (h : authFormat.isDirty (file.getD []) = false) (cut : Option (AuthEntry × Nat)) :
    authFormat.entries ((appendCut file cut).getD [])
      = authFormat.entries (file.getD []) ++ (fullyWritten cut).map AuthEntry.keyed := by
  cases cut with
  | none => exact (List.append_nil _).symm
  | some cut =>
    obtain ⟨entry, n⟩ := cut
    show authFormat.entries (appendBytes authFormat file entry.keyed n) = _
    rw [appendBytes_eq, entries_append h]
    congr 1
    by_cases hn : authRecordSize ≤ n
    · have hwhole : authFormat.size ≤ n := hn
      rw [take_encode entry.keyed hwhole, fullyWritten, if_pos hn]
      exact entries_encodeAll (holds_keyed [entry])
    · have hshort : ((authFormat.encode statusClean entry.keyed).1.take n).length
          < authFormat.size := by
        rw [List.length_take]
        show min n _ < authRecordSize
        omega
      rw [entries_of_lt hshort, fullyWritten, if_neg hn]
      rfl

/-- **`auth.db` is a log.** Whatever it held, after a boot and any appended entries, the
last of them possibly cut off, the next boot loads the first table updated by the
entries that were written in full, in order. -/
theorem auth_log_faithful (split split' : Nat → Nat) (files : SystemFiles) :
    ∃ b, loadAtBoot split split' files ∅ ∅ = some b ∧
      ∀ (entries : List AuthEntry) (cut : Option (AuthEntry × Nat)) (again again' : Nat → Nat),
        ∃ b', loadAtBoot again again'
            { b.files with auth := appendCut (appendAll b.files.auth entries) cut } ∅ ∅ = some b' ∧
          lookup b'.auth = lookup ((entries ++ fullyWritten cut).foldl AuthDb.put b.auth) := by
  refine ⟨_, loadAtBoot_eq split split' files, fun entries cut again again' => ?_⟩
  refine ⟨_, loadAtBoot_eq again again' _, funext fun uid => ?_⟩
  dsimp only
  generalize hbase : authFormat.afterBoot files.auth = base
  have hclean : authFormat.isDirty (base.getD []) = false := by
    rw [← hbase]
    exact RecordFormat.afterBoot_clean
  have hsame : lookup (authFormat.table files.auth) uid
      = lastOf (authFormat.entries (base.getD [])) uid := by
    rw [← hbase, ← RecordFormat.lookup_table, RecordFormat.lookup_afterBoot]
  -- the entries of the new file: those of the old one, then the appended ones
  have hentries : authFormat.entries ((appendCut (appendAll base entries) cut).getD [])
      = authFormat.entries (base.getD []) ++ (entries ++ fullyWritten cut).map AuthEntry.keyed := by
    have happended := clean_encodeAll (holds_keyed entries)
    rw [entries_appendCut (by rw [appendAll_eq]; exact RecordFormat.clean_append hclean happended),
      appendAll_eq, RecordFormat.entries_append hclean, entries_encodeAll (holds_keyed entries),
      List.append_assoc, List.map_append]
  have hput : (entries ++ fullyWritten cut).foldl AuthDb.put (authFormat.table files.auth)
      = insertAll (authFormat.table files.auth)
        ((entries ++ fullyWritten cut).map AuthEntry.keyed) := by
    unfold insertAll
    rw [List.foldl_map]
    rfl
  rw [RecordFormat.lookup_table, hentries, lastOf_append, hput, lookup_insertAll, hsame]

end AlaphiOS.Fs
