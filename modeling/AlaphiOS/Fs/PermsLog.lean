import AlaphiOS.Fs.SystemDomain

/-!
# `perms.db` as a log

`append_perms_entry` of `kernel/src/fs/system_domain.rs`, call after call on an empty
file, and what `load_perms_db` then loads. A record has 64 bytes for a path that can be
of any length and may hold zeros: a longer one is cut, one with a zero ends there, and one
that is cut inside a character is read as the empty path. None of them is a path a record
gives back (`pathOf_fits`), so the table is the one that was appended exactly when every
path fits (`perms_round_trip_iff`).
-/

namespace AlaphiOS.Fs

open Std AlaphiOS.Lib

/-- `append_perms_entry`. -/
def appendPermsEntry (file : Option (List UInt8)) (path : Path) (entry : PermEntry) : List UInt8 :=
  appendBytes permsFormat file (path, entry) permsRecordSize

/-- The file after some `append_perms_entry`s. -/
def appendPerms (file : Option (List UInt8)) (calls : List (Path × PermEntry)) :
    Option (List UInt8) :=
  calls.foldl (fun file call => some (appendPermsEntry file call.1 call.2)) file

variable {file : Option (List UInt8)} {calls : List (Path × PermEntry)} {path : Path}

theorem appendPerms_eq (hempty : file.getD [] = []) :
    (appendPerms file calls).getD [] = permsFormat.encodeAll calls := by
  have happend := foldl_appendBytes (F := permsFormat) calls file
  rw [hempty] at happend
  exact happend

/-- What `load_perms_db` makes of the file. -/
theorem loadPermsDb_appendPerms (split : Nat → Nat) (hempty : file.getD [] = []) :
    loadPermsDb split (appendPerms file calls) ∅
      = some (permsFormat.isDirty (permsFormat.encodeAll calls),
          insertAll ∅ (permsFormat.entries (permsFormat.encodeAll calls))) := by
  unfold loadPermsDb
  rw [loadDb_eq, appendPerms_eq hempty]

/-- No record is read back as a path that does not fit. -/
theorem fits_of_loaded {bytes : List UInt8} {entry : PermEntry}
    (h : lastOf (permsFormat.entries bytes) path = some entry) : Fits path :=
  RecordFormat.holds_of_mem_entries (F := permsFormat) (mem_of_lastOf h)

/-- **`perms.db` gives back what was appended exactly when every path fits.** However reads
are split, a file that was empty and had any entries appended is loaded as the map from
each path to its last entry if every path has 64 bytes at most and no zero, and not
otherwise. -/
theorem perms_round_trip_iff (split : Nat → Nat) (hempty : file.getD [] = [])
    (calls : List (Path × PermEntry)) :
    ∃ dirty table, loadPermsDb split (appendPerms file calls) ∅ = some (dirty, table) ∧
      ((∀ path, lookup table path = lastOf calls path) ↔ ∀ call ∈ calls, Fits call.1) := by
  refine ⟨_, _, loadPermsDb_appendPerms split hempty, ?_⟩
  constructor
  · intro hsame call hcall
    -- a path that was appended has a last entry, so some record was read back as it
    obtain ⟨entry, hentry⟩ := exists_lastOf hcall
    rw [← hsame, lookup_insertAll_empty] at hentry
    exact fits_of_loaded hentry
  · intro hfits path
    rw [lookup_insertAll_empty, entries_encodeAll (F := permsFormat) hfits]

/-- An entry with a number for its owner. -/
def permOf (uid : UInt32) : PermEntry := ⟨uid, 0, ⟨7⟩, ⟨5⟩, ⟨5⟩⟩

/-- Two files, one of them twice. -/
theorem perms_round_trip_twoFiles :
    ∃ dirty table, loadPermsDb id (appendPerms none
        [("/a".toList, permOf 1), ("/b".toList, permOf 2), ("/a".toList, permOf 3)]) ∅
          = some (dirty, table) ∧
      lookup table "/a".toList = some (permOf 3) ∧ lookup table "/b".toList = some (permOf 2) ∧
      lookup table "/c".toList = none := by
  have hempty : (none : Option (List UInt8)).getD [] = [] := rfl
  obtain ⟨dirty, table, hload, hiff⟩ := perms_round_trip_iff id hempty
    [("/a".toList, permOf 1), ("/b".toList, permOf 2), ("/a".toList, permOf 3)]
  have hsame := hiff.mpr (by unfold Fits; decide +kernel)
  refine ⟨dirty, table, hload, ?_, ?_, ?_⟩
  · exact (hsame _).trans (by decide +kernel)
  · exact (hsame _).trans (by decide +kernel)
  · exact (hsame _).trans (by decide +kernel)

/-- A path of 65 bytes. -/
def longPath : Path := '/' :: List.replicate 64 'a'

/-- It is lost, and its entry is that of another path. -/
theorem long_path_altered :
    ∃ dirty table, loadPermsDb id (appendPerms none [(longPath, permOf 1)]) ∅ = some (dirty, table) ∧
      lookup table longPath = none ∧ lookup table (longPath.take 64) = some (permOf 1) := by
  refine ⟨_, _, loadPermsDb_appendPerms id rfl, ?_, ?_⟩
  · rw [lookup_insertAll_empty]
    decide +kernel
  · rw [lookup_insertAll_empty]
    decide +kernel

end AlaphiOS.Fs
