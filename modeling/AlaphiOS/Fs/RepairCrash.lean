import AlaphiOS.Fs.SystemDomain

/-!
# A crash during the repair of `auth.db`

`repair_auth_db` writes the table over the file from the front, in the order of the
uids, and cuts the rest off at the end. If the machine stops in between, the file is
new records, one that is half new and half old, and old records at their old places.
A uid whose old record is in front of that point and whose new one is behind it is
lost (`repair_crash_loses_uid`): the table is held nowhere else.

`repair_survives_crash_iff` says exactly when that does not happen.
-/

namespace AlaphiOS.Fs

open Std AlaphiOS.Lib

section

variable {κ β : Type} [Ord κ] (F : RecordFormat κ β) (old : List UInt8) (table : TreeMap κ β)
  (n : Nat)

/-- The file when `n` bytes of the rewrite have reached it. -/
def crashedRepair : List UInt8 := splice old 0 ((F.encodeAll table.toList).take n)

/-- All bytes: the rewrite is done, the file not yet cut. -/
theorem crashedRepair_all :
    crashedRepair F old table (F.encodeAll table.toList).length
      = (rewrite F (some old) table).bytes := by
  rw [crashedRepair, List.take_length, rewrite_eq]
  rfl

/-- The number of new records that are complete. -/
def rewritten : Nat := ((F.encodeAll table.toList).take n).length / F.size

/-- The pairs of the old records behind the one at which the rewrite stopped. -/
def behind : List (κ × β) := F.entries (old.drop ((rewritten F table n + 1) * F.size))

/-- The pair of that one, as it reads then. -/
def torn : Option (κ × β) :=
  (records F.size (crashedRepair F old table n))[rewritten F table n]?.bind F.entry

/-- A pair of the table has a copy that counts: an old record behind the one at which
the rewrite stopped, or that one, or (unless that one has the key) a new record. -/
def HasCopy (kv : κ × β) : Prop :=
  kv.1 ∈ (behind F old table n).map Prod.fst ∨
    torn F old table n = some kv ∨
    ((torn F old table n).map Prod.fst ≠ some kv.1 ∧ kv.1 ∈ table.keys.take (rewritten F table n))

/-- Every entry has a copy on the disk. -/
def SurvivesCrash : Prop := ∀ kv ∈ table.toList, HasCopy F old table n kv

instance [DecidableEq κ] [DecidableEq β] (kv : κ × β) : Decidable (HasCopy F old table n kv) :=
  inferInstanceAs (Decidable (_ ∨ _ ∨ (_ ∧ _)))

instance [DecidableEq κ] [DecidableEq β] : Decidable (SurvivesCrash F old table n) :=
  inferInstanceAs (Decidable (∀ kv ∈ table.toList, HasCopy F old table n kv))

end

/-! ## What the next boot finds -/

section

variable {κ β : Type} [Ord κ] {F : RecordFormat κ β} {old : List UInt8} {table : TreeMap κ β}
  {n : Nat}

/-- The new records. -/
theorem records_take_crashed :
    (records F.size (crashedRepair F old table n)).take (rewritten F table n)
      = (table.toList.take (rewritten F table n)).map (F.encode statusClean) := by
  generalize hw : (F.encodeAll table.toList).take n = written
  have hq : rewritten F table n * F.size ≤ written.length := by
    unfold rewritten
    rw [hw]
    exact Nat.div_mul_le_self ..
  have hn : rewritten F table n * F.size ≤ n := by
    rw [← hw, List.length_take] at hq
    omega
  have hbytes : (crashedRepair F old table n).take (rewritten F table n * F.size)
      = (F.encodeAll table.toList).take (rewritten F table n * F.size) := by
    unfold crashedRepair splice
    rw [hw, List.take_zero, List.nil_append, List.take_append_of_le_length hq, ← hw,
      List.take_take, Nat.min_eq_left hn]
  rw [← records_take F.size_pos, hbytes, records_take F.size_pos, List.map_take]
  exact congrArg _ (records_join F.size_pos _)

/-- The old ones. -/
theorem records_drop_crashed :
    (records F.size (crashedRepair F old table n)).drop (rewritten F table n + 1)
      = records F.size (old.drop ((rewritten F table n + 1) * F.size)) := by
  generalize hw : (F.encodeAll table.toList).take n = written
  -- the rewrite does not reach beyond the record at which it stopped
  have hq : written.length ≤ (rewritten F table n + 1) * F.size := by
    unfold rewritten
    rw [hw]
    exact Nat.le_of_lt ((Nat.div_lt_iff_lt_mul F.size_pos).mp (Nat.lt_succ_self _))
  rw [← records_drop F.size_pos]
  unfold crashedRepair splice
  rw [hw, List.take_zero, List.nil_append, Nat.zero_add, List.drop_append,
    List.drop_of_length_le hq, List.nil_append, List.drop_drop, Nat.add_sub_cancel' hq]

/-- New records, the one at which the rewrite stopped, old ones. -/
theorem entries_crashed (h : ∀ kv ∈ table.toList, F.Holds kv) :
    F.entries (crashedRepair F old table n)
      = table.toList.take (rewritten F table n)
        ++ ((torn F old table n).toList ++ behind F old table n) := by
  have htorn : ((records F.size (crashedRepair F old table n))[rewritten F table n]?).toList.filterMap
      F.entry = (torn F old table n).toList := by
    unfold torn
    cases (records F.size (crashedRepair F old table n))[rewritten F table n]? with
    | none => rfl
    | some buf => cases hbuf : F.entry buf <;> simp [hbuf]
  unfold RecordFormat.entries
  rw [← List.take_append_drop (rewritten F table n) (records F.size _),
    List.drop_eq_getElem?_toList_append, records_take_crashed, records_drop_crashed,
    List.filterMap_append, List.filterMap_append, htorn,
    filterMap_entry_encode fun kv hkv => h kv (List.mem_of_mem_take hkv)]
  rfl

variable [DecidableEq κ]

/-- An old record behind that point is the one that was loaded before. -/
theorem lastOf_behind {k : κ} {v : β} (h : lastOf (behind F old table n) k = some v) :
    lastOf (F.entries old) k = some v := by
  have hsplit : F.entries old
      = ((records F.size old).take (rewritten F table n + 1)).filterMap F.entry
        ++ behind F old table n := by
    unfold behind RecordFormat.entries
    rw [records_drop F.size_pos, ← List.filterMap_append, List.take_append_drop]
  rw [hsplit, lastOf_append, h]
  rfl

theorem lastOf_torn (k : κ) :
    lastOf (torn F old table n).toList k
      = (torn F old table n).bind fun kv => if kv.1 = k then some kv.2 else none := by
  cases torn F old table n with
  | none => rfl
  | some kv => exact lastOf_singleton

variable [TransOrd κ]

/-- A new record is the pair in the table. -/
theorem lastOf_rewritten {kv : κ × β} (h : kv ∈ table.toList) :
    lastOf (table.toList.take (rewritten F table n)) kv.1 = some kv.2 ↔
      kv.1 ∈ table.keys.take (rewritten F table n) := by
  have hnodup := nodup_map_fst_toList (m := table)
  have hsub := List.take_sublist (rewritten F table n) table.toList
  rw [lastOf_eq_some_iff (hnodup.sublist (hsub.map Prod.fst)), ← TreeMap.map_fst_toList_eq_keys,
    ← List.map_take]
  constructor
  · exact fun hmem => List.mem_map.mpr ⟨kv, hmem, rfl⟩
  · intro hmem
    obtain ⟨kv', hkv', heq⟩ := List.mem_map.mp hmem
    obtain rfl := List.inj_on_of_nodup_map hnodup (hsub.mem hkv') h heq
    exact hkv'

variable [LawfulEqOrd κ]

/-- The last record of a key counts, so the cases are the places a record can have, from
the end of the file on. -/
theorem lastOf_crashed_iff (hF : ∀ kv ∈ table.toList, F.Holds kv)
    (hloaded : ∀ k, lookup table k = lastOf (F.entries old) k) {kv : κ × β}
    (hkv : kv ∈ table.toList) :
    lastOf (F.entries (crashedRepair F old table n)) kv.1 = some kv.2 ↔
      HasCopy F old table n kv := by
  obtain ⟨k, v⟩ := kv
  have hold : lastOf (F.entries old) k = some v := by
    rw [← hloaded]
    exact mem_toList_iff.mp hkv
  rw [entries_crashed hF, lastOf_append, lastOf_append, lastOf_torn]
  unfold HasCopy
  dsimp only
  cases hbehind : lastOf (behind F old table n) k with
  | some v' =>
    have heq : some v' = some v := (lastOf_behind hbehind).symm.trans hold
    exact iff_of_true heq (.inl (List.mem_map.mpr ⟨_, mem_of_lastOf hbehind, rfl⟩))
  | none =>
    have hnone : k ∉ (behind F old table n).map Prod.fst := by
      intro hmem
      obtain ⟨⟨_, v⟩, hv, rfl⟩ := List.mem_map.mp hmem
      obtain ⟨v', hv'⟩ := exists_lastOf hv
      cases hbehind.symm.trans hv'
    rw [Option.none_or, or_iff_right hnone, ← lastOf_rewritten hkv]
    cases torn F old table n with
    | none => simp
    | some kv' =>
      -- a record that is half new and half old hides the new one of its key
      obtain ⟨k', v'⟩ := kv'
      by_cases hk : k' = k
      · subst hk
        simp
      · simp [hk]

theorem lookup_crashed_iff (hF : ∀ kv ∈ table.toList, F.Holds kv)
    (hloaded : ∀ k, lookup table k = lastOf (F.entries old) k) :
    (∀ k v, lookup table k = some v → lastOf (F.entries (crashedRepair F old table n)) k = some v) ↔
      SurvivesCrash F old table n := by
  constructor
  · intro h kv hkv
    exact (lastOf_crashed_iff hF hloaded hkv).mp (h kv.1 kv.2 (mem_toList_iff.mp hkv))
  · intro h k v hlookup
    have hkv := mem_toList_iff.mpr hlookup
    exact (lastOf_crashed_iff hF hloaded hkv).mpr (h _ hkv)

end

/-- **When boot repair survives a crash.** After a crash at any byte of the rewrite of
`auth.db` the next boot loads every uid that the file held, with its salt and hash,
exactly if each has a copy that counts. -/
theorem repair_survives_crash_iff (old : List UInt8) (perms perms' : Option (List UInt8)) (n : Nat)
    (split split' again again' : Nat → Nat) :
    ∃ b b', loadAtBoot split split' ⟨some old, perms⟩ ∅ ∅ = some b ∧
      loadAtBoot again again' ⟨some (crashedRepair authFormat old b.auth n), perms'⟩ ∅ ∅
        = some b' ∧
      ((∀ uid entry, lookup b.auth uid = some entry → lookup b'.auth uid = some entry) ↔
        SurvivesCrash authFormat old b.auth n) := by
  refine ⟨_, _, loadAtBoot_eq split split' _, loadAtBoot_eq again again' _, ?_⟩
  dsimp only
  have hloaded : ∀ file : List UInt8, ∀ uid,
      lookup (authFormat.table (some file)) uid = lastOf (authFormat.entries file) uid :=
    fun _ uid => RecordFormat.lookup_table uid
  rw [← lookup_crashed_iff (fun _ => RecordFormat.holds_of_mem_table (some old)) (hloaded old)]
  simp only [hloaded (crashedRepair ..)]

/-- An entry with a number for its hash. -/
def entryOf (uid : UInt32) (hash : Nat) : AuthEntry := ⟨uid, toLE 16 0, toLE 32 hash⟩

/-- Uids 1 and 2 in order, a dirty record between them. -/
def inOrder : List UInt8 :=
  join [encodeAuthRecord statusClean (entryOf 1 7), encodeAuthRecord statusDirty (entryOf 3 9),
    encodeAuthRecord statusClean (entryOf 2 8)]

/-- In a crash in the middle of the second record the old record of uid 2 is still there. -/
theorem repair_survives_crash_inOrder :
    ∃ b b', loadAtBoot id id ⟨some inOrder, none⟩ ∅ ∅ = some b ∧
      loadAtBoot id id ⟨some (crashedRepair authFormat inOrder b.auth 60), none⟩ ∅ ∅ = some b' ∧
      lookup b'.auth 1 = some (entryOf 1 7) ∧ lookup b'.auth 2 = some (entryOf 2 8) := by
  obtain ⟨b, b', hb, hb', hiff⟩ := repair_survives_crash_iff inOrder none none 60 id id id id
  have hauth : b.auth = authFormat.table (some inOrder) := by
    rw [loadAtBoot_eq] at hb
    rw [← Option.some.inj hb]
  rw [hauth] at hiff
  have hsurvives := hiff.mpr (by decide +kernel)
  exact ⟨b, b', hb, hb', hsurvives 1 _ (by decide +kernel), hsurvives 2 _ (by decide +kernel)⟩

/-- Uids 2 and 1 in front of a dirty record. -/
def outOfOrder : List UInt8 :=
  join [encodeAuthRecord statusClean (entryOf 2 8), encodeAuthRecord statusClean (entryOf 1 7),
    encodeAuthRecord statusDirty (entryOf 3 9)]

/-- When the first record of the rewrite has replaced that of uid 2, the file has uid 1
twice. -/
theorem repair_crash_loses_uid :
    ∃ b b', loadAtBoot id id ⟨some outOfOrder, none⟩ ∅ ∅ = some b ∧ b.authDirty = true ∧
      lookup b.auth 2 = some (entryOf 2 8) ∧
      loadAtBoot id id ⟨some (crashedRepair authFormat outOfOrder b.auth 53), none⟩ ∅ ∅ = some b' ∧
      lookup b'.auth 2 = none := by
  refine ⟨_, _, loadAtBoot_eq id id _, ?_, ?_, loadAtBoot_eq id id _, ?_⟩
  · dsimp only
    decide +kernel
  · dsimp only
    decide +kernel
  · dsimp only
    decide +kernel

end AlaphiOS.Fs
