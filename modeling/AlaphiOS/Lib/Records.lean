import AlaphiOS.Lib.Bytes
import AlaphiOS.Lib.Maps
import Mathlib.Data.List.Nodup

/-!
# Files of records

A file of records of one size is its complete records and a tail shorter than one
(`exists_join`); the tail is empty exactly when the length is a multiple of the size.
`records` cuts a byte string into records, `join` puts them together again, and
`records_join_append`, `records_take` and `records_drop` say how cutting follows
writing at the end and overwriting at the front.

A table that such a file holds has, under each key, the last record with it: `lastOf`.
`lookup_insertAll` is the map that inserting the records in order leaves.
-/

namespace AlaphiOS.Lib

open Function List Option Std

/-! ## Records -/

/-- The first complete records, at most `fuel` of them. -/
def blocks (n : Nat) : Nat → List UInt8 → List (Block n)
  | 0, _ => []
  | fuel + 1, bytes =>
    if h : n ≤ bytes.length then
      ⟨bytes.take n, length_take_of_le h⟩ :: blocks n fuel (bytes.drop n)
    else []

/-- The complete records of `n` bytes. -/
def records (n : Nat) (bytes : List UInt8) : List (Block n) := blocks n bytes.length bytes

/-- Records one after the other. -/
def join {n : Nat} (bs : List (Block n)) : List UInt8 := bs.flatMap Subtype.val

section

variable {n k : Nat} {bytes : List UInt8}

theorem blocks_fuel (hn : 0 < n) : ∀ {fuel fuel' : Nat} {bytes : List UInt8},
    bytes.length ≤ fuel → bytes.length ≤ fuel' → blocks n fuel bytes = blocks n fuel' bytes := by
  have hnil : ∀ (fuel : Nat) {bytes : List UInt8}, bytes.length ≤ 0 → blocks n fuel bytes = [] := by
    intro fuel bytes h
    cases fuel with
    | zero => rfl
    | succ fuel => rw [blocks, dif_neg (by omega)]
  intro fuel
  induction fuel with
  | zero =>
    intro fuel' bytes h _
    rw [hnil 0 h, hnil fuel' h]
  | succ fuel ih =>
    intro fuel' bytes h h'
    cases fuel' with
    | zero => rw [hnil _ h', hnil _ h']
    | succ fuel' =>
      have hdrop := length_drop (i := n) (l := bytes)
      rw [blocks, blocks]
      split
      · rw [ih (show (bytes.drop n).length ≤ fuel by omega) (show _ ≤ fuel' by omega)]
      · rfl

theorem records_of_le (hn : 0 < n) (h : n ≤ bytes.length) :
    records n bytes = ⟨bytes.take n, length_take_of_le h⟩ :: records n (bytes.drop n) := by
  have hdrop := length_drop (i := n) (l := bytes)
  unfold records
  obtain ⟨fuel, hfuel⟩ : ∃ fuel, bytes.length = fuel + 1 := ⟨bytes.length - 1, by omega⟩
  rw [hfuel, blocks, dif_pos h, blocks_fuel hn (by omega : _ ≤ fuel) (Nat.le_refl _)]

theorem records_of_lt (h : bytes.length < n) : records n bytes = [] := by
  unfold records
  cases bytes.length with
  | zero => rfl
  | succ fuel => rw [blocks, dif_neg (by omega)]

theorem records_nil : records n [] = [] := rfl

@[simp] theorem join_nil : join ([] : List (Block n)) = [] := rfl

@[simp] theorem join_cons (b : Block n) (bs : List (Block n)) : join (b :: bs) = b.1 ++ join bs :=
  flatMap_cons

@[simp] theorem length_join (bs : List (Block n)) : (join bs).length = bs.length * n := by
  induction bs with
  | nil => rw [join_nil, length_nil, length_nil, Nat.zero_mul]
  | cons b bs ih => rw [join_cons, length_append, ih, b.2, length_cons, Nat.succ_mul,
      Nat.add_comm]

/-- Records come back from a file they were written to. -/
theorem records_join_append (hn : 0 < n) (bs : List (Block n)) (tail : List UInt8) :
    records n (join bs ++ tail) = bs ++ records n tail := by
  induction bs with
  | nil => rfl
  | cons b bs ih =>
    rw [join_cons, append_assoc, records_of_le hn (by rw [length_append, b.2]; omega)]
    congr 1
    · exact Subtype.ext (take_left' b.2)
    · rw [drop_left' b.2, ih]
      rfl

theorem records_join (hn : 0 < n) (bs : List (Block n)) : records n (join bs) = bs := by
  have h := records_join_append hn bs []
  rw [records_nil, append_nil, append_nil] at h
  exact h

/-- A file is its complete records and a torn tail. -/
theorem exists_join (hn : 0 < n) : ∀ (bytes : List UInt8),
    ∃ tail, bytes = join (records n bytes) ++ tail ∧ tail.length < n := by
  intro bytes
  induction hlen : bytes.length using Nat.strongRecOn generalizing bytes with
  | _ len ih =>
    by_cases h : n ≤ bytes.length
    · obtain ⟨tail, htail, hlt⟩ :=
        ih (bytes.drop n).length (by rw [length_drop]; omega) (bytes.drop n) rfl
      refine ⟨tail, ?_, hlt⟩
      rw [records_of_le hn h, join_cons, append_assoc, ← htail, take_append_drop]
    · refine ⟨bytes, ?_, by omega⟩
      rw [records_of_lt (by omega), join_nil, nil_append]

/-- Without a torn tail. -/
theorem join_records (hn : 0 < n) (h : bytes.length % n = 0) : join (records n bytes) = bytes := by
  obtain ⟨tail, htail, hlt⟩ := exists_join hn bytes
  have hlen := congrArg length htail
  rw [length_append, length_join] at hlen
  rw [hlen, Nat.mul_comm, Nat.mul_add_mod, Nat.mod_eq_of_lt hlt] at h
  rw [eq_nil_of_length_eq_zero h, append_nil] at htail
  exact htail.symm

/-- Cutting off the first `k` records. -/
theorem records_drop (hn : 0 < n) (bytes : List UInt8) :
    records n (bytes.drop (k * n)) = (records n bytes).drop k := by
  induction k generalizing bytes with
  | zero => rw [Nat.zero_mul, drop_zero, drop_zero]
  | succ k ih =>
    rw [Nat.succ_mul, Nat.add_comm, ← drop_drop, ih]
    by_cases h : n ≤ bytes.length
    · rw [records_of_le hn h, drop_succ_cons]
    · have hshort : bytes.length < n := by omega
      rw [records_of_lt hshort, records_of_lt (by rw [length_drop]; omega), drop_nil,
        drop_nil]

/-- Keeping the first `k` records. -/
theorem records_take (hn : 0 < n) (bytes : List UInt8) :
    records n (bytes.take (k * n)) = (records n bytes).take k := by
  induction k generalizing bytes with
  | zero => rw [Nat.zero_mul, take_zero, take_zero, records_nil]
  | succ k ih =>
    rw [Nat.succ_mul]
    by_cases h : n ≤ bytes.length
    · rw [records_of_le hn h, records_of_le hn (by rw [length_take]; omega),
        take_succ_cons, ← ih, drop_take, Nat.add_sub_cancel]
      congr 2
      rw [take_take, Nat.min_eq_left (by omega)]
    · have hshort : bytes.length < n := by omega
      rw [records_of_lt hshort, records_of_lt (by rw [length_take]; omega), take_nil]

end

/-! ## The last record of a key -/

section

variable {κ β : Type} [DecidableEq κ]

/-- The value of the last pair with key `k`. -/
def lastOf (l : List (κ × β)) (k : κ) : Option β :=
  (l.reverse.find? fun kv => kv.1 = k).map Prod.snd

variable {l l' : List (κ × β)} {k : κ} {v : β}

theorem lastOf_append : lastOf (l ++ l') k = (lastOf l' k).or (lastOf l k) := by
  unfold lastOf
  rw [reverse_append, find?_append, map_or]

theorem lastOf_singleton {kv : κ × β} :
    lastOf [kv] k = if kv.1 = k then some kv.2 else none := by
  unfold lastOf
  rw [reverse_singleton, find?_singleton]
  by_cases h : kv.1 = k
  · rw [if_pos (decide_eq_true h), if_pos h]
    rfl
  · rw [if_neg (by simp [h]), if_neg h]
    rfl

theorem lastOf_cons {kv : κ × β} :
    lastOf (kv :: l) k = (lastOf l k).or (if kv.1 = k then some kv.2 else none) := by
  rw [← lastOf_singleton, ← lastOf_append]
  rfl

theorem mem_of_lastOf (h : lastOf l k = some v) : (k, v) ∈ l := by
  obtain ⟨⟨k', v'⟩, hfind, rfl⟩ := map_eq_some_iff.mp h
  have hk : decide (k' = k) = true :=
    find?_some (p := fun kv : κ × β => decide (kv.1 = k)) hfind
  obtain rfl := of_decide_eq_true hk
  exact mem_reverse.mp (mem_of_find?_eq_some hfind)

theorem exists_lastOf (h : (k, v) ∈ l) : ∃ v', lastOf l k = some v' := by
  unfold lastOf
  cases hfind : l.reverse.find? fun kv => kv.1 = k with
  | none => exact absurd (decide_eq_true rfl) (find?_eq_none.mp hfind (k, v)
      (mem_reverse.mpr h))
  | some kv => exact ⟨kv.2, rfl⟩

/-- With one pair for each key, the last one is the only one. -/
theorem lastOf_eq_some_iff (hnodup : (l.map Prod.fst).Nodup) :
    lastOf l k = some v ↔ (k, v) ∈ l := by
  refine ⟨mem_of_lastOf, fun h => ?_⟩
  obtain ⟨v', hv'⟩ := exists_lastOf h
  have heq := inj_on_of_nodup_map hnodup (mem_of_lastOf hv') h rfl
  rw [hv', (Prod.mk.inj heq).2]

variable [Ord κ]

/-- Insert the pairs in order. -/
def insertAll (m : TreeMap κ β) (l : List (κ × β)) : TreeMap κ β :=
  l.foldl (fun m kv => m.insert kv.1 kv.2) m

variable [TransOrd κ] [LawfulEqOrd κ] {m : TreeMap κ β}

theorem lookup_insertAll : lookup (insertAll m l) k = (lastOf l k).or (lookup m k) := by
  induction l generalizing m with
  | nil => rfl
  | cons kv l ih =>
    show lookup (insertAll (m.insert kv.1 kv.2) l) k = _
    rw [ih, lookup_insert, lastOf_cons, Option.or_assoc]
    by_cases h : kv.1 = k
    · rw [if_pos h, h, update_self]
      rfl
    · rw [if_neg h, update_of_ne (fun h' => h h'.symm)]
      rfl

theorem lookup_insertAll_empty : lookup (insertAll ∅ l) k = lastOf l k := by
  rw [lookup_insertAll, lookup_empty, or_none]

theorem lastOf_toList : lastOf m.toList k = lookup m k := by
  apply ext
  intro v
  rw [lastOf_eq_some_iff nodup_map_fst_toList, mem_toList_iff]

end

end AlaphiOS.Lib
