import Mathlib.Logic.Function.Basic
import Mathlib.Tactic.Common

/-!
# Ordered maps as functions

An ordered map is used here for what it has under each key. `lookup` is that
function; `insert` and `erase` are point updates of it, so that proofs about maps
are proofs about `Function.update`.
-/

namespace AlaphiOS.Lib

open Function Std

variable {κ α : Type} [Ord κ]

/-- What a map has under each key. -/
def lookup (m : TreeMap κ α) (k : κ) : Option α := m[k]?

variable [TransOrd κ] {m : TreeMap κ α} {k : κ} {v : α}

theorem lookup_empty : lookup (∅ : TreeMap κ α) = fun _ => none :=
  funext fun _ => TreeMap.getElem?_emptyc

theorem nodup_map_fst_toList : (m.toList.map Prod.fst).Nodup := by
  rw [TreeMap.map_fst_toList_eq_keys]
  exact TreeMap.nodup_keys

variable [LawfulEqOrd κ]

theorem mem_keys_iff : k ∈ m.keys ↔ ∃ v, lookup m k = some v := by
  rw [TreeMap.mem_keys, TreeMap.mem_iff_isSome_getElem?, Option.isSome_iff_exists]
  rfl

theorem mem_toList_iff : (k, v) ∈ m.toList ↔ lookup m k = some v :=
  TreeMap.mem_toList_iff_getElem?_eq_some

variable [DecidableEq κ]

/-- An insertion changes one key. -/
theorem lookup_insert : lookup (m.insert k v) = update (lookup m) k (some v) := by
  funext a
  unfold lookup
  rw [TreeMap.getElem?_insert]
  by_cases h : a = k
  · rw [h, update_self, if_pos compare_self]
  · rw [update_of_ne h, if_neg fun hc => h (compare_eq_iff_eq.mp hc).symm]

/-- So does a removal. -/
theorem lookup_erase : lookup (m.erase k) = update (lookup m) k none := by
  funext a
  unfold lookup
  rw [TreeMap.getElem?_erase]
  by_cases h : a = k
  · rw [h, update_self, if_pos compare_self]
  · rw [update_of_ne h, if_neg fun hc => h (compare_eq_iff_eq.mp hc).symm]

end AlaphiOS.Lib
