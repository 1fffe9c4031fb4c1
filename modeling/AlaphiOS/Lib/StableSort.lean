import Mathlib.Data.List.Sort
import Mathlib.Order.Nat

/-!
# Stable sorting by a key

`StablySorted key l l'` is what a stable sort promises of its result `l'`: the
elements of `l`, in ascending order of their keys, and those of one key in the
order in which `l` has them. `stablySorted_insertionSort` says that insertion
sort keeps the promise, `StablySorted.filter` that it still holds for the
elements whose keys have some property. In a sorted list these are one behind the
other: `takeWhile_eq_filter` and `dropWhile_eq_filter` cut it at a key.
-/

namespace AlaphiOS.Lib

open List

variable {α κ : Type} [LinearOrder κ] {key : α → κ} {l l' : List α}

/-- Sorted by a key, equal keys in order. -/
structure StablySorted (key : α → κ) (l l' : List α) : Prop where
  perm : l'.Perm l
  sorted : l'.Pairwise fun a b => key a ≤ key b
  stable : ∀ k, l'.filter (fun a => key a = k) = l.filter fun a => key a = k

/-- Among elements of one key, the inserted one is the first. -/
theorem filter_orderedInsert (a : α) (k : κ) (l : List α) :
    (l.orderedInsert (fun a b => key a ≤ key b) a).filter (fun b => key b = k)
      = (a :: l).filter fun b => key b = k := by
  induction l with
  | nil => rfl
  | cons b l ih =>
    rw [orderedInsert_cons]
    split
    · rfl
    next hlt =>
      -- `b` stays in front of `a`, so their keys differ
      have hne : key a ≠ key b := fun h => hlt (le_of_eq h)
      rw [filter_cons, ih]
      by_cases ha : key a = k
      · have hb : key b ≠ k := fun h => hne (ha.trans h.symm)
        simp only [filter_cons, ha, hb, decide_false, decide_true, Bool.false_eq_true,
          if_false]
      · simp only [filter_cons, ha, decide_false, Bool.false_eq_true, if_false]

theorem stablySorted_insertionSort (key : α → κ) (l : List α) :
    StablySorted key l (l.insertionSort fun a b => key a ≤ key b) where
  perm := perm_insertionSort _ l
  sorted :=
    have : Std.Total fun a b => key a ≤ key b := ⟨fun a b => le_total (key a) (key b)⟩
    have : IsTrans α fun a b => key a ≤ key b := ⟨fun _ _ _ => le_trans⟩
    pairwise_insertionSort _ l
  stable := by
    intro k
    induction l with
    | nil => rfl
    | cons a l ih =>
      rw [insertionSort_cons, filter_orderedInsert, filter_cons, filter_cons, ih]

theorem StablySorted.filter (h : StablySorted key l l') (p : κ → Bool) :
    StablySorted key (l.filter fun a => p (key a)) (l'.filter fun a => p (key a)) where
  perm := h.perm.filter _
  sorted := h.sorted.filter _
  stable := fun k => by rw [filter_comm, h.stable, filter_comm]

/-- The elements below a bound are the front of a sorted list. -/
theorem takeWhile_eq_filter (h : l.Pairwise fun a b => key a ≤ key b) (k : κ) :
    l.takeWhile (fun a => key a < k) = l.filter fun a => key a < k := by
  induction l with
  | nil => rfl
  | cons a l ih =>
    obtain ⟨hall, htail⟩ := pairwise_cons.mp h
    by_cases ha : key a < k
    · simp only [takeWhile_cons, filter_cons, ha, decide_true, if_true, ih htail]
    · have hnone : (a :: l).filter (fun b => key b < k) = [] := by
        refine filter_eq_nil_iff.mpr fun b hb => ?_
        rw [decide_eq_true_eq, not_lt]
        rcases mem_cons.mp hb with rfl | hb
        · exact not_lt.mp ha
        · exact (not_lt.mp ha).trans (hall b hb)
      simp only [takeWhile_cons, ha, decide_false, Bool.false_eq_true, if_false, hnone]

/-- And the others are the rest. -/
theorem dropWhile_eq_filter (h : l.Pairwise fun a b => key a ≤ key b) (k : κ) :
    l.dropWhile (fun a => key a < k) = l.filter fun a => k ≤ key a := by
  induction l with
  | nil => rfl
  | cons a l ih =>
    obtain ⟨hall, htail⟩ := pairwise_cons.mp h
    by_cases ha : key a < k
    · simp only [dropWhile_cons, filter_cons, ha, not_le.mpr ha, decide_true, decide_false,
        Bool.false_eq_true, if_true, if_false, ih htail]
    · have hevery : (a :: l).filter (fun b => k ≤ key b) = a :: l := by
        refine filter_eq_self.mpr fun b hb => ?_
        rw [decide_eq_true_eq]
        rcases mem_cons.mp hb with rfl | hb
        · exact not_lt.mp ha
        · exact (not_lt.mp ha).trans (hall b hb)
      simp only [dropWhile_cons, ha, decide_false, Bool.false_eq_true, if_false, hevery]

end AlaphiOS.Lib
