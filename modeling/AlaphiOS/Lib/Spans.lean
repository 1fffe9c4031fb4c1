import Mathlib.Data.List.Nodup
import Mathlib.Logic.Function.Basic

/-!
# Spans of addresses and how often they are covered

A `Span` is an interval of addresses. A list of spans partitions a region when
every address of the region lies in exactly one of them, so the library counts
instead of comparing: `cover l x` is the number of spans of `l` that hold `x`.
Moving a span between two lists, splitting one in two or joining two
neighbours are then equations between counts (`cover_append`, `cover_split`,
`cover_families_update`), and disjointness is read off at the end
(`pairwise_apart_of_cover`).
-/

namespace AlaphiOS.Lib

open Function List

/-- The addresses `[base, base + size)`. -/
structure Span where
  base : Nat
  size : Nat
  deriving DecidableEq

/-- `x` lies in the span. -/
def Span.Has (s : Span) (x : Nat) : Prop := s.base ≤ x ∧ x < s.base + s.size

instance (s : Span) (x : Nat) : Decidable (s.Has x) :=
  inferInstanceAs (Decidable (_ ∧ _))

/-- The two spans share no address. -/
def Span.Apart (s t : Span) : Prop := s.base + s.size ≤ t.base ∨ t.base + t.size ≤ s.base

variable {l : List Span} {f : Nat → List Span} {k n : Nat} {s : Span}

theorem Span.Apart.symm {t : Span} (h : s.Apart t) : t.Apart s := Or.symm h

/-- How many spans of the list hold `x`. -/
def cover (l : List Span) (x : Nat) : Nat := l.countP fun s => decide (s.Has x)

theorem cover_cons (s : Span) (l : List Span) (x : Nat) :
    cover (s :: l) x = cover l x + if s.Has x then 1 else 0 := by
  rw [cover, countP_cons]
  simp only [decide_eq_true_eq]
  rfl

theorem cover_append (l l' : List Span) (x : Nat) :
    cover (l ++ l') x = cover l x + cover l' x := countP_append

theorem cover_pos_iff {x : Nat} : 0 < cover l x ↔ ∃ s ∈ l, s.Has x := by
  rw [cover, countP_pos_iff]
  simp only [decide_eq_true_eq]

/-- A span is its lower part and its upper part. -/
theorem cover_split (base lo hi x : Nat) (l : List Span) :
    cover (⟨base, lo + hi⟩ :: l) x = cover (⟨base, lo⟩ :: ⟨base + lo, hi⟩ :: l) x := by
  rw [cover_cons, cover_cons, cover_cons]
  have hsplit : (⟨base, lo + hi⟩ : Span).Has x ↔
      (⟨base, lo⟩ : Span).Has x ∨ (⟨base + lo, hi⟩ : Span).Has x := by
    unfold Span.Has
    dsimp only
    omega
  have hexcl : (⟨base, lo⟩ : Span).Has x → ¬ (⟨base + lo, hi⟩ : Span).Has x := by
    unfold Span.Has
    dsimp only
    omega
  by_cases hlo : (⟨base, lo⟩ : Span).Has x
  · rw [if_pos (hsplit.mpr (.inl hlo)), if_pos hlo, if_neg (hexcl hlo)]
  · by_cases hhi : (⟨base + lo, hi⟩ : Span).Has x
    · rw [if_pos (hsplit.mpr (.inr hhi)), if_pos hhi, if_neg hlo]
    · rw [if_neg (fun h => (hsplit.mp h).elim hlo hhi), if_neg hlo, if_neg hhi]

/-- Spans that cover nothing twice are pairwise apart. -/
theorem pairwise_apart_of_cover (hpos : ∀ s ∈ l, 0 < s.size)
    (h : ∀ x, cover l x ≤ 1) : l.Pairwise Span.Apart := by
  induction l with
  | nil => exact List.Pairwise.nil
  | cons s l ih =>
    refine pairwise_cons.mpr ⟨fun t ht => ?_, ?_⟩
    · -- if the two overlapped, the larger of the two bases would be in both
      have hs := hpos s mem_cons_self
      have htp := hpos t (mem_cons_of_mem _ ht)
      have hx := h (max s.base t.base)
      rw [cover_cons] at hx
      have hfree : s.Has (max s.base t.base) → ¬ t.Has (max s.base t.base) := by
        intro hsx htx
        have := cover_pos_iff.mpr ⟨t, ht, htx⟩
        rw [if_pos hsx] at hx
        omega
      unfold Span.Has at hfree
      unfold Span.Apart
      omega
    · refine ih (fun t ht => hpos t (mem_cons_of_mem _ ht)) (fun x => ?_)
      have hx := h x
      rw [cover_cons] at hx
      omega

/-- The spans of the first `n` lists of a family. -/
def families (f : Nat → List Span) (n : Nat) : List Span := (range n).flatMap f

theorem mem_families : s ∈ families f n ↔ ∃ k, k < n ∧ s ∈ f k := by
  simp [families, mem_flatMap, mem_range]

theorem families_succ (f : Nat → List Span) (n : Nat) :
    families f (n + 1) = families f n ++ f n := by
  simp [families, range_succ]

theorem pairwise_of_families
    (h : (families f n).Pairwise Span.Apart) (hk : k < n) : (f k).Pairwise Span.Apart :=
  (pairwise_flatMap.mp h).1 k (mem_range.mpr hk)

/-- Spans of two different lists of a family that overlaps nowhere are apart. -/
theorem apart_of_families {j : Nat} {t : Span}
    (h : (families f n).Pairwise Span.Apart) (hj : j < n) (hk : k < n) (hjk : j ≠ k)
    (hs : s ∈ f j) (ht : t ∈ f k) : s.Apart t := by
  have hp := pairwise_iff_getElem.mp (pairwise_flatMap.mp h).2
  rcases Nat.lt_or_gt_of_ne hjk with hlt | hgt
  · have := hp j k (by simpa using hj) (by simpa using hk) hlt
    simp only [getElem_range] at this
    exact this s hs t ht
  · have := hp k j (by simpa using hk) (by simpa using hj) hgt
    simp only [getElem_range] at this
    exact (this t ht s hs).symm

theorem families_update_ge {n : Nat} (hn : n ≤ k) : families (update f k l) n = families f n := by
  induction n with
  | zero => rfl
  | succ n ih =>
    rw [families_succ, families_succ, ih (by omega), update_of_ne (by omega)]

/-- Replacing list `k` of the family by `l` exchanges their counts. -/
theorem cover_families_update (x : Nat) {n : Nat} (h : k < n) :
    cover (families (update f k l) n) x + cover (f k) x = cover (families f n) x + cover l x := by
  induction n with
  | zero => exact absurd h (by omega)
  | succ n ih =>
    rw [families_succ, families_succ, cover_append, cover_append]
    rcases Nat.lt_or_ge k n with hlt | hge
    · have := ih hlt
      rw [update_of_ne (by omega)]
      omega
    · obtain rfl : k = n := by omega
      rw [families_update_ge (Nat.le_refl _), update_self]
      omega

end AlaphiOS.Lib
