import Mathlib.Data.List.Basic
import Mathlib.Data.List.Induction

/-!
# A list by classes

`buckets f n l` lists the elements of class 0 first, then those of class 1, up to class `n - 1`, and
keeps the order of `l` within a class. It has the elements of `l` whose class is below `n`
(`buckets_perm`), and an order of `l` becomes the order by class and then by that order
(`buckets_pairwise`).

`firsts R l` drops the elements of `l` that have an earlier one in relation `R` to them.
-/

namespace AlaphiOS.Lib

open List

variable {α β : Type} {f : α → Nat} {n k : Nat} {l : List α}

/-- The elements by class, in order within each. -/
def buckets (f : α → Nat) : Nat → List α → List α
  | 0, _ => []
  | n + 1, l => buckets f n l ++ l.filter fun a => f a = n

theorem mem_buckets {a : α} : a ∈ buckets f n l ↔ a ∈ l ∧ f a < n := by
  induction n with
  | zero => exact ⟨nofun, fun h => absurd h.2 (Nat.not_lt_zero _)⟩
  | succ n ih =>
    rw [buckets, mem_append, ih, mem_filter, decide_eq_true_iff]
    constructor
    · intro h
      rcases h with ⟨hmem, hlt⟩ | ⟨hmem, heq⟩
      · exact ⟨hmem, Nat.lt_succ_of_lt hlt⟩
      · exact ⟨hmem, heq ▸ Nat.lt_succ_self _⟩
    · intro ⟨hmem, hlt⟩
      exact (Nat.lt_succ_iff_lt_or_eq.mp hlt).imp (And.intro hmem) (And.intro hmem)

theorem buckets_perm_filter : (buckets f n l).Perm (l.filter fun a => f a < n) := by
  induction n with
  | zero =>
    rw [filter_eq_nil_iff.mpr fun a _ => by simp]
    exact .refl _
  | succ n ih =>
    -- split what is below `n + 1` into what is below `n` and the class `n`
    have hsplit := filter_append_perm (fun a => f a < n) (l.filter fun a => f a < n + 1)
    rw [filter_filter, filter_filter] at hsplit
    refine (ih.append (.refl _)).trans (.trans ?_ hsplit)
    refine .of_eq (congrArg₂ _ (filter_congr fun a _ => ?_) (filter_congr fun a _ => ?_))
    · rw [← Bool.decide_and]
      exact decide_eq_decide.mpr (by omega)
    · rw [← decide_not, ← Bool.decide_and]
      exact decide_eq_decide.mpr (by omega)

/-- With a bucket for every class nothing is lost. -/
theorem buckets_perm (h : ∀ a ∈ l, f a < n) : (buckets f n l).Perm l := by
  have hall : l.filter (fun a => f a < n) = l :=
    filter_eq_self.mpr fun a ha => decide_eq_true (h a ha)
  have hperm := buckets_perm_filter (f := f) (n := n) (l := l)
  rw [hall] at hperm
  exact hperm

theorem buckets_pairwise {R : α → α → Prop} (h : l.Pairwise R) :
    (buckets f n l).Pairwise fun a b => f a < f b ∨ (f a = f b ∧ R a b) := by
  induction n with
  | zero => exact .nil
  | succ n ih =>
    refine pairwise_append.mpr ⟨ih, ?_, fun a ha b hb => .inl ?_⟩
    · refine (h.filter _).imp_of_mem fun ha hb hR => .inr ⟨?_, hR⟩
      have ha := of_decide_eq_true (mem_filter.mp ha).2
      have hb := of_decide_eq_true (mem_filter.mp hb).2
      exact ha.trans hb.symm
    · have hb := of_decide_eq_true (mem_filter.mp hb).2
      rw [hb]
      exact (mem_buckets.mp ha).2

theorem buckets_mono (h : k ≤ n) : buckets f k l <+: buckets f n l := by
  induction n with
  | zero =>
    obtain rfl := Nat.le_zero.mp h
    exact prefix_refl _
  | succ n ih =>
    rcases Nat.le_succ_iff.mp h with hle | rfl
    · exact (ih hle).trans (prefix_append _ _)
    · exact prefix_refl _

/-- The first classes, and the beginning of the next. -/
theorem buckets_append_prefix {before : List α} (hk : k < n) (hl : before <+: l) :
    buckets f k l ++ before.filter (fun a => f a = k) <+: buckets f n l := by
  refine List.IsPrefix.trans ?_ (buckets_mono (show k + 1 ≤ n from hk))
  rw [buckets, prefix_append_right_inj]
  exact hl.filter _

theorem buckets_map {g : β → α} {l : List β} :
    (buckets (fun b => f (g b)) n l).map g = buckets f n (l.map g) := by
  induction n with
  | zero => rfl
  | succ n ih => rw [buckets, buckets, map_append, ih, filter_map]; rfl

/-! ## First occurrences -/

section Firsts

variable {R : α → α → Prop} [DecidableRel R] {a : α}

/-- The first element of each kind. -/
def firsts (R : α → α → Prop) [DecidableRel R] (l : List α) : List α :=
  l.foldl (fun seen a => if ∃ b ∈ seen, R b a then seen else seen ++ [a]) []

theorem firsts_concat : firsts R (l ++ [a])
    = if ∃ b ∈ firsts R l, R b a then firsts R l else firsts R l ++ [a] := foldl_append ..

theorem firsts_sublist : (firsts R l).Sublist l := by
  induction l using reverseRecOn with
  | nil => exact .refl _
  | append_singleton l a ih =>
    rw [firsts_concat]
    split
    · exact ih.trans (sublist_append_left ..)
    · exact ih.append (.refl _)

theorem firsts_prefix {l' : List α} (h : l <+: l') : firsts R l <+: firsts R l' := by
  obtain ⟨more, rfl⟩ := h
  induction more using reverseRecOn with
  | nil => simp
  | append_singleton more a ih =>
    rw [← append_assoc, firsts_concat]
    split
    · exact ih
    · exact ih.trans (prefix_append ..)

theorem firsts_map {g : β → α} {l : List β} :
    (firsts (fun b b' => R (g b) (g b')) l).map g = firsts R (l.map g) := by
  induction l using reverseRecOn with
  | nil => rfl
  | append_singleton l b ih =>
    rw [map_append, map_singleton, firsts_concat, firsts_concat, ← ih]
    simp only [mem_map, exists_exists_and_eq_and]
    split
    · rfl
    · rw [map_append, map_singleton]

/-- What has no earlier one in relation to it is its own first occurrence. -/
theorem exists_firsts (hrefl : ∀ a, R a a) (ha : a ∈ l) : ∃ b ∈ firsts R l, R b a := by
  induction l using reverseRecOn with
  | nil => cases ha
  | append_singleton l c ih =>
    rw [firsts_concat]
    rcases mem_append.mp ha with ha | ha
    · obtain ⟨b, hb, hR⟩ := ih ha
      split
      · exact ⟨b, hb, hR⟩
      · exact ⟨b, mem_append_left _ hb, hR⟩
    · obtain rfl := mem_singleton.mp ha
      split
      next h => exact h
      · exact ⟨a, mem_append_right _ (mem_singleton_self _), hrefl a⟩

end Firsts

end AlaphiOS.Lib
