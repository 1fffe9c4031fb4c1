import Mathlib.Data.List.Basic

/-!
# Intervals one behind the other

`Tiles lo hi x y l` says that the intervals `[lo a, hi a)` of the list `l`, in its order, fill
`[x, y)` without a gap and without an overlap. The definition goes along the list, so that
joining two tilings (`tiles_append`) and putting a tiling in the place of one of the intervals
(`Tiles.splice`) need no arithmetic. What one wants to know of the intervals is read off at
the end: they lie in the range (`Tiles.within`), they cover it (`Tiles.mem_iff`), and they are
in order (`Tiles.pairwise`).
-/

namespace AlaphiOS.Lib

variable {α : Type} {lo hi : α → Nat} {x y z : Nat} {a : α} {l l' m : List α}

/-- The intervals fill `[x, y)` in order. -/
def Tiles (lo hi : α → Nat) : Nat → Nat → List α → Prop
  | x, y, [] => x = y
  | x, y, a :: l => lo a = x ∧ x ≤ hi a ∧ Tiles lo hi (hi a) y l

theorem tiles_append : Tiles lo hi x y (l ++ l') ↔ ∃ z, Tiles lo hi x z l ∧ Tiles lo hi z y l' := by
  induction l generalizing x with
  | nil =>
    exact ⟨fun h => ⟨x, rfl, h⟩, fun ⟨_, hz, h⟩ => hz ▸ h⟩
  | cons a l ih =>
    constructor
    · rintro ⟨hlo, hle, h⟩
      obtain ⟨z, hl, hl'⟩ := ih.mp h
      exact ⟨z, ⟨hlo, hle, hl⟩, hl'⟩
    · rintro ⟨z, ⟨hlo, hle, hl⟩, hl'⟩
      exact ⟨hlo, hle, ih.mpr ⟨z, hl, hl'⟩⟩

theorem Tiles.le : ∀ {l : List α} {x : Nat}, Tiles lo hi x y l → x ≤ y := by
  intro l
  induction l with
  | nil => exact fun h => Nat.le_of_eq h
  | cons a l ih => exact fun ⟨_, hle, h⟩ => Nat.le_trans hle (ih h)

/-- An interval of a tiling is the range between what lies before and behind it. -/
theorem tiles_around (h : Tiles lo hi x y (l ++ a :: l')) :
    Tiles lo hi x (lo a) l ∧ lo a ≤ hi a ∧ Tiles lo hi (hi a) y l' := by
  obtain ⟨z, hl, hlo, hle, hl'⟩ := tiles_append.mp h
  subst hlo
  exact ⟨hl, hle, hl'⟩

/-- An interval can be replaced by any tiling of it. -/
theorem Tiles.splice (h : Tiles lo hi x y (l ++ a :: l')) (hm : Tiles lo hi (lo a) (hi a) m) :
    Tiles lo hi x y (l ++ m ++ l') := by
  obtain ⟨hl, -, hl'⟩ := tiles_around h
  exact tiles_append.mpr ⟨_, tiles_append.mpr ⟨_, hl, hm⟩, hl'⟩

theorem Tiles.within (h : Tiles lo hi x y l) (ha : a ∈ l) : x ≤ lo a ∧ lo a ≤ hi a ∧ hi a ≤ y := by
  obtain ⟨l₁, l₂, rfl⟩ := List.append_of_mem ha
  obtain ⟨hl, hle, hl'⟩ := tiles_around h
  exact ⟨hl.le, hle, hl'.le⟩

/-- A number is in the range if and only if it is in one of the intervals. -/
theorem Tiles.mem_iff : ∀ {l : List α} {x : Nat}, Tiles lo hi x y l →
    ((∃ a ∈ l, lo a ≤ z ∧ z < hi a) ↔ x ≤ z ∧ z < y) := by
  intro l
  induction l with
  | nil =>
    intro x h
    obtain rfl : x = y := h
    simp only [List.not_mem_nil, false_and, exists_false, false_iff]
    omega
  | cons a l ih =>
    rintro x ⟨rfl, hle, h⟩
    have hlast := h.le
    rw [List.exists_mem_cons_iff, ih h]
    omega

theorem Tiles.pairwise : ∀ {l : List α} {x : Nat}, Tiles lo hi x y l →
    l.Pairwise fun a b => hi a ≤ lo b := by
  intro l
  induction l with
  | nil => exact fun _ => List.Pairwise.nil
  | cons a l ih =>
    rintro x ⟨_, _, h⟩
    exact List.pairwise_cons.mpr ⟨fun b hb => (h.within hb).1, ih h⟩

end AlaphiOS.Lib
