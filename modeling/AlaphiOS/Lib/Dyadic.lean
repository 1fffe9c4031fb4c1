import AlaphiOS.Lib.Spans

/-!
# Blocks of doubling sizes

A block of order `k` has `size k` addresses, from a multiple of `size k` on, and sizes double
from one order to the next. Two such blocks lie one in the other or apart (`nested`).

A `Packing` is a set of blocks that makes up a set of addresses, with no address in two of
them. If it holds no two halves of one block (`NoHalves`), then it is determined by the
addresses: its blocks are the largest ones that fit (`Packing.mem_iff_largest`). The reason is
`Packing.block_of_within`: whatever block fits lies in a block of the packing, because its two
halves do, by induction on the order.
-/

namespace AlaphiOS.Lib

/-- Each size is twice the one before. -/
structure Doubles (size : Nat → Nat) : Prop where
  zero : 0 < size 0
  succ : ∀ k, size (k + 1) = size k + size k

namespace Doubles

variable {size : Nat → Nat} {i j k a b x : Nat}

theorem pos (hs : Doubles size) : ∀ k, 0 < size k
  | 0 => hs.zero
  | k + 1 => by
    have := hs.pos k
    rw [hs.succ]
    omega

theorem dvd (hs : Doubles size) (h : i ≤ j) : size i ∣ size j := by
  induction h with
  | refl => exact Nat.dvd_refl _
  | step _ ih =>
    rw [hs.succ]
    exact Nat.dvd_add ih ih

/-- Two blocks that share an address lie one in the other. -/
theorem nested (hs : Doubles size) (hij : i ≤ j) (ha : size i ∣ a) (hb : size j ∣ b)
    (hxa : (⟨a, size i⟩ : Span).Has x) (hxb : (⟨b, size j⟩ : Span).Has x) :
    b ≤ a ∧ a + size i ≤ b + size j := by
  obtain ⟨n, hn⟩ := hs.dvd hij
  obtain ⟨p, rfl⟩ := ha
  obtain ⟨q, rfl⟩ := hb
  unfold Span.Has at hxa hxb
  dsimp only at hxa hxb
  rw [hn, Nat.mul_assoc] at hxb ⊢
  -- counted in blocks of order `i`, the one is number `p` and the other begins with `n * q`
  have hlo : n * q < p + 1 := by
    refine Nat.lt_of_mul_lt_mul_left (a := size i) ?_
    rw [Nat.mul_add]
    omega
  have hhi : p < n * q + n := by
    refine Nat.lt_of_mul_lt_mul_left (a := size i) ?_
    rw [Nat.mul_add]
    omega
  refine ⟨Nat.mul_le_mul_left _ (Nat.le_of_lt_succ hlo), ?_⟩
  rw [← Nat.mul_add]
  exact Nat.mul_le_mul_left (size i) hhi

end Doubles

/-- Every address of the block is in the set. -/
def Within (size : Nat → Nat) (M : Nat → Prop) (k a : Nat) : Prop :=
  ∀ x, (⟨a, size k⟩ : Span).Has x → M x

/-- A block of an order up to `top` in the set, and in no larger one. -/
structure Largest (size : Nat → Nat) (top : Nat) (M : Nat → Prop) (k a : Nat) : Prop where
  ord : k ≤ top
  aligned : size k ∣ a
  within : Within size M k a
  largest : ∀ j b, k < j → j ≤ top → size j ∣ b → b ≤ a → a + size k ≤ b + size j →
    ¬ Within size M j b

/-- The blocks `F` of orders up to `top` make up the set, with no address in two of them. -/
structure Packing (size : Nat → Nat) (top : Nat) (F : Nat → Nat → Prop) (M : Nat → Prop) :
    Prop where
  ord : ∀ {k a}, F k a → k ≤ top
  aligned : ∀ {k a}, F k a → size k ∣ a
  covers : ∀ x, M x ↔ ∃ k a, F k a ∧ (⟨a, size k⟩ : Span).Has x
  once : ∀ {k a j b x}, F k a → F j b → (⟨a, size k⟩ : Span).Has x →
    (⟨b, size j⟩ : Span).Has x → k = j ∧ a = b

/-- No two of the blocks are the halves of a block of an order up to `top`. -/
def NoHalves (size : Nat → Nat) (top : Nat) (F : Nat → Nat → Prop) : Prop :=
  ∀ k a, k < top → size (k + 1) ∣ a → F k a → ¬ F k (a + size k)

variable {size : Nat → Nat} {top : Nat} {F : Nat → Nat → Prop} {M M' : Nat → Prop} {k a : Nat}

/-- Which blocks are largest depends only on which blocks fit. -/
theorem Largest.congr (h : ∀ k a, size k ∣ a → (Within size M k a ↔ Within size M' k a)) :
    Largest size top M k a ↔ Largest size top M' k a := by
  have himp : ∀ {M M' : Nat → Prop},
      (∀ k a, size k ∣ a → (Within size M k a ↔ Within size M' k a)) →
      Largest size top M k a → Largest size top M' k a := by
    intro M M' h hl
    refine ⟨hl.ord, hl.aligned, (h k a hl.aligned).mp hl.within, ?_⟩
    intro j b hkj hj hb hlo hhi hw
    exact hl.largest j b hkj hj hb hlo hhi ((h j b hb).mpr hw)
  exact ⟨himp h, himp fun k a ha => (h k a ha).symm⟩

namespace Packing

theorem within (p : Packing size top F M) (h : F k a) : Within size M k a :=
  fun x hx => (p.covers x).mpr ⟨k, a, h, hx⟩

/-- A block in the set lies in a block of the packing. -/
theorem block_of_within (hs : Doubles size) (p : Packing size top F M) (hno : NoHalves size top F)
    {k a : Nat} (hk : k ≤ top) (ha : size k ∣ a) (hw : Within size M k a) :
    ∃ j b, k ≤ j ∧ F j b ∧ b ≤ a ∧ a + size k ≤ b + size j := by
  induction k generalizing a with
  | zero =>
    have hpos := hs.pos 0
    have hfirst : (⟨a, size 0⟩ : Span).Has a := ⟨Nat.le_refl _, by dsimp only; omega⟩
    obtain ⟨j, b, hF, hb⟩ := (p.covers a).mp (hw a hfirst)
    exact ⟨j, b, Nat.zero_le _, hF, hs.nested (Nat.zero_le _) ha (p.aligned hF) hfirst hb⟩
  | succ k ih =>
    have hsucc := hs.succ k
    have hpos := hs.pos k
    have halow : size k ∣ a := Nat.dvd_trans (hs.dvd (Nat.le_succ k)) ha
    have hhalves : ∀ c, a ≤ c → c + size k ≤ a + size (k + 1) → Within size M k c := by
      intro c hlo hhi x hx
      unfold Span.Has at hx
      dsimp only at hx
      exact hw x ⟨by dsimp only; omega, by dsimp only; omega⟩
    obtain ⟨j, b, hj, hF, hlo, hhi⟩ :=
      ih (Nat.le_of_succ_le hk) halow (hhalves a (by omega) (by omega))
    obtain ⟨j', b', hj', hF', hlo', hhi'⟩ :=
      ih (Nat.le_of_succ_le hk) (Nat.dvd_add halow (Nat.dvd_refl _))
        (hhalves (a + size k) (by omega) (by omega))
    -- A larger block around one half is around the whole; else both halves are in the packing.
    rcases Nat.eq_or_lt_of_le hj with rfl | hlt
    · rcases Nat.eq_or_lt_of_le hj' with rfl | hlt'
      · obtain rfl : b = a := by omega
        obtain rfl : b' = b + size k := by omega
        exact absurd hF' (hno k b hk ha hF)
      · have hx : (⟨a, size (k + 1)⟩ : Span).Has (a + size k) :=
          ⟨by dsimp only; omega, by dsimp only; omega⟩
        have hx' : (⟨b', size j'⟩ : Span).Has (a + size k) := ⟨hlo', by dsimp only; omega⟩
        exact ⟨j', b', hlt', hF', hs.nested hlt' ha (p.aligned hF') hx hx'⟩
    · have hx : (⟨a, size (k + 1)⟩ : Span).Has a := ⟨Nat.le_refl _, by dsimp only; omega⟩
      have hx' : (⟨b, size j⟩ : Span).Has a := ⟨hlo, by dsimp only; omega⟩
      exact ⟨j, b, hlt, hF, hs.nested hlt ha (p.aligned hF) hx hx'⟩

/-- A packing without two halves is the set of the largest blocks. -/
theorem mem_iff_largest (hs : Doubles size) (p : Packing size top F M)
    (hno : NoHalves size top F) : F k a ↔ Largest size top M k a := by
  have hpos := hs.pos k
  have hfirst : (⟨a, size k⟩ : Span).Has a := ⟨Nat.le_refl _, by dsimp only; omega⟩
  constructor
  · intro h
    refine ⟨p.ord h, p.aligned h, p.within h, ?_⟩
    intro j b hkj hj hb hlo hhi hw
    obtain ⟨i, c, hji, hF, hlo', hhi'⟩ := p.block_of_within hs hno hj hb hw
    have hx : (⟨c, size i⟩ : Span).Has a := ⟨by dsimp only; omega, by dsimp only; omega⟩
    obtain ⟨rfl, _⟩ := p.once h hF hfirst hx
    omega
  · intro h
    obtain ⟨j, b, hkj, hF, hlo, hhi⟩ := p.block_of_within hs hno h.ord h.aligned h.within
    rcases Nat.eq_or_lt_of_le hkj with rfl | hlt
    · obtain rfl : b = a := by omega
      exact hF
    · exact absurd (p.within hF) (h.largest j b hlt (p.ord hF) (p.aligned hF) hlo hhi)

end Packing

end AlaphiOS.Lib
