import Mathlib.Data.List.Basic
import Mathlib.Tactic.Common

/-!
# Linear feedback shift registers

A register of `w` bits is shifted towards its low end; when the bit that falls out
is set, the polynomial is added (exclusive or). A message is fed bit by bit, each
added at the low end before the shift. This is the division behind a reflected CRC.

Everything is linear (`run_xor`), and three consequences are all that clients use:
- `run_bits`: bits fed one by one may as well be added all at once and shifted out.
- `shifts_split`: `n` shifts of a register are those of its low `n` bits, and the rest
  moved down. A table of the former is the usual way to take several shifts at once.
- `run_ne_of_burst`: if the polynomial has its highest bit, two messages of one length that
  differ within `w` consecutive bits only leave different registers. A set bit
  moves down by one place at a time, or the polynomial puts one at the top
  (`feed_reach`), so the last bit of the error comes too early to cancel it, and nothing that
  follows can.
-/

namespace AlaphiOS.Lib.ShiftRegister

open List

variable {w : Nat} (poly : BitVec w)

/-- Shift out one bit. -/
def shift (c : BitVec w) : BitVec w := if c.getLsbD 0 then (c >>> 1) ^^^ poly else c >>> 1

/-- `n` shifts. -/
def shifts (n : Nat) (c : BitVec w) : BitVec w := Nat.repeat (shift poly) n c

/-- Shift in one bit. -/
def feed (c : BitVec w) (bit : Bool) : BitVec w := shift poly (c ^^^ if bit then 1#w else 0#w)

/-- The register after a message. -/
def run (c : BitVec w) (bits : List Bool) : BitVec w := bits.foldl (feed poly) c

variable {poly} {c d v : BitVec w} {n m : Nat}

theorem shifts_succ (n : Nat) (c : BitVec w) :
    shifts poly (n + 1) c = shifts poly n (shift poly c) := by
  induction n with
  | zero => rfl
  | succ n ih => exact congrArg (shift poly) ih

/-! ## Linearity -/

theorem shift_eq (c : BitVec w) :
    shift poly c = (c >>> 1) ^^^ if c.getLsbD 0 then poly else 0#w := by
  unfold shift
  cases c.getLsbD 0 with
  | false => exact BitVec.xor_zero.symm
  | true => rfl

theorem if_xor (x y : Bool) (v : BitVec w) :
    (if x ^^ y then v else 0#w) = (if x then v else 0#w) ^^^ if y then v else 0#w := by
  cases x <;> cases y <;> simp

theorem shift_xor (c d : BitVec w) : shift poly (c ^^^ d) = shift poly c ^^^ shift poly d := by
  rw [shift_eq, shift_eq, shift_eq, BitVec.ushiftRight_xor_distrib, BitVec.getLsbD_xor, if_xor]
  ac_rfl

theorem shifts_xor (n : Nat) (c d : BitVec w) :
    shifts poly n (c ^^^ d) = shifts poly n c ^^^ shifts poly n d := by
  induction n with
  | zero => rfl
  | succ n ih =>
    show shift poly (shifts poly n (c ^^^ d))
      = shift poly (shifts poly n c) ^^^ shift poly (shifts poly n d)
    rw [ih, shift_xor]

theorem feed_xor (c d : BitVec w) (x y : Bool) :
    feed poly (c ^^^ d) (x ^^ y) = feed poly c x ^^^ feed poly d y := by
  unfold feed
  rw [← shift_xor, if_xor]
  ac_rfl

variable {a b : List Bool}

theorem run_xor (h : a.length = b.length) :
    run poly (c ^^^ d) (a.zipWith xor b) = run poly c a ^^^ run poly d b := by
  induction a generalizing b c d with
  | nil =>
    obtain rfl := eq_nil_of_length_eq_zero h.symm
    rfl
  | cons x a ih =>
    cases b with
    | nil => cases h
    | cons y b =>
      show run poly (feed poly (c ^^^ d) (x ^^ y)) (a.zipWith xor b) = _
      rw [feed_xor, ih (Nat.succ.inj h)]
      rfl

/-! ## Several shifts at once -/

/-- A message bit only decides whether the polynomial is added. -/
theorem feed_eq (c : BitVec w) (x : Bool) :
    feed poly c x = (c >>> 1) ^^^ if c.getLsbD 0 ^^ (x && decide (0 < w)) then poly else 0#w := by
  have hone : (if x then 1#w else 0#w) >>> 1 = 0#w := by
    cases x with
    | false => exact BitVec.zero_ushiftRight
    | true =>
      ext i hi
      simp
  have hbit : (if x then 1#w else 0#w).getLsbD 0 = (x && decide (0 < w)) := by
    cases x <;> simp
  unfold feed
  rw [shift_eq, BitVec.ushiftRight_xor_distrib, BitVec.getLsbD_xor, hone, hbit, BitVec.xor_zero]

/-- The bits of a word, from the lowest on. -/
def lowBits (n : Nat) (v : BitVec w) : List Bool := (range n).map v.getLsbD

theorem lowBits_succ (n : Nat) (v : BitVec w) :
    lowBits (n + 1) v = v.getLsbD 0 :: lowBits n (v >>> 1) := by
  unfold lowBits
  rw [range_succ_eq_map, map_cons, map_map]
  congr 2
  funext i
  show v.getLsbD (i + 1) = (v >>> 1).getLsbD i
  rw [BitVec.getLsbD_ushiftRight, Nat.add_comm]

theorem feed_lowBit (c v : BitVec w) :
    feed poly c (v.getLsbD 0) ^^^ (v >>> 1) = shift poly (c ^^^ v) := by
  have hbit : (v.getLsbD 0 && decide (0 < w)) = v.getLsbD 0 := by
    cases h : v.getLsbD 0 with
    | false => rfl
    | true => exact decide_eq_true (BitVec.lt_of_getLsbD h)
  rw [feed_eq, hbit, shift_eq, BitVec.ushiftRight_xor_distrib, BitVec.getLsbD_xor]
  ac_rfl

/-- Feeding the bits of a word is adding the word and shifting. -/
theorem run_bits (n : Nat) (c v : BitVec w) (hv : (∀ i, n ≤ i → v.getLsbD i = false)) :
    run poly c (lowBits n v) = shifts poly n (c ^^^ v) := by
  induction n generalizing c v with
  | zero =>
    have hzero : v = 0#w := by
      refine BitVec.eq_of_getLsbD_eq fun i _ => ?_
      rw [hv i (Nat.zero_le i), BitVec.getLsbD_zero]
    rw [hzero, BitVec.xor_zero]
    rfl
  | succ n ih =>
    have hrest : ∀ i, n ≤ i → (v >>> 1).getLsbD i = false := by
      intro i hi
      rw [BitVec.getLsbD_ushiftRight]
      exact hv (1 + i) (by omega)
    rw [lowBits_succ]
    show run poly (feed poly c (v.getLsbD 0)) (lowBits n (v >>> 1)) = _
    rw [ih _ _ hrest, feed_lowBit, shifts_succ]

/-- Nothing is added while no set bit falls out. -/
theorem shifts_high : ∀ (n : Nat) {c : BitVec w}, (∀ i, i < n → c.getLsbD i = false) →
    shifts poly n c = c >>> n := by
  intro n
  induction n with
  | zero => exact fun _ => (BitVec.ushiftRight_zero _).symm
  | succ n ih =>
    intro c hc
    have hbit : (c >>> n).getLsbD 0 = false := by
      rw [BitVec.getLsbD_ushiftRight]
      exact hc n (Nat.lt_succ_self n)
    show shift poly (shifts poly n c) = _
    rw [ih fun i hi => hc i (Nat.lt_succ_of_lt hi)]
    unfold shift
    rw [hbit, if_neg Bool.false_ne_true, BitVec.shiftRight_add]

/-- The low `n` bits are shifted by themselves, the others just move down. -/
theorem shifts_split {lo : BitVec w} (hlo : ∀ i, lo.getLsbD i = (decide (i < n) && c.getLsbD i)) :
    shifts poly n c = (c >>> n) ^^^ shifts poly n lo := by
  have hsum : c = (c ^^^ lo) ^^^ lo := by rw [BitVec.xor_assoc, BitVec.xor_self, BitVec.xor_zero]
  have hmove : shifts poly n (c ^^^ lo) = c >>> n := by
    rw [shifts_high n fun i hi => by
      rw [BitVec.getLsbD_xor, hlo, decide_eq_true hi, Bool.true_and, Bool.xor_self]]
    refine BitVec.eq_of_getLsbD_eq fun i _ => ?_
    have hout : decide (n + i < n) = false := decide_eq_false (by omega)
    rw [BitVec.getLsbD_ushiftRight, BitVec.getLsbD_xor, hlo, hout, Bool.false_and, Bool.xor_false,
      BitVec.getLsbD_ushiftRight]
  rw [hsum, shifts_xor, hmove, ← hsum]

/-! ## Bursts -/

/-- The highest set bit moves down by one place, unless the polynomial sets the highest bit of
all. A message bit can undo that only at the low end. -/
theorem feed_reach (hpoly : poly.getLsbD (w - 1) = true) {x : Bool} {i : Nat}
    (hi : c.getLsbD i = true) (hx : x = true → 0 < i) :
    ∃ j, i - 1 ≤ j ∧ (feed poly c x).getLsbD j = true := by
  have hlt : i < w := BitVec.lt_of_getLsbD hi
  rw [feed_eq]
  cases hadd : c.getLsbD 0 ^^ (x && decide (0 < w)) with
  | true =>
    refine ⟨w - 1, by omega, ?_⟩
    rw [if_pos rfl, BitVec.getLsbD_xor, BitVec.getLsbD_ushiftRight, hpoly,
      BitVec.getLsbD_of_ge c (1 + (w - 1)) (by omega)]
    rfl
  | false =>
    -- the bit that falls out is not set, so this one is another
    have hpos : 0 < i := by
      refine Nat.pos_of_ne_zero fun h0 => ?_
      subst h0
      cases x with
      | true => exact absurd (hx rfl) (Nat.lt_irrefl 0)
      | false => rw [hi] at hadd; cases hadd
    refine ⟨i - 1, Nat.le_refl _, ?_⟩
    rw [if_neg Bool.false_ne_true, BitVec.xor_zero, BitVec.getLsbD_ushiftRight,
      Nat.add_sub_cancel' hpos]
    exact hi

/-- A register with a bit at or above `m` does not become zero if the last bit of the
message comes before step `m`. -/
theorem run_ne_zero (hpoly : poly.getLsbD (w - 1) = true) : ∀ (bits : List Bool) {c : BitVec w}
    {m i : Nat}, c.getLsbD i = true → m ≤ i → (∀ j, bits[j]? = some true → j < m) →
    run poly c bits ≠ 0#w := by
  intro bits
  induction bits with
  | nil =>
    intro c m i hi _ _ hzero
    rw [show c = 0#w from hzero, BitVec.getLsbD_zero] at hi
    exact absurd hi Bool.false_ne_true
  | cons x bits ih =>
    intro c m i hi hm hbits
    obtain ⟨j, hj, hset⟩ := feed_reach hpoly (x := x) hi fun hx => by
      have := hbits 0 (congrArg some hx)
      omega
    refine ih hset (show m - 1 ≤ j by omega) fun k hk => ?_
    have := hbits (k + 1) hk
    omega

theorem exists_first_difference (hlen : a.length = b.length) (hne : a ≠ b) :
    ∃ front x as bs, a = front ++ x :: as ∧ b = front ++ (!x) :: bs ∧ as.length = bs.length := by
  induction a generalizing b with
  | nil =>
    exact absurd (eq_nil_of_length_eq_zero hlen.symm).symm hne
  | cons x a ih =>
    cases b with
    | nil => cases hlen
    | cons y b =>
      by_cases hxy : y = x
      · subst hxy
        obtain ⟨front, z, as, bs, rfl, rfl, hlen'⟩ :=
          ih (Nat.succ.inj hlen) fun h => hne (congrArg (y :: ·) h)
        exact ⟨y :: front, z, as, bs, rfl, rfl, hlen'⟩
      · rw [Bool.eq_not_of_ne hxy]
        exact ⟨[], x, a, b, rfl, rfl, Nat.succ.inj hlen⟩

/-- **Bursts are detected.** Messages of one length that differ, but only within `w`
consecutive bits, leave different registers. -/
theorem run_ne_of_burst (hpoly : poly.getLsbD (w - 1) = true) (c : BitVec w)
    (hlen : a.length = b.length) (hne : a ≠ b) {p : Nat}
    (hburst : ∀ i, a[i]? ≠ b[i]? → p ≤ i ∧ i < p + w) : run poly c a ≠ run poly c b := by
  intro heq
  have hw : 0 < w := Nat.zero_lt_of_lt (BitVec.lt_of_getLsbD hpoly)
  obtain ⟨front, x, as, bs, rfl, rfl, hlen'⟩ := exists_first_difference hlen hne
  -- from the first difference on, the registers differ by that of the error
  have hdiff : run poly 0#w (true :: as.zipWith xor bs) = 0#w := by
    have hxor : run poly (run poly c front ^^^ run poly c front) ((x :: as).zipWith xor ((!x) :: bs))
        = run poly (run poly c front) (x :: as) ^^^ run poly (run poly c front) ((!x) :: bs) :=
      run_xor (congrArg Nat.succ hlen')
    unfold run at heq hxor ⊢
    rw [foldl_append, foldl_append] at heq
    rwa [BitVec.xor_self, heq, BitVec.xor_self, zipWith_cons_cons, Bool.xor_not_self] at hxor
  have hfirst : feed poly 0#w true = poly := by
    rw [feed_eq, BitVec.getLsbD_zero, Bool.true_and, decide_eq_true hw, Bool.false_xor, if_pos rfl,
      BitVec.zero_ushiftRight, BitVec.zero_xor]
  have hdiff : run poly poly (as.zipWith xor bs) = 0#w := by
    rw [← hdiff]
    show _ = run poly (feed poly 0#w true) _
    rw [hfirst]
  refine run_ne_zero hpoly _ hpoly (Nat.le_refl _) (fun j hj => ?_) hdiff
  -- the burst has begun, so its last bit is near
  have hstart := hburst front.length (by simp)
  have hend := hburst (front.length + 1 + j) (by
    rw [getElem?_append_right (by omega), getElem?_append_right (by omega),
      show front.length + 1 + j - front.length = j + 1 by omega, getElem?_cons_succ,
      getElem?_cons_succ]
    intro hsame
    rw [getElem?_zipWith, hsame] at hj
    cases hb : bs[j]? <;> rw [hb] at hj <;> simp at hj)
  omega

end AlaphiOS.Lib.ShiftRegister
