import AlaphiOS.Lib.Bytes
import Mathlib.Data.List.GetD
import Mathlib.Tactic.Common

/-!
# Stretches of bytes

Between a memory and lists of bytes there are two operations: `slice` reads a
stretch of memory as a list, and `splice` overwrites a stretch of a list.
`slice_blit` says that overwriting memory is splicing its slices, `blit_splice`
that writing back a spliced slice changes only the spliced stretch, and
`slice_append`, `splice_splice` and `blit_blit` cut stretches in two, which is what a
loop over chunks does. A record is arrays one behind the other, which are `cut` out of
it again; `toLE` and `ofLE` are the numbers in it.
-/

namespace AlaphiOS.Lib

open List

/-- The `n` bytes from `a` on. -/
def slice (m : Mem) (a n : Nat) : List UInt8 := (range n).map fun i => m (a + i)

/-- The list with `c` in place of what is at `pos`. -/
def splice (l : List UInt8) (pos : Nat) (c : List UInt8) : List UInt8 :=
  l.take pos ++ c ++ l.drop (pos + c.length)

section

variable {m : Mem} {a n k pos : Nat} {l c : List UInt8}

@[simp] theorem length_slice : (slice m a n).length = n := by
  unfold slice
  rw [length_map, length_range]

theorem getElem?_slice (h : k < n) : (slice m a n)[k]? = some (m (a + k)) := by
  unfold slice
  rw [getElem?_map, getElem?_range h]
  rfl

theorem getD_slice (h : k < n) : (slice m a n).getD k 0 = m (a + k) := by
  rw [getD_eq_getElem?_getD, getElem?_slice h]
  rfl

theorem slice_append (m : Mem) (a n k : Nat) :
    slice m a n ++ slice m (a + n) k = slice m a (n + k) := by
  unfold slice
  rw [range_add, map_append, map_map]
  congr 2
  funext i
  exact congrArg m (Nat.add_assoc a n i)

/-- A slice of a slice. -/
theorem take_drop_slice (h : pos + k ≤ n) :
    ((slice m a n).drop pos).take k = slice m (a + pos) k := by
  obtain ⟨r, rfl⟩ := Nat.exists_eq_add_of_le h
  rw [Nat.add_assoc, ← slice_append m a pos (k + r), ← slice_append m (a + pos) k r,
    drop_left' length_slice, take_left' length_slice]

@[simp] theorem length_splice (h : pos + c.length ≤ l.length) :
    (splice l pos c).length = l.length := by
  unfold splice
  rw [length_append, length_append, length_take, length_drop]
  omega

theorem getD_take (h : k < n) : (l.take n).getD k 0 = l.getD k 0 := by
  rw [getD_eq_getElem?_getD, getElem?_take_of_lt h, ← getD_eq_getElem?_getD]

theorem getD_drop : (l.drop n).getD k 0 = l.getD (n + k) 0 := by
  rw [getD_eq_getElem?_getD, getElem?_drop, ← getD_eq_getElem?_getD]

theorem getD_splice (h : pos + c.length ≤ l.length) :
    (splice l pos c).getD k 0
      = if pos ≤ k ∧ k < pos + c.length then c.getD (k - pos) 0 else l.getD k 0 := by
  have htake : (l.take pos).length = pos := length_take_of_le (by omega)
  have hfront : (l.take pos ++ c).length = pos + c.length := by rw [length_append, htake]
  unfold splice
  by_cases hk : k < pos + c.length
  · rw [getD_append _ _ _ _ (by omega)]
    by_cases hpos : pos ≤ k
    · rw [if_pos ⟨hpos, hk⟩, getD_append_right _ _ _ _ (by omega), htake]
    · rw [if_neg (by omega), getD_append _ _ _ _ (by omega), getD_take (by omega)]
  · rw [if_neg (by omega), getD_append_right _ _ _ _ (by omega), hfront, getD_drop,
      Nat.add_sub_cancel' (by omega)]

/-- Two splices, one behind the other. -/
theorem splice_splice {c' : List UInt8} (h : pos ≤ l.length) :
    splice (splice l pos c) (pos + c.length) c' = splice l pos (c ++ c') := by
  have hfront : (l.take pos ++ c).length = pos + c.length := by
    rw [length_append, length_take_of_le h]
  unfold splice
  rw [take_left' hfront, drop_append, drop_of_length_le (by omega), hfront,
    Nat.add_sub_cancel_left, nil_append, drop_drop, length_append, Nat.add_assoc,
    append_assoc (l.take pos)]

/-! ## Memory -/

theorem blit_congr {f g : Nat → UInt8} (h : ∀ i < n, f i = g i) : blit m a n f = blit m a n g := by
  funext x
  by_cases hx : a ≤ x ∧ x < a + n
  · rw [blit_in hx.1 hx.2, blit_in hx.1 hx.2, h (x - a) (by omega)]
  · rw [blit_out (by omega), blit_out (by omega)]

/-- Two stretches, one after the other. -/
theorem blit_blit (h : n ≤ l.length) :
    blit (blit m a n fun i => l.getD i 0) (a + n) (l.length - n) (fun i => (l.drop n).getD i 0)
      = blit m a l.length fun i => l.getD i 0 := by
  funext x
  by_cases hx : a ≤ x ∧ x < a + l.length
  · by_cases hn : x < a + n
    · rw [blit_out (.inl hn), blit_in hx.1 hn, blit_in hx.1 hx.2]
    · rw [blit_in (by omega) (by omega), blit_in hx.1 hx.2, getD_drop]
      congr 1
      omega
  · rw [blit_out (by omega), blit_out (by omega), blit_out (by omega)]

/-- Overwriting memory splices what is read from it. -/
theorem slice_blit (h : pos + c.length ≤ n) :
    slice (blit m (a + pos) c.length fun i => c.getD i 0) a n = splice (slice m a n) pos c := by
  have hlen : (splice (slice m a n) pos c).length = n := by
    rw [length_splice (by rw [length_slice]; exact h), length_slice]
  refine ext_getElem (by rw [length_slice, hlen]) fun k h₁ h₂ => ?_
  rw [length_slice] at h₁
  rw [← getD_eq_getElem _ 0, ← getD_eq_getElem _ 0, getD_slice h₁,
    getD_splice (by rw [length_slice]; exact h), getD_slice h₁]
  by_cases hk : pos ≤ k ∧ k < pos + c.length
  · rw [if_pos hk, blit_in (by omega) (by omega)]
    congr 1
    omega
  · rw [if_neg hk, blit_out (by omega)]

/-- Read, change and write back. -/
theorem blit_splice (h : pos + c.length ≤ n) :
    blit m a n (fun k => (splice (slice m a n) pos c).getD k 0)
      = blit m (a + pos) c.length fun i => c.getD i 0 := by
  funext x
  by_cases hx : a ≤ x ∧ x < a + n
  · rw [blit_in hx.1 hx.2, getD_splice (by rw [length_slice]; exact h)]
    by_cases hk : pos ≤ x - a ∧ x - a < pos + c.length
    · rw [if_pos hk, blit_in (by omega) (by omega)]
      congr 1
      omega
    · rw [if_neg hk, blit_out (by omega), getD_slice (by omega), Nat.add_sub_cancel' hx.1]
  · rw [blit_out (by omega), blit_out (by omega)]

end

/-! ## Records -/

namespace Block

/-- An array of one byte. -/
def byte (b : UInt8) : Block 1 := ⟨[b], rfl⟩

/-- One array behind the other. -/
protected def append {n k : Nat} (x : Block n) (y : Block k) : Block (n + k) :=
  ⟨x.1 ++ y.1, by rw [length_append, x.2, y.2]⟩

/-- The `k` bytes from `i` on. -/
def cut {n : Nat} (x : Block n) (i k : Nat) (h : i + k ≤ n) : Block k :=
  ⟨(x.1.drop i).take k, length_take_of_le (by rw [length_drop, x.2]; omega)⟩

variable {n k i j : Nat} {x : Block n} {y : Block k}

theorem cut_append_left (h : i + j ≤ n) (h' : i + j ≤ n + k) :
    (x.append y).cut i j h' = x.cut i j h := by
  apply Subtype.ext
  show ((x.1 ++ y.1).drop i).take j = (x.1.drop i).take j
  rw [drop_append_of_le_length (by rw [x.2]; omega),
    take_append_of_le_length (by rw [length_drop, x.2]; omega)]

theorem cut_append_right (h : n + k ≤ n + k) : (x.append y).cut n k h = y := by
  apply Subtype.ext
  show ((x.1 ++ y.1).drop n).take k = y.1
  rw [drop_left' x.2, take_of_length_le (Nat.le_of_eq y.2)]

theorem getD_append_left (h : i < n) : (x.append y).1.getD i 0 = x.1.getD i 0 :=
  getD_append _ _ _ _ (by rw [x.2]; exact h)

theorem getD_append_right : (x.append y).1.getD n 0 = y.1.getD 0 0 := by
  show (x.1 ++ y.1).getD n 0 = _
  rw [List.getD_append_right _ _ _ _ (Nat.le_of_eq x.2), x.2, Nat.sub_self]

end Block

/-- `to_le_bytes`, `n` of them. -/
def toLE (n v : Nat) : Block n := ⟨slice (byteOf v) 0 n, length_slice⟩

/-- `from_le_bytes`. -/
def ofLE {n : Nat} (b : Block n) : Nat := readLE (fun i => b.1.getD i 0) 0 n

theorem ofLE_toLE {n v : Nat} (h : v < 256 ^ n) : ofLE (toLE n v) = v := by
  unfold ofLE
  rw [readLE_bytes (v := v) n 0 0 fun i hi => by
    rw [Nat.zero_add]
    show (slice (byteOf v) 0 n).getD i 0 = _
    rw [getD_slice hi, Nat.zero_add], Nat.pow_zero, Nat.div_one, Nat.mod_eq_of_lt h]

end AlaphiOS.Lib
