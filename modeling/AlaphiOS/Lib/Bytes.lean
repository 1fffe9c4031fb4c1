import Mathlib.Algebra.Group.Int.Defs
import Mathlib.Algebra.Group.Nat.Defs

/-!
# Byte-addressed memory

A memory is a total map from addresses to bytes. Every bulk write a low-level
program makes (`write_bytes`, `copy_nonoverlapping`, storing a machine word)
is one shape: overwrite `n` consecutive bytes and leave the rest alone. `blit`
is that shape, and the whole theory is its two reads, `blit_in` and
`blit_out`; words are little-endian blits of eight bytes.

Nothing here is about a particular program. The facts a client needs are
`readWord_writeWord` (a stored word reads back) and `readWord_congr` (a word
only depends on its own eight bytes), from which every frame argument follows.
A record is words one behind the other: `readWords_writeWords` and
`readWords_congr` are the same two facts for it.
-/

namespace AlaphiOS.Lib

/-- An array `[u8; n]`. -/
abbrev Block (n : Nat) := { bytes : List UInt8 // bytes.length = n }

/-- A memory: the byte at every address. -/
abbrev Mem := Nat → UInt8

/-- Overwrite the `n` bytes from `dst` on with `f 0, f 1, …`. -/
def blit (m : Mem) (dst n : Nat) (f : Nat → UInt8) : Mem :=
  fun x => if dst ≤ x ∧ x < dst + n then f (x - dst) else m x

variable {m m' : Mem} {a dst n v x : Nat} {f : Nat → UInt8}

theorem blit_in (h₁ : dst ≤ x) (h₂ : x < dst + n) : blit m dst n f x = f (x - dst) :=
  if_pos ⟨h₁, h₂⟩

/-- The byte number `k` of what was written. -/
theorem blit_at {k : Nat} (h : k < n) : blit m dst n f (dst + k) = f k := by
  rw [blit_in (Nat.le_add_right _ _) (Nat.add_lt_add_left h _), Nat.add_sub_cancel_left]

theorem blit_out (h : x < dst ∨ dst + n ≤ x) : blit m dst n f x = m x :=
  if_neg (by omega)

/-- `core::ptr::write_bytes`: set `n` bytes to `b`. -/
def fill (m : Mem) (dst n : Nat) (b : UInt8) : Mem := blit m dst n fun _ => b

theorem fill_in {b : UInt8} (h₁ : dst ≤ x) (h₂ : x < dst + n) : fill m dst n b x = b :=
  blit_in h₁ h₂

/-- `core::ptr::copy_nonoverlapping`: copy `n` bytes from `src` to `dst`. -/
def copyBytes (m : Mem) (src dst n : Nat) : Mem := blit m dst n fun i => m (src + i)

/-- Byte `i` of the little-endian representation of `v`. -/
def byteOf (v i : Nat) : UInt8 := UInt8.ofNat (v / 256 ^ i)

/-- The number whose `n` little-endian bytes start at `a`. -/
def readLE (m : Mem) (a : Nat) : Nat → Nat
  | 0 => 0
  | n + 1 => (m a).toNat + 256 * readLE m (a + 1) n

/-- Load a 64-bit word. -/
def readWord (m : Mem) (a : Nat) : Nat := readLE m a 8

/-- Store a 64-bit word. -/
def writeWord (m : Mem) (a v : Nat) : Mem := blit m a 8 (byteOf v)

theorem readLE_congr (n a : Nat) (h : (∀ x, a ≤ x → x < a + n → m' x = m x)) :
    readLE m' a n = readLE m a n := by
  induction n generalizing a with
  | zero => rfl
  | succ n ih =>
    rw [readLE, readLE, h a (Nat.le_refl _) (by omega)]
    rw [ih (a + 1) (fun x h₁ h₂ => h x (by omega) (by omega))]

/-- A word depends on its own eight bytes only. -/
theorem readWord_congr (h : ∀ x, a ≤ x → x < a + 8 → m' x = m x) : readWord m' a = readWord m a :=
  readLE_congr 8 a h

/-- Reading `n` bytes of a value's little-endian tail gives the value back,
modulo the width. The induction shifts the base address and the byte index
together. -/
theorem readLE_bytes (n a k : Nat) (h : (∀ i, i < n → m (a + i) = byteOf v (k + i))) :
    readLE m a n = v / 256 ^ k % 256 ^ n := by
  induction n generalizing a k with
  | zero => rw [readLE, Nat.pow_zero, Nat.mod_one]
  | succ n ih =>
    have hhead : (m a).toNat = v / 256 ^ k % 256 := by
      have h0 := h 0 (by omega)
      rw [Nat.add_zero, Nat.add_zero] at h0
      rw [h0, byteOf, UInt8.toNat_ofNat']
    have htail := ih (a + 1) (k + 1) (fun i hi => by
      have hi' := h (i + 1) (by omega)
      rw [show a + 1 + i = a + (i + 1) by omega, show k + 1 + i = k + (i + 1) by omega]
      exact hi')
    rw [readLE, hhead, htail, Nat.pow_succ 256 k, ← Nat.div_div_eq_div_mul,
      Nat.pow_succ, Nat.mul_comm (256 ^ n) 256, Nat.mod_mul]

/-- A stored 64-bit word reads back. -/
theorem readWord_writeWord (hv : v < 2 ^ 64) : readWord (writeWord m a v) a = v := by
  have h := readLE_bytes (m := writeWord m a v) (v := v) 8 a 0 (fun i hi => by
    rw [writeWord, blit_at hi, Nat.zero_add])
  rw [readWord, h, Nat.pow_zero, Nat.div_one, Nat.mod_eq_of_lt]
  exact Nat.lt_of_lt_of_le hv (by decide)

/-- Storing a word leaves every word it does not overlap alone. -/
theorem readWord_writeWord_ne {b : Nat} (h : b + 8 ≤ a ∨ a + 8 ≤ b) :
    readWord (writeWord m a v) b = readWord m b :=
  readWord_congr fun _ _ _ => blit_out (by omega)

/-! ## Words one behind the other -/

/-- Store words from `a` on. -/
def writeWords (m : Mem) (a : Nat) : List UInt64 → Mem
  | [] => m
  | w :: ws => writeWords (writeWord m a w.toNat) (a + 8) ws

/-- Load `n` words from `a` on. -/
def readWords (m : Mem) (a : Nat) : Nat → List UInt64
  | 0 => []
  | n + 1 => UInt64.ofNat (readWord m a) :: readWords m (a + 8) n

theorem readWords_congr (n : Nat) (h : (∀ x, a ≤ x → x < a + 8 * n → m' x = m x)) :
    readWords m' a n = readWords m a n := by
  induction n generalizing a with
  | zero => rfl
  | succ n ih =>
    rw [readWords, readWords, readWord_congr fun x h₁ h₂ => h x h₁ (by omega),
      ih fun x h₁ h₂ => h x (by omega) (by omega)]

theorem writeWords_out (ws : List UInt64)
    (h : (x < a ∨ a + 8 * ws.length ≤ x)) : writeWords m a ws x = m x := by
  induction ws generalizing m a x with
  | nil => rfl
  | cons w ws ih =>
    rw [List.length_cons] at h
    rw [writeWords, ih (by omega)]
    exact blit_out (by omega)

theorem readWords_writeWords (ws : List UInt64) :
    readWords (writeWords m a ws) a ws.length = ws := by
  induction ws generalizing m a with
  | nil => rfl
  | cons w ws ih =>
    -- the words behind the first one are stored above it
    have hfirst : readWord (writeWords (writeWord m a w.toNat) (a + 8) ws) a = w.toNat := by
      rw [readWord_congr fun x _ h₂ => writeWords_out ws (.inl h₂), readWord_writeWord w.toNat_lt]
    rw [List.length_cons, readWords, writeWords, hfirst, UInt64.ofNat_toNat, ih]

end AlaphiOS.Lib
