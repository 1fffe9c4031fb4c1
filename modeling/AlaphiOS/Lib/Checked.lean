import Mathlib.Algebra.Group.Int.Defs
import Mathlib.Algebra.Group.Nat.Defs
import Mathlib.Algebra.GroupWithZero.Nat
import Mathlib.Tactic.Common

/-!
# Checked machine arithmetic

The kernel is built with overflow checks: a sum or product that does not fit
its type stops it. `none` is that panic. `bind_eq_ok` is for code that returns an
error early instead.
-/

namespace AlaphiOS.Lib

open List Option

/-- `usize` and `u64` addition. -/
def usizeAdd (a b : Nat) : Option Nat := if a + b < 2 ^ 64 then some (a + b) else none

/-- `u32` addition. -/
def u32Add (a b : Nat) : Option Nat := if a + b < 2 ^ 32 then some (a + b) else none

/-- `u8` addition. -/
def u8Add (a b : Nat) : Option Nat := if a + b < 2 ^ 8 then some (a + b) else none

/-- `usize` multiplication. -/
def usizeMul (a b : Nat) : Option Nat := if a * b < 2 ^ 64 then some (a * b) else none

/-- `usize` and `u64` subtraction. -/
def usizeSub (a b : Nat) : Option Nat := if b ≤ a then some (a - b) else none

/-- `x as i64` of a `u64`. -/
def asI64 (x : Nat) : Int := Int.bmod x (2 ^ 64)

/-- `i64` addition. -/
def i64Add (a b : Int) : Option Int :=
  if -2 ^ 63 ≤ a + b ∧ a + b < 2 ^ 63 then some (a + b) else none

/-- `x as u64` of an `i64`. -/
def asU64 (x : Int) : Nat := (x % 2 ^ 64).toNat

variable {a b c : Nat} {α ε : Type}

/-- What a checked operation returns, and that it may. -/
theorem some_of_ite {x y : α} {p : Prop} [Decidable p] (h : (if p then some x else none) = some y) :
    y = x ∧ p := by
  split at h
  next hp => exact ⟨(some.inj h).symm, hp⟩
  · cases h

theorem usizeAdd_of_lt (h : a + b < 2 ^ 64) : usizeAdd a b = some (a + b) := if_pos h

theorem usizeMul_of_lt (h : a * b < 2 ^ 64) : usizeMul a b = some (a * b) := if_pos h

theorem usizeMul_eq (h : usizeMul a b = some c) : c = a * b ∧ a * b < 2 ^ 64 := some_of_ite h

theorem usizeSub_eq (h : usizeSub a b = some c) : c = a - b ∧ b ≤ a := some_of_ite h

theorem usizeAdd_eq (h : usizeAdd a b = some c) : c = a + b ∧ a + b < 2 ^ 64 := some_of_ite h

/-- A number that both types have is the same in both. -/
theorem asI64_of_lt {x : Nat} (h : x < 2 ^ 63) : asI64 x = x :=
  Int.bmod_eq_of_le (by omega) (by omega)

theorem asU64_of_range {x : Int} (h₀ : 0 ≤ x) (h : x < 2 ^ 63) : asU64 x = x.toNat := by
  unfold asU64
  rw [Int.emod_eq_of_lt h₀ (by omega)]

theorem u8Add_eq (h : u8Add a b = some c) : c = a + b ∧ a + b < 2 ^ 8 := some_of_ite h

theorem u32Add_eq (h : u32Add a b = some c) : c = a + b ∧ a + b < 2 ^ 32 := some_of_ite h

/-- Two sums in a row overflow exactly if their sum does. -/
theorem usizeAdd_bind (n a b : Nat) :
    ((usizeAdd n a).bind fun m => usizeAdd m b) = usizeAdd n (a + b) := by
  unfold usizeAdd
  by_cases h : n + a < 2 ^ 64
  · rw [if_pos h, bind_some, Nat.add_assoc]
  · rw [if_neg h, if_neg (show ¬ n + (a + b) < 2 ^ 64 by omega)]
    rfl

/-- A loop that adds up sizes and collects what belongs to the elements. -/
theorem foldlM_usizeAdd {β : Type} {body : Nat × List β → α → Option (Nat × List β)}
    {size : α → Nat} {out : α → List β} : ∀ {l : List α},
    (∀ a ∈ l, ∀ n bs, n < 2 ^ 64 →
      body (n, bs) a = (usizeAdd n (size a)).map fun m => (m, bs ++ out a)) →
    ∀ {n : Nat} {bs : List β}, n < 2 ^ 64 → l.foldlM body (n, bs)
      = (usizeAdd n (l.map size).sum).map fun m => (m, bs ++ l.flatMap out) := by
  intro l
  induction l with
  | nil =>
    intro _ n bs hn
    rw [map_nil, sum_nil, usizeAdd_of_lt (show n + 0 < 2 ^ 64 from hn), flatMap_nil,
      append_nil]
    rfl
  | cons a l ih =>
    intro hbody n bs hn
    rw [foldlM_cons, hbody a mem_cons_self n bs hn, map_cons, sum_cons,
      ← usizeAdd_bind, flatMap_cons, ← append_assoc]
    cases hadd : usizeAdd n (size a) with
    | none => rfl
    | some m =>
      obtain ⟨rfl, hm⟩ := usizeAdd_eq hadd
      exact ih (fun b hb => hbody b (mem_cons_of_mem _ hb)) hm

/-- A chain of checks went through. -/
theorem bind_eq_ok {β : Type} {x : Except ε α} {f : α → Except ε β} {b : β}
    (h : (x >>= f) = .ok b) : ∃ a, x = .ok a ∧ f a = .ok b := by
  cases x with
  | error e => exact absurd h (by simp [bind, Except.bind])
  | ok a => exact ⟨a, rfl, h⟩

theorem throw_ne_ok {e : ε} {a : α} : (throw e : Except ε α) ≠ .ok a :=
  fun h => by simp [throw, throwThe, MonadExceptOf.throw] at h

/-- A check at the front of a chain. -/
theorem guard_eq_ok {c : Prop} [Decidable c] {e : ε} {x : Except ε α} {a : α} (h : (do
      if c then throw e
      x) = .ok a) : ¬ c ∧ x = .ok a := by
  by_cases hc : c
  · rw [if_pos hc] at h
    obtain ⟨_, h, _⟩ := bind_eq_ok h
    exact absurd h throw_ne_ok
  · rw [if_neg hc] at h
    exact ⟨hc, h⟩

end AlaphiOS.Lib
