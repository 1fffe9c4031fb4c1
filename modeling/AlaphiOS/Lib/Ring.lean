import Mathlib.Data.Nat.ModEq

/-!
# Ring buffers

A buffer of `n` slots between a writer, who moves `tail`, and a reader, who moves `head`. One slot
stays empty, so that `head = tail` means empty; a `push` that would fill it is dropped.

`contents` is the queue that the ring stands for: `contents_push` and `contents_pop` are all that
is needed of the indices.
-/

namespace AlaphiOS.Lib

open Function List

/-- A ring buffer of `n` cells. -/
structure Ring (n : Nat) (α : Type) where
  buf : Nat → α
  head : Nat
  tail : Nat
  head_lt : head < n
  tail_lt : tail < n

namespace Ring

variable {n : Nat} {α : Type} (r : Ring n α)

/-- No slot is left but the one that stays empty. -/
def Full : Prop := (r.tail + 1) % n = r.head

instance : Decidable r.Full := inferInstanceAs (Decidable (_ = _))

/-- Add an element, unless it is full. -/
def push (x : α) : Ring n α :=
  if (r.tail + 1) % n ≠ r.head then
    { r with
      buf := update r.buf r.tail x
      tail := (r.tail + 1) % n
      tail_lt := Nat.mod_lt _ (Nat.zero_lt_of_lt r.tail_lt) }
  else r

/-- Take the oldest. -/
def pop : Option (α × Ring n α) :=
  if r.head = r.tail then none
  else
    some (r.buf r.head,
      { r with
        head := (r.head + 1) % n
        head_lt := Nat.mod_lt _ (Nat.zero_lt_of_lt r.head_lt) })

/-- How many slots are taken. -/
def len : Nat := (r.tail + (n - r.head)) % n

/-- What is in the ring, the oldest first. -/
def contents : List α := (range r.len).map fun i => r.buf ((r.head + i) % n)

variable {r}

/-- `len` counts the contents. -/
theorem length_contents : r.contents.length = r.len := by
  unfold contents
  rw [length_map, length_range]

theorem len_lt : r.len < n := Nat.mod_lt _ (Nat.zero_lt_of_lt r.head_lt)

/-- The writer is `len` slots ahead of the reader. -/
theorem head_add_len : (r.head + r.len) % n = r.tail := by
  have hsum : r.head + (r.tail + (n - r.head)) = r.tail + n := by
    have := r.head_lt
    omega
  unfold len
  rw [Nat.add_mod_mod, hsum, Nat.add_mod_right, Nat.mod_eq_of_lt r.tail_lt]

/-- Less than a round ahead of `head`, each slot is met once. -/
theorem offset_inj {i j : Nat} (hi : i < n) (hj : j < n) (h : (r.head + i) % n = (r.head + j) % n) :
    i = j :=
  (Nat.ModEq.add_left_cancel' r.head h).eq_of_lt_of_lt hi hj

theorem len_eq {k : Nat} (hk : k < n) (h : (r.head + k) % n = r.tail) : r.len = k :=
  offset_inj len_lt hk (head_add_len.trans h.symm)

/-- There is room for one more. -/
theorem len_succ_lt (h : ¬ r.Full) : r.len + 1 < n := by
  rcases Nat.lt_or_ge (r.len + 1) n with hlt | hge
  · exact hlt
  have hround : r.len + 1 = n := Nat.le_antisymm len_lt hge
  refine absurd ?_ h
  unfold Full
  rw [← head_add_len, Nat.mod_add_mod, Nat.add_assoc, hround, Nat.add_mod_right,
    Nat.mod_eq_of_lt r.head_lt]

/-- A full ring has one free cell. -/
theorem len_succ_of_full (h : r.Full) : r.len + 1 = n := by
  rcases Nat.lt_or_ge (r.len + 1) n with hlt | hge
  · have hround : (r.head + (r.len + 1)) % n = (r.head + 0) % n := by
      rw [← Nat.add_assoc, ← Nat.mod_add_mod, head_add_len, Nat.add_zero r.head,
        Nat.mod_eq_of_lt r.head_lt]
      exact h
    exact absurd (offset_inj hlt (Nat.zero_lt_of_lt hlt) hround) (Nat.succ_ne_zero _)
  · exact Nat.le_antisymm len_lt hge

/-- A push goes to the end. -/
theorem contents_push (h : ¬ r.Full) (x : α) : (r.push x).contents = r.contents ++ [x] := by
  have hpush : r.push x = _ := if_pos h
  have hlen : (r.push x).len = r.len + 1 := by
    rw [hpush]
    refine len_eq (len_succ_lt h) ?_
    dsimp only
    rw [← Nat.add_assoc, ← Nat.mod_add_mod, head_add_len]
  unfold contents
  rw [hlen, range_succ, map_append, hpush]
  dsimp only
  congr 1
  · refine map_congr_left fun i hi => ?_
    have hi : i < r.len := mem_range.mp hi
    refine update_of_ne (fun heq => ?_) _ _
    exact Nat.ne_of_lt hi (offset_inj (hi.trans len_lt) len_lt (heq.trans head_add_len.symm))
  · rw [map_singleton, head_add_len, update_self]

theorem len_eq_zero : r.len = 0 ↔ r.head = r.tail := by
  constructor
  · intro h
    have := head_add_len (r := r)
    rwa [h, Nat.add_zero, Nat.mod_eq_of_lt r.head_lt] at this
  · intro h
    refine len_eq (Nat.zero_lt_of_lt r.head_lt) ?_
    rw [Nat.add_zero, Nat.mod_eq_of_lt r.head_lt, h]

/-- A pop takes the front. -/
theorem contents_pop {x : α} {r' : Ring n α} (h : r.pop = some (x, r')) :
    r.contents = x :: r'.contents := by
  unfold pop at h
  split at h
  · exact nomatch h
  next hne =>
    obtain ⟨rfl, hr'⟩ := Prod.mk.inj (Option.some.inj h)
    obtain ⟨k, hk⟩ := Nat.exists_eq_succ_of_ne_zero (mt len_eq_zero.mp hne)
    have hslot : ∀ i, (r'.head + i) % n = (r.head + (i + 1)) % n := by
      intro i
      rw [← hr', Nat.mod_add_mod, Nat.add_assoc, Nat.add_comm 1 i]
    have hlen : r'.len = k := by
      refine len_eq (Nat.lt_of_succ_lt (hk ▸ len_lt)) ?_
      rw [hslot, ← Nat.succ_eq_add_one, ← hk, head_add_len, ← hr']
    unfold contents
    rw [hlen, hk, range_succ_eq_map, map_cons, map_map]
    congr 1
    · rw [Nat.add_zero, Nat.mod_eq_of_lt r.head_lt]
    · refine map_congr_left fun i _ => ?_
      rw [hslot, ← hr']
      rfl

end Ring

end AlaphiOS.Lib
