import Mathlib.Tactic.Common

/-!
# Files of bytes

A file is a list. To write at an offset is to overwrite what is there and to extend the file at its
end (`overwrite`); an offset past the end counts as the end. A read from an offset gives some
elements of what follows, and at least one if any follow (`ReadOf`).

The facts a client needs: a write at an offset in the file reads back from there
(`portion_overwrite`), it does not touch other places (`portion_overwrite_of_disjoint`), one behind
the end does not read back (`portion_overwrite_ne`), and reads one after the other give what follows
the first offset, piece by piece (`ReadsOf`).
-/

namespace AlaphiOS.Lib

open List

variable {α : Type}

/-- Write `buf` at an offset. -/
def overwrite (data : List α) (offset : Nat) (buf : List α) : List α :=
  data.take offset ++ buf ++ data.drop (min offset data.length + buf.length)

/-- The `n` elements from an offset on, or what there is of them. -/
def portion (data : List α) (offset n : Nat) : List α := (data.drop offset).take n

variable {buf data : List α} {i n offset : Nat} {ns : List Nat} {outs : List (List α)}

theorem getElem?_portion :
    (portion data offset n)[i]? = if i < n then data[offset + i]? else none := by
  unfold portion
  rw [getElem?_take, getElem?_drop]

theorem getElem?_overwrite : (overwrite data offset buf)[i]?
      = if i < min offset data.length then data[i]?
        else if i < min offset data.length + buf.length then buf[i - min offset data.length]?
        else data[i]? := by
  unfold overwrite
  rw [getElem?_append, getElem?_append, length_append, length_take,
    getElem?_take, getElem?_drop]
  split
  next hlt =>
    split
    next hin => rw [if_pos (by omega)]
    · rfl
  next hge =>
    rw [if_neg (by omega)]
    congr 1
    omega

/-- To write nothing changes nothing. -/
theorem overwrite_nil : overwrite data offset [] = data := by
  apply ext_getElem?
  intro i
  rw [getElem?_overwrite, length_nil]
  split
  · rfl
  · exact if_neg (by omega)

theorem length_overwrite (h : offset ≤ data.length) :
    (overwrite data offset buf).length = max data.length (offset + buf.length) := by
  unfold overwrite
  rw [length_append, length_append, length_take, length_drop]
  omega

/-- A write never makes a file shorter. -/
theorem length_le_overwrite : data.length ≤ (overwrite data offset buf).length := by
  unfold overwrite
  rw [length_append, length_append, length_take, length_drop]
  omega

/-- What was written in the file or at its end reads back. -/
theorem portion_overwrite (h : offset ≤ data.length) :
    portion (overwrite data offset buf) offset buf.length = buf := by
  apply ext_getElem?
  intro i
  rw [getElem?_portion, getElem?_overwrite, Nat.min_eq_left h]
  by_cases hi : i < buf.length
  · rw [if_pos hi, if_neg (by omega), if_pos (by omega), Nat.add_sub_cancel_left]
  · rw [if_neg hi, getElem?_eq_none (by omega)]

/-- The other places of the file are as they were. -/
theorem getElem?_overwrite_other (h : offset ≤ data.length)
    (hi : i < offset ∨ offset + buf.length ≤ i) : (overwrite data offset buf)[i]? = data[i]? := by
  rw [getElem?_overwrite, Nat.min_eq_left h]
  split
  · rfl
  · rw [if_neg (by omega)]

/-- So is a part of the file that the write does not reach. -/
theorem portion_overwrite_of_disjoint {start : Nat} (hin : start + n ≤ data.length)
    (h : offset + buf.length ≤ start ∨ start + n ≤ offset) :
    portion (overwrite data offset buf) start n = portion data start n := by
  apply ext_getElem?
  intro i
  rw [getElem?_portion, getElem?_portion]
  split
  next hi =>
    rw [getElem?_overwrite]
    split
    · rfl
    · rw [if_neg (by omega)]
  · rfl

/-- What was written behind the end is not where it should be. -/
theorem portion_overwrite_ne (h : data.length < offset)
    (hbuf : buf ≠ []) : portion (overwrite data offset buf) offset buf.length ≠ buf := by
  intro heq
  have hpos := length_pos_iff.mpr hbuf
  have hlen : (overwrite data offset buf).length = data.length + buf.length := by
    unfold overwrite
    rw [length_append, length_append, length_take, length_drop]
    omega
  have hportion := congrArg length heq
  unfold portion at hportion
  rw [length_take, length_drop, hlen] at hportion
  omega

/-! ## Reading -/

/-- A read of up to `n` elements from an offset. -/
structure ReadOf (data : List α) (offset n : Nat) (out : List α) : Prop where
  part : out <+: portion data offset n
  some : portion data offset n ≠ [] → out ≠ []

theorem ReadOf.length_le {out : List α} (h : ReadOf data offset n out) :
    out = [] ∨ offset + out.length ≤ data.length := by
  have hle := h.part.length_le
  unfold portion at hle
  rw [length_take, length_drop] at hle
  by_cases hnil : out = []
  · exact .inl hnil
  · have hpos := length_pos_iff.mpr hnil
    exact .inr (by omega)

/-- Reads of these lengths, one after the other, the first from the offset. -/
inductive ReadsOf (data : List α) : Nat → List Nat → List (List α) → Prop
  | nil {offset : Nat} : ReadsOf data offset [] []
  | cons {offset n : Nat} {out : List α} {ns : List Nat} {outs : List (List α)}
      (h : ReadOf data offset n out) (hrest : ReadsOf data (offset + out.length) ns outs) :
      ReadsOf data offset (n :: ns) (out :: outs)

/-- Together they are the beginning of what follows the offset. -/
theorem ReadsOf.part (h : ReadsOf data offset ns outs) : outs.flatten <+: data.drop offset := by
  induction h with
  | nil => exact nil_prefix
  | @cons offset n out ns outs h _ ih =>
    rw [flatten_cons]
    have htake : portion data offset n <+: data.drop offset := take_prefix _ _
    have hout : out <+: data.drop offset := h.part.trans htake
    obtain ⟨rest, hrest⟩ := hout
    rw [← hrest]
    refine (prefix_append_right_inj out).mpr ?_
    have hdrop : data.drop (offset + out.length) = rest := by
      rw [← drop_drop, ← hrest, drop_left]
    rwa [hdrop] at ih

/-- Enough reads get everything up to a place in the file. -/
theorem ReadsOf.enough (h : ReadsOf data offset ns outs) (hns : ∀ n ∈ ns, 0 < n) {m : Nat}
    (hm : offset + m ≤ data.length) (hle : m ≤ ns.length) : m ≤ outs.flatten.length := by
  induction h generalizing m with
  | nil => exact hle
  | @cons offset n out ns outs h _ ih =>
    rw [flatten_cons, length_append]
    by_cases hpos : m = 0
    · omega
    · -- something follows, so the first read gets at least one element
      have hn := hns n mem_cons_self
      have hsome : portion data offset n ≠ [] := by
        unfold portion
        intro hnil
        have hlen := congrArg length hnil
        rw [length_take, length_drop, length_nil] at hlen
        omega
      have hout := length_pos_iff.mpr (h.some hsome)
      rw [length_cons] at hle
      have hrest := ih (fun n hn => hns n (mem_cons_of_mem _ hn)) (m := m - out.length)
        (by rcases h.length_le with rfl | h <;> omega) (by omega)
      omega

/-- If a part of the file from the offset is known, so is what the reads return of it. -/
theorem ReadsOf.of_portion (h : ReadsOf data offset ns outs)
    (hbuf : portion data offset buf.length = buf) :
    outs.flatten.take buf.length = buf.take outs.flatten.length := by
  obtain ⟨rest, hrest⟩ := h.part
  have hportion : buf = (outs.flatten ++ rest).take buf.length := by
    rw [hrest]
    exact hbuf.symm
  have hcut := congrArg (take outs.flatten.length) hportion
  rw [hcut, take_take, Nat.min_comm, ← take_take, take_left]

end AlaphiOS.Lib
