import AlaphiOS.Lib.Bytes
import Mathlib.Data.List.Nodup

/-!
# Intrusive singly linked lists

An allocator without external metadata threads its free list through the free
cells themselves: the first word of each cell is the address of the next one,
and the word `0` ends the list. `Chain m p l` says that following these words
from `p` visits exactly the addresses `l`, in order, and then stops.

The operations a list-walking program makes are covered once and for all:
`Chain.push` (store the old head into a new cell), popping (the definition),
`Chain.frame` (a write elsewhere does not disturb the list) and
`Chain.unlink` (redirect one link past a cell in the middle).
-/

namespace AlaphiOS.Lib

open List

/-- A pointer word as an optional address: `0` is null. -/
def ptr (w : Nat) : Option Nat := if w = 0 then none else some w

theorem ptr_zero : ptr 0 = none := rfl

variable {m : Mem} {p : Option Nat} {l pre : List Nat} {a w : Nat}

theorem ptr_ne (h : w ≠ 0) : ptr w = some w := if_neg h

/-- Following link words from `p` visits exactly `l` and then ends. -/
inductive Chain (m : Mem) : Option Nat → List Nat → Prop
  | nil : Chain m none []
  | cons {a : Nat} {l : List Nat} :
      Chain m (ptr (readWord m a)) l → Chain m (some a) (a :: l)

theorem Chain.of_none (h : Chain m none l) : l = [] := by
  cases h with
  | nil => rfl

theorem Chain.of_some (h : Chain m (some a) l) :
    ∃ l', l = a :: l' ∧ Chain m (ptr (readWord m a)) l' := by
  cases h with
  | cons hl => exact ⟨_, rfl, hl⟩

theorem Chain.of_nil (h : Chain m p []) : p = none := by
  cases h with
  | nil => rfl

theorem Chain.of_cons (h : Chain m p (a :: l)) : p = some a ∧ Chain m (ptr (readWord m a)) l := by
  cases h with
  | cons hl => exact ⟨rfl, hl⟩

/-- The list is determined by the memory and the head. -/
theorem Chain.unique {l' : List Nat} (h : Chain m p l) (h' : Chain m p l') : l = l' := by
  induction h generalizing l' with
  | nil => exact h'.of_none.symm
  | cons _ ih =>
    obtain ⟨t, rfl, ht⟩ := h'.of_some
    rw [ih ht]

/-- The address 0 can only be the first: as a link it ends the list. -/
theorem Chain.zero_notMem (h : Chain m p l) (hp : p ≠ some 0) : 0 ∉ l := by
  induction h with
  | nil => exact not_mem_nil
  | cons _ ih =>
    refine not_mem_cons_of_ne_of_not_mem (fun h0 => hp (congrArg some h0.symm)) (ih ?_)
    unfold ptr
    split
    · simp
    next hw => exact fun h => hw (Option.some.inj h)

variable {m' : Mem} {q : Option Nat} {post : List Nat} {c : Nat}

/-- A memory that agrees on the link words of the list has the same list. -/
theorem Chain.frame (h : Chain m p l)
    (hw : ∀ a ∈ l, readWord m' a = readWord m a) : Chain m' p l := by
  induction h with
  | nil => exact .nil
  | cons _ ih =>
    refine .cons ?_
    rw [hw _ mem_cons_self]
    exact ih (fun c hc => hw c (mem_cons_of_mem _ hc))

/-- Storing the old head into a fresh cell puts the cell in front. -/
theorem Chain.push (h : Chain m (ptr w) l)
    (hw : w < 2 ^ 64) (hfresh : ∀ b ∈ l, b + 8 ≤ a ∨ a + 8 ≤ b) :
    Chain (writeWord m a w) (some a) (a :: l) := by
  refine .cons ?_
  rw [readWord_writeWord hw]
  exact h.frame (fun b hb => readWord_writeWord_ne (hfresh b hb))

/-- Following the links from `p` through the cells `pre` arrives at `q`: the
first part of a list, cut off before its end. -/
inductive Path (m : Mem) : Option Nat → List Nat → Option Nat → Prop
  | nil {p : Option Nat} : Path m p [] p
  | cons {a : Nat} {pre : List Nat} {q : Option Nat} :
      Path m (ptr (readWord m a)) pre q → Path m (some a) (a :: pre) q

theorem Chain.of_path (h : Path m p pre q) (hq : Chain m q post) : Chain m p (pre ++ post) := by
  induction h with
  | nil => exact hq
  | cons _ ih => exact .cons (ih hq)

/-- A memory that agrees on the cells of a path has the same path. -/
theorem Path.frame (h : Path m p pre q)
    (hw : ∀ a ∈ pre, readWord m' a = readWord m a) : Path m' p pre q := by
  induction h with
  | nil => exact .nil
  | cons _ ih =>
    refine .cons ?_
    rw [hw _ mem_cons_self]
    exact ih (fun c hc => hw c (mem_cons_of_mem _ hc))

/-- One more link at the end of a path. -/
theorem Path.snoc (h : Path m p pre (some c)) : Path m p (pre ++ [c]) (ptr (readWord m c)) := by
  generalize hq : some c = q at h
  induction h with
  | nil => subst hq; exact .cons .nil
  | cons _ ih => exact .cons (ih hq)

/-- Redirecting the link of `c` past the next cell removes that cell: `c`'s
word now holds the address the removed cell pointed to, and every other cell
of the list keeps its word. -/
theorem Chain.unlink (hpre : Path m p pre (some c)) (hpost : Chain m (ptr w) post) (hw : w < 2 ^ 64)
    (hsep : ∀ b, b ∈ pre ∨ b ∈ post → b + 8 ≤ c ∨ c + 8 ≤ b) :
    Chain (writeWord m c w) p (pre ++ c :: post) := by
  have hpre' : Path (writeWord m c w) p pre (some c) :=
    hpre.frame (fun b hb => readWord_writeWord_ne (hsep b (.inl hb)))
  refine Chain.of_path hpre' (.cons ?_)
  rw [readWord_writeWord hw]
  exact hpost.frame (fun b hb => readWord_writeWord_ne (hsep b (.inr hb)))

end AlaphiOS.Lib
