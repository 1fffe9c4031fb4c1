import AlaphiOS.Lib.LockCode
import Mathlib.Logic.Relation

/-!
# An order on locks

The classes of locks come with an order, and code is `Orderly` if it takes each lock after
the locks of its own that it holds there. What its caller holds is the caller's business:
code that takes locks of the classes `ks` only may be called under a lock that is before all of
them (`Orderly.withLock`), and nothing else has to be known about it.

One statement per function is enough for three uses. From the guards of the caller on, orderly
code takes no lock twice and waits where it may (`Orderly.keeps`), and if the classes have
ranks that rise along the order, the order in which the whole program takes its locks has no
cycle (`Orderly.before`, `acyclic_of_rank`).
-/

namespace AlaphiOS.Lib

open List

variable {σ τ L κ α β : Type}

/-- Classes of locks and an order on them. -/
structure LockOrder (L κ : Type) where
  cls : L → κ
  before : κ → κ → Bool
  irrefl : ∀ k, before k k = false

/-- What code may do that is called with the guards `held`: it takes locks of the classes
`ks`, after those of its own that it holds; and if it waits, then with the guards `waits` of its
own. -/
def LockOrder.Permits (O : LockOrder L κ) (waits : Option (List L)) (ks : List κ) (held : List L) :
    LockEvent L → Prop
  | .lock l held' => O.cls l ∈ ks ∧ ∀ l' ∈ held', l' ∈ held ∨ O.before (O.cls l') (O.cls l) = true
  | .unlock _ => True
  | .wait held' => ∃ guards, waits = some guards ∧ held' = guards ++ held

namespace LockCode

/-- Code that reads its part of a larger view. -/
def zoom (f : τ → σ) : LockCode σ L α → LockCode τ L α
  | ret a => ret a
  | stop => stop
  | lock l next => lock l (next.zoom f)
  | unlock l next => unlock l (next.zoom f)
  | wait next => wait (next.zoom f)
  | read next => read fun v => (next (f v)).zoom f
  | guards next => guards fun n => (next n).zoom f

/-- An interrupt with the handler `h`, if one arrives here: with no guard alive or, if `under`
is set, with any. -/
def interrupt (arrives : σ → Bool) (under : Bool) (h : LockCode σ L Unit) : LockCode σ L Unit :=
  guards fun n => read fun v => if arrives v && (under || n == 0) then h else ret ()

/-- Code that can be interrupted before everything it does. -/
def interrupted (arrives : σ → Bool) (under : Bool) (h : LockCode σ L Unit) :
    LockCode σ L α → LockCode σ L α
  | ret a => ret a
  | stop => stop
  | lock l next =>
    (interrupt arrives under h).bind fun _ => lock l (interrupted arrives under h next)
  | unlock l next =>
    (interrupt arrives under h).bind fun _ => unlock l (interrupted arrives under h next)
  | wait next => (interrupt arrives under h).bind fun _ => wait (interrupted arrives under h next)
  | read next =>
    (interrupt arrives under h).bind fun _ => read fun v => interrupted arrives under h (next v)
  | guards next =>
    (interrupt arrives under h).bind fun _ => guards fun n => interrupted arrives under h (next n)

variable [DecidableEq L] {O O' : LockOrder L κ} {w : Option (List L)} {own : List L} {ks ks' : List κ}
  {c : LockCode σ L α} {f : α → LockCode σ L β} {l : L}

variable (O) in
/-- Code that keeps to the order and is entered with the guards `own`. -/
def Orderly (waits : Option (List L)) (own : List L) (ks : List κ) (c : LockCode σ L α) : Prop :=
  ∀ held, c.Does (O.Permits waits ks held) (own ++ held) fun _ held' => held' = own ++ held

namespace Orderly

theorem pure (a : α) : Orderly O w own ks (pure a : LockCode σ L α) := fun _ => rfl

theorem stop : Orderly O w own ks (stop : LockCode σ L α) := fun _ => trivial

theorem bind (hc : Orderly O w own ks c) (hf : ∀ a, Orderly O w own ks (f a)) :
    Orderly O w own ks (c >>= f) := by
  intro held
  refine Does.bind ((hc held).mono (fun _ he => he) ?_)
  rintro a _ rfl
  exact hf a held

theorem view {f : σ → LockCode σ L β} (hf : ∀ v, Orderly O w own ks (f v)) :
    Orderly O w own ks (view >>= f) :=
  fun held v => hf v held

theorem heldCount {f : Nat → LockCode σ L β} (hf : ∀ n, Orderly O w own ks (f n)) :
    Orderly O w own ks (heldCount >>= f) :=
  fun held => hf _ held

theorem await : Orderly O (some []) [] ks (await : LockCode σ L Unit) :=
  fun _ => ⟨⟨[], rfl, rfl⟩, rfl⟩

theorem times {c : LockCode σ L Unit} (hc : Orderly O w own ks c) :
    ∀ n, Orderly O w own ks (times n c)
  | 0 => Orderly.pure ()
  | n + 1 => hc.bind fun _ => times hc n

theorem loop {round : β → LockCode σ L (β ⊕ α)} (h : ∀ b, Orderly O w own ks (round b)) :
    ∀ fuel b, Orderly O w own ks (loop fuel round b) := by
  intro fuel
  induction fuel with
  | zero => exact fun _ => Orderly.stop
  | succ fuel ih =>
    intro b
    refine (h b).bind fun r => ?_
    cases r with
    | inl b => exact ih b
    | inr a => exact Orderly.pure a

theorem zoom {f : τ → σ} (hc : Orderly O w own ks c) : Orderly O w own ks (c.zoom f) := by
  have hdoes : ∀ {P : LockEvent L → Prop} {Q : α → List L → Prop} {c : LockCode σ L α}
      {held : List L}, c.Does P held Q → (c.zoom f).Does P held Q := by
    intro P Q c
    induction c with
    | ret | stop => exact fun h => h
    | lock l next ih => exact fun h => ⟨h.1, fun hmem => ih (h.2 hmem)⟩
    | unlock l next ih => exact fun h => ⟨h.1, ih h.2⟩
    | wait next ih => exact fun h => ⟨h.1, ih h.2⟩
    | read next ih => exact fun h v => ih (f v) (h (f v))
    | guards next ih => exact fun h => ih _ h
  exact fun held => hdoes (hc held)

/-- Interrupts that arrive with no guard alive are no concern of the code they interrupt. -/
theorem interrupted {arrives : σ → Bool} {h : LockCode σ L Unit} (hc : Orderly O w own ks c)
    (hh : Orderly O none [] ks h) :
    Orderly O w own ks (LockCode.interrupted arrives false h c) := by
  intro held
  -- The handler is entered without a guard, and what it does is permitted to everybody.
  have hinterrupt : ∀ {cur : List L} {Q : Unit → List L → Prop}, Q () cur →
      (interrupt arrives false h).Does (O.Permits w ks held) cur Q := by
    intro cur Q hQ v
    dsimp only
    split
    next harrives =>
      obtain rfl : cur = [] := by
        rw [Bool.false_or, Bool.and_eq_true, beq_iff_eq] at harrives
        exact eq_nil_of_length_eq_zero harrives.2
      refine (hh []).mono ?_ ?_
      · rintro (⟨l, held'⟩ | _ | _) he
        · exact ⟨he.1, fun l' hl' => .inr ((he.2 l' hl').resolve_left not_mem_nil)⟩
        · trivial
        · obtain ⟨_, hnone, _⟩ := he
          cases hnone
      · rintro _ _ rfl
        exact hQ
    · exact hQ
  have hdoes : ∀ {Q : α → List L → Prop} {c : LockCode σ L α} {cur : List L},
      c.Does (O.Permits w ks held) cur Q →
        (LockCode.interrupted arrives false h c).Does (O.Permits w ks held) cur Q := by
    intro Q c
    induction c with
    | ret | stop => exact fun h => h
    | lock l next ih => exact fun h => Does.bind (hinterrupt ⟨h.1, fun hmem => ih (h.2 hmem)⟩)
    | unlock l next ih => exact fun h => Does.bind (hinterrupt ⟨h.1, ih h.2⟩)
    | wait next ih => exact fun h => Does.bind (hinterrupt ⟨h.1, ih h.2⟩)
    | read next ih => exact fun h => Does.bind (hinterrupt fun v => ih v (h v))
    | guards next ih => exact fun h => Does.bind (hinterrupt (ih _ h))
  exact hdoes (hc held)

/-- Code that keeps to an order keeps to every one with more pairs. -/
theorem weaken (hc : Orderly O w own ks c) (hcls : ∀ l, O'.cls l = O.cls l)
    (hbefore : ∀ a b, O.before a b = true → O'.before a b = true) : Orderly O' w own ks c := by
  refine fun held => (hc held).mono ?_ fun _ _ h => h
  rintro (⟨l, held'⟩ | _ | _) h
  · refine ⟨(hcls l).symm ▸ h.1, fun l' hl' => (h.2 l' hl').imp_right fun hlt => ?_⟩
    rw [hcls l, hcls l']
    exact hbefore _ _ hlt
  · exact h
  · exact h

/-- Code that does not wait is as good as code that does. -/
theorem any (hc : Orderly O none own ks c) : Orderly O w own ks c := by
  refine fun held => (hc held).mono ?_ fun _ _ h => h
  rintro (⟨l, held'⟩ | _ | _) h
  · exact h
  · exact h
  · obtain ⟨_, hnone, _⟩ := h
    cases hnone

/-! ### Guards

The classes are given by lists; the side conditions compute. -/

variable [DecidableEq κ]

theorem mono (hc : Orderly O w own ks' c) (hsub : ks'.all ks.contains = true) :
    Orderly O w own ks c := by
  refine fun held => (hc held).mono ?_ fun _ _ h => h
  rintro (⟨l, held'⟩ | _ | _) h
  · exact ⟨contains_iff_mem.mp (all_eq_true.mp hsub _ h.1), h.2⟩
  · exact h
  · exact h

theorem waits (hc : Orderly O none own ks' c) (hsub : ks'.all ks.contains = true) :
    Orderly O w own ks c :=
  (hc.mono hsub).any

theorem outside (hl : ks.contains (O.cls l) = true) (hc : Orderly O w [] ks c) :
    Orderly O w [l] ks (outside l c) := by
  have hclass : O.cls l ∈ ks := contains_iff_mem.mp hl
  intro held
  refine Does.bind ⟨trivial, ?_⟩
  show (do let a ← c; acquire l; Pure.pure a).Does _ ((l :: held).erase l) _
  rw [erase_cons_head]
  refine Does.bind ((hc held).mono (fun _ he => he) ?_)
  rintro a _ rfl
  exact Does.bind ⟨⟨hclass, fun l' hl' => .inl hl'⟩, fun _ => rfl⟩

/-- What runs under `l` may drop the guard. -/
theorem withGuard (hl : ks.contains (O.cls l) = true) (hc : Orderly O w [l] ks c) :
    Orderly O w [] ks (withLock l c) := by
  have hclass : O.cls l ∈ ks := contains_iff_mem.mp hl
  intro held
  refine Does.bind ⟨⟨hclass, fun l' hl' => .inl hl'⟩, fun _ => ?_⟩
  refine Does.bind ((hc held).mono (fun _ he => he) ?_)
  rintro a _ rfl
  exact Does.bind ⟨trivial, erase_cons_head ..⟩

/-- Under `l`, code may be called that takes locks after `l` only. If it waits, then with `l`
held. -/
theorem called (hc : Orderly O w [] ks' c) (hlt : ks'.all (O.before (O.cls l)) = true)
    (hsub : ks'.all ks.contains = true) : Orderly O (w.map (· ++ [l])) [l] ks c := by
  refine fun held => (hc (l :: held)).mono ?_ fun _ _ h => h
  rintro (⟨l₁, held'⟩ | _ | held') h
  · refine ⟨contains_iff_mem.mp (all_eq_true.mp hsub _ h.1), fun l' hl' => ?_⟩
    rcases h.2 l' hl' with hmem | hbefore
    · rcases mem_cons.mp hmem with rfl | hmem
      · exact .inr (all_eq_true.mp hlt _ h.1)
      · exact .inl hmem
    · exact .inr hbefore
  · exact h
  · obtain ⟨guards, rfl, rfl⟩ := h
    exact ⟨guards ++ [l], rfl, by rw [append_assoc]; rfl⟩

theorem under (hc : Orderly O none [] ks' c) (hlt : ks'.all (O.before (O.cls l)) = true)
    (hsub : ks'.all ks.contains = true) : Orderly O w [l] ks c :=
  any (hc.called hlt hsub)

/-- What runs under `l` takes locks after `l`; it waits, if at all, with `l` held. -/
theorem withLock_waits (hl : ks.contains (O.cls l) = true)
    (hc : Orderly O w [] (ks.filter (O.before (O.cls l))) c) :
    Orderly O (w.map (· ++ [l])) [] ks (withLock l c) := by
  refine withGuard hl (hc.called ?_ ?_)
  · exact all_eq_true.mpr fun k hk => (mem_filter.mp hk).2
  · exact all_eq_true.mpr fun k hk => contains_iff_mem.mpr (mem_filter.mp hk).1

theorem withLock (hl : ks.contains (O.cls l) = true)
    (hc : Orderly O none [] (ks.filter (O.before (O.cls l))) c) :
    Orderly O w [] ks (withLock l c) :=
  any (withLock_waits hl hc)

/-! ### What follows -/

omit [DecidableEq κ]

/-- Called with none of its classes held, orderly code takes no lock twice. -/
theorem keeps {R : Rules L} {held : List L} (hc : Orderly O w own ks c)
    (hwait : ∀ guards, w = some guards → R.wait (guards ++ held)) (hclear : Clear O.cls ks held) :
    Keeps R c (own ++ held) := by
  refine (hc held).mono ?_ fun _ _ h => h
  rintro (⟨l, held'⟩ | _ | held') h
  · intro hmem
    rcases h.2 l hmem with hheld | hbefore
    · exact absurd h.1 (hclear l hheld)
    · rw [O.irrefl] at hbefore
      cases hbefore
  · trivial
  · obtain ⟨guards, hw, rfl⟩ := h
    exact hwait guards hw

theorem quiet {R : Rules L} {held : List L} (hc : Orderly O none [] ks c)
    (hclear : Clear O.cls ks held) : Keeps R c held :=
  hc.keeps (fun _ h => nomatch h) hclear

/-- Called with no guard, it takes every lock after all that it holds. -/
theorem before {env : Nat → σ} {i : Nat} {held : List L} (hc : Orderly O w [] ks c)
    (h : .lock l held ∈ c.events env i []) :
    ∀ l' ∈ held, O.before (O.cls l') (O.cls l) = true :=
  fun l' hl' => (((hc []).events i _ h).2 l' hl').resolve_left not_mem_nil

end Orderly

end LockCode

/-- A relation along which a rank rises has no cycle. -/
theorem acyclic_of_rank (rank : κ → Nat) {r : κ → κ → Prop} (h : ∀ a b, r a b → rank a < rank b)
    (k : κ) : ¬ Relation.TransGen r k k := by
  intro hcycle
  have hlt : Relation.TransGen (· < ·) (rank k) (rank k) := hcycle.lift rank h
  rw [Relation.transGen_eq_self] at hlt
  exact Nat.lt_irrefl _ hlt

end AlaphiOS.Lib
