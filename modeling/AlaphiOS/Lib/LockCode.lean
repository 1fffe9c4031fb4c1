import Mathlib.Data.List.Basic

/-!
# Code that takes locks

A piece of code as the tree of what it does to locks: it takes and releases them, it
reads something that decides how it goes on, and it may give up the processor. What is
read is arbitrary at every read, so that a run is one run of the code among any others.

`events` lists what a run does, with the guards that are alive at each lock and at each
wait; `Does` says what every run does, and has the rules. `Keeps R c held` says that `c`, called
with the guards `held`, takes no lock twice and waits only where the rules `R` let it, and
returns with these guards. How to come to know it of a piece of code is in `LockOrder`.

Conventions:
- A lock that is taken while it is held spins for ever: the events end there.
- `stop` is the end of a run, too: a panic, or a loop that has used up its rounds.
-/

namespace AlaphiOS.Lib

open List

/-- Code that takes locks of `L`, reads values of `σ` and returns an `α`. -/
inductive LockCode (σ L α : Type) where
  | ret (a : α)
  | stop
  | lock (l : L) (next : LockCode σ L α)
  | unlock (l : L) (next : LockCode σ L α)
  /-- About to give up the processor in order to wait. -/
  | wait (next : LockCode σ L α)
  | read (next : σ → LockCode σ L α)
  /-- Reads the number of guards it holds. -/
  | guards (next : Nat → LockCode σ L α)

/-- What a run does; `held` are the locks it holds at that moment. -/
inductive LockEvent (L : Type) where
  | lock (l : L) (held : List L)
  | unlock (l : L)
  | wait (held : List L)
  deriving DecidableEq

namespace LockCode

variable {σ L κ α β : Type}

protected def bind : LockCode σ L α → (α → LockCode σ L β) → LockCode σ L β
  | ret a, f => f a
  | stop, _ => stop
  | lock l next, f => lock l (next.bind f)
  | unlock l next, f => unlock l (next.bind f)
  | wait next, f => wait (next.bind f)
  | read next, f => read fun v => (next v).bind f
  | guards next, f => guards fun n => (next n).bind f

instance : Monad (LockCode σ L) where
  pure := ret
  bind := LockCode.bind

/-- Take a lock. -/
def acquire (l : L) : LockCode σ L Unit := lock l (ret ())

/-- Drop a guard. -/
def release (l : L) : LockCode σ L Unit := unlock l (ret ())

/-- Wait here. -/
def await : LockCode σ L Unit := wait (ret ())

/-- Read the state. -/
def view : LockCode σ L σ := read ret

/-- The number of guards. -/
def heldCount : LockCode σ L Nat := guards ret

/-- `c` with a guard of `l` alive. -/
def withLock (l : L) (c : LockCode σ L α) : LockCode σ L α := do
  acquire l
  let a ← c
  release l
  pure a

/-- `c` without the guard of `l`, which is alive before and after. -/
def outside (l : L) (c : LockCode σ L α) : LockCode σ L α := do
  release l
  let a ← c
  acquire l
  pure a

/-- Repeat. -/
def times : Nat → LockCode σ L Unit → LockCode σ L Unit
  | 0, _ => pure ()
  | n + 1, c => do c; times n c

/-- A loop: a round goes on with a new state or leaves with a value. -/
def loop : Nat → (β → LockCode σ L (β ⊕ α)) → β → LockCode σ L α
  | 0, _, _ => stop
  | fuel + 1, round, b => do
    match ← round b with
    | .inl b => loop fuel round b
    | .inr a => pure a

section

variable [DecidableEq L]

/-- What a run of the code does that finds `env i` at its read number `i`. -/
def events (env : Nat → σ) : LockCode σ L α → Nat → List L → List (LockEvent L)
  | ret _, _, _ => []
  | stop, _, _ => []
  | lock l next, i, held =>
    .lock l held :: if l ∈ held then [] else next.events env i (l :: held)
  | unlock l next, i, held => .unlock l :: next.events env i (held.erase l)
  | wait next, i, held => .wait held :: next.events env i held
  | read next, i, held => (next (env i)).events env (i + 1) held
  | guards next, i, held => (next held.length).events env i held

/-! ## What every run does -/

/-- Whatever is read, the code does only what `P` permits from the guards `held` on; where it
returns, the value and the guards are in `Q`. -/
def Does (P : LockEvent L → Prop) : LockCode σ L α → List L → (α → List L → Prop) → Prop
  | ret a, held, Q => Q a held
  | stop, _, _ => True
  | lock l next, held, Q => P (.lock l held) ∧ (l ∉ held → next.Does P (l :: held) Q)
  | unlock l next, held, Q => P (.unlock l) ∧ next.Does P (held.erase l) Q
  | wait next, held, Q => P (.wait held) ∧ next.Does P held Q
  | read next, held, Q => ∀ v, (next v).Does P held Q
  | guards next, held, Q => (next held.length).Does P held Q

section

variable {P P' : LockEvent L → Prop} {c : LockCode σ L α} {held : List L}

/-- A run does only what is permitted. -/
theorem Does.events {env : Nat → σ} {Q : α → List L → Prop} (h : c.Does P held Q) :
    ∀ i, ∀ e ∈ c.events env i held, P e := by
  induction c generalizing held with
  | ret | stop => intro i e he; cases he
  | lock l next ih =>
    intro i e he
    rcases mem_cons.mp he with rfl | he
    · exact h.1
    -- Code that takes a lock it has goes no further.
    · split at he
      · cases he
      next hmem => exact ih (h.2 hmem) i e he
  | unlock l next ih =>
    intro i e he
    rcases mem_cons.mp he with rfl | he
    · exact h.1
    · exact ih h.2 i e he
  | wait next ih =>
    intro i e he
    rcases mem_cons.mp he with rfl | he
    · exact h.1
    · exact ih h.2 i e he
  | read next ih => intro i; exact ih _ (h _) (i + 1)
  | guards next ih => exact ih _ h

/-- More may be permitted. -/
theorem Does.mono {Q Q' : α → List L → Prop} (hP : ∀ e, P e → P' e)
    (hQ : ∀ a held', Q a held' → Q' a held') (h : c.Does P held Q) : c.Does P' held Q' := by
  induction c generalizing held with
  | ret a => exact hQ a held h
  | stop => trivial
  | lock l next ih => exact ⟨hP _ h.1, fun hmem => ih (h.2 hmem)⟩
  | unlock l next ih => exact ⟨hP _ h.1, ih h.2⟩
  | wait next ih => exact ⟨hP _ h.1, ih h.2⟩
  | read next ih => exact fun v => ih v (h v)
  | guards next ih => exact ih _ h

/-- One piece of code after the other. -/
theorem Does.bind {f : α → LockCode σ L β} {Q : β → List L → Prop}
    (h : c.Does P held fun a held' => (f a).Does P held' Q) : (c >>= f).Does P held Q := by
  induction c generalizing held with
  | ret a => exact h
  | stop => trivial
  | lock l next ih => exact ⟨h.1, fun hmem => ih (h.2 hmem)⟩
  | unlock l next ih => exact ⟨h.1, ih h.2⟩
  | wait next ih => exact ⟨h.1, ih h.2⟩
  | read next ih => exact fun v => ih v (h v)
  | guards next ih => exact ih _ h

end

/-! ## Rules -/

/-- What is asked of a run: whether it may take a lock again, and with which locks held it
may wait. -/
structure Rules (L : Type) where
  relock : Prop
  wait : List L → Prop

/-- An event within the rules. -/
def Rules.Allows (R : Rules L) : LockEvent L → Prop
  | .lock l held => l ∈ held → R.relock
  | .unlock _ => True
  | .wait held => R.wait held

/-- It keeps to the rules and returns with the guards it was entered with. -/
def Keeps (R : Rules L) (c : LockCode σ L α) (held : List L) : Prop :=
  c.Does R.Allows held fun _ held' => held' = held

variable {R : Rules L} {c : LockCode σ L α} {held : List L}

/-- One piece of code after the other. -/
theorem Keeps.bind {f : α → LockCode σ L β} (hc : Keeps R c held) (hf : ∀ a, Keeps R (f a) held) :
    Keeps R (c >>= f) held := by
  refine Does.bind (Does.mono (fun _ he => he) ?_ hc)
  rintro a _ rfl
  exact hf a

theorem keeps_view {f : σ → LockCode σ L β} (hf : ∀ v, Keeps R (f v) held) :
    Keeps R (view >>= f) held := fun v => hf v

/-- A lock that is not held is taken and dropped. -/
theorem keeps_withLock {l : L} (hl : l ∉ held) (hc : Keeps R c (l :: held)) :
    Keeps R (withLock l c) held := by
  refine Does.bind ⟨fun hmem => absurd hmem hl, fun _ => Does.bind (Does.mono (fun _ he => he) ?_ hc)⟩
  rintro a _ rfl
  exact ⟨trivial, erase_cons_head ..⟩

/-- A lock that is taken again ends the run. -/
theorem keeps_withLock_again {l : L} (hl : l ∈ held) (hR : R.relock) : Keeps R (withLock l c) held :=
  Does.bind ⟨fun _ => hR, fun hno => absurd hl hno⟩

end

/-! ## Classes of locks -/

section

variable (cls : L → κ)

/-- No lock of these classes is held. -/
def Clear (ks : List κ) (held : List L) : Prop := ∀ l ∈ held, cls l ∉ ks

variable {cls} {ks : List κ} {held : List L} {l : L}

theorem clear_nil : Clear cls ks [] := nofun

theorem Clear.cons [DecidableEq κ] (h : Clear cls ks held) (hl : ks.contains (cls l) = false) :
    Clear cls ks (l :: held) := by
  intro l' hl' hmem
  rcases mem_cons.mp hl' with rfl | hl'
  · rw [contains_iff_mem.mpr hmem] at hl
    cases hl
  · exact h l' hl' hmem

end

end LockCode

end AlaphiOS.Lib
