import AlaphiOS.Lib.Trace
import Mathlib.Logic.Function.Basic

/-!
# Monitors

Shared data under one lock, with condition variables. A task makes calls; a call is
a row of stretches, each of them atomic: it is entered with the lock just taken and
ends in a wait on a condition variable or in the return of the call. `Program.code`
is what one stretch does to the shared data, whom it wakes, and how it ends.

A wait puts the task at the end of the variable's queue. A signal takes the first
one out of the queue and makes it runnable, if it is waiting at all; `Op.wake` makes
a waiting task runnable for no reason, and leaves its name in the queue. A run is a
list of `Op`s, in any order.

The rules:
- `reaches_induction`: the invariant rule;
- `calls_accounted`: what holds of one call, stretch by stretch, holds of every call
  of every run, however the calls are interleaved.
-/

namespace AlaphiOS.Lib.Monitor

open Function List

/-- Whom a stretch wakes. -/
inductive Wake (γ : Type) where
  | signal (c : γ)
  | broadcast (c : γ)

/-- How a stretch ends. -/
inductive Finish (γ κ ρ : Type) where
  | wait (c : γ) (k : κ)
  | ret (r : ρ)

/-- What a stretch does; `log` is what it reports. -/
structure Stretch (γ σ κ ρ ε : Type) where
  shared : σ
  log : List ε
  wakes : List (Wake γ)
  finish : Finish γ κ ρ

/-- The calls `ω`: `κ` is what a call knows between two stretches. -/
structure Program (γ σ κ ω ρ ε : Type) where
  enter : ω → κ
  /-- `none`: it stops with an error. -/
  code : κ → σ → Option (Stretch γ σ κ ρ ε)

/-- Where a task is. -/
inductive Phase (γ κ : Type) where
  | outside
  /-- It has begun a call. -/
  | ready (k : κ)
  | waiting (c : γ) (k : κ)
  /-- Woken from a wait on `c`, and not run since. -/
  | woken (c : γ) (k : κ)
  deriving DecidableEq

namespace Phase

variable {γ κ : Type}

/-- What the task goes on with when it runs. -/
def runnable : Phase γ κ → Option κ
  | .ready k | .woken _ k => some k
  | .outside | .waiting _ _ => none

/-- Its call, also while it waits. -/
def frame : Phase γ κ → Option κ
  | .ready k | .woken _ k | .waiting _ k => some k
  | .outside => none

end Phase

/-- The shared data, the queues and the tasks. -/
structure State (τ γ σ κ : Type) where
  shared : σ
  waiters : γ → List τ
  phase : τ → Phase γ κ
  /-- How many calls each task has finished: its calls are numbered. -/
  calls : τ → Nat

open State

/-- A scheduling decision. -/
inductive Op (τ ω : Type) where
  | start (t : τ) (w : ω)
  | run (t : τ)
  | wake (t : τ)

def Op.isWake {τ ω : Type} : Op τ ω → Bool
  | .wake _ => true
  | _ => false

/-- What can be seen of a run; a call is named by its task and its number. -/
inductive Event (τ ω ρ ε : Type) where
  | called (id : τ × Nat) (w : ω)
  | put (id : τ × Nat) (es : List ε)
  | returned (id : τ × Nat) (r : ρ)

/-- The call of an event. -/
def Event.id {τ ω ρ ε : Type} : Event τ ω ρ ε → τ × Nat
  | .called id _ | .put id _ | .returned id _ => id

variable {τ γ σ κ ω ρ ε : Type}

/-! ## Steps -/

section

variable [DecidableEq τ] [DecidableEq γ]

namespace State

/-- `t` becomes runnable, if it waits. -/
def unblock (s : State τ γ σ κ) (t : τ) : State τ γ σ κ :=
  match s.phase t with
  | .waiting c k => { s with phase := update s.phase t (.woken c k) }
  | _ => s

/-- Wake the first waiter. -/
def signal (s : State τ γ σ κ) (c : γ) : State τ γ σ κ :=
  match s.waiters c with
  | [] => s
  | t :: ts => { s with waiters := update s.waiters c ts }.unblock t

/-- Signals until nobody is left. -/
def broadcast (s : State τ γ σ κ) (c : γ) : State τ γ σ κ :=
  (s.waiters c).foldl (fun s _ => s.signal c) s

/-- Signal or broadcast. -/
def wakeUp (s : State τ γ σ κ) : Wake γ → State τ γ σ κ
  | .signal c => s.signal c
  | .broadcast c => s.broadcast c

/-- The end of a stretch of `t`. -/
def settle (s : State τ γ σ κ) (t : τ) : Finish γ κ ρ → State τ γ σ κ
  | .wait c k =>
    { s with
      waiters := update s.waiters c (s.waiters c ++ [t])
      phase := update s.phase t (.waiting c k) }
  | .ret _ =>
    { s with
      phase := update s.phase t .outside
      calls := update s.calls t (s.calls t + 1) }

/-- A stretch of `t`. -/
def apply (s : State τ γ σ κ) (t : τ) (st : Stretch γ σ κ ρ ε) : State τ γ σ κ :=
  (st.wakes.foldl wakeUp { s with shared := st.shared }).settle t st.finish

/-- The events of a stretch. -/
def report (id : τ × Nat) (st : Stretch γ σ κ ρ ε) : List (Event τ ω ρ ε) :=
  .put id st.log :: match st.finish with
    | .wait _ _ => []
    | .ret r => [.returned id r]

/-- Nobody has called. -/
def init (shared : σ) : State τ γ σ κ := ⟨shared, fun _ => [], fun _ => .outside, fun _ => 0⟩

end State

variable (M : Program γ σ κ ω ρ ε)

/-- One step of a task. -/
def step (s : State τ γ σ κ) : Op τ ω → Option (State τ γ σ κ × List (Event τ ω ρ ε))
  | .start t w =>
    match s.phase t with
    | .outside =>
      some ({ s with phase := update s.phase t (.ready (M.enter w)) },
        [.called (t, s.calls t) w])
    | _ => none
  | .run t => do
    let k ← (s.phase t).runnable
    let st ← M.code k s.shared
    some (s.apply t st, report (t, s.calls t) st)
  | .wake t =>
    match s.phase t with
    | .waiting _ _ => some (s.unblock t, [])
    | _ => none

/-- The run of `ops` from `shared`, with what can be seen of it. -/
def Reaches (shared : σ) (ops : List (Op τ ω)) (s : State τ γ σ κ) (tr : List (Event τ ω ρ ε)) :
    Prop :=
  exec (traced (step M)) (init shared, []) ops = some (s, tr)

/-- What a step can be. -/
inductive Step (s : State τ γ σ κ) :
    Op τ ω → State τ γ σ κ → List (Event τ ω ρ ε) → Prop
  | start {t : τ} (w : ω) (h : s.phase t = .outside) :
      Step s (.start t w) { s with phase := update s.phase t (.ready (M.enter w)) }
        [.called (t, s.calls t) w]
  | run {t : τ} {k : κ} {st : Stretch γ σ κ ρ ε} (hk : (s.phase t).runnable = some k)
      (hcode : M.code k s.shared = some st) :
      Step s (.run t) (s.apply t st) (report (t, s.calls t) st)
  | wake {t : τ} {c : γ} {k : κ} (h : s.phase t = .waiting c k) :
      Step s (.wake t) (s.unblock t) []

variable {M} {s s' : State τ γ σ κ}

theorem step_inv {op : Op τ ω} {es : List (Event τ ω ρ ε)} (h : step M s op = some (s', es)) :
    Step M s op s' es := by
  cases op with
  | start t w =>
    dsimp only [step] at h
    split at h
    next hphase =>
      cases Option.some.inj h
      exact .start w hphase
    · cases h
  | run t =>
    obtain ⟨k, hk, h⟩ := bind_inv h
    obtain ⟨st, hst, h⟩ := bind_inv h
    cases Option.some.inj h
    exact .run hk hst
  | wake t =>
    dsimp only [step] at h
    split at h
    next hphase =>
      cases Option.some.inj h
      exact .wake hphase
    · cases h

/-- The invariant rule for runs, with a condition on the steps. -/
theorem reaches_induction {shared : σ} {ops : List (Op τ ω)} {tr : List (Event τ ω ρ ε)}
    {P : State τ γ σ κ × List (Event τ ω ρ ε) → Op τ ω → Prop}
    {I : State τ γ σ κ → List (Event τ ω ρ ε) → Prop} (hinit : I (init shared) [])
    (hstep : ∀ {s tr op s' es}, I s tr → P (s, tr) op → Step M s op s' es → I s' (tr ++ es))
    (halong : Along (traced (step M)) P (init shared, []) ops)
    (h : Reaches M shared ops s tr) : I s tr := by
  refine exec_induction (I := fun x : State τ γ σ κ × List (Event τ ω ρ ε) => I x.1 x.2)
    (fun x op x' hI hP hx => ?_) hinit halong h
  obtain ⟨es, hs, htr⟩ := traced_inv hx
  rw [htr]
  exact hstep hI hP (step_inv hs)

end

/-! ## Wake-ups -/

theorem Phase.frame_of_runnable {p : Phase γ κ} {k : κ} (h : p.runnable = some k) :
    p.frame = some k := by
  cases p with
  | outside | waiting => exact absurd h (by simp [Phase.runnable])
  | ready | woken => exact h

namespace State

/-- What wake-ups do not touch: everyone stays where they are, or is woken from a wait. -/
structure Wakes (s s' : State τ γ σ κ) : Prop where
  shared : s'.shared = s.shared
  calls : s'.calls = s.calls
  later : ∀ x, s'.phase x = s.phase x ∨ ∃ c k, s.phase x = .waiting c k ∧ s'.phase x = .woken c k

variable {s s' s'' : State τ γ σ κ}

theorem Wakes.refl (s : State τ γ σ κ) : s.Wakes s := ⟨rfl, rfl, fun _ => .inl rfl⟩

theorem Wakes.trans (h : s.Wakes s') (h' : s'.Wakes s'') : s.Wakes s'' where
  shared := h'.shared.trans h.shared
  calls := h'.calls.trans h.calls
  later := by
    intro x
    rcases h.later x with hx | ⟨c, k, hx, hx'⟩
    · rw [← hx]
      exact h'.later x
    · rcases h'.later x with hx'' | ⟨_, _, hx'', _⟩
      · exact .inr ⟨c, k, hx, hx''.trans hx'⟩
      · cases hx'.symm.trans hx''

theorem Wakes.frame (h : s.Wakes s') (x : τ) : (s'.phase x).frame = (s.phase x).frame := by
  rcases h.later x with hx | ⟨c, k, hx, hx'⟩
  · rw [hx]
  · rw [hx, hx']
    rfl

/-- A task that can run is left alone. -/
theorem Wakes.phase_of_runnable (h : s.Wakes s') {x : τ} {k : κ}
    (hk : (s.phase x).runnable = some k) : s'.phase x = s.phase x := by
  rcases h.later x with hx | ⟨c, k', hx, _⟩
  · exact hx
  · rw [hx] at hk
    exact absurd hk (by simp [Phase.runnable])

section

variable [DecidableEq τ]

theorem unblock_waiters (s : State τ γ σ κ) (t : τ) : (s.unblock t).waiters = s.waiters := by
  unfold unblock
  split
  · rfl
  · rfl

theorem wakes_unblock (s : State τ γ σ κ) (t : τ) : s.Wakes (s.unblock t) := by
  unfold unblock
  split
  next c k h =>
    refine ⟨rfl, rfl, fun x => ?_⟩
    by_cases hx : x = t
    · subst hx
      exact .inr ⟨c, k, h, update_self ..⟩
    · exact .inl (update_of_ne hx ..)
  · exact .refl s

variable [DecidableEq γ]

theorem wakes_signal (s : State τ γ σ κ) (c : γ) : s.Wakes (s.signal c) := by
  unfold signal
  split
  · exact .refl s
  next t ts _ =>
    have h := wakes_unblock { s with waiters := update s.waiters c ts } t
    exact ⟨h.shared, h.calls, h.later⟩

/-- What every signal keeps, a broadcast keeps. -/
theorem broadcast_rule {P : State τ γ σ κ → Prop} {c : γ} (hstep : ∀ s, P s → P (s.signal c))
    (h : P s) : P (s.broadcast c) := by
  have hall : ∀ (ts : List τ) (s : State τ γ σ κ), P s →
      P (ts.foldl (fun s _ => s.signal c) s) := by
    intro ts
    induction ts with
    | nil => exact fun s h => h
    | cons t ts ih => exact fun s h => ih _ (hstep s h)
  exact hall _ s h

theorem signal_waiters_self (s : State τ γ σ κ) (c : γ) :
    (s.signal c).waiters c = (s.waiters c).tail := by
  unfold signal
  split
  next h => rw [h, tail_nil]
  next t ts h =>
    rw [unblock_waiters, h]
    exact update_self ..

variable {c' : γ}

theorem signal_waiters_of_ne (s : State τ γ σ κ) {c : γ} (h : c ≠ c') :
    (s.signal c').waiters c = s.waiters c := by
  unfold signal
  split
  · rfl
  · rw [unblock_waiters]
    exact update_of_ne h ..

/-- A signal to a task that waits. -/
theorem signal_cons {c : γ} {t : τ} {ts : List τ} {k : κ} (hw : s.waiters c = t :: ts)
    (hk : s.phase t = .waiting c k) :
    s.signal c = { s with
      waiters := update s.waiters c ts
      phase := update s.phase t (.woken c k) } := by
  unfold signal unblock
  rw [hw]
  dsimp only
  rw [hk]

theorem broadcast_waiters_self (s : State τ γ σ κ) (c : γ) : (s.broadcast c).waiters c = [] := by
  have hall : ∀ (ts : List τ) (s : State τ γ σ κ), (s.waiters c).length = ts.length →
      (ts.foldl (fun s _ => s.signal c) s).waiters c = [] := by
    intro ts
    induction ts with
    | nil => exact fun s h => eq_nil_of_length_eq_zero h
    | cons t ts ih =>
      intro s h
      refine ih _ ?_
      rw [signal_waiters_self, length_tail, h, length_cons, Nat.add_sub_cancel]
  exact hall _ s rfl

theorem broadcast_waiters_of_ne (s : State τ γ σ κ) {c : γ} (h : c ≠ c') :
    (s.broadcast c').waiters c = s.waiters c :=
  broadcast_rule (P := fun s' => s'.waiters c = s.waiters c)
    (fun s' hs' => (s'.signal_waiters_of_ne h).trans hs') rfl

theorem wakes_wakeUp (s : State τ γ σ κ) (w : Wake γ) : s.Wakes (s.wakeUp w) := by
  cases w with
  | signal c => exact s.wakes_signal c
  | broadcast c => exact broadcast_rule (fun s' h => h.trans (s'.wakes_signal c)) (.refl s)

theorem wakes_wakeAll (ws : List (Wake γ)) : ∀ s : State τ γ σ κ, s.Wakes (ws.foldl wakeUp s) := by
  induction ws with
  | nil => exact fun s => .refl s
  | cons w ws ih => exact fun s => (s.wakes_wakeUp w).trans (ih _)

/-! ### What a stretch changes -/

variable {t x : τ} {st : Stretch γ σ κ ρ ε} {c : γ} {k : κ} {r : ρ}

theorem settle_waiters_of_ne (s : State τ γ σ κ) (t : τ) {f : Finish γ κ ρ}
    (h : ∀ k, f ≠ .wait c k) : (s.settle t f).waiters c = s.waiters c := by
  cases f with
  | ret => rfl
  | wait d k =>
    have hne : c ≠ d := by
      rintro rfl
      exact h k rfl
    show update s.waiters d (s.waiters d ++ [t]) c = s.waiters c
    rw [update_of_ne hne]

theorem settle_phase_of_ne (s : State τ γ σ κ) (f : Finish γ κ ρ) (hx : x ≠ t) :
    (s.settle t f).phase x = s.phase x := by
  cases f with
  | ret | wait => exact update_of_ne hx ..

theorem apply_shared (s : State τ γ σ κ) (t : τ) (st : Stretch γ σ κ ρ ε) :
    (s.apply t st).shared = st.shared := by
  have h := (wakes_wakeAll st.wakes { s with shared := st.shared }).shared
  unfold apply settle
  split <;> exact h

/-- The frames of the other tasks. -/
theorem apply_frame_of_ne (s : State τ γ σ κ) (st : Stretch γ σ κ ρ ε) (hx : x ≠ t) :
    ((s.apply t st).phase x).frame = (s.phase x).frame := by
  have h := (wakes_wakeAll st.wakes { s with shared := st.shared }).frame x
  unfold apply settle
  split <;> exact (congrArg Phase.frame (update_of_ne hx ..)).trans h

theorem apply_calls_of_ne (s : State τ γ σ κ) (st : Stretch γ σ κ ρ ε) (hx : x ≠ t) :
    (s.apply t st).calls x = s.calls x := by
  have h := (wakes_wakeAll st.wakes { s with shared := st.shared }).calls
  unfold apply settle
  split
  · exact congrFun h x
  · exact (update_of_ne hx ..).trans (congrFun h x)

theorem apply_wait (s : State τ γ σ κ) (h : st.finish = .wait c k) :
    (s.apply t st).phase t = .waiting c k ∧ (s.apply t st).calls t = s.calls t := by
  have hcalls := (wakes_wakeAll st.wakes { s with shared := st.shared }).calls
  unfold apply
  rw [h]
  exact ⟨update_self .., congrFun hcalls t⟩

theorem apply_ret (s : State τ γ σ κ) (h : st.finish = .ret r) :
    (s.apply t st).phase t = .outside ∧ (s.apply t st).calls t = s.calls t + 1 := by
  have hcalls := (wakes_wakeAll st.wakes { s with shared := st.shared }).calls
  unfold apply
  rw [h]
  refine ⟨update_self .., (update_self ..).trans ?_⟩
  rw [hcalls]

end

end State

/-! ## Calls -/

section

variable {s s' : State τ γ σ κ} {tr es : List (Event τ ω ρ ε)} {id id' : τ × Nat}
  {st : Stretch γ σ κ ρ ε} {e : Event τ ω ρ ε} {x : (τ × Nat) × ε}

theorem mem_append_of_ne (h : ∀ e ∈ es, e.id = id') (hne : e.id ≠ id') : e ∈ tr ++ es ↔ e ∈ tr := by
  rw [mem_append]
  exact ⟨fun he => he.resolve_right fun he => hne (h e he), .inl⟩

theorem report_id (st : Stretch γ σ κ ρ ε) :
    ∀ e ∈ (report id st : List (Event τ ω ρ ε)), e.id = id := by
  intro e he
  unfold report at he
  rcases mem_cons.mp he with rfl | he
  · rfl
  · split at he
    · cases he
    · exact mem_singleton.mp he ▸ rfl

theorem called_not_mem_report (st : Stretch γ σ κ ρ ε) (w : ω) :
    .called id' w ∉ (report id st : List (Event τ ω ρ ε)) := by
  unfold report
  split
  · simp
  · simp

theorem returned_mem_report {r : ρ} :
    .returned id r ∈ (report id st : List (Event τ ω ρ ε)) ↔ st.finish = .ret r := by
  unfold report
  split
  next h => simp [h]
  next r' h =>
    rw [h]
    constructor
    · intro hr
      rcases mem_cons.mp hr with hr | hr
      · cases hr
      · cases mem_singleton.mp hr
        rfl
    · intro hr
      cases hr
      simp

/-- `P` of what a call knows and has put holds when it is entered, and is kept by every
stretch; a stretch that returns leaves `Q`. -/
structure Rule (M : Program γ σ κ ω ρ ε) (P : ω → κ → List ε → Prop) (Q : ω → ρ → List ε → Prop) :
    Prop where
  enter : ∀ w, P w (M.enter w) []
  wait : ∀ {w k es s st c k'}, P w k es → M.code k s = some st → st.finish = .wait c k' →
    P w k' (es ++ st.log)
  ret : ∀ {w k es s st r}, P w k es → M.code k s = some st → st.finish = .ret r →
    Q w r (es ++ st.log)

/-- What was put, in order, each with the call that put it. -/
def puts (tr : List (Event τ ω ρ ε)) : List ((τ × Nat) × ε) :=
  tr.flatMap fun
    | .put id es => es.map (id, ·)
    | _ => []

theorem puts_append : puts (tr ++ es) = puts tr ++ puts es := flatMap_append

theorem puts_report (st : Stretch γ σ κ ρ ε) :
    puts (report id st : List (Event τ ω ρ ε)) = st.log.map (id, ·) := by
  unfold report puts
  rw [flatMap_cons]
  cases st.finish with
  | wait | ret => exact append_nil _

/-- What is put is put by a call of the run. -/
theorem exists_of_mem_puts (h : x ∈ puts tr) : ∃ es, .put x.1 es ∈ tr ∧ x.2 ∈ es := by
  obtain ⟨e, he, hx⟩ := mem_flatMap.mp h
  cases e with
  | called | returned => cases hx
  | put id es =>
    obtain ⟨y, hy, rfl⟩ := mem_map.mp hx
    exact ⟨es, he, hy⟩

variable [DecidableEq τ]

/-- What one call has put so far. -/
def putsOf (id : τ × Nat) (tr : List (Event τ ω ρ ε)) : List ε :=
  ((puts tr).filter (·.1 = id)).map Prod.snd

theorem putsOf_append : putsOf id (tr ++ es) = putsOf id tr ++ putsOf id es := by
  unfold putsOf
  rw [puts_append, filter_append, map_append]

theorem count_puts : ((puts tr).map Prod.fst).count id = (putsOf id tr).length := by
  unfold putsOf
  rw [count, countP_map, length_map, countP_eq_length_filter]
  refine congrArg length (filter_congr fun x _ => ?_)
  exact Bool.beq_eq_decide_eq ..

theorem putsOf_eq_nil (h : ∀ e ∈ tr, e.id ≠ id) : putsOf id tr = [] := by
  unfold putsOf
  rw [map_eq_nil_iff, filter_eq_nil_iff]
  intro x hx
  obtain ⟨es, hput, _⟩ := exists_of_mem_puts hx
  exact fun heq => h _ hput (of_decide_eq_true heq)

theorem putsOf_report (st : Stretch γ σ κ ρ ε) :
    putsOf id (report id st : List (Event τ ω ρ ε)) = st.log := by
  unfold putsOf
  rw [puts_report, filter_eq_self.mpr, map_map]
  · exact map_id _
  · intro x hx
    obtain ⟨y, _, rfl⟩ := mem_map.mp hx
    exact decide_eq_true rfl

/-- Every call of the run: those that go on, and those that have returned. -/
structure Accounted (P : ω → κ → List ε → Prop) (Q : ω → ρ → List ε → Prop)
    (s : State τ γ σ κ) (tr : List (Event τ ω ρ ε)) : Prop where
  /-- There is no other call. -/
  known : ∀ e ∈ tr, e.id.2 < s.calls e.id.1 ∨
    (e.id.2 = s.calls e.id.1 ∧ (s.phase e.id.1).frame ≠ none)
  active : ∀ t k, (s.phase t).frame = some k → ∃ w, (∀ w', .called (t, s.calls t) w' ∈ tr ↔ w' = w) ∧
    (∀ r, .returned (t, s.calls t) r ∉ tr) ∧ P w k (putsOf (t, s.calls t) tr)
  ended : ∀ t n, n < s.calls t → ∃ w r, (∀ w', .called (t, n) w' ∈ tr ↔ w' = w) ∧
    (∀ r', .returned (t, n) r' ∈ tr ↔ r' = r) ∧ Q w r (putsOf (t, n) tr)

variable {P : ω → κ → List ε → Prop} {Q : ω → ρ → List ε → Prop} {t : τ}

/-- Events of another call change nothing about this one. -/
theorem append_of_ne (tr : List (Event τ ω ρ ε)) {i : τ × Nat} (hes : ∀ e ∈ es, e.id = i)
    (hne : id ≠ i) :
    (∀ w, .called id w ∈ tr ++ es ↔ .called id w ∈ tr) ∧
      (∀ r, .returned id r ∈ tr ++ es ↔ .returned id r ∈ tr) ∧
      putsOf id (tr ++ es) = putsOf id tr := by
  refine ⟨fun w => mem_append_of_ne hes hne, fun r => mem_append_of_ne hes hne, ?_⟩
  rw [putsOf_append, putsOf_eq_nil fun e he heq => hne (heq.symm.trans (hes e he)), append_nil]

/-- The calls of which a step says nothing. -/
theorem Accounted.frame (h : Accounted P Q s tr) (hes : ∀ e ∈ es, e.id = (t, s.calls t))
    (hframe : ∀ x, x ≠ t → (s'.phase x).frame = (s.phase x).frame)
    (hcalls : ∀ x, x ≠ t → s'.calls x = s.calls x) (hle : s.calls t ≤ s'.calls t)
    (hmine : s.calls t < s'.calls t ∨ (s'.phase t).frame ≠ none)
    (hactive : ∀ k, (s'.phase t).frame = some k →
      ∃ w, (∀ w', .called (t, s'.calls t) w' ∈ tr ++ es ↔ w' = w) ∧
        (∀ r, .returned (t, s'.calls t) r ∉ tr ++ es) ∧ P w k (putsOf (t, s'.calls t) (tr ++ es)))
    (hended : ∀ n, s.calls t ≤ n → n < s'.calls t →
      ∃ w r, (∀ w', .called (t, n) w' ∈ tr ++ es ↔ w' = w) ∧
        (∀ r', .returned (t, n) r' ∈ tr ++ es ↔ r' = r) ∧ Q w r (putsOf (t, n) (tr ++ es))) :
    Accounted P Q s' (tr ++ es) := by
  -- The call of this step stays known: it goes on, or it has returned.
  have hnew : s.calls t < s'.calls t ∨ (s.calls t = s'.calls t ∧ (s'.phase t).frame ≠ none) := by
    rcases hmine with hlt | hin
    · exact .inl hlt
    · rcases Nat.lt_or_eq_of_le hle with hlt | heq
      · exact .inl hlt
      · exact .inr ⟨heq, hin⟩
  refine ⟨fun e he => ?_, fun x k hk => ?_, fun x n hn => ?_⟩
  · rcases mem_append.mp he with he | he
    · by_cases hx : e.id.1 = t
      · have hknown := h.known e he
        rw [hx] at hknown ⊢
        rcases hknown with hlt | ⟨heq, _⟩
        · exact .inl (Nat.lt_of_lt_of_le hlt hle)
        · rwa [heq]
      · rw [hcalls _ hx, hframe _ hx]
        exact h.known e he
    · rwa [hes e he]
  · by_cases hx : x = t
    · rw [hx] at hk ⊢
      exact hactive k hk
    · rw [hframe x hx] at hk
      rw [hcalls x hx]
      have hne : (x, s.calls x) ≠ (t, s.calls t) := fun heq => hx (Prod.mk.inj heq).1
      obtain ⟨hcalls', hrets, hputs⟩ := append_of_ne tr hes hne
      obtain ⟨w, hcalled, hret, hP⟩ := h.active x k hk
      refine ⟨w, fun w' => (hcalls' w').trans (hcalled w'), fun r => ?_, ?_⟩
      · rw [hrets]
        exact hret r
      · rwa [hputs]
  -- A call that has returned in this step, or one that had before.
  · by_cases hold : x = t ∧ s.calls t ≤ n
    · obtain ⟨rfl, hle'⟩ := hold
      exact hended n hle' hn
    · have hne : (x, n) ≠ (t, s.calls t) := fun heq =>
        hold ⟨(Prod.mk.inj heq).1, Nat.le_of_eq (Prod.mk.inj heq).2.symm⟩
      have hlt : n < s.calls x := by
        by_cases hx : x = t
        · subst hx
          exact Nat.lt_of_not_le fun hle' => hold ⟨rfl, hle'⟩
        · rwa [hcalls x hx] at hn
      obtain ⟨hcalls', hrets, hputs⟩ := append_of_ne tr hes hne
      obtain ⟨w, r, hcalled, hret, hQ⟩ := h.ended x n hlt
      refine ⟨w, r, fun w' => (hcalls' w').trans (hcalled w'),
        fun r' => (hrets r').trans (hret r'), ?_⟩
      rwa [hputs]

theorem accounted_init (shared : σ) :
    Accounted P Q (init shared : State τ γ σ κ) ([] : List (Event τ ω ρ ε)) where
  known := nofun
  active := fun t k hk => absurd hk (by simp [init, Phase.frame])
  ended := fun t n hn => absurd hn (Nat.not_lt_zero n)

section

variable (h : Accounted P Q s tr)

include h

/-- What is known of a call: it goes on, or it has returned. -/
theorem Accounted.of_called {w : ω} (hw : .called id w ∈ tr) :
    (∃ k, P w k (putsOf id tr) ∧ ∀ r, .returned id r ∉ tr) ∨
      ∃ r, (∀ r', .returned id r' ∈ tr ↔ r' = r) ∧ Q w r (putsOf id tr) := by
  obtain ⟨t, n⟩ := id
  rcases h.known _ hw with hlt | ⟨heq, hin⟩
  · obtain ⟨w', r, hcalled, hret, hQ⟩ := h.ended t n hlt
    obtain rfl := (hcalled w).mp hw
    exact .inr ⟨r, hret, hQ⟩
  · obtain ⟨k, hk⟩ := Option.ne_none_iff_exists'.mp hin
    obtain rfl : n = s.calls t := heq
    obtain ⟨w', hcalled, hret, hP⟩ := h.active t k hk
    obtain rfl := (hcalled w).mp hw
    exact .inl ⟨k, hP, hret⟩

/-- Whatever is seen is part of a call. -/
theorem Accounted.exists_called (he : e ∈ tr) :
    ∃ w, .called e.id w ∈ tr := by
  rcases h.known e he with hlt | ⟨heq, hin⟩
  · obtain ⟨w, _, hcalled, _⟩ := h.ended e.id.1 e.id.2 hlt
    exact ⟨w, (hcalled w).mpr rfl⟩
  · obtain ⟨k, hk⟩ := Option.ne_none_iff_exists'.mp hin
    obtain ⟨w, hcalled, _⟩ := h.active e.id.1 k hk
    rw [← heq] at hcalled
    exact ⟨w, (hcalled w).mpr rfl⟩

/-- What was put was put by one of the calls. -/
theorem Accounted.exists_of_puts (hx : x ∈ puts tr) :
    ∃ w, .called x.1 w ∈ tr ∧ x.2 ∈ putsOf x.1 tr := by
  obtain ⟨es, hput, _⟩ := exists_of_mem_puts hx
  obtain ⟨w, hw⟩ := h.exists_called hput
  refine ⟨w, hw, mem_map.mpr ⟨x, mem_filter.mpr ⟨hx, ?_⟩, rfl⟩⟩
  exact decide_eq_true rfl

/-- A number that is not used yet. -/
theorem Accounted.unused (hout : s.phase t = .outside) (he : e ∈ tr) : e.id ≠ (t, s.calls t) := by
  intro heq
  have hknown := h.known e he
  rw [heq, hout] at hknown
  rcases hknown with hlt | ⟨_, hin⟩
  · exact Nat.lt_irrefl _ hlt
  · exact hin rfl

theorem Accounted.wakes (hwakes : s.Wakes s') : Accounted P Q s' tr where
  known := by
    intro e he
    rw [hwakes.calls, hwakes.frame]
    exact h.known e he
  active := by
    intro t k hk
    rw [hwakes.frame] at hk
    rw [hwakes.calls]
    exact h.active t k hk
  ended := by
    intro t n hn
    rw [hwakes.calls] at hn
    exact h.ended t n hn

end

variable {M : Program γ σ κ ω ρ ε}

theorem Accounted.start (h : Accounted P Q s tr) (hrule : Rule M P Q) (w : ω)
    (hout : s.phase t = .outside) :
    Accounted P Q { s with phase := update s.phase t (.ready (M.enter w)) }
      (tr ++ [.called (t, s.calls t) w]) := by
  -- The number of the new call has not been seen before.
  have hunused := fun e (he : e ∈ tr) => h.unused hout he
  have hframe : ((update s.phase t (.ready (M.enter w)) t)).frame = some (M.enter w) := by
    rw [update_self]
    rfl
  refine h.frame (t := t) (fun e he => mem_singleton.mp he ▸ rfl)
    (fun x hx => congrArg Phase.frame (update_of_ne hx ..)) (fun _ _ => rfl)
    (Nat.le_refl _) (.inr (by rw [hframe]; exact Option.some_ne_none _)) (fun k hk => ?_)
    (fun n hle hlt => absurd hlt (Nat.not_lt.mpr hle))
  have hk : M.enter w = k := Option.some.inj (hframe.symm.trans hk)
  refine ⟨w, fun w' => ⟨fun hw' => ?_, ?_⟩, fun r hr => ?_, ?_⟩
  · rcases mem_append.mp hw' with hold | hnew
    · exact absurd rfl (hunused _ hold)
    · cases mem_singleton.mp hnew
      rfl
  · rintro rfl
    exact mem_append_right _ (mem_singleton_self _)
  · rcases mem_append.mp hr with hold | hnew
    · exact absurd rfl (hunused _ hold)
    · cases mem_singleton.mp hnew
  · show P w k (putsOf (t, s.calls t) _)
    rw [putsOf_append, putsOf_eq_nil hunused, ← hk]
    exact hrule.enter w

variable [DecidableEq γ]

theorem Accounted.run {k : κ} (h : Accounted P Q s tr) (hrule : Rule M P Q)
    (hk : (s.phase t).runnable = some k) (hcode : M.code k s.shared = some st) :
    Accounted P Q (s.apply t st) (tr ++ report (t, s.calls t) st) := by
  obtain ⟨w, hcalled, hret, hP⟩ := h.active t k (Phase.frame_of_runnable hk)
  -- The events of a stretch: what it has put, and a return if it is the last one.
  have hcalled' : ∀ w', .called (t, s.calls t) w' ∈ tr ++ report (t, s.calls t) st ↔ w' = w := by
    intro w'
    rw [mem_append, ← hcalled w']
    exact ⟨fun hw => hw.resolve_right (called_not_mem_report st w'), .inl⟩
  have hret' : ∀ r, .returned (t, s.calls t) r ∈ tr ++ report (t, s.calls t) st ↔
      st.finish = .ret r := by
    intro r
    have hmem : .returned (t, s.calls t) r ∈
        (report (t, s.calls t) st : List (Event τ ω ρ ε)) ↔ st.finish = .ret r :=
      returned_mem_report
    rw [mem_append, ← hmem]
    exact ⟨fun hr => hr.resolve_left (hret r), .inr⟩
  have hputs : putsOf (t, s.calls t) (tr ++ report (t, s.calls t) st)
      = putsOf (t, s.calls t) tr ++ st.log := by
    rw [putsOf_append, putsOf_report]
  cases hfin : st.finish with
  -- The call goes on behind the wait, with what the rule says of it.
  | wait c k' =>
    obtain ⟨hphase, hcalls⟩ := s.apply_wait (t := t) hfin
    refine h.frame (report_id st) (fun x hx => s.apply_frame_of_ne st hx)
      (fun x hx => s.apply_calls_of_ne st hx) (Nat.le_of_eq hcalls.symm)
      (.inr (by rw [hphase]; exact nofun)) (fun k'' hk'' => ?_)
      (fun n hle hlt => absurd hlt (by omega))
    rw [hphase] at hk''
    obtain rfl : k' = k'' := Option.some.inj hk''
    rw [hcalls]
    refine ⟨w, hcalled', fun r hr => ?_, ?_⟩
    · exact absurd (hfin.symm.trans ((hret' r).mp hr)) (by simp)
    · rw [hputs]
      exact hrule.wait hP hcode hfin
  | ret r =>
    obtain ⟨hphase, hcalls⟩ := s.apply_ret (t := t) hfin
    refine h.frame (report_id st) (fun x hx => s.apply_frame_of_ne st hx)
      (fun x hx => s.apply_calls_of_ne st hx) (by omega) (.inl (by omega))
      (fun k'' hk'' => absurd hk'' (by simp [hphase, Phase.frame])) (fun n hle hlt => ?_)
    obtain rfl : n = s.calls t := by omega
    refine ⟨w, r, hcalled', fun r' => ?_, ?_⟩
    · rw [hret', hfin]
      exact ⟨fun heq => (Finish.ret.inj heq).symm, fun heq => heq ▸ rfl⟩
    · rw [hputs]
      exact hrule.ret hP hcode hfin

theorem Accounted.step {op : Op τ ω} (h : Accounted P Q s tr) (hrule : Rule M P Q)
    (hstep : Step M s op s' es) : Accounted P Q s' (tr ++ es) := by
  cases hstep with
  | start w hout => exact h.start hrule w hout
  | run hk hcode => exact h.run hrule hk hcode
  | @wake t =>
    rw [append_nil]
    exact h.wakes (s.wakes_unblock t)

/-- **What holds of one call holds of every call of every run.** -/
theorem calls_accounted (hrule : Rule M P Q) {shared : σ} {ops : List (Op τ ω)}
    (h : Reaches M shared ops s tr) : Accounted P Q s tr :=
  reaches_induction (P := fun _ _ => True) (accounted_init shared)
    (fun hI _ hstep => hI.step hrule hstep) along_true h

end

end AlaphiOS.Lib.Monitor
