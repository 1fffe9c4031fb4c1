import AlaphiOS.Sched.Queues

/-!
# Bounded overtaking

How long a queued task waits, whatever is pushed, boosted and demoted meanwhile. Each boost moves
it up by one queue, so after `BOOST_PERIOD · i` ticks a task of queue `i` has been dispatched or is
in queue 0. Queue 0 is served first, and tasks join it at the back only; so the tasks in it are the
next ones dispatched, in their order.

Both follow from what a call can do to the queues (`QueueMove`): append to one, move all up, or
take the front of the first that is not empty and perhaps append to one.
-/

namespace AlaphiOS.Sched

open Lib List MlfqScheduler

/-- What a call does to the queues and to the number of boosts there have been, and whom it
dispatches. -/
inductive QueueMove (qs : List (List Nat)) (boosts : Nat) :
    List Nat → List (List Nat) → Nat → Prop
  | same : QueueMove qs boosts [] qs boosts
  | append (i t : Nat) : QueueMove qs boosts [] (qs.modify i (· ++ [t])) boosts
  | boost (hlen : 2 ≤ qs.length) : QueueMove qs boosts [] (boostQueues qs) (boosts + 1)
  | take {t : Nat} {qs' : List (List Nat)} (h : pickNext qs = some (t, qs')) :
      QueueMove qs boosts [t] qs' boosts
  | swap {t : Nat} {qs' : List (List Nat)} (i out : Nat) (h : pickNext qs = some (t, qs')) :
      QueueMove qs boosts [t] (qs'.modify i (· ++ [out])) boosts

variable {m m' : MlfqScheduler} {ts ts' : Tasks} {es : List MlfqEvent}

/-- `total_ticks` is a multiple of `BOOST_PERIOD` once per period, and then `tick` boosts. -/
theorem mlfqStep_queueMove {op : MlfqOp} (h : mlfqStep (m, ts) op = some ((m', ts'), es)) :
    QueueMove m.queues (m.totalTicks / boostPeriod) (dispatchedIn es) m'.queues
      (m'.totalTicks / boostPeriod) := by
  cases op with
  | push t task =>
    cases h
    unfold push
    split <;> exact .append _ t
  | tick =>
    obtain ⟨⟨m₁, ts₁⟩, htick, heq⟩ := map_inv h
    cases heq
    obtain ⟨_, hticks, _, ⟨hboost, hq, _⟩ | ⟨hboost, hq, _⟩⟩ := tick_cases htick
    · have hperiod : m'.totalTicks / boostPeriod = m.totalTicks / boostPeriod + 1 := by
        unfold boostPeriod at hboost ⊢
        omega
      rw [hq, hperiod]
      refine .boost ?_
      rw [m.length_queues]
      decide
    · have hperiod : m'.totalTicks / boostPeriod = m.totalTicks / boostPeriod := by
        unfold boostPeriod at hboost ⊢
        omega
      rw [hq, hperiod]
      exact .same
  | prepareSwitch =>
    obtain ⟨⟨r, m₁, ts₁⟩, hprep, heq⟩ := map_inv h
    cases heq
    obtain ⟨hticks, ⟨rfl, _, hq, _⟩ | ⟨_, incoming, qs, hpick, rfl, _, hcase⟩⟩ :=
      prepareSwitch_cases hprep
    · rw [hq, hticks]
      exact .same
    · rw [hticks]
      rcases hcase with ⟨_, hq, _⟩ | ⟨out, _, _, hq, _⟩
      · rw [hq]
        exact .take hpick
      · rw [hq]
        exact .swap _ out hpick
  | removeCurrent =>
    cases h
    have hticks : m.removeCurrent.totalTicks = m.totalTicks := by
      unfold removeCurrent
      split <;> rfl
    have hnone : dispatchedIn (m.current.map .removed).toList = [] := by
      cases m.current <;> rfl
    rw [removeCurrent_spec.1, hticks, hnone]
    exact .same

section Moves

variable {qs qs' : List (List Nat)} {boosts boosts' i t : Nat} {ds new left q₀ : List Nat}

/-! ## From queue to queue -/

/-- The task has been dispatched, or it waits in queue 0 or one that the boosts still to come up
to `limit` take it from. -/
def Rising (limit t : Nat) (qs : List (List Nat)) (boosts : Nat) (ds : List Nat) : Prop :=
  t ∈ ds ∨ ∃ j, InQueue qs j t ∧ (j = 0 ∨ j + boosts ≤ limit)

theorem Rising.move {limit : Nat} (h : Rising limit t qs boosts ds)
    (hm : QueueMove qs boosts new qs' boosts') : Rising limit t qs' boosts' (ds ++ new) := by
  rcases h with hd | ⟨j, hj, hle⟩
  · exact .inl (mem_append_left _ hd)
  -- if it is not the picked one, it is where it was
  have hpicked : ∀ {x qs₁}, pickNext qs = some (x, qs₁) → t = x ∨ InQueue qs₁ j t := by
    intro x qs₁ hpick
    obtain ⟨i, hqs⟩ := inQueue_pickNext hpick
    exact ((hqs j t).mp hj).imp_left fun h => h.2
  cases hm with
  | same => exact .inr ⟨j, hj, hle⟩
  | append i x => exact .inr ⟨j, inQueue_modify.mpr (.inl hj), hle⟩
  | boost hlen =>
    rcases Nat.eq_zero_or_pos j with rfl | hpos
    · exact .inr ⟨0, (inQueue_boost hlen).mpr (.inr ⟨rfl, hj⟩), .inl rfl⟩
    · refine .inr ⟨j - 1, (inQueue_boost hlen).mpr (.inl ?_), by omega⟩
      rw [Nat.sub_add_cancel hpos]
      exact hj
  | take hpick =>
    rcases hpicked hpick with rfl | hj
    · exact .inl (mem_append_right _ (mem_singleton_self t))
    · exact .inr ⟨j, hj, hle⟩
  | swap i out hpick =>
    rcases hpicked hpick with rfl | hj
    · exact .inl (mem_append_right _ (mem_singleton_self t))
    · exact .inr ⟨j, inQueue_modify.mpr (.inl hj), hle⟩

/-! ## The order of queue 0 -/

/-- Queue 0 begins with these tasks. -/
def Front (left : List Nat) (qs : List (List Nat)) : Prop :=
  ∃ more rest, qs = (left ++ more) :: rest

theorem front_of_getElem (h : qs[0]? = some q₀) : Front q₀ qs := by
  cases qs with
  | nil => cases h
  | cons q qs =>
    cases h
    exact ⟨[], qs, by rw [append_nil]⟩

theorem Front.modify (h : Front left qs) (i t : Nat) : Front left (qs.modify i (· ++ [t])) := by
  obtain ⟨more, rest, rfl⟩ := h
  cases i with
  | zero => exact ⟨more ++ [t], rest, by simp⟩
  | succ i => exact ⟨more, rest.modify i (· ++ [t]), rfl⟩

theorem Front.boost (h : Front left qs) : Front left (boostQueues qs) := by
  obtain ⟨more, rest, rfl⟩ := h
  cases rest with
  | nil => exact ⟨more, [], rfl⟩
  | cons q₁ rest => exact ⟨more ++ q₁, rest ++ [[]], by simp [boostQueues]⟩

theorem Front.pickNext {x y : Nat} (h : Front (x :: left) qs)
    (hpick : pickNext qs = some (y, qs')) : y = x ∧ Front left qs' := by
  obtain ⟨more, rest, rfl⟩ := h
  cases hpick
  exact ⟨rfl, more, rest, rfl⟩

/-- Of the tasks `q₀` the dispatched ones come first and the others are the front of queue 0, or
all have been dispatched first. -/
def InTurn (q₀ : List Nat) (qs : List (List Nat)) (ds : List Nat) : Prop :=
  (∃ left, q₀ = ds ++ left ∧ Front left qs) ∨ q₀.IsPrefix ds

theorem InTurn.pickNext (h : InTurn q₀ qs ds) (hpick : pickNext qs = some (t, qs')) :
    InTurn q₀ qs' (ds ++ [t]) := by
  rcases h with ⟨left, rfl, hfront⟩ | hall
  · cases left with
    | nil =>
      rw [append_nil]
      exact .inr (prefix_append ..)
    | cons x left =>
      obtain ⟨rfl, hleft⟩ := hfront.pickNext hpick
      exact .inl ⟨left, by simp, hleft⟩
  · exact .inr (hall.trans (prefix_append ..))

theorem InTurn.mono (h : InTurn q₀ qs ds) (hfront : ∀ left, Front left qs → Front left qs') :
    InTurn q₀ qs' ds :=
  h.imp_left fun ⟨left, heq, hleft⟩ => ⟨left, heq, hfront left hleft⟩

theorem InTurn.move (h : InTurn q₀ qs ds) (hm : QueueMove qs boosts new qs' boosts') :
    InTurn q₀ qs' (ds ++ new) := by
  cases hm with
  | same => rwa [append_nil]
  | append i x =>
    rw [append_nil]
    exact h.mono fun _ hfront => hfront.modify i x
  | boost _ =>
    rw [append_nil]
    exact h.mono fun _ hfront => hfront.boost
  | take hpick => exact h.pickNext hpick
  | swap i out hpick => exact (h.pickNext hpick).mono fun _ hfront => hfront.modify i out

/-- So the dispatched tasks and those of the queue agree as far as both go. -/
theorem InTurn.getElem (h : InTurn q₀ qs ds) {p : Nat} (hq : p < q₀.length) (hd : p < ds.length) :
    ds[p]? = q₀[p]? := by
  rcases h with ⟨left, rfl, _⟩ | ⟨later, rfl⟩
  · exact (getElem?_append_left hd).symm
  · exact getElem?_append_left hq

end Moves

/-! ## Runs -/

/-- What every move keeps, every run keeps. -/
theorem run_queueMoves {I : List (List Nat) → Nat → List Nat → Prop}
    (hmove : ∀ {qs qs' b b' ds new}, I qs b ds → QueueMove qs b new qs' b' → I qs' b' (ds ++ new))
    {ops : List MlfqOp}
    (hI : I m.queues (m.totalTicks / boostPeriod) [])
    (h : exec (traced mlfqStep) ((m, ts), []) ops = some ((m', ts'), es)) :
    I m'.queues (m'.totalTicks / boostPeriod) (dispatchedIn es) := by
  refine exec_induction (P := fun _ _ => True)
    (I := fun s : (MlfqScheduler × Tasks) × List MlfqEvent =>
      I s.1.1.queues (s.1.1.totalTicks / boostPeriod) (dispatchedIn s.2)) ?_ hI along_true h
  intro s op s' hI _ hs
  obtain ⟨es, hstep, hes⟩ := traced_inv hs
  rw [hes]
  unfold dispatchedIn
  rw [filterMap_append]
  exact hmove hI (mlfqStep_queueMove hstep)

/-- **Overtaking is bounded.** From any state in which the priorities of the tasks are numbers of
queues, with any later calls: a task of queue `i` has been dispatched after `100 · i` ticks or is
in queue 0, and a task at index `p` of queue 0 is the incoming task of the `p + 1`-st switch. -/
theorem bounded_overtaking {m : MlfqScheduler} {ts : Tasks} {ops : List MlfqOp}
    (hm : m.InRange ts) (hops : ∀ op ∈ ops, op.InRange) :
    ((exec (traced mlfqStep) ((m, ts), []) ops).isSome ↔
      ticksIn ops = 0 ∨ m.totalTicks + ticksIn ops < 2 ^ 32) ∧
    ∀ m' ts' es, exec (traced mlfqStep) ((m, ts), []) ops = some ((m', ts'), es) →
      (∀ i t, InQueue m.queues i t → boostPeriod * i ≤ ticksIn ops →
        t ∈ dispatchedIn es ∨ InQueue m'.queues 0 t) ∧
      ∀ q₀, m.queues[0]? = some q₀ → ∀ p < q₀.length, p < (dispatchedIn es).length →
        (dispatchedIn es)[p]? = q₀[p]? := by
  obtain ⟨hsome, hticks⟩ := hm.run hops []
  refine ⟨hsome, fun m' ts' es hrun => ⟨fun i t hi hle => ?_, fun q₀ hq₀ p hp hd => ?_⟩⟩
  · have hrising := run_queueMoves (I := Rising (i + m.totalTicks / boostPeriod) t)
      Rising.move (.inr ⟨i, hi, .inr le_rfl⟩) hrun
    rcases hrising with hd | ⟨j, hj, hj0⟩
    · exact .inl hd
    · -- by now there have been `i` boosts
      have hzero : j = 0 := by
        rw [hticks m' ts' es hrun] at hj0
        unfold boostPeriod at hj0 hle
        omega
      exact .inr (hzero ▸ hj)
  · have hturn := run_queueMoves (I := fun qs _ ds => InTurn q₀ qs ds)
      InTurn.move (.inl ⟨q₀, rfl, ?_⟩) hrun
    · exact hturn.getElem hp hd
    · exact front_of_getElem hq₀

/-- Task 3 is current, 1 is in queue 0 and 2 in queue 1. -/
def oneBehind : MlfqScheduler :=
  ⟨[[1], [2], [], [], [], [], [], []], rfl, some 3, 1, 0, false⟩

/-- After 100 ticks task 2 is in queue 0; the switch then dispatches task 1. -/
theorem bounded_overtaking_oneBehind : ∃ m' ts' es,
    exec (traced mlfqStep) ((oneBehind, fun _ => ⟨0, .ready, 0, none, none⟩), [])
      (replicate 100 .tick ++ [.prepareSwitch]) = some ((m', ts'), es) ∧
    (2 ∈ dispatchedIn es ∨ InQueue m'.queues 0 2) ∧ (dispatchedIn es)[0]? = some 1 := by
  have hm : oneBehind.InRange fun _ => ⟨0, .ready, 0, none, none⟩ := by
    intro t _
    show 0 < numQueues
    decide
  have hops : ∀ op ∈ replicate 100 MlfqOp.tick ++ [.prepareSwitch], op.InRange := by
    intro op hop
    simp only [mem_append, mem_replicate, mem_singleton] at hop
    rcases hop with ⟨_, rfl⟩ | rfl <;> trivial
  have hfacts : ∀ r, exec (traced mlfqStep) ((oneBehind, fun _ => ⟨0, .ready, 0, none, none⟩), [])
      (replicate 100 .tick ++ [.prepareSwitch]) = some r →
      0 < (dispatchedIn r.2).length := by decide +kernel
  obtain ⟨hsome, hrun⟩ := bounded_overtaking hm hops
  obtain ⟨⟨⟨m', ts'⟩, es⟩, hr⟩ := Option.isSome_iff_exists.mp (hsome.mpr (by decide +kernel))
  obtain ⟨hwait, horder⟩ := hrun m' ts' es hr
  refine ⟨m', ts', es, hr, hwait 1 2 ⟨[2], rfl, by decide⟩ (by decide +kernel), ?_⟩
  exact horder [1] rfl 0 (by decide) (hfacts _ hr)

end AlaphiOS.Sched
