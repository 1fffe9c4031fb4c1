import AlaphiOS.Sched.Roster

/-!
# The invariant of every run

`Roster.Ok` needs no condition on the run: the running task is the current one,
except at the very end of `exit`, and a task that is being spawned is Ready and
in no queue yet. It is proved move by move (`Ok.move`), and `run_ok` carries it
along a run from `boot`.

The invariants of the other modules assume it and add what their own condition
buys. `Exited` is the part they share: a task that has called `exit` stays a
Zombie and out of the queues, unless a switch is made while it is still current.
-/

namespace AlaphiOS.Sched

open Lib Function List

namespace Roster

/-- What holds at every point of a run. -/
structure Ok (r : Roster) : Prop where
  /-- The task that runs is the current one, up to the end of `exit`. -/
  runsCurrent : (r.current = some r.cpu ∧ (r.pc r.cpu).phase ≠ .ended) ∨
    (r.current = none ∧ (r.pc r.cpu).phase = .ended)
  ended : ∀ {p}, (r.pc p).phase = .ended → p = r.cpu
  uncreated : ∀ {p}, r.created ≤ p → r.pc p = .run
  cpuCreated : r.cpu < r.created
  queuedCreated : ∀ {t}, t ∈ r.queued → t < r.created
  listedCreated : ∀ {t}, r.listed t = true → t < r.created
  /-- A task that is being spawned is Ready and nowhere. -/
  spawn : ∀ {p t}, (r.pc p).spawns = some t →
    t < r.created ∧ r.state t = .ready ∧ t ∉ r.queued ∧ t ≠ r.cpu
  spawnOnce : ∀ {p q t}, (r.pc p).spawns = some t → (r.pc q).spawns = some t → p = q

variable {r r' : Roster} {p : Pc} {t : Nat} {ts : List Nat}

theorem Ok.current_of_live (h : r.Ok) (hlive : (r.pc r.cpu).phase = .live) :
    r.current = some r.cpu := by
  rcases h.runsCurrent with ⟨hc, _⟩ | ⟨_, he⟩
  · exact hc
  · cases hlive.symm.trans he

theorem Ok.cpu_of_current (h : r.Ok) (hc : r.current = some t) : r.cpu = t := by
  rcases h.runsCurrent with ⟨hc', _⟩ | ⟨hn, _⟩
  · exact Option.some.inj (hc'.symm.trans hc)
  · cases hn.symm.trans hc

/-! ### `goto` -/

theorem goto_pc_cpu : (r.goto p).pc r.cpu = p := update_self ..

variable {q : Nat} {c : Entries} {es : List Event}

theorem goto_pc_of_ne (hq : q ≠ r.cpu) : (r.goto p).pc q = r.pc q :=
  update_of_ne hq ..

theorem goto_phase (hp : p.phase = (r.pc r.cpu).phase) (q : Nat) :
    ((r.goto p).pc q).phase = (r.pc q).phase := by
  by_cases hq : q = r.cpu
  · rw [hq, goto_pc_cpu]
    exact hp
  · rw [goto_pc_of_ne hq]

theorem goto_live (hp : p.phase = .live → (r.pc r.cpu).phase = .live)
    (hq : ((r.goto p).pc q).phase = .live) : (r.pc q).phase = .live := by
  by_cases hcpu : q = r.cpu
  · rw [hcpu, goto_pc_cpu] at hq
    rw [hcpu]
    exact hp hq
  · rwa [goto_pc_of_ne hcpu] at hq

theorem goto_spawns (hp : ∀ {t}, p.spawns = some t → (r.pc r.cpu).spawns = some t)
    (hq : ((r.goto p).pc q).spawns = some t) : (r.pc q).spawns = some t := by
  by_cases hcpu : q = r.cpu
  · rw [hcpu, goto_pc_cpu] at hq
    rw [hcpu]
    exact hp hq
  · rwa [goto_pc_of_ne hcpu] at hq

/-- The running task moves on, maybe to another part of its life. -/
theorem Ok.advance (h : r.Ok) {current : Option Nat}
    (hc : (current = some r.cpu ∧ p.phase ≠ .ended) ∨ (current = none ∧ p.phase = .ended))
    (hp : ∀ {t}, p.spawns = some t → (r.pc r.cpu).spawns = some t) :
    ({ r with current := current }.goto p).Ok where
  runsCurrent := by
    show (current = some r.cpu ∧ ((r.goto p).pc r.cpu).phase ≠ .ended) ∨
      (current = none ∧ ((r.goto p).pc r.cpu).phase = .ended)
    rw [goto_pc_cpu]
    exact hc
  ended := by
    intro q (hq : ((r.goto p).pc q).phase = .ended)
    by_contra hne
    rw [goto_pc_of_ne (r := r) hne] at hq
    exact hne (h.ended hq)
  uncreated := by
    intro q hq
    have hne : q ≠ r.cpu := (Nat.lt_of_lt_of_le h.cpuCreated hq).ne'
    exact (goto_pc_of_ne (r := r) hne).trans (h.uncreated hq)
  cpuCreated := h.cpuCreated
  queuedCreated := h.queuedCreated
  listedCreated := h.listedCreated
  spawn := fun {_ _} hq => h.spawn (goto_spawns hp hq)
  spawnOnce := fun {_ _ _} hq hq' => h.spawnOnce (goto_spawns hp hq) (goto_spawns hp hq')

/-- Going on within a phase. -/
theorem Ok.goto (h : r.Ok) (hp : p.Like (r.pc r.cpu)) : (r.goto p).Ok := by
  refine h.advance ?_ fun hs => hp.2.symm.trans hs
  rw [hp.1]
  exact h.runsCurrent

/-! ### `unblock_tid` -/

/-- What every effective `unblock_tid` keeps, a row of them keeps. -/
theorem unblockAll_rule {P : Roster → Prop} :
    ∀ {ts : List Nat} {r : Roster},
      (∀ r t, t ∈ ts → P r → r.listed t = true → r.state t = .blocked →
        P { r with state := update r.state t .ready, queued := t ::ₘ r.queued }) →
      P r → P (r.unblockAll ts).1 := by
  intro ts
  induction ts with
  | nil => exact fun _ h => h
  | cons t ts ih =>
    intro r hstep h
    refine ih (r := (r.unblock t).1) (fun r t' ht' => hstep r t' (mem_cons_of_mem _ ht')) ?_
    unfold unblock
    split
    next hb => exact hstep r t mem_cons_self h hb.1 hb.2
    · exact h

theorem unblock_state (x : Nat) :
    (r.unblock t).1.state x = r.state x ∨
    (r.state x = .blocked ∧ (r.unblock t).1.state x = .ready) := by
  unfold unblock
  split
  next hb =>
    by_cases hx : x = t
    · exact .inr ⟨hx ▸ hb.2, hx ▸ update_self ..⟩
    · exact .inl (update_of_ne hx ..)
  · exact .inl rfl

/-- All that a row of `unblock_tid` reports. -/
theorem unblockAll_events : ∀ {ts : List Nat} {r : Roster} {e : Event},
    e ∈ (r.unblockAll ts).2 → ∃ x, e = .unblocked x ∨ (e = .enqueued x ∧ r.state x = .blocked) := by
  intro ts
  induction ts with
  | nil => exact nofun
  | cons t ts ih =>
    intro r e (he : e ∈ (r.unblock t).2 ++ ((r.unblock t).1.unblockAll ts).2)
    rcases mem_append.mp he with he | he
    · unfold unblock at he
      split at he
      next hb =>
        rcases mem_cons.mp he with rfl | he
        · exact ⟨t, .inl rfl⟩
        · exact ⟨t, .inr ⟨mem_singleton.mp he, hb.2⟩⟩
      · exact ⟨t, .inl (mem_singleton.mp he)⟩
    · obtain ⟨x, rfl | ⟨rfl, hx⟩⟩ := ih he
      · exact ⟨x, .inl rfl⟩
      · refine ⟨x, .inr ⟨rfl, ?_⟩⟩
        rcases unblock_state (r := r) (t := t) x with hs | ⟨hs, _⟩
        · exact hs.symm.trans hx
        · exact hs

theorem unblockAll_frame : (r.unblockAll ts).1.pc = r.pc ∧ (r.unblockAll ts).1.cpu = r.cpu ∧
    (r.unblockAll ts).1.current = r.current ∧ (r.unblockAll ts).1.listed = r.listed ∧
    (r.unblockAll ts).1.created = r.created ∧ (r.unblockAll ts).1.code = r.code :=
  unblockAll_rule (P := fun r' => r'.pc = r.pc ∧ r'.cpu = r.cpu ∧ r'.current = r.current ∧
    r'.listed = r.listed ∧ r'.created = r.created ∧ r'.code = r.code)
    (fun _ _ _ h _ _ => h) ⟨rfl, rfl, rfl, rfl, rfl, rfl⟩

theorem Ok.unblock (h : r.Ok) (hlisted : r.listed t = true) (hb : r.state t = .blocked) :
    { r with state := update r.state t .ready, queued := t ::ₘ r.queued }.Ok :=
  { h with
    queuedCreated := by
      intro x hx
      rcases Multiset.mem_cons.mp hx with rfl | hx
      · exact h.listedCreated hlisted
      · exact h.queuedCreated hx
    spawn := by
      intro p x hp
      obtain ⟨hc, hr, hq, hcpu⟩ := h.spawn hp
      -- the woken task was Blocked, the spawned one is Ready
      have hne : x ≠ t := by
        rintro rfl
        cases hr.symm.trans hb
      refine ⟨hc, (update_of_ne hne ..).trans hr, fun hx => ?_, hcpu⟩
      rcases Multiset.mem_cons.mp hx with hx | hx
      · exact hne hx
      · exact hq hx }

/-- Waking tasks. -/
theorem Ok.unblockAll (h : r.Ok) : (r.unblockAll ts).1.Ok :=
  unblockAll_rule (fun _ _ _ h hlisted hb => h.unblock hlisted hb) h

/-! ### The other moves -/

/-- The state and the exit code of the running task are its own business. -/
theorem Ok.setState (h : r.Ok) (state : TaskState) (code : Nat → Option Int) :
    { r with state := update r.state r.cpu state, code := code }.Ok :=
  { h with
    spawn := fun {_ _} hp =>
      have ⟨hc, hr, hq, hcpu⟩ := h.spawn hp
      ⟨hc, (update_of_ne hcpu ..).trans hr, hq, hcpu⟩ }

/-- Another task gets the processor, and the one that had it may be lost. -/
theorem Ok.dispatch (h : r.Ok) {incoming : Nat} {state : Nat → TaskState} {queued : Multiset Nat}
    {pc : Nat → Pc} (hin : incoming ∈ r.queued)
    (hpc : ∀ p, pc p = r.pc p ∨ (p = r.cpu ∧ pc p = .lost)) (hended : ∀ p, (pc p).phase ≠ .ended)
    (hqueued : ∀ x ∈ queued, x ∈ r.queued ∨ x = r.cpu)
    (hstate : ∀ x, x ∉ r.queued → x ≠ r.cpu → state x = r.state x) :
    { r with
      state := state, queued := queued, current := some incoming, cpu := incoming, pc := pc }.Ok := by
  have hspawns : ∀ {p t}, (pc p).spawns = some t → (r.pc p).spawns = some t := by
    intro p t hs
    rcases hpc p with hp | ⟨_, hp⟩ <;> rw [hp] at hs
    · exact hs
    · exact absurd hs (by simp [Pc.spawns])
  refine ⟨.inl ⟨rfl, hended incoming⟩, fun {p} hp => absurd hp (hended p), fun {p} hp => ?_,
    h.queuedCreated hin, fun {x} hx => ?_, h.listedCreated, fun {p t} hp => ?_,
    fun {_ _ _} hp hq => h.spawnOnce (hspawns hp) (hspawns hq)⟩
  · rcases hpc p with hpc' | ⟨rfl, _⟩
    · exact hpc'.trans (h.uncreated hp)
    · exact absurd h.cpuCreated (Nat.not_lt.mpr hp)
  · rcases hqueued x hx with hx | rfl
    · exact h.queuedCreated hx
    · exact h.cpuCreated
  · obtain ⟨hc, hr, hq, hcpu⟩ := h.spawn (hspawns hp)
    refine ⟨hc, (hstate t hq hcpu).trans hr, fun hx => ?_, fun hx => hq (hx ▸ hin)⟩
    rcases hqueued t hx with hx | hx
    · exact hq hx
    · exact hcpu hx

/-- Making a task. -/
theorem Ok.create (h : r.Ok) (hrun : r.pc r.cpu = .run) : r.create.Ok := by
  have hc : r.current = some r.cpu := h.current_of_live (by rw [hrun]; rfl)
  have hne : r.cpu ≠ r.created := Nat.ne_of_lt h.cpuCreated
  -- where the tasks are afterwards: the two that the step touches, and the others
  unfold Roster.create
  generalize hpc : update (update r.pc r.created .run) r.cpu
    (.spawnPush r.created) = pc
  have hcpu : pc r.cpu = .spawnPush r.created := by rw [← hpc, update_self]
  have hother : ∀ {q}, q ≠ r.cpu → pc q = .run ∨ pc q = r.pc q := by
    intro q hq
    rw [← hpc, update_of_ne hq]
    by_cases hq' : q = r.created
    · rw [hq', update_self]
      exact .inl rfl
    · exact .inr (update_of_ne hq' ..)
  have hspawns : ∀ {q t}, (pc q).spawns = some t →
      (q = r.cpu ∧ t = r.created) ∨ (r.pc q).spawns = some t := by
    intro q t hs
    by_cases hq : q = r.cpu
    · rw [hq, hcpu] at hs
      exact .inl ⟨hq, (Option.some.inj hs).symm⟩
    · rcases hother hq with hr | hr <;> rw [hr] at hs
      · exact absurd hs (by simp [Pc.spawns])
      · exact .inr hs
  refine ⟨.inl ⟨hc, ?_⟩, fun {q} hq => ?_, fun {q} hq => ?_,
    Nat.lt_succ_of_lt h.cpuCreated, fun {x} hx => Nat.lt_succ_of_lt (h.queuedCreated hx),
    fun {x} hx => ?_, fun {q t} hq => ?_, fun {q q' t} hq hq' => ?_⟩
  · show (pc r.cpu).phase ≠ .ended
    rw [hcpu]
    exact fun hp => absurd hp (by simp [Pc.phase])
  · by_contra hqc
    rcases hother hqc with hr | hr
    · exact absurd ((congrArg Pc.phase hr).symm.trans hq) (by decide)
    · exact hqc (h.ended ((congrArg Pc.phase hr).symm.trans hq))
  · have hlt : r.created < q := hq
    rcases hother (q := q) (Nat.lt_trans h.cpuCreated hlt).ne' with hr | hr
    · exact hr
    · exact hr.trans (h.uncreated hlt.le)
  · by_cases hx' : x = r.created
    · exact hx' ▸ Nat.lt_succ_self _
    · exact Nat.lt_succ_of_lt (h.listedCreated ((update_of_ne hx' ..).symm.trans hx))
  · show t < r.created + 1 ∧ update r.state r.created .ready t = .ready ∧
      t ∉ r.queued ∧ t ≠ r.cpu
    rcases hspawns hq with ⟨-, rfl⟩ | hold
    · exact ⟨Nat.lt_succ_self _, update_self ..,
        fun hx => Nat.lt_irrefl _ (h.queuedCreated hx), hne.symm⟩
    · obtain ⟨ht, hr, hx, hcpu'⟩ := h.spawn hold
      exact ⟨Nat.lt_succ_of_lt ht, (update_of_ne (Nat.ne_of_lt ht) ..).trans hr, hx, hcpu'⟩
  · rcases hspawns hq with ⟨hqc, ht⟩ | hold <;> rcases hspawns hq' with ⟨hqc', ht'⟩ | hold'
    · exact hqc.trans hqc'.symm
    · exact absurd ht (Nat.ne_of_lt (h.spawn hold').1)
    · exact absurd ht' (Nat.ne_of_lt (h.spawn hold).1)
    · exact h.spawnOnce hold hold'

/-- The spawned task leaves `spawn` and enters a queue. -/
theorem Ok.push (h : r.Ok) (hpc : r.pc r.cpu = .spawnPush t) :
    ({ r with queued := t ::ₘ r.queued }.goto .run).Ok := by
  have hspawn : (r.pc r.cpu).spawns = some t := by rw [hpc]; rfl
  have hadv := h.advance (p := .run) (.inl ⟨h.current_of_live (by rw [hpc]; rfl), by decide⟩)
    (fun hs => absurd hs (by simp [Pc.spawns]))
  refine { hadv with
    queuedCreated := fun {x} hx => ?_
    spawn := fun {q x} (hq : ((r.goto .run).pc q).spawns = some x) => ?_ }
  · rcases Multiset.mem_cons.mp hx with rfl | hx
    · exact (h.spawn hspawn).1
    · exact h.queuedCreated hx
  · obtain ⟨hc, hr, hx, hcpu⟩ := hadv.spawn hq
    refine ⟨hc, hr, fun hx' => ?_, hcpu⟩
    rcases Multiset.mem_cons.mp hx' with rfl | hx'
    · -- another `spawn` of the same task
      have hold := goto_spawns (r := r) (p := .run) (fun hs => absurd hs (by simp [Pc.spawns])) hq
      rw [h.spawnOnce hold hspawn, goto_pc_cpu] at hq
      exact absurd hq (by simp [Pc.spawns])
    · exact hx hx'

theorem Ok.unlist (h : r.Ok) : { r with listed := update r.listed t false }.Ok :=
  { h with
    listedCreated := by
      intro x hx
      by_cases hxt : x = t
      · rw [hxt] at hx
        exact absurd hx (by simp)
      · exact h.listedCreated ((update_of_ne hxt ..).symm.trans hx) }

/-- **Every move keeps it.** -/
theorem Ok.move (h : r.Ok) (hm : Move c r es r') : r'.Ok := by
  cases hm with
  | wake hp =>
    refine h.unblockAll.goto ?_
    rw [unblockAll_frame.1, unblockAll_frame.2.1]
    exact hp
  | block _ _ hp => exact (h.setState .blocked r.code).goto hp
  | @swap out incoming rest p _ hout hq hp =>
    have hgo := h.goto hp
    have hin : incoming ∈ r.queued := hq ▸ Multiset.mem_cons_self ..
    refine hgo.dispatch hin (fun _ => .inl rfl) (fun x hx => ?_) (fun x hx => ?_)
      (fun x hx hxc => ?_)
    · -- some task is current, so none is at the end of `exit`
      obtain rfl : x = r.cpu := hgo.ended hx
      rcases hgo.runsCurrent with ⟨_, hl⟩ | ⟨hn, _⟩
      · exact hl hx
      · cases hn.symm.trans hout
    · rcases Multiset.mem_cons.mp hx with rfl | hx
      · exact .inr (h.cpu_of_current hout).symm
      · exact .inl (hq ▸ Multiset.mem_cons_of_mem hx)
    · have hxi : x ≠ incoming := fun hxi => hx (hxi ▸ hin)
      have hxo : x ≠ out := fun hxo => hxc (hxo.trans (h.cpu_of_current hout).symm)
      exact (update_of_ne hxi ..).trans (update_of_ne hxo ..)
  | @take incoming rest hout hq =>
    have hin : incoming ∈ r.queued := hq ▸ Multiset.mem_cons_self ..
    refine h.dispatch hin (fun x => ?_) (fun x hx => ?_)
      (fun x hx => .inl (hq ▸ Multiset.mem_cons_of_mem hx))
      (fun x hx _ => update_of_ne (fun (hxi : x = incoming) => hx (hxi ▸ hin)) ..)
    · by_cases hx : x = r.cpu
      · exact .inr ⟨hx, hx ▸ update_self ..⟩
      · exact .inl (update_of_ne hx ..)
    · by_cases hxc : x = r.cpu
      · rw [hxc, update_self] at hx
        cases hx
      · rw [update_of_ne hxc] at hx
        exact hxc (h.ended hx)
  | @exit code p _ hlisted hrun hp =>
    refine (h.setState .zombie _).advance (.inl ⟨?_, by rw [hp.1]; decide⟩)
      fun hs => absurd (hp.2.symm.trans hs) (by simp)
    exact h.current_of_live (by rw [hrun]; rfl)
  | leave _ hrun =>
    exact h.advance (.inl ⟨h.current_of_live (by rw [hrun]; rfl), by decide⟩)
      fun hs => absurd hs (by simp [Pc.spawns])
  | remove => exact h.advance (.inr ⟨rfl, rfl⟩) fun hs => absurd hs (by simp [Pc.spawns])
  | create hrun => exact h.create hrun
  | push hpc => exact h.push hpc
  | reap hpc => exact h.unlist.goto (by show Pc.Like .run (r.pc r.cpu); rw [hpc]; exact ⟨rfl, rfl⟩)
  | miss hpc => exact h.goto (by rw [hpc]; exact ⟨rfl, rfl⟩)

/-! ## A task that has exited -/

/-- The task is gone for good. -/
structure Exited (r : Roster) (t : Nat) : Prop where
  zombie : r.state t = .zombie
  notQueued : t ∉ r.queued
  notLive : (r.pc t).phase ≠ .live
  created : t < r.created

/-- A task that has exited stays so. -/
theorem Exited.frame (h : Exited r t) (hstate : r'.state t = r.state t)
    (hqueued : t ∈ r'.queued → t ∈ r.queued)
    (hphase : (r'.pc t).phase = .live → (r.pc t).phase = .live)
    (hcreated : r.created ≤ r'.created) : Exited r' t :=
  ⟨hstate.trans h.zombie, fun hq => h.notQueued (hqueued hq), fun hp => h.notLive (hphase hp),
    Nat.lt_of_lt_of_le h.created hcreated⟩

theorem Exited.goto (h : Exited r t) (hp : p.phase = .live → (r.pc r.cpu).phase = .live) :
    Exited (r.goto p) t :=
  h.frame rfl id (goto_live hp) le_rfl

theorem Exited.ne_cpu (h : Exited r t) (hlive : (r.pc r.cpu).phase = .live) : t ≠ r.cpu :=
  fun htc => h.notLive (htc ▸ hlive)

theorem Exited.unblockAll (h : Exited r t) : Exited (r.unblockAll ts).1 t := by
  refine unblockAll_rule (P := fun r => Exited r t) (fun r x _ h _ hb => ?_) h
  have hne : t ≠ x := by
    rintro rfl
    cases hb.symm.trans h.zombie
  exact h.frame (update_of_ne hne ..) (fun hq => (Multiset.mem_cons.mp hq).resolve_left hne)
    id le_rfl

/-- **An exited task stays out**, if no switch is made while it is current. -/
theorem Exited.move
    (h : Exited r t) (hok : r.Ok) (hswitches : c.switches → r.current = some t → r.queued = 0)
    (hm : Move c r es r') :
    Exited r' t ∧ .enqueued t ∉ es ∧ .dispatched t ∉ es := by
  cases hm with
  | wake hp =>
    refine ⟨h.unblockAll.goto fun hl => ?_, fun he => ?_, fun he => ?_⟩
    · rw [unblockAll_frame.1, unblockAll_frame.2.1]
      exact hp.1.symm.trans hl
    · obtain ⟨x, he | ⟨he, hb⟩⟩ := unblockAll_events he
      · cases he
      · rw [← Event.enqueued.inj he] at hb
        cases hb.symm.trans h.zombie
    · obtain ⟨x, he | ⟨he, _⟩⟩ := unblockAll_events he <;> cases he
  | block _ hlive hp =>
    have hne := h.ne_cpu hlive
    refine ⟨Exited.goto (h.frame (update_of_ne hne ..) id id le_rfl) fun _ => hlive, ?_⟩
    simp
  | @swap out incoming rest p hswitch hout hq hp =>
    have hin : incoming ∈ r.queued := hq ▸ Multiset.mem_cons_self ..
    have hto : t ≠ out := by
      rintro rfl
      rw [hswitches hswitch hout] at hin
      exact absurd hin (Multiset.notMem_zero _)
    have hti : t ≠ incoming := fun hti => h.notQueued (hti ▸ hin)
    refine ⟨h.frame ?_ (fun hx => ?_) (goto_live fun hl => hp.1.symm.trans hl) le_rfl, ?_⟩
    · exact (update_of_ne hti ..).trans (update_of_ne hto ..)
    · exact hq ▸ Multiset.mem_cons_of_mem ((Multiset.mem_cons.mp hx).resolve_left hto)
    · simp [hto, hti]
  | @take incoming rest hout hq =>
    have hin : incoming ∈ r.queued := hq ▸ Multiset.mem_cons_self ..
    have hti : t ≠ incoming := fun hti => h.notQueued (hti ▸ hin)
    refine ⟨h.frame (update_of_ne hti ..) (fun hx => hq ▸ Multiset.mem_cons_of_mem hx)
      (goto_live (p := .lost) nofun) le_rfl, ?_⟩
    simp [hti]
  | exit _ _ hrun hp =>
    have hne : t ≠ r.cpu := h.ne_cpu (by rw [hrun]; rfl)
    refine ⟨Exited.goto (h.frame (update_of_ne hne ..) id id le_rfl) fun hl => ?_, by simp⟩
    cases hp.1.symm.trans hl
  | leave => exact ⟨h.goto nofun, by simp⟩
  | remove =>
    exact ⟨Exited.goto (h.frame rfl id id le_rfl) nofun, by simp⟩
  | create hrun =>
    have hne : t ≠ r.cpu := h.ne_cpu (by rw [hrun]; rfl)
    refine ⟨h.frame (update_of_ne (Nat.ne_of_lt h.created) ..) id ?_ (Nat.le_succ _),
      by simp⟩
    show (update (update r.pc r.created .run) r.cpu _ t).phase = .live → _
    rw [update_of_ne hne, update_of_ne (Nat.ne_of_lt h.created)]
    exact id
  | @push x hpc =>
    have hne : t ≠ x := by
      rintro rfl
      have hspawn := hok.spawn (p := r.cpu) (t := t) (by rw [hpc]; rfl)
      cases hspawn.2.1.symm.trans h.zombie
    refine ⟨Exited.goto (h.frame rfl (fun hq => (Multiset.mem_cons.mp hq).resolve_left hne) id le_rfl)
      fun _ => ?_, by simp [hne]⟩
    exact congrArg Pc.phase hpc
  | reap hpc =>
    refine ⟨Exited.goto (h.frame rfl id id le_rfl) fun _ => ?_, by simp⟩
    exact congrArg Pc.phase hpc
  | miss hpc => exact ⟨h.goto fun _ => congrArg Pc.phase hpc, by simp⟩

end Roster

namespace Kernel

theorem boot_ok : boot.roster.Ok where
  runsCurrent := .inl ⟨rfl, by decide⟩
  ended := fun h => absurd (show Phase.live = .ended from h) (by decide)
  uncreated := fun _ => rfl
  cpuCreated := by decide
  queuedCreated := by
    intro t ht
    obtain rfl : t = 2 := Multiset.mem_singleton.mp ht
    decide
  listedCreated := by
    intro t ht
    have ht : (t == 1 || t == 2) = true := ht
    simp only [Bool.or_eq_true, beq_iff_eq] at ht
    show t < 3
    omega
  spawn := fun h => absurd h (by simp [boot, roster, Pc.spawns])
  spawnOnce := fun h => absurd h (by simp [boot, roster, Pc.spawns])

/-- **Every run keeps `Ok`.** -/
theorem run_ok {ops : List Op} {k : Kernel} {tr : List Event}
    (h : exec (traced step) (boot, []) ops = some (k, tr)) : k.roster.Ok := by
  refine exec_induction (I := fun s : Kernel × List Event => s.1.roster.Ok)
    (fun s op s' hI _ hs => ?_) boot_ok along_true h
  obtain ⟨es, hstep, _⟩ := traced_inv hs
  exact hI.move (step_move hstep)

end Kernel

end AlaphiOS.Sched
