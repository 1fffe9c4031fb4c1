import AlaphiOS.Sched.RosterInv
import Mathlib.Data.Multiset.AddSub
import Mathlib.Data.Multiset.Count

/-!
# One place for each task

`OnePlace` is what a scheduler state should look like: a task is at most once in
the eight queues and `current` together, a Ready one is in exactly one queue, and
the Running one is current. A task that `spawn` has put into the table but not
yet pushed has no place so far.

Two steps break it at once. `unblock_tid` on a task that is Blocked and still
current queues a current task (`wait_wakes_itself`), and `remove_current` on a
task that was switched away in `exit` and has been marked Running again leaves a
Running task nowhere (`exit_runs_again`). In the runs without them `Placed` is
kept.
-/

namespace AlaphiOS.Sched

open Lib Function Option

namespace Kernel

/-- Each task is scheduled from exactly one place. -/
structure OnePlace (k : Kernel) : Prop where
  once : ∀ t, k.sched.queued.count t + (if k.sched.current = some t then 1 else 0) ≤ 1
  ready : ∀ t, k.inTable t = true → (k.tasks t).state = .ready →
    (∀ p, (k.pc p).spawns ≠ some t) → k.sched.queued.count t = 1 ∧ k.sched.current ≠ some t
  running : ∀ t, (k.tasks t).state = .running →
    k.sched.current = some t ∧ k.sched.queued.count t = 0

/-- The step calls `unblock_tid` on no task that is current and Blocked, and
`remove_current` only on a Zombie. -/
def KeepsPlaces (k : Kernel) (op : Op) : Prop :=
  (∀ t ∈ k.wakes op, k.sched.current = some t → (k.tasks t).state ≠ .blocked) ∧
  (k.removes op = true → (k.tasks k.cpu).state = .zombie)

instance (k : Kernel) (op : Op) : Decidable (k.KeepsPlaces op) :=
  inferInstanceAs (Decidable (_ ∧ _))

end Kernel

theorem Pc.spawns_of_not_live {p : Pc} (h : p.phase ≠ .live) : p.spawns = none := by
  induction p with
  | spawnPush t => exact absurd rfl h
  | wake t next ih => exact ih h
  | schedule next ih => exact ih h
  | prepare next ih => exact ih h
  | _ => rfl

namespace Roster

variable {r r' : Roster} {t : Nat} {es : List Event} {p : Pc}

/-- Every task has its place. -/
structure Placed (r : Roster) : Prop where
  nodup : r.queued.Nodup
  queued : ∀ {t}, t ∈ r.queued → r.state t = .ready
  ready : ∀ {t}, r.listed t = true → r.state t = .ready →
    t ∈ r.queued ∨ ∃ p, (r.pc p).spawns = some t
  running : ∀ {t}, r.state t = .running → r.current = some t
  blocked : ∀ {t}, r.state t = .blocked → r.current = some t
  current : ∀ {t}, r.current = some t → r.state t ≠ .ready
  zombie : ∀ {t}, r.state t = .zombie → (r.pc t).phase ≠ .live

theorem Placed.current_not_queued (h : Placed r) (hc : r.current = some t) : t ∉ r.queued :=
  fun hq => h.current hc (h.queued hq)

/-! ## The moves -/

theorem unblockAll_of_not_blocked {ts : List Nat} (h : ∀ t ∈ ts, r.state t ≠ .blocked) :
    (r.unblockAll ts).1 = r := by
  induction ts with
  | nil => rfl
  | cons t ts ih =>
    have hhead : (r.unblock t).1 = r := by
      unfold unblock
      rw [if_neg fun hb => h t List.mem_cons_self hb.2]
    show ((r.unblock t).1.unblockAll ts).1 = r
    rw [hhead]
    exact ih fun x hx => h x (List.mem_cons_of_mem _ hx)

/-- The running task moves on; what it spawns it goes on spawning. -/
theorem Placed.goto (h : Placed r) (hlive : p.phase = .live → (r.pc r.cpu).phase = .live)
    (hspawns : ∀ {t}, (r.pc r.cpu).spawns = some t → p.spawns = some t) : Placed (r.goto p) :=
  { h with
    ready := by
      intro t hl hr
      rcases h.ready hl hr with hq | ⟨q, hq⟩
      · exact .inl hq
      · refine .inr ⟨q, ?_⟩
        by_cases hqc : q = r.cpu
        · rw [hqc, goto_pc_cpu]
          exact hspawns (hqc ▸ hq)
        · rwa [goto_pc_of_ne hqc]
    zombie := fun hz hl => h.zombie hz (goto_live hlive hl) }


theorem Placed.goto_like (h : Placed r) (hp : p.Like (r.pc r.cpu)) : Placed (r.goto p) :=
  h.goto (fun hl => hp.1.symm.trans hl) fun hs => hp.2.trans hs

/-- Who has a state after one was set. -/
theorem update_inv {state : Nat → TaskState} {t x : Nat} {s s' : TaskState}
    (h : update state t s x = s') : (x ≠ t ∧ state x = s') ∨ (x = t ∧ s = s') := by
  by_cases hx : x = t
  · rw [hx, update_self] at h
    exact .inr ⟨hx, h⟩
  · rw [update_of_ne hx] at h
    exact .inl ⟨hx, h⟩

section

variable (h : Placed r)

include h

/-- The current task changes its own state. -/
theorem Placed.setState (hc : r.current = some t) {state : TaskState}
    (code : Nat → Option Int) (hready : state ≠ .ready)
    (hzombie : state = .zombie → (r.pc t).phase ≠ .live) :
    Placed { r with state := update r.state t state, code := code } := by
  refine ⟨h.nodup, fun {x} hx => ?_, fun {x} hl hx => ?_, fun {x} hx => ?_, fun {x} hx => ?_,
    fun {x} hx => ?_, fun {x} hx => ?_⟩
  · have hne : x ≠ t := fun hxt => h.current_not_queued hc (hxt ▸ hx)
    exact (update_of_ne hne ..).trans (h.queued hx)
  · rcases update_inv hx with ⟨_, hs⟩ | ⟨_, hs⟩
    · exact h.ready hl hs
    · exact absurd hs hready
  · rcases update_inv hx with ⟨_, hs⟩ | ⟨rfl, _⟩
    · exact h.running hs
    · exact hc
  · rcases update_inv hx with ⟨_, hs⟩ | ⟨rfl, _⟩
    · exact h.blocked hs
    · exact hc
  · obtain rfl : x = t := some.inj (hx.symm.trans hc)
    show update r.state x state x ≠ .ready
    rwa [update_self]
  · rcases update_inv hx with ⟨_, hs⟩ | ⟨rfl, hs⟩
    · exact h.zombie hs
    · exact hzombie hs

/-- The first half of a switch: the current task goes to a queue. -/
theorem Placed.retire {out : Nat} (hout : r.current = some out) :
    Placed { r with
      state := update r.state out .ready, queued := out ::ₘ r.queued, current := none } := by
  -- whoever had to be current is Ready now
  have hother : ∀ {x}, x ≠ out → r.current ≠ some x :=
    fun hne hx => hne (some.inj (hx.symm.trans hout))
  refine ⟨Multiset.nodup_cons.mpr ⟨h.current_not_queued hout, h.nodup⟩, fun {x} hx => ?_,
    fun {x} hl hx => ?_, fun {x} hx => ?_, fun {x} hx => ?_, nofun,
    fun {x} hx => ?_⟩
  · by_cases hxo : x = out
    · exact hxo ▸ update_self ..
    · exact (update_of_ne hxo ..).trans (h.queued ((Multiset.mem_cons.mp hx).resolve_left hxo))
  · rcases update_inv hx with ⟨_, hs⟩ | ⟨rfl, _⟩
    · exact (h.ready hl hs).imp_left Multiset.mem_cons_of_mem
    · exact .inl (Multiset.mem_cons_self ..)
  · rcases update_inv hx with ⟨hne, hs⟩ | ⟨_, hs⟩
    · exact absurd (h.running hs) (hother hne)
    · cases hs
  · rcases update_inv hx with ⟨hne, hs⟩ | ⟨_, hs⟩
    · exact absurd (h.blocked hs) (hother hne)
    · cases hs
  · rcases update_inv hx with ⟨_, hs⟩ | ⟨_, hs⟩
    · exact h.zombie hs
    · cases hs

/-- The second half: a queued task becomes current. -/
theorem Placed.take {incoming : Nat} {rest : Multiset Nat} (hnone : r.current = none)
    (hq : r.queued = incoming ::ₘ rest) :
    Placed { r with
      state := update r.state incoming .running, queued := rest, current := some incoming,
      cpu := incoming } := by
  obtain ⟨hinc, hrest⟩ := Multiset.nodup_cons.mp (hq ▸ h.nodup)
  have hnobody : ∀ {x}, r.current ≠ some x := by
    intro x
    rw [hnone]
    simp
  -- Only the incoming task changes its place; nobody was current.
  refine ⟨hrest, fun {x} hx => ?_, fun {x} hl hx => ?_, fun {x} hx => ?_, fun {x} hx => ?_,
    fun {x} hx => ?_, fun {x} hx => ?_⟩
  · have hne : x ≠ incoming := fun hxi => hinc (hxi ▸ hx)
    exact (update_of_ne hne ..).trans (h.queued (hq ▸ Multiset.mem_cons_of_mem hx))
  · rcases update_inv hx with ⟨hne, hs⟩ | ⟨_, hs⟩
    · exact (h.ready hl hs).imp_left fun hmem => (Multiset.mem_cons.mp (hq ▸ hmem)).resolve_left hne
    · cases hs
  · rcases update_inv hx with ⟨_, hs⟩ | ⟨rfl, _⟩
    · exact absurd (h.running hs) hnobody
    · rfl
  · rcases update_inv hx with ⟨_, hs⟩ | ⟨_, hs⟩
    · exact absurd (h.blocked hs) hnobody
    · cases hs
  · obtain rfl : incoming = x := some.inj hx
    show update r.state incoming .running incoming ≠ .ready
    rw [update_self]
    decide
  · rcases update_inv hx with ⟨_, hs⟩ | ⟨_, hs⟩
    · exact h.zombie hs
    · cases hs

/-- The current task, a Zombie, stops being current. -/
theorem Placed.remove (hc : r.current = some t) (hz : r.state t = .zombie) :
    Placed { r with current := none } := by
  have hnot : ∀ {x s}, s ≠ .zombie → r.state x = s → r.current ≠ some x := by
    intro x s hs hx hcx
    obtain rfl : x = t := some.inj (hcx.symm.trans hc)
    exact hs (hx.symm.trans hz)
  exact { h with
    running := fun hx => absurd (h.running hx) (hnot (by decide) hx)
    blocked := fun hx => absurd (h.blocked hx) (hnot (by decide) hx)
    current := nofun }

theorem Placed.create (hok : r.Ok) (hrun : r.pc r.cpu = .run) :
    Placed r.create := by
  have hcpu : r.cpu ≠ r.created := Nat.ne_of_lt hok.cpuCreated
  unfold Roster.create
  generalize hpc : update (update r.pc r.created .run) r.cpu
    (.spawnPush r.created) = pc
  have hspawn : pc r.cpu = .spawnPush r.created := by rw [← hpc, update_self]
  -- nobody's phase changes, and no other `spawn` ends
  have hsame : ∀ {q}, q ≠ r.cpu → pc q = r.pc q := by
    intro q hq
    rw [← hpc, update_of_ne hq]
    by_cases hqn : q = r.created
    · rw [hqn, update_self, hok.uncreated le_rfl]
    · exact update_of_ne hqn ..
  have hphase : ∀ {q}, (pc q).phase = .live → (r.pc q).phase = .live := by
    intro q hq
    by_cases hqc : q = r.cpu
    · rw [hqc, hrun]
      rfl
    · rwa [hsame hqc] at hq
  refine ⟨h.nodup, fun {x} hx => ?_, fun {x} hl hx => ?_, fun {x} hx => ?_, fun {x} hx => ?_,
    fun {x} hx => ?_, fun {x} hx hl => ?_⟩
  · exact (update_of_ne (Nat.ne_of_lt (hok.queuedCreated hx)) ..).trans (h.queued hx)
  · rcases update_inv hx with ⟨hne, hs⟩ | ⟨rfl, _⟩
    · refine (h.ready ((update_of_ne hne ..).symm.trans hl) hs).imp_right fun ⟨q, hq⟩ => ?_
      refine ⟨q, (congrArg Pc.spawns (hsame ?_)).trans hq⟩
      rintro rfl
      rw [hrun] at hq
      exact absurd hq (by simp [Pc.spawns])
    · exact .inr ⟨r.cpu, congrArg Pc.spawns hspawn⟩
  · rcases update_inv hx with ⟨_, hs⟩ | ⟨_, hs⟩
    · exact h.running hs
    · cases hs
  · rcases update_inv hx with ⟨_, hs⟩ | ⟨_, hs⟩
    · exact h.blocked hs
    · cases hs
  · show update r.state r.created .ready x ≠ .ready
    rw [← hok.cpu_of_current hx, update_of_ne hcpu]
    exact h.current (hok.cpu_of_current hx ▸ hx)
  · rcases update_inv hx with ⟨_, hs⟩ | ⟨_, hs⟩
    · exact h.zombie hs (hphase hl)
    · cases hs

theorem Placed.push (hok : r.Ok) (hpc : r.pc r.cpu = .spawnPush t) :
    Placed ({ r with queued := t ::ₘ r.queued }.goto .run) := by
  have hspawn : (r.pc r.cpu).spawns = some t := by rw [hpc]; rfl
  obtain ⟨_, hready, hq, _⟩ := hok.spawn hspawn
  have hlive : (r.pc r.cpu).phase = .live := by rw [hpc]; rfl
  refine { h with
    nodup := Multiset.nodup_cons.mpr ⟨hq, h.nodup⟩
    queued := fun {x} hx => ?_
    ready := fun {x} hl hx => ?_
    zombie := fun {x} hz hl => h.zombie hz (goto_live (r := r) (p := .run) (fun _ => hlive) hl) }
  · rcases Multiset.mem_cons.mp hx with rfl | hx
    · exact hready
    · exact h.queued hx
  · rcases h.ready hl hx with hmem | ⟨q, hqs⟩
    · exact .inl (Multiset.mem_cons_of_mem hmem)
    · by_cases hqc : q = r.cpu
      · rw [hqc, hspawn] at hqs
        exact .inl (some.inj hqs ▸ Multiset.mem_cons_self ..)
      · exact .inr ⟨q, (congrArg Pc.spawns (goto_pc_of_ne (r := r) hqc)).trans hqs⟩

theorem Placed.reap (hz : r.state t = .zombie) :
    Placed { r with listed := update r.listed t false } := by
  refine { h with ready := fun {x} hl hx => ?_ }
  have hxt : x ≠ t := by
    rintro rfl
    cases hx.symm.trans hz
  exact h.ready ((update_of_ne hxt ..).symm.trans hl) hx

/-- **Every move that meets the condition keeps the places.** -/
theorem Placed.move {c : Entries} (hok : r.Ok)
    (hwakes : ∀ t ∈ c.wakes, r.current = some t → r.state t ≠ .blocked)
    (hremoves : c.removes → r.state r.cpu = .zombie) (hm : Move c r es r') : Placed r' := by
  cases hm with
  | wake hp =>
    -- a Blocked task is current, so nobody wakes up
    rw [unblockAll_of_not_blocked fun t ht hb => hwakes t ht (h.blocked hb) hb]
    exact h.goto_like hp
  | block _ hlive hp =>
    refine Placed.goto_like (h.setState (hok.current_of_live hlive) r.code (by decide) ?_) hp
    exact fun hz => absurd hz (by decide)
  | @swap out incoming rest p _ hout hq hp =>
    refine ((h.goto_like hp).retire hout).take rfl ?_
    show out ::ₘ r.queued = incoming ::ₘ out ::ₘ rest
    rw [hq, Multiset.cons_swap]
  | take hout hq =>
    refine (h.goto (p := .lost) (fun hl => absurd hl (by decide)) fun hs => ?_).take hout hq
    rcases hok.runsCurrent with ⟨hc, _⟩ | ⟨_, hended⟩
    · cases hout.symm.trans hc
    · rw [Pc.spawns_of_not_live (by rw [hended]; decide)] at hs
      cases hs
  | @exit code p _ _ hrun hp =>
    have hlive : (r.pc r.cpu).phase = .live := by rw [hrun]; rfl
    have hgo : Placed (r.goto p) := by
      refine h.goto (fun _ => hlive) fun hs => ?_
      rw [hrun] at hs
      exact absurd hs (by simp [Pc.spawns])
    refine hgo.setState (hok.current_of_live hlive) _ (by decide) fun _ => ?_
    rw [goto_pc_cpu, hp.1]
    decide
  | leave _ hrun =>
    refine h.goto (fun hl => absurd hl (by decide)) fun hs => ?_
    exact absurd ((congrArg Pc.spawns hrun).symm.trans hs) (by simp [Pc.spawns])
  | remove hremove hpc =>
    have hc : r.current = some r.cpu := by
      rcases hok.runsCurrent with ⟨hc, _⟩ | ⟨_, hended⟩
      · exact hc
      · exact absurd ((congrArg Pc.phase hpc).symm.trans hended) (by decide)
    refine (h.remove hc (hremoves hremove)).goto (fun hl => absurd hl (by decide)) fun hs => ?_
    exact absurd ((congrArg Pc.spawns hpc).symm.trans hs) (by simp [Pc.spawns])
  | create hrun => exact h.create hok hrun
  | push hpc => exact h.push hok hpc
  | reap hpc _ hz =>
    refine (h.reap hz).goto_like ?_
    show Pc.Like .run (r.pc r.cpu)
    rw [hpc]
    exact ⟨rfl, rfl⟩
  | miss hpc => exact h.goto_like (by rw [hpc]; exact ⟨rfl, rfl⟩)

end

end Roster

namespace Kernel

theorem onePlace_of_placed {k : Kernel} (h : k.roster.Placed) : k.OnePlace where
  once := by
    intro t
    have hcount : k.sched.queued.count t ≤ 1 := Multiset.nodup_iff_count_le_one.mp h.nodup t
    split
    next hc =>
      have hnot : t ∉ k.sched.queued := h.current_not_queued hc
      rw [Multiset.count_eq_zero_of_notMem hnot]
    · omega
  ready := by
    intro t hin hr hspawn
    have hmem : t ∈ k.sched.queued := (h.ready hin hr).resolve_right fun ⟨p, hp⟩ => hspawn p hp
    exact ⟨Multiset.count_eq_one_of_mem h.nodup hmem, fun hc => h.current hc hr⟩
  running := fun _ hrun =>
    ⟨h.running hrun, Multiset.count_eq_zero_of_notMem (h.current_not_queued (h.running hrun))⟩

theorem boot_placed : boot.roster.Placed := by
  have hstate : ∀ t, boot.roster.state t = if t = 1 then .running else .ready := fun _ => rfl
  have hlisted : ∀ t, boot.roster.listed t = (t == 1 || t == 2) := fun _ => rfl
  have hqueued : boot.roster.queued = {2} := rfl
  refine ⟨?_, fun {t} ht => ?_, fun {t} hl hr => ?_, fun {t} ht => ?_, fun {t} ht => ?_,
    fun {t} hc => ?_, fun {t} ht => ?_⟩
  · rw [hqueued]
    exact Multiset.nodup_singleton 2
  · rw [hqueued, Multiset.mem_singleton] at ht
    rw [ht]
    rfl
  · rw [hlisted, Bool.or_eq_true, beq_iff_eq, beq_iff_eq] at hl
    rcases hl with rfl | rfl
    · cases hr
    · exact .inl (Multiset.mem_singleton_self 2)
  · rw [hstate] at ht
    split at ht
    next h1 => exact h1 ▸ rfl
    · cases ht
  · rw [hstate] at ht
    split at ht <;> cases ht
  · obtain rfl : 1 = t := some.inj hc
    decide
  · rw [hstate] at ht
    split at ht <;> cases ht

/-- **Each task is scheduled from exactly one place**, in every state that a run
from `boot` reaches by steps that meet the condition. -/
theorem one_place {ops : List Op} {k : Kernel} {tr : List Event}
    (halong : Along (traced step) (fun s op => s.1.KeepsPlaces op) (boot, []) ops)
    (hrun : exec (traced step) (boot, []) ops = some (k, tr)) : k.OnePlace := by
  have hend := exec_induction
    (I := fun s : Kernel × List Event => s.1.roster.Ok ∧ s.1.roster.Placed)
    (fun s op s' hI hcond hs => ?_) ⟨boot_ok, boot_placed⟩ halong hrun
  · exact onePlace_of_placed hend.2
  · obtain ⟨es, hstep, _⟩ := traced_inv hs
    have hm := step_move hstep
    exact ⟨hI.1.move hm, hI.2.move hI.1 hcond.1 hcond.2 hm⟩

/-- A child that is spawned, runs, exits and is waited for. -/
def childExits : List Op :=
  [.call (.spawn 0 (some 1)), .next 0, .timer 0, .call (.exit 7), .next 0, .next 0, .next 0, .next 0,
    .next 0, .call (.wait (.pid 3)), .next 0]

/-- A child is spawned and exits. -/
theorem one_place_child : Along (traced step) (fun s op => s.1.KeepsPlaces op) (boot, []) childExits ∧
    ∃ k tr, exec (traced step) (boot, []) childExits = some (k, tr) ∧ k.OnePlace := by
  have halong : Along (traced step) (fun s op => s.1.KeepsPlaces op) (boot, []) childExits := by
    decide +kernel
  obtain ⟨⟨k, tr⟩, hrun⟩ : ∃ s, exec (traced step) (boot, []) childExits = some s :=
    isSome_iff_exists.mp (by decide +kernel)
  exact ⟨halong, k, tr, hrun, one_place halong hrun⟩

/-- Task 3 finds the lock taken twice before it gets it, and leaves its tid once
too often in `waiters`. -/
def staleWaiter : List Op :=
  [.call (.spawn 0 none), .next 0, .call (.tryLock 0), .timer 0] ++
  [.call (.lock 0), .next 0, .next 0, .next 0] ++ List.replicate 4 (.timer 0) ++
  [.next 0, .next 0, .next 0, .call (.unlock 0), .next 0] ++ List.replicate 9 (.timer 0) ++ [.next 0]

/-- Then `QueuedResource::wait` marks it Blocked and its `unlock` wakes it: it is
Ready, queued and current. -/
theorem wait_wakes_itself :
    ∃ k tr, exec (traced step) (boot, [])
      (staleWaiter ++ [.call (.condWait 0), .next 0, .next 0, .next 0]) = some (k, tr) ∧
        ¬ k.OnePlace := by
  have h : (exec (traced step) (boot, [])
      (staleWaiter ++ [.call (.condWait 0), .next 0, .next 0, .next 0])).map
        (fun s => (s.1.sched.current, s.1.sched.queued.count 3)) = some (some 3, 1) := by
    decide +kernel
  obtain ⟨⟨k, tr⟩, hrun, heq⟩ := map_inv h
  obtain ⟨hc, hq⟩ := Prod.mk.inj heq
  refine ⟨k, tr, hrun, fun hone => ?_⟩
  have honce := hone.once 3
  rw [hc, hq] at honce
  exact absurd honce (by decide)

/-- The boot task is preempted in `exit`, dispatched again, and calls
`remove_current`: it is Running and nowhere. -/
theorem exit_runs_again :
    ∃ k tr, exec (traced step) (boot, []) [.call (.spawn 0 none), .next 0, .call (.exit 7), .timer 0,
      .call (.exit 0), .next 0, .next 0, .next 0, .next 0] = some (k, tr) ∧ ¬ k.OnePlace := by
  have h : (exec (traced step) (boot, []) [.call (.spawn 0 none), .next 0, .call (.exit 7), .timer 0,
      .call (.exit 0), .next 0, .next 0, .next 0, .next 0]).map
        (fun s => (s.1.sched.current, (s.1.tasks 1).state)) = some (none, .running) := by
    decide +kernel
  obtain ⟨⟨k, tr⟩, hrun, heq⟩ := map_inv h
  obtain ⟨hc, hs⟩ := Prod.mk.inj heq
  exact ⟨k, tr, hrun, fun hone => absurd (hc.symm.trans (hone.running 1 hs).1) (by simp)⟩

end Kernel

end AlaphiOS.Sched
