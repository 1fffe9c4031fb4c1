import AlaphiOS.Sched.RosterInv

/-!
# A blocked task does not run

`StaysOut t` is about what a run reports: after `t` was marked Blocked, it is
neither put into a ready queue nor dispatched before `unblock_tid` was called on
it. `should_reschedule` asks for a switch when the current task is Blocked, and
`prepare_switch` then marks whatever is current Ready and queues it, so the
property fails as soon as a task blocks while another one is ready
(`wait_requeues_blocked`).

It holds in the runs in which that switch is not made: `Stopped` is where a task
that waits is then, and `Monitored` is carried along the moves.
-/

namespace AlaphiOS.Sched

open Lib Function

/-- Marked Blocked, and not unblocked since. -/
def Waiting (t : Nat) (tr : List Event) : Prop :=
  Armed (· = .blocked t) (· = .unblocked t) tr

/-- Whenever it is marked Blocked, `t` is not queued or dispatched before the
next `unblock_tid`. -/
def StaysOut (t : Nat) (tr : List Event) : Prop :=
  Until (· = .blocked t) (· = .unblocked t) (fun e => e = .enqueued t ∨ e = .dispatched t) tr

/-- The step does not switch away from a Blocked or Zombie task, and a task that
calls `exit` is in no queue. -/
def Kernel.KeepsBlocked (k : Kernel) (op : Op) : Prop :=
  (k.switches op = true → ∀ t, k.sched.current = some t →
    (k.tasks t).state = .blocked ∨ (k.tasks t).state = .zombie → k.sched.queued = 0) ∧
  (Kernel.exits op = true → k.cpu ∉ k.sched.queued)

instance (k : Kernel) (op : Kernel.Op) : Decidable (k.KeepsBlocked op) :=
  inferInstanceAs (Decidable (_ ∧ _))

namespace Roster

variable {r r' : Roster} {t : Nat} {tr es : List Event} {p : Pc}

/-- Blocked and still current: it runs on, on the way to `schedule` or back. -/
structure Held (r : Roster) (t : Nat) : Prop where
  blocked : r.state t = .blocked
  current : r.current = some t
  listed : r.listed t = true
  live : (r.pc t).phase = .live

/-- Where a waiting task is. -/
def Stopped (r : Roster) (t : Nat) : Prop := Held r t ∨ Exited r t

/-- The trace agrees with the tasks. -/
structure Monitored (r : Roster) (tr : List Event) : Prop where
  ok : r.Ok
  stopped : ∀ t, Waiting t tr → Stopped r t
  out : ∀ t, StaysOut t tr

/-! ## Moves that mark nobody Blocked -/

theorem Held.frame (h : Held r t) (hstate : r'.state t = r.state t)
    (hcurrent : r'.current = r.current) (hlisted : r'.listed t = r.listed t)
    (hphase : (r'.pc t).phase = (r.pc t).phase) : Held r' t :=
  ⟨hstate.trans h.blocked, hcurrent.trans h.current, hlisted.trans h.listed, hphase.trans h.live⟩

theorem Stopped.goto (h : Stopped r t) (hp : p.Like (r.pc r.cpu)) : Stopped (r.goto p) t := by
  rcases h with hh | he
  · exact .inl (hh.frame rfl rfl rfl (goto_phase hp.1 t))
  · exact .inr (he.goto fun hl => hp.1.symm.trans hl)

/-- The monitor's step for a move that keeps every waiting task stopped. -/
theorem Monitored.step (h : Monitored r tr) (hok : r'.Ok)
    (harm : ∀ e ∈ es, ∀ t, e ≠ .blocked t)
    (hbad : ∀ t, Stopped r t → .enqueued t ∉ es ∧ .dispatched t ∉ es)
    (hstop : ∀ t, Stopped r t → Stopped r' t) : Monitored r' (tr ++ es) where
  ok := hok
  stopped := fun t ht => hstop t (h.stopped t (armed_append (fun e he => harm e he t) ht))
  out := by
    intro t
    refine until_append (h.out t) (fun e he => harm e he t) fun e he hb ht => ?_
    obtain ⟨h₁, h₂⟩ := hbad t (h.stopped t ht)
    rcases hb with rfl | rfl
    · exact h₁ he
    · exact h₂ he

/-! ## The moves -/

theorem Monitored.unblocked (h : Monitored r tr) (hok : r'.Ok)
    (hstop : ∀ x, x ≠ t → Stopped r x → Stopped r' x) :
    Monitored r' (tr ++ [.unblocked t]) where
  ok := hok
  stopped := by
    intro x hx
    rcases armed_snoc.mp hx with he | ⟨hw, hne⟩
    · cases he
    · exact hstop x (fun hxt => hne (hxt ▸ rfl)) (h.stopped x hw)
  out := fun x => until_snoc (h.out x) nofun

/-- The call of `unblock_tid` comes before the task is queued. -/
theorem Monitored.unblock (h : Monitored r tr) (t : Nat) :
    Monitored (r.unblock t).1 (tr ++ (r.unblock t).2) := by
  unfold Roster.unblock
  split
  next hb =>
    show Monitored _ (tr ++ ([.unblocked t] ++ [.enqueued t]))
    rw [← List.append_assoc]
    refine (h.unblocked (h.ok.unblock hb.1 hb.2) fun x hx hs => ?_).step
      (h.ok.unblock hb.1 hb.2) (by simp) (fun x hs => ?_) fun _ hs => hs
    · rcases hs with hh | he
      · exact .inl (hh.frame (update_of_ne hx ..) rfl rfl rfl)
      · exact .inr (he.frame (update_of_ne hx ..)
          (fun hq => (Multiset.mem_cons.mp hq).resolve_left hx) id le_rfl)
    · -- the one that is queued is Ready now
      have hne : x ≠ t := by
        rintro rfl
        have hready : update r.state x .ready x = .ready := update_self ..
        rcases hs with hh | he
        · cases hready.symm.trans hh.blocked
        · cases hready.symm.trans he.zombie
      simp [hne]
  · exact h.unblocked h.ok fun _ _ hs => hs

theorem Monitored.unblockAll {ts : List Nat} : ∀ {r : Roster} {tr : List Event},
    Monitored r tr → Monitored (r.unblockAll ts).1 (tr ++ (r.unblockAll ts).2) := by
  induction ts with
  | nil =>
    intro r tr h
    rwa [show (r.unblockAll []).2 = [] from rfl, List.append_nil]
  | cons t ts ih =>
    intro r tr h
    have hrest := ih (h.unblock t)
    rwa [List.append_assoc] at hrest

theorem Monitored.block (h : Monitored r tr) (hlisted : r.listed r.cpu = true)
    (hlive : (r.pc r.cpu).phase = .live) :
    Monitored { r with state := update r.state r.cpu .blocked } (tr ++ [.blocked r.cpu])
    where
  ok := h.ok.setState .blocked r.code
  stopped := by
    intro x hx
    by_cases hcpu : x = r.cpu
    · rw [hcpu]
      exact .inl ⟨update_self .., h.ok.current_of_live hlive, hlisted, hlive⟩
    · rcases armed_snoc.mp hx with he | ⟨hw, _⟩
      · exact absurd (Event.blocked.inj he).symm hcpu
      · rcases h.stopped x hw with hh | he
        · exact .inl (hh.frame (update_of_ne hcpu ..) rfl rfl rfl)
        · exact .inr (he.frame (update_of_ne hcpu ..) id id le_rfl)
  out := fun x => until_snoc (h.out x) nofun

theorem Held.eq_cpu (h : Held r t) (hok : r.Ok) : t = r.cpu := (hok.cpu_of_current h.current).symm

/-- **Every move that meets the condition keeps the monitor.** -/
theorem Monitored.move {c : Entries} (h : Monitored r tr)
    (hswitches : c.switches → ∀ t, r.current = some t →
      r.state t = .blocked ∨ r.state t = .zombie → r.queued = 0)
    (hexits : c.exits → r.cpu ∉ r.queued) (hm : Move c r es r') :
    Monitored r' (tr ++ es) := by
  have hok := h.ok.move hm
  -- for a move that marks nobody Blocked, only the held task is left to look at
  have hplain : (∀ e ∈ es, ∀ t, e ≠ .blocked t) →
      (∀ t, Held r t → Stopped r' t ∧ .enqueued t ∉ es ∧ .dispatched t ∉ es) →
        Monitored r' (tr ++ es) := by
    intro harm hheld
    have hall : ∀ t, Stopped r t → Stopped r' t ∧ .enqueued t ∉ es ∧ .dispatched t ∉ es := by
      rintro t (hh | he)
      · exact hheld t hh
      · obtain ⟨he', hes⟩ :=
          he.move h.ok (fun hs hc => hswitches hs t hc (.inr he.zombie)) hm
        exact ⟨.inr he', hes⟩
    exact h.step hok harm (fun t hs => (hall t hs).2) fun t hs => (hall t hs).1
  cases hm with
  | @wake p hp =>
    have hgo : Monitored (r.unblockAll c.wakes).1 _ := h.unblockAll
    have hlike : p.Like ((r.unblockAll c.wakes).1.pc (r.unblockAll c.wakes).1.cpu) := by
      rw [unblockAll_frame.1, unblockAll_frame.2.1]
      exact hp
    exact ⟨hok, fun t ht => (hgo.stopped t ht).goto hlike, hgo.out⟩
  | block hlisted hlive hp =>
    have hgo := h.block hlisted hlive
    exact ⟨hok, fun t ht => (hgo.stopped t ht).goto hp, hgo.out⟩
  | swap hswitch _ hq =>
    refine hplain (by simp) fun t ht => ?_
    have hempty := hswitches hswitch t ht.current (.inl ht.blocked)
    exact absurd (hq.symm.trans hempty) Multiset.cons_ne_zero
  | take hout => exact hplain (by simp) fun t ht => absurd (hout.symm.trans ht.current) (by simp)
  | @exit code p hexit _ _ hp =>
    refine hplain (by simp) fun t ht => ⟨.inr ?_, by simp⟩
    obtain rfl := ht.eq_cpu h.ok
    refine ⟨update_self .., hexits hexit, ?_, h.ok.cpuCreated⟩
    show ((r.goto p).pc r.cpu).phase ≠ .live
    rw [goto_pc_cpu, hp.1]
    decide
  | leave hlisted =>
    refine hplain (by simp) fun t ht => ?_
    obtain rfl := ht.eq_cpu h.ok
    cases hlisted.symm.trans ht.listed
  | remove _ hpc =>
    refine hplain (by simp) fun t ht => ?_
    obtain rfl := ht.eq_cpu h.ok
    exact absurd ((congrArg Pc.phase hpc).symm.trans ht.live) (by decide)
  | create hrun =>
    refine hplain (by simp) fun t ht => ⟨.inl ?_, by simp⟩
    obtain rfl := ht.eq_cpu h.ok
    have hne : r.cpu ≠ r.created := Nat.ne_of_lt h.ok.cpuCreated
    refine ⟨(update_of_ne hne ..).trans ht.blocked, ht.current,
      (update_of_ne hne ..).trans ht.listed, ?_⟩
    show (update (update r.pc r.created .run) r.cpu
      (Pc.spawnPush r.created) r.cpu).phase = .live
    rw [update_self]
    rfl
  | @push x hpc =>
    refine hplain (by simp) fun t ht => ?_
    have hne : t ≠ x := by
      rintro rfl
      have hspawn := h.ok.spawn (p := r.cpu) (t := t) (by rw [hpc]; rfl)
      cases hspawn.2.1.symm.trans ht.blocked
    refine ⟨.inl (ht.frame rfl rfl rfl (goto_phase (p := .run) (r := r) ?_ t)), by simp [hne]⟩
    rw [hpc]
    rfl
  | @reap x _ hpc _ hz =>
    refine hplain (by simp) fun t ht => ⟨.inl ?_, by simp⟩
    have hne : t ≠ x := by
      rintro rfl
      cases hz.symm.trans ht.blocked
    refine ht.frame rfl rfl (update_of_ne hne ..) (goto_phase (p := .run) (r := r) ?_ t)
    rw [hpc]
    rfl
  | miss hpc =>
    refine hplain (by simp) fun t ht => ⟨Stopped.goto (.inl ht) ?_, by simp⟩
    rw [hpc]
    exact ⟨rfl, rfl⟩

end Roster

namespace Kernel

/-- **A blocked task does not run**, in every run from `boot` that meets the
condition step by step. -/
theorem blocked_stays_out {ops : List Op} {k : Kernel} {tr : List Event}
    (halong : Along (traced step) (fun s op => s.1.KeepsBlocked op) (boot, []) ops)
    (hrun : exec (traced step) (boot, []) ops = some (k, tr)) (t : Nat) : StaysOut t tr := by
  have hI : Roster.Monitored boot.roster [] :=
    ⟨boot_ok, fun _ ht => absurd ht not_armed_nil, fun _ => until_nil⟩
  have hend := exec_induction (I := fun s : Kernel × List Event => s.1.roster.Monitored s.2)
    (fun s op s' hI hcond hs => ?_) hI halong hrun
  · exact hend.out t
  · obtain ⟨es, hstep, htr⟩ := traced_inv hs
    rw [htr]
    exact hI.move hcond.1 hcond.2 (step_move hstep)

/-- A task that waits, signals itself and is then preempted. -/
theorem blocked_stays_out_signal :
    (exec (traced step) (boot, [])
      [.call (.cvWait 0), .next 1, .next 0, .call (.cvSignal 0), .timer 0]).isSome = true ∧
    Along (traced step) (fun s op => s.1.KeepsBlocked op) (boot, [])
      [.call (.cvWait 0), .next 1, .next 0, .call (.cvSignal 0), .timer 0] ∧
    ∀ k tr, exec (traced step) (boot, [])
      [.call (.cvWait 0), .next 1, .next 0, .call (.cvSignal 0), .timer 0] = some (k, tr) →
        ∀ t, StaysOut t tr :=
  ⟨by decide +kernel, by decide +kernel, fun _ _ hrun => blocked_stays_out (by decide +kernel) hrun⟩

/-- The boot task spawns a child and waits for it: it is back in a queue at once. -/
theorem wait_requeues_blocked :
    ∃ k tr, exec (traced step) (boot, []) [.call (.spawn 0 (some 1)), .next 0,
      .call (.wait (.pid 3)), .next 0, .next 0, .next 0, .next 0] = some (k, tr) ∧
        ¬ StaysOut 1 tr := by
  have htr : (exec (traced step) (boot, []) [.call (.spawn 0 (some 1)), .next 0,
      .call (.wait (.pid 3)), .next 0, .next 0, .next 0, .next 0]).map Prod.snd
        = some [.enqueued 3, .blocked 1, .enqueued 1, .dispatched 3] := by decide +kernel
  obtain ⟨⟨k, tr⟩, hrun, rfl⟩ := map_inv htr
  refine ⟨k, _, hrun, fun hout => ?_⟩
  obtain ⟨d, hd, _⟩ := hout [.enqueued 3] (.blocked 1) [] (.enqueued 1) [.dispatched 3] rfl rfl
    (.inl rfl)
  cases hd

end Kernel

end AlaphiOS.Sched
