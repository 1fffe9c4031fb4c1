import AlaphiOS.Arch.SyscallEntry

/-!
# Tasks, switches and system calls on one processor

The machine on which `switch_to` and `syscall_entry` run: a processor, the `Task`s with their
kernel stacks, and who waits to be switched to, who is inside of a system call. The kernel's own
code and the user programs are any steps that keep to their own words (`Behaves`); switching,
entering and leaving are the instructions of the source.

`Held` is the context of a task that waits, as it is in memory. It is made of words that only
the task itself writes, so whatever the others do leaves it (`Untouched`). `Ok` is what holds at
any time: every task that waits has such a context, and `GS_BASE` and `KERNEL_GS_BASE` point to
the right `scratch`.

The last of these is the delicate one. `switch_to` sets `KERNEL_GS_BASE` to the incoming task's
`scratch`, which is right for a task outside of a system call. Inside of one, after `swapgs`,
it is `GS_BASE` that has to point there, and this register is nobody's to save: it is right
as long as a task that is switched away from inside of a system call is the only one that is
inside of one. `Behaves` asks for that.

`schedule` passes to `switch_to` what `prepare_switch` gave it. If a timer interrupt comes between
the two, its own `schedule` passes the task that `prepare_switch` has made the current one already,
and the context of the running task goes to that `Task`. `Behaves` leaves this out, too: the
outgoing task is the one that runs, or null.

Mirroring notes:
- `waiting` and `inCall` are for the statements; the code does not read them.
- A `Task` whose stack pointer is not saved (`outgoing` is null) is not switched to again.
-/

namespace AlaphiOS.Arch

open Lib Function List Option

variable {ι : Type}

/-! ## The machine -/

/-- The processor and its tasks. -/
structure Machine (ι : Type) where
  cpu : Cpu
  /-- Where the processor continues after a switch or a system call. -/
  rip : Nat
  current : ι
  /-- The tasks that can be switched to: the processor at the call of `switch_to`, and the
  return address. -/
  waiting : ι → Option (Cpu × Nat)
  /-- The tasks inside of a system call. -/
  inCall : ι → Bool

/-- What can happen next. -/
inductive Op (ι : Type) where
  /-- The current task runs, in the kernel or in user mode, with interrupts or without. -/
  | runs (cpu : Cpu)
  /-- `schedule` calls `switch_to` and is to continue at `rip`; with `none`, the outgoing task is
  null. -/
  | switch (out : Option ι) (t : ι) (rip : Nat)
  /-- The instruction `syscall`, and `syscall_entry` up to the call of `syscall_handler`. -/
  | enter (rip flags : Nat)
  /-- `syscall_handler` has returned. -/
  | result
  /-- `deliver_pending_signal` has returned. -/
  | leave

/-- The registers at the first instruction of `syscall_entry`. -/
def trapped (c : Cpu) (rip flags : Nat) : Cpu :=
  { (c.set .rcx rip).set .r11 flags with interrupts := false }

namespace Machine

/-- The stack pointer. -/
def rsp (s : Machine ι) : Nat := s.cpu.regs .rsp

/-- The call of `switch_to`. -/
def atSwitch (L : Layout ι) (s : Machine ι) (out : Option ι) (t : ι) (rip : Nat) : Cpu :=
  ((s.cpu.set .rdi (out.elim 0 L.task)).set .rsi (L.task t)).push rip

/-- Who waits when the outgoing task is stored: that task, and no longer the one that runs. -/
def stored [DecidableEq ι] (s : Machine ι) (out : Option ι) (rip : Nat) : ι → Option (Cpu × Nat) :=
  match out with
  | some u => update (update s.waiting s.current none) u (some (s.cpu, rip))
  | none => update s.waiting s.current none

/-- One step of the machine. -/
def step [DecidableEq ι] (L : Layout ι) (s : Machine ι) : Op ι → Option (Machine ι)
  | .runs cpu => some { s with cpu := cpu }
  | .switch out t rip =>
    match runs none (switchTo L) (s.atSwitch L out t rip) with
    | some (.exit (.ret rip') cpu) => some {
        cpu := cpu
        rip := rip'
        current := t
        waiting := update (s.stored out rip) t none
        inCall := update s.inCall s.current
          (s.inCall s.current && decide (out = some s.current)) }
    | _ => none
  | .enter rip flags =>
    match runs none saveFrame (trapped s.cpu rip flags) with
    | some (.fell cpu) => some { s with
        cpu := cpu, inCall := update s.inCall s.current true }
    | _ => none
  | .result =>
    match runs none storeResult s.cpu with
    | some (.fell cpu) => some { s with cpu := cpu }
    | _ => none
  | .leave =>
    match runs none restoreFrame s.cpu with
    | some (.exit (.sysret rip _) cpu) => some { s with
        cpu := cpu, rip := rip, inCall := update s.inCall s.current false }
    | _ => none

end Machine

/-! ## Whose word it is -/

section

variable {L : Layout ι} {t u : ι} {m m' : Words} {a v : Nat}

/-- The fields of a `Task` and its stack are words of their own. -/
theorem Layout.apart (L : Layout ι) (t : ι) :
    (L.rspField t < L.stack t ∨ L.top t ≤ L.rspField t) ∧
    (L.cr3Field t < L.stack t ∨ L.top t ≤ L.cr3Field t) ∧
    (L.scratch t < L.stack t ∨ L.top t ≤ L.scratch t) ∧
    (L.kernelRspField t < L.stack t ∨ L.top t ≤ L.kernelRspField t) ∧
    L.rspField t ≠ L.cr3Field t ∧ L.rspField t ≠ L.scratch t ∧ L.rspField t ≠ L.kernelRspField t ∧
    L.cr3Field t ≠ L.scratch t ∧ L.cr3Field t ≠ L.kernelRspField t := by
  have hstack := L.field_stack t
  have hnodup := L.fields_nodup
  simp only [mem_cons, not_mem_nil, forall_eq_or_imp, or_false, forall_eq] at hstack
  simp only [nodup_cons, mem_cons, not_mem_nil, or_false, not_or] at hnodup
  unfold kernelRspField scratch rspField cr3Field stack top kernelStackSize guardSize at *
  omega

/-- A kernel stack belongs to its task. -/
theorem Layout.owner_of_stack (hlo : L.stack t ≤ a) (hhi : a < L.top t) : L.owner a = some t := by
  refine L.owner_stack t a ?_ ?_ <;> unfold stack top at * <;> omega

theorem Layout.owner_kernelRsp (L : Layout ι) (t : ι) : L.owner (L.kernelRspField t) = some t :=
  L.owner_field t (L.scratchOff + 8) (by simp)

/-- No two tasks share a `scratch`. -/
theorem Layout.scratch_injective (h : L.scratch t = L.scratch u) : t = u := by
  have ht : L.owner (L.scratch t) = some t := L.owner_field t _ (by simp)
  have hu : L.owner (L.scratch u) = some u := L.owner_field u _ (by simp)
  rw [h] at ht
  exact some.inj (ht.symm.trans hu)

/-- The task's words are as before. -/
def Untouched (L : Layout ι) (t : ι) (m m' : Words) : Prop := ∀ a, L.owner a = some t → m' a = m a

/-- A store to another task's memory. -/
theorem Untouched.update (h : Untouched L t m m') (ha : L.owner a = some u) (hne : t ≠ u) :
    Untouched L t m (update m' a v) := by
  intro x hx
  have hxa : x ≠ a := by
    rintro rfl
    exact hne (some.inj (hx.symm.trans ha))
  rw [update_of_ne hxa]
  exact h x hx

/-- Several, on another task's stack. -/
theorem Untouched.storeAll {ws : List Nat} (h : Untouched L t m m') (hlo : L.stack u ≤ a)
    (hhi : a + 8 * ws.length ≤ L.top u) (hne : t ≠ u) : Untouched L t m (storeAll m' a ws) := by
  intro x hx
  have hout : x < a ∨ a + 8 * ws.length ≤ x := by
    by_contra hin
    have hu : L.owner x = some u := L.owner_of_stack (by omega) (by omega)
    exact hne (some.inj (hx.symm.trans hu))
  rw [storeAll_out hout]
  exact h x hx

/-! ## Contexts -/

/-- The context of a task that called `switch_to` is in memory. -/
structure Held (L : Layout ι) (m : Words) (t : ι) (c : Cpu) (rip : Nat) : Prop where
  rsp : m (L.rspField t) + 56 = c.regs .rsp
  low : L.stack t + 56 ≤ c.regs .rsp
  high : c.regs .rsp ≤ L.top t
  words : loadAll m (c.regs .rsp - 56) 7 = calleeSaved.reverse.map c.regs ++ [rip]
  above : ∀ a, c.regs .rsp ≤ a → a < L.top t → m a = c.mem a
  cr3 : m (L.cr3Field t) = c.mem (L.cr3Field t)

/-- A task stays held if it is untouched. -/
theorem Held.congr {c : Cpu} {rip : Nat} (h : Held L m t c rip) (hm : Untouched L t m m') :
    Held L m' t c rip where
  rsp := (congrArg (· + 56) (hm _ (L.owner_field t _ (by simp)))).trans h.rsp
  low := h.low
  high := h.high
  words := by
    have hlow := h.low
    have hhigh := h.high
    rw [loadAll_congr fun x hlo hhi => hm x (L.owner_of_stack (by omega) (by omega))]
    exact h.words
  above a hlo hhi :=
    (hm a (L.owner_of_stack (by have := h.low; omega) hhi)).trans (h.above a hlo hhi)
  cr3 := (hm _ (L.owner_field t _ (by simp))).trans h.cr3

end

namespace Machine

section

variable {L : Layout ι} {s : Machine ι} {t : ι} {out : Option ι} {rip a : Nat}

/-- The memory once the outgoing task is stored. -/
def outgoing (L : Layout ι) (s : Machine ι) (out : Option ι) (rip : Nat) : Words :=
  let m := storeAll s.cpu.mem (s.rsp - 56) (calleeSaved.reverse.map s.cpu.regs ++ [rip])
  match out with
  | some u => update m (L.rspField u) (s.rsp - 56)
  | none => m

/-- What the first half of `switch_to` leaves. -/
theorem storeRsp_atSwitch (h : 56 ≤ s.rsp) : storeRsp L ((s.atSwitch L out t rip).pushAll
    (calleeSaved.map (s.atSwitch L out t rip).regs)) = s.outgoing L out rip := by
  have hregs : calleeSaved.map (s.atSwitch L out t rip).regs = calleeSaved.map s.cpu.regs := rfl
  rw [hregs, atSwitch, pushAll_push (by exact h)]
  cases out with
  | none => rfl
  | some u => exact if_neg (Nat.ne_of_gt (L.task_pos u))

/-- The current task is on its own kernel stack, with room for a context. -/
def OnStack (L : Layout ι) (s : Machine ι) : Prop :=
  L.stack s.current + 56 ≤ s.rsp ∧ s.rsp ≤ L.top s.current

/-- It stores below the stack pointer and to `rsp` only. -/
theorem outgoing_out (hout : ∀ u ∈ out, u = s.current) (hrsp : 56 ≤ s.rsp)
    (hstack : a < s.rsp - 56 ∨ s.rsp ≤ a) (hfield : a ≠ L.rspField s.current) :
    s.outgoing L out rip a = s.cpu.mem a := by
  have hwords : storeAll s.cpu.mem (s.rsp - 56) (calleeSaved.reverse.map s.cpu.regs ++ [rip]) a
      = s.cpu.mem a := by
    refine storeAll_out ?_
    show a < s.rsp - 56 ∨ s.rsp - 56 + 56 ≤ a
    omega
  cases out with
  | none => exact hwords
  | some u =>
    obtain rfl := hout u rfl
    exact (update_of_ne hfield ..).trans hwords

/-- It does not touch other tasks. -/
theorem untouched_outgoing (rip : Nat) (hout : ∀ u ∈ out, u = s.current) (hon : s.OnStack L)
    (hne : t ≠ s.current) : Untouched L t s.cpu.mem (s.outgoing L out rip) := by
  intro x hx
  have hxc : L.owner x ≠ some s.current := by
    rw [hx]
    exact fun h => hne (some.inj h)
  obtain ⟨hlo, hhi⟩ := hon
  refine outgoing_out hout (by omega) ?_ ?_
  · by_contra hin
    exact hxc (L.owner_of_stack (by omega) (by omega))
  · rintro rfl
    exact hxc (L.owner_field _ _ (by simp))

/-- It leaves the outgoing task held. -/
theorem held_outgoing (hon : s.OnStack L) :
    Held L (s.outgoing L (some s.current) rip) s.current s.cpu rip := by
  obtain ⟨hlo, hhi⟩ := hon
  have hapart := L.apart s.current
  have hrsp : s.cpu.regs .rsp = s.rsp := rfl
  refine ⟨?_, hlo, hhi, ?_, fun a ha _ => outgoing_out (by simp) (by omega) (by omega) (by omega),
    outgoing_out (by simp) (by omega) (by omega) (by omega)⟩
  · have hfield : s.outgoing L (some s.current) rip (L.rspField s.current) = s.rsp - 56 :=
      update_self ..
    omega
  · have hfield : ∀ x, s.rsp - 56 ≤ x → x < s.rsp - 56 + 8 * 7 → s.outgoing L (some s.current) rip x
        = storeAll s.cpu.mem (s.rsp - 56) (calleeSaved.reverse.map s.cpu.regs ++ [rip]) x :=
      fun x hx hx' => update_of_ne (by omega) ..
    rw [hrsp, loadAll_congr hfield]
    exact loadAll_storeAll

end

variable [DecidableEq ι] {L : Layout ι} {s s' : Machine ι} {t u : ι} {out : Option ι}
  {c : Cpu} {rip rip' flags : Nat}

theorem stored_other (rip : Nat) (hout : ∀ u ∈ out, u = s.current) (hne : t ≠ s.current) :
    s.stored out rip t = s.waiting t := by
  cases out with
  | none => exact update_of_ne hne ..
  | some u =>
    obtain rfl := hout u rfl
    exact (update_of_ne hne ..).trans (update_of_ne hne ..)

/-! ## What the steps come to -/

/-- A switch gives the incoming task its context back. -/
structure Resumed (L : Layout ι) (s : Machine ι) (out : Option ι) (t : ι) (rip : Nat) (c : Cpu)
    (rip' : Nat) (s' : Machine ι) : Prop where
  current : s'.current = t
  mem : s'.cpu.mem = s.outgoing L out rip
  returns : s'.rip = rip'
  regs : ∀ r ∈ calleeSaved, s'.cpu.regs r = c.regs r
  rsp : s'.rsp = c.regs .rsp
  cr3 : s'.cpu.cr3 = if c.mem (L.cr3Field t) = 0 then s.cpu.cr3 else c.mem (L.cr3Field t)
  gsBase : s'.cpu.gsBase = s.cpu.gsBase
  kernelGsBase : s'.cpu.kernelGsBase = L.scratch t
  interrupts : s'.cpu.interrupts = s.cpu.interrupts
  waiting : s'.waiting = update (s.stored out rip) t none
  inCall : s'.inCall = update s.inCall s.current
    (s.inCall s.current && decide (out = some s.current))

/-- A switch to a held task resumes it. -/
theorem step_switch (hrsp : 56 ≤ s.rsp) (hk : Held L (s.outgoing L out rip) t c rip') :
    ∃ s', s.step L (.switch out t rip) = some s' ∧ Resumed L s out t rip c rip' s' := by
  have hroom : 48 ≤ (s.atSwitch L out t rip).regs .rsp := by
    show 48 ≤ s.rsp - 8
    omega
  have hold : s.outgoing L out rip (L.task t + L.rspOff) = c.regs .rsp - 56 :=
    Nat.eq_sub_of_add_eq hk.rsp
  obtain ⟨rip₁, d, hrun, hd⟩ := run_switchTo (L := L) (c := s.atSwitch L out t rip) _ hroom
    (by exact L.scratch_lt t) (storeRsp_atSwitch hrsp)
  have hd : Switched L (s.atSwitch L out t rip) (s.outgoing L out rip) (s.outgoing L out rip
    (L.task t + L.rspOff)) rip₁ d := hd
  rw [hold] at hd
  obtain ⟨hregs, hrip⟩ := append_inj' (hd.words.trans hk.words) rfl
  refine ⟨⟨d, rip₁, t, update _ t none, update _ s.current _⟩,
    by rw [step, hrun], rfl, hd.mem, singleton_inj.mp hrip, ?_, ?_, ?_, hd.gsBase,
    hd.kernelGsBase, hd.interrupts, rfl, rfl⟩
  · intro r hr
    exact map_inj_left.mp hregs r (mem_reverse.mpr hr)
  · show d.regs .rsp = _
    have hlow := hk.low
    rw [hd.rsp]
    omega
  · rw [← hk.cr3]
    exact hd.cr3

/-- A system call saves its frame on the stack of `scratch`. -/
theorem step_enter (htop : s.cpu.mem (s.cpu.kernelGsBase + 8) = L.top u) :
    s.step L (.enter rip flags) = some { s with
      cpu := saved (trapped s.cpu rip flags) (L.top u)
      inCall := update s.inCall s.current true } := by
  have hroom := L.stack_room u
  have hrun : runs none saveFrame (trapped s.cpu rip flags) = _ :=
    run_saveFrame (by exact htop) (show 128 ≤ L.top u by omega)
  rw [step, hrun]

/-- The way out loads the registers from the frame. -/
theorem step_leave : ∃ s', s.step L .leave = some s' ∧ s'.rip = s'.cpu.regs .rcx ∧
    frameRegs.map s'.cpu.regs = loadAll s.cpu.mem s.rsp 16 ∧ s'.cpu.mem = s.cpu.mem ∧
    s'.cpu.gsBase = s.cpu.kernelGsBase ∧ s'.cpu.kernelGsBase = s.cpu.gsBase ∧
    s'.current = s.current ∧ s'.waiting = s.waiting ∧
    s'.inCall = update s.inCall s.current false := by
  obtain ⟨d, hrun, hregs, hmem, hgs, hkernel⟩ := run_restoreFrame (c := s.cpu)
  refine ⟨⟨d, d.regs .rcx, s.current, s.waiting, update s.inCall s.current false⟩, ?_,
    rfl, hregs, hmem, hgs, hkernel, rfl, rfl, rfl⟩
  rw [step, hrun]

/-! ## What holds at any time -/

/-- `GS_BASE` inside of a system call and `KERNEL_GS_BASE` outside of one point to the current
task's `scratch`; the one that does not is left for a task that waits inside of a system call. -/
structure GsOk (L : Layout ι) (s : Machine ι) : Prop where
  inside : s.inCall s.current = true → s.cpu.gsBase = L.scratch s.current ∧
    ∀ u, u ≠ s.current → s.inCall u = true → s.cpu.kernelGsBase = L.scratch u
  outside : s.inCall s.current = false → s.cpu.kernelGsBase = L.scratch s.current ∧
    ∀ u, s.inCall u = true → s.cpu.gsBase = L.scratch u

/-- What holds at every point of a run. -/
structure Ok (L : Layout ι) (s : Machine ι) : Prop where
  current : s.waiting s.current = none
  kernelRsp : ∀ t, t = s.current ∨ s.waiting t ≠ none → s.cpu.mem (L.kernelRspField t) = L.top t
  held : ∀ t c rip, s.waiting t = some (c, rip) → Held L s.cpu.mem t c rip
  inCall : ∀ t, s.inCall t = true → t = s.current ∨ s.waiting t ≠ none
  gs : s.GsOk L

/-- The code of the kernel and of the user programs: it writes what belongs to the current task,
or to nobody, and leaves the two registers and `kernel_rsp` alone; a switch is on the task's own
kernel stack, away from it, and to a task that waits. -/
def Behaves (L : Layout ι) (s : Machine ι) : Op ι → Prop
  | .runs cpu => cpu.gsBase = s.cpu.gsBase ∧ cpu.kernelGsBase = s.cpu.kernelGsBase ∧
      (∀ t, t ≠ s.current → Untouched L t s.cpu.mem cpu.mem) ∧
      cpu.mem (L.kernelRspField s.current) = s.cpu.mem (L.kernelRspField s.current)
  | .switch out t _ => s.OnStack L ∧ s.waiting t ≠ none ∧ (∀ u ∈ out, u = s.current) ∧
      (s.inCall s.current = true → ∀ u, s.inCall u = true → u = s.current)
  | .enter _ _ => s.inCall s.current = false
  | .result => s.inCall s.current = true ∧ s.rsp = L.top s.current - 128
  | .leave => s.inCall s.current = true ∧ s.rsp = L.top s.current - 128

omit [DecidableEq ι] in
theorem Ok.ne_current (hs : s.Ok L) (ht : s.waiting t ≠ none) : t ≠ s.current := by
  rintro rfl
  exact ht hs.current

omit [DecidableEq ι] in
/-- Steps of the current task that leave the others alone. -/
theorem Ok.stay (hs : s.Ok L) (hcur : s'.current = s.current) (hwait : s'.waiting = s.waiting)
    (hmem : ∀ t, t ≠ s.current → Untouched L t s.cpu.mem s'.cpu.mem)
    (hrsp : s'.cpu.mem (L.kernelRspField s.current) = s.cpu.mem (L.kernelRspField s.current))
    (hcall : ∀ t, t ≠ s.current → s'.inCall t = s.inCall t) (hgs : s'.GsOk L) : s'.Ok L where
  current := by rw [hcur, hwait, hs.current]
  kernelRsp t ht := by
    rw [hcur, hwait] at ht
    by_cases hne : t = s.current
    · rw [hne, hrsp, hs.kernelRsp _ (.inl rfl)]
    · rw [hmem t hne _ (L.owner_kernelRsp t), hs.kernelRsp t ht]
  held t c rip ht := by
    rw [hwait] at ht
    have hne : t ≠ s.current := hs.ne_current (by rw [ht]; exact nofun)
    exact (hs.held t c rip ht).congr (hmem t hne)
  inCall t ht := by
    rw [hcur, hwait]
    by_cases hne : t = s.current
    · exact .inl hne
    · rw [hcall t hne] at ht
      exact hs.inCall t ht
  gs := hgs

/-- A system call keeps `Ok`. -/
theorem ok_enter (hs : s.Ok L) (hcall : s.inCall s.current = false)
    (h : s.step L (.enter rip flags) = some s') : s'.Ok L ∧
      (∀ t, t ≠ s.current → Untouched L t s.cpu.mem s'.cpu.mem) ∧
      s' = { s with
        cpu := saved (trapped s.cpu rip flags) (L.top s.current)
        inCall := update s.inCall s.current true } := by
  obtain ⟨hkernel, hothers⟩ := hs.gs.outside hcall
  have htop : s.cpu.mem (s.cpu.kernelGsBase + 8) = L.top s.current := by
    rw [hkernel]
    exact hs.kernelRsp _ (.inl rfl)
  have hroom := L.stack_room s.current
  have hapart := L.apart s.current
  cases h.symm.trans (step_enter htop)
  have hmem : ∀ t, t ≠ s.current →
      Untouched L t s.cpu.mem (saved (trapped s.cpu rip flags) (L.top s.current)).mem := by
    intro t ht
    have howner : L.owner s.cpu.kernelGsBase = some s.current := by
      rw [hkernel]
      exact L.owner_field _ _ (by simp)
    refine Untouched.storeAll (Untouched.update (fun _ _ => rfl) howner ht) (by omega) ?_ ht
    show L.top s.current - 128 + 128 ≤ _
    omega
  refine ⟨hs.stay rfl rfl hmem ?_ (fun t ht => update_of_ne ht ..)
    ⟨fun _ => ⟨hkernel, fun u hu hin => hothers u ?_⟩, fun hin => ?_⟩, hmem, rfl⟩
  · refine (storeAll_out ?_).trans (update_of_ne ?_ ..)
    · show _ ∨ L.top s.current - 128 + 128 ≤ _
      omega
    · show _ ≠ s.cpu.kernelGsBase
      rw [hkernel, Layout.kernelRspField]
      omega
  · exact (update_of_ne hu ..).symm.trans hin
  · cases hin.symm.trans (update_self ..)

omit [DecidableEq ι] in
theorem untouched_result {v : Nat} (hok : s.Behaves L .result) (hne : t ≠ s.current) :
    Untouched L t s.cpu.mem (update s.cpu.mem (s.rsp + 112) v) := by
  obtain ⟨-, hrsp⟩ := hok
  have hroom := L.stack_room s.current
  exact Untouched.update (fun _ _ => rfl) (L.owner_of_stack (by omega) (by omega)) hne

/-- So does the result. -/
theorem ok_result (hs : s.Ok L) (hok : s.Behaves L .result) (h : s.step L .result = some s') :
    s'.Ok L := by
  cases h
  refine hs.stay rfl rfl (fun t ht => untouched_result hok ht) ?_ (fun _ _ => rfl)
    ⟨hs.gs.inside, hs.gs.outside⟩
  obtain ⟨-, hrsp⟩ := hok
  have hroom := L.stack_room s.current
  have hapart := L.apart s.current
  have hne : L.kernelRspField s.current ≠ s.rsp + 112 := by omega
  exact update_of_ne hne ..

/-- So does the way out. -/
theorem ok_leave (hs : s.Ok L) (hok : s.Behaves L .leave) (h : s.step L .leave = some s') :
    s'.Ok L := by
  obtain ⟨s'', h', -, -, hmem, hgs, hkernel, hcur, hwait, hcall⟩ := step_leave (L := L) (s := s)
  cases h.symm.trans h'
  obtain ⟨hbase, hothers⟩ := hs.gs.inside hok.1
  have hother : ∀ t, t ≠ s.current → s'.inCall t = s.inCall t := by
    intro t ht
    rw [hcall, update_of_ne ht]
  have hself : s'.inCall s.current = false := by rw [hcall, update_self]
  refine hs.stay hcur hwait (fun t _ => ?_) ?_ hother ⟨fun hin => ?_, fun _ => ⟨?_, fun u hu => ?_⟩⟩
  · rw [hmem]
    exact fun _ _ => rfl
  · rw [hmem]
  · rw [hcur, hself] at hin
    cases hin
  · rw [hcur, hkernel, hbase]
  · have hne : u ≠ s.current := by
      rintro rfl
      rw [hself] at hu
      cases hu
    rw [hgs]
    exact hothers u hne (by rwa [hother u hne] at hu)

/-- A task that waits can be switched to. -/
theorem Ok.switch (hs : s.Ok L) (rip : Nat) (hon : s.OnStack L) (hout : ∀ u ∈ out, u = s.current)
    (ht : s.waiting t = some (c, rip')) :
    ∃ s', s.step L (.switch out t rip) = some s' ∧ Resumed L s out t rip c rip' s' ∧
      ∀ a, c.regs .rsp ≤ a → a < L.top t → s'.cpu.mem a = c.mem a := by
  have hne := hs.ne_current (t := t) (by rw [ht]; exact nofun)
  have hk := (hs.held t c rip' ht).congr (untouched_outgoing rip hout hon hne)
  obtain ⟨s', h, hres⟩ := step_switch (by have := hon.1; omega) hk
  refine ⟨s', h, hres, ?_⟩
  rw [hres.mem]
  exact hk.above

/-- What a switch has come to. -/
theorem Ok.switched (hs : s.Ok L) (hok : s.Behaves L (.switch out t rip))
    (h : s.step L (.switch out t rip) = some s') : ∃ c rip', Resumed L s out t rip c rip' s' := by
  obtain ⟨⟨c, rip'⟩, ht⟩ := ne_none_iff_exists'.mp hok.2.1
  obtain ⟨s'', h', hres, -⟩ := hs.switch rip hok.1 hok.2.2.1 ht
  cases h.symm.trans h'
  exact ⟨c, rip', hres⟩

/-- So does a switch. -/
theorem ok_switch (hs : s.Ok L) (hok : s.Behaves L (.switch out t rip))
    (h : s.step L (.switch out t rip) = some s') : s'.Ok L := by
  obtain ⟨c, rip', hres⟩ := hs.switched hok h
  obtain ⟨hon, hwait, hout, honly⟩ := hok
  have hne := hs.ne_current hwait
  -- who waits afterwards
  have hcur : s'.waiting s.current = out.map fun _ => (s.cpu, rip) := by
    rw [hres.waiting, update_of_ne hne.symm]
    cases out with
    | none => exact update_self ..
    | some u =>
      obtain rfl := hout u rfl
      exact update_self ..
  have hothers : ∀ u, u ≠ s.current → u ≠ t → s'.waiting u = s.waiting u := by
    intro u hu hut
    rw [hres.waiting, update_of_ne hut, stored_other rip hout hu]
  have hself : s'.waiting t = none := by rw [hres.waiting, update_self]
  refine ⟨by rw [hres.current]; exact hself, fun u hu => ?_, fun u c₁ rip₁ hu => ?_, fun u hu => ?_, ?_⟩
  · rw [hres.mem]
    by_cases hucur : u = s.current
    · subst hucur
      have hapart := L.apart s.current
      obtain ⟨hlo, hhi⟩ := hon
      rw [outgoing_out hout (by omega) (by omega) (by omega), hs.kernelRsp _ (.inl rfl)]
    · rw [untouched_outgoing rip hout hon hucur _ (L.owner_kernelRsp u)]
      refine hs.kernelRsp u (.inr ?_)
      by_cases hut : u = t
      · rwa [hut]
      · rw [hres.current, hothers u hucur hut] at hu
        exact hu.resolve_left hut
  · have hut : u ≠ t := by
      rintro rfl
      rw [hself] at hu
      cases hu
    rw [hres.mem]
    by_cases hucur : u = s.current
    · subst hucur
      rw [hcur] at hu
      cases out with
      | none => cases hu
      | some v =>
        obtain rfl := hout v rfl
        cases hu
        exact held_outgoing hon
    · rw [hothers u hucur hut] at hu
      exact (hs.held u c₁ rip₁ hu).congr (untouched_outgoing rip hout hon hucur)
  · rw [hres.current]
    rw [hres.inCall] at hu
    by_cases hucur : u = s.current
    · subst hucur
      rw [update_self] at hu
      refine .inr ?_
      rw [hcur, of_decide_eq_true (Bool.and_eq_true_iff.mp hu).2]
      exact nofun
    · rw [update_of_ne hucur] at hu
      by_cases hut : u = t
      · exact .inl hut
      · rw [hothers u hucur hut]
        exact .inr ((hs.inCall u hu).resolve_left hucur)
  · -- whoever is inside of a call now was so before, and `GS_BASE` is his
    have hbase : ∀ u, s'.inCall u = true → s'.cpu.gsBase = L.scratch u := by
      intro u hu
      rw [hres.inCall] at hu
      rw [hres.gsBase]
      by_cases hcall : s.inCall s.current = true
      · have hucur : u = s.current := by
          by_contra hucur
          rw [update_of_ne hucur] at hu
          exact hucur (honly hcall u hu)
        rw [hucur]
        exact (hs.gs.inside hcall).1
      · rw [Bool.not_eq_true] at hcall
        rw [hcall, Bool.false_and] at hu
        have hucur : u ≠ s.current := by
          rintro rfl
          rw [update_self] at hu
          cases hu
        rw [update_of_ne hucur] at hu
        exact (hs.gs.outside hcall).2 u hu
    refine ⟨fun hin => ⟨hbase _ hin, fun u hu hin' => ?_⟩, fun _ => ⟨?_, hbase⟩⟩
    · exact absurd (Layout.scratch_injective ((hbase u hin').symm.trans (hbase _ hin))) hu
    · rw [hres.kernelGsBase, hres.current]

/-- **Every step keeps `Ok`.** -/
theorem ok_step {op : Op ι} (hs : s.Ok L) (hok : s.Behaves L op) (h : s.step L op = some s') :
    s'.Ok L := by
  cases op with
  | runs cpu =>
    obtain ⟨hgs, hkernel, hmem, hrsp⟩ := hok
    cases h
    refine hs.stay rfl rfl hmem hrsp (fun _ _ => rfl) ⟨?_, ?_⟩
    · rw [hgs, hkernel]
      exact hs.gs.inside
    · rw [hgs, hkernel]
      exact hs.gs.outside
  | switch out t rip => exact ok_switch hs hok h
  | enter rip flags => exact (ok_enter hs hok h).1
  | result => exact ok_result hs hok h
  | leave => exact ok_leave hs hok h

end Machine

end AlaphiOS.Arch
