import AlaphiOS.Arch.Traps
import AlaphiOS.Lib.Run

/-!
# Switches and system calls, interleaved

What a task sees of the others' switches and system calls. `switch_to_returns` is about contexts:
whatever runs in between, a call of `switch_to` returns as any call does. `syscall_transparent` is
about trap frames: the user program goes on with its registers, but for `rax`. Both are one lemma
on what a step leaves of the other tasks (`step_others`), carried along a run.

All of this is for runs that keep to `Behaves`, and there are two things in it that the kernel
does not see to: that the task which `switch_to` stores is the one that runs, and that a task is
not switched away from inside of a system call while another one is inside of one.
`second_call_on_foreign_stack` says what follows if it is.
-/

namespace AlaphiOS.Arch

open Lib Function

namespace Machine

variable {ι : Type} [DecidableEq ι] {L : Layout ι} {s s' s₁ s₂ : Machine ι} {t : ι} {op : Op ι}
  {out : Option ι} {rip rip' : Nat} {ops : List (Op ι)} {c : Cpu}

/-- What a step of the current task leaves of another one. -/
theorem step_others (hs : s.Ok L) (hok : s.Behaves L op) (h : s.step L op = some s')
    (hne : t ≠ s.current) : Untouched L t s.cpu.mem s'.cpu.mem ∧ s'.inCall t = s.inCall t ∧
      ((∀ out rip, op ≠ .switch out t rip) → s'.waiting t = s.waiting t) := by
  cases op with
  | runs cpu =>
    cases h
    exact ⟨hok.2.2.1 t hne, rfl, fun _ => rfl⟩
  | switch out u rip =>
    obtain ⟨c, rip', hres⟩ := hs.switched hok h
    refine ⟨?_, ?_, fun hnot => ?_⟩
    · rw [hres.mem]
      exact untouched_outgoing rip hok.2.2.1 hok.1 hne
    · rw [hres.inCall, update_of_ne hne]
    · have htu : t ≠ u := fun heq => hnot out rip (by rw [heq])
      rw [hres.waiting, update_of_ne htu, stored_other rip hok.2.2.1 hne]
  | enter rip flags =>
    obtain ⟨-, huntouched, rfl⟩ := ok_enter hs hok h
    exact ⟨huntouched t hne, update_of_ne hne .., fun _ => rfl⟩
  | result =>
    cases h
    exact ⟨untouched_result hok hne, rfl, fun _ => rfl⟩
  | leave =>
    obtain ⟨s'', h', -, -, hmem, -, -, -, hwait, hcall⟩ := step_leave (L := L) (s := s)
    cases h.symm.trans h'
    refine ⟨fun _ _ => congrFun hmem _, ?_, fun _ => congrFun hwait t⟩
    rw [hcall, update_of_ne hne]

/-! ## Two tasks -/

/-- Two `Task`s and their stacks. -/
def twoTasks : Layout Bool where
  rspOff := 16
  cr3Off := 24
  scratchOff := 32
  task t := if t then 0x10040 else 0x10000
  kernelStack t := if t then 0x31000 else 0x20000
  owner a := some (if a < 0x20000 then decide (0x10040 ≤ a) else decide (0x31000 ≤ a))
  task_pos := by decide
  scratch_lt := by decide
  fields_nodup := by decide
  owner_field := by decide
  owner_stack := by
    intro t a hlo hhi
    unfold kernelStackSize guardSize at hhi
    cases t with
    | false =>
      rw [if_neg (by simp at hlo; omega), decide_eq_false (by simp at hhi; omega)]
    | true =>
      rw [if_neg (by simp at hlo; omega), decide_eq_true (by simp at hlo; omega)]
  field_stack := by decide

/-- The first of them runs and the second one waits, both inside of system calls or neither. -/
def pair (calls : Bool) : Machine Bool :=
  let cpu : Cpu := {
    regs := fun r => if r = .rsp then twoTasks.top false - 128 else if r = .rbx then 7 else 0
    zf := false
    interrupts := true
    gsBase := twoTasks.scratch false
    kernelGsBase := twoTasks.scratch calls
    cr3 := 0x5000
    mem := fun a => if a = twoTasks.kernelRspField false then twoTasks.top false else
      if a = twoTasks.kernelRspField true then twoTasks.top true else
      if a = twoTasks.rspField true then twoTasks.top true - 256 else 0 }
  { cpu := cpu
    rip := 0
    current := false
    waiting := fun t => if t then
      some ({ cpu with regs := fun r => if r = .rsp then twoTasks.top true - 200 else 0 }, 0) else none
    inCall := fun _ => calls }

theorem pair_ok (calls : Bool) : (pair calls).Ok twoTasks where
  current := rfl
  kernelRsp := by
    intro t _
    cases t <;> rfl
  held := by
    intro t c rip ht
    cases t with
    | false => cases ht
    | true =>
      cases ht
      refine ⟨?_, ?_, ?_, ?_, fun _ _ _ => rfl, rfl⟩
      · show twoTasks.top true - 256 + 56 = twoTasks.top true - 200
        decide
      · show twoTasks.stack true + 56 ≤ twoTasks.top true - 200
        decide
      · show twoTasks.top true - 200 ≤ twoTasks.top true
        decide
      · cases calls <;> decide +kernel
  inCall := by
    intro t _
    cases t with
    | false => exact .inl rfl
    | true => exact .inr nofun
  gs := by
    refine ⟨fun hcalls => ⟨rfl, fun u hu _ => ?_⟩, fun hcalls => ⟨?_, fun u hu => ?_⟩⟩
    · cases u with
      | false => exact absurd rfl hu
      | true => exact congrArg twoTasks.scratch hcalls
    · exact congrArg twoTasks.scratch hcalls
    · cases hu.symm.trans hcalls

theorem pair_onStack (calls : Bool) : (pair calls).OnStack twoTasks := by
  show twoTasks.stack false + 56 ≤ twoTasks.top false - 128 ∧ _ - 128 ≤ twoTasks.top false
  decide

/-! ## Contexts -/

/-- The task waits, with this context. -/
def Waits (L : Layout ι) (t : ι) (c : Cpu) (rip : Nat) (s : Machine ι) : Prop :=
  s.Ok L ∧ s.waiting t = some (c, rip)

/-- The kernel behaves, and does not switch to this task. -/
def Without (L : Layout ι) (t : ι) (s : Machine ι) (op : Op ι) : Prop :=
  s.Behaves L op ∧ ∀ out rip, op ≠ .switch out t rip

theorem waits_step (hs : Waits L t c rip s) (hok : Without L t s op) (h : s.step L op = some s') :
    Waits L t c rip s' := by
  obtain ⟨hs, hwait⟩ := hs
  have hne := hs.ne_current (t := t) (by rw [hwait]; exact nofun)
  exact ⟨ok_step hs hok.1 h, ((step_others hs hok.1 h hne).2.2 hok.2).trans hwait⟩

/-- `switch_to` returns like any function: when the task that called it is switched to again, no
matter what ran in between within `Behaves`, it continues at the return address with its
callee-saved registers, its stack pointer and its stack. The address space and `KERNEL_GS_BASE`
are its own, too; the interrupt flag is that of whoever switched to it. -/
theorem switch_to_returns (hs : s.Ok L) (hout : s.Behaves L (.switch (some s.current) t rip))
    (h₁ : s.step L (.switch (some s.current) t rip) = some s₁)
    (hops : Along (step L) (Without L s.current) s₁ ops) (hrun : exec (step L) s₁ ops = some s₂)
    (hback : s₂.Behaves L (.switch out s.current rip')) :
    ∃ s₃, s₂.step L (.switch out s.current rip') = some s₃ ∧ s₃.current = s.current ∧
      s₃.rip = rip ∧ (∀ r ∈ calleeSaved, s₃.cpu.regs r = s.cpu.regs r) ∧ s₃.rsp = s.rsp ∧
      (∀ a, s.rsp ≤ a → a < L.top s.current → s₃.cpu.mem a = s.cpu.mem a) ∧
      (s.cpu.mem (L.cr3Field s.current) ≠ 0 → s₃.cpu.cr3 = s.cpu.mem (L.cr3Field s.current)) ∧
      s₃.cpu.kernelGsBase = L.scratch s.current ∧ s₃.cpu.interrupts = s₂.cpu.interrupts := by
  -- the call leaves the context
  obtain ⟨c, rip₁, hres₁⟩ := hs.switched hout h₁
  have hne := (hs.ne_current hout.2.1).symm
  have hwaits : Waits L s.current s.cpu rip s₁ := by
    refine ⟨ok_step hs hout h₁, ?_⟩
    rw [hres₁.waiting, update_of_ne hne]
    exact update_self ..
  obtain ⟨hok, hwait⟩ := exec_induction (fun _ _ _ => waits_step) hwaits hops hrun
  obtain ⟨s₃, h₃, hres, habove⟩ := hok.switch rip' hback.1 hback.2.2.1 hwait
  refine ⟨s₃, h₃, hres.current, hres.returns, hres.regs, hres.rsp, habove, fun hzero => ?_,
    hres.kernelGsBase, hres.interrupts⟩
  rw [hres.cr3, if_neg hzero]

/-- To the second task and back; it has another number in `rbx`. -/
theorem switch_to_returns_after_run : ∃ s₁ s₂ s₃,
    (pair false).step twoTasks (.switch (some false) true 0x2000) = some s₁ ∧
    exec (step twoTasks) s₁ [.runs (s₁.cpu.set .rbx 99)] = some s₂ ∧ s₂.cpu.regs .rbx = 99 ∧
    s₂.step twoTasks (.switch (some true) false 0x3000) = some s₃ ∧ s₃.rip = 0x2000 ∧
    s₃.cpu.regs .rbx = 7 ∧ s₃.rsp = twoTasks.top false - 128 := by
  have hout : (pair false).Behaves twoTasks (.switch (some false) true 0x2000) :=
    ⟨pair_onStack _, Option.some_ne_none _, by simp [pair], nofun⟩
  obtain ⟨s₁, h₁, hres, -⟩ := (pair_ok false).switch 0x2000 (t := true) hout.1 hout.2.2.1 rfl
  have hops : Along (step twoTasks) (Without twoTasks false) s₁ [.runs (s₁.cpu.set .rbx 99)] :=
    ⟨⟨⟨rfl, rfl, fun _ _ _ _ => rfl, rfl⟩, nofun⟩, fun _ _ => trivial⟩
  have hback : Machine.Behaves twoTasks { s₁ with cpu := s₁.cpu.set .rbx 99 }
      (.switch (some true) false 0x3000) := by
    refine ⟨?_, ?_, ?_, fun hin => ?_⟩
    · show twoTasks.stack s₁.current + 56 ≤ s₁.rsp ∧ s₁.rsp ≤ twoTasks.top s₁.current
      rw [hres.current, hres.rsp]
      decide
    · show s₁.waiting false ≠ none
      rw [hres.waiting]
      exact nofun
    · simp [hres.current]
    · have hin : s₁.inCall s₁.current = true := hin
      rw [hres.current, hres.inCall] at hin
      cases hin
  obtain ⟨s₃, h₃, -, hrip, hregs, hrsp, -⟩ :=
    switch_to_returns (pair_ok false) hout h₁ hops rfl hback
  exact ⟨s₁, _, s₃, h₁, rfl, rfl, h₃, hrip, hregs .rbx (by decide), hrsp⟩

/-! ## Frames -/

/-- What a task inside of a system call does until it leaves it: its own code leaves the frame
alone, and it does not exit. The others do what they like within `Behaves`. -/
def KeepsFrame (L : Layout ι) (t : ι) (s : Machine ι) (op : Op ι) : Prop :=
  s.Behaves L op ∧ (s.current = t →
    match op with
    | .runs cpu => ∀ a, L.top t - 128 ≤ a → a < L.top t → cpu.mem a = s.cpu.mem a
    | .switch out _ _ => out = some t ∧ s.rsp + 128 ≤ L.top t
    | _ => False)

/-- The task is inside of a system call, and its frame has these registers. -/
def Inside (L : Layout ι) (t : ι) (regs : Reg → Nat) (s : Machine ι) : Prop :=
  s.Ok L ∧ s.inCall t = true ∧ loadAll s.cpu.mem (L.top t - 128) 16 = frameRegs.map regs

theorem inside_step {regs : Reg → Nat} (hs : Inside L t regs s) (hok : KeepsFrame L t s op)
    (h : s.step L op = some s') : Inside L t regs s' := by
  obtain ⟨hs, hin, hframe⟩ := hs
  obtain ⟨hok, hown⟩ := hok
  have hroom := L.stack_room t
  suffices hkeep : s'.inCall t = true ∧
      ∀ a, L.top t - 128 ≤ a → a < L.top t → s'.cpu.mem a = s.cpu.mem a by
    refine ⟨ok_step hs hok h, hkeep.1, ?_⟩
    rw [loadAll_congr fun a hlo hhi => hkeep.2 a hlo (by omega)]
    exact hframe
  by_cases hcur : t = s.current
  · subst hcur
    have hown := hown rfl
    cases op with
    | runs cpu =>
      cases h
      exact ⟨hin, hown⟩
    | switch out u rip =>
      obtain ⟨c, rip', hres⟩ := hs.switched hok h
      obtain ⟨hout, hbelow⟩ := hown
      obtain ⟨hlow, -⟩ := hok.1
      have hapart := L.apart s.current
      refine ⟨?_, fun a hlo hhi => ?_⟩
      · rw [hres.inCall, update_self, hin, decide_eq_true hout]
        rfl
      · rw [hres.mem]
        exact outgoing_out hok.2.2.1 (by omega) (by omega) (by omega)
    | enter | result | leave => exact hown.elim
  · obtain ⟨hmem, hcall, -⟩ := step_others hs hok h hcur
    exact ⟨hcall.trans hin, fun a hlo hhi => hmem a (L.owner_of_stack (by omega) hhi)⟩

/-- A system call is transparent: whatever the other tasks do in between within `Behaves`, with
system calls of their own, the user program goes on behind its `syscall` with all registers as
they were, but for `rax`, which is what `syscall_handler` returned, and for `rcx` and `r11`, which
the instruction uses. The kernel works on the task's own kernel stack. -/
theorem syscall_transparent {flags : Nat} {before after : List (Op ι)} {s₃ s₄ : Machine ι}
    (hs : s.Ok L) (hcall : s.Behaves L (.enter rip flags))
    (h₁ : s.step L (.enter rip flags) = some s₁)
    (hbefore : Along (step L) (KeepsFrame L s.current) s₁ before)
    (h₂ : exec (step L) s₁ before = some s₂) (hcur₂ : s₂.current = s.current)
    (hresult : s₂.Behaves L .result) (h₃ : s₂.step L .result = some s₃)
    (hafter : Along (step L) (KeepsFrame L s.current) s₃ after)
    (h₄ : exec (step L) s₃ after = some s₄) (hcur₄ : s₄.current = s.current)
    (hleave : s₄.Behaves L .leave) :
    s₁.rsp = L.top s.current - 128 ∧ ∃ s₅, s₄.step L .leave = some s₅ ∧ s₅.rip = rip ∧
      s₅.cpu.regs .rax = s₂.cpu.regs .rax ∧
      ∀ r, r ≠ .rax → r ≠ .rcx → r ≠ .r11 → s₅.cpu.regs r = s.cpu.regs r := by
  have hroom := L.stack_room s.current
  obtain ⟨hok₁, -, rfl⟩ := ok_enter hs hcall h₁
  -- the frame is there, up to the result
  obtain ⟨hok₂, hin₂, hframe₂⟩ := exec_induction (fun _ _ _ => inside_step)
    ⟨hok₁, update_self .., frame_saved⟩ hbefore h₂
  have hok₃ := ok_step hok₂ hresult h₃
  -- and with the result
  have hframe₃ : Inside L s.current (update (trapped s.cpu rip flags).regs .rax
      (s₂.cpu.regs .rax)) s₃ := by
    have hat : s₂.rsp + 112 = L.top s.current - 128 + 112 := by rw [hresult.2, hcur₂]
    cases h₃
    refine ⟨hok₃, hin₂, ?_⟩
    show loadAll (update s₂.cpu.mem (s₂.rsp + 112) (s₂.cpu.regs .rax)) _ 16 = _
    rw [hat]
    exact loadAll_storeResult hframe₂
  obtain ⟨-, -, hframe₄⟩ := exec_induction (fun _ _ _ => inside_step) hframe₃ hafter h₄
  obtain ⟨s₅, h₅, hrip, hregs, -⟩ := step_leave (L := L) (s := s₄)
  rw [hleave.2, hcur₄, hframe₄] at hregs
  have hregs : ∀ r, s₅.cpu.regs r = _ := fun r => List.map_inj_left.mp hregs r (mem_frameRegs r)
  refine ⟨?_, s₅, h₅, ?_, ?_, fun r hrax hrcx hr11 => ?_⟩
  · rw [rsp]
    exact saved_rsp
  · rw [hrip, hregs]
    rfl
  · rw [hregs, update_self]
  · rw [hregs, update_of_ne hrax]
    show update (update s.cpu.regs .rcx rip) .r11 flags r = _
    rw [update_of_ne hr11, update_of_ne hrcx]

/-- The handler returns 42 and has changed `rbx`. -/
theorem syscall_transparent_handler : ∃ s₁ s₂ s₃ s₅,
    (pair false).step twoTasks (.enter 0x400010 0x202) = some s₁ ∧
    exec (step twoTasks) s₁ [.runs ((s₁.cpu.set .rax 42).set .rbx 99)] = some s₂ ∧
    s₂.cpu.regs .rbx = 99 ∧ s₂.step twoTasks .result = some s₃ ∧
    s₃.step twoTasks .leave = some s₅ ∧ s₅.rip = 0x400010 ∧ s₅.cpu.regs .rax = 42 ∧
    s₅.cpu.regs .rbx = 7 := by
  obtain ⟨s₁, h₁⟩ : ∃ s₁, (pair false).step twoTasks (.enter 0x400010 0x202) = some s₁ :=
    ⟨_, step_enter (u := false) rfl⟩
  obtain ⟨-, -, hs₁⟩ := ok_enter (pair_ok false) rfl h₁
  have hin : s₁.inCall s₁.current = true ∧ s₁.rsp = twoTasks.top s₁.current - 128 := by
    rw [hs₁]
    exact ⟨rfl, rfl⟩
  have hcur : s₁.current = false := by rw [hs₁]; rfl
  have hbefore : Along (step twoTasks) (KeepsFrame twoTasks false) s₁
      [.runs ((s₁.cpu.set .rax 42).set .rbx 99)] :=
    ⟨⟨⟨rfl, rfl, fun _ _ _ _ => rfl, rfl⟩, fun _ _ _ _ => rfl⟩, fun _ _ => trivial⟩
  have hafter : ∀ s, Along (step twoTasks) (KeepsFrame twoTasks false) s [] := fun _ => trivial
  obtain ⟨-, s₅, h₅, hrip, hrax, hregs⟩ := syscall_transparent (pair_ok false) rfl h₁ hbefore rfl
    hcur hin rfl (hafter _) rfl hcur hin
  exact ⟨s₁, _, _, s₅, h₁, rfl, rfl, rfl, h₅, hrip, hrax,
    hregs .rbx (by decide) (by decide) (by decide)⟩

/-! ## Two tasks inside of system calls -/

/-- The current task is inside of a system call and switches to a task that is inside of one,
too. This one finishes its call and goes on in user mode; its next system call, if no switch comes
in between, is not on its own kernel stack but on that of the task that switched to it: the frame
of this waiting task is overwritten with the registers of the other. -/
theorem second_call_on_foreign_stack {a b : ι} {flags : Nat} (hs : s.Ok L) (hb : s.current = b)
    (hcall : s.inCall b = true) (hon : s.OnStack L) (hne : a ≠ b) (ha : s.inCall a = true) :
    ∃ s₁, s.step L (.switch (some b) a rip) = some s₁ ∧
      ∀ c₁, s₁.Behaves L (.runs c₁) →
      ∃ s₂, step L { s₁ with cpu := c₁ } .leave = some s₂ ∧
        ∀ c₂, s₂.Behaves L (.runs c₂) →
        ∃ s₃, step L { s₂ with cpu := c₂ } (.enter rip' flags) = some s₃ ∧ s₃.current = a ∧
          s₃.waiting b ≠ none ∧ s₃.inCall b = true ∧ s₃.rsp = L.top b - 128 ∧
          loadAll s₃.cpu.mem (L.top b - 128) 16 = frameRegs.map (trapped c₂ rip' flags).regs := by
  subst hb
  obtain ⟨⟨c, rip₁⟩, hwait⟩ := Option.ne_none_iff_exists'.mp ((hs.inCall a ha).resolve_left hne)
  obtain ⟨s₁, h₁, hres, -⟩ := hs.switch rip hon
    (show ∀ u ∈ some s.current, u = s.current by simp) hwait
  refine ⟨s₁, h₁, fun c₁ hc₁ => ?_⟩
  obtain ⟨s₂, h₂, -, -, hmem₂, -, hkernel₂, hcur₂, hwait₂, hcall₂⟩ :=
    step_leave (L := L) (s := { s₁ with cpu := c₁ })
  refine ⟨s₂, h₂, fun c₂ hc₂ => ?_⟩
  have hne₁ : s.current ≠ s₁.current := by
    rw [hres.current]
    exact hne.symm
  have hne₂ : s.current ≠ s₂.current := by
    rw [hcur₂]
    exact hne₁
  -- `KERNEL_GS_BASE` is what `GS_BASE` was during the first of the two calls
  have hkernel : c₂.kernelGsBase = L.scratch s.current := by
    rw [hc₂.2.1, hkernel₂]
    show c₁.gsBase = _
    rw [hc₁.1, hres.gsBase, (hs.gs.inside hcall).1]
  have htop : c₂.mem (c₂.kernelGsBase + 8) = L.top s.current := by
    have hown := L.owner_kernelRsp s.current
    have hapart := L.apart s.current
    obtain ⟨hlow, hhigh⟩ := hon
    rw [hkernel]
    show c₂.mem (L.kernelRspField s.current) = _
    rw [hc₂.2.2.1 _ hne₂ _ hown, hmem₂]
    show c₁.mem (L.kernelRspField s.current) = _
    rw [hc₁.2.2.1 _ hne₁ _ hown, hres.mem, outgoing_out (by simp) (by omega) (by omega) (by omega),
      hs.kernelRsp _ (.inl rfl)]
  have h₃ : step L { s₂ with cpu := c₂ } (.enter rip' flags) = some _ := step_enter htop
  refine ⟨_, h₃, hcur₂.trans hres.current, ?_, ?_, ?_, frame_saved⟩
  · show s₂.waiting s.current ≠ none
    rw [hwait₂]
    show s₁.waiting s.current ≠ none
    rw [hres.waiting, update_of_ne hne.symm, stored, update_self]
    exact nofun
  · show update s₂.inCall s₂.current true s.current = true
    rw [update_of_ne hne₂, hcall₂]
    show update s₁.inCall s₁.current false s.current = true
    rw [update_of_ne hne₁, hres.inCall, update_self, hcall, decide_eq_true rfl]
    rfl
  · rw [rsp]
    exact saved_rsp

/-- Both tasks are inside of a call. -/
theorem second_call_on_foreign_stack_pair : ∃ s₁ s₂ s₃,
    (pair true).step twoTasks (.switch (some false) true 0x3000) = some s₁ ∧
    s₁.step twoTasks .leave = some s₂ ∧
    s₂.step twoTasks (.enter 0x400030 0x202) = some s₃ ∧ s₃.current = true ∧
    s₃.rsp = twoTasks.top false - 128 := by
  have hok : ∀ s : Machine Bool, s.Behaves twoTasks (.runs s.cpu) :=
    fun _ => ⟨rfl, rfl, fun _ _ _ _ => rfl, rfl⟩
  obtain ⟨s₁, h₁, hrest⟩ := second_call_on_foreign_stack (a := true) (b := false) (pair_ok true)
    rfl rfl (pair_onStack true) (by decide) rfl
  obtain ⟨s₂, h₂, hrest⟩ := hrest s₁.cpu (hok s₁)
  obtain ⟨s₃, h₃, hcur, -, -, hrsp, -⟩ := hrest s₂.cpu (hok s₂)
  exact ⟨s₁, s₂, s₃, h₁, h₂, h₃, hcur, hrsp⟩

end Machine

end AlaphiOS.Arch
