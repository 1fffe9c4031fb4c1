import AlaphiOS.Lib.Asm

/-!
# The context switch

`switch_to` of `kernel/src/arch/context.rs`, instruction by instruction.

`run_switchTo` is all that is used of the code: the six callee-saved registers are below the
outgoing stack pointer, which is in the outgoing `Task`, and the registers, the return address
and the stack pointer are those of the incoming `Task`. `CR3` is its, unless that is 0, and
`KERNEL_GS_BASE` points to its `scratch`. `IF` and `GS_BASE` are nobody's: they stay as they were.

Mirroring notes:
- `offset_of!` is three numbers of the `Layout`, about which nothing is known but that the
  fields do not overlap.
- That a `Task` and its stack belong to it alone is `owner`: it says whose word it is.
- Records and kernel stacks are in the kernel half, which is mapped alike in every address
  space, so `mov cr3` does not change the memory here.
-/

namespace AlaphiOS.Arch

open Lib Function

/-! ## Where tasks are -/

/-- `KERNEL_STACK_SIZE`. -/
def kernelStackSize : Nat := 64 * 1024

/-- `GUARD_SIZE`. -/
def guardSize : Nat := 4096

/-- The `Task`s and their kernel stacks in memory. -/
structure Layout (ι : Type) where
  /-- `offset_of!(Task, rsp)`. -/
  rspOff : Nat
  /-- `offset_of!(Task, cr3)`. -/
  cr3Off : Nat
  /-- `offset_of!(Task, scratch)`. -/
  scratchOff : Nat
  /-- The address of the `Task`. -/
  task : ι → Nat
  /-- The address of `kernel_stack`. -/
  kernelStack : ι → Nat
  owner : Nat → Option ι
  task_pos : ∀ t, 0 < task t
  scratch_lt : ∀ t, task t + scratchOff < 2 ^ 64
  fields_nodup : [rspOff, cr3Off, scratchOff, scratchOff + 8].Nodup
  owner_field : ∀ t, ∀ off ∈ [rspOff, cr3Off, scratchOff, scratchOff + 8],
    owner (task t + off) = some t
  owner_stack : ∀ t a, kernelStack t ≤ a → a < kernelStack t + (kernelStackSize + guardSize) →
    owner a = some t
  field_stack : ∀ t, ∀ off ∈ [rspOff, cr3Off, scratchOff, scratchOff + 8],
    task t + off < kernelStack t ∨ kernelStack t + (kernelStackSize + guardSize) ≤ task t + off

namespace Layout

variable {ι : Type} (L : Layout ι)

/-- The lowest word above the guard. -/
def stack (t : ι) : Nat := L.kernelStack t + guardSize

/-- The top of the stack, as `alloc_kernel_stack` returns it. -/
def top (t : ι) : Nat := (L.kernelStack t + (kernelStackSize + guardSize)) / 16 * 16

/-- The address of the field `rsp`. -/
def rspField (t : ι) : Nat := L.task t + L.rspOff

/-- The address of the field `cr3`. -/
def cr3Field (t : ι) : Nat := L.task t + L.cr3Off

/-- The address of the field `scratch`, which is that of `user_rsp_scratch`. -/
def scratch (t : ι) : Nat := L.task t + L.scratchOff

/-- The address of `scratch.kernel_rsp`. -/
def kernelRspField (t : ι) : Nat := L.scratch t + 8

/-- The stack has 64 KiB, up to the alignment of its top. -/
theorem stack_room (t : ι) : L.stack t + 65520 ≤ L.top t := by
  unfold stack top kernelStackSize guardSize
  omega

end Layout

/-! ## `switch_to` -/

/-- The registers that a function leaves as they were, in the order in which `switch_to`
pushes them. -/
def calleeSaved : List Reg := [.rbx, .rbp, .r12, .r13, .r14, .r15]

section

variable {ι : Type} (L : Layout ι)

/-- From the outgoing stack to the incoming one. -/
def swapStacks : List Instr :=
  [.test .rdi .rdi,
    .jz 1,
    .store .rdi L.rspOff .rsp,
    .label 1,
    .load .rsp .rsi L.rspOff]

/-- The address space of the incoming task. -/
def loadCr3 : List Instr :=
  [.load .rax .rsi L.cr3Off,
    .test .rax .rax,
    .jz 2,
    .readCr3 .rcx,
    .cmp .rax .rcx,
    .jz 2,
    .writeCr3 .rax,
    .label 2]

/-- Its `KERNEL_GS_BASE`. -/
def loadGs : List Instr :=
  [.lea .rax .rsi L.scratchOff,
    .mov .rdx .rax,
    .shr .rdx 32,
    .movImm .rcx 0xC0000102,
    .wrmsr]

/-- `switch_to(outgoing, incoming)`, with `outgoing` in `rdi` and `incoming` in `rsi`. -/
def switchTo : List Instr :=
  [.push .rbx, .push .rbp, .push .r12, .push .r13, .push .r14, .push .r15] ++
    (swapStacks L ++ (loadCr3 L ++ (loadGs L ++
      [.pop .r15, .pop .r14, .pop .r13, .pop .r12, .pop .rbp, .pop .rbx, .ret])))

variable {L} {c : Cpu} (js : List Instr)

/-- The memory once `rsp` is stored, if there is an outgoing task. -/
def storeRsp (L : Layout ι) (c : Cpu) : Words :=
  if c.regs .rdi = 0 then c.mem else update c.mem (c.regs .rdi + L.rspOff) (c.regs .rsp)

theorem run_swapStacks : runs none (swapStacks L ++ js) c = runs none js
    (Cpu.set { c with zf := c.regs .rdi == 0, mem := storeRsp L c } .rsp
      (storeRsp L c (c.regs .rsi + L.rspOff))) := by
  by_cases h : c.regs .rdi = 0
  · simp [swapStacks, storeRsp, runs, Instr.step, h]
  · simp [swapStacks, storeRsp, runs, Instr.step, Cpu.store, h]

/-- What `CR3` is with the `Task` at `rsi` incoming. -/
def incomingCr3 (L : Layout ι) (c : Cpu) : Nat :=
  if c.mem (c.regs .rsi + L.cr3Off) = 0 then c.cr3 else c.mem (c.regs .rsi + L.cr3Off)

/-- `loadCr3` works on `rax`, `rcx` and `CR3`. -/
theorem run_loadCr3 : ∃ rax rcx zf, runs none (loadCr3 L ++ js) c = runs none js
    { c with
      regs := update (update c.regs .rax rax) .rcx rcx
      zf := zf
      cr3 := incomingCr3 L c } := by
  unfold incomingCr3
  by_cases hzero : c.mem (c.regs .rsi + L.cr3Off) = 0
  · refine ⟨0, c.regs .rcx, true, ?_⟩
    have hrcx : update (update c.regs .rax 0) .rcx (c.regs .rcx)
        = update c.regs .rax 0 := update_eq_self_iff.mpr rfl
    simp [loadCr3, runs, Instr.step, Cpu.set, hzero, hrcx]
  refine ⟨c.mem (c.regs .rsi + L.cr3Off), c.cr3, c.mem (c.regs .rsi + L.cr3Off) == c.cr3, ?_⟩
  by_cases hsame : c.mem (c.regs .rsi + L.cr3Off) = c.cr3
  · rw [hsame] at hzero
    simp [loadCr3, runs, Instr.step, Cpu.set, hzero, hsame]
  · simp [loadCr3, runs, Instr.step, Cpu.set, hzero, hsame]

/-- The two halves of `rsi + scratch_off` are one again in `KERNEL_GS_BASE`. -/
theorem run_loadGs (hlt : c.regs .rsi + L.scratchOff < 2 ^ 64) :
    ∃ rax rdx rcx zf, runs none (loadGs L ++ js) c = runs none js
      { c with
        regs := update (update (update c.regs .rax rax) .rdx rdx) .rcx rcx
        zf := zf
        kernelGsBase := c.regs .rsi + L.scratchOff } := by
  have hgs : (c.regs .rsi + L.scratchOff) / 2 ^ 32 % 2 ^ 32 * 2 ^ 32 +
      (c.regs .rsi + L.scratchOff) % 2 ^ 32 = c.regs .rsi + L.scratchOff := by omega
  refine ⟨c.regs .rsi + L.scratchOff, (c.regs .rsi + L.scratchOff) / 2 ^ 32, 0xC0000102,
    (c.regs .rsi + L.scratchOff) / 2 ^ 32 == 0, ?_⟩
  simp only [Nat.reducePow] at hgs
  simp [loadGs, runs, Instr.step, Cpu.set, Cpu.wrmsr, Cpu.edxEax, kernelGsMsr, hgs]

/-- What `switch_to` comes to: with `m` the memory once the outgoing task is stored, the words of
the incoming one are at `rsp`. -/
structure Switched (L : Layout ι) (c : Cpu) (m : Words) (rsp rip : Nat) (d : Cpu) : Prop where
  mem : d.mem = m
  words : calleeSaved.reverse.map d.regs ++ [rip] = loadAll m rsp 7
  rsp : d.regs .rsp = rsp + 56
  cr3 : d.cr3 = incomingCr3 L { c with mem := m }
  gsBase : d.gsBase = c.gsBase
  kernelGsBase : d.kernelGsBase = c.regs .rsi + L.scratchOff
  interrupts : d.interrupts = c.interrupts

theorem run_switchTo (m : Words) (hroom : 48 ≤ c.regs .rsp)
    (hlt : c.regs .rsi + L.scratchOff < 2 ^ 64)
    (hm : storeRsp L (c.pushAll (calleeSaved.map c.regs)) = m) :
    ∃ rip d, runs none (switchTo L) c = some (.exit (.ret rip) d) ∧
      Switched L c m (m (c.regs .rsi + L.rspOff)) rip d := by
  have hcode : switchTo L = calleeSaved.map .push ++ (swapStacks L ++ (loadCr3 L ++ (loadGs L ++
      (calleeSaved.reverse.map .pop ++ [.ret])))) := rfl
  have hrsi : (c.pushAll (calleeSaved.map c.regs)).regs .rsi = c.regs .rsi := rfl
  rw [hcode, run_pushes _ (by decide) (by exact hroom), run_swapStacks, hm, hrsi]
  generalize hc₁ : Cpu.set _ .rsp (m (c.regs .rsi + L.rspOff)) = c₁
  obtain ⟨rax, rcx, zf, h₂⟩ := run_loadCr3 (L := L) (c := c₁)
    (loadGs L ++ (calleeSaved.reverse.map .pop ++ [.ret]))
  rw [h₂]
  generalize hc₂ : Cpu.mk (update (update c₁.regs .rax rax) .rcx rcx) .. = c₂
  obtain ⟨rax', rdx, rcx', zf', h₃⟩ := run_loadGs (L := L) (c := c₂)
    (calleeSaved.reverse.map .pop ++ [.ret]) (by rw [← hc₂, ← hc₁]; exact hlt)
  rw [h₃]
  generalize hc₃ : Cpu.mk _ zf' .. = c₃
  obtain ⟨regs, h₄, hwords, hend, -⟩ := run_pops [.ret] calleeSaved.reverse (c := c₃) (by decide)
    (by decide)
  rw [h₄]
  subst hc₃ hc₂ hc₁
  have hrsp : regs .rsp = m (c.regs .rsi + L.rspOff) + 48 := hend
  refine ⟨_, _, rfl, rfl, ?_, ?_, rfl, rfl, rfl, rfl⟩
  · rw [loadAll_concat]
    show _ ++ [m (regs .rsp)] = _
    rw [hrsp]
    exact congrArg (· ++ [_]) hwords
  · show regs .rsp + 8 = _
    rw [hrsp]

end

end AlaphiOS.Arch
