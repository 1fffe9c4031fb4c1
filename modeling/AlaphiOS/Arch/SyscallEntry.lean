import AlaphiOS.Arch.Context

/-!
# Entering and leaving a system call

`syscall_entry` of `kernel/src/arch/syscall.rs`, in the three pieces that its two calls leave:
`saveFrame` puts the user's registers on the kernel stack as a `TrapFrame`, `storeResult` puts
the return value of `syscall_handler` into it, and `restoreFrame` makes the registers what the
frame says and leaves the kernel.

The pushes and the pops go through the fields of `TrapFrame` in opposite orders, so a frame in
memory and the registers of the user program are the same sixteen words (`frameRegs`).

Mirroring notes:
- The `syscall` instruction has put `rip` into `rcx` and the flags into `r11`; both are plain
  registers here.
- `GS_BASE` and `KERNEL_GS_BASE` are what `swapgs` swaps. The frame goes to the stack that
  the `PerCpuScratch` at `KERNEL_GS_BASE` names, whosever it is.
-/

namespace AlaphiOS.Arch

open Lib Function

/-- Up to the call of the handler. -/
def saveFrame : List Instr :=
  [.swapgs,
    .storeGs 0 .rsp,
    .loadGs .rsp 8,
    .pushGs 0,
    .push .rax,
    .push .rcx,
    .push .rdx,
    .push .rsi,
    .push .rdi,
    .push .r8,
    .push .r9,
    .push .r10,
    .push .r11,
    .push .rbx,
    .push .rbp,
    .push .r12,
    .push .r13,
    .push .r14,
    .push .r15,
    .mov .rdi .rax,
    .mov .rsi .rsp]

/-- The handler's result goes into the frame. -/
def storeResult : List Instr := [.store .rsp 112 .rax, .mov .rdi .rsp]

/-- From the frame back to user mode. -/
def restoreFrame : List Instr :=
  [.pop .r15,
    .pop .r14,
    .pop .r13,
    .pop .r12,
    .pop .rbp,
    .pop .rbx,
    .pop .r11,
    .pop .r10,
    .pop .r9,
    .pop .r8,
    .pop .rdi,
    .pop .rsi,
    .pop .rdx,
    .pop .rcx,
    .pop .rax,
    .pop .rsp,
    .swapgs,
    .sysretq]

/-- The registers that `saveFrame` pushes, the last one first. -/
def pushed : List Reg :=
  [.r15, .r14, .r13, .r12, .rbp, .rbx, .r11, .r10, .r9, .r8, .rdi, .rsi, .rdx, .rcx, .rax]

/-- The fields of `TrapFrame`; the last of them is `user_rsp`. -/
def frameRegs : List Reg := pushed ++ [.rsp]

theorem mem_frameRegs (r : Reg) : r ∈ frameRegs := by
  cases r <;> decide

variable {c : Cpu} {top : Nat}

/-- What `saveFrame` comes to, with the stack at `top`. -/
def saved (c : Cpu) (top : Nat) : Cpu :=
  { c with
    regs := update (update (update c.regs .rsp (top - 128))
      .rdi (c.regs .rax)) .rsi (top - 128)
    gsBase := c.kernelGsBase
    kernelGsBase := c.gsBase
    mem := storeAll (update c.mem c.kernelGsBase (c.regs .rsp)) (top - 128)
      (frameRegs.map c.regs) }

/-- The stack is changed to `top`, and the user's stack pointer is in the `PerCpuScratch`. -/
def onKernelStack (c : Cpu) (top : Nat) : Cpu :=
  { c with
    regs := update c.regs .rsp top
    gsBase := c.kernelGsBase
    kernelGsBase := c.gsBase
    mem := update c.mem c.kernelGsBase (c.regs .rsp) }

theorem run_saveFrame (htop : c.mem (c.kernelGsBase + 8) = top) (hroom : 128 ≤ top) :
    runs none saveFrame c = some (.fell (saved c top)) := by
  have hcode : saveFrame = [.swapgs, .storeGs 0 .rsp, .loadGs .rsp 8, .pushGs 0] ++
      (pushed.reverse.map .push ++ [.mov .rdi .rax, .mov .rsi .rsp]) := rfl
  have hentry : runs none saveFrame c = runs none
      (pushed.reverse.map .push ++ [.mov .rdi .rax, .mov .rsi .rsp])
      ((onKernelStack c top).push (c.regs .rsp)) := by
    rw [hcode]
    simp [runs, Instr.step, Cpu.swapgs, Cpu.store, Cpu.set, onKernelStack, htop]
  have hregs : pushed.reverse.map ((onKernelStack c top).push (c.regs .rsp)).regs
      = pushed.reverse.map c.regs := rfl
  have hrsp : ((onKernelStack c top).push (c.regs .rsp)).regs .rsp = top - 8 := rfl
  -- one row of pushes, the user's stack pointer first
  rw [hentry, run_pushes _ (by decide) (by rw [hrsp]; show 120 ≤ top - 8; omega), hregs,
    pushAll_push (by exact hroom)]
  show some (Outcome.fell _) = _
  have hlen : 8 * (c.regs .rsp :: pushed.reverse.map c.regs).length = 128 := rfl
  have hwords : (c.regs .rsp :: pushed.reverse.map c.regs).reverse = frameRegs.map c.regs := rfl
  simp only [Cpu.pushAll, Cpu.set, hlen, hwords, onKernelStack, update_idem, saved]
  rfl

theorem saved_rsp : (saved c top).regs .rsp = top - 128 := by
  simp [saved]

theorem frame_saved : loadAll (saved c top).mem (top - 128) 16 = frameRegs.map c.regs := by
  have hlen : (frameRegs.map c.regs).length = 16 := rfl
  rw [← hlen]
  exact loadAll_storeAll

/-- What `restoreFrame` comes to. -/
theorem run_restoreFrame :
    ∃ d, runs none restoreFrame c = some (.exit (.sysret (d.regs .rcx) (d.regs .r11)) d) ∧
      frameRegs.map d.regs = loadAll c.mem (c.regs .rsp) 16 ∧ d.mem = c.mem ∧
      d.gsBase = c.kernelGsBase ∧ d.kernelGsBase = c.gsBase := by
  have hcode : restoreFrame = pushed.map .pop ++ [.pop .rsp, .swapgs, .sysretq] := rfl
  obtain ⟨regs, hrun, hwords, hrsp, -⟩ := run_pops [.pop .rsp, .swapgs, .sysretq] pushed (c := c)
    (by decide) (by decide)
  rw [hcode, hrun]
  refine ⟨_, rfl, ?_, rfl, rfl, rfl⟩
  have hlast : c.mem (regs .rsp) = c.mem (c.regs .rsp + 8 * 15) := congrArg c.mem hrsp
  rw [loadAll_concat, ← hlast]
  exact congrArg (· ++ [c.mem (regs .rsp)]) hwords

/-- A store to the fifteenth word of a frame. -/
theorem loadAll_storeResult {m : Words} {a v : Nat} {regs : Reg → Nat}
    (h : loadAll m a 16 = frameRegs.map regs) :
    loadAll (update m (a + 112) v) a 16 = frameRegs.map (update regs .rax v) := by
  have hframe : frameRegs.map (update regs .rax v)
      = (frameRegs.map regs).set 14 v := rfl
  rw [hframe, ← h]
  simp [loadAll, Nat.add_assoc]

end AlaphiOS.Arch
