import Mathlib.Logic.Function.Basic
import Mathlib.Algebra.Group.Nat.Defs

/-!
# A small x86-64

The instructions that a kernel's entry and switch code is made of: pushes and pops, loads and
stores through a register or through `gs`, forward jumps, and the few privileged ones that
such code cannot do without (`swapgs`, `wrmsr`, `mov cr3`, `sysretq`). A program is its list
of instructions; a jump skips to the next matching label, as `1f` does.

A row of pushes and a row of pops are one lemma each: `run_pushes` (the words are on the stack,
the last one lowest) and `run_pops` (the registers are the words on the stack), so a routine that
saves registers and restores them is about lists of words and not about instructions.

Simplifications: of the flags there are `ZF` and `IF`, no access faults, and every access is to
a word of eight bytes at a multiple of eight, so memory is a word at each such address. Addresses
do not wrap.
-/

namespace AlaphiOS.Lib

open Function List

inductive Reg where
  | rax | rbx | rcx | rdx | rsi | rdi | rbp | rsp
  | r8 | r9 | r10 | r11 | r12 | r13 | r14 | r15
  deriving DecidableEq

/-- The word at each address. -/
abbrev Words := Nat → Nat

/-- Registers, flags and memory. -/
structure Cpu where
  regs : Reg → Nat
  zf : Bool
  /-- `IF`. -/
  interrupts : Bool
  gsBase : Nat
  kernelGsBase : Nat
  cr3 : Nat
  mem : Words

/-- The instructions in use. -/
inductive Instr where
  | push (r : Reg)
  | pushGs (off : Nat)
  | pop (r : Reg)
  | mov (dst src : Reg)
  | movImm (dst : Reg) (v : Nat)
  | load (dst base : Reg) (off : Nat)
  | store (base : Reg) (off : Nat) (src : Reg)
  | loadGs (dst : Reg) (off : Nat)
  | storeGs (off : Nat) (src : Reg)
  | lea (dst base : Reg) (off : Nat)
  | shr (dst : Reg) (count : Nat)
  | test (r s : Reg)
  | cmp (r s : Reg)
  /-- `jz` and `je`. -/
  | jz (label : Nat)
  | label (l : Nat)
  | readCr3 (dst : Reg)
  | writeCr3 (src : Reg)
  | wrmsr
  | swapgs
  | ret
  | sysretq
  deriving DecidableEq

/-- How a program is left. -/
inductive Exit where
  | ret (rip : Nat)
  | sysret (rip flags : Nat)

/-- What one instruction comes to. -/
inductive Next where
  | next (c : Cpu)
  | jump (label : Nat) (c : Cpu)
  | exit (e : Exit) (c : Cpu)

/-- What a program comes to: its end, or an exit. -/
inductive Outcome where
  | fell (c : Cpu)
  | exit (e : Exit) (c : Cpu)

/-- `IA32_KERNEL_GS_BASE`. -/
def kernelGsMsr : Nat := 0xC0000102

namespace Cpu

def set (c : Cpu) (r : Reg) (v : Nat) : Cpu := { c with regs := update c.regs r v }

def store (c : Cpu) (a v : Nat) : Cpu := { c with mem := update c.mem a v }

def push (c : Cpu) (v : Nat) : Cpu := (c.set .rsp (c.regs .rsp - 8)).store (c.regs .rsp - 8) v

/-- A `pop rsp` leaves the word that was popped. -/
def pop (c : Cpu) (r : Reg) : Cpu := (c.set .rsp (c.regs .rsp + 8)).set r (c.mem (c.regs .rsp))

def swapgs (c : Cpu) : Cpu := { c with gsBase := c.kernelGsBase, kernelGsBase := c.gsBase }

/-- `EDX:EAX`. -/
def edxEax (c : Cpu) : Nat := c.regs .rdx % 2 ^ 32 * 2 ^ 32 + c.regs .rax % 2 ^ 32

/-- Only one of the model-specific registers is there. -/
def wrmsr (c : Cpu) : Option Cpu :=
  if c.regs .rcx = kernelGsMsr then some { c with kernelGsBase := c.edxEax } else none

end Cpu

/-- Execute an instruction. -/
def Instr.step (c : Cpu) : Instr → Option Next
  | .push r => some (.next (c.push (c.regs r)))
  | .pushGs off => some (.next (c.push (c.mem (c.gsBase + off))))
  | .pop r => some (.next (c.pop r))
  | .mov dst src => some (.next (c.set dst (c.regs src)))
  | .movImm dst v => some (.next (c.set dst v))
  | .load dst base off => some (.next (c.set dst (c.mem (c.regs base + off))))
  | .store base off src => some (.next (c.store (c.regs base + off) (c.regs src)))
  | .loadGs dst off => some (.next (c.set dst (c.mem (c.gsBase + off))))
  | .storeGs off src => some (.next (c.store (c.gsBase + off) (c.regs src)))
  | .lea dst base off => some (.next (c.set dst (c.regs base + off)))
  | .shr dst count =>
    let v := c.regs dst / 2 ^ count
    some (.next { c.set dst v with zf := v == 0 })
  | .test r s => some (.next { c with zf := (c.regs r &&& c.regs s) == 0 })
  | .cmp r s => some (.next { c with zf := c.regs r == c.regs s })
  | .jz l => some (if c.zf then .jump l c else .next c)
  | .label _ => some (.next c)
  | .readCr3 dst => some (.next (c.set dst c.cr3))
  | .writeCr3 src => some (.next { c with cr3 := c.regs src })
  | .wrmsr => c.wrmsr.map .next
  | .swapgs => some (.next c.swapgs)
  | .ret => some (.exit (.ret (c.mem (c.regs .rsp))) (c.set .rsp (c.regs .rsp + 8)))
  | .sysretq => some (.exit (.sysret (c.regs .rcx) (c.regs .r11)) c)

/-- Run a program; with a label, from this label on. -/
def runs : Option Nat → List Instr → Cpu → Option Outcome
  | none, [], c => some (.fell c)
  | some _, [], _ => none
  | some l, i :: is, c => runs (if i = .label l then none else some l) is c
  | none, i :: is, c =>
    match i.step c with
    | none => none
    | some (.next c) => runs none is c
    | some (.jump l c) => runs (some l) is c
    | some (.exit e c) => some (.exit e c)

/-! ## Rows of words -/

/-- Store the words from `a` on. -/
def storeAll (m : Words) (a : Nat) : List Nat → Words
  | [] => m
  | w :: ws => storeAll (update m a w) (a + 8) ws

/-- The `n` words from `a` on. -/
def loadAll (m : Words) (a : Nat) : Nat → List Nat
  | 0 => []
  | n + 1 => m a :: loadAll m (a + 8) n

variable {m : Words} {a n w : Nat} {ws : List Nat}

/-- Words outside stay. -/
theorem storeAll_out {x : Nat} (h : x < a ∨ a + 8 * ws.length ≤ x) : storeAll m a ws x = m x := by
  induction ws generalizing m a with
  | nil => rfl
  | cons w ws ih =>
    rw [length_cons] at h
    have hne : x ≠ a := by omega
    rw [storeAll, ih (by omega), update_of_ne hne]

theorem storeAll_concat :
    storeAll m a (ws ++ [w]) = storeAll (update m (a + 8 * ws.length) w) a ws := by
  induction ws generalizing m a with
  | nil => rfl
  | cons v ws ih =>
    have hne : a ≠ a + 8 * (ws.length + 1) := by omega
    rw [cons_append, storeAll, storeAll, ih, length_cons,
      show a + 8 + 8 * ws.length = a + 8 * (ws.length + 1) by omega, update_comm hne]

theorem loadAll_congr {m' : Words} (h : (∀ x, a ≤ x → x < a + 8 * n → m' x = m x)) :
    loadAll m' a n = loadAll m a n := by
  induction n generalizing a with
  | zero => rfl
  | succ n ih =>
    rw [loadAll, loadAll, h a (by omega) (by omega), ih fun x hlo hhi => h x (by omega) (by omega)]

/-- What was stored is loaded. -/
theorem loadAll_storeAll : loadAll (storeAll m a ws) a ws.length = ws := by
  induction ws generalizing m a with
  | nil => rfl
  | cons w ws ih =>
    rw [length_cons, loadAll, storeAll, ih, storeAll_out (by omega), update_self]

theorem loadAll_concat : loadAll m a (n + 1) = loadAll m a n ++ [m (a + 8 * n)] := by
  induction n generalizing a with
  | zero => rfl
  | succ n ih =>
    rw [loadAll, ih, loadAll, cons_append, show a + 8 + 8 * n = a + 8 * (n + 1) by omega]

/-! ## Rows of pushes and pops -/

/-- The words are below the stack pointer, the last one lowest, and the stack pointer is at the
last one. -/
def Cpu.pushAll (c : Cpu) (ws : List Nat) : Cpu :=
  { c with
    regs := update c.regs .rsp (c.regs .rsp - 8 * ws.length)
    mem := storeAll c.mem (c.regs .rsp - 8 * ws.length) ws.reverse }

variable {c : Cpu} (js : List Instr)

theorem regs_push {v : Nat} : (c.push v).regs = update c.regs .rsp (c.regs .rsp - 8) := rfl

theorem regs_pop {r : Reg} : (c.pop r).regs
    = update (update c.regs .rsp (c.regs .rsp + 8)) r (c.mem (c.regs .rsp)) := rfl

theorem pushAll_push (h : 8 * (ws.length + 1) ≤ c.regs .rsp) :
    (c.push w).pushAll ws = c.pushAll (w :: ws) := by
  have hrsp : (c.push w).regs .rsp = c.regs .rsp - 8 := by rw [regs_push, update_self]
  have hat : c.regs .rsp - 8 * (ws.length + 1) + 8 * ws.length = c.regs .rsp - 8 := by omega
  unfold Cpu.pushAll
  rw [hrsp, Nat.sub_sub, Nat.add_comm 8, length_cons, reverse_cons, storeAll_concat,
    length_reverse, show 8 * ws.length + 8 = 8 * (ws.length + 1) by omega, hat]
  simp only [Cpu.push, Cpu.set, Cpu.store, update_idem]

/-- A row of pushes is one store. -/
theorem run_pushes {rs : List Reg} (h : .rsp ∉ rs) (hroom : 8 * rs.length ≤ c.regs .rsp) :
    runs none (rs.map .push ++ js) c = runs none js (c.pushAll (rs.map c.regs)) := by
  induction rs generalizing c with
  | nil =>
    show runs none js c = runs none js { c with regs := update c.regs .rsp (c.regs .rsp) }
    rw [update_eq_self]
  | cons r rs ih =>
    have h := not_mem_of_not_mem_cons h
    rw [length_cons] at hroom
    have hrsp : (c.push (c.regs r)).regs .rsp = c.regs .rsp - 8 := by
      rw [regs_push, update_self]
    have hsame : rs.map (c.push (c.regs r)).regs = rs.map c.regs := by
      refine map_congr_left fun s hs => update_of_ne (fun heq => h ?_) ..
      rwa [← heq]
    show runs none (rs.map .push ++ js) (c.push (c.regs r)) = _
    rw [ih h (by omega), hsame, pushAll_push (by rw [length_map]; exact hroom), map_cons]

/-- The registers are the words on the stack; the others stay. -/
theorem run_pops (rs : List Reg) (hnodup : rs.Nodup) (h : .rsp ∉ rs) :
    ∃ regs, runs none (rs.map .pop ++ js) c = runs none js { c with regs := regs } ∧
      rs.map regs = loadAll c.mem (c.regs .rsp) rs.length ∧
      regs .rsp = c.regs .rsp + 8 * rs.length ∧ ∀ s, s ∉ rs → s ≠ .rsp → regs s = c.regs s := by
  induction rs generalizing c with
  | nil => exact ⟨c.regs, rfl, rfl, rfl, fun _ _ _ => rfl⟩
  | cons r rs ih =>
    obtain ⟨hr, hnodup⟩ := nodup_cons.mp hnodup
    have hne := ne_of_not_mem_cons h
    have h := not_mem_of_not_mem_cons h
    have hrsp : (c.pop r).regs .rsp = c.regs .rsp + 8 := by
      rw [regs_pop, update_of_ne hne, update_self]
    have hother : ∀ s, s ≠ r → s ≠ .rsp → (c.pop r).regs s = c.regs s := by
      intro s hs hs'
      rw [regs_pop, update_of_ne hs, update_of_ne hs']
    obtain ⟨regs, hrun, hwords, hend, hrest⟩ := ih (c := c.pop r) hnodup h
    refine ⟨regs, hrun, ?_, ?_, ?_⟩
    · have hhead : regs r = c.mem (c.regs .rsp) := (hrest r hr hne.symm).trans (update_self ..)
      rw [map_cons, hhead, hwords, hrsp, length_cons, loadAll]
      rfl
    · rw [hend, hrsp, length_cons]
      omega
    · intro s hs hs'
      rw [hrest s (not_mem_of_not_mem_cons hs) hs', hother s (ne_of_not_mem_cons hs) hs']

end AlaphiOS.Lib
