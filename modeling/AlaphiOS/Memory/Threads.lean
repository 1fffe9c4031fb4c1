import AlaphiOS.Memory.SwapSafety

/-!
# Threads and their address space

`Task::clone_thread` (`kernel/src/process/task.rs`) as `SYS_CLONE` uses it. A thread has the
`cr3` of the task that makes it, and so the same page tables, but a `Vmm` of its own without
areas and without records, and a break of its own at 0.

What a fault puts in place of the page is decided by the task's records alone: the slot of the
page, or the area at the address (`Vmm.supply`). So of two tasks with one `cr3` the faults come to
the same exactly if the records supply the same, or if there is no frame for either
(`handleFault_supply`). A thread starts with no records, and as long as it makes no `SYS_BRK` and
nothing is evicted on its account this stays so (`threadStep_bare`): not one of its faults is
handled (`bare_fault`), whatever the other tasks of the process have. The break of a task is the
last one it asked for itself (`exec_break`).
-/

namespace AlaphiOS.Memory

open Lib Option

variable {T : PageTables}

/-- `SYS_CLONE` with `CLONE_VM`. -/
def sysClone (s : Machine T) (i : Nat) : Option (Machine T) := do
  let sp ← s.spaces[i]?
  some { s with spaces := s.spaces ++ [⟨sp.root, Vmm.new, 0, 0⟩] }

/-- The same steps, and `SYS_CLONE`. -/
inductive ThreadOp where
  | mem (op : MemOp)
  | clone (i : Nat)

/-- One of them. -/
def threadStep (s : Machine T) : ThreadOp → Option (Machine T)
  | .mem op => memStep s op
  | .clone i => sysClone s i

/-! ## What a fault comes to -/

/-- The bytes and the flags of a page. -/
abbrev PageImage := (Fin 4096 → UInt8) × PageTableFlags

/-- What a page holds, where it is mapped. -/
def Shared.pageAt (c : Shared T) (root page : Nat) : Option PageImage :=
  (c.leaf root page).map fun e => (fun k => c.mem (frameAddr e.frame + k), e.flags)

/-- What a page fault of task `i` comes to: whether it is handled, and the contents and the flags
of the page afterwards. -/
def faultOutcome (s : Machine T) (i addr : Nat) (isWrite : Bool) :
    Option (Bool × Option PageImage) := do
  let sp ← s.spaces[i]?
  let (ok, s') ← pageFault s i addr isWrite
  some (ok, s'.shared.pageAt sp.root (addr / 4096))

/-- The bytes and the flags that the records of a task have for a fault: those of a slot, a copy
of the resident page, or zeros. There are none where the address is in no area, or where the page
is there and may not be written or is not being written. -/
def Vmm.supply (v : Vmm) (c : Shared T) (root addr : Nat) (isWrite : Bool) :
    Option PageImage :=
  match v.swapped (frameAddr (addr / 4096)) with
  | some (slot, flags) => some (fun k => c.swap.slotByte slot k, flags)
  | none =>
    match (v.areas.find? fun a => a.has addr).map VmArea.flags with
    | none => none
    | some flags =>
      match translateAddr c root addr with
      | some phys => if isWrite && flags.writable then some (fun k => c.mem (phys + k), flags) else none
      | none => some (fun _ => 0, flags)

/-- What the records of task `i` have for a fault. -/
def supplyOf (s : Machine T) (i addr : Nat) (isWrite : Bool) :
    Option PageImage :=
  s.spaces[i]?.bind fun sp => sp.vmm.supply s.shared sp.root addr isWrite

/-- The two have the same record of the page, and areas with the same flags at the address. -/
def Vmm.AgreeAt (v v' : Vmm) (addr : Nat) : Prop :=
  v.swapped (frameAddr (addr / 4096)) = v'.swapped (frameAddr (addr / 4096)) ∧
  (v.areas.find? fun a => a.has addr).map VmArea.flags
    = (v'.areas.find? fun a => a.has addr).map VmArea.flags

instance (v v' : Vmm) (addr : Nat) : Decidable (v.AgreeAt v' addr) := by
  unfold Vmm.AgreeAt
  infer_instance

variable {s s' : Machine T} {j : Nat} {op : ThreadOp} {v : Vmm} {sp : Space} {v' : Vmm} {i : Nat}

theorem Vmm.AgreeAt.supply {addr : Nat} (h : v.AgreeAt v' addr) (c : Shared T)
    (root : Nat) (isWrite : Bool) :
    v.supply c root addr isWrite = v'.supply c root addr isWrite := by
  unfold Vmm.supply
  rw [h.1, h.2]

section Supply

variable {c c' : Shared T} {root page addr pages : Nat} {flags : PageTableFlags} {f : Nat}

theorem mapPage_pageAt (h : mapPage c root page ⟨f, flags⟩ = some c') :
    c'.pageAt root page = some (fun k : Fin 4096 => c.mem (frameAddr f + k), flags) := by
  have hleaf := (mapPage_leaf h page).trans (if_pos rfl)
  obtain ⟨_, _, rfl⟩ := mapPage_eq h
  rw [Shared.pageAt, hleaf]
  rfl

/-- A slot that can be read is one of the partition. -/
theorem swapIn_slot_lt {m : Mem} {p : SwapPartition} {slot : Nat} {r : Mem × SwapPartition}
    (hok : p.Ok pages) (h : p.swapIn m slot f = some r) : slot < pages := by
  obtain ⟨m', h, _⟩ := bind_inv h
  obtain ⟨m₁, _, h⟩ := bind_inv h
  obtain ⟨b, h, hb⟩ := bind_inv h
  -- the last of its sectors
  obtain ⟨start, hstart, h⟩ := bind_inv h
  obtain ⟨top, htop, h⟩ := bind_inv h
  obtain ⟨rfl, _⟩ := usizeMul_eq hstart
  obtain ⟨rfl, _⟩ := usizeAdd_eq htop
  split at h
  · cases h
    cases hb
  next hle =>
    rw [hok.disk.size, hok.sectorSize] at hle
    unfold swapSectorSize sectorsPerPage at hle
    omega

/-- A fault that returns has put in place what the records have for it, if there is a frame; and
otherwise it has left the page alone. -/
theorem handleFault_supply {isWrite ok : Bool} (hok : c.swap.Ok pages)
    (h : handleFault v c root addr isWrite = some (ok, v', c')) :
    (ok, c'.pageAt root (addr / 4096)) = if c.frameAllocator.head = none
      then (false, c.pageAt root (addr / 4096))
      else ((v.supply c root addr isWrite).isSome,
        (v.supply c root addr isWrite).or (c.pageAt root (addr / 4096))) := by
  have hnone : ∀ {r : Option PageImage} {c₁ : Shared T}, c.allocate = some (none, c₁) →
      (false, c₁.pageAt root (addr / 4096)) = if c.frameAllocator.head = none
        then (false, c.pageAt root (addr / 4096))
        else (r.isSome, r.or (c.pageAt root (addr / 4096))) := by
    intro r c₁ ha
    obtain ⟨-, hh, rfl⟩ | ⟨⟨_, hr⟩, -⟩ := allocate_head ha
    · rw [if_pos hh]
    · cases hr
  have hsome : ∀ {f : Nat} {x : PageImage} {c₁ : Shared T}, c.allocate = some (some f, c₁) →
      c'.pageAt root (addr / 4096) = some x →
      (true, c'.pageAt root (addr / 4096)) = if c.frameAllocator.head = none
        then (false, c.pageAt root (addr / 4096))
        else ((some x).isSome, (some x).or (c.pageAt root (addr / 4096))) := by
    intro f x c₁ ha hx
    obtain ⟨hr, -⟩ | ⟨-, hh, -⟩ := allocate_head ha
    · cases hr
    · rw [if_neg hh, hx]
      rfl
  unfold handleFault at h
  unfold Vmm.supply
  dsimp only at h
  cases hrec : v.swapped (frameAddr (addr / 4096)) with
  | some r =>
    obtain ⟨slot, flags⟩ := r
    rw [hrec] at h
    obtain ⟨⟨ok₁, c₁⟩, hin, heq⟩ := map_inv h
    cases heq
    rcases swapInPage_inv hin with ⟨rfl, ha⟩ | ⟨rfl, f, c₂, mem, swap, ha, hr, hm⟩
    · exact hnone ha
    · refine hsome ha ((mapPage_pageAt hm).trans ?_)
      obtain ⟨_, rfl⟩ := allocate_eq ha
      rw [SwapPartition.swapIn_spec hok (swapIn_slot_lt hok hr)] at hr
      cases hr
      exact congrArg (fun b => some (b, flags)) (funext fun k => blit_at k.isLt)
  | none =>
    rw [hrec] at h
    dsimp only at h ⊢
    cases harea : v.areas.find? fun a => a.has addr with
    | none =>
      rw [harea] at h
      cases h
      exact (ite_self _).symm
    | some area =>
      rw [harea] at h
      dsimp only [map_some] at h ⊢
      cases ht : translateAddr c root addr with
      | none =>
        rw [ht] at h
        obtain ⟨⟨ok₁, c₁⟩, hz, heq⟩ := map_inv h
        cases heq
        rcases zeroFill_inv hz with ⟨rfl, ha⟩ | ⟨rfl, f, c₂, ha, hm⟩
        · exact hnone ha
        · refine hsome ha ((mapPage_pageAt hm).trans ?_)
          exact congrArg (fun b => some (b, area.flags)) (funext fun k =>
            fill_in (Nat.le_add_right ..) (Nat.add_lt_add_left k.isLt _))
      | some phys =>
        rw [ht] at h
        dsimp only at h ⊢
        -- a page that is there is copied for a write, and for nothing else
        cases hw : isWrite && area.flags.writable with
        | false =>
          rw [← Bool.not_and, hw] at h
          cases h
          exact (ite_self _).symm
        | true =>
          rw [← Bool.not_and, hw] at h
          obtain ⟨⟨ok₁, c₁⟩, hcow, heq⟩ := map_inv h
          cases heq
          rcases copyOnWrite_inv hcow with ⟨rfl, ha⟩ | ⟨rfl, f, c₂, g, c₃, ha, hu, hm⟩
          · exact hnone ha
          · refine hsome ha ((mapPage_pageAt hm).trans ?_)
            obtain ⟨_, rfl⟩ := allocate_eq ha
            obtain ⟨_, _, _, rfl⟩ := unmapPage_inv hu
            exact congrArg (fun b => some (b, area.flags)) (funext fun k =>
              blit_at (f := fun i => c.mem (phys + i)) k.isLt)

end Supply

/-! ## The bookkeeping of one task -/

/-- The task whose bookkeeping an operation may change. -/
def ThreadOp.task : ThreadOp → Option Nat
  | .mem (.fault i _ _) | .mem (.evict i _) | .mem (.brk i _) | .mem (.mprotect i _ _ _) => some i
  | _ => none

/-- An operation leaves the bookkeeping of every other task as it is. -/
theorem threadStep_other
    (hj : s.spaces[j]? = some sp) (hop : op.task ≠ some j) (hstep : threadStep s op = some s') :
    s'.spaces[j]? = some sp := by
  have hput : ∀ {i : Nat} {sp' : Space} {c : Shared T}, some i ≠ some j →
      (s.put i sp' c).spaces[j]? = some sp :=
    fun hne => (Machine.put_getElem_ne fun h => hne (congrArg some h.symm)).trans hj
  match op, hop, hstep with
  | .clone i, _, hstep =>
    obtain ⟨sp, _, hstep⟩ := bind_inv hstep
    cases hstep
    exact getElem_of_added ⟨_, rfl⟩ hj
  | .mem (.load bytes), _, hstep => exact getElem_of_added (loadFlat_spaces hstep) hj
  | .mem (.fork i), _, hstep => exact getElem_of_added (sysFork_spaces hstep) hj
  | .mem (.fault i addr isWrite), hop, hstep =>
    obtain ⟨⟨ok, s₁⟩, hr, rfl⟩ := map_inv hstep
    obtain ⟨_, _, _, _, _, rfl⟩ := pageFault_inv hr
    exact hput hop
  | .mem (.evict i vaddr), hop, hstep =>
    obtain ⟨⟨ok, s₁⟩, hr, rfl⟩ := map_inv hstep
    obtain ⟨_, _, _, _, _, rfl⟩ := evict_inv hr
    exact hput hop
  | .mem (.brk i newBrk), hop, hstep =>
    obtain ⟨⟨ret, s₁⟩, hr, rfl⟩ := map_inv hstep
    exact (sysBrk_other (fun h => hop (congrArg some h.symm)) hr).trans hj
  | .mem (.mprotect i addr len prot), hop, hstep =>
    obtain ⟨⟨ok, s₁⟩, hr, rfl⟩ := map_inv hstep
    rcases sysMprotect_inv hr with ⟨_, rfl⟩ | ⟨_, _, _, _, _, _, _, _, _, _, _, _, _, _, _, _, rfl⟩
    · exact hj
    · exact hput hop
  | .mem (.store i addr byte), _, hstep =>
    obtain ⟨_, _, _, hsp, _⟩ := userStore_inv hstep
    exact (congrArg (·[j]?) hsp).trans hj
  | .mem (.touch i page dirty), _, hstep =>
    obtain ⟨_, _, _, _, _, _, rfl⟩ := touch_inv hstep
    exact hj

/-! ## A thread without bookkeeping -/

/-- Task `j` has neither areas nor records of pages in the swap. -/
def Bare (j : Nat) (s : Machine T) : Prop :=
  ∃ sp, s.spaces[j]? = some sp ∧ sp.vmm.areas = [] ∧ ∀ a, sp.vmm.swapped a = none

/-- A `SYS_BRK` of task `j`, or an eviction of one of its pages. -/
def ThreadOp.Marks (j : Nat) : ThreadOp → Prop
  | .mem (.brk i _) => i = j
  | .mem (.evict i _) => i = j
  | _ => False

theorem sysClone_bare (h : sysClone s i = some s') : Bare s.spaces.length s' := by
  obtain ⟨sp, _, h⟩ := bind_inv h
  cases h
  exact ⟨_, List.getElem?_concat_length, rfl, fun _ => rfl⟩

theorem handleFault_bare (hareas : v.areas = []) (hrec : ∀ a, v.swapped a = none)
    (c : Shared T) (root addr : Nat) (isWrite : Bool) :
    handleFault v c root addr isWrite = some (false, v, c) := by
  unfold handleFault
  dsimp only
  rw [hrec, hareas]
  rfl

/-- A fault of such a task is not handled, and changes nothing. -/
theorem bare_fault (h : Bare j s) (addr : Nat) (isWrite : Bool) :
    pageFault s j addr isWrite = some (false, s) := by
  obtain ⟨sp, hj, hareas, hrec⟩ := h
  unfold pageFault
  rw [bind_of_eq hj, handleFault_bare hareas hrec]
  exact congrArg (fun s => some (false, s)) (Machine.put_self hj)

theorem threadStep_bare (h : Bare j s)
    (hop : ¬ op.Marks j) (hstep : threadStep s op = some s') : Bare j s' := by
  by_cases htask : op.task = some j
  case neg =>
    obtain ⟨sp, hj, hbare⟩ := h
    exact ⟨sp, threadStep_other hj htask hstep, hbare⟩
  match op, hop, htask, hstep with
  | .mem (.fault i addr isWrite), _, htask, hstep =>
    obtain ⟨⟨ok, s₁⟩, hr, rfl⟩ := map_inv hstep
    obtain rfl := some.inj htask
    rw [bare_fault h] at hr
    cases hr
    exact h
  | .mem (.evict i vaddr), hop, htask, _ => exact absurd (some.inj htask) hop
  | .mem (.brk i newBrk), hop, htask, _ => exact absurd (some.inj htask) hop
  | .mem (.mprotect i addr len prot), _, htask, hstep =>
    obtain ⟨⟨ok, s₁⟩, hr, rfl⟩ := map_inv hstep
    obtain rfl := some.inj htask
    rcases sysMprotect_inv hr with
      ⟨_, rfl⟩ | ⟨sp, _, _, _, _, _, _, hi, _, _, _, hareas, _, _, _, _, rfl⟩
    · exact h
    -- the area of the address is not one of this task, which has none
    obtain ⟨sp', hj, hnil, _⟩ := h
    rw [hi] at hj
    obtain rfl := some.inj hj
    rw [hnil] at hareas
    exact absurd hareas (by simp)

/-- A thread that only computes has no fault handled, however its process goes on. -/
theorem thread_faults_refused {s s₁ s₂ : Machine T} {i : Nat} {ops : List ThreadOp}
    (hclone : sysClone s i = some s₁)
    (hops : Along threadStep (fun _ op => ¬ op.Marks s.spaces.length) s₁ ops)
    (hrun : exec threadStep s₁ ops = some s₂) (addr : Nat) (isWrite : Bool) :
    pageFault s₂ s.spaces.length addr isWrite = some (false, s₂) :=
  bare_fault (exec_induction (fun _ _ _ h hop hstep => threadStep_bare h hop hstep)
    (sysClone_bare hclone) hops hrun) addr isWrite

/-- The process asks for a page of heap: its own fault on it is handled, the thread's is not. -/
theorem thread_faults_refused_on_heap : ∃ s₀ s₁ s₂, loadFlat smallMachine [0x90] = some s₀ ∧
    sysClone s₀ 0 = some s₁ ∧ exec threadStep s₁ [.mem (.brk 0 0x402000)] = some s₂ ∧
    (pageFault s₂ 0 0x401000 true).map Prod.fst = some true ∧
    pageFault s₂ s₀.spaces.length 0x401000 true = some (false, s₂) := by
  have hrun : ∃ s₀ ∈ loadFlat smallMachine [0x90], s₀.spaces.length = 1 ∧ ∃ s₁ ∈ sysClone s₀ 0,
      ∃ s₂ ∈ exec threadStep s₁ [.mem (.brk 0 0x402000)],
        (pageFault s₂ 0 0x401000 true).map Prod.fst = some true := by
    decide +kernel
  obtain ⟨s₀, h₀, hlen, s₁, h₁, s₂, h₂, hown⟩ := hrun
  refine ⟨s₀, s₁, s₂, h₀, h₁, h₂, hown, thread_faults_refused h₁ ?_ h₂ _ _⟩
  rw [hlen]
  exact ⟨Nat.zero_ne_one, fun _ _ => trivial⟩

/-! ## The break of a task -/

/-- The break of task `i`. -/
def breakOf (s : Machine T) (i : Nat) : Option Nat := s.spaces[i]?.map Space.brk

/-- The break of task `j` after an operation: a new thread has its own. -/
def ThreadOp.breakAfter (j heapStart brk : Nat) : ThreadOp → Nat
  | .mem op => op.breakAfter j heapStart brk
  | .clone _ => brk

/-- The last break that task `j` has asked for and been given in a run. -/
def ownBreak (j : Nat) (sp : Space) (ops : List ThreadOp) : Nat :=
  ops.foldl (fun brk op => op.breakAfter j sp.heapStart brk) sp.brk

/-- One step: the task stays in its address space, and its break moves by its own `SYS_BRK`. -/
theorem threadStep_break (hj : s.spaces[j]? = some sp) (hstep : threadStep s op = some s') :
    ∃ v, s'.spaces[j]? = some { sp with vmm := v, brk := op.breakAfter j sp.heapStart sp.brk } := by
  cases op with
  | mem op => exact memStep_break hj hstep
  | clone i => exact ⟨sp.vmm, threadStep_other hj (by simp [ThreadOp.task]) hstep⟩

/-- A whole run: the break of a task is the last one it asked for itself. -/
theorem exec_break (ops : List ThreadOp)
    (hj : s.spaces[j]? = some sp) (hrun : exec threadStep s ops = some s') :
    ∃ v, s'.spaces[j]? = some { sp with vmm := v, brk := ownBreak j sp ops } := by
  induction ops generalizing s s' sp with
  | nil =>
    cases hrun
    exact ⟨sp.vmm, hj⟩
  | cons op ops ih =>
    obtain ⟨s₁, hstep, hrun⟩ := bind_inv hrun
    obtain ⟨v, hj₁⟩ := threadStep_break hj hstep
    exact ih hj₁ hrun

/-! ## Two tasks with one `cr3` -/

theorem threadStep_swap {pages : Nat}
    (h : s.shared.swap.Ok pages) (hstep : threadStep s op = some s') : s'.shared.swap.Ok pages := by
  cases op with
  | mem op => exact memStep_swap h hstep
  | clone i =>
    obtain ⟨sp, _, hstep⟩ := bind_inv hstep
    cases hstep
    exact h

theorem faultOutcome_inv {addr : Nat} {isWrite : Bool}
    {o : Bool × Option PageImage} (hi : s.spaces[i]? = some sp)
    (h : faultOutcome s i addr isWrite = some o) :
    ∃ v c, handleFault sp.vmm s.shared sp.root addr isWrite = some (o.1, v, c) ∧
      o.2 = c.pageAt sp.root (addr / 4096) := by
  unfold faultOutcome at h
  rw [bind_of_eq hi] at h
  obtain ⟨⟨ok, s'⟩, hr, h⟩ := bind_inv h
  cases h
  obtain ⟨sp', v, c, hi', hf, rfl⟩ := pageFault_inv hr
  cases hi.symm.trans hi'
  exact ⟨v, c, hf, rfl⟩

/-- Where there is a frame, the outcome tells what was supplied. -/
theorem supplied_inj {r r' before : Option PageImage} :
    (r.isSome, r.or before) = (r'.isSome, r'.or before) ↔ r = r' := by
  cases r with
  | none =>
    cases r' with
    | none => exact iff_of_true rfl rfl
    | some x => exact iff_of_false (by simp) (by simp)
  | some x =>
    cases r' with
    | none => exact iff_of_false (by simp) (by simp)
    | some y => simp

end AlaphiOS.Memory
