import AlaphiOS.Lib.Run
import AlaphiOS.Memory.Vmm

/-!
# All address spaces of the machine

The operations that create and change address spaces, over the one state they
share: `load_flat` (`kernel/src/process/loader.rs`), the branches `SYS_FORK`,
`SYS_BRK` and `SYS_MPROTECT` of `kernel/src/syscall/dispatch.rs`, the page-fault
handler, the reaper's `evict_addr`, and the memory accesses of user programs
between them. `memStep` interleaves them in any order.

Mirroring notes:
- A task is reduced to what these operations use of it: its `cr3` (`root`),
  `vmm`, `heap_start` and `brk`. Tasks are numbered in order of creation.
- Each operation runs under the locks it takes, so it is one step. `none` means
  that the kernel panicked, or that the access is not one the hardware lets
  through.
- A user store goes through a present, writable, user-accessible entry. `touch`
  is the processor setting the accessed and dirty bits, at any time.
-/

namespace AlaphiOS.Memory

open Lib Function List Option

/-- `USER_CODE_BASE`. -/
def userCodeBase : Nat := 0x400000

/-- `USER_STACK_TOP`. -/
def userStackTop : Nat := 0x7FFFFFFFF000

/-- `USER_STACK_SIZE`. -/
def userStackSize : Nat := 64 * 1024

/-- The memory side of a task. -/
structure Space where
  root : Nat
  vmm : Vmm
  heapStart : Nat
  brk : Nat

/-- Memory and the address spaces on it. -/
structure Machine (T : PageTables) where
  shared : Shared T
  spaces : List Space

open Machine

variable {T : PageTables}

/-- Replace the shared state and one task. -/
def Machine.put (s : Machine T) (i : Nat) (sp : Space) (c : Shared T) : Machine T :=
  ⟨c, s.spaces.set i sp⟩

variable {s s' : Machine T} {addr i n newBrk ret root : Nat} {sp sp' : Space} {c c' : Shared T}
  {ok : Bool} {op : MemOp}

theorem Machine.put_getElem (hi : s.spaces[i]? = some sp) : (s.put i sp' c).spaces[i]? = some sp' :=
  List.getElem?_set_self (List.getElem?_eq_some_iff.mp hi).1

theorem Machine.put_getElem_ne {j : Nat}
    (h : j ≠ i) : (s.put i sp c).spaces[j]? = s.spaces[j]? := getElem?_set_ne h.symm

theorem Machine.put_self (hi : s.spaces[i]? = some sp) : s.put i sp s.shared = s := by
  obtain ⟨hlt, rfl⟩ := List.getElem?_eq_some_iff.mp hi
  unfold put
  rw [List.set_getElem_self]

/-! ## `load_flat` -/

/-- One round of the copy loop: page `k` of the image. -/
def loadPage (root : Nat) (bytes : List UInt8) (c : Shared T) (k : Nat) : Option (Shared T) := do
  match ← c.allocate with
  | (none, _) => none
  | (some frame, c) =>
    let off := k * 4096
    let mem := fill c.mem (frameAddr frame) 4096 0
    let mem := blit mem (frameAddr frame) (min (bytes.length - off) 4096)
      fun i => bytes.getD (off + i) 0
    let va ← virtAddr (userCodeBase + off)
    mapPage { c with mem := mem } root (va / 4096) ⟨frame, userFlags false⟩

variable {bytes : List UInt8} {len prot : Nat} {isWrite : Bool} {v v' : Vmm}

theorem loadPage_inv {k : Nat} (h : loadPage root bytes c k = some c') :
    ∃ frame c₁ mem page, c.allocate = some (some frame, c₁) ∧
      mapPage { c₁ with mem := mem } root page ⟨frame, userFlags false⟩ = some c' := by
  obtain ⟨⟨r, c₁⟩, ha, h⟩ := bind_inv h
  cases r with
  | none => cases h
  | some frame =>
    obtain ⟨va, _, hm⟩ := bind_inv h
    exact ⟨frame, c₁, _, _, ha, hm⟩

/-- `load_flat`: the code eagerly, the stack as an area. -/
def loadFlat (s : Machine T) (bytes : List UInt8) : Option (Machine T) := do
  let (root, c) ← cloneKernelHalf s.shared
  let c ← (range ((bytes.length + 4095) / 4096)).foldlM (loadPage root bytes) c
  let heapStart := alignDown (userCodeBase + bytes.length + 4095)
  let vmm := Vmm.new.addArea ⟨userStackTop - userStackSize, userStackTop, userFlags true⟩
  some ⟨c, s.spaces ++ [⟨root, vmm, heapStart, heapStart⟩]⟩

/-! ## System calls -/

/-- `SYS_FORK`. -/
def sysFork (s : Machine T) (i : Nat) : Option (Machine T) := do
  let sp ← s.spaces[i]?
  let (root, c) ← cloneKernelHalf s.shared
  let (vmm, c) ← forkCow sp.vmm c sp.root root
  some ⟨c, s.spaces ++ [⟨root, vmm, sp.heapStart, sp.brk⟩]⟩

/-- `SYS_BRK`, with its return value. -/
def sysBrk (s : Machine T) (i newBrk : Nat) : Option (Nat × Machine T) := do
  let sp ← s.spaces[i]?
  if newBrk = 0 then some (sp.brk, s)
  else
    let top ← usizeAdd newBrk 0xFFF
    let aligned := alignDown top
    if aligned < sp.heapStart ∨ aligned ≥ userStackTop - userStackSize then some (sp.brk, s)
    else if aligned > sp.brk then
      let vmm := sp.vmm.setHeapEnd sp.heapStart aligned (userFlags true)
      some (aligned, s.put i { sp with vmm := vmm, brk := aligned } s.shared)
    else if aligned < sp.brk then
      let (vmm, c) ← shrinkHeap sp.vmm s.shared sp.root sp.heapStart aligned sp.brk (userFlags true)
      some (aligned, s.put i { sp with vmm := vmm, brk := aligned } c)
    else some (aligned, s.put i { sp with brk := aligned } s.shared)

/-- `SYS_BRK` refuses, grows the heap area, or releases pages. -/
theorem sysBrk_inv (h : sysBrk s i newBrk = some (ret, s')) :
    s' = s ∨ ∃ sp, s.spaces[i]? = some sp ∧ newBrk ≠ 0 ∧ ret = alignDown (newBrk + 0xFFF) ∧
      sp.heapStart ≤ ret ∧ ret < userStackTop - userStackSize ∧
      ((sp.brk < ret ∧ s' = s.put i { sp with
          vmm := sp.vmm.setHeapEnd sp.heapStart ret (userFlags true), brk := ret } s.shared) ∨
       (ret < sp.brk ∧ ∃ c, forPages (releasePage sp.root) ret sp.brk s.shared = some c ∧
        s' = s.put i { sp with
          vmm := sp.vmm.setHeapEnd sp.heapStart ret (userFlags true), brk := ret } c) ∨
       (ret = sp.brk ∧ s' = s.put i { sp with brk := ret } s.shared)) := by
  obtain ⟨sp, hi, h⟩ := bind_inv h
  split at h
  -- `brk(0)` asks where the break is.
  · cases h
    exact .inl rfl
  next hne =>
    obtain ⟨top, htop, h⟩ := bind_inv h
    obtain ⟨rfl, _⟩ := usizeAdd_eq htop
    dsimp only at h
    split at h
    · cases h
      exact .inl rfl
    -- The new break is between the start of the heap and the stack.
    next hrange =>
      obtain ⟨hlo, hhi⟩ := not_or.mp hrange
      refine .inr ⟨sp, hi, hne, ?_⟩
      split at h
      next hgt =>
        injection some.inj h with hret hs
        subst hret
        exact ⟨rfl, by omega, by omega, .inl ⟨hgt, hs.symm⟩⟩
      · split at h
        -- The heap shrinks, and the pages above the new break are released.
        next hlt =>
          obtain ⟨⟨v, c⟩, hshrink, h⟩ := bind_inv h
          injection some.inj h with hret hs
          obtain ⟨c₁, hloop, heq⟩ := map_inv hshrink
          injection heq with hv hc
          subst hret hv hc
          exact ⟨rfl, by omega, by omega, .inr (.inl ⟨hlt, c₁, hloop, hs.symm⟩)⟩
        · injection some.inj h with hret hs
          subst hret
          exact ⟨rfl, by omega, by omega, .inr (.inr ⟨by omega, hs.symm⟩)⟩

/-- The break that `SYS_BRK` with this argument sets, if it is accepted: page-aligned, not below
the heap and below the stack. -/
def brkAsked (heapStart newBrk : Nat) : Option Nat :=
  let aligned := alignDown (newBrk + 0xFFF)
  if newBrk = 0 ∨ aligned < heapStart ∨ aligned ≥ userStackTop - userStackSize then none
  else some aligned

theorem sysBrk_break (hi : s.spaces[i]? = some sp) (h : sysBrk s i newBrk = some (ret, s')) :
    ∃ v, s'.spaces[i]? =
      some { sp with vmm := v, brk := (brkAsked sp.heapStart newBrk).getD sp.brk } := by
  unfold sysBrk at h
  rw [bind_of_eq hi] at h
  unfold brkAsked
  dsimp only
  split at h
  next h0 =>
    cases h
    exact ⟨sp.vmm, by rw [if_pos (.inl h0)]; exact hi⟩
  next h0 =>
    obtain ⟨top, htop, h⟩ := bind_inv h
    obtain ⟨rfl, _⟩ := usizeAdd_eq htop
    dsimp only at h
    split at h
    next hbad =>
      cases h
      exact ⟨sp.vmm, by rw [if_pos (.inr hbad)]; exact hi⟩
    next hgood =>
      rw [if_neg (not_or.mpr ⟨h0, hgood⟩)]
      split at h
      · cases h
        exact ⟨_, put_getElem hi⟩
      split at h
      · obtain ⟨⟨v, c⟩, _, h⟩ := bind_inv h
        cases h
        exact ⟨_, put_getElem hi⟩
      · cases h
        exact ⟨_, put_getElem hi⟩

/-- `SYS_MPROTECT`; `true` is the return value 0. -/
def sysMprotect (s : Machine T) (i addr len prot : Nat) : Option (Bool × Machine T) := do
  if addr % 4096 ≠ 0 ∨ len = 0 then some (false, s)
  else
    let top ← usizeAdd len 0xFFF
    let sp ← s.spaces[i]?
    let va ← virtAddr addr
    let (ok, vmm, c) ← mprotect sp.vmm s.shared sp.root va (alignDown top)
      (userFlags (prot &&& 2 ≠ 0))
    some (ok, s.put i { sp with vmm := vmm } c)

/-- `SYS_MPROTECT` changes nothing, or splits the area at `addr` and changes the entries of
the range. -/
theorem sysMprotect_inv (h : sysMprotect s i addr len prot = some (ok, s')) :
    (ok = false ∧ s' = s) ∨ ∃ sp end_ before area after c, ok = true ∧ s.spaces[i]? = some sp ∧
      addr % 4096 = 0 ∧ end_ = addr + alignDown (len + 0xFFF) ∧ addr < end_ ∧
      sp.vmm.areas = before ++ area :: after ∧ (∀ a ∈ before, a.has addr = false) ∧
      area.has addr = true ∧ end_ ≤ area.end_ ∧
      forPages (protectPage sp.root (userFlags (prot &&& 2 ≠ 0))) addr end_ s.shared = some c ∧
      s' = s.put i { sp with vmm := { sp.vmm with
        areas := before ++ area.protect addr end_ (userFlags (prot &&& 2 ≠ 0)) ++ after } } c := by
  unfold sysMprotect at h
  split at h
  · cases h
    exact .inl ⟨rfl, rfl⟩
  next harg =>
    obtain ⟨halign, hlen⟩ := not_or.mp harg
    obtain ⟨top, htop, h⟩ := bind_inv h
    obtain ⟨rfl, _⟩ := usizeAdd_eq htop
    obtain ⟨sp, hi, h⟩ := bind_inv h
    obtain ⟨va, hva, h⟩ := bind_inv h
    obtain ⟨⟨ok₁, v, c⟩, hmp, h⟩ := bind_inv h
    injection some.inj h with hok hs
    obtain rfl := virtAddr_eq hva
    subst hok hs
    rcases mprotect_cases hmp with
      ⟨hok, rfl, rfl, _⟩ | ⟨before, area, after, _, hok, hareas, hfirst, hhas, hle, rfl, hloop⟩
    · exact .inl ⟨hok, put_self hi⟩
    · refine .inr ⟨sp, _, before, area, after, c, hok, hi, not_not.mp halign, rfl, ?_, hareas,
        hfirst, hhas, hle, hloop, rfl⟩
      -- at least one page, because `len` is not 0
      unfold alignDown
      omega

/-! ## Faults, evictions, accesses -/

/-- The page-fault handler's call of `handle_fault` for task `i`. -/
def pageFault (s : Machine T) (i addr : Nat) (isWrite : Bool) : Option (Bool × Machine T) := do
  let sp ← s.spaces[i]?
  let (ok, vmm, c) ← handleFault sp.vmm s.shared sp.root addr isWrite
  some (ok, s.put i { sp with vmm := vmm } c)

/-- The reaper's call of `evict_addr` for a page of task `i`. -/
def evict (s : Machine T) (i vaddr : Nat) : Option (Bool × Machine T) := do
  let sp ← s.spaces[i]?
  let (ok, vmm, c) ← evictAddr sp.vmm s.shared sp.root vaddr
  some (ok, s.put i { sp with vmm := vmm } c)

theorem pageFault_inv (h : pageFault s i addr isWrite = some (ok, s')) :
    ∃ sp vmm c, s.spaces[i]? = some sp ∧
      handleFault sp.vmm s.shared sp.root addr isWrite = some (ok, vmm, c) ∧
      s' = s.put i { sp with vmm := vmm } c := by
  obtain ⟨sp, hi, h⟩ := bind_inv h
  obtain ⟨⟨ok₁, vmm, c⟩, hf, h⟩ := bind_inv h
  cases h
  exact ⟨sp, vmm, c, hi, hf, rfl⟩

theorem evict_inv {vaddr : Nat} (h : evict s i vaddr = some (ok, s')) :
    ∃ sp vmm c, s.spaces[i]? = some sp ∧
      evictAddr sp.vmm s.shared sp.root vaddr = some (ok, vmm, c) ∧
      s' = s.put i { sp with vmm := vmm } c := by
  obtain ⟨sp, hi, h⟩ := bind_inv h
  obtain ⟨⟨ok₁, vmm, c⟩, he, h⟩ := bind_inv h
  cases h
  exact ⟨sp, vmm, c, hi, he, rfl⟩

/-- The entry through which task `i` can reach an address from ring 3. -/
def userEntry (s : Machine T) (i addr : Nat) : Option Entry := do
  let sp ← s.spaces[i]?
  let e ← s.shared.leaf sp.root (addr / 4096)
  if e.flags.present && e.flags.userAccessible then some e else none

theorem userEntry_inv {e : Entry} (h : userEntry s i addr = some e) :
    ∃ sp, s.spaces[i]? = some sp ∧ s.shared.leaf sp.root (addr / 4096) = some e ∧
      e.flags.present = true ∧ e.flags.userAccessible = true := by
  obtain ⟨sp, hi, h⟩ := bind_inv h
  obtain ⟨e', he, h⟩ := bind_inv h
  split at h
  next hfl =>
    cases h
    exact ⟨sp, hi, he, Bool.and_eq_true_iff.mp hfl⟩
  · cases h

/-- A load by the user program of task `i`, when no fault is needed. -/
def userLoad (s : Machine T) (i addr : Nat) : Option UInt8 :=
  (userEntry s i addr).map fun e => s.shared.mem (frameAddr e.frame + addr % 4096)

/-- A store by the user program of task `i`, when no fault is needed. -/
def userStore (s : Machine T) (i addr : Nat) (b : UInt8) : Option (Machine T) := do
  let e ← userEntry s i addr
  if e.flags.writable then
    some { s with shared := { s.shared with
      mem := update s.shared.mem (frameAddr e.frame + addr % 4096) b } }
  else none

theorem userEntry_congr (hsp : s'.spaces = s.spaces)
    (ht : s'.shared.tables = s.shared.tables) : userEntry s' i addr = userEntry s i addr := by
  unfold userEntry Shared.leaf
  rw [hsp, ht]

theorem userStore_inv {b : UInt8} (h : userStore s i addr b = some s') :
    ∃ e, userEntry s i addr = some e ∧ e.flags.writable = true ∧ s'.spaces = s.spaces ∧
      s'.shared = { s.shared with
        mem := update s.shared.mem (frameAddr e.frame + addr % 4096) b } := by
  obtain ⟨e, he, h⟩ := bind_inv h
  split at h
  next hw =>
    cases h
    exact ⟨e, he, hw, rfl, rfl⟩
  · cases h

/-- The processor sets the accessed bit of a used entry, and perhaps the dirty bit. -/
def touch (s : Machine T) (i page : Nat) (dirty : Bool) : Option (Machine T) := do
  let sp ← s.spaces[i]?
  let e ← s.shared.leaf sp.root page
  let c ← remapFlags s.shared sp.root page
    { e.flags with accessed := true, dirty := e.flags.dirty || dirty }
  some { s with shared := c }

theorem touch_inv {page : Nat} {dirty : Bool} (h : touch s i page dirty = some s') :
    ∃ sp e c, s.spaces[i]? = some sp ∧ s.shared.leaf sp.root page = some e ∧
      remapFlags s.shared sp.root page
        { e.flags with accessed := true, dirty := e.flags.dirty || dirty } = some c ∧
      s' = { s with shared := c } := by
  obtain ⟨sp, hi, h⟩ := bind_inv h
  obtain ⟨e, he, h⟩ := bind_inv h
  obtain ⟨c, hc, h⟩ := bind_inv h
  exact ⟨sp, e, c, hi, he, hc, (some.inj h).symm⟩

/-! ## Any order of these -/

/-- What changes them. -/
inductive MemOp where
  | load (bytes : List UInt8)
  | fork (i : Nat)
  | fault (i addr : Nat) (isWrite : Bool)
  | evict (i vaddr : Nat)
  | brk (i newBrk : Nat)
  | mprotect (i addr len prot : Nat)
  | store (i addr : Nat) (byte : UInt8)
  | touch (i page : Nat) (dirty : Bool)

/-- One such step. -/
def memStep (s : Machine T) : MemOp → Option (Machine T)
  | .load bytes => loadFlat s bytes
  | .fork i => sysFork s i
  | .fault i addr isWrite => (pageFault s i addr isWrite).map Prod.snd
  | .evict i vaddr => (Memory.evict s i vaddr).map Prod.snd
  | .brk i newBrk => (sysBrk s i newBrk).map Prod.snd
  | .mprotect i addr len prot => (sysMprotect s i addr len prot).map Prod.snd
  | .store i addr byte => userStore s i addr byte
  | .touch i page dirty => Memory.touch s i page dirty

/-- The break of task `n` after an operation: only its own `SYS_BRK` moves it. -/
def MemOp.breakAfter (n heapStart brk : Nat) : MemOp → Nat
  | .brk i newBrk => if i = n then (brkAsked heapStart newBrk).getD brk else brk
  | _ => brk

/-- The two have the same areas and the same break. -/
def Space.SameLayout (sp sp' : Space) : Prop :=
  sp'.root = sp.root ∧ sp'.heapStart = sp.heapStart ∧ sp'.brk = sp.brk ∧
    sp'.vmm.areas = sp.vmm.areas

theorem handleFault_areas
    (h : handleFault v c root addr isWrite = some (ok, v', c')) : v'.areas = v.areas := by
  rcases handleFault_inv h with ⟨_, _, _, rfl, _⟩ | ⟨_, rfl, _⟩
  · rfl
  · rfl

theorem evictAddr_areas (h : evictAddr v c root addr = some (ok, v', c')) : v'.areas = v.areas := by
  rcases evictAddr_inv h with ⟨_, rfl, _⟩ | ⟨_, _, ⟨_, _, _, rfl, _⟩ | ⟨_, _, _, _, rfl, _⟩⟩
  · rfl
  · rfl
  · rfl

/-- Replacing a task by one of the same layout keeps the layout of every task. -/
theorem put_layout {sp₁ : Space}
    (hn : s.spaces[n]? = some sp) (hi : s.spaces[i]? = some sp₁) (h : sp₁.SameLayout sp') :
    ∃ sp'', (s.put i sp' c).spaces[n]? = some sp'' ∧ sp.SameLayout sp'' := by
  by_cases hin : n = i
  · subst hin
    cases hn.symm.trans hi
    exact ⟨sp', put_getElem hi, h⟩
  · exact ⟨sp, (put_getElem_ne hin).trans hn, rfl, rfl, rfl, rfl⟩

theorem loadFlat_spaces (h : loadFlat s bytes = some s') : ∃ sp, s'.spaces = s.spaces ++ [sp] := by
  obtain ⟨⟨root, c⟩, _, h⟩ := bind_inv h
  obtain ⟨c', _, h⟩ := bind_inv h
  cases h
  exact ⟨_, rfl⟩

theorem sysFork_spaces (h : sysFork s i = some s') : ∃ sp, s'.spaces = s.spaces ++ [sp] := by
  obtain ⟨_, _, h⟩ := bind_inv h
  obtain ⟨⟨root, c⟩, _, h⟩ := bind_inv h
  obtain ⟨⟨vmm, c'⟩, _, h⟩ := bind_inv h
  cases h
  exact ⟨_, rfl⟩

/-- A task that is added leaves those there are. -/
theorem getElem_of_added (h : ∃ new, s'.spaces = s.spaces ++ [new]) (hn : s.spaces[n]? = some sp) :
    s'.spaces[n]? = some sp := by
  obtain ⟨new, h⟩ := h
  rw [h]
  exact (List.getElem?_append_left (List.getElem?_eq_some_iff.mp hn).1).trans hn

theorem sysBrk_other (hne : n ≠ i)
    (h : sysBrk s i newBrk = some (ret, s')) : s'.spaces[n]? = s.spaces[n]? := by
  rcases sysBrk_inv h with rfl | ⟨_, _, _, _, _, _, ⟨_, rfl⟩ | ⟨_, _, _, rfl⟩ | ⟨_, rfl⟩⟩
  · rfl
  all_goals exact put_getElem_ne hne

theorem sysMprotect_other (hne : n ≠ i)
    (h : sysMprotect s i addr len prot = some (ok, s')) : s'.spaces[n]? = s.spaces[n]? := by
  rcases sysMprotect_inv h with ⟨_, rfl⟩ | ⟨_, _, _, _, _, _, _, _, _, _, _, _, _, _, _, _, rfl⟩
  · rfl
  · exact put_getElem_ne hne

/-- Only `SYS_BRK` and `SYS_MPROTECT` of a task change its layout. -/
theorem memStep_layout (h : memStep s op = some s') (hn : s.spaces[n]? = some sp) :
    (∃ sp', s'.spaces[n]? = some sp' ∧ sp.SameLayout sp') ∨
    (∃ newBrk ret, op = .brk n newBrk ∧ sysBrk s n newBrk = some (ret, s')) ∨
    (∃ addr len prot ok, op = .mprotect n addr len prot ∧
      sysMprotect s n addr len prot = some (ok, s')) := by
  have hsame : sp.SameLayout sp := ⟨rfl, rfl, rfl, rfl⟩
  cases op with
  | load bytes => exact .inl ⟨sp, getElem_of_added (loadFlat_spaces h) hn, hsame⟩
  | fork i => exact .inl ⟨sp, getElem_of_added (sysFork_spaces h) hn, hsame⟩
  | fault i addr isWrite =>
    obtain ⟨⟨ok, s₁⟩, hr, rfl⟩ := map_inv h
    obtain ⟨sp₁, vmm, c, hi, hf, rfl⟩ := pageFault_inv hr
    exact .inl (put_layout hn hi ⟨rfl, rfl, rfl, handleFault_areas hf⟩)
  | evict i vaddr =>
    obtain ⟨⟨ok, s₁⟩, hr, rfl⟩ := map_inv h
    obtain ⟨sp₁, vmm, c, hi, he, rfl⟩ := evict_inv hr
    exact .inl (put_layout hn hi ⟨rfl, rfl, rfl, evictAddr_areas he⟩)
  | brk i newBrk =>
    obtain ⟨⟨ret, s₁⟩, hr, rfl⟩ := map_inv h
    by_cases hin : n = i
    · subst hin
      exact .inr (.inl ⟨newBrk, ret, rfl, hr⟩)
    · exact .inl ⟨sp, (sysBrk_other hin hr).trans hn, hsame⟩
  | mprotect i addr len prot =>
    obtain ⟨⟨ok, s₁⟩, hr, rfl⟩ := map_inv h
    by_cases hin : n = i
    · subst hin
      exact .inr (.inr ⟨addr, len, prot, ok, rfl, hr⟩)
    · exact .inl ⟨sp, (sysMprotect_other hin hr).trans hn, hsame⟩
  | store i addr byte =>
    obtain ⟨_, _, _, hsp, _⟩ := userStore_inv h
    exact .inl ⟨sp, hsp ▸ hn, hsame⟩
  | touch i page dirty =>
    obtain ⟨_, _, _, _, _, _, rfl⟩ := touch_inv h
    exact .inl ⟨sp, hn, hsame⟩

/-- A task stays in its address space, and its break is what its own calls make it. -/
theorem memStep_break (hn : s.spaces[n]? = some sp) (h : memStep s op = some s') :
    ∃ v, s'.spaces[n]? = some { sp with vmm := v, brk := op.breakAfter n sp.heapStart sp.brk } := by
  by_cases hop : ∃ newBrk, op = .brk n newBrk
  · obtain ⟨newBrk, rfl⟩ := hop
    obtain ⟨⟨ret, _⟩, hr, rfl⟩ := map_inv h
    rw [MemOp.breakAfter, if_pos rfl]
    exact sysBrk_break hn hr
  have hsame : op.breakAfter n sp.heapStart sp.brk = sp.brk := by
    unfold MemOp.breakAfter
    split
    · exact if_neg fun hi => hop ⟨_, congrArg (MemOp.brk · _) hi⟩
    · rfl
  rw [hsame]
  rcases memStep_layout h hn with
    ⟨sp', hn', hroot, hstart, hbrk, _⟩ | ⟨newBrk, _, hbrk, _⟩ | ⟨addr, len, prot, ok, _, hr⟩
  · exact ⟨sp'.vmm, by rw [hn', ← hroot, ← hstart, ← hbrk]⟩
  · exact absurd ⟨newBrk, hbrk⟩ hop
  · rcases sysMprotect_inv hr with
      ⟨_, rfl⟩ | ⟨sp', _, _, _, _, _, _, hi, _, _, _, _, _, _, _, _, rfl⟩
    · exact ⟨sp.vmm, hn⟩
    cases hn.symm.trans hi
    exact ⟨_, put_getElem hn⟩

theorem memStep_brk
    (hn : s.spaces[n]? = some sp) (h : memStep s op = some s') (hn' : s'.spaces[n]? = some sp') :
    op.breakAfter n sp.heapStart sp.brk = sp'.brk := by
  obtain ⟨v, hv⟩ := memStep_break hn h
  cases hn'.symm.trans hv
  rfl

/-- The machine before the first task: the given frames are free, nothing is
mapped, and swap has `pages` empty slots. -/
def bootMachine (T : PageTables) (tables : T.State) (frames : List Nat) (pages : Nat) :
    Machine T :=
  let r := frames.foldl (fun r f => r.2.deallocate r.1 f) ((fun _ => 0 : Mem), .empty)
  ⟨⟨r.1, r.2, SwapPartition.new pages, tables⟩, []⟩

end AlaphiOS.Memory
