import AlaphiOS.Memory.Paging
import Mathlib.Logic.Function.Basic

/-!
# Address spaces of one task

`kernel/src/memory/vmm.rs` and `evict_addr` of `kernel/src/memory/swap.rs`: the
areas of a task, the pages it has on swap, and the operations that move pages
in and out of its page table.

Mirroring notes:
- Results are `none` for a panic. `Result<(), ()>` and `bool` are `Bool`, with
  `true` for `Ok` (and for an eviction that took place); the state is returned
  in both cases, because some failures have already changed it: `handle_fault`
  forgets the swap slot before it knows whether it gets a frame.
- `swapped` is only ever inserted into and removed from by key, so the
  `BTreeMap` is a function.
- The copy of a copy-on-write fault starts at the translated *address*, not at
  the start of its frame, as in the source.
- `VmAreaKind` has the one value `Anonymous` and is left out.
-/

namespace AlaphiOS.Memory

open Lib Function Option

/-- `VmArea`. -/
structure VmArea where
  start : Nat
  end_ : Nat
  flags : PageTableFlags
  deriving DecidableEq

/-- `a.start <= addr && addr < a.end`. -/
def VmArea.has (a : VmArea) (addr : Nat) : Bool := a.start ≤ addr && addr < a.end_

/-- `Vmm`. -/
structure Vmm where
  areas : List VmArea
  /-- Page address to swap slot and the flags to restore. -/
  swapped : Nat → Option (Nat × PageTableFlags)

namespace Vmm

/-- `Vmm::new`. -/
def new : Vmm := ⟨[], fun _ => none⟩

/-- `add_area`. -/
def addArea (v : Vmm) (area : VmArea) : Vmm := { v with areas := v.areas ++ [area] }

/-- `record_swapped`. -/
def recordSwapped (v : Vmm) (pageVaddr slot : Nat) (flags : PageTableFlags) : Vmm :=
  { v with swapped := update v.swapped pageVaddr (some (slot, flags)) }

/-- `swapped.remove(&page_vaddr)`. -/
def removeSwapped (v : Vmm) (pageVaddr : Nat) : Vmm :=
  { v with swapped := update v.swapped pageVaddr none }

variable {v : Vmm} {flags : PageTableFlags} {heapStart newEnd : Nat}

theorem recordSwapped_swapped {page slot a : Nat} : (v.recordSwapped page slot flags).swapped a
      = if a = page then some (slot, flags) else v.swapped a := update_apply ..

theorem removeSwapped_swapped {page a : Nat} :
    (v.removeSwapped page).swapped a = if a = page then none else v.swapped a :=
  update_apply ..

/-- `set_heap_end`. -/
def setHeapEnd (v : Vmm) (heapStart newEnd : Nat) (flags : PageTableFlags) : Vmm :=
  match v.areas.findIdx? fun a => a.start == heapStart with
  | some idx => { v with areas := v.areas.modify idx fun a => { a with end_ := newEnd } }
  | none => if newEnd > heapStart then v.addArea ⟨heapStart, newEnd, flags⟩ else v

theorem setHeapEnd_swapped : (v.setHeapEnd heapStart newEnd flags).swapped = v.swapped := by
  unfold setHeapEnd
  split
  · rfl
  · split
    · rfl
    · rfl

/-- "The heap" is the first area that starts at `heap_start`. -/
theorem setHeapEnd_found
    {before after : List VmArea} {a : VmArea} (hv : v.areas = before ++ a :: after)
    (hbefore : ∀ b ∈ before, b.start ≠ heapStart) (ha : a.start = heapStart) :
    v.setHeapEnd heapStart newEnd flags
      = { v with areas := before ++ { a with end_ := newEnd } :: after } := by
  have hfind : v.areas.findIdx? (fun a => a.start == heapStart) = some before.length := by
    rw [hv, List.findIdx?_append, List.findIdx?_eq_none_iff.mpr fun b hb => ?_]
    · rw [List.findIdx?_cons, ha, beq_self_eq_true]
      simp
    · exact beq_false_of_ne (hbefore b hb)
  unfold setHeapEnd
  rw [hfind]
  dsimp only
  rw [hv, List.modify_eq_take_cons_drop (by simp)]
  simp

theorem setHeapEnd_missing (h : ∀ b ∈ v.areas, b.start ≠ heapStart) (hlt : heapStart < newEnd) :
    v.setHeapEnd heapStart newEnd flags
      = { v with areas := v.areas ++ [⟨heapStart, newEnd, flags⟩] } := by
  unfold setHeapEnd
  rw [List.findIdx?_eq_none_iff.mpr fun b hb => beq_false_of_ne (h b hb)]
  exact if_pos hlt

end Vmm

section Faults

variable {T : PageTables}

/-! ## `handle_fault` -/

/-- The swap-in branch: a new frame with the slot's contents. -/
def swapInPage (c : Shared T) (root page slot : Nat) (flags : PageTableFlags) :
    Option (Bool × Shared T) := do
  match ← c.allocate with
  | (none, c) => some (false, c)
  | (some newFrame, c) =>
    let (mem, swap) ← c.swap.swapIn c.mem slot newFrame
    let c ← mapPage { c with mem := mem, swap := swap } root page ⟨newFrame, flags⟩
    some (true, c)

/-- The copy-on-write branch: `phys` is the translated fault address. -/
def copyOnWrite (c : Shared T) (root page phys : Nat) (flags : PageTableFlags) :
    Option (Bool × Shared T) := do
  match ← c.allocate with
  | (none, c) => some (false, c)
  | (some newFrame, c) =>
    let c := { c with mem := copyBytes c.mem phys (frameAddr newFrame) 4096 }
    let (_, c) ← unmapPage c root page
    let c ← mapPage c root page ⟨newFrame, flags⟩
    some (true, c)

/-- The demand-paging branch: a new frame of zeros. -/
def zeroFill (c : Shared T) (root page : Nat) (flags : PageTableFlags) :
    Option (Bool × Shared T) := do
  match ← c.allocate with
  | (none, c) => some (false, c)
  | (some newFrame, c) =>
    let c ← mapPage { c with mem := fill c.mem (frameAddr newFrame) 4096 0 } root page
      ⟨newFrame, flags⟩
    some (true, c)

/-- `Vmm::handle_fault`. -/
def handleFault (v : Vmm) (c : Shared T) (root faultAddr : Nat) (isWrite : Bool) :
    Option (Bool × Vmm × Shared T) :=
  let page := faultAddr / 4096
  match v.swapped (frameAddr page) with
  | some (slot, flags) =>
    (swapInPage c root page slot flags).map fun r => (r.1, v.removeSwapped (frameAddr page), r.2)
  | none =>
    match v.areas.find? fun a => a.has faultAddr with
    | none => some (false, v, c)
    | some area =>
      match translateAddr c root faultAddr with
      | some phys =>
        if !isWrite || !area.flags.writable then some (false, v, c)
        else (copyOnWrite c root page phys area.flags).map fun r => (r.1, v, r.2)
      | none => (zeroFill c root page area.flags).map fun r => (r.1, v, r.2)

/-! ## `shrink_heap`, `mprotect`, `fork_cow` -/

/-- The loop body of `shrink_heap`. -/
def releasePage (root addr : Nat) (c : Shared T) : Option (Shared T) :=
  match translateAddr c root addr with
  | some _ => (unmapPage c root (addr / 4096)).map fun r => r.2.deallocate r.1
  | none => some c

/-- `Vmm::shrink_heap`. -/
def shrinkHeap (v : Vmm) (c : Shared T) (root heapStart newEnd oldEnd : Nat)
    (flags : PageTableFlags) : Option (Vmm × Shared T) :=
  (forPages (releasePage root) newEnd oldEnd c).map fun c =>
    (v.setHeapEnd heapStart newEnd flags, c)

/-- The loop body of `mprotect`. -/
def protectPage (root : Nat) (flags : PageTableFlags) (addr : Nat) (c : Shared T) :
    Option (Shared T) :=
  match translateAddr c root addr with
  | some _ => remapFlags c root (addr / 4096) flags
  | none => some c

/-- `Vmm::mprotect`. -/
def mprotect (v : Vmm) (c : Shared T) (root addr len : Nat) (newFlags : PageTableFlags) :
    Option (Bool × Vmm × Shared T) := do
  let end_ ← virtAdd addr len
  match v.areas.findIdx? fun a => a.has addr with
  | none => some (false, v, c)
  | some idx =>
    let area ← v.areas[idx]?
    if end_ > area.end_ then some (false, v, c)
    else
      let replacements :=
        (if addr > area.start then [{ area with end_ := addr }] else [])
          ++ [⟨addr, end_, newFlags⟩]
          ++ (if end_ < area.end_ then [{ area with start := end_ }] else [])
      -- `remove(idx)` and then `insert(idx + i, ..)` one after the other
      let areas := v.areas.take idx ++ replacements ++ v.areas.drop (idx + 1)
      let c ← forPages (protectPage root newFlags) addr end_ c
      some (true, { v with areas := areas }, c)

/-- The loop body of `fork_cow`: the frame is shared, read-only on both sides. -/
def sharePage (parent child : Nat) (ro : PageTableFlags) (addr : Nat) (c : Shared T) :
    Option (Shared T) :=
  match translateAddr c parent addr with
  | some phys => do
    let c ← remapFlags c parent (addr / 4096) ro
    mapPage c child (addr / 4096) ⟨phys / 4096, ro⟩
  | none => some c

/-- `Vmm::fork_cow`. -/
def forkCow (v : Vmm) (c : Shared T) (parent child : Nat) : Option (Vmm × Shared T) := do
  let c ← v.areas.foldlM (fun c area =>
    forPages (sharePage parent child area.flags.readOnly) area.start area.end_ c) c
  some (⟨v.areas, fun _ => none⟩, c)

/-! ## `evict_addr` -/

/-- `evict_addr`: write the page to swap, record its slot, unmap and free. -/
def evictAddr (v : Vmm) (c : Shared T) (root vaddr : Nat) : Option (Bool × Vmm × Shared T) := do
  let va ← virtAddr vaddr
  match translateAddr c root va, pageFlags c root va with
  | some phys, some f =>
    let flags := { f with accessed := false, dirty := false }
    match ← c.swap.swapOut c.mem (phys / 4096) with
    | (none, swap) => some (false, v, { c with swap := swap })
    | (some slot, swap) =>
      let (freed, c) ← unmapPage { c with swap := swap } root (va / 4096)
      some (true, v.recordSwapped (alignDown va) slot flags, c.deallocate freed)
  | _, _ => some (false, v, c)

/-! ## What they did, when they returned -/

section Inversion

variable {v v' : Vmm} {c c' : Shared T} {root page addr : Nat} {flags : PageTableFlags} {ok : Bool}

theorem swapInPage_inv {slot : Nat} (h : swapInPage c root page slot flags = some (ok, c')) :
    (ok = false ∧ c.allocate = some (none, c')) ∨
    (ok = true ∧ ∃ f c₁ mem swap, c.allocate = some (some f, c₁) ∧
      c₁.swap.swapIn c₁.mem slot f = some (mem, swap) ∧
      mapPage { c₁ with mem := mem, swap := swap } root page ⟨f, flags⟩ = some c') := by
  obtain ⟨⟨r, c₁⟩, ha, h⟩ := bind_inv h
  cases r with
  | none =>
    cases h
    exact .inl ⟨rfl, ha⟩
  | some f =>
    obtain ⟨⟨mem, swap⟩, hs, h⟩ := bind_inv h
    obtain ⟨c₂, hm, h⟩ := bind_inv h
    cases h
    exact .inr ⟨rfl, f, c₁, mem, swap, ha, hs, hm⟩

theorem copyOnWrite_inv {phys : Nat} (h : copyOnWrite c root page phys flags = some (ok, c')) :
    (ok = false ∧ c.allocate = some (none, c')) ∨
    (ok = true ∧ ∃ f c₁ g c₂, c.allocate = some (some f, c₁) ∧
      unmapPage { c₁ with mem := copyBytes c₁.mem phys (frameAddr f) 4096 } root page
        = some (g, c₂) ∧
      mapPage c₂ root page ⟨f, flags⟩ = some c') := by
  obtain ⟨⟨r, c₁⟩, ha, h⟩ := bind_inv h
  cases r with
  | none =>
    cases h
    exact .inl ⟨rfl, ha⟩
  | some f =>
    obtain ⟨⟨g, c₂⟩, hu, h⟩ := bind_inv h
    obtain ⟨c₃, hm, h⟩ := bind_inv h
    cases h
    exact .inr ⟨rfl, f, c₁, g, c₂, ha, hu, hm⟩

theorem zeroFill_inv (h : zeroFill c root page flags = some (ok, c')) :
    (ok = false ∧ c.allocate = some (none, c')) ∨
    (ok = true ∧ ∃ f c₁, c.allocate = some (some f, c₁) ∧
      mapPage { c₁ with mem := fill c₁.mem (frameAddr f) 4096 0 } root page ⟨f, flags⟩
        = some c') := by
  obtain ⟨⟨r, c₁⟩, ha, h⟩ := bind_inv h
  cases r with
  | none =>
    cases h
    exact .inl ⟨rfl, ha⟩
  | some f =>
    obtain ⟨c₂, hm, h⟩ := bind_inv h
    cases h
    exact .inr ⟨rfl, f, c₁, ha, hm⟩

/-- The branches of `handle_fault`. -/
theorem handleFault_inv {isWrite : Bool}
    (h : handleFault v c root addr isWrite = some (ok, v', c')) :
    (∃ slot flags, v.swapped (frameAddr (addr / 4096)) = some (slot, flags) ∧
      v' = v.removeSwapped (frameAddr (addr / 4096)) ∧
      swapInPage c root (addr / 4096) slot flags = some (ok, c')) ∨
    (v.swapped (frameAddr (addr / 4096)) = none ∧ v' = v ∧
      ((ok = false ∧ c' = c) ∨
       (∃ area phys, v.areas.find? (fun a => a.has addr) = some area ∧
        translateAddr c root addr = some phys ∧ isWrite = true ∧ area.flags.writable = true ∧
        copyOnWrite c root (addr / 4096) phys area.flags = some (ok, c')) ∨
       (∃ area, v.areas.find? (fun a => a.has addr) = some area ∧
        translateAddr c root addr = none ∧
        zeroFill c root (addr / 4096) area.flags = some (ok, c')))) := by
  unfold handleFault at h
  dsimp only at h
  split at h
  -- The page is in the swap; whatever comes of it, its record is gone.
  next slot flags hs =>
    obtain ⟨⟨ok₁, c₁⟩, hr, heq⟩ := map_inv h
    cases heq
    exact .inl ⟨slot, flags, hs, rfl, hr⟩
  next hs =>
    refine .inr ⟨hs, ?_⟩
    split at h
    · cases h
      exact ⟨rfl, .inl ⟨rfl, rfl⟩⟩
    next area ha =>
      split at h
      -- A page that is there can only be a write to a shared one.
      next phys hp =>
        split at h
        · cases h
          exact ⟨rfl, .inl ⟨rfl, rfl⟩⟩
        next hw =>
          obtain ⟨⟨ok₁, c₁⟩, hr, heq⟩ := map_inv h
          cases heq
          simp only [Bool.or_eq_true, Bool.not_eq_true', not_or, Bool.not_eq_false] at hw
          exact ⟨rfl, .inr (.inl ⟨area, phys, ha, hp, hw.1, hw.2, hr⟩)⟩
      next hp =>
        obtain ⟨⟨ok₁, c₁⟩, hr, heq⟩ := map_inv h
        cases heq
        exact ⟨rfl, .inr (.inr ⟨area, ha, hp, hr⟩)⟩

/-- What `mprotect` puts in the place of the area that it finds. -/
def VmArea.protect (area : VmArea) (addr end_ : Nat) (newFlags : PageTableFlags) : List VmArea :=
  (if addr > area.start then [{ area with end_ := addr }] else [])
    ++ [⟨addr, end_, newFlags⟩]
    ++ (if end_ < area.end_ then [{ area with start := end_ }] else [])

/-- A refused `mprotect` changes nothing, and the first area that has the address, if any, ends
too early; an accepted one splits this area, and its page loop runs over the requested range. -/
theorem mprotect_cases {len : Nat} (h : mprotect v c root addr len flags = some (ok, v', c')) :
    (ok = false ∧ v' = v ∧ c' = c ∧
      ∀ area, v.areas.find? (fun a => a.has addr) = some area → area.end_ < addr + len) ∨
    (∃ before area after, virtAdd addr len = some (addr + len) ∧ ok = true ∧
      v.areas = before ++ area :: after ∧ (∀ a ∈ before, a.has addr = false) ∧
      area.has addr = true ∧ addr + len ≤ area.end_ ∧
      v' = { v with areas := before ++ area.protect addr (addr + len) flags ++ after } ∧
      forPages (protectPage root flags) addr (addr + len) c = some c') := by
  obtain ⟨end_, hend, h⟩ := bind_inv h
  obtain rfl := virtAdd_eq hend
  split at h
  next hnone =>
    cases h
    refine .inl ⟨rfl, rfl, rfl, fun area harea => ?_⟩
    have := List.findIdx?_eq_none_iff.mp hnone area (List.mem_of_find?_eq_some harea)
    rw [List.find?_some harea] at this
    cases this
  next idx hidx =>
    obtain ⟨area, harea, h⟩ := bind_inv h
    obtain ⟨hlt, hhas, hfirst⟩ := List.findIdx?_eq_some_iff_getElem.mp hidx
    obtain ⟨_, rfl⟩ := List.getElem?_eq_some_iff.mp harea
    split at h
    next hshort =>
      cases h
      refine .inl ⟨rfl, rfl, rfl, fun area harea => ?_⟩
      rw [List.find?_eq_bind_findIdx?_getElem?, hidx, bind_some,
        List.getElem?_eq_getElem hlt] at harea
      cases harea
      exact hshort
    next hle =>
      obtain ⟨c₁, hloop, h⟩ := bind_inv h
      cases h
      refine .inr ⟨v.areas.take idx, v.areas[idx], v.areas.drop (idx + 1), hend, rfl, ?_, ?_, hhas,
        Nat.le_of_not_lt hle, rfl, hloop⟩
      · rw [List.getElem_cons_drop, List.take_append_drop]
      · intro a ha
        obtain ⟨j, hj, rfl⟩ := List.mem_take_iff_getElem.mp ha
        exact eq_false_of_ne_true (hfirst j (by omega))

/-- An eviction does nothing, or finds the swap partition unable to take the
page, or moves the page out. -/
theorem evictAddr_inv (h : evictAddr v c root addr = some (ok, v', c')) :
    (ok = false ∧ v' = v ∧ c' = c) ∨
    (∃ e, c.leaf root (addr / 4096) = some e ∧
      ((∃ swap, c.swap.swapOut c.mem e.frame = some (none, swap) ∧ ok = false ∧ v' = v ∧
        c' = { c with swap := swap }) ∨
       (∃ slot swap, c.swap.swapOut c.mem e.frame = some (some slot, swap) ∧ ok = true ∧
        v' = v.recordSwapped (frameAddr (addr / 4096)) slot
          { e.flags with accessed := false, dirty := false } ∧
        c' = ({ c with
          swap := swap
          tables := T.unmap c.tables root (addr / 4096) } : Shared T).deallocate e.frame))) := by
  obtain ⟨va, hva, hrun⟩ := bind_inv h
  obtain rfl := virtAddr_eq hva
  split at hrun
  -- `translate_addr` and `page_flags` have read the same entry.
  next phys f hp hf =>
    obtain ⟨e, he, _, hdiv⟩ := translateAddr_inv hp
    have hflags : f = e.flags := by
      obtain ⟨e', he', rfl⟩ := map_inv hf
      rw [he] at he'
      rw [some.inj he']
    subst hflags
    rw [hdiv] at hrun
    refine .inr ⟨e, he, ?_⟩
    obtain ⟨⟨r, swap⟩, hs, hrun⟩ := bind_inv hrun
    cases r with
    | none =>
      cases hrun
      exact .inl ⟨swap, hs, rfl, rfl, rfl⟩
    | some slot =>
      obtain ⟨⟨freed, c₁⟩, hu, hrun⟩ := bind_inv hrun
      cases hrun
      obtain ⟨e', he', rfl, rfl⟩ := unmapPage_inv hu
      obtain rfl : e = e' := some.inj (he.symm.trans he')
      refine .inr ⟨slot, swap, hs, rfl, ?_, rfl⟩
      rw [alignDown, Nat.mul_comm]
      rfl
  · cases hrun
    exact .inl ⟨rfl, rfl, rfl⟩

/-! ## The entries and the records afterwards -/

/-- After a fault, an entry is an old one, or that of the page if the fault was handled, with the
flags of its record or of its area; a record is an old one. -/
theorem handleFault_entries {isWrite : Bool}
    (h : handleFault v c root addr isWrite = some (ok, v', c')) :
    (∀ p e, c'.leaf root p = some e → c.leaf root p = some e ∨ (p = addr / 4096 ∧ ok = true ∧
      ((∃ slot, v.swapped (frameAddr p) = some (slot, e.flags)) ∨
        ∃ area, v.areas.find? (fun a => a.has addr) = some area ∧ e.flags = area.flags))) ∧
    (∀ a r, v'.swapped a = some r → v.swapped a = some r) := by
  -- mapping the page leaves one new entry
  have hmap : ∀ {c₁ : Shared T} {f : Nat} {fl : PageTableFlags} {p : Nat} {e : Entry},
      mapPage c₁ root (addr / 4096) ⟨f, fl⟩ = some c' → c'.leaf root p = some e →
      (p = addr / 4096 ∧ e.flags = fl) ∨ (p ≠ addr / 4096 ∧ c₁.leaf root p = some e) := by
    intro c₁ f fl p e hm he
    rw [mapPage_leaf hm] at he
    split at he
    next hp =>
      cases he
      exact .inl ⟨hp, rfl⟩
    next hp => exact .inr ⟨hp, he⟩
  have hkept : ∀ {r : Option Nat} {c₁ : Shared T} {p : Nat} {e : Entry},
      c.allocate = some (r, c₁) → c₁.leaf root p = some e → c.leaf root p = some e :=
    fun ha he => allocate_leaf ha ▸ he
  rcases handleFault_inv h with ⟨slot, fl, hs, rfl, hin⟩ | ⟨_, rfl, hcase⟩
  · refine ⟨fun p e he => ?_, fun a r hr => ?_⟩
    · rcases swapInPage_inv hin with ⟨_, ha⟩ | ⟨hok, f, c₁, mem, swap, ha, _, hm⟩
      · exact .inl (hkept ha he)
      · obtain ⟨rfl, rfl⟩ | ⟨_, he⟩ := hmap hm he
        · exact .inr ⟨rfl, hok, .inl ⟨slot, hs⟩⟩
        · exact .inl (hkept ha he)
    · rw [Vmm.removeSwapped_swapped] at hr
      split at hr
      · cases hr
      · exact hr
  refine ⟨fun p e he => ?_, fun a r hr => hr⟩
  rcases hcase with ⟨_, rfl⟩ | ⟨area, phys, hfind, _, _, _, hcow⟩ | ⟨area, hfind, _, hzero⟩
  · exact .inl he
  · rcases copyOnWrite_inv hcow with ⟨_, ha⟩ | ⟨hok, f, c₁, g, c₂, ha, hu, hm⟩
    · exact .inl (hkept ha he)
    · obtain ⟨rfl, hfl⟩ | ⟨hp, he⟩ := hmap hm he
      · exact .inr ⟨rfl, hok, .inr ⟨area, hfind, hfl⟩⟩
      · rw [unmapPage_leaf hu, if_neg hp] at he
        exact .inl (hkept ha he)
  · rcases zeroFill_inv hzero with ⟨_, ha⟩ | ⟨hok, f, c₁, ha, hm⟩
    · exact .inl (hkept ha he)
    · obtain ⟨rfl, hfl⟩ | ⟨_, he⟩ := hmap hm he
      · exact .inr ⟨rfl, hok, .inr ⟨area, hfind, hfl⟩⟩
      · exact .inl (hkept ha he)

/-- After an eviction, an entry is an old one; a record is an old one, or that of the page
with the flags of its entry. -/
theorem evictAddr_entries (h : evictAddr v c root addr = some (ok, v', c')) :
    (∀ p e, c'.leaf root p = some e → c.leaf root p = some e) ∧
    (∀ a r, v'.swapped a = some r → v.swapped a = some r ∨
      (a = frameAddr (addr / 4096) ∧ ∃ e, c.leaf root (addr / 4096) = some e ∧
        r.2 = { e.flags with accessed := false, dirty := false })) := by
  rcases evictAddr_inv h with
    ⟨_, rfl, rfl⟩ | ⟨e, he, ⟨swap, _, _, rfl, rfl⟩ | ⟨slot, swap, _, _, rfl, rfl⟩⟩
  · exact ⟨fun p e he => he, fun a r hr => .inl hr⟩
  · exact ⟨fun p e he => he, fun a r hr => .inl hr⟩
  · refine ⟨fun p e' hp => ?_, fun a r hr => ?_⟩
    · have hun : T.leaf (T.unmap c.tables root (addr / 4096)) root p = some e' := hp
      rw [T.leaf_unmap] at hun
      split at hun
      · cases hun
      · exact hun
    · rw [Vmm.recordSwapped_swapped] at hr
      split at hr
      next ha =>
        cases hr
        exact .inr ⟨ha, e, he, rfl⟩
      · exact .inl hr

theorem releasePage_leaf (h : releasePage root addr c = some c') (p : Nat) :
    c'.leaf root p = if p = addr / 4096 then none else c.leaf root p := by
  unfold releasePage at h
  split at h
  · obtain ⟨⟨f, c₁⟩, hu, rfl⟩ := map_inv h
    exact unmapPage_leaf hu p
  next hnone =>
    cases h
    have hleaf := map_eq_none_iff.mp hnone
    split
    next hp => rw [hp, hleaf]
    · rfl

theorem protectPage_leaf (h : protectPage root flags addr c = some c') (p : Nat) :
    c'.leaf root p = if p = addr / 4096 then (c.leaf root p).map fun e => { e with flags := flags }
      else c.leaf root p := by
  unfold protectPage at h
  split at h
  · exact remapFlags_leaf h p
  next hnone =>
    cases h
    have hleaf := map_eq_none_iff.mp hnone
    split
    next hp =>
      rw [hp, hleaf]
      rfl
    · rfl

end Inversion

end Faults

end AlaphiOS.Memory
