import AlaphiOS.Lib.Checked
import AlaphiOS.Memory.Swap

/-!
# Page tables

`kernel/src/arch/paging.rs`. The page-table walk itself is the `x86_64` crate's
`OffsetPageTable`, which is not part of this repository. `PageTables` is what
the kernel relies on: the operations `map_to`, `unmap`, `update_flags` and
`translate` on four-level tables, with what their documentation promises, as
the laws of a structure. Every result below holds for any such tables; the
tables of `walkTables` show that the laws can be met.

Mirroring notes:
- A virtual address is its value, a page is the address divided by 4096, an
  address space is the frame of its level-4 table (`cr3`).
- All page tables of the machine are one value, because they are not separate:
  `clone_kernel_half` copies the level-4 entries recorded by
  `record_kernel_l4_entries`, so the tables below these entries are the same
  ones in every address space. A page under such an entry is a `KernelPage`,
  and changing it in one address space changes it in all of them.
- `map_to` takes the frames of missing tables from the frame allocator and
  stops (`expect`) when there are none or when the page is in use. The bytes of
  a frame that serves as a table are the table, so the model keeps them in the
  tables and not in the memory.
- `PageTableFlags` are the five bits the kernel uses.
-/

namespace AlaphiOS.Memory

open Lib List
open Option (bind_eq_some_iff isSome_iff_exists)

/-- The flags in use. -/
structure PageTableFlags where
  present : Bool
  writable : Bool
  userAccessible : Bool
  accessed : Bool
  dirty : Bool
  deriving DecidableEq

/-- `flags & !WRITABLE`. -/
def PageTableFlags.readOnly (f : PageTableFlags) : PageTableFlags := { f with writable := false }

/-- `PRESENT | USER_ACCESSIBLE`, and `| WRITABLE` on demand. -/
def userFlags (writable : Bool) : PageTableFlags := ⟨true, writable, true, false, false⟩

/-- A used leaf entry of a page table. -/
structure Entry where
  frame : Nat
  flags : PageTableFlags
  deriving DecidableEq

/-- The operations on page tables: by level-4 frame `root` and page. -/
structure PageTableOps where
  /-- Every page table of the machine. -/
  State : Type
  /-- `KERNEL_L4_PRESENT`. -/
  kernelL4 : Nat → Bool
  /-- The leaf entry of a page, if it is in use. -/
  leaf : State → Nat → Nat → Option Entry
  /-- Is there a table of level 1, 2 or 3 with this index path? -/
  hasTable : State → Nat → Nat → Nat → Bool
  /-- Set up a new level-4 table: the kernel entries, nothing else. -/
  cloneKernel : State → Nat → State
  mapTo : State → Nat → Nat → Entry → State
  unmap : State → Nat → Nat → State
  updateFlags : State → Nat → Nat → PageTableFlags → State

namespace PageTableOps

/-- The page lies under a level-4 entry that all address spaces share. -/
def KernelPage (T : PageTableOps) (page : Nat) : Prop := T.kernelL4 (page / 512 ^ 3) = true

instance (T : PageTableOps) (page : Nat) : Decidable (T.KernelPage page) :=
  inferInstanceAs (Decidable (_ = _))

/-- Two pages of two address spaces have one and the same leaf entry. -/
def SameLeaf (T : PageTableOps) (root page root' page' : Nat) : Prop :=
  page' = page ∧ (root' = root ∨ T.KernelPage page)

instance (T : PageTableOps) (root page root' page' : Nat) :
    Decidable (T.SameLeaf root page root' page') :=
  inferInstanceAs (Decidable (_ ∧ _))

/-- How many tables are missing on the way to the page's leaf entry. -/
def missing (T : PageTableOps) (st : T.State) (root page : Nat) : Nat :=
  ([3, 2, 1].filter fun level => !T.hasTable st root level (page / 512 ^ level)).length

end PageTableOps

/-- What the `x86_64` crate promises of these operations. -/
structure PageTables extends PageTableOps where
  leaf_kernel : ∀ {st root root' page}, toPageTableOps.KernelPage page →
    leaf st root page = leaf st root' page
  leaf_cloneKernel : ∀ st root root' page, leaf (cloneKernel st root) root' page
    = if root' = root ∧ ¬ toPageTableOps.KernelPage page then none else leaf st root' page
  leaf_mapTo : ∀ st root page e root' page', leaf (mapTo st root page e) root' page'
    = if toPageTableOps.SameLeaf root page root' page' then some e else leaf st root' page'
  leaf_unmap : ∀ st root page root' page', leaf (unmap st root page) root' page'
    = if toPageTableOps.SameLeaf root page root' page' then none else leaf st root' page'
  leaf_updateFlags : ∀ st root page flags root' page',
    leaf (updateFlags st root page flags) root' page'
    = if toPageTableOps.SameLeaf root page root' page'
      then (leaf st root' page').map fun e => { e with flags := flags }
      else leaf st root' page'
  hasTable_kernel : ∀ {st root root' level x}, level ≤ 3 →
    kernelL4 (x / 512 ^ (3 - level)) = true → hasTable st root level x = hasTable st root' level x
  hasTable_cloneKernel : ∀ st root root' level x, level ≤ 3 →
    hasTable (cloneKernel st root) root' level x
    = if root' = root ∧ kernelL4 (x / 512 ^ (3 - level)) = false then false
      else hasTable st root' level x
  hasTable_mapTo : ∀ st root page e root' level x, hasTable (mapTo st root page e) root' level x
    = (hasTable st root' level x
      || decide (x = page / 512 ^ level ∧ 1 ≤ level ∧ level ≤ 3
        ∧ (root' = root ∨ toPageTableOps.KernelPage page)))
  hasTable_unmap : ∀ st root page root' level x,
    hasTable (unmap st root page) root' level x = hasTable st root' level x
  hasTable_updateFlags : ∀ st root page flags root' level x,
    hasTable (updateFlags st root page flags) root' level x = hasTable st root' level x

/-- Tables as plain functions. Entries and tables under a kernel entry are kept
under root `0`, whatever root they are reached from. -/
def walkOps (kernelL4 : Nat → Bool) : PageTableOps where
  State := (Nat → Nat → Option Entry) × (Nat → Nat → Nat → Bool)
  kernelL4 := kernelL4
  leaf st root page := st.1 (if kernelL4 (page / 512 ^ 3) then 0 else root) page
  hasTable st root level x := st.2 (if kernelL4 (x / 512 ^ (3 - level)) then 0 else root) level x
  cloneKernel st root :=
    (fun r p => if r = root ∧ kernelL4 (p / 512 ^ 3) = false then none else st.1 r p,
     fun r l x => if r = root ∧ kernelL4 (x / 512 ^ (3 - l)) = false then false else st.2 r l x)
  mapTo st root page e :=
    (fun r p => if p = page ∧ r = (if kernelL4 (page / 512 ^ 3) then 0 else root) then some e
      else st.1 r p,
     fun r l x => st.2 r l x || decide (x = page / 512 ^ l ∧ 1 ≤ l ∧ l ≤ 3
       ∧ r = (if kernelL4 (page / 512 ^ 3) then 0 else root)))
  unmap st root page :=
    (fun r p => if p = page ∧ r = (if kernelL4 (page / 512 ^ 3) then 0 else root) then none
      else st.1 r p, st.2)
  updateFlags st root page flags :=
    (fun r p => if p = page ∧ r = (if kernelL4 (page / 512 ^ 3) then 0 else root)
      then (st.1 r p).map fun e => { e with flags := flags } else st.1 r p, st.2)

/-- Two roots lead to the same place exactly if they are equal or it is shared. -/
theorem home_eq_iff {shared : Bool} {root root' : Nat} :
    (if shared then 0 else root') = (if shared then 0 else root) ↔
      root' = root ∨ shared = true := by
  cases shared <;> simp

/-- Where `walkOps` keeps a page: reached from `root'`, it is the entry of
`root` exactly when the two share the leaf. -/
theorem walkOps_home (kernelL4 : Nat → Bool) (root page root' page' : Nat) :
    (page' = page ∧ (if kernelL4 (page' / 512 ^ 3) then 0 else root')
        = if kernelL4 (page / 512 ^ 3) then 0 else root)
      ↔ (walkOps kernelL4).SameLeaf root page root' page' := by
  unfold PageTableOps.SameLeaf PageTableOps.KernelPage
  refine and_congr_right (fun hp => ?_)
  subst hp
  exact home_eq_iff

/-- A table on the way to a page is under the same level-4 entry. -/
theorem table_l4 {level : Nat} (h : level ≤ 3) (page : Nat) :
    page / 512 ^ level / 512 ^ (3 - level) = page / 512 ^ 3 := by
  rw [Nat.div_div_eq_div_mul, ← Nat.pow_add, Nat.add_sub_cancel' h]

def walkTables (kernelL4 : Nat → Bool) : PageTables where
  toPageTableOps := walkOps kernelL4
  leaf_kernel := by
    intro st root root' page h
    have h : kernelL4 (page / 512 ^ 3) = true := h
    simp only [walkOps, h, if_true]
  leaf_cloneKernel := by
    intro st root root' page
    show (if (if kernelL4 (page / 512 ^ 3) then 0 else root') = root ∧ kernelL4 (page / 512 ^ 3) = false
        then none else st.1 (if kernelL4 (page / 512 ^ 3) then 0 else root') page)
      = if root' = root ∧ ¬ kernelL4 (page / 512 ^ 3) = true then none
        else st.1 (if kernelL4 (page / 512 ^ 3) then 0 else root') page
    cases kernelL4 (page / 512 ^ 3) <;> simp
  leaf_mapTo := fun st root page e root' page' =>
    if_congr (walkOps_home kernelL4 root page root' page') rfl rfl
  leaf_unmap := fun st root page root' page' =>
    if_congr (walkOps_home kernelL4 root page root' page') rfl rfl
  leaf_updateFlags := fun st root page flags root' page' =>
    if_congr (walkOps_home kernelL4 root page root' page') rfl rfl
  hasTable_kernel := by
    intro st root root' level x _ h
    have h : kernelL4 (x / 512 ^ (3 - level)) = true := h
    simp only [walkOps, h, if_true]
  hasTable_cloneKernel := by
    intro st root root' level x _
    by_cases hk : kernelL4 (x / 512 ^ (3 - level)) = true <;> simp [walkOps, hk]
  hasTable_mapTo := by
    intro st root page e root' level x
    simp only [walkOps, PageTableOps.KernelPage]
    congr 1
    refine decide_eq_decide.mpr (and_congr_right fun hx => and_congr_right fun _ =>
      and_congr_right fun h₃ => ?_)
    rw [hx, table_l4 h₃]
    exact home_eq_iff
  hasTable_unmap := fun _ _ _ _ _ _ => rfl
  hasTable_updateFlags := fun _ _ _ _ _ _ _ => rfl

/-! ## The state all tasks share -/

/-- Physical memory, `FRAME_ALLOCATOR`, `SWAP` and the page tables. -/
structure Shared (T : PageTables) where
  mem : Mem
  frameAllocator : FreeListAllocator
  swap : SwapPartition
  tables : T.State

section Mapper

variable {T : PageTables}

/-- The leaf entry of a page in the tables of a state. -/
def Shared.leaf (c : Shared T) (root page : Nat) : Option Entry := T.leaf c.tables root page

/-- `FRAME_ALLOCATOR.lock().allocate()`. -/
def Shared.allocate (c : Shared T) : Option (Option Nat × Shared T) :=
  (c.frameAllocator.allocate c.mem).map fun r => (r.1, { c with frameAllocator := r.2 })

/-- `FRAME_ALLOCATOR.lock().deallocate(frame)`. -/
def Shared.deallocate (c : Shared T) (frame : Nat) : Shared T :=
  let r := c.frameAllocator.deallocate c.mem frame
  { c with mem := r.1, frameAllocator := r.2 }

/-- `map_to` asking the frame allocator for `n` tables. -/
def takeTables : Nat → Shared T → Option (Shared T)
  | 0, c => some c
  | n + 1, c => do
    match ← c.allocate with
    | (some _, c) => takeTables n c
    | (none, _) => none

/-- `PageMapper::map_page`. -/
def mapPage (c : Shared T) (root page : Nat) (e : Entry) : Option (Shared T) := do
  let c ← takeTables (T.missing c.tables root page) c
  match c.leaf root page with
  | some _ => none
  | none => some { c with tables := T.mapTo c.tables root page e }

/-- `PageMapper::unmap_page`: the frame that was mapped. -/
def unmapPage (c : Shared T) (root page : Nat) : Option (Nat × Shared T) :=
  match c.leaf root page with
  | some e =>
    if e.flags.present then some (e.frame, { c with tables := T.unmap c.tables root page })
    else none
  | none => none

/-- `PageMapper::translate_addr`. -/
def translateAddr (c : Shared T) (root virt : Nat) : Option Nat :=
  (c.leaf root (virt / 4096)).map fun e => frameAddr e.frame + virt % 4096

/-- `PageMapper::page_flags`. -/
def pageFlags (c : Shared T) (root virt : Nat) : Option PageTableFlags :=
  (c.leaf root (virt / 4096)).map Entry.flags

/-- `PageMapper::remap_flags`. -/
def remapFlags (c : Shared T) (root page : Nat) (flags : PageTableFlags) : Option (Shared T) :=
  match c.leaf root page with
  | some _ => some { c with tables := T.updateFlags c.tables root page flags }
  | none => none

/-- `PageMapper::clone_kernel_half`: a new address space with an empty user half. -/
def cloneKernelHalf (c : Shared T) : Option (Nat × Shared T) := do
  match ← c.allocate with
  | (some root, c) => some (root, { c with tables := T.cloneKernel c.tables root })
  | (none, _) => none

/-! ### What they did, when they returned -/

variable {c c' : Shared T} {root page addr : Nat} {flags : PageTableFlags} {e : Entry}

theorem mapPage_inv (h : mapPage c root page e = some c') :
    ∃ c₁, takeTables (T.missing c.tables root page) c = some c₁ ∧ c₁.leaf root page = none ∧
      c' = { c₁ with tables := T.mapTo c₁.tables root page e } := by
  obtain ⟨c₁, htake, h⟩ := bind_inv h
  refine ⟨c₁, htake, ?_⟩
  split at h
  · cases h
  next hnone => exact ⟨hnone, (Option.some.inj h).symm⟩

variable {r : Option Nat}

theorem allocate_eq (h : c.allocate = some (r, c')) :
    ∃ fa, c' = { c with frameAllocator := fa } := by
  obtain ⟨⟨_, fa⟩, _, heq⟩ := map_inv h
  injection heq with _ hc
  exact ⟨fa, hc.symm⟩

/-- `allocate` returns `None` exactly where the list is empty. -/
theorem allocate_head (h : c.allocate = some (r, c')) :
    (r = none ∧ c.frameAllocator.head = none ∧ c' = c) ∨
    ((∃ f, r = some f) ∧ c.frameAllocator.head ≠ none ∧ c'.mem = c.mem ∧ c'.swap = c.swap) := by
  obtain ⟨⟨r, fa⟩, hfa, heq⟩ := map_inv h
  cases heq
  unfold FreeListAllocator.allocate at hfa
  split at hfa
  next hnone =>
    cases hfa
    exact .inl ⟨rfl, hnone, rfl⟩
  next p hp =>
    right
    dsimp only at hfa
    split at hfa
    · cases hfa
    split at hfa
    · cases hfa
    · cases hfa
      exact ⟨⟨_, rfl⟩, by simp [hp], rfl, rfl⟩

theorem takeTables_eq (n : Nat) (h : takeTables n c = some c') :
    ∃ fa, c' = { c with frameAllocator := fa } := by
  induction n generalizing c c' with
  | zero =>
    cases h
    exact ⟨c.frameAllocator, rfl⟩
  | succ n ih =>
    rw [takeTables] at h
    obtain ⟨⟨r, c₁⟩, ha, h⟩ := bind_inv h
    obtain ⟨fa, rfl⟩ := allocate_eq ha
    cases r with
    | none => cases h
    | some _ =>
      obtain ⟨fa', hc⟩ := ih h
      exact ⟨fa', hc⟩

/-- `map_page` changes the tables and takes frames; nothing else. -/
theorem mapPage_eq (h : mapPage c root page e = some c') :
    c.leaf root page = none ∧
      ∃ fa, c' = { c with frameAllocator := fa, tables := T.mapTo c.tables root page e } := by
  obtain ⟨c₁, htake, hnone, rfl⟩ := mapPage_inv h
  obtain ⟨fa, rfl⟩ := takeTables_eq _ htake
  exact ⟨hnone, fa, rfl⟩

variable {f : Nat}

theorem unmapPage_inv (h : unmapPage c root page = some (f, c')) :
    ∃ e, c.leaf root page = some e ∧ f = e.frame ∧
      c' = { c with tables := T.unmap c.tables root page } := by
  unfold unmapPage at h
  split at h
  next e he =>
    split at h
    · cases h
      exact ⟨e, he, rfl, rfl⟩
    · cases h
  · cases h

theorem remapFlags_inv (h : remapFlags c root page flags = some c') :
    (∃ e, c.leaf root page = some e) ∧
      c' = { c with tables := T.updateFlags c.tables root page flags } := by
  unfold remapFlags at h
  split at h
  next e he => exact ⟨⟨e, he⟩, (Option.some.inj h).symm⟩
  · cases h

theorem translateAddr_inv {phys : Nat} (h : translateAddr c root addr = some phys) :
    ∃ e, c.leaf root (addr / 4096) = some e ∧ phys = frameAddr e.frame + addr % 4096 ∧
      phys / 4096 = e.frame := by
  obtain ⟨e, he, rfl⟩ := map_inv h
  refine ⟨e, he, rfl, ?_⟩
  unfold frameAddr
  omega

theorem cloneKernelHalf_inv (h : cloneKernelHalf c = some (root, c')) :
    ∃ c₁, c.allocate = some (some root, c₁) ∧
      c' = { c₁ with tables := T.cloneKernel c₁.tables root } := by
  obtain ⟨⟨r, c₁⟩, ha, h⟩ := bind_inv h
  cases r with
  | none => cases h
  | some f =>
    injection Option.some.inj h with hf hc
    subst hf
    exact ⟨c₁, ha, hc.symm⟩

/-! ### The entries of the address space afterwards -/

theorem sameLeaf_root {page' : Nat} : T.SameLeaf root page root page' ↔ page' = page := by
  simp only [PageTableOps.SameLeaf, true_or, and_true]

theorem allocate_leaf (h : c.allocate = some (r, c')) : c'.leaf = c.leaf := by
  obtain ⟨_, rfl⟩ := allocate_eq h
  rfl

theorem mapPage_leaf (h : mapPage c root page e = some c') (p : Nat) :
    c'.leaf root p = if p = page then some e else c.leaf root p := by
  obtain ⟨_, _, rfl⟩ := mapPage_eq h
  exact (T.leaf_mapTo ..).trans (if_congr sameLeaf_root rfl rfl)

theorem unmapPage_leaf (h : unmapPage c root page = some (f, c')) (p : Nat) :
    c'.leaf root p = if p = page then none else c.leaf root p := by
  obtain ⟨_, _, _, rfl⟩ := unmapPage_inv h
  exact (T.leaf_unmap ..).trans (if_congr sameLeaf_root rfl rfl)

theorem remapFlags_leaf (h : remapFlags c root page flags = some c') (p : Nat) :
    c'.leaf root p = if p = page then (c.leaf root p).map fun e => { e with flags := flags }
      else c.leaf root p := by
  obtain ⟨_, rfl⟩ := remapFlags_inv h
  exact (T.leaf_updateFlags ..).trans (if_congr sameLeaf_root rfl rfl)

end Mapper

/-! ## Virtual addresses -/

/-- The sign extension of 48 bits. -/
def Canonical (a : Nat) : Prop := a < 2 ^ 47 ∨ (2 ^ 64 - 2 ^ 47 ≤ a ∧ a < 2 ^ 64)

instance (a : Nat) : Decidable (Canonical a) := inferInstanceAs (Decidable (_ ∨ _))

/-- `VirtAddr::new`. -/
def virtAddr (a : Nat) : Option Nat := if Canonical a then some a else none

/-- `VirtAddr + u64`. -/
def virtAdd (a n : Nat) : Option Nat := (usizeAdd a n).bind virtAddr

/-- `& !0xFFF`. -/
def alignDown (a : Nat) : Nat := a / 4096 * 4096

/-- `while addr < end { body; addr += 4096 }`; the fuel is the number of pages
that are left. -/
def pageLoop {σ : Type} (body : Nat → σ → Option σ) (end_ : Nat) : Nat → Nat → σ → Option σ
  | 0, _, s => some s
  | fuel + 1, addr, s =>
    if addr < end_ then do
      let s ← body addr s
      let addr ← virtAdd addr 4096
      pageLoop body end_ fuel addr s
    else some s

/-- `pageLoop` from `start`, with fuel for every page of the range. -/
def forPages {σ : Type} (body : Nat → σ → Option σ) (start end_ : Nat) (s : σ) : Option σ :=
  pageLoop body end_ ((end_ - start) / 4096 + 1) start s

variable {a b end_ n start : Nat} {σ : Type}

theorem canonical_of_virtAddr (h : virtAddr a = some b) : Canonical a ∧ b = a := by
  unfold virtAddr at h
  split at h
  next ha => exact ⟨ha, (Option.some.inj h).symm⟩
  · cases h

theorem virtAddr_eq (h : virtAddr a = some b) : b = a := (canonical_of_virtAddr h).2

theorem virtAdd_eq (h : virtAdd a n = some b) : b = a + n := by
  obtain ⟨c, hc, hb⟩ := bind_inv h
  obtain ⟨rfl, _⟩ := usizeAdd_eq hc
  exact virtAddr_eq hb

variable {body : Nat → σ → Option σ} {s s' : σ} {I : Nat → σ → Prop}

/-- The invariant rule for a page loop: a relation between the next address
and the state that every round keeps. -/
theorem pageLoop_rule
    (hbody : ∀ addr s s', addr < end_ → I addr s → body addr s = some s' → I (addr + 4096) s')
    (fuel addr : Nat) (hf : end_ ≤ addr + 4096 * fuel) (hI : I addr s)
    (hrun : pageLoop body end_ fuel addr s = some s') : ∃ last, end_ ≤ last ∧ I last s' := by
  induction fuel generalizing addr s s' with
  | zero =>
    cases hrun
    exact ⟨addr, hf, hI⟩
  | succ fuel ih =>
    rw [pageLoop] at hrun
    split at hrun
    next hlt =>
      obtain ⟨s₁, hs₁, hrun⟩ := bind_inv hrun
      obtain ⟨addr', ha, hrun⟩ := bind_inv hrun
      obtain rfl := virtAdd_eq ha
      exact ih _ (by omega) (hbody addr s s₁ hlt hI hs₁) hrun
    next hge =>
      cases hrun
      exact ⟨addr, Nat.le_of_not_lt hge, hI⟩

theorem forPages_rule
    (hbody : ∀ addr s s', addr < end_ → I addr s → body addr s = some s' → I (addr + 4096) s')
    (hI : I start s) (h : forPages body start end_ s = some s') : ∃ last, end_ ≤ last ∧ I last s' :=
  pageLoop_rule hbody _ _ (by omega) hI h

/-- A page loop keeps `J` if its body does on the pages with `X`, and the pages of the range
have `X` and keep it. -/
theorem forPages_keeps {σ : Type} {body : Nat → σ → Option σ} {J : σ → Prop} {X : σ → Nat → Prop}
    {s s' : σ} (hbody : ∀ addr s s', J s → X s (addr / 4096) → body addr s = some s' →
      J s' ∧ ∀ page, X s page → X s' page)
    (hJ : J s) (hX : ∀ page, start ≤ frameAddr page + 4095 → frameAddr page < end_ → X s page)
    (h : forPages body start end_ s = some s') : J s' := by
  have hI := forPages_rule (I := fun addr s => start ≤ addr ∧ J s ∧
      ∀ page, start ≤ frameAddr page + 4095 → frameAddr page < end_ → X s page)
    (fun addr s s' hlt hI hr => by
      obtain ⟨hle, hJ, hX⟩ := hI
      have hin : start ≤ frameAddr (addr / 4096) + 4095 ∧ frameAddr (addr / 4096) < end_ := by
        unfold frameAddr
        omega
      obtain ⟨hJ', hX'⟩ := hbody addr s s' hJ (hX _ hin.1 hin.2) hr
      exact ⟨by omega, hJ', fun page h₁ h₂ => hX' page (hX page h₁ h₂)⟩)
    ⟨Nat.le_refl _, hJ, hX⟩ h
  obtain ⟨_, _, _, hJ', _⟩ := hI
  exact hJ'

/-- A page loop whose body changes the entry of its page: so are the entries of all pages of
the range. -/
theorem forPages_leaf {T : PageTables} {body : Nat → Shared T → Option (Shared T)}
    {g : Nat → Option Entry → Option Entry} {root : Nat} {c c' : Shared T}
    (hbody : ∀ addr c c', body addr c = some c' → ∀ p,
      c'.leaf root p = if p = addr / 4096 then g p (c.leaf root p) else c.leaf root p)
    (hstart : start % 4096 = 0) (hle : start ≤ end_)
    (h : forPages body start end_ c = some c') (p : Nat) :
    c'.leaf root p = if start ≤ frameAddr p ∧ frameAddr p < end_ then g p (c.leaf root p)
      else c.leaf root p := by
  unfold frameAddr
  -- the entries below the next address have been changed, the others have not
  let I (addr : Nat) (c₁ : Shared T) : Prop := addr % 4096 = 0 ∧ start ≤ addr ∧ addr < end_ + 4096 ∧
    c₁.leaf root p = if start ≤ 4096 * p ∧ 4096 * p < addr then g p (c.leaf root p)
      else c.leaf root p
  have hround : ∀ addr c₁ c₂, addr < end_ → I addr c₁ → body addr c₁ = some c₂ →
      I (addr + 4096) c₂ := by
    rintro addr c₁ c₂ hlt ⟨hpages, hge, _, hI⟩ hc₂
    refine ⟨by omega, by omega, by omega, ?_⟩
    rw [hbody addr c₁ c₂ hc₂ p, hI]
    by_cases hp : p = addr / 4096
    · rw [if_pos hp, if_neg (by omega), if_pos (by omega)]
    · rw [if_neg hp]
      exact if_congr (by omega) rfl rfl
  obtain ⟨last, hlast, hpages, _, hmax, hI⟩ :=
    forPages_rule hround ⟨hstart, Nat.le_refl _, by omega, (if_neg (by omega)).symm⟩ h
  rw [hI]
  exact if_congr (by omega) rfl rfl

theorem canonical_of_virtAdd (h : virtAdd a n = some b) : Canonical (a + n) := by
  obtain ⟨c, hc, hb⟩ := bind_inv h
  obtain ⟨rfl, _⟩ := usizeAdd_eq hc
  exact (canonical_of_virtAddr hb).1

theorem virtAdd_of_canonical (h : Canonical (a + n)) : virtAdd a n = some (a + n) := by
  have hlt : a + n < 2 ^ 64 := by
    unfold Canonical at h
    omega
  rw [virtAdd, usizeAdd, if_pos hlt]
  exact if_pos h

/-- A page loop returns if its body does, in every state that keeps an invariant, and its address
stays a virtual address. -/
theorem forPages_returns {I : σ → Prop}
    (hbody : ∀ addr s, start ≤ addr → addr < end_ → addr % 4096 = start % 4096 → I s →
      ∃ s', body addr s = some s' ∧ I s')
    (hpages : ∀ addr, start ≤ addr → addr < end_ → addr % 4096 = start % 4096 →
      Canonical (addr + 4096)) (hI : I s) :
    ∃ s', forPages body start end_ s = some s' ∧ I s' := by
  have hloop : ∀ (fuel addr : Nat) (s : σ), start ≤ addr → addr % 4096 = start % 4096 → I s →
      ∃ s', pageLoop body end_ fuel addr s = some s' ∧ I s' := by
    intro fuel
    induction fuel with
    | zero => exact fun _ s _ _ hI => ⟨s, rfl, hI⟩
    | succ fuel ih =>
      intro addr s hle hmod hI
      rw [pageLoop]
      split
      next hlt =>
        obtain ⟨s₁, hs₁, hI₁⟩ := hbody addr s hle hlt hmod hI
        rw [bind_of_eq hs₁, bind_of_eq (virtAdd_of_canonical (hpages addr hle hlt hmod))]
        exact ih _ _ (by omega) (by omega) hI₁
      · exact ⟨s, rfl, hI⟩
  exact hloop _ _ _ (Nat.le_refl _) rfl hI

/-- With a body that always returns. -/
theorem forPages_isSome (hbody : ∀ addr s, (body addr s).isSome)
    (hpages : ∀ addr, start ≤ addr → addr < end_ → addr % 4096 = start % 4096 →
      Canonical (addr + 4096)) (s : σ) : (forPages body start end_ s).isSome := by
  have hreturns : ∃ s', forPages body start end_ s = some s' ∧ True := by
    refine forPages_returns (fun addr s _ _ _ _ => ?_) hpages trivial
    obtain ⟨s', hs'⟩ := isSome_iff_exists.mp (hbody addr s)
    exact ⟨s', hs', trivial⟩
  obtain ⟨s', hs', _⟩ := hreturns
  exact isSome_iff_exists.mpr ⟨s', hs'⟩

/-- The addresses a page loop visits. -/
def pageAddrs (start end_ : Nat) : List Nat :=
  (range ((end_ - start + 4095) / 4096)).map fun k => start + 4096 * k

theorem pageAddrs_of_lt {addr : Nat} (h : addr < end_) :
    pageAddrs addr end_ = addr :: pageAddrs (addr + 4096) end_ := by
  have hlen : (end_ - addr + 4095) / 4096 = (end_ - (addr + 4096) + 4095) / 4096 + 1 := by omega
  unfold pageAddrs
  rw [hlen, range_succ_eq_map, map_cons, map_map]
  refine congrArg (cons addr) (map_congr_left fun k _ => ?_)
  show addr + 4096 * (k + 1) = addr + 4096 + 4096 * k
  omega

theorem pageAddrs_of_le {addr : Nat} (h : end_ ≤ addr) : pageAddrs addr end_ = [] := by
  have hlen : (end_ - addr + 4095) / 4096 = 0 := by omega
  rw [pageAddrs, hlen]
  rfl

theorem mem_pageAddrs {x : Nat} (h : x ∈ pageAddrs start end_) : start ≤ x ∧ x < end_ := by
  obtain ⟨k, hk, rfl⟩ := mem_map.mp h
  have hk := mem_range.mp hk
  omega

/-- A page loop that returns is a loop over these addresses. -/
theorem pageLoop_foldlM (fuel addr : Nat) (hf : end_ ≤ addr + 4096 * fuel)
    (hrun : pageLoop body end_ fuel addr s = some s') :
    (pageAddrs addr end_).foldlM (fun s addr => body addr s) s = some s' := by
  induction fuel generalizing addr s s' with
  | zero =>
    rw [pageAddrs_of_le (show end_ ≤ addr by omega), foldlM_nil]
    exact hrun
  | succ fuel ih =>
    rw [pageLoop] at hrun
    split at hrun
    next hlt =>
      obtain ⟨s₁, hs₁, hrun⟩ := bind_inv hrun
      obtain ⟨addr', ha, hrun⟩ := bind_inv hrun
      obtain rfl := virtAdd_eq ha
      rw [pageAddrs_of_lt hlt, foldlM_cons]
      exact bind_eq_some_iff.mpr ⟨s₁, hs₁, ih _ (by omega) hrun⟩
    next hge =>
      rw [pageAddrs_of_le (Nat.le_of_not_lt hge), foldlM_nil]
      exact hrun

theorem forPages_foldlM (h : forPages body start end_ s = some s') :
    (pageAddrs start end_).foldlM (fun s addr => body addr s) s = some s' :=
  pageLoop_foldlM _ _ (by omega) h

/-- A page loop that only collects addresses. -/
theorem forPages_collect (p : Nat → Bool)
    (hpages : ∀ addr, start ≤ addr → addr < end_ → addr % 4096 = start % 4096 →
      Canonical (addr + 4096)) (acc : List Nat) :
    forPages (fun a acc => some (if p a then acc ++ [a] else acc)) start end_ acc
      = some (acc ++ (pageAddrs start end_).filter p) := by
  have hfold : ∀ (l acc : List Nat), l.foldlM (fun acc a => some (if p a then acc ++ [a] else acc))
      acc = some (acc ++ l.filter p) := by
    intro l
    induction l with
    | nil =>
      intro acc
      rw [filter_nil, append_nil]
      rfl
    | cons a l ih =>
      intro acc
      rw [foldlM_cons, Option.bind_eq_bind, Option.bind_some, ih]
      cases hp : p a with
      | true => rw [if_pos rfl, filter_cons_of_pos hp, append_assoc]; rfl
      | false =>
        rw [if_neg Bool.false_ne_true, filter_cons_of_neg (Bool.eq_false_iff.mp hp)]
  have hsome : (forPages (fun a acc => some (if p a then acc ++ [a] else acc)) start end_
      acc).isSome := forPages_isSome (fun _ _ => rfl) hpages acc
  obtain ⟨r, hr⟩ := isSome_iff_exists.mp hsome
  rw [hr, ← forPages_foldlM hr]
  exact hfold _ _

end AlaphiOS.Memory
