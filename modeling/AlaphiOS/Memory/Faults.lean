import AlaphiOS.Memory.FrameRuns

/-!
# What a page fault does to a page

`Vmm::handle_fault` by itself, for any areas and any tables: what the copy of a copy-on-write
fault holds, and what is left behind by a fault that could not be handled.

The copy starts at the translated fault *address*. So byte `k` of the new frame is the byte `k`
behind that address, and only a fault at the start of the page copies the page
(`cow_fault_keeps_page_iff`). Whether it does is not decided by the bytes that happen to be
there, so the theorem compares runs that differ in the contents of the old frame only;
`copyOnWrite_spec` is what lets it do that.

A fault that fails has changed nothing, with one exception: the record of a page on swap is
taken out of `swapped` before `allocate` is asked for a frame (`failed_fault_keeps_iff`).
-/

namespace AlaphiOS.Memory

open Lib List Option

variable {T : PageTables}

/-! ## The same run over another memory -/

section Memory

variable {c c' : Shared T} {free : List Nat} {m : Mem} {root page : Nat} {e : Entry}

/-- `allocate` reads the link word of a free frame, and nothing else. -/
theorem FreeFrames.allocate_congr {m' : Mem} {fa : FreeListAllocator} (h : FreeFrames m fa free)
    (hm : ∀ f ∈ free, readWord m' (frameAddr f) = readWord m (frameAddr f)) :
    fa.allocate m' = fa.allocate m := by
  unfold FreeListAllocator.allocate
  cases free with
  | nil => rw [h.chain.of_nil]
  | cons f rest =>
    rw [h.chain.of_cons.1]
    dsimp only
    rw [hm f mem_cons_self]

theorem takeTables_congr (n : Nat) (h : FreeFrames c.mem c.frameAllocator free)
    (hm : (∀ f ∈ free, readWord m (frameAddr f) = readWord c.mem (frameAddr f)))
    (hrun : takeTables n c = some c') :
    takeTables n { c with mem := m } = some { c' with mem := m } := by
  induction n generalizing c c' free with
  | zero =>
    cases hrun
    rfl
  | succ n ih =>
    rw [takeTables] at hrun ⊢
    obtain ⟨⟨r, c₁⟩, ha, hrun⟩ := bind_inv hrun
    obtain ⟨⟨r, fa⟩, hfa, heq⟩ := map_inv ha
    cases heq
    have ha' : ({ c with mem := m } : Shared T).allocate
        = some (r, { c with mem := m, frameAllocator := fa }) := by
      unfold Shared.allocate
      rw [h.allocate_congr hm, hfa]
      rfl
    rw [bind_of_eq ha']
    rcases h.allocate_cases hfa with ⟨_, rfl, _⟩ | ⟨f, rest, rfl, rfl, hrest⟩
    · cases hrun
    · exact ih (c := { c with frameAllocator := fa }) hrest
        (fun g hg => hm g (mem_cons_of_mem _ hg)) hrun

/-- `unmap_page` does not look at the memory at all. -/
theorem unmapPage_congr {f : Nat} (hrun : unmapPage c root page = some (f, c')) (m : Mem) :
    unmapPage { c with mem := m } root page = some (f, { c' with mem := m }) := by
  unfold unmapPage at hrun ⊢
  have hleaf : ({ c with mem := m } : Shared T).leaf root page = c.leaf root page := rfl
  rw [hleaf]
  split at hrun
  next e he =>
    split at hrun
    next hp =>
      cases hrun
      exact if_pos hp
    · cases hrun
  · cases hrun

theorem mapPage_congr (h : FreeFrames c.mem c.frameAllocator free)
    (hm : ∀ f ∈ free, readWord m (frameAddr f) = readWord c.mem (frameAddr f))
    (hrun : mapPage c root page e = some c') :
    mapPage { c with mem := m } root page e = some { c' with mem := m } := by
  obtain ⟨c₁, htake, hnone, rfl⟩ := mapPage_inv hrun
  unfold mapPage
  rw [bind_of_eq (takeTables_congr _ h hm htake)]
  have hnone' : ({ c₁ with mem := m } : Shared T).leaf root page = none := hnone
  rw [hnone']

end Memory

/-! ## Copy on write -/

section Cow

variable {v v' : Vmm} {c c' : Shared T} {root page addr phys : Nat} {flags : PageTableFlags}
  {area : VmArea} {e : Entry} {free : List Nat}

/-- A copy-on-write fault takes the first free frame, maps it and fills it with the bytes behind
`phys`; over another memory with the same free list it does the same. -/
theorem copyOnWrite_spec (hfree : FreeFrames c.mem c.frameAllocator free)
    (h : copyOnWrite c root page phys flags = some (true, c')) :
    ∃ f ∈ free, c'.leaf root page = some ⟨f, flags⟩ ∧
      c'.mem = copyBytes c.mem phys (frameAddr f) 4096 ∧
      ∀ m, (∀ g ∈ free, ∀ x, frameAddr g ≤ x → x < frameAddr g + 4096 → m x = c.mem x) →
        copyOnWrite { c with mem := m } root page phys flags
          = some (true, { c' with mem := copyBytes m phys (frameAddr f) 4096 }) := by
  rcases copyOnWrite_inv h with ⟨hok, _⟩ | ⟨_, f, c₁, g, c₂, ha, hu, hmap⟩
  · cases hok
  obtain ⟨⟨r, fa⟩, hfa, heq⟩ := map_inv ha
  cases heq
  rcases hfree.allocate_cases hfa with ⟨_, hr, _⟩ | ⟨f', rest, rfl, hr, hrest⟩
  · cases hr
  cases hr
  -- the copy goes to `f`, which is none of the frames that are still free
  have hword : ∀ (m : Mem), ∀ g ∈ rest, readWord (copyBytes m phys (frameAddr f) 4096) (frameAddr g)
      = readWord m (frameAddr g) := by
    intro m g hg
    have hne : f ≠ g := fun heq => (nodup_cons.mp hfree.nodup).1 (heq ▸ hg)
    exact readWord_other_frame fun x hlo hhi =>
      blit_other_frame hne (Nat.le_refl _) (Nat.le_refl _) hlo hhi
  obtain ⟨_, _, _, rfl⟩ := unmapPage_inv hu
  refine ⟨f, mem_cons_self, (mapPage_leaf hmap page).trans (if_pos rfl), ?_, fun m hm => ?_⟩
  · obtain ⟨_, _, rfl⟩ := mapPage_eq hmap
    rfl
  have hlink : ∀ g ∈ f :: rest, readWord m (frameAddr g) = readWord c.mem (frameAddr g) :=
    fun g hg => readWord_other_frame (hm g hg)
  have hmap' := mapPage_congr (m := copyBytes m phys (frameAddr f) 4096) (hrest.frame (hword c.mem))
    (fun g hg => by
      rw [hword m g hg, hlink g (mem_cons_of_mem _ hg)]
      exact (hword c.mem g hg).symm) hmap
  unfold copyOnWrite Shared.allocate
  dsimp only
  rw [hfree.allocate_congr hlink, hfa]
  simp only [map_some, bind_eq_bind, bind_some]
  rw [unmapPage_congr hu (copyBytes m phys (frameAddr f) 4096), bind_some]
  dsimp only
  rw [hmap']
  rfl

/-- The copy-on-write branch is taken when the page is resident in a writable area, unless it is
on swap. -/
theorem handleFault_cow (hswap : v.swapped (frameAddr (addr / 4096)) = none)
    (harea : v.areas.find? (fun a => a.has addr) = some area) (hw : area.flags.writable = true)
    (he : c.leaf root (addr / 4096) = some e) :
    handleFault v c root addr true
      = (copyOnWrite c root (addr / 4096) (frameAddr e.frame + addr % 4096) area.flags).map
          fun r => (r.1, v, r.2) := by
  have htrans : translateAddr c root addr = some (frameAddr e.frame + addr % 4096) := by
    rw [translateAddr, he]
    rfl
  unfold handleFault
  dsimp only
  rw [hswap]
  dsimp only
  rw [harea]
  dsimp only
  rw [htrans, hw]
  rfl

/-- A page that is resident is not brought in from swap: `map_page` would refuse it. -/
theorem not_swapped_of_resident {isWrite : Bool} (he : c.leaf root (addr / 4096) = some e)
    (hr : handleFault v c root addr isWrite = some (true, v', c')) :
    v.swapped (frameAddr (addr / 4096)) = none := by
  rcases handleFault_inv hr with ⟨slot, fl, _, _, hin⟩ | ⟨hnone, _⟩
  · rcases swapInPage_inv hin with ⟨hok, _⟩ | ⟨_, f, c₁, mem, swap, ha, _, hm⟩
    · cases hok
    · have hleaf : c₁.leaf root (addr / 4096) = none := (mapPage_eq hm).1
      rw [allocate_leaf ha, he] at hleaf
      cases hleaf
  · exact hnone

/-- Other contents for one frame. -/
def Shared.putFrame (c : Shared T) (f : Nat) (bytes : Nat → UInt8) : Shared T :=
  { c with mem := blit c.mem (frameAddr f) 4096 bytes }

theorem Shared.putFrame_mem {f k : Nat} {bytes : Nat → UInt8} (hk : k < 4096) :
    (c.putFrame f bytes).mem (frameAddr f + k) = bytes k := blit_at hk

/-- What a handled copy-on-write fault has done, and that it would have done the same with other
contents of the old frame, which is not on the free list. -/
theorem cow_fault_spec (hfree : FreeFrames c.mem c.frameAllocator free) (hnot : e.frame ∉ free)
    (harea : v.areas.find? (fun a => a.has addr) = some area) (hw : area.flags.writable = true)
    (he : c.leaf root (addr / 4096) = some e)
    (hr : handleFault v c root addr true = some (true, v', c')) :
    ∃ f ∈ free, c'.leaf root (addr / 4096) = some ⟨f, area.flags⟩ ∧
      c'.mem = copyBytes c.mem (frameAddr e.frame + addr % 4096) (frameAddr f) 4096 ∧
      ∀ bytes, handleFault v (c.putFrame e.frame bytes) root addr true
        = some (true, v', { c' with
          mem := copyBytes (c.putFrame e.frame bytes).mem (frameAddr e.frame + addr % 4096)
            (frameAddr f) 4096 }) := by
  have hswap := not_swapped_of_resident he hr
  rw [handleFault_cow hswap harea hw he] at hr
  obtain ⟨⟨ok, c₁⟩, hcow, heq⟩ := map_inv hr
  cases heq
  obtain ⟨f, hf, hleaf, hmem, hagain⟩ := copyOnWrite_spec hfree hcow
  refine ⟨f, hf, hleaf, hmem, fun bytes => ?_⟩
  have hsame : ∀ g ∈ free, ∀ x, frameAddr g ≤ x → x < frameAddr g + 4096 →
      (c.putFrame e.frame bytes).mem x = c.mem x := by
    intro g hg x hlo hhi
    have hne : e.frame ≠ g := fun heq => hnot (heq ▸ hg)
    exact blit_other_frame hne (Nat.le_refl _) (Nat.le_refl _) hlo hhi
  rw [handleFault_cow (c := c.putFrame e.frame bytes) hswap harea hw he]
  exact congrArg (Option.map _) (hagain _ hsame)

/-- **The copy of a copy-on-write fault.** Let the free list be intact and none of its frames be
mapped. When `handle_fault` returns `Ok` for a write to a resident page of a writable area, the
page is mapped with the flags of the area to a frame from the free list, which nobody maps. The
frame holds the 4096 bytes that follow the fault address in physical memory. These are the bytes
of the page, whatever they are, if and only if the fault address is the start of the page. -/
theorem cow_fault_keeps_page_iff (hfree : FreeFrames c.mem c.frameAllocator free)
    (hmapped : ∀ root page e, c.leaf root page = some e → e.frame ∉ free)
    (harea : v.areas.find? (fun a => a.has addr) = some area) (hw : area.flags.writable = true)
    (he : c.leaf root (addr / 4096) = some e)
    (hr : handleFault v c root addr true = some (true, v', c')) :
    ∃ f ∈ free, (∀ root' page' e', c.leaf root' page' = some e' → e'.frame ≠ f) ∧
      c'.leaf root (addr / 4096) = some ⟨f, area.flags⟩ ∧
      (∀ k, k < 4096 →
        c'.mem (frameAddr f + k) = c.mem (frameAddr e.frame + addr % 4096 + k)) ∧
      ((∀ bytes, ∃ c'', handleFault v (c.putFrame e.frame bytes) root addr true
            = some (true, v', c'') ∧
          c''.leaf root (addr / 4096) = some ⟨f, area.flags⟩ ∧
          ∀ k, k < 4096 → c''.mem (frameAddr f + k) = bytes k)
        ↔ addr % 4096 = 0) := by
  obtain ⟨f, hf, hleaf, hmem, hrun⟩ := cow_fault_spec hfree (hmapped _ _ _ he) harea hw he hr
  have hcopy : ∀ (m : Mem) k, k < 4096 → copyBytes m (frameAddr e.frame + addr % 4096)
      (frameAddr f) 4096 (frameAddr f + k) = m (frameAddr e.frame + addr % 4096 + k) :=
    fun _ _ hk => blit_at hk
  refine ⟨f, hf, fun r p e' hl heq => hmapped r p e' hl (heq ▸ hf), hleaf,
    fun k hk => by rw [hmem]; exact hcopy c.mem k hk, fun hkept => ?_, fun hoff bytes => ?_⟩
  · by_contra hoff
    -- a page that begins with a 1 and has only zeros behind it
    obtain ⟨c'', hr'', _, hbytes⟩ := hkept fun k => if k = 0 then 1 else 0
    rw [hrun] at hr''
    cases hr''
    have hzero := hbytes 0 (by decide)
    dsimp only at hzero
    rw [hcopy _ 0 (by decide), Nat.add_zero, Shared.putFrame_mem (by omega), if_neg hoff,
      if_pos rfl] at hzero
    cases hzero
  · refine ⟨_, hrun bytes, hleaf, fun k hk => ?_⟩
    dsimp only
    rw [hcopy _ k hk, hoff, Nat.add_zero, Shared.putFrame_mem hk]

end Cow

/-- A program writes to its stack and forks; the child writes to the first byte of the page. -/
theorem cow_fault_keeps_page_first : ∃ s sp e v' c', exec memStep smallMachine [.load [0x90],
      .fault 0 0x7FFFFFFFE000 true, .store 0 0x7FFFFFFFE000 7, .fork 0] = some s ∧
    s.spaces[1]? = some sp ∧ s.shared.leaf sp.root 0x7FFFFFFFE = some e ∧
    handleFault sp.vmm s.shared sp.root 0x7FFFFFFFE000 true = some (true, v', c') ∧
    ∃ f, c'.leaf sp.root 0x7FFFFFFFE = some ⟨f, userFlags true⟩ ∧
      ∀ k, k < 4096 → c'.mem (frameAddr f + k) = s.shared.mem (frameAddr e.frame + 0 + k) := by
  have hfacts : ∃ s ∈ exec memStep smallMachine [.load [0x90], .fault 0 0x7FFFFFFFE000 true,
      .store 0 0x7FFFFFFFE000 7, .fork 0], ∃ sp ∈ s.spaces[1]?,
      sp.vmm.areas.find? (fun a => a.has 0x7FFFFFFFE000)
        = some ⟨userStackTop - userStackSize, userStackTop, userFlags true⟩ ∧
      (s.shared.leaf sp.root 0x7FFFFFFFE).isSome ∧
      (handleFault sp.vmm s.shared sp.root 0x7FFFFFFFE000 true).map (fun r => r.1) = some true := by
    decide +kernel
  obtain ⟨s, hs, sp, hsp, harea, hres, hok⟩ := hfacts
  obtain ⟨e, he⟩ := isSome_iff_exists.mp hres
  obtain ⟨⟨_, v', c'⟩, hr, rfl⟩ := map_inv hok
  obtain ⟨free, hsound⟩ := exec_frameInv anyPolicy_forks smallMachine_frameInv
    (by simp [Along, UnmapsExclusive, admits_anyPolicy]) hs
  obtain ⟨f, _, _, hleaf, hbytes, _⟩ := cow_fault_keeps_page_iff hsound.frames
    (fun _ _ _ hl => hsound.leafFree hl) harea rfl he hr
  exact ⟨s, sp, e, v', c', hs, hsp, he, hr, f, hleaf, hbytes⟩

/-- The child writes to the ninth byte instead. The parent's 7, which both could read before, is
gone from the child's page. -/
theorem cow_fault_shifts_page : ∃ s s', exec memStep smallMachine [.load [0x90],
      .fault 0 0x7FFFFFFFE000 true, .store 0 0x7FFFFFFFE000 7, .fork 0] = some s ∧
    userLoad s 1 0x7FFFFFFFE000 = some 7 ∧
    pageFault s 1 0x7FFFFFFFE008 true = some (true, s') ∧
    userLoad s' 1 0x7FFFFFFFE000 = some 0 := by
  have hrun : ((exec memStep smallMachine [.load [0x90], .fault 0 0x7FFFFFFFE000 true,
      .store 0 0x7FFFFFFFE000 7, .fork 0]).map fun s => (userLoad s 1 0x7FFFFFFFE000,
        (pageFault s 1 0x7FFFFFFFE008 true).map fun r => (r.1, userLoad r.2 1 0x7FFFFFFFE000)))
      = some (some 7, some (true, some 0)) := by decide +kernel
  obtain ⟨s, hs, hobs⟩ := map_inv hrun
  injection hobs with hbefore hafter
  obtain ⟨⟨ok, s'⟩, hs', hobs⟩ := map_inv hafter
  injection hobs with hok hload
  dsimp only at hok hload
  subst hok
  exact ⟨s, s', hs, hbefore, hs', hload⟩

/-! ## A fault that fails -/

/-- A fault that fails has found no area, no right to write, or no frame. -/
theorem handleFault_failed {v v' : Vmm} {c c' : Shared T} {root addr : Nat} {isWrite : Bool}
    (hr : handleFault v c root addr isWrite = some (false, v', c')) : c' = c := by
  have hempty : c.allocate = some (none, c') → c' = c := by
    intro ha
    obtain ⟨⟨r, fa⟩, hfa, heq⟩ := map_inv ha
    cases heq
    rw [FreeListAllocator.allocate_none hfa]
  rcases handleFault_inv hr with ⟨slot, flags, _, _, hin⟩ | ⟨_, _, hcase⟩
  · rcases swapInPage_inv hin with ⟨_, ha⟩ | ⟨hok, _⟩
    · exact hempty ha
    · cases hok
  · rcases hcase with ⟨_, hc⟩ | ⟨_, _, _, _, _, _, hcow⟩ | ⟨_, _, _, hzero⟩
    · exact hc
    · rcases copyOnWrite_inv hcow with ⟨_, ha⟩ | ⟨hok, _⟩
      · exact hempty ha
      · cases hok
    · rcases zeroFill_inv hzero with ⟨_, ha⟩ | ⟨hok, _⟩
      · exact hempty ha
      · cases hok

/-- **What a failed fault leaves behind.** If `handle_fault` returns `Err`, memory, frame
allocator, swap and page tables are as they were, and so are the areas and the records of all
other pages; the address space is as it was if and only if the page is not on swap. -/
theorem failed_fault_keeps_iff {v v' : Vmm} {c c' : Shared T} {root addr : Nat} {isWrite : Bool}
    (hr : handleFault v c root addr isWrite = some (false, v', c')) :
    c' = c ∧ v'.areas = v.areas ∧
      (∀ a, a ≠ frameAddr (addr / 4096) → v'.swapped a = v.swapped a) ∧
      (v' = v ↔ v.swapped (frameAddr (addr / 4096)) = none) := by
  refine ⟨handleFault_failed hr, handleFault_areas hr, ?_⟩
  rcases handleFault_inv hr with ⟨slot, flags, hs, rfl, _⟩ | ⟨hnone, rfl, _⟩
  · refine ⟨fun a ha => ?_, iff_of_false (fun heq => ?_) (by simp [hs])⟩
    · rw [Vmm.removeSwapped_swapped, if_neg ha]
    -- the record is gone
    · rw [← heq, Vmm.removeSwapped_swapped, if_pos rfl] at hs
      cases hs
  · exact ⟨fun _ _ => rfl, iff_of_true rfl hnone⟩

/-- A machine with nine free frames. -/
def tightMachine : Machine smallTables :=
  bootMachine smallTables ((fun _ _ => none), fun _ _ _ => false) (range' 1 9) 4

/-- No frame is left, and a heap page is on swap. The fault on the next page of the stack changes
nothing; the one on the heap page does. -/
theorem failed_fault_keeps_tight : ∃ s sp v c v' c', exec memStep tightMachine [.load [0x90],
      .brk 0 0x402000, .fault 0 0x401000 true, .evict 0 0x401000, .fault 0 0x7FFFFFFFE000 true]
        = some s ∧ s.spaces[0]? = some sp ∧
    handleFault sp.vmm s.shared sp.root 0x7FFFFFFFD000 true = some (false, v, c) ∧
    c = s.shared ∧ v = sp.vmm ∧
    handleFault sp.vmm s.shared sp.root 0x401000 false = some (false, v', c') ∧
    c' = s.shared ∧ v' ≠ sp.vmm := by
  have hrun : ∃ s ∈ exec memStep tightMachine [.load [0x90], .brk 0 0x402000,
      .fault 0 0x401000 true, .evict 0 0x401000, .fault 0 0x7FFFFFFFE000 true], ∃ sp ∈ s.spaces[0]?,
      sp.vmm.swapped 0x7FFFFFFFD000 = none ∧ sp.vmm.swapped 0x401000 ≠ none ∧
      (handleFault sp.vmm s.shared sp.root 0x7FFFFFFFD000 true).map Prod.fst = some false ∧
      (handleFault sp.vmm s.shared sp.root 0x401000 false).map Prod.fst = some false := by
    decide +kernel
  obtain ⟨s, hs, sp, hsp, hout, hin, hstack, hheap⟩ := hrun
  obtain ⟨⟨_, v, c⟩, hr, rfl⟩ := map_inv hstack
  obtain ⟨⟨_, v', c'⟩, hr', rfl⟩ := map_inv hheap
  obtain ⟨rfl, -, -, hkept⟩ := failed_fault_keeps_iff hr
  obtain ⟨rfl, -, -, hlost⟩ := failed_fault_keeps_iff hr'
  exact ⟨s, sp, v, _, v', _, hs, hsp, hr, rfl, hkept.mpr hout, hr', rfl, fun h => hin (hlost.mp h)⟩

/-- A heap page that holds a 7 goes to swap, and the stack takes the last frames. The fault on
the heap page fails, and forgets where the page is. Then the stack page is evicted, and there is
a frame again: the fault on the heap page brings in a page of zeros. -/
theorem failed_fault_loses_page : ∃ s₀ s s' t, exec memStep tightMachine [.load [0x90],
      .brk 0 0x402000, .fault 0 0x401000 true, .store 0 0x401000 7] = some s₀ ∧
    userLoad s₀ 0 0x401000 = some 7 ∧
    exec memStep s₀ [.evict 0 0x401000, .fault 0 0x7FFFFFFFE000 true] = some s ∧
    pageFault s 0 0x401000 false = some (false, s') ∧
    (s.spaces.map fun sp => (sp.vmm.swapped 0x401000).isSome) = [true] ∧
    (s'.spaces.map fun sp => (sp.vmm.swapped 0x401000).isSome) = [false] ∧
    exec memStep s' [.evict 0 0x7FFFFFFFE000, .fault 0 0x401000 false] = some t ∧
    userLoad t 0 0x401000 = some 0 := by
  have hrun : ∃ s₀ ∈ exec memStep tightMachine [.load [0x90], .brk 0 0x402000,
      .fault 0 0x401000 true, .store 0 0x401000 7], userLoad s₀ 0 0x401000 = some 7 ∧
      ∃ s ∈ exec memStep s₀ [.evict 0 0x401000, .fault 0 0x7FFFFFFFE000 true],
        (s.spaces.map fun sp => (sp.vmm.swapped 0x401000).isSome) = [true] ∧
        ∃ r ∈ pageFault s 0 0x401000 false, r.1 = false ∧
          (r.2.spaces.map fun sp => (sp.vmm.swapped 0x401000).isSome) = [false] ∧
          ∃ t ∈ exec memStep r.2 [.evict 0 0x7FFFFFFFE000, .fault 0 0x401000 false],
            userLoad t 0 0x401000 = some 0 := by
    decide +kernel
  obtain ⟨s₀, hs₀, hseven, s, hs, hrecord, ⟨_, s'⟩, hs', rfl, hgone, t, ht, hzero⟩ := hrun
  exact ⟨s₀, s, s', t, hs₀, hseven, hs, hs', hrecord, hgone, ht, hzero⟩

end AlaphiOS.Memory
