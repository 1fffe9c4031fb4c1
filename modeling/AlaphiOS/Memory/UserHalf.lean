import AlaphiOS.Memory.FrameSafety
import AlaphiOS.Memory.Areas

/-!
# The user half of an address space

What every state of the machine has, whatever was loaded, forked, faulted in, evicted, grown or
protected: the areas of a task are runs of pages below the top of the stack, its break is at most
the bottom of the stack (`Space.InUserHalf`), and the entries in use, those on swap and those that
an area will make have the present bit (`Shared.Present`). So the loops over pages of an area stay
in the lower half, and `unmap_page` finds every page that `translate_addr` found.

The one assumption is about `load_flat`: the program fits below the stack (`LoadsBelowStack`). The
areas need not be disjoint.
-/

namespace AlaphiOS.Memory

open Lib List

variable {T : PageTables}

/-! ## The present bit -/

/-- Every entry in use is present. -/
def Shared.Present (c : Shared T) : Prop := ∀ ⦃r p e⦄, c.leaf r p = some e → e.flags.present = true

section Moves

variable {c c' : Shared T} {root page addr : Nat} {flags : PageTableFlags} {e : Entry}

theorem allocate_present {r : Option Nat} (h : c.Present) (ha : c.allocate = some (r, c')) :
    c'.Present := by
  intro r p e hl
  rw [allocate_leaf ha] at hl
  exact h hl

theorem mapPage_present (hm : mapPage c root page e = some c') (h : c.Present)
    (he : e.flags.present = true) : c'.Present := by
  obtain ⟨_, fa, rfl⟩ := mapPage_eq hm
  intro r p e' hl
  rcases leaf_of_mapTo hl with ⟨_, rfl⟩ | hl
  · exact he
  · exact h hl

theorem unmap_present (h : c.Present) (root page : Nat) :
    ({ c with tables := T.unmap c.tables root page } : Shared T).Present :=
  fun _ _ _ hl => h (leaf_of_unmap hl).1

/-- `unmap_page` of a page that is there. -/
theorem unmapPage_of_leaf (h : c.Present) (he : c.leaf root page = some e) :
    unmapPage c root page = some (e.frame, { c with tables := T.unmap c.tables root page }) := by
  unfold unmapPage
  rw [he]
  exact if_pos (h he)

theorem remapFlags_present (hr : remapFlags c root page flags = some c') (h : c.Present)
    (hf : flags.present = true) : c'.Present := by
  obtain ⟨_, rfl⟩ := remapFlags_inv hr
  intro r p e' hl
  rcases leaf_of_updateFlags hl with ⟨_, _, _, _, rfl⟩ | ⟨_, hl⟩
  · exact hf
  · exact h hl

section

variable (h : c.Present)

include h

theorem cloneKernelHalf_present (hc : cloneKernelHalf c = some (root, c')) :
    c'.Present := by
  obtain ⟨c₁, ha, rfl⟩ := cloneKernelHalf_inv hc
  intro r p e hl
  exact allocate_present h ha (leaf_of_cloneKernel hl).1

/-- The three ways to handle a fault map the page with the given flags. -/
theorem swapInPage_present {slot : Nat} {ok : Bool} (hf : flags.present = true)
    (hr : swapInPage c root page slot flags = some (ok, c')) : c'.Present := by
  rcases swapInPage_inv hr with ⟨_, ha⟩ | ⟨_, f, c₁, mem, swap, ha, _, hm⟩
  · exact allocate_present h ha
  · have hc₁ := allocate_present h ha
    exact mapPage_present hm hc₁ hf

theorem copyOnWrite_present {phys : Nat} {ok : Bool} (hf : flags.present = true)
    (hr : copyOnWrite c root page phys flags = some (ok, c')) : c'.Present := by
  rcases copyOnWrite_inv hr with ⟨_, ha⟩ | ⟨_, f, c₁, g, c₂, ha, hu, hm⟩
  · exact allocate_present h ha
  · obtain ⟨_, _, _, rfl⟩ := unmapPage_inv hu
    exact mapPage_present hm (unmap_present (allocate_present h ha) root page) hf

theorem zeroFill_present {ok : Bool} (hf : flags.present = true)
    (hr : zeroFill c root page flags = some (ok, c')) : c'.Present := by
  rcases zeroFill_inv hr with ⟨_, ha⟩ | ⟨_, f, c₁, ha, hm⟩
  · exact allocate_present h ha
  · have hc₁ := allocate_present h ha
    exact mapPage_present hm hc₁ hf

theorem releasePage_present (hr : releasePage root addr c = some c') :
    c'.Present := by
  unfold releasePage at hr
  split at hr
  · obtain ⟨⟨f, c₁⟩, hu, rfl⟩ := map_inv hr
    obtain ⟨_, _, _, rfl⟩ := unmapPage_inv hu
    exact unmap_present h root (addr / 4096)
  · cases hr
    exact h

theorem protectPage_present (hf : flags.present = true)
    (hr : protectPage root flags addr c = some c') : c'.Present := by
  unfold protectPage at hr
  split at hr
  · exact remapFlags_present hr h hf
  · cases hr
    exact h

theorem sharePage_present {child : Nat} (hf : flags.present = true)
    (hr : sharePage root child flags addr c = some c') : c'.Present := by
  unfold sharePage at hr
  split at hr
  · obtain ⟨c₁, hremap, hm⟩ := bind_inv hr
    exact mapPage_present hm (remapFlags_present hremap h hf) hf
  · cases hr
    exact h

end

/-- A page loop keeps what its body keeps. -/
theorem forPages_present {body : Nat → Shared T → Option (Shared T)} {start end_ : Nat}
    (hbody : ∀ addr c c', c.Present → body addr c = some c' → c'.Present) (h : c.Present)
    (hr : forPages body start end_ c = some c') : c'.Present := by
  obtain ⟨_, _, hc⟩ := forPages_rule (I := fun _ => Shared.Present)
    (fun addr c c' _ => hbody addr c c') h hr
  exact hc

end Moves

/-! ## Areas and break -/

/-- Below the top of the stack, the next page is at a virtual address, too. -/
theorem canonical_next {x start end_ : Nat} (hstart : start % 4096 = 0) (hend : end_ % 4096 = 0)
    (htop : end_ ≤ userStackTop) (hlt : x < end_) (hmod : x % 4096 = start % 4096) :
    Canonical (x + 4096) := by
  unfold userStackTop at htop
  exact .inl (by omega)

/-- The areas and the break of a task are where they should be, and what they will map is
present. -/
structure Space.InUserHalf (sp : Space) : Prop where
  pages : ∀ a ∈ sp.vmm.areas, a.start % 4096 = 0 ∧ a.end_ % 4096 = 0 ∧ a.start ≤ a.end_
  top : ∀ a ∈ sp.vmm.areas, a.end_ ≤ userStackTop
  flags : ∀ a ∈ sp.vmm.areas, a.flags.present = true
  swapped : ∀ {addr slot flags}, sp.vmm.swapped addr = some (slot, flags) → flags.present = true
  heap : sp.heapStart % 4096 = 0 ∧ sp.heapStart ≤ sp.brk
  brk : sp.brk % 4096 = 0 ∧ sp.brk ≤ userStackBottom

/-- So are all tasks, and all entries are present. -/
structure Machine.InUserHalf (s : Machine T) : Prop where
  spaces : ∀ sp ∈ s.spaces, sp.InUserHalf
  present : s.shared.Present

/-- The program ends below the stack. -/
def LoadsBelowStack : MemOp → Prop
  | .load bytes => userCodeBase + bytes.length ≤ userStackBottom
  | _ => True

instance : (op : MemOp) → Decidable (LoadsBelowStack op)
  | .load _ => inferInstanceAs (Decidable (_ ≤ _))
  | .fork _ | .fault _ _ _ | .evict _ _ | .brk _ _ | .mprotect _ _ _ _ | .store _ _ _
  | .touch _ _ _ => inferInstanceAs (Decidable True)

section Steps

variable {s s' : Machine T} {i : Nat} {sp sp' : Space} {c : Shared T}

section

variable (h : s.InUserHalf)

include h

theorem Machine.InUserHalf.at (hi : s.spaces[i]? = some sp) : sp.InUserHalf :=
  h.spaces sp (mem_of_getElem? hi)

theorem Machine.InUserHalf.put (hsp : sp'.InUserHalf) (hc : c.Present) :
    (s.put i sp' c).InUserHalf where
  spaces := by
    intro sp₁ hmem
    rcases mem_or_eq_of_mem_set hmem with hmem | rfl
    · exact h.spaces sp₁ hmem
    · exact hsp
  present := hc

theorem Machine.InUserHalf.push (hsp : sp.InUserHalf) (hc : c.Present) :
    (⟨c, s.spaces ++ [sp]⟩ : Machine T).InUserHalf where
  spaces := by
    intro sp₁ hmem
    rcases mem_append.mp hmem with hmem | hmem
    · exact h.spaces sp₁ hmem
    · obtain rfl := mem_singleton.mp hmem
      exact hsp
  present := hc

theorem loadFlat_inUserHalf {bytes : List UInt8}
    (hfits : userCodeBase + bytes.length ≤ userStackBottom) (hr : loadFlat s bytes = some s') :
    s'.InUserHalf := by
  obtain ⟨⟨root, c⟩, hclone, hr⟩ := bind_inv hr
  obtain ⟨c', hpages, hr⟩ := bind_inv hr
  cases hr
  refine h.push ⟨?_, ?_, ?_, ?_, ?_, ?_⟩ ?_
  · intro a ha
    obtain rfl := mem_singleton.mp ha
    decide
  · intro a ha
    obtain rfl := mem_singleton.mp ha
    exact Nat.le_refl _
  · intro a ha
    obtain rfl := mem_singleton.mp ha
    rfl
  · intro addr slot flags hsw
    exact nomatch hsw
  · exact ⟨alignDown_mod _, Nat.le_refl _⟩
  · refine ⟨alignDown_mod _, ?_⟩
    show (userCodeBase + bytes.length + 4095) / 4096 * 4096 ≤ userStackBottom
    unfold userStackBottom userStackTop userStackSize at *
    omega
  · refine foldlM_rule (I := Shared.Present) (fun c₁ k c₂ _ hI hk => ?_)
      (cloneKernelHalf_present h.present hclone) hpages
    obtain ⟨frame, c₃, mem, page, ha, hm⟩ := loadPage_inv hk
    have hc₃ := allocate_present hI ha
    exact mapPage_present hm hc₃ rfl

theorem sysFork_inUserHalf (hr : sysFork s i = some s') : s'.InUserHalf := by
  obtain ⟨sp, hi, hr⟩ := bind_inv hr
  obtain ⟨⟨root, c⟩, hclone, hr⟩ := bind_inv hr
  obtain ⟨⟨vmm, c'⟩, hfork, hr⟩ := bind_inv hr
  cases hr
  obtain ⟨c₁, hrun, hfork⟩ := bind_inv hfork
  cases hfork
  have hsp := h.at hi
  refine h.push ⟨hsp.pages, hsp.top, hsp.flags, fun hsw => (nomatch hsw), hsp.heap, hsp.brk⟩ ?_
  refine foldlM_rule (I := Shared.Present) (fun c₁ area c₂ harea hI hloop => ?_)
    (cloneKernelHalf_present h.present hclone) hrun
  have hflags : area.flags.readOnly.present = true := hsp.flags area harea
  exact forPages_present (fun _ _ _ hI => sharePage_present hI hflags) hI hloop

theorem pageFault_inUserHalf {addr : Nat} {isWrite ok : Bool}
    (hr : pageFault s i addr isWrite = some (ok, s')) : s'.InUserHalf := by
  obtain ⟨sp, vmm, c, hi, hf, rfl⟩ := pageFault_inv hr
  have hsp := h.at hi
  rcases handleFault_inv hf with ⟨slot, flags, hsw, rfl, hin⟩ | ⟨_, rfl, hcase⟩
  · refine h.put ⟨hsp.pages, hsp.top, hsp.flags, ?_, hsp.heap, hsp.brk⟩
      (swapInPage_present h.present (hsp.swapped hsw) hin)
    intro a slot' flags' hrec
    rw [Vmm.removeSwapped_swapped] at hrec
    split at hrec
    · exact nomatch hrec
    · exact hsp.swapped hrec
  · refine h.put ⟨hsp.pages, hsp.top, hsp.flags, hsp.swapped, hsp.heap, hsp.brk⟩ ?_
    have hfound : ∀ area, sp.vmm.areas.find? (fun a => a.has addr) = some area →
        area.flags.present = true :=
      fun area harea => hsp.flags area (mem_of_find?_eq_some harea)
    rcases hcase with ⟨_, rfl⟩ | ⟨area, phys, hfind, _, _, _, hcow⟩ | ⟨area, hfind, _, hzero⟩
    · exact h.present
    · exact copyOnWrite_present h.present (hfound area hfind) hcow
    · exact zeroFill_present h.present (hfound area hfind) hzero

theorem evict_inUserHalf {vaddr : Nat} {ok : Bool}
    (hr : evict s i vaddr = some (ok, s')) : s'.InUserHalf := by
  obtain ⟨sp, vmm, c, hi, he, rfl⟩ := evict_inv hr
  have hsp := h.at hi
  rcases evictAddr_inv he with
    ⟨_, rfl, rfl⟩ | ⟨e, hl, ⟨swap, _, _, rfl, rfl⟩ | ⟨slot, swap, _, _, rfl, rfl⟩⟩
  · exact h.put ⟨hsp.pages, hsp.top, hsp.flags, hsp.swapped, hsp.heap, hsp.brk⟩ h.present
  · exact h.put ⟨hsp.pages, hsp.top, hsp.flags, hsp.swapped, hsp.heap, hsp.brk⟩ h.present
  · refine h.put ⟨hsp.pages, hsp.top, hsp.flags, ?_, hsp.heap, hsp.brk⟩
      (unmap_present h.present sp.root (vaddr / 4096))
    intro a slot' flags' hrec
    rw [Vmm.recordSwapped_swapped] at hrec
    split at hrec
    -- the record has the flags of the entry, which was present
    · cases hrec
      exact h.present hl
    · exact hsp.swapped hrec

end

/-- A new end of the heap, at or above its start and below the stack. -/
theorem Space.InUserHalf.setHeapEnd {newEnd : Nat} (h : sp.InUserHalf)
    (hpages : newEnd % 4096 = 0) (hlo : sp.heapStart ≤ newEnd) (hhi : newEnd ≤ userStackBottom) :
    ({ sp with
      vmm := sp.vmm.setHeapEnd sp.heapStart newEnd (userFlags true)
      brk := newEnd } : Space).InUserHalf := by
  have htop : newEnd ≤ userStackTop := Nat.le_trans hhi (Nat.sub_le _ _)
  -- an area of the new list is an old one, the new heap, or an old one with the new end
  have hmem : ∀ a ∈ (sp.vmm.setHeapEnd sp.heapStart newEnd (userFlags true)).areas,
      a ∈ sp.vmm.areas ∨ (a.start = sp.heapStart ∧ a.end_ = newEnd ∧ a.flags.present = true) := by
    intro a ha
    unfold Vmm.setHeapEnd at ha
    split at ha
    next idx hidx =>
      obtain ⟨hlt, hstart, _⟩ := findIdx?_eq_some_iff_getElem.mp hidx
      obtain ⟨j, hj⟩ := mem_iff_getElem?.mp ha
      rw [getElem?_modify] at hj
      split at hj
      next hij =>
        subst hij
        rw [getElem?_eq_getElem hlt] at hj
        cases hj
        exact .inr ⟨eq_of_beq hstart, rfl, h.flags sp.vmm.areas[idx] (getElem_mem hlt)⟩
      · rw [Option.map_eq_map, Option.map_id'] at hj
        exact .inl (mem_of_getElem? hj)
    · split at ha
      · rcases mem_append.mp ha with ha | ha
        · exact .inl ha
        · obtain rfl := mem_singleton.mp ha
          exact .inr ⟨rfl, rfl, rfl⟩
      · exact .inl ha
  refine ⟨fun a ha => ?_, fun a ha => ?_, fun a ha => ?_, ?_, ⟨h.heap.1, hlo⟩, hpages, hhi⟩
  · rcases hmem a ha with hold | ⟨hstart, hend, _⟩
    · exact h.pages a hold
    · rw [hstart, hend]
      exact ⟨h.heap.1, hpages, hlo⟩
  · rcases hmem a ha with hold | ⟨_, hend, _⟩
    · exact h.top a hold
    · rw [hend]
      exact htop
  · rcases hmem a ha with hold | ⟨_, _, hflags⟩
    · exact h.flags a hold
    · exact hflags
  · intro addr slot flags hsw
    dsimp only at hsw
    rw [Vmm.setHeapEnd_swapped] at hsw
    exact h.swapped hsw

theorem sysBrk_inUserHalf {newBrk ret : Nat} (h : s.InUserHalf)
    (hr : sysBrk s i newBrk = some (ret, s')) : s'.InUserHalf := by
  rcases sysBrk_inv hr with rfl | ⟨sp, hi, _, hret, hlo, hhi, hcase⟩
  · exact h
  · have hsp := h.at hi
    have hpages : ret % 4096 = 0 := hret ▸ alignDown_mod _
    have hbelow : ret ≤ userStackBottom := Nat.le_of_lt hhi
    rcases hcase with ⟨_, rfl⟩ | ⟨_, c, hloop, rfl⟩ | ⟨_, rfl⟩
    · exact h.put (hsp.setHeapEnd hpages hlo hbelow) h.present
    · exact h.put (hsp.setHeapEnd hpages hlo hbelow)
        (forPages_present (fun _ _ _ hI => releasePage_present hI) h.present hloop)
    · exact h.put ⟨hsp.pages, hsp.top, hsp.flags, hsp.swapped, ⟨hsp.heap.1, hlo⟩, hpages, hbelow⟩
        h.present

theorem sysMprotect_inUserHalf {addr len prot : Nat} {ok : Bool} (h : s.InUserHalf)
    (hr : sysMprotect s i addr len prot = some (ok, s')) : s'.InUserHalf := by
  rcases sysMprotect_inv hr with ⟨_, rfl⟩ |
    ⟨sp, end_, before, area, after, c, _, hi, haddr, hend, hlt, hareas, _, hhas, hle, hloop, rfl⟩
  · exact h
  · have hsp := h.at hi
    have hin : ∀ a, a ∈ before ++ area :: after → a ∈ sp.vmm.areas := fun a ha => hareas ▸ ha
    have harea : area ∈ sp.vmm.areas := hin area (mem_append_right _ mem_cons_self)
    obtain ⟨hs₁, hs₂, hs₃⟩ := hsp.pages area harea
    have hstart := (has_iff.mp hhas).1
    have htop := hsp.top area harea
    have hendp : end_ % 4096 = 0 := by
      have := alignDown_mod (len + 0xFFF)
      omega
    -- the parts of the area that was split, and the areas around it
    have hpart : ∀ a ∈ before ++ area.protect addr end_ (userFlags (prot &&& 2 ≠ 0)) ++ after,
        (a.start % 4096 = 0 ∧ a.end_ % 4096 = 0 ∧ a.start ≤ a.end_) ∧ a.end_ ≤ userStackTop ∧
          a.flags.present = true := by
      intro a ha
      rcases mem_append.mp ha with ha | ha
      · rcases mem_append.mp ha with ha | ha
        · have hold := hin a (mem_append_left _ ha)
          exact ⟨hsp.pages a hold, hsp.top a hold, hsp.flags a hold⟩
        · rcases mem_protect_iff.mp ha with ⟨_, rfl⟩ | rfl | ⟨_, rfl⟩
          · exact ⟨⟨hs₁, haddr, hstart⟩, by dsimp only; omega, hsp.flags area harea⟩
          · exact ⟨⟨haddr, hendp, by dsimp only; omega⟩, by dsimp only; omega, rfl⟩
          · exact ⟨⟨hendp, hs₂, hle⟩, htop, hsp.flags area harea⟩
      · have hold := hin a (mem_append_right _ (mem_cons_of_mem _ ha))
        exact ⟨hsp.pages a hold, hsp.top a hold, hsp.flags a hold⟩
    refine h.put ⟨fun a ha => (hpart a ha).1, fun a ha => (hpart a ha).2.1,
      fun a ha => (hpart a ha).2.2, hsp.swapped, hsp.heap, hsp.brk⟩ ?_
    exact forPages_present (fun _ _ _ hI => protectPage_present hI rfl) h.present hloop

theorem touch_inUserHalf {page : Nat} {dirty : Bool} (h : s.InUserHalf)
    (hr : touch s i page dirty = some s') : s'.InUserHalf := by
  obtain ⟨sp, e, c, _, hl, hremap, rfl⟩ := touch_inv hr
  have hpresent : e.flags.present = true := h.present hl
  exact ⟨h.spaces, remapFlags_present hremap h.present hpresent⟩

/-- One step keeps all of it. -/
theorem memStep_inUserHalf {op : MemOp} (h : s.InUserHalf) (hfits : LoadsBelowStack op)
    (hr : memStep s op = some s') : s'.InUserHalf := by
  cases op with
  | load bytes => exact loadFlat_inUserHalf h hfits hr
  | fork i => exact sysFork_inUserHalf h hr
  | fault i addr w =>
    obtain ⟨⟨ok, s₁⟩, hf, rfl⟩ := map_inv hr
    exact pageFault_inUserHalf h hf
  | evict i vaddr =>
    obtain ⟨⟨ok, s₁⟩, he, rfl⟩ := map_inv hr
    exact evict_inUserHalf h he
  | brk i newBrk =>
    obtain ⟨⟨ret, s₁⟩, hb, rfl⟩ := map_inv hr
    exact sysBrk_inUserHalf h hb
  | mprotect i addr len prot =>
    obtain ⟨⟨ok, s₁⟩, hm, rfl⟩ := map_inv hr
    exact sysMprotect_inUserHalf h hm
  | store i addr b =>
    obtain ⟨_, _, _, hspaces, hshared⟩ := userStore_inv hr
    refine ⟨by rw [hspaces]; exact h.spaces, ?_⟩
    rw [hshared]
    exact h.present
  | touch i page dirty => exact touch_inUserHalf h hr

/-- So does every run. -/
theorem exec_inUserHalf {ops : List MemOp} (h : s.InUserHalf)
    (hfits : ∀ op ∈ ops, LoadsBelowStack op) (hr : exec memStep s ops = some s') :
    s'.InUserHalf :=
  exec_induction (fun _ _ _ hI hop => memStep_inUserHalf hI hop.1) h
    (along_true.and_forall hfits) hr

end Steps

/-- With no task and nothing mapped there is nothing to ask. -/
theorem smallMachine_inUserHalf : smallMachine.InUserHalf where
  spaces := fun _ h => absurd h (not_mem_nil)
  present := fun _ _ _ h => nomatch h

end AlaphiOS.Memory
