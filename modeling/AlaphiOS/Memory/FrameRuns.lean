import AlaphiOS.Memory.FrameSafety

/-!
# Frames over whole runs

Every operation of `AddressSpaces` as a sequence of the moves of `FrameSafety`,
and then runs. `memStep_frameInv` is the one step lemma: it holds for every
policy that permits read-only sharing, under two conditions on the step.
`UnmapsExclusive` asks that a page which is evicted or released by `SYS_BRK`
has a frame of its own; `Admits` asks that a fault and a writable `SYS_MPROTECT`
produce entries the policy admits.

With the policy that admits everything, the result is that no frame on the free
list is mapped anywhere. The first condition cannot be dropped: `fork_cow`
shares frames without recording it, and `shrink_heap` and `evict_addr` free the
frame they unmap from one of the sharers (`fork_then_evict_frees_mapped`).
-/

namespace AlaphiOS.Memory

open Lib List
open Option (isSome_iff_exists)

variable {T : PageTables}

section Operations

variable {P : Policy} {c c' : Shared T} {free held : List Nat}
  {root page addr : Nat} {flags : PageTableFlags} {e : Entry} {ok : Bool}

/-! ## `handle_fault` -/

theorem mapPage_held (h : Sound P c free (e.frame :: held)) (hQ : P.entry page e.flags)
    (hm : mapPage c root page e = some c') : ∃ free', free' ⊆ free ∧ Sound P c' free' held := by
  obtain ⟨_, _, fa, rfl, h₁⟩ := h.mapPage_cases hm
  exact ⟨_, drop_subset _ _, h₁.mapTo_held hQ⟩

theorem swapInPage_sound {slot : Nat} (h : Sound P c free held) (hQ : P.entry page flags)
    (hr : swapInPage c root page slot flags = some (ok, c')) :
    ∃ free', free' ⊆ free ∧ Sound P c' free' held := by
  rcases swapInPage_inv hr with ⟨_, ha⟩ | ⟨_, f, c₁, mem, swap, ha, hs, hm⟩
  · obtain ⟨_, rfl⟩ := h.allocate_none ha
    exact ⟨free, List.Subset.refl _, h⟩
  · obtain ⟨rest, fa, hfree, rfl, h₁⟩ := h.allocate_some ha
    -- the swap-in writes the frame in hand and nothing else
    have h₂ := h₁.write (m := mem) (fun g hg x hx hx' => by
      refine SwapPartition.swapIn_other hs ?_
      have hne : g ≠ f := fun he => h₁.heldFree mem_cons_self (he ▸ hg)
      have := frameAddr_apart hne
      omega)
    obtain ⟨free', hsub, h'⟩ := mapPage_held (e := ⟨f, flags⟩) (h₂.setSwap swap) hQ hm
    exact ⟨free', hfree ▸ subset_cons_of_subset f hsub, h'⟩

theorem copyOnWrite_sound {phys : Nat} (h : Sound P c free held) (hQ : P.entry page flags)
    (hr : copyOnWrite c root page phys flags = some (ok, c')) :
    ∃ free', free' ⊆ free ∧ Sound P c' free' held := by
  rcases copyOnWrite_inv hr with ⟨_, ha⟩ | ⟨_, f, c₁, g, c₂, ha, hu, hm⟩
  · obtain ⟨_, rfl⟩ := h.allocate_none ha
    exact ⟨free, List.Subset.refl _, h⟩
  · obtain ⟨rest, fa, hfree, rfl, h₁⟩ := h.allocate_some ha
    obtain ⟨_, _, _, rfl⟩ := unmapPage_inv hu
    have h₂ := h₁.blit (h₁.heldFree mem_cons_self) (n := 4096)
      (b := fun i => c.mem (phys + i)) (Nat.le_refl _) (Nat.le_refl _)
    obtain ⟨free', hsub, h'⟩ := mapPage_held (e := ⟨f, flags⟩) h₂.unmap hQ hm
    exact ⟨free', hfree ▸ subset_cons_of_subset f hsub, h'⟩

theorem zeroFill_sound (h : Sound P c free held) (hQ : P.entry page flags)
    (hr : zeroFill c root page flags = some (ok, c')) :
    ∃ free', free' ⊆ free ∧ Sound P c' free' held := by
  rcases zeroFill_inv hr with ⟨_, ha⟩ | ⟨_, f, c₁, ha, hm⟩
  · obtain ⟨_, rfl⟩ := h.allocate_none ha
    exact ⟨free, List.Subset.refl _, h⟩
  · obtain ⟨rest, fa, hfree, rfl, h₁⟩ := h.allocate_some ha
    have h₂ := h₁.blit (h₁.heldFree mem_cons_self) (n := 4096)
      (b := fun _ => 0) (Nat.le_refl _) (Nat.le_refl _)
    obtain ⟨free', hsub, h'⟩ := mapPage_held (e := ⟨f, flags⟩) h₂ hQ hm
    exact ⟨free', hfree ▸ subset_cons_of_subset f hsub, h'⟩

variable {v v' : Vmm} {page' : Nat}

/-- A fault takes frames from the free list and puts none there. -/
theorem handleFault_sound {isWrite : Bool} (h : Sound P c free held)
    (hQ : ∀ flags, P.entry (addr / 4096) flags)
    (hr : handleFault v c root addr isWrite = some (ok, v', c')) :
    ∃ free', free' ⊆ free ∧ Sound P c' free' held := by
  rcases handleFault_inv hr with ⟨slot, flags, _, _, hs⟩ | ⟨_, _, hcase⟩
  · exact swapInPage_sound h (hQ flags) hs
  · rcases hcase with ⟨_, rfl⟩ | ⟨area, phys, _, _, _, _, hs⟩ | ⟨area, _, _, hs⟩
    · exact ⟨free, List.Subset.refl _, h⟩
    · exact copyOnWrite_sound h (hQ area.flags) hs
    · exact zeroFill_sound h (hQ area.flags) hs

/-! ## Pages that are taken away -/

theorem Exclusive.of_unmap (hx : Exclusive c root page) :
    Exclusive { c with tables := T.unmap c.tables root page' } root page :=
  fun _ _ _ _ hl hl' hfr => hx (leaf_of_unmap hl).1 (leaf_of_unmap hl').1 hfr

theorem releasePage_sound (h : Sound P c free held) (hx : Exclusive c root (addr / 4096))
    (hr : releasePage root addr c = some c') :
    (c' = c ∨ ∃ f, c' = ({ c with
      tables := T.unmap c.tables root (addr / 4096) } : Shared T).deallocate f) ∧
    ∃ free', Sound P c' free' held := by
  unfold releasePage at hr
  split at hr
  · obtain ⟨⟨f, c₁⟩, hu, rfl⟩ := map_inv hr
    obtain ⟨e, he, rfl, rfl⟩ := unmapPage_inv hu
    obtain ⟨free', _, h'⟩ := (h.unmap_exclusive he hx).deallocate
    exact ⟨.inr ⟨e.frame, rfl⟩, free', h'⟩
  · cases hr
    exact ⟨.inl rfl, free, h⟩

variable {child end_ start : Nat}

/-- `shrink_heap`'s loop: the pages that are left stay exclusive. -/
theorem releasePages_sound (h : Sound P c free held)
    (hx : ∀ page, start ≤ frameAddr page + 4095 → frameAddr page < end_ → Exclusive c root page)
    (hr : forPages (releasePage root) start end_ c = some c') :
    ∃ free', Sound P c' free' held := by
  refine forPages_keeps (J := fun c => ∃ free, Sound P c free held)
    (X := fun c => Exclusive c root) (fun addr c c' ⟨free, h⟩ hx hr => ?_) ⟨free, h⟩ hx hr
  obtain ⟨hc, h'⟩ := releasePage_sound h hx hr
  refine ⟨h', fun page hpage => ?_⟩
  rcases hc with rfl | ⟨f, rfl⟩
  · exact hpage
  · exact hpage.of_unmap

theorem evictAddr_sound (h : Sound P c free held) (hx : Exclusive c root (addr / 4096))
    (hr : evictAddr v c root addr = some (ok, v', c')) : ∃ free', Sound P c' free' held := by
  rcases evictAddr_inv hr with ⟨_, _, rfl⟩ | ⟨e, he, hcase⟩
  · exact ⟨free, h⟩
  · rcases hcase with ⟨swap, _, _, _, rfl⟩ | ⟨slot, swap, _, _, _, rfl⟩
    · exact ⟨free, h.setSwap swap⟩
    · obtain ⟨free', _, h'⟩ := ((h.unmap_exclusive he hx).setSwap swap).deallocate
      exact ⟨free', h'⟩

/-! ## Flags -/

/-- A flag update moves no frame. -/
theorem leaf_frame_of_updateFlags {st : T.State} {r p : Nat} {e' : Entry}
    (hl : T.leaf (T.updateFlags st root page flags) r p = some e') :
    ∃ e, T.leaf st r p = some e ∧ e'.frame = e.frame := by
  rcases leaf_of_updateFlags hl with ⟨_, e, _, he, rfl⟩ | ⟨_, hl⟩
  · exact ⟨e, he, rfl⟩
  · exact ⟨e', hl, rfl⟩

theorem Exclusive.of_updateFlags (hx : Exclusive c root page) :
    Exclusive { c with tables := T.updateFlags c.tables root page' flags } root page := by
  intro e r p e' hl hl' hfr
  obtain ⟨e₀, he₀, h₀⟩ := leaf_frame_of_updateFlags hl
  obtain ⟨e₁, he₁, h₁⟩ := leaf_frame_of_updateFlags hl'
  exact hx he₀ he₁ (h₁.symm.trans (hfr.trans h₀))

/-- The policy admits `flags` on a page: always when they are read-only, else
only when the frame is the page's own or the policy does not care. -/
def AdmitsFlags (P : Policy) (c : Shared T) (root : Nat) (flags : PageTableFlags)
    (page : Nat) : Prop :=
  flags.writable = true → ((∀ a b, P.share a b) ∨ Exclusive c root page) ∧
    ((c.leaf root page).isSome → P.entry page flags)

theorem AdmitsFlags.of_updateFlags (h : AdmitsFlags P c root flags page) :
    AdmitsFlags P { c with tables := T.updateFlags c.tables root page' flags } root flags page := by
  intro hw
  refine ⟨(h hw).1.imp_right Exclusive.of_updateFlags, fun hl => (h hw).2 ?_⟩
  obtain ⟨e', he'⟩ := isSome_iff_exists.mp hl
  obtain ⟨e, he, _⟩ := leaf_frame_of_updateFlags he'
  exact isSome_iff_exists.mpr ⟨e, he⟩

/-- Making an entry read-only is always admitted. -/
theorem Sound.makeReadOnly (hP : P.Forks) (h : Sound P c free held)
    (hro : flags.writable = false) :
    Sound P { c with tables := T.updateFlags c.tables root page flags } free held := by
  refine h.updateFlags (fun _ => hP.entry hro) (fun he hl hfr => ?_)
  rw [hro]
  rcases h.pairs he hl hfr.symm with hs | hshare
  · exact .inl hs
  · rcases h.pairs hl he hfr with hs | hshare'
    · exact .inl (sameLeaf_symm hs)
    · exact .inr ⟨hP.left hshare, hP.right hshare'⟩

theorem protectPage_sound (hP : P.Forks) (h : Sound P c free held)
    (hadm : AdmitsFlags P c root flags (addr / 4096))
    (hr : protectPage root flags addr c = some c') :
    (c' = c ∨ c' = { c with tables := T.updateFlags c.tables root (addr / 4096) flags }) ∧
      Sound P c' free held := by
  unfold protectPage at hr
  split at hr
  next phys hphys =>
    obtain ⟨⟨e, he⟩, rfl⟩ := remapFlags_inv hr
    refine ⟨.inr rfl, ?_⟩
    cases hw : flags.writable with
    | false => exact h.makeReadOnly hP hw
    | true =>
      obtain ⟨hx, hentry⟩ := hadm hw
      refine h.updateFlags (fun he => hentry (isSome_iff_exists.mpr ⟨_, he⟩))
        (fun he hl hfr => ?_)
      rcases hx with hany | hx
      · exact .inr ⟨hany _ _, hany _ _⟩
      · exact .inl (hx he hl hfr)
  · cases hr
    exact ⟨.inl rfl, h⟩

theorem protectPages_sound (hP : P.Forks) (h : Sound P c free held)
    (hadm : ∀ page, start ≤ frameAddr page + 4095 → frameAddr page < end_ →
      AdmitsFlags P c root flags page)
    (hr : forPages (protectPage root flags) start end_ c = some c') : Sound P c' free held := by
  refine forPages_keeps (J := fun c => Sound P c free held)
    (X := fun c => AdmitsFlags P c root flags) (fun addr c c' h hadm hr => ?_) h hadm hr
  obtain ⟨hc, h'⟩ := protectPage_sound hP h hadm hr
  refine ⟨h', fun page hpage => ?_⟩
  rcases hc with rfl | rfl
  · exact hpage
  · exact hpage.of_updateFlags

/-! ## `fork_cow` and `load_flat` -/

theorem sharePage_sound (hP : P.Forks) (h : Sound P c free held)
    (hro : flags.writable = false) (hr : sharePage root child flags addr c = some c') :
    ∃ free', Sound P c' free' held := by
  unfold sharePage at hr
  split at hr
  next phys hphys =>
    obtain ⟨e₀, he₀, _, hdiv⟩ := translateAddr_inv hphys
    obtain ⟨c₁, hremap, hm⟩ := bind_inv hr
    obtain ⟨_, rfl⟩ := remapFlags_inv hremap
    have h₁ : Sound P { c with tables := T.updateFlags c.tables root (addr / 4096) flags } free held :=
      h.makeReadOnly hP hro
    obtain ⟨_, _, fa, rfl, h₂⟩ := h₁.mapPage_cases hm
    -- the parent's entry, now read-only, is the one that is shared
    have hparent : T.leaf (T.updateFlags c.tables root (addr / 4096) flags) root (addr / 4096)
        = some { e₀ with flags := flags } := by
      rw [T.leaf_updateFlags, if_pos ⟨rfl, .inl rfl⟩, show T.leaf c.tables root (addr / 4096)
        = some e₀ from he₀]
      rfl
    refine ⟨_, h₂.mapTo_shared hparent hdiv (hP.entry hro) (fun hl hfr => ?_)⟩
    have hfr' : _ = e₀.frame := hfr.trans hdiv
    rw [hro]
    rcases h₂.pairs hparent hl hfr'.symm with hs | hshare
    · -- the same leaf as the parent's
      have heq : _ = some { e₀ with flags := flags } := (leaf_sameLeaf hs).trans hparent
      cases hl.symm.trans heq
      rw [hro]
      exact ⟨hP.base, hP.base⟩
    · rcases h₂.pairs hl hparent hfr' with hs | hshare'
      · have heq : _ = some { e₀ with flags := flags } :=
          (leaf_sameLeaf (sameLeaf_symm hs)).trans hparent
        cases hl.symm.trans heq
        rw [hro]
        exact ⟨hP.base, hP.base⟩
      · exact ⟨hP.left hshare, hP.right hshare'⟩
  · cases hr
    exact ⟨free, h⟩

theorem forkCow_sound (hP : P.Forks) (h : Sound P c free held)
    (hr : forkCow v c root child = some (v', c')) : ∃ free', Sound P c' free' held := by
  obtain ⟨c₁, hrun, hr⟩ := bind_inv hr
  cases hr
  refine foldlM_rule (I := fun c => ∃ free, Sound P c free held) ?_ ⟨free, h⟩ hrun
  intro c area c' _ ⟨free, h⟩ hr
  obtain ⟨_, _, h'⟩ := forPages_rule (I := fun _ c => ∃ free, Sound P c free held)
    (fun _ _ _ _ ⟨_, h⟩ hr => sharePage_sound hP h rfl hr) ⟨free, h⟩ hr
  exact h'

theorem loadPage_sound {bytes : List UInt8} {k : Nat}
    (hQ : ∀ page, P.entry page (userFlags false)) (h : Sound P c free held)
    (hr : loadPage root bytes c k = some c') : ∃ free', Sound P c' free' held := by
  obtain ⟨⟨r, c₁⟩, ha, hr⟩ := bind_inv hr
  cases r with
  | none => cases hr
  | some f =>
    obtain ⟨va, _, hm⟩ := bind_inv hr
    obtain ⟨rest, fa, _, rfl, h₁⟩ := h.allocate_some ha
    have hf : f ∉ rest := h₁.heldFree mem_cons_self
    have h₂ := h₁.blit hf (n := 4096) (b := fun _ => 0) (Nat.le_refl _) (Nat.le_refl _)
    have h₃ := h₂.blit hf (n := min (bytes.length - k * 4096) 4096)
      (b := fun i => bytes.getD (k * 4096 + i) 0) (Nat.le_refl _) (by omega)
    obtain ⟨free', _, h'⟩ := mapPage_held (e := ⟨f, userFlags false⟩) h₃ (hQ _) hm
    exact ⟨free', h'⟩

end Operations

/-! ## Steps and runs -/

/-- The run invariant: `Sound`, with the level-4 tables of all tasks in hand. -/
def FrameInv (P : Policy) (s : Machine T) : Prop :=
  ∃ free, Sound P s.shared free (s.spaces.map Space.root)

/-- A page that is evicted, or released by lowering the break, has a frame that
no other page-table entry has. -/
def UnmapsExclusive (s : Machine T) : MemOp → Prop
  | .evict i vaddr => ∀ sp, s.spaces[i]? = some sp → Exclusive s.shared sp.root (vaddr / 4096)
  | .brk i newBrk => ∀ sp, s.spaces[i]? = some sp → newBrk ≠ 0 →
      sp.heapStart ≤ alignDown (newBrk + 0xFFF) → ∀ page,
      alignDown (newBrk + 0xFFF) ≤ frameAddr page → frameAddr page < sp.brk →
      Exclusive s.shared sp.root page
  | _ => True

/-- The entries a fault or a writable `SYS_MPROTECT` makes are admitted. -/
def Admits (P : Policy) (s : Machine T) : MemOp → Prop
  | .fault _ addr _ => ∀ flags, P.entry (addr / 4096) flags
  | .mprotect i addr len prot => ∀ sp, s.spaces[i]? = some sp → ∀ page,
      addr ≤ frameAddr page → frameAddr page < addr + alignDown (len + 0xFFF) →
      AdmitsFlags P s.shared sp.root (userFlags (prot &&& 2 ≠ 0)) page
  | _ => True

variable {sp sp' : Space}

theorem put_roots {s : Machine T} {i : Nat} {c : Shared T}
    (hi : s.spaces[i]? = some sp) (hroot : sp'.root = sp.root) :
    (s.put i sp' c).spaces.map Space.root = s.spaces.map Space.root := by
  obtain ⟨hlt, hget⟩ := List.getElem?_eq_some_iff.mp hi
  unfold Machine.put
  rw [map_set, hroot, ← hget, ← getElem_map Space.root (h := by simpa using hlt),
    set_getElem_self]

theorem FrameInv.put {P : Policy} {s : Machine T} {i : Nat} {c : Shared T}
    (hi : s.spaces[i]? = some sp) (hroot : sp'.root = sp.root)
    (h : ∃ free, Sound P c free (s.spaces.map Space.root)) : FrameInv P (s.put i sp' c) := by
  obtain ⟨free, h⟩ := h
  refine ⟨free, ?_⟩
  rw [put_roots hi hroot]
  exact h

/-- A task in a new address space joins. -/
theorem FrameInv.push {P : Policy} {spaces : List Space} {c : Shared T}
    (h : ∃ free, Sound P c free (sp.root :: spaces.map Space.root)) :
    FrameInv P ⟨c, spaces ++ [sp]⟩ := by
  obtain ⟨free, h⟩ := h
  refine ⟨free, h.perm ?_⟩
  rw [map_append]
  exact (perm_append_singleton sp.root (spaces.map Space.root)).symm

section Steps

variable {P : Policy} {s s' : Machine T} {i : Nat}

theorem loadFlat_frameInv {bytes : List UInt8} (hQ : ∀ page, P.entry page (userFlags false))
    (h : FrameInv P s) (hr : loadFlat s bytes = some s') : FrameInv P s' := by
  obtain ⟨free, h⟩ := h
  obtain ⟨⟨root, c₁⟩, hc, hr⟩ := bind_inv hr
  obtain ⟨c₂, hload, hr⟩ := bind_inv hr
  cases hr
  obtain ⟨rest, fa, _, _, h₁⟩ := h.cloneKernelHalf hc
  refine FrameInv.push ?_
  exact foldlM_rule (I := fun c => ∃ free, Sound P c free (root :: s.spaces.map Space.root))
    (fun _ _ _ _ ⟨_, h⟩ hr => loadPage_sound hQ h hr) ⟨rest, h₁⟩ hload

theorem sysFork_frameInv (hP : P.Forks) (h : FrameInv P s) (hr : sysFork s i = some s') :
    FrameInv P s' := by
  obtain ⟨free, h⟩ := h
  obtain ⟨sp, hi, hr⟩ := bind_inv hr
  obtain ⟨⟨root, c₁⟩, hc, hr⟩ := bind_inv hr
  obtain ⟨⟨v, c₂⟩, hfork, hr⟩ := bind_inv hr
  cases hr
  obtain ⟨rest, fa, _, _, h₁⟩ := h.cloneKernelHalf hc
  exact FrameInv.push (forkCow_sound hP h₁ hfork)

variable {addr : Nat} {ok : Bool}

theorem pageFault_frameInv {w : Bool} (h : FrameInv P s)
    (hadm : ∀ flags, P.entry (addr / 4096) flags) (hr : pageFault s i addr w = some (ok, s')) :
    FrameInv P s' := by
  obtain ⟨free, h⟩ := h
  obtain ⟨sp, v, c, hi, hf, rfl⟩ := pageFault_inv hr
  obtain ⟨free', _, h'⟩ := handleFault_sound h hadm hf
  exact FrameInv.put hi rfl ⟨free', h'⟩

theorem evict_frameInv {vaddr : Nat} (h : FrameInv P s)
    (hx : UnmapsExclusive s (.evict i vaddr)) (hr : evict s i vaddr = some (ok, s')) :
    FrameInv P s' := by
  obtain ⟨free, h⟩ := h
  obtain ⟨sp, v, c, hi, he, rfl⟩ := evict_inv hr
  exact FrameInv.put hi rfl (evictAddr_sound h (hx sp hi) he)

theorem sysBrk_frameInv {newBrk ret : Nat} (h : FrameInv P s)
    (hx : UnmapsExclusive s (.brk i newBrk)) (hr : sysBrk s i newBrk = some (ret, s')) :
    FrameInv P s' := by
  rcases sysBrk_inv hr with rfl | ⟨sp, hi, hne, rfl, hlo, _, hcase⟩
  · exact h
  · obtain ⟨free, h⟩ := h
    rcases hcase with ⟨_, rfl⟩ | ⟨_, c, hloop, rfl⟩ | ⟨_, rfl⟩
    · exact FrameInv.put hi rfl ⟨free, h⟩
    · refine FrameInv.put hi rfl (releasePages_sound h (fun page h₁ h₂ => ?_) hloop)
      refine hx sp hi hne hlo page ?_ h₂
      -- the new end is page-aligned
      unfold alignDown frameAddr at *
      omega
    · exact FrameInv.put hi rfl ⟨free, h⟩

theorem sysMprotect_frameInv {len prot : Nat} (hP : P.Forks) (h : FrameInv P s)
    (hadm : Admits P s (.mprotect i addr len prot))
    (hr : sysMprotect s i addr len prot = some (ok, s')) : FrameInv P s' := by
  have hI := h
  obtain ⟨free, h⟩ := h
  rcases sysMprotect_inv hr with
    ⟨_, rfl⟩ | ⟨sp, end_, _, _, _, c, _, hi, _, rfl, _, _, _, _, _, hloop, rfl⟩
  · exact hI
  refine FrameInv.put hi rfl ⟨free, protectPages_sound hP h (fun page h₁ h₂ => ?_) hloop⟩
  refine hadm sp hi page ?_ h₂
  unfold frameAddr at *
  omega

theorem userStore_frameInv {b : UInt8} (h : FrameInv P s)
    (hr : userStore s i addr b = some s') : FrameInv P s' := by
  obtain ⟨free, h⟩ := h
  obtain ⟨e, he, _, hsp, hsh⟩ := userStore_inv hr
  obtain ⟨sp, _, hl, _⟩ := userEntry_inv he
  refine ⟨free, ?_⟩
  rw [hsp, hsh]
  refine h.write (fun g hg x hx hx' => Function.update_of_ne ?_ _ _)
  have hne : g ≠ e.frame := fun he => h.leafFree hl (he ▸ hg)
  have := frameAddr_apart hne
  omega

theorem touch_frameInv {page : Nat} {dirty : Bool}
    (hP : ∀ {page flags flags'}, P.entry page flags → flags'.writable = flags.writable →
      flags'.userAccessible = flags.userAccessible → P.entry page flags')
    (h : FrameInv P s) (hr : touch s i page dirty = some s') : FrameInv P s' := by
  obtain ⟨free, h⟩ := h
  obtain ⟨sp, e, c, hi, he, hremap, rfl⟩ := touch_inv hr
  obtain ⟨_, rfl⟩ := remapFlags_inv hremap
  -- the two bits the policy looks at stay as they are
  refine ⟨free, h.updateFlags (fun _ => hP (h.entries he) rfl rfl) ?_⟩
  intro e₁ r p e' he₁ hl hfr
  cases he.symm.trans he₁
  rcases h.pairs he hl hfr.symm with hs | hshare
  · exact .inl hs
  · rcases h.pairs hl he hfr with hs | hshare'
    · exact .inl (sameLeaf_symm hs)
    · exact .inr ⟨hshare, hshare'⟩

/-- The step lemma for every policy. -/
theorem memStep_frameInv {op : MemOp} (hP : P.Forks) (h : FrameInv P s)
    (hx : UnmapsExclusive s op) (hadm : Admits P s op) (hr : memStep s op = some s') :
    FrameInv P s' := by
  cases op with
  | load bytes => exact loadFlat_frameInv (fun _ => hP.entry rfl) h hr
  | fork i => exact sysFork_frameInv hP h hr
  | fault i addr w =>
    obtain ⟨⟨ok, s₁⟩, hf, rfl⟩ := map_inv hr
    exact pageFault_frameInv h hadm hf
  | evict i vaddr =>
    obtain ⟨⟨ok, s₁⟩, he, rfl⟩ := map_inv hr
    exact evict_frameInv h hx he
  | brk i newBrk =>
    obtain ⟨⟨ret, s₁⟩, hb, rfl⟩ := map_inv hr
    exact sysBrk_frameInv h hx hb
  | mprotect i addr len prot =>
    obtain ⟨⟨ok, s₁⟩, hm, rfl⟩ := map_inv hr
    exact sysMprotect_frameInv hP h hadm hm
  | store i addr b => exact userStore_frameInv h hr
  | touch i page dirty => exact touch_frameInv hP.touch h hr

/-- Every permitted run keeps the invariant. -/
theorem exec_frameInv {ops : List MemOp} (hP : P.Forks) (h : FrameInv P s)
    (halong : Along memStep (fun s op => UnmapsExclusive s op ∧ Admits P s op) s ops)
    (hr : exec memStep s ops = some s') : FrameInv P s' :=
  exec_induction (fun _ _ _ h hc hr => memStep_frameInv hP h hc.1 hc.2 hr) h halong hr

end Steps

/-! ## The machine at boot -/

/-- With nothing mapped, any set of free frames will do. -/
theorem bootMachine_frameInv {P : Policy} {tables : T.State} {frames : List Nat} {pages : Nat}
    (hnd : frames.Nodup) (hphys : ∀ f ∈ frames, frameAddr f < 2 ^ 52)
    (hnone : ∀ root page, T.leaf tables root page = none) :
    FrameInv P (bootMachine T tables frames pages) := by
  obtain ⟨free, hfree, _⟩ :=
    (FreeFrames.empty fun _ => 0).deallocate_all frames hnd (fun f _ => by simp) hphys
  have hleaf : ∀ {root page e}, T.leaf tables root page = some e → False := by
    intro root page e hl
    rw [hnone] at hl
    cases hl
  exact ⟨free,
    { frames := hfree
      leafFree := fun hl => (hleaf hl).elim
      leafPhys := fun hl => (hleaf hl).elim
      heldFree := fun hg => absurd hg (by simp [bootMachine])
      heldPhys := fun hg => absurd hg (by simp [bootMachine])
      heldLeaf := fun hg => absurd hg (by simp [bootMachine])
      heldNodup := nodup_nil
      entries := fun hl => (hleaf hl).elim
      pairs := fun hl => (hleaf hl).elim }⟩

/-- Page tables with the kernel under level-4 entry 2. -/
def smallTables : PageTables := walkTables fun i => i == 2

/-- A machine with forty free frames. -/
def smallMachine : Machine smallTables :=
  bootMachine smallTables ((fun _ _ => none), fun _ _ _ => false) (range' 1 40) 4

theorem smallMachine_frameInv {P : Policy} : FrameInv P smallMachine :=
  bootMachine_frameInv (by decide) (by decide) (fun _ _ => rfl)

/-! ## No freed frame is mapped -/

/-- Following the free list meets no frame that a task's page table maps. -/
def NoFreeMapped (s : Machine T) : Prop :=
  ∃ free : List Nat, Chain s.shared.mem s.shared.frameAllocator.head (free.map frameAddr) ∧
    ∀ sp ∈ s.spaces, ∀ page e, s.shared.leaf sp.root page = some e → e.frame ∉ free

/-- A frame handed out by `allocate` is mapped by no task. -/
def AllocatesUnmapped (s : Machine T) : Prop :=
  ∀ f c, s.shared.allocate = some (some f, c) →
    ∀ sp ∈ s.spaces, ∀ page e, s.shared.leaf sp.root page = some e → e.frame ≠ f

/-- Anything goes. -/
def anyPolicy : Policy := ⟨fun _ _ => True, fun _ _ => True⟩

theorem anyPolicy_forks : anyPolicy.Forks :=
  ⟨trivial, fun _ => trivial, fun _ => trivial, fun _ => trivial, fun _ _ _ => trivial⟩

theorem admits_anyPolicy (s : Machine T) (op : MemOp) : Admits anyPolicy s op := by
  cases op with
  | fault i addr w => exact fun _ => trivial
  | mprotect i addr len prot =>
    exact fun _ _ _ _ _ _ => ⟨.inl fun _ _ => trivial, fun _ => trivial⟩
  | _ => exact trivial

theorem FrameInv.noFreeMapped {P : Policy} {s : Machine T} (h : FrameInv P s) :
    NoFreeMapped s := by
  obtain ⟨free, h⟩ := h
  exact ⟨free, h.frames.chain, fun _ _ _ _ hl => h.leafFree hl⟩

theorem FrameInv.allocatesUnmapped {P : Policy} {s : Machine T} (h : FrameInv P s) :
    AllocatesUnmapped s := by
  obtain ⟨free, h⟩ := h
  intro f c ha sp _ page e hl
  obtain ⟨rest, fa, rfl, rfl, h'⟩ := h.allocate_some ha
  exact h'.heldLeaf mem_cons_self hl

/-- **No freed frame is mapped**, in any order of loads, forks, faults,
evictions, `SYS_BRK`s, `SYS_MPROTECT`s and user stores over any number of
address spaces, as long as every page that is evicted or released has a frame
of its own. -/
theorem free_frames_unmapped {s₀ s : Machine T} {ops : List MemOp}
    (h₀ : FrameInv anyPolicy s₀) (halong : Along memStep UnmapsExclusive s₀ ops)
    (hr : exec memStep s₀ ops = some s) : NoFreeMapped s ∧ AllocatesUnmapped s := by
  have h := exec_induction (P := UnmapsExclusive) (I := FrameInv anyPolicy)
    (fun s op _ h hx hr => memStep_frameInv anyPolicy_forks h hx (admits_anyPolicy s op) hr)
    h₀ halong hr
  exact ⟨h.noFreeMapped, h.allocatesUnmapped⟩

/-- A program touches its stack and forks, and the child writes to it. -/
theorem free_frames_unmapped_small : ∃ s, exec memStep smallMachine
    [.load [0x90], .fault 0 0x7FFFFFFFE000 true, .fork 0, .fault 1 0x7FFFFFFFE000 true] = some s ∧
    NoFreeMapped s ∧ AllocatesUnmapped s := by
  obtain ⟨s, hs⟩ := isSome_iff_exists.mp (show (exec memStep smallMachine
    [.load [0x90], .fault 0 0x7FFFFFFFE000 true, .fork 0, .fault 1 0x7FFFFFFFE000 true]).isSome by
      decide +kernel)
  exact ⟨s, hs, free_frames_unmapped smallMachine_frameInv (by simp [Along, UnmapsExclusive]) hs⟩

/-- A program touches one page of its stack and forks, then the page of the
parent is evicted: the frame is the head of the free list, and the child still
has it mapped. -/
theorem fork_then_evict_frees_mapped : FrameInv anyPolicy smallMachine ∧
    ∃ s, exec memStep smallMachine [.load [0x90], .fault 0 0x7FFFFFFFE000 true, .fork 0,
      .evict 0 0x7FFFFFFFE000] = some s ∧ ¬ NoFreeMapped s := by
  have hrun : ((exec memStep smallMachine [.load [0x90], .fault 0 0x7FFFFFFFE000 true, .fork 0,
      .evict 0 0x7FFFFFFFE000]).map fun s =>
        (s.shared.frameAllocator.head,
          s.spaces[1]?.map fun sp => (s.shared.leaf sp.root 0x7FFFFFFFE).map Entry.frame))
      = some (some (frameAddr 35), some (some 35)) := by decide +kernel
  obtain ⟨s, hs, hobs⟩ := map_inv hrun
  injection hobs with hhead hchild
  refine ⟨smallMachine_frameInv, s, hs, ?_⟩
  rintro ⟨free, hchain, hout⟩
  obtain ⟨sp, hsp, hsp'⟩ := map_inv hchild
  obtain ⟨e, he, hframe⟩ := map_inv hsp'
  rw [hhead] at hchain
  obtain ⟨l, hl, _⟩ := hchain.of_some
  obtain ⟨f, hf, hfa⟩ := mem_map.mp
    (show frameAddr 35 ∈ free.map frameAddr by rw [hl]; exact mem_cons_self)
  refine hout sp (mem_of_getElem? hsp) _ e he ?_
  rw [hframe, ← frameAddr_inj hfa]
  exact hf

end AlaphiOS.Memory
