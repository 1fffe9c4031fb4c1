import AlaphiOS.Memory.Faults

/-!
# Frames nobody has

`fork_cow` and `handle_fault` over a family of address spaces, with the user programs running
between them, and as a ghost the frames that `handle_fault` has taken for user pages.

Such a frame should stay mapped somewhere or go back to the free list. Nothing in these
operations gives a frame back, so it has to stay mapped. Forking keeps the frame of every entry
there is (`KeepsFrames`), and a handled fault sets one entry and leaves all others
(`handleFault_entry`). So a frame is lost exactly when that one entry was the last to have it:
a copy-on-write fault on a page that is shared with nobody (`Orphans`). After a fork the last
sharer to write is always in that position.
-/

namespace AlaphiOS.Memory

open Lib List Space
open Option (isSome_iff_exists)

variable {T : PageTables}

/-! ## Entries keep their frames -/

section Keeps

variable {c c' c'' : Shared T} {root page addr : Nat} {flags : PageTableFlags} {e : Entry}

/-- Every entry there was is there, with its frame. -/
def KeepsFrames (c c' : Shared T) : Prop :=
  ∀ ⦃r p e⦄, c.leaf r p = some e → ∃ e', c'.leaf r p = some e' ∧ e'.frame = e.frame

theorem KeepsFrames.refl (c : Shared T) : KeepsFrames c c := fun _ _ e hl => ⟨e, hl, rfl⟩

theorem KeepsFrames.trans (h : KeepsFrames c c') (h' : KeepsFrames c' c'') : KeepsFrames c c'' := by
  intro r p e hl
  obtain ⟨e₁, hl₁, hf₁⟩ := h hl
  obtain ⟨e₂, hl₂, hf₂⟩ := h' hl₁
  exact ⟨e₂, hl₂, hf₂.trans hf₁⟩

theorem remapFlags_keeps (h : remapFlags c root page flags = some c') : KeepsFrames c c' := by
  obtain ⟨_, rfl⟩ := remapFlags_inv h
  intro r p e hl
  have hleaf := T.leaf_updateFlags c.tables root page flags r p
  rw [show T.leaf c.tables r p = some e from hl] at hleaf
  by_cases hs : T.SameLeaf root page r p
  · exact ⟨_, hleaf.trans (if_pos hs), rfl⟩
  · exact ⟨e, hleaf.trans (if_neg hs), rfl⟩

/-- `map_page` sets an entry that was not in use. -/
theorem mapPage_keeps (h : mapPage c root page e = some c') : KeepsFrames c c' := by
  obtain ⟨hnone, fa, rfl⟩ := mapPage_eq h
  intro r p e' hl
  refine ⟨e', (leaf_mapTo_of_not fun hs => ?_).trans hl, rfl⟩
  have hsame : T.leaf c.tables r p = T.leaf c.tables root page := leaf_sameLeaf hs
  have hused : T.leaf c.tables r p = some e' := hl
  rw [hsame] at hused
  cases hnone.symm.trans hused

variable {child : Nat}

theorem sharePage_keeps (h : sharePage root child flags addr c = some c') : KeepsFrames c c' := by
  unfold sharePage at h
  split at h
  · obtain ⟨c₁, hremap, hm⟩ := bind_inv h
    exact (remapFlags_keeps hremap).trans (mapPage_keeps hm)
  · cases h
    exact KeepsFrames.refl c

theorem forkCow_keeps {v v' : Vmm} (h : forkCow v c root child = some (v', c')) :
    KeepsFrames c c' := by
  obtain ⟨c₁, hrun, h⟩ := bind_inv h
  cases h
  refine foldlM_rule (I := KeepsFrames c) (fun c₁ area c₂ _ hI hr => ?_) (KeepsFrames.refl c) hrun
  obtain ⟨_, _, hI'⟩ := forPages_rule (I := fun _ => KeepsFrames c)
    (fun _ _ _ _ hI hr => hI.trans (sharePage_keeps hr)) hI hr
  exact hI'

end Keeps

/-! ## What a fault does to the entries -/

/-- A handled fault sets the entry of the page to the frame that `allocate` hands out. -/
theorem handleFault_entry {v v' : Vmm} {c c' : Shared T} {root addr : Nat} {isWrite : Bool}
    (h : handleFault v c root addr isWrite = some (true, v', c')) :
    ∃ f c₁ flags, c.allocate = some (some f, c₁) ∧ ∀ r p, c'.leaf r p
      = if T.SameLeaf root (addr / 4096) r p then some ⟨f, flags⟩ else c.leaf r p := by
  have hmap : ∀ {c₂ : Shared T} {e : Entry}, mapPage c₂ root (addr / 4096) e = some c' →
      ∀ r p, c'.leaf r p
        = if T.SameLeaf root (addr / 4096) r p then some e else c₂.leaf r p := by
    intro c₂ e hm r p
    obtain ⟨_, _, rfl⟩ := mapPage_eq hm
    exact T.leaf_mapTo ..
  rcases handleFault_inv h with ⟨slot, flags, _, _, hin⟩ | ⟨_, _, hcase⟩
  · rcases swapInPage_inv hin with ⟨hok, _⟩ | ⟨_, f, c₁, mem, swap, ha, _, hm⟩
    · cases hok
    · refine ⟨f, c₁, flags, ha, fun r p => (hmap hm r p).trans ?_⟩
      rw [← allocate_leaf ha]
      rfl
  · rcases hcase with ⟨hok, _⟩ | ⟨area, _, _, _, _, _, hcow⟩ | ⟨area, _, _, hzero⟩
    · cases hok
    · rcases copyOnWrite_inv hcow with ⟨hok, _⟩ | ⟨_, f, c₁, g, c₂, ha, hu, hm⟩
      · cases hok
      · refine ⟨f, c₁, area.flags, ha, fun r p => (hmap hm r p).trans ?_⟩
        obtain ⟨_, _, _, rfl⟩ := unmapPage_inv hu
        -- what `unmap_page` took away, `map_page` has set
        split
        · rfl
        next hs =>
          rw [← allocate_leaf ha]
          exact (T.leaf_unmap ..).trans (if_neg hs)
    · rcases zeroFill_inv hzero with ⟨hok, _⟩ | ⟨_, f, c₁, ha, hm⟩
      · cases hok
      · refine ⟨f, c₁, area.flags, ha, fun r p => (hmap hm r p).trans ?_⟩
        rw [← allocate_leaf ha]
        rfl

/-! ## Runs -/

/-- The machine, and as a ghost the frames taken for user pages. -/
structure FamilyRun (T : PageTables) where
  machine : Machine T
  user : List Nat

/-- `fork_cow`, `handle_fault`, and what user programs do without the kernel. -/
def MemOp.inFamily : MemOp → Bool
  | .fork _ | .fault .. | .store .. | .touch .. => true
  | _ => false

/-- The frame that a fault takes for its page, if it is handled. -/
def takenFrame (m : Machine T) : MemOp → List Nat
  | .fault i addr isWrite =>
    match pageFault m i addr isWrite, m.shared.allocate with
    | some (true, _), some (some f, _) => [f]
    | _, _ => []
  | _ => []

/-- A step within the family. -/
def familyStep (s : FamilyRun T) (op : MemOp) : Option (FamilyRun T) :=
  if op.inFamily then
    (memStep s.machine op).map fun m => ⟨m, takenFrame s.machine op ++ s.user⟩
  else none

/-- One of the address spaces maps the frame. -/
def Maps (m : Machine T) (f : Nat) : Prop :=
  ∃ root ∈ m.spaces.map Space.root, ∃ page e, m.shared.leaf root page = some e ∧ e.frame = f

/-- Every frame taken for a user page is mapped, or the links of the free list lead to it. -/
def Accounted (s : FamilyRun T) : Prop :=
  ∀ f ∈ s.user, Maps s.machine f ∨ ∃ free : List Nat,
    Chain s.machine.shared.mem s.machine.shared.frameAllocator.head (free.map frameAddr) ∧ f ∈ free

/-- A write in a writable area, to a page that is not on swap, while there is a free frame. -/
def Vmm.Copies (v : Vmm) (c : Shared T) (addr : Nat) (isWrite : Bool) : Prop :=
  isWrite = true ∧ v.swapped (frameAddr (addr / 4096)) = none ∧ c.frameAllocator.head ≠ none ∧
    ∃ a, v.areas.find? (fun a => a.has addr) = some a ∧ a.flags.writable = true

/-- Exactly such a fault is handled on a page that is resident. -/
theorem handleFault_resident {v v' : Vmm} {c c' : Shared T} {root addr : Nat} {isWrite ok : Bool}
    {e : Entry} (he : c.leaf root (addr / 4096) = some e)
    (h : handleFault v c root addr isWrite = some (ok, v', c')) :
    ok = true ↔ v.Copies c addr isWrite := by
  constructor
  · rintro rfl
    rcases handleFault_inv h with ⟨_, _, _, _, hin⟩ | ⟨hswap, _, hcase⟩
    · rcases swapInPage_inv hin with ⟨hok, _⟩ | ⟨_, f, c₁, mem, swap, ha, _, hm⟩
      · cases hok
      obtain ⟨_, rfl⟩ := allocate_eq ha
      cases he.symm.trans (mapPage_eq hm).1
    rcases hcase with ⟨hok, _⟩ | ⟨area, _, harea, _, hwrite, hw, hcopy⟩ | ⟨_, _, hp, _⟩
    · cases hok
    · rcases copyOnWrite_inv hcopy with ⟨hok, _⟩ | ⟨_, f, c₁, _, _, ha, _⟩
      · cases hok
      obtain ⟨hr, _⟩ | ⟨_, hhead, _⟩ := allocate_head ha
      · cases hr
      exact ⟨hwrite, hswap, hhead, area, harea, hw⟩
    · rw [translateAddr, he] at hp
      cases hp
  · rintro ⟨rfl, hswap, hhead, area, harea, hw⟩
    rw [handleFault_cow hswap harea hw he] at h
    obtain ⟨⟨ok₁, c₁⟩, hcopy, heq⟩ := map_inv h
    cases heq
    rcases copyOnWrite_inv hcopy with ⟨_, ha⟩ | ⟨hok, _⟩
    · obtain ⟨_, hnone, _⟩ | ⟨⟨_, hr⟩, _⟩ := allocate_head ha
      · exact absurd hnone hhead
      · cases hr
    · exact hok

/-- A fault that copies a resident page, whose frame was taken for a user page and is in no other
entry of these address spaces. -/
def Orphans (s : FamilyRun T) : MemOp → Prop
  | .fault i addr isWrite => ∃ sp e, s.machine.spaces[i]? = some sp ∧
      sp.vmm.Copies s.machine.shared addr isWrite ∧
      s.machine.shared.leaf sp.root (addr / 4096) = some e ∧ e.frame ∈ s.user ∧
      ∀ root ∈ s.machine.spaces.map Space.root, ∀ page e',
        s.machine.shared.leaf root page = some e' → e'.frame = e.frame →
        T.SameLeaf sp.root (addr / 4096) root page
  | _ => False

/-- The run invariant: the free frames are mapped nowhere, the user frames somewhere. -/
structure FamilyInv (s : FamilyRun T) : Prop where
  frames : FrameInv anyPolicy s.machine
  mapped : ∀ f ∈ s.user, Maps s.machine f

theorem FamilyInv.accounted {s : FamilyRun T} (h : FamilyInv s) : Accounted s :=
  fun f hf => .inl (h.mapped f hf)

section Steps

variable {m m' : Machine T} {s t : FamilyRun T} {op : MemOp} {i addr f : Nat} {isWrite ok : Bool}

/-- Address spaces that stay, with entries that keep their frames. -/
theorem Maps.keeps (h : Maps m f)
    (hroots : ∀ r ∈ m.spaces.map root, r ∈ m'.spaces.map root)
    (hleaf : ∀ r ∈ m.spaces.map root, ∀ p e, m.shared.leaf r p = some e →
      ∃ e', m'.shared.leaf r p = some e' ∧ e'.frame = e.frame) : Maps m' f := by
  obtain ⟨r, hr, p, e, hl, rfl⟩ := h
  obtain ⟨e', hl', hf⟩ := hleaf r hr p e hl
  exact ⟨r, hroots r hr, p, e', hl', hf⟩

/-- The child's level-4 table comes from the free list, so it is nobody's yet. -/
theorem sysFork_maps (hI : FrameInv anyPolicy m) (hr : sysFork m i = some m') (h : Maps m f) :
    Maps m' f := by
  obtain ⟨free, hs⟩ := hI
  obtain ⟨sp, hi, hr⟩ := bind_inv hr
  obtain ⟨⟨root, c₁⟩, hc, hr⟩ := bind_inv hr
  obtain ⟨⟨v, c₂⟩, hfork, hr⟩ := bind_inv hr
  cases hr
  obtain ⟨c₀, ha, rfl⟩ := cloneKernelHalf_inv hc
  obtain ⟨rest, fa, hfree, rfl, _⟩ := hs.allocate_some ha
  refine h.keeps (fun r hmem => ?_) (fun r hmem p e hl => forkCow_keeps hfork ?_)
  · rw [map_append]
    exact mem_append_left _ hmem
  · have hne : r ≠ root := by
      rintro rfl
      exact hs.heldFree hmem (hfree ▸ mem_cons_self)
    exact (T.leaf_cloneKernel ..).trans ((if_neg fun h => hne h.1).trans hl)

/-- What a handled fault leaves: the page has a frame from the free list, all other entries are
as they were, and no frame has come to the free list. -/
theorem pageFault_handled {free : List Nat}
    (hs : Sound anyPolicy m.shared free (m.spaces.map root))
    (hr : pageFault m i addr isWrite = some (true, m')) :
    ∃ sp f flags free', m.spaces[i]? = some sp ∧ f ∈ free ∧
      takenFrame m (.fault i addr isWrite) = [f] ∧
      m'.spaces.map root = m.spaces.map root ∧
      (∀ r p, m'.shared.leaf r p
        = if T.SameLeaf sp.root (addr / 4096) r p then some ⟨f, flags⟩ else m.shared.leaf r p) ∧
      free' ⊆ free ∧ FreeFrames m'.shared.mem m'.shared.frameAllocator free' := by
  obtain ⟨sp, v, c, hi, hf, rfl⟩ := pageFault_inv hr
  obtain ⟨f, c₁, flags, ha, hleaf⟩ := handleFault_entry hf
  obtain ⟨free', hsub, hs'⟩ := handleFault_sound hs (fun _ => trivial) hf
  obtain ⟨rest, _, hfree, _, _⟩ := hs.allocate_some ha
  refine ⟨sp, f, flags, free', hi, hfree ▸ mem_cons_self, ?_, put_roots hi rfl, hleaf, hsub,
    hs'.frames⟩
  unfold takenFrame
  dsimp only
  rw [hr, ha]

theorem pageFault_copies {sp : Space} {e : Entry} (hi : m.spaces[i]? = some sp)
    (he : m.shared.leaf sp.root (addr / 4096) = some e)
    (hr : pageFault m i addr isWrite = some (ok, m')) :
    ok = true ↔ sp.vmm.Copies m.shared addr isWrite := by
  obtain ⟨sp', _, _, hi', hf, _⟩ := pageFault_inv hr
  cases hi.symm.trans hi'
  exact handleFault_resident he hf

/-- A fault that fails takes no frame and changes no entry. -/
theorem pageFault_failed (hr : pageFault m i addr isWrite = some (false, m')) :
    takenFrame m (.fault i addr isWrite) = [] ∧
      m'.spaces.map root = m.spaces.map root ∧ m'.shared = m.shared := by
  obtain ⟨sp, v, c, hi, hf, rfl⟩ := pageFault_inv hr
  refine ⟨?_, put_roots hi rfl, handleFault_failed hf⟩
  unfold takenFrame
  dsimp only
  rw [hr]

/-- A fault that orphans no frame keeps the user frames mapped, and maps the one it takes. -/
theorem pageFault_maps (h : FamilyInv s) (ho : ¬ Orphans s (.fault i addr isWrite))
    (hr : pageFault s.machine i addr isWrite = some (ok, m')) :
    ∀ g ∈ takenFrame s.machine (.fault i addr isWrite) ++ s.user, Maps m' g := by
  cases ok with
  | false =>
    obtain ⟨htaken, hroots, hshared⟩ := pageFault_failed hr
    rw [htaken, nil_append]
    refine fun g hg => (h.mapped g hg).keeps (fun r hmem => hroots ▸ hmem) fun r _ p e hl => ?_
    exact ⟨e, hshared ▸ hl, rfl⟩
  | true =>
    obtain ⟨free, hs⟩ := h.frames
    obtain ⟨sp, f, flags, _, hi, _, htaken, hroots, hleaf, _⟩ := pageFault_handled hs hr
    rw [htaken, singleton_append]
    intro g hg
    rcases mem_cons.mp hg with rfl | hg
    · refine ⟨sp.root, ?_, addr / 4096, _, (hleaf _ _).trans (if_pos ⟨rfl, .inl rfl⟩), rfl⟩
      rw [hroots]
      exact mem_map_of_mem (mem_of_getElem? hi)
    -- an entry apart from the page's keeps the frame mapped; without one the fault orphans it
    · have hother : ∀ r ∈ s.machine.spaces.map Space.root, ∀ p e,
          s.machine.shared.leaf r p = some e → e.frame = g →
          ¬ T.SameLeaf sp.root (addr / 4096) r p → Maps m' g :=
        fun r hmem p e hl hf hs =>
          ⟨r, hroots ▸ hmem, p, e, (hleaf r p).trans ((if_neg hs).trans hl), hf⟩
      obtain ⟨r, hmem, p, e, hl, rfl⟩ := h.mapped g hg
      by_contra hno
      have hsame : T.SameLeaf sp.root (addr / 4096) r p :=
        Decidable.byContradiction fun hs => hno (hother r hmem p e hl rfl hs)
      have he : s.machine.shared.leaf sp.root (addr / 4096) = some e :=
        (leaf_sameLeaf hsame).symm.trans hl
      refine ho ⟨sp, e, hi, (pageFault_copies hi he hr).mp rfl, he, hg,
        fun r' hmem' p' e' hl' hf' => ?_⟩
      exact Decidable.byContradiction fun hs => hno (hother r' hmem' p' e' hl' hf' hs)

theorem familyStep_memStep (hstep : familyStep s op = some t) :
    op.inFamily = true ∧ memStep s.machine op = some t.machine ∧
      t.user = takenFrame s.machine op ++ s.user := by
  unfold familyStep at hstep
  split at hstep
  next hop =>
    obtain ⟨m', hm', rfl⟩ := map_inv hstep
    exact ⟨hop, hm', rfl⟩
  · cases hstep

theorem familyStep_frameInv (h : FrameInv anyPolicy s.machine) (hstep : familyStep s op = some t) :
    FrameInv anyPolicy t.machine := by
  obtain ⟨hop, hm, _⟩ := familyStep_memStep hstep
  have hexclusive : UnmapsExclusive s.machine op := by
    cases op <;> trivial
  exact memStep_frameInv anyPolicy_forks h hexclusive (admits_anyPolicy _ _) hm

/-- Every operation but an orphaning fault keeps the user frames mapped. -/
theorem familyStep_inv (h : FamilyInv s) (ho : ¬ Orphans s op)
    (hstep : familyStep s op = some t) : FamilyInv t := by
  refine ⟨familyStep_frameInv h.frames hstep, ?_⟩
  obtain ⟨hop, hm, huser⟩ := familyStep_memStep hstep
  rw [huser]
  cases op with
  | fork i => exact fun f hf => sysFork_maps h.frames hm (h.mapped f hf)
  | fault i addr isWrite =>
    obtain ⟨⟨ok, m'⟩, hr, hm'⟩ := map_inv hm
    rw [← hm']
    exact pageFault_maps h ho hr
  | store i addr byte =>
    obtain ⟨_, _, _, hspaces, hshared⟩ := userStore_inv hm
    refine fun f hf => (h.mapped f hf).keeps (fun r hr => ?_) fun r _ p e hl => ⟨e, ?_, rfl⟩
    · rwa [hspaces]
    · rw [hshared]
      exact hl
  | touch i page dirty =>
    obtain ⟨sp, e, c, _, _, hremap, hm'⟩ := touch_inv hm
    rw [hm']
    exact fun f hf => (h.mapped f hf).keeps (fun r hr => hr) fun r _ p e hl =>
      remapFlags_keeps hremap hl
  | load | evict | brk | mprotect => cases hop

/-- After an orphaning fault the frame of the page is nowhere. -/
theorem orphans_loses (h : FamilyInv s) (ho : Orphans s op) (hstep : familyStep s op = some t) :
    ¬ Accounted t := by
  cases op with
  | fault i addr isWrite =>
    obtain ⟨sp, e, hi, hcopies, he, huser, honly⟩ := ho
    obtain ⟨_, hm, htuser⟩ := familyStep_memStep hstep
    obtain ⟨⟨ok, m'⟩, hr, rfl⟩ := map_inv hm
    obtain rfl := (pageFault_copies hi he hr).mpr hcopies
    obtain ⟨free, hs⟩ := h.frames
    obtain ⟨sp', f, flags, free', hi', hf, htaken, hroots, hleaf, hsub, hfree'⟩ :=
      pageFault_handled hs hr
    cases hi.symm.trans hi'
    have hnot : e.frame ∉ free := hs.leafFree he
    intro hacc
    rcases hacc e.frame (htuser ▸ mem_append_right _ huser) with
      ⟨r, hr', p, e', hl, hframe⟩ | ⟨free'', hchain, hmem⟩
    -- the entry of the page has the new frame, and nothing else had the old one
    · rw [hleaf] at hl
      split at hl
      · cases hl
        dsimp only at hframe
        exact hnot (hframe ▸ hf)
      next hsame => exact hsame (honly r (hroots ▸ hr') p e' hl hframe)
    · obtain rfl := hfree'.unique hchain
      exact hnot (hsub hmem)
  | _ => exact ho.elim

end Steps

/-- **Frames of copy-on-write pages.** Let no free frame be mapped, and let the frames taken so
far be mapped. Along every run of forks, faults and accesses of user programs: each frame taken
for a user page stays mapped in one of the address spaces or is on the free list, if and only if
no fault that returns copies a page whose frame no other entry has. -/
theorem cow_frames_accounted {s : FamilyRun T} (hframes : FrameInv anyPolicy s.machine)
    (huser : ∀ f ∈ s.user, Maps s.machine f) (ops : List MemOp) :
    Accounted s ∧
    (Along familyStep (fun s op => ∀ t, familyStep s op = some t → Accounted t) s ops
      ↔ Along familyStep (fun s op => (familyStep s op).isSome → ¬ Orphans s op) s ops) := by
  have h₀ : FamilyInv s := ⟨hframes, huser⟩
  refine ⟨h₀.accounted, along_congr (I := FamilyInv) (fun s op h => ?_)
    (fun s op t h ho hstep => familyStep_inv h (ho (Option.isSome_of_eq_some hstep)) hstep) h₀⟩
  constructor
  · intro hall hsome ho
    obtain ⟨t, hstep⟩ := isSome_iff_exists.mp hsome
    exact orphans_loses h ho hstep (hall t hstep)
  · intro ho t hstep
    exact (familyStep_inv h (ho (Option.isSome_of_eq_some hstep)) hstep).accounted

/-- A program that forks after it has written to its stack; then the child writes. -/
theorem cow_frames_accounted_child : ∃ m, loadFlat smallMachine [] = some m ∧
    Accounted ⟨m, []⟩ ∧
    (Along familyStep (fun s op => ∀ t, familyStep s op = some t → Accounted t) ⟨m, []⟩
        [.fault 0 0x7FFFFFFFE000 true, .fork 0, .fault 1 0x7FFFFFFFE000 true]
      ↔ Along familyStep (fun s op => (familyStep s op).isSome → ¬ Orphans s op) ⟨m, []⟩
        [.fault 0 0x7FFFFFFFE000 true, .fork 0, .fault 1 0x7FFFFFFFE000 true]) := by
  obtain ⟨m, hm⟩ := isSome_iff_exists.mp
    (show (loadFlat smallMachine []).isSome by decide +kernel)
  have hframes : FrameInv anyPolicy m := loadFlat_frameInv (fun _ => trivial) smallMachine_frameInv hm
  exact ⟨m, hm, cow_frames_accounted hframes (fun f hf => absurd hf not_mem_nil) _⟩

/-! ## Both sharers write -/

section Pages

variable {S : List Nat} {c c' : Shared T} {root page addr : Nat} {flags : PageTableFlags} {e : Entry}

/-- Only pages of the list are in use, in any address space. -/
def PagesIn (S : List Nat) (c : Shared T) : Prop := ∀ ⦃r p e⦄, c.leaf r p = some e → p ∈ S

theorem mapPage_pagesIn (h : PagesIn S c) (hpage : page ∈ S)
    (hr : mapPage c root page e = some c') : PagesIn S c' := by
  obtain ⟨_, fa, rfl⟩ := mapPage_eq hr
  intro r p e' hl
  rcases leaf_of_mapTo hl with ⟨hs, _⟩ | hl
  · exact hs.1 ▸ hpage
  · exact h hl

theorem remapFlags_pagesIn (h : PagesIn S c) (hr : remapFlags c root page flags = some c') :
    PagesIn S c' := by
  obtain ⟨_, rfl⟩ := remapFlags_inv hr
  intro r p e' hl
  rcases leaf_of_updateFlags hl with ⟨_, e, _, hl, _⟩ | ⟨_, hl⟩
  · exact h hl
  · exact h hl

/-- Only a fault adds a page to those in use: the child of a fork has pages of its parent. -/
theorem forkCow_pagesIn {v v' : Vmm} {child : Nat} (h : PagesIn S c)
    (hr : forkCow v c root child = some (v', c')) : PagesIn S c' := by
  obtain ⟨c₁, hrun, hr⟩ := bind_inv hr
  cases hr
  refine foldlM_rule (I := PagesIn S) (fun c₁ area c₂ _ hI hr => ?_) h hrun
  obtain ⟨_, _, hI'⟩ := forPages_rule (I := fun _ => PagesIn S) (fun addr c₁ c₂ _ hI hr => by
    unfold sharePage at hr
    split at hr
    next phys hphys =>
      obtain ⟨e, he, _⟩ := translateAddr_inv hphys
      obtain ⟨c₃, hremap, hm⟩ := bind_inv hr
      exact mapPage_pagesIn (remapFlags_pagesIn hI hremap) (hI he) hm
    · cases hr
      exact hI) hI hr
  exact hI'

theorem cloneKernelHalf_pagesIn (h : PagesIn S c) (hr : cloneKernelHalf c = some (root, c')) :
    PagesIn S c' := by
  obtain ⟨c₁, ha, rfl⟩ := cloneKernelHalf_inv hr
  intro r p e hl
  have hold : c₁.leaf r p = some e := (leaf_of_cloneKernel hl).1
  rw [allocate_leaf ha] at hold
  exact h hold

variable {m m' : Machine T} {i : Nat}

theorem sysFork_pagesIn (h : PagesIn S m.shared)
    (hr : sysFork m i = some m') : PagesIn S m'.shared := by
  obtain ⟨sp, hi, hr⟩ := bind_inv hr
  obtain ⟨⟨root, c₁⟩, hc, hr⟩ := bind_inv hr
  obtain ⟨⟨v, c₂⟩, hfork, hr⟩ := bind_inv hr
  cases hr
  exact forkCow_pagesIn (cloneKernelHalf_pagesIn h hc) hfork

theorem pageFault_pagesIn {isWrite ok : Bool} (h : PagesIn S m.shared) (haddr : addr / 4096 ∈ S)
    (hr : pageFault m i addr isWrite = some (ok, m')) : PagesIn S m'.shared := by
  obtain ⟨sp, v, c, hi, hf, rfl⟩ := pageFault_inv hr
  cases ok with
  | false =>
    obtain rfl := handleFault_failed hf
    exact h
  | true =>
    obtain ⟨f, c₁, flags, _, hleaf⟩ := handleFault_entry hf
    intro r p e hl
    have hl : c.leaf r p = some e := hl
    rw [hleaf] at hl
    split at hl
    next hs => exact hs.1 ▸ haddr
    · exact h hl

/-- Loading a program without code takes no page into use. -/
theorem loadFlat_nil_pagesIn (h : PagesIn S m.shared)
    (hr : loadFlat m [] = some m') : PagesIn S m'.shared := by
  obtain ⟨⟨root, c⟩, hc, hr⟩ := bind_inv hr
  obtain ⟨c', hpages, hr⟩ := bind_inv hr
  cases hr
  cases hpages
  exact cloneKernelHalf_pagesIn h hc

/-- The page of a fault is on the list. -/
def MemOp.faultIn (S : List Nat) : MemOp → Prop
  | .fault _ addr _ => addr / 4096 ∈ S
  | _ => True

theorem familyStep_pagesIn {s t : FamilyRun T} {op : MemOp} (h : PagesIn S s.machine.shared)
    (hop : op.faultIn S) (hstep : familyStep s op = some t) : PagesIn S t.machine.shared := by
  obtain ⟨hin, hm, _⟩ := familyStep_memStep hstep
  cases op with
  | fork i => exact sysFork_pagesIn h hm
  | fault i addr isWrite =>
    obtain ⟨⟨ok, m'⟩, hr, hm'⟩ := map_inv hm
    rw [← hm']
    exact pageFault_pagesIn h hop hr
  | store i addr byte =>
    obtain ⟨_, _, _, _, hshared⟩ := userStore_inv hm
    rw [hshared]
    exact h
  | touch i page dirty =>
    obtain ⟨sp, e, c, _, _, hremap, hm'⟩ := touch_inv hm
    rw [hm']
    exact remapFlags_pagesIn h hremap
  | load | evict | brk | mprotect => cases hin

/-- The frames and pages of a program without code, after any run. -/
theorem exec_pagesIn {m : Machine smallTables} {s : FamilyRun smallTables} {ops : List MemOp}
    (hload : loadFlat smallMachine [] = some m)
    (hops : Along familyStep (fun _ op => op.faultIn S) ⟨m, []⟩ ops)
    (h : exec familyStep ⟨m, []⟩ ops = some s) :
    FrameInv anyPolicy s.machine ∧ PagesIn S s.machine.shared := by
  have hframes := loadFlat_frameInv (P := anyPolicy) (fun _ => trivial) smallMachine_frameInv hload
  have hpages := loadFlat_nil_pagesIn (S := S) (fun _ _ _ hl => by cases hl) hload
  exact exec_induction
    (I := fun s : FamilyRun smallTables =>
      FrameInv anyPolicy s.machine ∧ PagesIn S s.machine.shared)
    (fun _ _ _ h hop hstep => ⟨familyStep_frameInv h.1 hstep, familyStep_pagesIn h.2 hop hstep⟩)
    ⟨hframes, hpages⟩ hops h

end Pages

/-- A program has written to its stack and has forked; first the parent writes again, then the
child. Both have their own copy now, and the frame they shared is mapped nowhere and not free. -/
theorem last_sharer_leaks : ∃ m s t, loadFlat smallMachine [] = some m ∧
    exec familyStep ⟨m, []⟩ [.fault 0 0x7FFFFFFFE000 true, .fork 0, .fault 0 0x7FFFFFFFE000 true]
      = some s ∧
    familyStep s (.fault 1 0x7FFFFFFFE000 true) = some t ∧ ¬ Accounted t := by
  have hfacts : ∃ m ∈ loadFlat smallMachine [],
      ∃ s ∈ exec familyStep ⟨m, []⟩ [.fault 0 0x7FFFFFFFE000 true, .fork 0,
        .fault 0 0x7FFFFFFFE000 true],
        s.user = [31, 39] ∧ s.machine.spaces.map Space.root = [40, 35] ∧
        s.machine.spaces[1]?.map Space.root = some 35 ∧
        s.machine.shared.leaf 40 0x7FFFFFFFE = some ⟨31, userFlags true⟩ ∧
        s.machine.shared.leaf 35 0x7FFFFFFFE = some ⟨39, userFlags false⟩ ∧
        (pageFault s.machine 1 0x7FFFFFFFE000 true).map Prod.fst = some true := by
    decide +kernel
  obtain ⟨m, hm, s, hs, huser, hroots, hspace, hparent, hchild, hfault⟩ := hfacts
  -- nothing but this page of the stack is in use
  obtain ⟨hframes, hpages⟩ : FrameInv anyPolicy s.machine ∧ PagesIn [0x7FFFFFFFE] s.machine.shared :=
    exec_pagesIn hm (by simp [Along, MemOp.faultIn]) hs
  have hinv : FamilyInv s := by
    refine ⟨hframes, fun f hf => ?_⟩
    rw [huser] at hf
    rcases mem_pair.mp hf with rfl | rfl
    · exact ⟨40, by simp [hroots], _, _, hparent, rfl⟩
    · exact ⟨35, by simp [hroots], _, _, hchild, rfl⟩
  obtain ⟨⟨_, m'⟩, hr, rfl⟩ := map_inv hfault
  obtain ⟨sp, hsp, hroot⟩ := map_inv hspace
  have hleaf : s.machine.shared.leaf sp.root (0x7FFFFFFFE000 / 4096) = some ⟨39, userFlags false⟩ :=
    hroot ▸ hchild
  have horphans : Orphans s (.fault 1 0x7FFFFFFFE000 true) := by
    refine ⟨sp, _, hsp, (pageFault_copies hsp hleaf hr).mp rfl, hleaf, by simp [huser],
      fun root hmem page e hl hf => ?_⟩
    obtain rfl : page = 0x7FFFFFFFE := mem_singleton.mp (hpages hl)
    rw [hroots] at hmem
    -- the parent's entry has the frame of its copy
    rcases mem_pair.mp hmem with rfl | rfl
    · rw [hparent] at hl
      cases hl
      cases hf
    · exact ⟨rfl, .inl hroot.symm⟩
  have ht : familyStep s (.fault 1 0x7FFFFFFFE000 true)
      = some ⟨m', takenFrame s.machine (.fault 1 0x7FFFFFFFE000 true) ++ s.user⟩ := by
    show ((pageFault s.machine 1 0x7FFFFFFFE000 true).map Prod.snd).map _ = _
    rw [hr]
    rfl
  exact ⟨m, s, _, hm, hs, ht, orphans_loses hinv horphans ht⟩

end AlaphiOS.Memory
