import AlaphiOS.Memory.CowIsolation

/-!
# Paging to swap preserves memory

Tasks that share no frame, whose programs store bytes while the reaper evicts
pages and faults bring them back. What a program is entitled to is the abstract
memory `View`: one byte for every task, page and offset, changed by stores and
by nothing else. `Paged s pages view` says that the machine holds this memory:
each page in its frame when it is resident, in its recorded slot when it is
swapped, and as zeros when it is neither. It also carries what makes this
possible, that frames and slots each belong to one page.

Evictions and faults keep `Paged` at the same view, stores at the view with the
byte stored. The two transfers are where the work is: an eviction copies the
frame out *before* `deallocate` overwrites its first word, and takes a slot that
no other page has because the recorded slots are marked in use.
-/

namespace AlaphiOS.Memory

open Lib Function List Option SwapPartition

/-- No frame is shared. -/
def noSharing : Policy := ⟨fun _ _ => False, fun _ _ => True⟩

/-- A byte for every task, page and offset. -/
abbrev View := Nat → Nat → Nat → UInt8

/-- The abstract memory after an operation: only stores change it. -/
def View.step (view : View) : MemOp → View
  | .store i addr b => fun j page off =>
      if j = i ∧ page = addr / 4096 ∧ off = addr % 4096 then b else view j page off
  | _ => view

/-- The bytes last stored, over the bytes there were at first. -/
def View.run (view : View) (ops : List MemOp) : View := ops.foldl View.step view

variable {T : PageTables}

/-- A byte of a page of a task: through the frame, through the slot, or zero. -/
def pageByte (c : Shared T) (sp : Space) (page off : Nat) : UInt8 :=
  match c.leaf sp.root page with
  | some e => c.mem (frameAddr e.frame + off)
  | none =>
    match sp.vmm.swapped (frameAddr page) with
    | some (slot, _) => c.swap.slotByte slot off
    | none => 0

/-- The memory a machine holds. -/
def memoryOf (s : Machine T) : View := fun i page off =>
  match s.spaces[i]? with
  | some sp => pageByte s.shared sp page off
  | none => 0

/-- Tasks with separate address spaces: no frame is shared, and no slot either. -/
structure Separate (s : Machine T) (pages : Nat) : Prop where
  frames : FrameInv noSharing s
  swap : s.shared.swap.Ok pages
  /-- A recorded slot is marked in use. -/
  inUse : ∀ {i : Nat} {sp : Space} {a slot fl}, s.spaces[i]? = some sp →
    sp.vmm.swapped a = some (slot, fl) →
    slot < pages ∧ s.shared.swap.free.getD slot true = false
  /-- A slot is recorded once. -/
  slots : ∀ {i j : Nat} {sp sp' : Space} {a a' slot fl fl'}, s.spaces[i]? = some sp →
    s.spaces[j]? = some sp' → sp.vmm.swapped a = some (slot, fl) →
    sp'.vmm.swapped a' = some (slot, fl') → i = j ∧ a = a'
  /-- A swapped page is not resident. -/
  absent : ∀ {i : Nat} {sp : Space} {page x}, s.spaces[i]? = some sp →
    sp.vmm.swapped (frameAddr page) = some x → s.shared.leaf sp.root page = none

/-- The machine holds the memory `view`, apart from pages that are not a
task's own. -/
structure Paged (s : Machine T) (pages : Nat) (view : View) : Prop extends Separate s pages where
  bytes : ∀ {i : Nat} {sp : Space} {page off}, s.spaces[i]? = some sp → ¬ T.KernelPage page →
    off < 4096 → pageByte s.shared sp page off = view i page off

/-- The steps: accesses and stores of user programs, evictions of resident pages,
and faults on absent pages while the frame allocator has a frame; stores,
evictions and faults on pages of the task's own part of the address space. -/
def SwapStep (s : Machine T) : MemOp → Prop
  | .store _ addr _ => ¬ T.KernelPage (addr / 4096)
  | .evict _ vaddr => ¬ T.KernelPage (vaddr / 4096)
  | .fault i addr _ => ¬ T.KernelPage (addr / 4096) ∧ s.shared.frameAllocator.head.isSome ∧
      ∀ sp, s.spaces[i]? = some sp → s.shared.leaf sp.root (addr / 4096) = none
  | .touch .. => True
  | _ => False

instance (s : Machine T) : (op : MemOp) → Decidable (SwapStep s op)
  | .store .. | .evict .. => inferInstanceAs (Decidable (¬ _))
  | .fault .. => inferInstanceAs (Decidable (_ ∧ _ ∧ _))
  | .touch .. => isTrue trivial
  | .load .. | .fork .. | .brk .. | .mprotect .. => isFalse id

/-! ## Reading pages -/

theorem pageByte_resident {c : Shared T} {sp : Space} {page off : Nat} {e : Entry}
    (h : c.leaf sp.root page = some e) : pageByte c sp page off = c.mem (frameAddr e.frame + off) := by
  rw [pageByte, h]

theorem pageByte_swapped {c : Shared T} {sp : Space} {page off slot : Nat} {fl : PageTableFlags}
    (h : c.leaf sp.root page = none) (hs : sp.vmm.swapped (frameAddr page) = some (slot, fl)) :
    pageByte c sp page off = c.swap.slotByte slot off := by
  rw [pageByte, h]
  dsimp only
  rw [hs]

theorem pageByte_untouched {c : Shared T} {sp : Space} {page off : Nat}
    (h : c.leaf sp.root page = none) (hs : sp.vmm.swapped (frameAddr page) = none) :
    pageByte c sp page off = 0 := by
  rw [pageByte, h]
  dsimp only
  rw [hs]

/-- A page keeps its bytes when its entry, its frame, its slot record and its
slot are left alone. -/
theorem pageByte_congr {c c' : Shared T} {sp sp' : Space} {page off : Nat}
    (hleaf : c'.leaf sp'.root page = c.leaf sp.root page)
    (hswapped : sp'.vmm.swapped (frameAddr page) = sp.vmm.swapped (frameAddr page))
    (hmem : ∀ e, c.leaf sp.root page = some e →
      c'.mem (frameAddr e.frame + off) = c.mem (frameAddr e.frame + off))
    (hslot : ∀ slot fl, sp.vmm.swapped (frameAddr page) = some (slot, fl) →
      c'.swap.slotByte slot off = c.swap.slotByte slot off) :
    pageByte c' sp' page off = pageByte c sp page off := by
  cases hl : c.leaf sp.root page with
  | some e => rw [pageByte_resident hl, pageByte_resident (hleaf.trans hl), hmem e hl]
  | none =>
    cases hs : sp.vmm.swapped (frameAddr page) with
    | some x =>
      obtain ⟨slot, fl⟩ := x
      rw [pageByte_swapped hl hs, pageByte_swapped (hleaf.trans hl) (hswapped.trans hs),
        hslot slot fl hs]
    | none => rw [pageByte_untouched hl hs, pageByte_untouched (hleaf.trans hl) (hswapped.trans hs)]

theorem getD_set_ne {α : Type} {l : List α} {i j : Nat} {x d : α} (h : j ≠ i) :
    (l.set i x).getD j d = l.getD j d := by
  rw [getD_eq_getElem?_getD, getD_eq_getElem?_getD, getElem?_set_ne h.symm]

/-! ## Moving one page -/

theorem put_get {s : Machine T} {i j : Nat} {sp sp' : Space} {c : Shared T}
    (h : (s.put i sp c).spaces[j]? = some sp') :
    (j = i ∧ sp' = sp) ∨ (j ≠ i ∧ s.spaces[j]? = some sp') := by
  unfold Machine.put at h
  rw [getElem?_set] at h
  split at h
  next hij =>
    split at h
    · exact .inl ⟨hij.symm, (some.inj h).symm⟩
    · cases h
  next hij => exact .inr ⟨fun hji => hij hji.symm, h⟩

section Move

variable {s : Machine T} {pages i : Nat} {view : View} {sp : Space} {c' : Shared T} {v' : Vmm}

/-- A record after the page was moved is the new one of the page, or an old one elsewhere. -/
theorem put_swapped {page j : Nat} {sp' : Space} {a slot : Nat} {fl : PageTableFlags}
    (hi : s.spaces[i]? = some sp)
    (hrec : ∀ {a}, a ≠ frameAddr page → v'.swapped a = sp.vmm.swapped a)
    (hj : (s.put i { sp with vmm := v' } c').spaces[j]? = some sp')
    (hs : sp'.vmm.swapped a = some (slot, fl)) :
    (j = i ∧ a = frameAddr page ∧ v'.swapped (frameAddr page) = some (slot, fl)) ∨
      (¬ (j = i ∧ a = frameAddr page) ∧ ∃ sp₀, s.spaces[j]? = some sp₀ ∧
        sp₀.root = sp'.root ∧ sp₀.vmm.swapped a = some (slot, fl)) := by
  rcases put_get hj with ⟨rfl, rfl⟩ | ⟨hne, hj⟩
  · by_cases ha : a = frameAddr page
    · exact .inl ⟨rfl, ha, ha ▸ hs⟩
    · exact .inr ⟨fun hc => ha hc.2, sp, hi, rfl, (hrec ha) ▸ hs⟩
  · exact .inr ⟨fun hc => hne hc.1, sp', hj, rfl, hs⟩

/-- Evictions and faults touch one page of one task. If they carry its bytes
over, record at most a slot that nobody has, and leave every other entry,
frame and slot alone, the machine holds the same memory. -/
theorem Paged.move (h : Paged s pages view) (page : Nat) (hi : s.spaces[i]? = some sp)
    (hF : FrameInv noSharing (s.put i { sp with vmm := v' } c')) (hOk : c'.swap.Ok pages)
    (hleaf : ∀ {r q}, ¬ (q = page ∧ r = sp.root) → c'.leaf r q = s.shared.leaf r q)
    (hrec : ∀ {a}, a ≠ frameAddr page → v'.swapped a = sp.vmm.swapped a)
    (hmem : ∀ {r q e off}, ¬ (q = page ∧ r = sp.root) → s.shared.leaf r q = some e →
      off < 4096 → c'.mem (frameAddr e.frame + off) = s.shared.mem (frameAddr e.frame + off))
    (hslot : ∀ {j : Nat} {sp' : Space} {a slot fl}, s.spaces[j]? = some sp' →
      sp'.vmm.swapped a = some (slot, fl) → ¬ (j = i ∧ a = frameAddr page) →
      c'.swap.free.getD slot true = false ∧
        ∀ off, off < 4096 → c'.swap.slotByte slot off = s.shared.swap.slotByte slot off)
    (hnew : ∀ {slot fl}, v'.swapped (frameAddr page) = some (slot, fl) →
      slot < pages ∧ c'.swap.free.getD slot true = false ∧ c'.leaf sp.root page = none ∧
        ∀ {j : Nat} {sp' : Space} {a fl'}, s.spaces[j]? = some sp' →
          sp'.vmm.swapped a ≠ some (slot, fl'))
    (hself : ∀ off, off < 4096 →
      pageByte c' { sp with vmm := v' } page off = pageByte s.shared sp page off) :
    Paged (s.put i { sp with vmm := v' } c') pages view := by
  obtain ⟨free, hsound⟩ := h.frames
  refine ⟨⟨hF, hOk, ?_, ?_, ?_⟩, ?_⟩
  -- Every record points to a slot in use.
  · intro j sp' a slot fl hj hs
    rcases put_swapped hi hrec hj hs with ⟨_, _, hs⟩ | ⟨hne, sp₀, hj₀, _, hs⟩
    · exact ⟨(hnew hs).1, (hnew hs).2.1⟩
    · exact ⟨(h.inUse hj₀ hs).1, (hslot hj₀ hs hne).1⟩
  -- No two records have the same slot.
  · intro j k sp₁ sp₂ a a' slot fl fl' hj hk hs hs'
    rcases put_swapped hi hrec hj hs with ⟨hji, ha, hv⟩ | ⟨_, sp₀, hj₀, _, hv⟩ <;>
      rcases put_swapped hi hrec hk hs' with ⟨hki, ha', hv'⟩ | ⟨_, sp₀', hk₀, _, hv'⟩
    · exact ⟨hji.trans hki.symm, ha.trans ha'.symm⟩
    · exact absurd hv' ((hnew hv).2.2.2 hk₀)
    · exact absurd hv ((hnew hv').2.2.2 hj₀)
    · exact h.slots hj₀ hk₀ hv hv'
  -- A page with a record is not resident.
  · intro j sp' q x hj hs
    obtain ⟨slot, fl⟩ := x
    rcases put_swapped hi hrec hj hs with ⟨rfl, hq, hs⟩ | ⟨hne, sp₀, hj₀, hroot, hs⟩
    · obtain rfl := frameAddr_inj hq
      rcases put_get hj with ⟨_, rfl⟩ | ⟨hne, _⟩
      · exact (hnew hs).2.2.1
      · exact absurd rfl hne
    · rw [← hroot]
      refine (hleaf ?_).trans (h.absent hj₀ hs)
      rintro ⟨rfl, hr⟩
      refine hne ⟨?_, rfl⟩
      by_contra hji
      exact roots_ne hsound hji hj₀ hi hr
  -- The bytes: of the page itself, of the other pages of its space, of other spaces.
  · intro j sp' q off hj hq hoff
    rcases put_get hj with ⟨rfl, rfl⟩ | ⟨hne, hj⟩
    · by_cases hqp : q = page
      · subst hqp
        rw [← h.bytes hi hq hoff]
        exact hself off hoff
      · rw [← h.bytes hi hq hoff]
        have hout : ¬ (q = page ∧ sp.root = sp.root) := fun hc => hqp hc.1
        have ha : frameAddr q ≠ frameAddr page := fun he => hqp (frameAddr_inj he)
        exact pageByte_congr (hleaf hout) (hrec ha) (fun e he => hmem hout he hoff)
          (fun slot fl hs => (hslot hi hs (fun hc => ha hc.2)).2 off hoff)
    · rw [← h.bytes hj hq hoff]
      have hout : ¬ (q = page ∧ sp'.root = sp.root) :=
        fun hc => roots_ne hsound hne hj hi hc.2
      exact pageByte_congr (hleaf hout) rfl (fun e he => hmem hout he hoff)
        (fun slot fl hs => (hslot hj hs (fun hc => hne hc.1)).2 off hoff)

end Move

/-! ## The steps -/

section Steps

variable {s s' : Machine T} {pages i : Nat} {view : View}

/-- Off the kernel's entries, pages share a leaf only with themselves. -/
theorem not_sameLeaf {root page r q : Nat} (hk : ¬ T.KernelPage page)
    (h : ¬ (q = page ∧ r = root)) : ¬ T.SameLeaf root page r q :=
  fun hs => h ⟨hs.1, hs.2.resolve_right hk⟩

/-- With a frame on the list, `allocate` gives one, and nobody maps it. -/
theorem allocate_fresh {c c₁ : Shared T} {free held : List Nat} {r : Option Nat}
    (h : Sound noSharing c free held) (hhead : c.frameAllocator.head.isSome)
    (ha : c.allocate = some (r, c₁)) :
    ∃ f fa, r = some f ∧ c₁ = { c with frameAllocator := fa } ∧
      ∀ {root page e}, c.leaf root page = some e → e.frame ≠ f := by
  rcases h.allocate_cases ha with ⟨rfl, _, _⟩ | ⟨f, rest, fa, rfl, rfl, rfl, h₁⟩
  · rw [h.frames.chain.of_nil] at hhead
    cases hhead
  · exact ⟨f, fa, rfl, rfl, fun hl => h₁.heldLeaf mem_cons_self hl⟩

theorem swapIn_paged {addr slot : Nat} {w ok : Bool} {sp : Space} {fl : PageTableFlags}
    {c' : Shared T} (h : Paged s pages view) (hstep : SwapStep s (.fault i addr w))
    (hi : s.spaces[i]? = some sp)
    (hs : sp.vmm.swapped (frameAddr (addr / 4096)) = some (slot, fl))
    (hr : swapInPage s.shared sp.root (addr / 4096) slot fl = some (ok, c'))
    (hF : FrameInv noSharing (s.put i
      { sp with vmm := sp.vmm.removeSwapped (frameAddr (addr / 4096)) } c')) :
    Paged (s.put i { sp with vmm := sp.vmm.removeSwapped (frameAddr (addr / 4096)) } c')
      pages view := by
  obtain ⟨hk, hhead, habs⟩ := hstep
  have habs := habs sp hi
  obtain ⟨free, hsound⟩ := h.frames
  obtain ⟨hlt, _⟩ := h.inUse hi hs
  -- With a frame on the list the allocation succeeds.
  rcases swapInPage_inv hr with ⟨_, ha⟩ | ⟨_, f, c₁, mem, swap, ha, hin, hm⟩
  · obtain ⟨_, _, hr, _⟩ := allocate_fresh hsound hhead ha
    cases hr
  · obtain ⟨f', fa, hf, rfl, hfresh⟩ := allocate_fresh hsound hhead ha
    cases hf
    rw [swapIn_spec h.swap hlt] at hin
    cases hin
    obtain ⟨_, fa', rfl⟩ := mapPage_eq hm
    refine h.move (addr / 4096) hi hF (freeSlot_ok h.swap) ?_ ?_ ?_ ?_ ?_ ?_
    · intro r q hout
      exact (T.leaf_mapTo ..).trans (if_neg (not_sameLeaf hk hout))
    · intro a ha
      exact update_of_ne ha _ _
    -- The frame is fresh, so the bytes of no resident page are overwritten.
    · intro r q e off _ hl hoff
      exact blit_other_frame (fun he => hfresh hl he.symm) (Nat.le_refl _) (Nat.le_refl _)
        (Nat.le_add_right _ _) (by omega)
    -- Only the slot of this page is freed.
    · intro j sp' a slot' fl' hj hs' hne
      have hslot : slot' ≠ slot := by
        rintro rfl
        obtain ⟨hji, ha⟩ := h.slots hj hi hs' hs
        exact hne ⟨hji, ha⟩
      refine ⟨?_, fun off _ => rfl⟩
      rw [← (h.inUse hj hs').2]
      exact getD_set_ne hslot
    · intro slot' fl' hv
      exact absurd hv (by simp [Vmm.removeSwapped])
    -- The page reads from its frame what it read from its slot.
    · intro off hoff
      refine Eq.trans (pageByte_resident (e := ⟨f, fl⟩) ?_) ?_
      · exact (T.leaf_mapTo ..).trans (if_pos ⟨rfl, .inl rfl⟩)
      rw [pageByte_swapped habs hs]
      dsimp only
      rw [blit_at hoff]

theorem zeroFill_paged {addr : Nat} {w ok : Bool} {sp : Space} {fl : PageTableFlags}
    {c' : Shared T} (h : Paged s pages view) (hstep : SwapStep s (.fault i addr w))
    (hi : s.spaces[i]? = some sp) (hs : sp.vmm.swapped (frameAddr (addr / 4096)) = none)
    (hr : zeroFill s.shared sp.root (addr / 4096) fl = some (ok, c'))
    (hF : FrameInv noSharing (s.put i sp c')) : Paged (s.put i sp c') pages view := by
  obtain ⟨hk, hhead, habs⟩ := hstep
  have habs := habs sp hi
  obtain ⟨free, hsound⟩ := h.frames
  rcases zeroFill_inv hr with ⟨_, ha⟩ | ⟨_, f, c₁, ha, hm⟩
  · obtain ⟨_, _, hr, _⟩ := allocate_fresh hsound hhead ha
    cases hr
  · obtain ⟨f', fa, hf, rfl, hfresh⟩ := allocate_fresh hsound hhead ha
    cases hf
    obtain ⟨_, fa', rfl⟩ := mapPage_eq hm
    refine h.move (addr / 4096) hi hF h.swap ?_ (fun _ => rfl) ?_ ?_ ?_ ?_
    · intro r q hout
      exact (T.leaf_mapTo ..).trans (if_neg (not_sameLeaf hk hout))
    -- The frame is fresh, so the bytes of no resident page are overwritten.
    · intro r q e off _ hl hoff
      show blit s.shared.mem (frameAddr f) 4096 (fun _ => 0) _ = _
      exact blit_other_frame (fun he => hfresh hl he.symm) (Nat.le_refl _) (Nat.le_refl _)
        (Nat.le_add_right _ _) (by omega)
    · exact fun hj hs' _ => ⟨(h.inUse hj hs').2, fun _ _ => rfl⟩
    · intro slot fl' hv
      cases hs.symm.trans hv
    -- An untouched page reads as zero, before and after.
    · intro off hoff
      refine Eq.trans (pageByte_resident (e := ⟨f, fl⟩) ?_) ?_
      · exact (T.leaf_mapTo ..).trans (if_pos ⟨rfl, .inl rfl⟩)
      rw [pageByte_untouched habs hs]
      show blit s.shared.mem (frameAddr f) 4096 (fun _ => 0) (frameAddr f + off) = _
      exact blit_in (Nat.le_add_right _ _) (by omega)

theorem fault_paged {addr : Nat} {w ok : Bool} (h : Paged s pages view)
    (hstep : SwapStep s (.fault i addr w)) (hr : pageFault s i addr w = some (ok, s')) :
    Paged s' pages view := by
  have hF := pageFault_frameInv h.frames (fun _ => trivial) hr
  obtain ⟨sp, v, c, hi, hf, rfl⟩ := pageFault_inv hr
  rcases handleFault_inv hf with ⟨slot, fl, hs, rfl, hin⟩ | ⟨hs, rfl, hcase⟩
  · exact swapIn_paged h hstep hi hs hin hF
  · rcases hcase with ⟨_, rfl⟩ | ⟨_, phys, _, hp, _⟩ | ⟨area, _, _, hz⟩
    · rw [Machine.put_self hi]
      exact h
    · -- the page is absent, so this is not the copy-on-write branch
      obtain ⟨e, he, _⟩ := translateAddr_inv hp
      rw [hstep.2.2 sp hi] at he
      cases he
    · exact zeroFill_paged h hstep hi hs hz hF

/-- Without sharing, every page's frame is its own. -/
theorem exclusive_of_noSharing {c : Shared T} {free held : List Nat}
    (h : Sound noSharing c free held) (root page : Nat) : Exclusive c root page :=
  fun _ _ _ _ hl hl' hfr => (h.pairs hl hl' hfr.symm).resolve_right id

section

variable (h : Paged s pages view)

include h

/-- A free slot is not one of the recorded ones. -/
theorem Paged.slot_ne {j slot slot' a : Nat} {sp' : Space} {fl : PageTableFlags}
    (hfree : s.shared.swap.free.getD slot false = true)
    (hj : s.spaces[j]? = some sp') (hs : sp'.vmm.swapped a = some (slot', fl)) :
    slot' ≠ slot := by
  rintro rfl
  have hused := (h.inUse hj hs).2
  rw [getD_eq_getElem?_getD] at hused hfree
  cases hget : s.shared.swap.free[slot']? with
  | none => rw [hget] at hused; cases hused
  | some b =>
    rw [hget] at hused hfree
    cases hused.symm.trans hfree

theorem evict_paged {vaddr : Nat} {ok : Bool}
    (hk : SwapStep s (.evict i vaddr)) (hr : evict s i vaddr = some (ok, s')) :
    Paged s' pages view := by
  obtain ⟨free, hsound⟩ := h.frames
  have hF := evict_frameInv h.frames (fun _ _ => exclusive_of_noSharing hsound _ _) hr
  obtain ⟨sp, v, c, hi, he, rfl⟩ := evict_inv hr
  rcases evictAddr_inv he with ⟨_, rfl, rfl⟩ | ⟨e, hl, hcase⟩
  · rw [Machine.put_self hi]
    exact h
  · rcases swapOut_spec s.shared.mem e.frame h.swap with
      ⟨_, hfull⟩ | ⟨slot, swap, hout, hlt, hfree, hset, hOk, hdata⟩
    · -- no slot is free
      rcases hcase with ⟨swap, hout, _, rfl, rfl⟩ | ⟨slot, swap, hout, _⟩
      · cases hfull.symm.trans hout
        rw [Machine.put_self hi]
        exact h
      · cases hfull.symm.trans hout
    · rcases hcase with ⟨swap', hout', _⟩ | ⟨slot', swap', hout', _, rfl, rfl⟩
      · cases hout.symm.trans hout'
      · cases hout.symm.trans hout'
        refine h.move (vaddr / 4096) hi hF hOk ?_ ?_ ?_ ?_ ?_ ?_
        · intro r q hne
          exact (T.leaf_unmap ..).trans (if_neg (not_sameLeaf hk hne))
        · intro a ha
          exact update_of_ne ha _ _
        -- `deallocate` writes a link into the frame, which no other page has.
        · intro r q e' off hne hl' hoff
          have hfr : e.frame ≠ e'.frame := fun heq =>
            (not_sameLeaf hk hne) (exclusive_of_noSharing hsound _ _ hl hl' heq.symm)
          exact blit_other_frame hfr (Nat.le_refl _) (by omega) (Nat.le_add_right _ _) (by omega)
        -- The slot was free, so no record has it and no other slot is written.
        · intro j sp' a slot' fl hj hs _
          have hne := h.slot_ne hfree hj hs
          refine ⟨?_, fun off hoff => ?_⟩
          · rw [← (h.inUse hj hs).2]
            show swap.free.getD slot' true = _
            rw [hset]
            exact getD_set_ne hne
          · show swap.disk.data (slot' * 4096 + off) = _
            rw [hdata]
            exact blit_out (by omega)
        · intro slot' fl hv
          simp only [Vmm.recordSwapped, update_self] at hv
          injection some.inj hv with hslot' _
          subst hslot'
          refine ⟨hlt, ?_, ?_, fun hj hs => h.slot_ne hfree hj hs rfl⟩
          · show swap.free.getD slot true = false
            rw [hset, getD_eq_getElem?_getD, getElem?_set_self (by rw [h.swap.slots]; exact hlt)]
            rfl
          · exact (T.leaf_unmap ..).trans (if_pos ⟨rfl, .inl rfl⟩)
        -- The page reads from its slot what it read from its frame.
        · intro off hoff
          rw [pageByte_resident hl]
          refine (pageByte_swapped ?_ (update_self ..)).trans ?_
          · exact (T.leaf_unmap ..).trans (if_pos ⟨rfl, .inl rfl⟩)
          · show swap.disk.data (slot * 4096 + off) = _
            rw [hdata, blit_at hoff]

theorem store_paged {addr : Nat} {b : UInt8}
    (hk : SwapStep s (.store i addr b)) (hr : userStore s i addr b = some s') :
    Paged s' pages (view.step (.store i addr b)) := by
  have hF := userStore_frameInv h.frames hr
  obtain ⟨free, hsound⟩ := h.frames
  obtain ⟨e, he, _, hsp, hsh⟩ := userStore_inv hr
  obtain ⟨sp, hi, hl, _⟩ := userEntry_inv he
  refine ⟨⟨hF, ?_, ?_, ?_, ?_⟩, ?_⟩
  · rw [hsh]
    exact h.swap
  · rw [hsp, hsh]
    exact h.inUse
  · rw [hsp]
    exact h.slots
  · rw [hsp, hsh]
    exact h.absent
  · intro j sp' q off hj hq hoff
    rw [hsp] at hj
    rw [hsh]
    by_cases hself : j = i ∧ q = addr / 4096
    · -- the page that is stored to
      obtain ⟨rfl, rfl⟩ := hself
      cases hi.symm.trans hj
      refine Eq.trans (pageByte_resident (e := e) hl) ?_
      have hold := h.bytes hi hq hoff
      rw [pageByte_resident hl] at hold
      dsimp only [View.step]
      by_cases ho : off = addr % 4096
      · rw [if_pos ⟨rfl, rfl, ho⟩, ho]
        exact update_self ..
      · rw [if_neg (fun hc => ho hc.2.2), ← hold]
        exact update_of_ne (by omega) _ _
    · dsimp only [View.step]
      rw [if_neg (fun hc => hself ⟨hc.1, hc.2.1⟩), ← h.bytes hj hq hoff]
      refine pageByte_congr rfl rfl (fun e' hl' => update_of_ne ?_ _ _)
        (fun _ _ _ => rfl)
      -- another page has another frame
      intro haddr
      have hfr : e'.frame = e.frame := by
        unfold frameAddr at haddr
        omega
      obtain ⟨hq', hr⟩ := exclusive_of_noSharing hsound _ _ hl hl' hfr
      refine hself ⟨?_, hq'⟩
      by_contra hji
      exact roots_ne hsound hji hj hi (hr.resolve_right hk)

/-- An access sets bits of an entry, and the entry keeps its frame. -/
theorem touch_paged {page : Nat} {dirty : Bool}
    (hr : touch s i page dirty = some s') : Paged s' pages view := by
  have hF := touch_frameInv (fun _ _ _ => trivial) h.frames hr
  obtain ⟨sp₁, e₁, c, _, _, hremap, rfl⟩ := touch_inv hr
  obtain ⟨_, rfl⟩ := remapFlags_inv hremap
  refine ⟨⟨hF, h.swap, h.inUse, h.slots, fun hj hs => ?_⟩, fun {j sp q off} hj hq hoff => ?_⟩
  · refine eq_none_iff_forall_ne_some.mpr fun e' hl => ?_
    rcases leaf_of_updateFlags hl with ⟨_, e, _, hl, _⟩ | ⟨_, hl⟩
    all_goals cases (h.absent hj hs).symm.trans hl
  · rw [← h.bytes hj hq hoff]
    unfold pageByte Shared.leaf
    rw [T.leaf_updateFlags]
    by_cases hsame : T.SameLeaf sp₁.root page sp.root q
    · rw [if_pos hsame]
      cases T.leaf s.shared.tables sp.root q <;> rfl
    · rw [if_neg hsame]

/-- One step: the machine follows the abstract memory. -/
theorem memStep_paged {op : MemOp} (hstep : SwapStep s op)
    (hr : memStep s op = some s') : Paged s' pages (view.step op) := by
  cases op with
  | store i addr b => exact store_paged h hstep hr
  | evict i vaddr =>
    obtain ⟨⟨ok, s₁⟩, he, rfl⟩ := map_inv hr
    exact evict_paged h hstep he
  | fault i addr w =>
    obtain ⟨⟨ok, s₁⟩, hf, rfl⟩ := map_inv hr
    exact fault_paged h hstep hf
  | touch i page dirty => exact touch_paged h hr
  | load | fork | brk | mprotect => exact absurd hstep id

end

/-- Whole runs: induction over the operations, with the view moving along. -/
theorem exec_paged {ops : List MemOp} {s : Machine T} {view : View} (h : Paged s pages view)
    (halong : Along memStep SwapStep s ops) (hr : exec memStep s ops = some s') :
    Paged s' pages (view.run ops) := by
  induction ops generalizing s view with
  | nil =>
    cases hr
    exact h
  | cons op ops ih =>
    obtain ⟨t, ht, hr⟩ := exec_cons hr
    exact ih (memStep_paged h halong.1 ht) (halong.2 t ht) hr

end Steps

/-! ## Tasks start separate -/

/-- Nothing is shared and nothing has been swapped out yet. -/
structure Fresh (s : Machine T) (pages : Nat) : Prop where
  frames : FrameInv noSharing s
  swap : s.shared.swap.Ok pages
  unswapped : ∀ sp ∈ s.spaces, ∀ a, sp.vmm.swapped a = none

theorem Fresh.separate {s : Machine T} {pages : Nat} (h : Fresh s pages) : Separate s pages := by
  have hnone : ∀ {i : Nat} {sp : Space} {a x}, s.spaces[i]? = some sp →
      sp.vmm.swapped a ≠ some x := by
    intro i sp a x hi hs
    rw [h.unswapped sp (mem_of_getElem? hi)] at hs
    cases hs
  exact ⟨h.frames, h.swap, fun hi hs => absurd hs (hnone hi), fun hi _ hs => absurd hs (hnone hi),
    fun hi hs => absurd hs (hnone hi)⟩

theorem loadPage_swap {root k : Nat} {bytes : List UInt8} {c c' : Shared T}
    (hr : loadPage root bytes c k = some c') : c'.swap = c.swap := by
  obtain ⟨_, _, _, _, ha, hm⟩ := loadPage_inv hr
  obtain ⟨fa, rfl⟩ := allocate_eq ha
  obtain ⟨_, fa', rfl⟩ := mapPage_eq hm
  rfl

/-- `load_flat` adds a task with nothing on swap. -/
theorem loadFlat_inv {s s' : Machine T} {bytes : List UInt8} (hr : loadFlat s bytes = some s') :
    ∃ c sp, s' = ⟨c, s.spaces ++ [sp]⟩ ∧ c.swap = s.shared.swap ∧
      ∀ a, sp.vmm.swapped a = none := by
  obtain ⟨⟨root, c₁⟩, hc, hrun⟩ := bind_inv hr
  obtain ⟨c₂, hload, hput⟩ := bind_inv hrun
  obtain ⟨c₀, ha, rfl⟩ := cloneKernelHalf_inv hc
  obtain ⟨fa, rfl⟩ := allocate_eq ha
  refine ⟨c₂, _, (some.inj hput).symm, ?_, fun _ => rfl⟩
  exact foldlM_rule (I := fun c => c.swap = s.shared.swap)
    (fun _ _ _ _ hI hr => (loadPage_swap hr).trans hI) rfl hload

theorem loadFlat_fresh {s s' : Machine T} {pages : Nat} {bytes : List UInt8} (h : Fresh s pages)
    (hr : loadFlat s bytes = some s') : Fresh s' pages := by
  have hF := loadFlat_frameInv (fun _ => trivial) h.frames hr
  obtain ⟨c, sp, rfl, hswap, hnone⟩ := loadFlat_inv hr
  refine ⟨hF, ?_, fun sp' hsp a => ?_⟩
  · show c.swap.Ok pages
    rw [hswap]
    exact h.swap
  · rcases mem_append.mp hsp with hold | hnew
    · exact h.unswapped sp' hold a
    · rw [mem_singleton.mp hnew]
      exact hnone a

theorem smallMachine_fresh : Fresh smallMachine 4 :=
  ⟨smallMachine_frameInv, new_ok (by decide), fun sp hsp =>
    absurd hsp (by simp [smallMachine, bootMachine])⟩

/-! ## The partition in any run -/

section Partition

variable {c c' : Shared T} {root addr : Nat} {flags : PageTableFlags}

theorem handleFault_swap {v v' : Vmm} {isWrite ok : Bool} {pages : Nat} (h : c.swap.Ok pages)
    (hr : handleFault v c root addr isWrite = some (ok, v', c')) : c'.swap.Ok pages := by
  rcases handleFault_inv hr with ⟨slot, fl, _, _, hin⟩ | ⟨_, _, hcase⟩
  · rcases swapInPage_inv hin with ⟨_, ha⟩ | ⟨_, f, c₁, mem, swap, ha, hs, hm⟩
    · obtain ⟨_, rfl⟩ := allocate_eq ha
      exact h
    · obtain ⟨_, rfl⟩ := allocate_eq ha
      obtain ⟨_, _, rfl⟩ := mapPage_eq hm
      obtain ⟨_, _, hs⟩ := bind_inv hs
      cases hs
      exact freeSlot_ok h
  rcases hcase with ⟨_, rfl⟩ | ⟨_, _, _, _, _, _, hcow⟩ | ⟨_, _, _, hz⟩
  · exact h
  · rcases copyOnWrite_inv hcow with ⟨_, ha⟩ | ⟨_, _, _, _, _, ha, hu, hm⟩
    · obtain ⟨_, rfl⟩ := allocate_eq ha
      exact h
    · obtain ⟨_, rfl⟩ := allocate_eq ha
      obtain ⟨_, _, _, rfl⟩ := unmapPage_inv hu
      obtain ⟨_, _, rfl⟩ := mapPage_eq hm
      exact h
  · rcases zeroFill_inv hz with ⟨_, ha⟩ | ⟨_, _, _, ha, hm⟩
    · obtain ⟨_, rfl⟩ := allocate_eq ha
      exact h
    · obtain ⟨_, rfl⟩ := allocate_eq ha
      obtain ⟨_, _, rfl⟩ := mapPage_eq hm
      exact h

theorem evictAddr_swap {v v' : Vmm} {ok : Bool} {pages : Nat} (h : c.swap.Ok pages)
    (hr : evictAddr v c root addr = some (ok, v', c')) : c'.swap.Ok pages := by
  rcases evictAddr_inv hr with ⟨_, _, rfl⟩ | ⟨e, _, hcase⟩
  · exact h
  rcases swapOut_spec c.mem e.frame h with
    ⟨_, hfull⟩ | ⟨slot, swap, hout, _, _, _, hok, _⟩
  · rcases hcase with ⟨swap, hout, _, _, rfl⟩ | ⟨slot, swap, hout, _⟩
    · cases hfull.symm.trans hout
      exact h
    · cases hfull.symm.trans hout
  · rcases hcase with ⟨swap', hout', _⟩ | ⟨slot', swap', hout', _, _, rfl⟩
    · cases hout.symm.trans hout'
    · cases hout.symm.trans hout'
      exact hok

theorem releasePage_swap (h : releasePage root addr c = some c') : c'.swap = c.swap := by
  unfold releasePage at h
  split at h
  · obtain ⟨⟨f, c₁⟩, hu, rfl⟩ := map_inv h
    obtain ⟨_, _, _, rfl⟩ := unmapPage_inv hu
    rfl
  · cases h
    rfl

theorem protectPage_swap (h : protectPage root flags addr c = some c') : c'.swap = c.swap := by
  unfold protectPage at h
  split at h
  · obtain ⟨_, rfl⟩ := remapFlags_inv h
    rfl
  · cases h
    rfl

theorem sharePage_swap {child : Nat} (h : sharePage root child flags addr c = some c') :
    c'.swap = c.swap := by
  unfold sharePage at h
  split at h
  · obtain ⟨c₁, hremap, hm⟩ := bind_inv h
    obtain ⟨_, rfl⟩ := remapFlags_inv hremap
    obtain ⟨_, _, rfl⟩ := mapPage_eq hm
    rfl
  · cases h
    rfl

/-- A page loop whose rounds leave the partition leaves it. -/
theorem forPages_swap {body : Nat → Shared T → Option (Shared T)} {start end_ : Nat}
    (hbody : ∀ addr c c', body addr c = some c' → c'.swap = c.swap)
    (h : forPages body start end_ c = some c') : c'.swap = c.swap :=
  foldlM_rule (I := fun c₁ => c₁.swap = c.swap)
    (fun _ _ _ _ hI hr => (hbody _ _ _ hr).trans hI) rfl (forPages_foldlM h)

end Partition

/-- Whatever is done to the tasks, the checksums of the partition stay in step. -/
theorem memStep_swap {s s' : Machine T} {op : MemOp} {pages : Nat} (h : s.shared.swap.Ok pages)
    (hr : memStep s op = some s') : s'.shared.swap.Ok pages := by
  cases op with
  | load bytes =>
    obtain ⟨c, sp, rfl, hswap, _⟩ := loadFlat_inv hr
    exact hswap ▸ h
  | fork i =>
    obtain ⟨sp, _, hr⟩ := bind_inv hr
    obtain ⟨⟨root, c⟩, hc, hr⟩ := bind_inv hr
    obtain ⟨⟨vmm, c'⟩, hcow, hr⟩ := bind_inv hr
    cases hr
    obtain ⟨c₁, hrun, hcow⟩ := bind_inv hcow
    cases hcow
    obtain ⟨_, ha, rfl⟩ := cloneKernelHalf_inv hc
    obtain ⟨_, rfl⟩ := allocate_eq ha
    refine foldlM_rule (I := fun c : Shared T => c.swap.Ok pages) (fun c a c' _ hI hr => ?_) ?_ hrun
    · rw [forPages_swap (fun _ _ _ => sharePage_swap) hr]
      exact hI
    · exact h
  | fault i addr isWrite =>
    obtain ⟨⟨ok, s₁⟩, hfault, rfl⟩ := map_inv hr
    obtain ⟨_, _, _, _, hf, rfl⟩ := pageFault_inv hfault
    exact handleFault_swap h hf
  | evict i vaddr =>
    obtain ⟨⟨ok, s₁⟩, hevict, rfl⟩ := map_inv hr
    obtain ⟨_, _, _, _, he, rfl⟩ := evict_inv hevict
    exact evictAddr_swap h he
  | brk i newBrk =>
    obtain ⟨⟨ret, s₁⟩, hb, rfl⟩ := map_inv hr
    rcases sysBrk_inv hb with rfl | ⟨_, _, _, _, _, _, ⟨_, rfl⟩ | ⟨_, c, hloop, rfl⟩ | ⟨_, rfl⟩⟩
    · exact h
    · exact h
    · exact (forPages_swap (fun _ _ _ => releasePage_swap) hloop) ▸ h
    · exact h
  | mprotect i addr len prot =>
    obtain ⟨⟨ok, s₁⟩, hm, rfl⟩ := map_inv hr
    rcases sysMprotect_inv hm with
      ⟨_, rfl⟩ | ⟨_, _, _, _, _, c, _, _, _, _, _, _, _, _, _, hloop, rfl⟩
    · exact h
    · exact (forPages_swap (fun _ _ _ => protectPage_swap) hloop) ▸ h
  | store i addr byte =>
    obtain ⟨_, _, _, _, hsh⟩ := userStore_inv hr
    rw [hsh]
    exact h
  | touch i page dirty =>
    obtain ⟨_, _, _, _, _, hc, rfl⟩ := touch_inv hr
    obtain ⟨_, rfl⟩ := remapFlags_inv hc
    exact h

theorem exec_swap {s s' : Machine T} {ops : List MemOp} {pages : Nat} (h : s.shared.swap.Ok pages)
    (hr : exec memStep s ops = some s') : s'.shared.swap.Ok pages :=
  exec_induction (P := fun _ _ => True) (I := fun s : Machine T => s.shared.swap.Ok pages)
    (fun _ _ _ hI _ hr => memStep_swap hI hr) h along_true hr

/-- What a fault on a page depends on: the record, the areas and the entry of the page, the
tables that are missing on the way to it, and the frame that is allocated next. -/
structure PageState where
  record : Option (Nat × PageTableFlags)
  areas : List VmArea
  entry : Option Entry
  missing : Nat
  frame : Option (Option Nat)
  deriving DecidableEq

/-- What there is of a page. -/
def pageState (s : Machine T) (i page : Nat) : Option PageState :=
  s.spaces[i]?.map fun sp =>
    { record := sp.vmm.swapped (frameAddr page)
      areas := sp.vmm.areas
      entry := s.shared.leaf sp.root page
      missing := T.missing s.shared.tables sp.root page
      frame := s.shared.allocate.map Prod.fst }

/-- A fault on a page that is swapped out brings its bytes and its flags back, if there is a
frame for it. -/
theorem pageFault_swapped {s : Machine T} {i slot f pages : Nat} {areas : List VmArea}
    {flags : PageTableFlags} (hok : s.shared.swap.Ok pages) (addr : Nat) (isWrite : Bool)
    (hst : pageState s i (addr / 4096) = some ⟨some (slot, flags), areas, none, 0, some (some f)⟩)
    (hslot : slot < pages) :
    ∃ s' sp', pageFault s i addr isWrite = some (true, s') ∧ s'.spaces[i]? = some sp' ∧
      sp'.vmm.areas = areas ∧ s'.shared.leaf sp'.root (addr / 4096) = some ⟨f, flags⟩ ∧
      ∀ k, k < 4096 → s'.shared.mem (frameAddr f + k) = s.shared.swap.slotByte slot k := by
  obtain ⟨sp, hi, hst⟩ := map_inv hst
  injection hst with hs hareas hl hmissing halloc
  obtain ⟨⟨_, c₁⟩, ha, rfl⟩ := map_inv halloc
  obtain ⟨fa, rfl⟩ := allocate_eq ha
  have hin : s.shared.swap.swapIn s.shared.mem slot f
      = some (blit s.shared.mem (frameAddr f) 4096 (fun k => s.shared.swap.slotByte slot k),
        s.shared.swap.freeSlot slot) := swapIn_spec hok hslot
  have hmap : ∀ {mem fa swap}, mapPage (⟨mem, fa, swap, s.shared.tables⟩ : Shared T) sp.root
      (addr / 4096) ⟨f, flags⟩
      = some ⟨mem, fa, swap, T.mapTo s.shared.tables sp.root (addr / 4096) ⟨f, flags⟩⟩ := by
    intro mem fa swap
    unfold mapPage
    rw [hmissing]
    have hl : T.leaf s.shared.tables sp.root (addr / 4096) = none := hl
    simp only [takeTables, bind_eq_bind, bind_some, Shared.leaf, hl]
  have hfault : pageFault s i addr isWrite = some (true,
      s.put i { sp with vmm := sp.vmm.removeSwapped (frameAddr (addr / 4096)) }
        ⟨blit s.shared.mem (frameAddr f) 4096 (s.shared.swap.slotByte slot), fa,
          s.shared.swap.freeSlot slot, T.mapTo s.shared.tables sp.root (addr / 4096) ⟨f, flags⟩⟩) := by
    unfold pageFault handleFault swapInPage
    rw [hi]
    simp only [bind_eq_bind, bind_some, hs, ha, hin, hmap, map_some]
  refine ⟨_, _, hfault, Machine.put_getElem hi, hareas, leaf_mapTo_self .., fun k hk => ?_⟩
  refine (blit_in (by omega) (by omega)).trans ?_
  rw [Nat.add_sub_cancel_left]

/-! ## The statement -/

/-- The slots recorded in all tasks are distinct and marked in use. -/
def SlotsDistinct (s : Machine T) : Prop :=
  (∀ (i : Nat) (sp : Space) (a slot : Nat) (fl : PageTableFlags), s.spaces[i]? = some sp →
    sp.vmm.swapped a = some (slot, fl) → s.shared.swap.free[slot]? = some false) ∧
  ∀ (i j : Nat) (sp sp' : Space) (a a' slot : Nat) (fl fl' : PageTableFlags),
    s.spaces[i]? = some sp → s.spaces[j]? = some sp' → sp.vmm.swapped a = some (slot, fl) →
    sp'.vmm.swapped a' = some (slot, fl') → i = j ∧ a = a'

theorem Separate.slotsDistinct {s : Machine T} {pages : Nat} (h : Separate s pages) :
    SlotsDistinct s := by
  refine ⟨fun i sp a slot fl hi hs => ?_, fun i j sp sp' a a' slot fl fl' => h.slots⟩
  obtain ⟨hlt, hused⟩ := h.inUse hi hs
  rw [← h.swap.slots] at hlt
  rw [getD_eq_getElem?_getD, getElem?_eq_getElem hlt, getD_some] at hused
  rw [getElem?_eq_getElem hlt, hused]

/-- **Paging to swap preserves memory.** Over every run of user accesses,
evictions and faults on absent pages that get their frame: every page of every
task holds the bytes last stored in it, no page is both resident and swapped,
and the recorded slots are distinct and in use. -/
theorem swap_preserves_memory {s₀ s : Machine T} {pages : Nat} {ops : List MemOp}
    (h₀ : Separate s₀ pages) (halong : Along memStep SwapStep s₀ ops)
    (hr : exec memStep s₀ ops = some s) :
    (∀ (i : Nat) (sp : Space) (page off : Nat), s.spaces[i]? = some sp → ¬ T.KernelPage page →
      off < 4096 → pageByte s.shared sp page off = (memoryOf s₀).run ops i page off) ∧
    (∀ (i : Nat) (sp : Space) (page : Nat), s.spaces[i]? = some sp →
      ¬ ((s.shared.leaf sp.root page).isSome ∧
        (sp.vmm.swapped (frameAddr page)).isSome)) ∧
    SlotsDistinct s := by
  have hview : Paged s₀ pages (memoryOf s₀) :=
    { h₀ with bytes := fun hi _ _ => by rw [memoryOf, hi] }
  have h := exec_paged hview halong hr
  refine ⟨fun i sp page off => h.bytes, fun i sp page hi hboth => ?_, h.slotsDistinct⟩
  obtain ⟨x, hx⟩ := isSome_iff_exists.mp hboth.2
  rw [h.absent hi hx] at hboth
  cases hboth.1

/-- A program writes to its stack, the page is evicted, another one faults in:
the byte is still there. -/
theorem swap_preserves_memory_small : ∃ s₀ s, loadFlat smallMachine [0x90] = some s₀ ∧
    exec memStep s₀ [.fault 0 0x7FFFFFFFE000 true, .store 0 0x7FFFFFFFE008 7,
      .evict 0 0x7FFFFFFFE000, .fault 0 0x7FFFFFFFD000 true] = some s ∧ SlotsDistinct s ∧
    ∀ sp, s.spaces[0]? = some sp → pageByte s.shared sp 0x7FFFFFFFE 8 = 7 := by
  have hrun : ∃ s₀ ∈ loadFlat smallMachine [0x90], Along memStep SwapStep s₀
        [.fault 0 0x7FFFFFFFE000 true, .store 0 0x7FFFFFFFE008 7, .evict 0 0x7FFFFFFFE000,
          .fault 0 0x7FFFFFFFD000 true] ∧
      (exec memStep s₀ [.fault 0 0x7FFFFFFFE000 true, .store 0 0x7FFFFFFFE008 7,
        .evict 0 0x7FFFFFFFE000, .fault 0 0x7FFFFFFFD000 true]).isSome := by
    decide +kernel
  obtain ⟨s₀, hs₀, halong, hsome⟩ := hrun
  obtain ⟨s, hs⟩ := isSome_iff_exists.mp hsome
  obtain ⟨hbytes, _, hslots⟩ :=
    swap_preserves_memory (loadFlat_fresh smallMachine_fresh hs₀).separate halong hs
  refine ⟨s₀, s, hs₀, hs, hslots, fun sp hsp => ?_⟩
  rw [hbytes 0 sp 0x7FFFFFFFE 8 hsp (by decide) (by decide)]
  rfl

end AlaphiOS.Memory
