import AlaphiOS.Memory.Areas
import AlaphiOS.Memory.SwapSafety
import Mathlib.Data.List.Pairwise

/-!
# Page protections and areas

The flags of a page are kept in three places: in its area, in its entry while it is mapped, and
in its record while it is swapped out. `ProtectionsOk` says of the entries that none is writable
in an area that is not.

The invariant is `Covered`: whatever is writable for the program, entry or record, lies in an
area that is writable. A fault takes the flags of a new entry from a record or from an area, an
eviction takes those of a record from an entry (`handleFault_entries`, `evictAddr_entries`), so
both keep it. `SYS_MPROTECT` changes the flags of the area and of the entries, and `SYS_BRK` takes
away the pages it releases with their entries; neither looks at the records. `protections_kept`
therefore asks that the records in question are not there.
-/

namespace AlaphiOS.Memory

open Lib List

variable {T : PageTables}

/-- An operation on the address space of task `n`. -/
def MemOp.On (n : Nat) : MemOp → Prop
  | .fault i _ _ => i = n
  | .evict i _ => i = n
  | .brk i _ => i = n
  | .mprotect i _ _ _ => i = n
  | .store i _ _ => i = n
  | .touch i _ _ => i = n
  | .load _ => False
  | .fork _ => False

/-- No page is mapped writable for the program in an area that is not writable. -/
def ProtectionsOk (sp : Space) (c : Shared T) : Prop :=
  ∀ p e a, c.leaf sp.root p = some e → e.flags.present = true → e.flags.userAccessible = true →
    a ∈ sp.vmm.areas → a.has (frameAddr p) = true → e.flags.writable = true → a.flags.writable = true

/-- A page of the range is swapped out, with such flags. -/
def SwappedIn (sp : Space) (lo hi : Nat) (P : PageTableFlags → Prop) : Prop :=
  ∃ p r, lo ≤ frameAddr p ∧ frameAddr p < hi ∧ sp.vmm.swapped (frameAddr p) = some r ∧ P r.2

/-- The operation lowers the break of task `n` below a page that is swapped out. -/
def ReleasesSwapped (n : Nat) (s : Machine T) (op : MemOp) : Prop :=
  ∃ sp, s.spaces[n]? = some sp ∧
    SwappedIn sp (op.breakAfter n sp.heapStart sp.brk) sp.brk fun _ => True

/-- The operation makes pages of task `n` read-only, and one of them is swapped out writable. -/
def ProtectsSwapped (n : Nat) (s : Machine T) : MemOp → Prop
  | .mprotect i addr len prot => i = n ∧ prot &&& 2 = 0 ∧ addr % 4096 = 0 ∧ len ≠ 0 ∧
      ∃ sp, s.spaces[n]? = some sp ∧ (∃ a, sp.vmm.areas.find? (fun a => a.has addr) = some a ∧
        addr + alignDown (len + 0xFFF) ≤ a.end_) ∧
      SwappedIn sp addr (addr + alignDown (len + 0xFFF)) fun fl => fl.writable = true
  | _ => False

theorem swappedIn_iff {sp : Space} {lo hi : Nat} {P : PageTableFlags → Prop} :
    SwappedIn sp lo hi P ↔ ∃ p ∈ range' (lo / 4096) (hi / 4096 + 1 - lo / 4096),
      (lo ≤ frameAddr p ∧ frameAddr p < hi) ∧ ∃ r ∈ sp.vmm.swapped (frameAddr p), P r.2 := by
  constructor
  · rintro ⟨p, r, hlo, hhi, hr, hP⟩
    refine ⟨p, mem_range'_1.mpr ?_, ⟨hlo, hhi⟩, r, hr, hP⟩
    unfold frameAddr at hlo hhi
    omega
  · rintro ⟨p, _, ⟨hlo, hhi⟩, r, hr, hP⟩
    exact ⟨p, r, hlo, hhi, hr, hP⟩

instance (sp : Space) (lo hi : Nat) (P : PageTableFlags → Prop) [DecidablePred P] :
    Decidable (SwappedIn sp lo hi P) := decidable_of_iff' _ swappedIn_iff

instance (n : Nat) (s : Machine T) (op : MemOp) : Decidable (ReleasesSwapped n s op) :=
  inferInstanceAs (Decidable (∃ sp ∈ s.spaces[n]?, _))

instance (n : Nat) (s : Machine T) : (op : MemOp) → Decidable (ProtectsSwapped n s op)
  | .mprotect i addr len prot =>
    inferInstanceAs (Decidable (i = n ∧ prot &&& 2 = 0 ∧ addr % 4096 = 0 ∧ len ≠ 0 ∧
      ∃ sp ∈ s.spaces[n]?, (∃ a ∈ sp.vmm.areas.find? fun a => a.has addr,
        addr + alignDown (len + 0xFFF) ≤ a.end_) ∧
      SwappedIn sp addr (addr + alignDown (len + 0xFFF)) fun fl => fl.writable = true))
  | .load _ => isFalse id
  | .fork _ => isFalse id
  | .fault .. => isFalse id
  | .evict .. => isFalse id
  | .brk .. => isFalse id
  | .store .. => isFalse id
  | .touch .. => isFalse id

/-! ## Pages and areas -/

/-- The page is in an area with such flags. -/
def Inside (P : PageTableFlags → Prop) (sp : Space) (p : Nat) : Prop :=
  ∃ a ∈ sp.vmm.areas, a.has (frameAddr p) = true ∧ P a.flags

section

variable {P : PageTableFlags → Prop} {sp : Space} {v : Vmm} {stack heap before after : List VmArea}
  {area : VmArea} {p addr end_ : Nat}

theorem Inside.of_areas {sp' : Space} (h : Inside P sp p) (hareas : sp'.vmm.areas = sp.vmm.areas) :
    Inside P sp' p := by
  unfold Inside
  rw [hareas]
  exact h

/-- An area that has an address has its page. -/
theorem Laid.has_page {a : VmArea} (h : Laid sp stack heap) (ha : a ∈ sp.vmm.areas) :
    a.has (frameAddr (addr / 4096)) = true ↔ a.has addr = true := by
  have hpages := h.pages a (h.areas ▸ ha)
  rw [has_iff, has_iff, frameAddr]
  omega

/-- Of the pages in areas, moving the break loses those between the new and the old one. -/
theorem Laid.inside_resize {newEnd : Nat} (h : Laid sp stack heap) (hone : heap.length < 2)
    (hv : v.areas = stack ++ resizeHeap sp.heapStart newEnd heap) (hp : Inside P sp p)
    (hkept : ¬ (newEnd ≤ frameAddr p ∧ frameAddr p < sp.brk)) :
    Inside P { sp with vmm := v, brk := newEnd } p := by
  obtain ⟨a, ha, hhas, hP⟩ := hp
  rw [h.areas] at ha
  unfold Inside
  dsimp only
  rw [hv]
  obtain ha | ha := mem_append.mp ha
  · exact ⟨a, mem_append_left _ ha, hhas, hP⟩
  cases heap with
  | nil => cases ha
  | cons b l =>
    obtain rfl := eq_nil_of_length_cons_lt_two hone
    obtain rfl := mem_singleton.mp ha
    have hend : a.end_ = sp.brk := h.heapTiles.2.2
    refine ⟨{ a with end_ := newEnd }, mem_append_right _ (mem_singleton_self _), ?_, hP⟩
    rw [has_iff] at hhas ⊢
    dsimp only
    omega

/-- Outside of the range, splitting an area changes nothing. -/
theorem inside_protect {flags : PageTableFlags} (hareas : sp.vmm.areas = before ++ area :: after)
    (hv : v.areas = before ++ area.protect addr end_ flags ++ after)
    (hp : Inside P sp p) (hout : ¬ (addr ≤ frameAddr p ∧ frameAddr p < end_)) :
    Inside P { sp with vmm := v } p := by
  obtain ⟨a, ha, hhas, hP⟩ := hp
  unfold Inside
  dsimp only
  rw [hv]
  rw [hareas, mem_append, mem_cons] at ha
  have hmid : ∀ {b}, b ∈ area.protect addr end_ flags →
      b ∈ before ++ area.protect addr end_ flags ++ after :=
    fun hb => mem_append_left _ (mem_append_right _ hb)
  obtain ha | rfl | ha := ha
  · exact ⟨a, mem_append_left _ (mem_append_left _ ha), hhas, hP⟩
  -- the page is in what is left of the area before or behind the range
  · rw [has_iff] at hhas
    by_cases hlow : frameAddr p < addr
    · refine ⟨{ a with end_ := addr }, hmid ?_, has_iff.mpr ⟨hhas.1, hlow⟩, hP⟩
      unfold VmArea.protect
      rw [if_pos (by omega)]
      simp
    · refine ⟨{ a with start := end_ }, hmid ?_, has_iff.mpr ⟨by dsimp only; omega, hhas.2⟩, hP⟩
      unfold VmArea.protect
      rw [if_pos (show end_ < a.end_ by omega)]
      simp
  · exact ⟨a, mem_append_right _ ha, hhas, hP⟩

/-- Inside of the range, the pages have the new flags. -/
theorem inside_protected {flags : PageTableFlags}
    (hv : v.areas = before ++ area.protect addr end_ flags ++ after)
    (hin : addr ≤ frameAddr p ∧ frameAddr p < end_) (hP : P flags) :
    Inside P { sp with vmm := v } p := by
  refine ⟨⟨addr, end_, flags⟩, ?_, has_iff.mpr hin, hP⟩
  show _ ∈ v.areas
  rw [hv]
  refine mem_append_left _ (mem_append_right _ ?_)
  unfold VmArea.protect
  simp

end

/-! ## What is writable lies in a writable area -/

/-- The flags let the program write. -/
def PageTableFlags.userWritable (f : PageTableFlags) : Prop :=
  f.present = true ∧ f.userAccessible = true ∧ f.writable = true

/-- What is writable lies in a writable area. -/
structure Covered (sp : Space) (c : Shared T) : Prop where
  entries : ∀ p e, c.leaf sp.root p = some e → e.flags.userWritable →
    Inside (fun fl => fl.writable = true) sp p
  records : ∀ p r, sp.vmm.swapped (frameAddr p) = some r → r.2.userWritable →
    Inside (fun fl => fl.writable = true) sp p

section

variable {sp : Space} {c c' : Shared T} {v' : Vmm} {stack heap : List VmArea} {addr : Nat} {ok : Bool}

theorem Covered.protectionsOk (h : Covered sp c) (hl : Laid sp stack heap) : ProtectionsOk sp c := by
  intro p e a hleaf hpres huser ha hhas hw
  obtain ⟨b, hb, hbhas, hbw⟩ := h.entries p e hleaf ⟨hpres, huser, hw⟩
  by_cases hab : a = b
  · rw [hab]
    exact hbw
  -- two areas cannot have the same page
  have : Std.Symm fun a b : VmArea => ∀ x, ¬ (a.has x = true ∧ b.has x = true) :=
    ⟨fun _ _ h x hx => h x hx.symm⟩
  exact absurd ⟨hhas, hbhas⟩ (hl.areasOk.disjoint.forall ha hb hab (frameAddr p))

theorem Covered.fault {isWrite : Bool} (h : Covered sp c) (hl : Laid sp stack heap)
    (hr : handleFault sp.vmm c sp.root addr isWrite = some (ok, v', c')) :
    Covered { sp with vmm := v' } c' := by
  obtain ⟨hentries, hrecords⟩ := handleFault_entries hr
  have hareas := handleFault_areas hr
  constructor
  · intro p e he hw
    refine Inside.of_areas ?_ hareas
    obtain hold | ⟨rfl, -, ⟨slot, hrec⟩ | ⟨area, hfind, hflags⟩⟩ := hentries p e he
    · exact h.entries p e hold hw
    · exact h.records _ _ hrec hw
    · have ha := mem_of_find?_eq_some hfind
      have hhas : area.has addr = true := by simpa using find?_some hfind
      refine ⟨area, ha, (hl.has_page ha).mpr hhas, ?_⟩
      rw [← hflags]
      exact hw.2.2
  · intro p r hrec hw
    exact (h.records p r (hrecords _ _ hrec) hw).of_areas hareas

theorem frameAddr_page {p q : Nat} (h : frameAddr p = frameAddr q) : p = q := by
  unfold frameAddr at h
  omega

theorem Covered.evict (h : Covered sp c)
    (hr : evictAddr sp.vmm c sp.root addr = some (ok, v', c')) :
    Covered { sp with vmm := v' } c' := by
  obtain ⟨hentries, hrecords⟩ := evictAddr_entries hr
  have hareas := evictAddr_areas hr
  constructor
  · intro p e he hw
    exact (h.entries p e (hentries p e he) hw).of_areas hareas
  · intro p r hrec hw
    refine Inside.of_areas ?_ hareas
    obtain hold | ⟨hp, e, he, hflags⟩ := hrecords _ _ hrec
    · exact h.records p r hold hw
    · obtain rfl := frameAddr_page hp
      rw [hflags] at hw
      exact h.entries _ e he hw

/-- Other entries with the same rights. -/
theorem Covered.of_leaf (h : Covered sp c)
    (hleaf : ∀ p e, c'.leaf sp.root p = some e → e.flags.userWritable →
      ∃ e₀, c.leaf sp.root p = some e₀ ∧ e₀.flags.userWritable) : Covered sp c' where
  entries := fun p e he hw =>
    let ⟨e₀, he₀, hw₀⟩ := hleaf p e he hw
    h.entries p e₀ he₀ hw₀
  records := h.records

end

section

variable {s s' : Machine T} {n : Nat} {sp : Space} {stack heap : List VmArea}

theorem Covered.brk {newBrk ret : Nat} (h : Covered sp s.shared) (hl : Laid sp stack heap)
    (hn : s.spaces[n]? = some sp) (hr : sysBrk s n newBrk = some (ret, s'))
    (hmoves : ¬ MovesSplitHeap n s (.brk n newBrk))
    (hreleases : ¬ ReleasesSwapped n s (.brk n newBrk)) :
    ∃ sp', s'.spaces[n]? = some sp' ∧ Covered sp' s'.shared := by
  have hstep : memStep s (.brk n newBrk) = some s' := by rw [memStep, hr, Option.map_some]
  obtain ⟨sp', hn', hswapped, hleaf, hcase⟩ := sysBrk_laid hn hl hr
  have hbrk := memStep_brk hn hstep hn'
  have hgone : ∀ p r, sp'.vmm.swapped (frameAddr p) = some r →
      ¬ (sp'.brk ≤ frameAddr p ∧ frameAddr p < sp.brk) := by
    intro p r hrec ⟨hlo, hhi⟩
    rw [hswapped] at hrec
    exact hreleases ⟨sp, hn, p, r, hbrk.symm ▸ hlo, hhi, hrec, trivial⟩
  have hentry : ∀ p e, s'.shared.leaf sp.root p = some e →
      ¬ (sp'.brk ≤ frameAddr p ∧ frameAddr p < sp.brk) ∧ s.shared.leaf sp.root p = some e := by
    intro p e he
    rw [hleaf] at he
    split at he
    · cases he
    next hout => exact ⟨hout, he⟩
  -- what was inside of a writable area and is not released still is
  have hinside : sp'.root = sp.root ∧ ∀ p, Inside (fun fl => fl.writable = true) sp p →
      ¬ (sp'.brk ≤ frameAddr p ∧ frameAddr p < sp.brk) →
      Inside (fun fl => fl.writable = true) sp' p := by
    rcases hcase with ⟨hroot, _, _, hareas⟩ | ⟨v, newEnd, rfl, hne, _, _, _, hv⟩
    · exact ⟨hroot, fun p hp _ => hp.of_areas hareas⟩
    · refine ⟨rfl, fun p hp hout => hl.inside_resize (hl.one_area fun hsplit => ?_) hv hp hout⟩
      exact hmoves ⟨sp, hn, hbrk.symm ▸ hne, hsplit⟩
  refine ⟨sp', hn', fun p e he hw => ?_, fun p r hrec hw => ?_⟩
  · rw [hinside.1] at he
    obtain ⟨hout, he⟩ := hentry p e he
    exact hinside.2 p (h.entries p e he hw) hout
  · have hout := hgone p r hrec
    rw [hswapped] at hrec
    exact hinside.2 p (h.records p r hrec hw) hout

theorem Covered.mprotect {addr len prot : Nat} {ok : Bool} (h : Covered sp s.shared)
    (hn : s.spaces[n]? = some sp) (hr : sysMprotect s n addr len prot = some (ok, s'))
    (hprotects : ¬ ProtectsSwapped n s (.mprotect n addr len prot)) :
    ∃ sp', s'.spaces[n]? = some sp' ∧ Covered sp' s'.shared := by
  rcases sysMprotect_inv hr with ⟨_, rfl⟩ | ⟨sp₁, end_, before, area, after, c, rfl, hi, haddr, rfl,
    hlt, hareas, hbefore, hhas, hle, hloop, rfl⟩
  · exact ⟨sp, hn, h⟩
  cases hi.symm.trans hn
  have hleaf := forPages_leaf
    (g := fun _ => Option.map fun e => { e with flags := userFlags (prot &&& 2 ≠ 0) })
    (fun _ _ _ => protectPage_leaf) haddr (Nat.le_of_lt hlt) hloop
  refine ⟨_, Machine.put_getElem hn, fun p e he hw => ?_, fun p r hrec hw => ?_⟩
  · have he : c.leaf sp.root p = some e := he
    rw [hleaf] at he
    split at he
    -- an entry of the range has the new flags, like its area
    next hin =>
      obtain ⟨e₀, _, rfl⟩ := map_inv he
      exact inside_protected rfl hin hw.2.2
    next hout => exact inside_protect hareas rfl (h.entries p e he hw) hout
  · have hrec : sp.vmm.swapped (frameAddr p) = some r := hrec
    by_cases hin : addr ≤ frameAddr p ∧ frameAddr p < addr + alignDown (len + 0xFFF)
    · refine inside_protected rfl hin ?_
      -- the record is writable, so the call does not take the right away
      by_contra hro
      have hprot : prot &&& 2 = 0 := not_not.mp (mt (decide_eq_true (p := prot &&& 2 ≠ 0)) hro)
      have hlen : len ≠ 0 := by
        rintro rfl
        exact Nat.lt_irrefl _ hlt
      have harea : sp.vmm.areas.find? (fun a => a.has addr) = some area := by
        rw [hareas, find?_append, find?_eq_none.mpr fun a ha => by simp [hbefore a ha],
          Option.none_or]
        exact find?_cons_of_pos hhas
      exact hprotects ⟨rfl, hprot, haddr, hlen, sp, hn, ⟨area, harea, hle⟩, p, r, hin.1, hin.2, hrec,
        hw.2.2⟩
    · exact inside_protect hareas rfl (h.records p r hrec hw) hin

/-- The areas of task `n` are laid out, and whatever is writable lies in a writable one. -/
def CoveredAt (n : Nat) (s : Machine T) : Prop :=
  ∃ sp stack heap, s.spaces[n]? = some sp ∧ Laid sp stack heap ∧ Covered sp s.shared

/-- Nothing that is swapped out is forgotten by the operation. -/
def KeepsProtections (n : Nat) (s : Machine T) (op : MemOp) : Prop :=
  ¬ MovesSplitHeap n s op ∧ ¬ ReleasesSwapped n s op ∧ ¬ ProtectsSwapped n s op

instance (n : Nat) (s : Machine T) (op : MemOp) : Decidable (KeepsProtections n s op) :=
  inferInstanceAs (Decidable (_ ∧ _))

theorem memStep_covered {op : MemOp} (hon : op.On n) (hn : s.spaces[n]? = some sp)
    (hl : Laid sp stack heap) (h : Covered sp s.shared) (hok : KeepsProtections n s op)
    (hr : memStep s op = some s') : ∃ sp', s'.spaces[n]? = some sp' ∧ Covered sp' s'.shared := by
  obtain ⟨hmoves, hreleases, hprotects⟩ := hok
  cases op with
  | load | fork => exact hon.elim
  | fault i addr isWrite =>
    obtain rfl : i = n := hon
    obtain ⟨⟨ok, s₁⟩, hfault, rfl⟩ := map_inv hr
    obtain ⟨sp₁, vmm, c, hi, hf, rfl⟩ := pageFault_inv hfault
    cases hi.symm.trans hn
    exact ⟨_, Machine.put_getElem hn, h.fault hl hf⟩
  | evict i vaddr =>
    obtain rfl : i = n := hon
    obtain ⟨⟨ok, s₁⟩, hevict, rfl⟩ := map_inv hr
    obtain ⟨sp₁, vmm, c, hi, he, rfl⟩ := evict_inv hevict
    cases hi.symm.trans hn
    exact ⟨_, Machine.put_getElem hn, h.evict he⟩
  | brk i newBrk =>
    obtain rfl : i = n := hon
    obtain ⟨⟨ret, s₁⟩, hb, rfl⟩ := map_inv hr
    exact h.brk hl hn hb hmoves hreleases
  | mprotect i addr len prot =>
    obtain rfl : i = n := hon
    obtain ⟨⟨ok, s₁⟩, hm, rfl⟩ := map_inv hr
    exact h.mprotect hn hm hprotects
  | store i addr byte =>
    obtain ⟨e, _, _, hsp, hsh⟩ := userStore_inv hr
    refine ⟨sp, hsp ▸ hn, h.of_leaf fun p e he hw => ⟨e, ?_, hw⟩⟩
    rw [hsh] at he
    exact he
  | touch i page dirty =>
    obtain rfl : i = n := hon
    obtain ⟨sp₁, e₁, c, hi, he₁, hc, rfl⟩ := touch_inv hr
    cases hi.symm.trans hn
    refine ⟨sp, hn, h.of_leaf fun p e he hw => ?_⟩
    -- the accessed and the dirty bit are no rights
    rw [remapFlags_leaf hc] at he
    split at he
    next hp =>
      rw [hp, he₁] at he
      cases he
      exact ⟨e₁, hp ▸ he₁, hw⟩
    · exact ⟨e, he, hw⟩

theorem memStep_coveredAt {op : MemOp} (h : CoveredAt n s) (hok : op.On n ∧ KeepsProtections n s op)
    (hr : memStep s op = some s') : CoveredAt n s' := by
  obtain ⟨sp, stack, heap, hn, hl, hc⟩ := h
  obtain ⟨sp', stack', heap', hn', hl'⟩ := (memStep_laidAt ⟨sp, stack, heap, hn, hl⟩ hr).1 hok.2.1
  obtain ⟨sp'', hn'', hc'⟩ := memStep_covered hok.1 hn hl hc hok.2 hr
  cases hn''.symm.trans hn'
  exact ⟨sp', stack', heap', hn', hl', hc'⟩

end

/-! ## A new task -/

/-- No page that all address spaces share is writable for programs. -/
def KernelProtected (s : Machine T) : Prop :=
  ∀ root p e, T.KernelPage p → s.shared.leaf root p = some e → ¬ e.flags.userWritable

/-- The code of a new task is read-only, and nothing else is mapped for it. -/
theorem loadFlat_readOnly {s s₀ : Machine T} {bytes : List UInt8} (hk : KernelProtected s)
    (h : loadFlat s bytes = some s₀) :
    ∃ sp, s₀.spaces[s.spaces.length]? = some sp ∧
      ∀ p e, s₀.shared.leaf sp.root p = some e → ¬ e.flags.userWritable := by
  obtain ⟨⟨root, c⟩, hclone, h⟩ := bind_inv h
  obtain ⟨c', hload, h⟩ := bind_inv h
  cases h
  refine ⟨_, getElem?_concat_length, ?_⟩
  refine foldlM_rule (I := fun c₁ => ∀ p e, c₁.leaf root p = some e → ¬ e.flags.userWritable)
    (fun c₁ k c₂ _ hI hr p e he => ?_) (fun p e he => ?_) hload
  · obtain ⟨frame, c₃, mem, page, ha, hm⟩ := loadPage_inv hr
    rw [mapPage_leaf hm] at he
    split at he
    · cases he
      exact fun hw => Bool.false_ne_true hw.2.2
    · refine hI p e ?_
      rw [← allocate_leaf ha]
      exact he
  · obtain ⟨c₁, ha, rfl⟩ := cloneKernelHalf_inv hclone
    obtain ⟨_, rfl⟩ := allocate_eq ha
    obtain ⟨he, hkernel⟩ : s.shared.leaf root p = some e ∧ T.KernelPage p := by
      have he : T.leaf (T.cloneKernel s.shared.tables root) root p = some e := he
      rw [T.leaf_cloneKernel] at he
      split at he
      · cases he
      next hpage => exact ⟨he, not_not.mp fun hnot => hpage ⟨rfl, hnot⟩⟩
    exact hk root p e hkernel he

theorem loadFlat_coveredAt {s s₀ : Machine T} {bytes : List UInt8} (hk : KernelProtected s)
    (h : loadFlat s bytes = some s₀) : CoveredAt s.spaces.length s₀ := by
  obtain ⟨sp, stack, hn, hl, hnone⟩ := loadFlat_laid h
  obtain ⟨sp', hn', hro⟩ := loadFlat_readOnly hk h
  cases hn'.symm.trans hn
  refine ⟨sp, stack, [], hn, hl, fun p e he hw => absurd hw (hro p e he), fun p r hrec => ?_⟩
  rw [hnone] at hrec
  cases hrec

/-- For a task that `load_flat` has made, and any operations on its address space: its pages
are writable only in writable areas, as long as no operation moves the break of a split heap,
lowers the break below a page that is swapped out, or makes read-only what is swapped out. -/
theorem protections_kept (s s₀ s₁ : Machine T) (bytes : List UInt8) (ops : List MemOp)
    (hk : KernelProtected s) (h : loadFlat s bytes = some s₀)
    (hon : ∀ op ∈ ops, op.On s.spaces.length)
    (hok : Along memStep (KeepsProtections s.spaces.length) s₀ ops)
    (hrun : exec memStep s₀ ops = some s₁) :
    ∃ sp, s₁.spaces[s.spaces.length]? = some sp ∧ ProtectionsOk sp s₁.shared := by
  have hinv := exec_induction (I := CoveredAt s.spaces.length)
    (fun _ _ _ h hP hr => memStep_coveredAt h hP hr) (loadFlat_coveredAt hk h)
    (hok.and_forall hon) hrun
  obtain ⟨sp, stack, heap, hn, hl, hc⟩ := hinv
  exact ⟨sp, hn, hc.protectionsOk hl⟩

theorem smallMachine_kernelProtected : KernelProtected smallMachine :=
  fun _ _ _ _ he => nomatch he

/-- A heap page is written to, made read-only and evicted, and another one is written to. -/
theorem protections_kept_two_pages : ∃ s₀ s₁, loadFlat smallMachine [0x90] = some s₀ ∧
    exec memStep s₀ [.brk 0 0x403000, .fault 0 0x401000 true, .mprotect 0 0x401000 0x1000 1,
      .evict 0 0x401000, .fault 0 0x402000 true] = some s₁ ∧
    ∃ sp, s₁.spaces[0]? = some sp ∧ ProtectionsOk sp s₁.shared := by
  have hrun : ∃ s₀ ∈ loadFlat smallMachine [0x90], Along memStep (KeepsProtections 0) s₀
        [.brk 0 0x403000, .fault 0 0x401000 true, .mprotect 0 0x401000 0x1000 1,
          .evict 0 0x401000, .fault 0 0x402000 true] ∧
      (exec memStep s₀ [.brk 0 0x403000, .fault 0 0x401000 true, .mprotect 0 0x401000 0x1000 1,
        .evict 0 0x401000, .fault 0 0x402000 true]).isSome := by
    decide +kernel
  obtain ⟨s₀, h₀, hkept, hsome⟩ := hrun
  obtain ⟨s₁, h₁⟩ := Option.isSome_iff_exists.mp hsome
  exact ⟨s₀, s₁, h₀, h₁, protections_kept _ s₀ s₁ _ _ smallMachine_kernelProtected h₀
    (by simp [MemOp.On, smallMachine, bootMachine]) hkept h₁⟩

/-- The heap page is evicted before it is made read-only, and comes back writable. -/
theorem evicted_page_comes_back_writable : KernelProtected smallMachine ∧
    ∃ s₀ s₁ s₂, loadFlat smallMachine [0x90] = some s₀ ∧
    exec memStep s₀ [.brk 0 0x402000, .fault 0 0x401000 true, .evict 0 0x401000,
      .mprotect 0 0x401000 0x1000 1] = some s₁ ∧
    pageFault s₁ 0 0x401000 false = some (true, s₂) ∧
    ∃ sp, s₂.spaces[0]? = some sp ∧ ¬ ProtectionsOk sp s₂.shared := by
  have hrun : (exec memStep smallMachine [.load [0x90], .brk 0 0x402000, .fault 0 0x401000 true,
      .evict 0 0x401000, .mprotect 0 0x401000 0x1000 1]).map (fun s => pageState s 0 0x401)
      = some (some ⟨some (0, userFlags true), [⟨0x7FFFFFFEF000, 0x7FFFFFFFF000, userFlags true⟩,
        ⟨0x401000, 0x402000, userFlags false⟩], none, 0, some (some 35)⟩) := by
    decide +kernel
  obtain ⟨s₁, h, hst⟩ := map_inv hrun
  obtain ⟨s₀, h₀, h₁⟩ := exec_cons h
  obtain ⟨s₂, sp, hfault, hsp, hareas, hback, -⟩ :=
    pageFault_swapped (exec_swap smallMachine_fresh.swap h) 0x401000 false hst (by decide)
  refine ⟨smallMachine_kernelProtected, s₀, s₁, s₂, h₀, h₁, hfault, sp, hsp, fun hok => ?_⟩
  have hw := hok 0x401 _ ⟨0x401000, 0x402000, userFlags false⟩ hback rfl rfl
    (by rw [hareas]; decide) (by decide) rfl
  cases hw

end AlaphiOS.Memory
