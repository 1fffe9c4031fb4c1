import AlaphiOS.Memory.Fork
import AlaphiOS.Memory.Protection

/-!
# Giving heap memory back

A task grows and shrinks its heap, uses it, and the reaper evicts its pages. Two things are
wanted of a page that `SYS_BRK` releases: a fault on it is not handled while it is in no area,
and when the heap grows over it again it reads as zeros.

Both hold for pages that are mapped or have never been used when they are released.
`sysBrk_laid` says that their entries are gone; `Untouched`, no entry and no record, lasts until
the next fault on the page (`memStep_untouched`), and this fault finds nothing but the area and
maps zeros (`Untouched.readsZeros`). A page that is swapped out keeps its record, and
`handle_fault` looks for a record before it looks for an area. `heap_released` therefore asks
that no lowered break passes a swapped page; `RecordsInside` is the invariant that it keeps.
-/

namespace AlaphiOS.Memory

open Lib Option

variable {T : PageTables}

/-- An operation on the heap of task `n`, of the program or of the kernel. -/
def MemOp.OnHeap (n : Nat) : MemOp → Prop
  | .fault i _ _ => i = n
  | .evict i _ => i = n
  | .brk i _ => i = n
  | .store i _ _ => i = n
  | .touch i _ _ => i = n
  | .mprotect .. => False
  | .load _ => False
  | .fork _ => False

/-- A mapped page of task `n` that is in no area is evicted. The reaper looks for pages in the
areas only. -/
def EvictsOutside (n : Nat) (s : Machine T) : MemOp → Prop
  | .evict _ vaddr => ∃ sp e, s.spaces[n]? = some sp ∧
      s.shared.leaf sp.root (vaddr / 4096) = some e ∧ ∀ a ∈ sp.vmm.areas, a.has vaddr = false
  | _ => False

instance (n : Nat) (s : Machine T) : (op : MemOp) → Decidable (EvictsOutside n s op)
  | .evict _ vaddr =>
    decidable_of_iff (∃ sp ∈ s.spaces[n]?, ∃ e ∈ s.shared.leaf sp.root (vaddr / 4096),
      ∀ a ∈ sp.vmm.areas, a.has vaddr = false)
      ⟨fun ⟨sp, h₁, e, h₂, h₃⟩ => ⟨sp, e, h₁, h₂, h₃⟩, fun ⟨sp, e, h₁, h₂, h₃⟩ => ⟨sp, h₁, e, h₂, h₃⟩⟩
  | .load _ => isFalse id
  | .fork _ => isFalse id
  | .fault .. => isFalse id
  | .brk .. => isFalse id
  | .mprotect .. => isFalse id
  | .store .. => isFalse id
  | .touch .. => isFalse id

/-- No page is released while it is swapped out, and only pages in areas are swapped out. -/
def KeepsHeap (n : Nat) (s : Machine T) (op : MemOp) : Prop :=
  ¬ ReleasesSwapped n s op ∧ ¬ EvictsOutside n s op

instance (n : Nat) (s : Machine T) (op : MemOp) : Decidable (KeepsHeap n s op) :=
  inferInstanceAs (Decidable (_ ∧ _))

/-- The address is in an area of task `n`. -/
def InArea (n : Nat) (s : Machine T) (addr : Nat) : Prop :=
  ∃ sp, s.spaces[n]? = some sp ∧ ∃ a ∈ sp.vmm.areas, a.has addr = true

/-- Between the two states the break of task `n` was lowered below the page. -/
def Released (n page : Nat) (s s' : Machine T) : Prop :=
  ∃ sp sp', s.spaces[n]? = some sp ∧ s'.spaces[n]? = some sp' ∧ sp'.brk ≤ frameAddr page ∧
    frameAddr page < sp.brk

/-- The operation is a fault on the page, and it is handled. -/
def HandlesFault (n page : Nat) (s : Machine T) (op : MemOp) : Prop :=
  ∃ addr isWrite s', op = .fault n addr isWrite ∧ addr / 4096 = page ∧
    pageFault s n addr isWrite = some (true, s')

/-- The next access to the page needs a fault, and the page reads as zeros once it is handled. -/
def ReadsZeros (n page : Nat) (s : Machine T) : Prop :=
  ∀ x, x / 4096 = page → userLoad s n x = none ∧ ∀ addr isWrite s', addr / 4096 = page →
    pageFault s n addr isWrite = some (true, s') → userLoad s' n x = some 0

/-! ## What an operation does to the pages of a task -/

/-- The heap of task `n` is at most one area. -/
structure OneHeap (n : Nat) (s : Machine T) (sp : Space) : Prop where
  task : s.spaces[n]? = some sp
  laid : ∃ stack heap, Laid sp stack heap ∧ heap.length < 2

/-- The page is in an area. -/
abbrev InSome (sp : Space) (page : Nat) : Prop := Inside (fun _ => True) sp page

/-- What an operation does to the areas, the entries and the records of task `n`. -/
structure HeapStep (n : Nat) (op : MemOp) (s s' : Machine T) (sp sp' : Space) : Prop where
  after : OneHeap n s' sp'
  /-- Only a released page leaves the areas. -/
  inside : ∀ p, InSome sp p → ¬ (sp'.brk ≤ frameAddr p ∧ frameAddr p < sp.brk) → InSome sp' p
  gone : ∀ p, sp'.brk ≤ frameAddr p → frameAddr p < sp.brk → s'.shared.leaf sp'.root p = none
  /-- Only a fault maps a page. -/
  entries : ∀ p e, s'.shared.leaf sp'.root p = some e →
    (∃ e₀, s.shared.leaf sp.root p = some e₀) ∨ HandlesFault n p s op
  /-- Only an eviction makes a record. -/
  records : ∀ p r, sp'.vmm.swapped (frameAddr p) = some r →
    sp.vmm.swapped (frameAddr p) = some r ∨
    ∃ vaddr e, op = .evict n vaddr ∧ vaddr / 4096 = p ∧ s.shared.leaf sp.root p = some e ∧
      sp'.brk = sp.brk

section

variable {s s' : Machine T} {n : Nat} {sp sp' : Space} {op : MemOp}

/-- The step of an operation that leaves the layout. -/
theorem OneHeap.sameLayout (h : OneHeap n s sp) (hn : s'.spaces[n]? = some sp')
    (hsame : sp.SameLayout sp')
    (hentries : ∀ p e, s'.shared.leaf sp'.root p = some e →
      (∃ e₀, s.shared.leaf sp.root p = some e₀) ∨ HandlesFault n p s op)
    (hrecords : ∀ p r, sp'.vmm.swapped (frameAddr p) = some r →
      sp.vmm.swapped (frameAddr p) = some r ∨
      ∃ vaddr e, op = .evict n vaddr ∧ vaddr / 4096 = p ∧ s.shared.leaf sp.root p = some e ∧
        sp'.brk = sp.brk) :
    HeapStep n op s s' sp sp' where
  after :=
    let ⟨stack, heap, hl, hone⟩ := h.laid
    ⟨hn, stack, heap, hl.of_sameLayout hsame, hone⟩
  inside := fun p hp _ => hp.of_areas hsame.2.2.2
  gone := fun p hlo hhi => by
    have := hsame.2.2.1
    omega
  entries := hentries
  records := hrecords

/-- The step of `SYS_BRK`: the break stays, or the one area of the heap is resized. -/
theorem sysBrk_heapStep {newBrk ret : Nat} (h : OneHeap n s sp)
    (hb : sysBrk s n newBrk = some (ret, s')) : ∃ sp', HeapStep n (.brk n newBrk) s s' sp sp' := by
  obtain ⟨stack, heap, hl, hone⟩ := h.laid
  obtain ⟨sp', hn', hswapped, hleaf, hcase⟩ := sysBrk_laid h.task hl hb
  have hentry : ∀ p e, s'.shared.leaf sp.root p = some e →
      (∃ e₀, s.shared.leaf sp.root p = some e₀) ∨ HandlesFault n p s (.brk n newBrk) := by
    intro p e he
    rw [hleaf] at he
    split at he
    · cases he
    · exact .inl ⟨e, he⟩
  rcases hcase with hsame | ⟨v, newEnd, rfl, hne, hlo, hhi, hpages, hv⟩
  · refine ⟨sp', h.sameLayout hn' hsame (hsame.1 ▸ hentry) fun p r hrec => .inl ?_⟩
    rw [← hswapped]
    exact hrec
  · obtain ⟨b, hl'⟩ := hl.resize hone hlo hhi hpages hv
    refine ⟨_, ⟨hn', stack, [b], hl', by simp⟩, fun p hp => hl.inside_resize hone hv hp,
      fun p hlo hhi => (hleaf p).trans (if_pos ⟨hlo, hhi⟩), hentry, fun p r hrec => .inl ?_⟩
    rw [← hswapped]
    exact hrec

theorem memStep_heapStep (h : OneHeap n s sp) (hon : op.OnHeap n) (hr : memStep s op = some s') :
    ∃ sp', HeapStep n op s s' sp sp' := by
  cases op with
  | load | fork | mprotect => exact hon.elim
  | fault i addr isWrite =>
    obtain rfl : i = n := hon
    obtain ⟨⟨ok, s₁⟩, hfault, rfl⟩ := map_inv hr
    obtain ⟨sp₁, vmm, c, hi, hf, rfl⟩ := pageFault_inv hfault
    cases hi.symm.trans h.task
    obtain ⟨hentries, hrecords⟩ := handleFault_entries hf
    refine ⟨_, h.sameLayout (Machine.put_getElem hi) ⟨rfl, rfl, rfl, handleFault_areas hf⟩
      (fun p e he => ?_) (fun p r hrec => .inl (hrecords _ _ hrec))⟩
    obtain hold | ⟨rfl, rfl, _⟩ := hentries p e he
    · exact .inl ⟨e, hold⟩
    · exact .inr ⟨addr, isWrite, _, rfl, rfl, hfault⟩
  | evict i vaddr =>
    obtain rfl : i = n := hon
    obtain ⟨⟨ok, s₁⟩, hevict, rfl⟩ := map_inv hr
    obtain ⟨sp₁, vmm, c, hi, he, rfl⟩ := evict_inv hevict
    cases hi.symm.trans h.task
    obtain ⟨hentries, hrecords⟩ := evictAddr_entries he
    refine ⟨_, h.sameLayout (Machine.put_getElem hi) ⟨rfl, rfl, rfl, evictAddr_areas he⟩
      (fun p e he => .inl ⟨e, hentries p e he⟩) (fun p r hrec => ?_)⟩
    obtain hold | ⟨hp, e, hleaf, _⟩ := hrecords _ _ hrec
    · exact .inl hold
    · obtain rfl := frameAddr_page hp
      exact .inr ⟨vaddr, e, rfl, rfl, hleaf, rfl⟩
  | brk i newBrk =>
    obtain rfl : i = n := hon
    obtain ⟨⟨ret, s₁⟩, hb, rfl⟩ := map_inv hr
    exact sysBrk_heapStep h hb
  | store i addr byte =>
    obtain ⟨_, _, _, hsp, hsh⟩ := userStore_inv hr
    refine ⟨sp, h.sameLayout (hsp ▸ h.task) ⟨rfl, rfl, rfl, rfl⟩ (fun p e he => .inl ⟨e, ?_⟩)
      fun p r hrec => .inl hrec⟩
    rw [hsh] at he
    exact he
  | touch i page dirty =>
    obtain rfl : i = n := hon
    obtain ⟨sp₁, e₁, c, hi, he₁, hc, rfl⟩ := touch_inv hr
    cases hi.symm.trans h.task
    refine ⟨sp, h.sameLayout h.task ⟨rfl, rfl, rfl, rfl⟩ (fun p e he => .inl ?_)
      fun p r hrec => .inl hrec⟩
    rw [remapFlags_leaf hc] at he
    split at he
    next hp => exact ⟨e₁, hp ▸ he₁⟩
    · exact ⟨e, he⟩

theorem loadFlat_oneHeap {s₀ : Machine T} {bytes : List UInt8} (h : loadFlat s bytes = some s₀) :
    ∃ sp, OneHeap s.spaces.length s₀ sp ∧ ∀ a, sp.vmm.swapped a = none := by
  obtain ⟨sp, stack, hn, hl, hnone⟩ := loadFlat_laid h
  exact ⟨sp, ⟨hn, stack, [], hl, by simp⟩, hnone⟩

/-! ## Records of pages in areas -/

/-- What is swapped out is in an area. -/
def RecordsInside (n : Nat) (s : Machine T) : Prop :=
  ∃ sp, OneHeap n s sp ∧ ∀ p r, sp.vmm.swapped (frameAddr p) = some r → InSome sp p

theorem memStep_recordsInside (h : RecordsInside n s) (hok : op.OnHeap n ∧ KeepsHeap n s op)
    (hr : memStep s op = some s') : RecordsInside n s' := by
  obtain ⟨sp, hs, hrec⟩ := h
  obtain ⟨hon, hreleases, hevicts⟩ := hok
  obtain ⟨sp', hstep⟩ := memStep_heapStep hs hon hr
  refine ⟨sp', hstep.after, fun p r hr' => ?_⟩
  obtain hold | ⟨vaddr, e, rfl, rfl, hleaf, hbrk⟩ := hstep.records p r hr'
  · refine hstep.inside p (hrec p r hold) fun ⟨hlo, hhi⟩ => ?_
    have hbrk := memStep_brk hs.task hr hstep.after.task
    exact hreleases ⟨sp, hs.task, p, r, hbrk ▸ hlo, hhi, hold, trivial⟩
  -- the page was mapped, so it was evicted from an area
  · by_contra hout
    refine hevicts ⟨sp, e, hs.task, hleaf, fun a ha => eq_false_of_ne_true fun hhas => hout ?_⟩
    obtain ⟨stack, heap, hl, _⟩ := hs.laid
    exact hstep.inside _ ⟨a, ha, (hl.has_page ha).mpr hhas, trivial⟩ (by omega)

/-- A fault that is handled is on a page in an area. -/
theorem RecordsInside.inArea {addr : Nat} {isWrite : Bool} (h : RecordsInside n s)
    (hr : pageFault s n addr isWrite = some (true, s')) : InArea n s addr := by
  obtain ⟨sp, ⟨hn, stack, heap, hl, _⟩, hrec⟩ := h
  obtain ⟨sp₁, vmm, c, hi, hf, rfl⟩ := pageFault_inv hr
  cases hi.symm.trans hn
  have hfound : ∀ {area : VmArea}, sp.vmm.areas.find? (fun a => a.has addr) = some area →
      InArea n s addr := by
    intro area hfind
    have hhas : area.has addr = true := by simpa using List.find?_some hfind
    exact ⟨sp, hn, area, List.mem_of_find?_eq_some hfind, hhas⟩
  rcases handleFault_inv hf with ⟨slot, flags, hs, _⟩ | ⟨_, _, hcase⟩
  · obtain ⟨a, ha, hhas, _⟩ := hrec _ _ hs
    exact ⟨sp, hn, a, ha, (hl.has_page ha).mp hhas⟩
  · rcases hcase with ⟨hok, _⟩ | ⟨area, _, hfind, _⟩ | ⟨area, hfind, _⟩
    · cases hok
    · exact hfound hfind
    · exact hfound hfind

/-! ## A page that is neither mapped nor swapped out -/

/-- The page has no entry and no record. -/
def Untouched (n page : Nat) (s : Machine T) : Prop :=
  ∃ sp, OneHeap n s sp ∧ s.shared.leaf sp.root page = none ∧ sp.vmm.swapped (frameAddr page) = none

/-- So it is until a fault on it is handled. -/
theorem memStep_untouched {page : Nat} (h : Untouched n page s)
    (hok : op.OnHeap n ∧ ¬ HandlesFault n page s op) (hr : memStep s op = some s') :
    Untouched n page s' := by
  obtain ⟨sp, hs, hleaf, hrec⟩ := h
  obtain ⟨hon, hfault⟩ := hok
  obtain ⟨sp', hstep⟩ := memStep_heapStep hs hon hr
  refine ⟨sp', hstep.after, ?_, ?_⟩
  · refine eq_none_iff_forall_ne_some.mpr fun e he => ?_
    obtain ⟨e₀, he₀⟩ | hf := hstep.entries page e he
    · cases hleaf.symm.trans he₀
    · exact hfault hf
  · refine eq_none_iff_forall_ne_some.mpr fun r hr' => ?_
    obtain hold | ⟨_, e, _, _, he, _⟩ := hstep.records page r hr'
    · cases hrec.symm.trans hold
    · cases hleaf.symm.trans he

/-- A released page that is not swapped out has no entry and no record. -/
theorem untouched_of_released {newBrk page : Nat} (h : OneHeap n s sp)
    (hr : memStep s (.brk n newBrk) = some s') (hok : ¬ ReleasesSwapped n s (.brk n newBrk))
    (hrel : Released n page s s') : Untouched n page s' := by
  obtain ⟨sp₁, sp₁', hn, hn', hlo, hhi⟩ := hrel
  cases hn.symm.trans h.task
  obtain ⟨sp', hstep⟩ := memStep_heapStep h (show MemOp.OnHeap n (.brk n newBrk) from rfl) hr
  obtain rfl : sp₁' = sp' := some.inj (hn'.symm.trans hstep.after.task)
  refine ⟨_, hstep.after, hstep.gone page hlo hhi, ?_⟩
  refine eq_none_iff_forall_ne_some.mpr fun r hrec => ?_
  obtain hold | ⟨_, _, hop, _⟩ := hstep.records page r hrec
  · exact hok ⟨sp, hn, page, r, memStep_brk hn hr hn' ▸ hlo, hhi, hold, trivial⟩
  · cases hop

/-- The fault on it finds only the area, and maps a page of zeros. -/
theorem Untouched.readsZeros {page : Nat} (h : Untouched n page s) : ReadsZeros n page s := by
  obtain ⟨sp, ⟨hn, stack, heap, hl, _⟩, hleaf, hrec⟩ := h
  intro x hx
  refine ⟨userLoad_absent hn (hx ▸ hleaf), fun addr isWrite s' haddr hr => ?_⟩
  subst haddr
  obtain ⟨sp₁, vmm, c, hi, hf, rfl⟩ := pageFault_inv hr
  cases hi.symm.trans hn
  rcases handleFault_inv hf with ⟨_, _, hs, _⟩ | ⟨_, rfl, hcase⟩
  · cases hrec.symm.trans hs
  rcases hcase with ⟨hok, _⟩ | ⟨_, _, _, hp, _⟩ | ⟨area, hfind, _, hzero⟩
  · cases hok
  · obtain ⟨_, he, _⟩ := translateAddr_inv hp
    cases hleaf.symm.trans he
  rcases zeroFill_inv hzero with ⟨hok, _⟩ | ⟨_, f, c₁, ha, hm⟩
  · cases hok
  obtain ⟨writable, hflags⟩ := hl.flags area (hl.areas ▸ List.mem_of_find?_eq_some hfind)
  have hentry : c.leaf sp.root (x / 4096) = some ⟨f, area.flags⟩ := by
    rw [mapPage_leaf hm, if_pos hx]
  have hmem : c.mem = fill c₁.mem (frameAddr f) 4096 0 := by
    obtain ⟨_, _, hc⟩ := mapPage_eq hm
    rw [hc]
  have hload := userLoad_resident (Machine.put_getElem hn) hentry
  rw [hflags] at hload
  refine hload.trans ((if_pos rfl).trans (congrArg some ?_))
  show c.mem (frameAddr f + x % 4096) = 0
  rw [hmem]
  exact fill_in (by omega) (by omega)

end

/-- For a task that `load_flat` has made, as long as no lowered break passes a swapped page and
only pages in areas are evicted: a fault is handled only in an area, and a page that is released
reads as zeros at its next access. -/
theorem heap_released (s s₀ s₁ : Machine T) (bytes : List UInt8) (ops : List MemOp)
    (h : loadFlat s bytes = some s₀) (hon : ∀ op ∈ ops, op.OnHeap s.spaces.length)
    (hok : Along memStep (KeepsHeap s.spaces.length) s₀ ops)
    (hrun : exec memStep s₀ ops = some s₁) :
    (∀ addr isWrite s₂, pageFault s₁ s.spaces.length addr isWrite = some (true, s₂) →
      InArea s.spaces.length s₁ addr) ∧
    (∀ newBrk page s₂, memStep s₁ (.brk s.spaces.length newBrk) = some s₂ →
      ¬ ReleasesSwapped s.spaces.length s₁ (.brk s.spaces.length newBrk) →
      Released s.spaces.length page s₁ s₂ →
      ∀ later s₃, (∀ op ∈ later, op.OnHeap s.spaces.length) →
        Along memStep (fun t op => ¬ HandlesFault s.spaces.length page t op) s₂ later →
        exec memStep s₂ later = some s₃ → ReadsZeros s.spaces.length page s₃) := by
  obtain ⟨sp, hs, hnone⟩ := loadFlat_oneHeap h
  have h₀ : RecordsInside s.spaces.length s₀ :=
    ⟨sp, hs, fun p r hrec => by cases (hnone _).symm.trans hrec⟩
  have h₁ := exec_induction (I := RecordsInside s.spaces.length)
    (fun _ _ _ h hP hr => memStep_recordsInside h hP hr) h₀ (hok.and_forall hon) hrun
  refine ⟨fun addr isWrite s₂ hr => h₁.inArea hr, ?_⟩
  intro newBrk page s₂ hr hkeep hrel later s₃ honlater hlater hrun'
  obtain ⟨sp₁, hs₁, _⟩ := h₁
  exact (exec_induction (I := Untouched s.spaces.length page)
    (fun _ _ _ h hP hr => memStep_untouched h hP hr) (untouched_of_released hs₁ hr hkeep hrel)
    (hlater.and_forall honlater) hrun').readsZeros

/-- A heap page is stored to, given back and asked for again. -/
theorem heap_released_one_page : ∃ s₀ s₁ s₂ s₃ s₄, loadFlat smallMachine [0x90] = some s₀ ∧
    exec memStep s₀ [.brk 0 0x402000, .fault 0 0x401000 true, .store 0 0x401008 7] = some s₁ ∧
    userLoad s₁ 0 0x401008 = some 7 ∧ memStep s₁ (.brk 0 0x401000) = some s₂ ∧
    exec memStep s₂ [.brk 0 0x402000] = some s₃ ∧
    pageFault s₃ 0 0x401008 false = some (true, s₄) ∧ userLoad s₄ 0 0x401008 = some 0 := by
  have hrun : ∃ s₀ ∈ loadFlat smallMachine [0x90],
      Along memStep (KeepsHeap 0) s₀ [.brk 0 0x402000, .fault 0 0x401000 true, .store 0 0x401008 7] ∧
      ∃ s₁ ∈ exec memStep s₀ [.brk 0 0x402000, .fault 0 0x401000 true, .store 0 0x401008 7],
        userLoad s₁ 0 0x401008 = some 7 ∧ ¬ ReleasesSwapped 0 s₁ (.brk 0 0x401000) ∧
        s₁.spaces[0]?.map Space.brk = some 0x402000 ∧
        ∃ s₂ ∈ memStep s₁ (.brk 0 0x401000), s₂.spaces[0]?.map Space.brk = some 0x401000 ∧
          ∃ s₃ ∈ exec memStep s₂ [.brk 0 0x402000],
            (pageFault s₃ 0 0x401008 false).map Prod.fst = some true := by
    decide +kernel
  obtain ⟨s₀, h₀, hkept, s₁, h₁, hbyte, hfree, hbrk, s₂, h₂, hbrk', s₃, h₃, hfault⟩ := hrun
  obtain ⟨⟨_, s₄⟩, h₄, rfl⟩ := map_inv hfault
  have hrel : Released 0 0x401 s₁ s₂ := by
    obtain ⟨sp, hsp, hsp'⟩ := map_inv hbrk
    obtain ⟨sp', hn', hn''⟩ := map_inv hbrk'
    refine ⟨sp, sp', hsp, hn', ?_, ?_⟩
    · rw [hn'']
      decide
    · rw [hsp']
      decide
  have hlater : Along memStep (fun t op => ¬ HandlesFault 0 0x401 t op) s₂ [.brk 0 0x402000] :=
    ⟨fun ⟨_, _, _, hop, _⟩ => (nomatch hop), fun _ _ => trivial⟩
  have hzeros := (heap_released _ s₀ s₁ _ _ h₀ (by simp [MemOp.OnHeap, smallMachine, bootMachine])
    hkept h₁).2 _ 0x401 s₂ h₂ hfree hrel [.brk 0 0x402000] s₃
    (by simp [MemOp.OnHeap, smallMachine, bootMachine]) hlater h₃
  exact ⟨s₀, s₁, s₂, s₃, s₄, h₀, h₁, hbyte, h₂, h₃, h₄,
    (hzeros 0x401008 (by decide)).2 0x401008 false s₄ (by decide) h₄⟩

/-- The page is evicted before it is given back. A fault on it is handled although it is in no
area, and when it is asked for again it has the old byte. -/
theorem evicted_page_is_not_released : ∃ s₀ s₁ s₂, loadFlat smallMachine [0x90] = some s₀ ∧
    exec memStep s₀ [.brk 0 0x402000, .fault 0 0x401000 true, .store 0 0x401008 7,
      .evict 0 0x401000, .brk 0 0x401000] = some s₁ ∧
    (∃ s', pageFault s₁ 0 0x401008 false = some (true, s') ∧ ¬ InArea 0 s₁ 0x401008) ∧
    memStep s₁ (.brk 0 0x402000) = some s₂ ∧
    ∃ s', pageFault s₂ 0 0x401008 false = some (true, s') ∧ userLoad s' 0 0x401008 = some 7 := by
  have hrun : (exec memStep smallMachine [.load [0x90], .brk 0 0x402000, .fault 0 0x401000 true,
      .store 0 0x401008 7, .evict 0 0x401000, .brk 0 0x401000]).map (fun s =>
        (pageState s 0 0x401, (memStep s (.brk 0 0x402000)).map fun s' =>
          (pageState s' 0 0x401, s'.shared.swap.slotByte 0 8)))
      = some (some ⟨some (0, userFlags true), [⟨0x7FFFFFFEF000, 0x7FFFFFFFF000, userFlags true⟩,
          ⟨0x401000, 0x401000, userFlags true⟩], none, 0, some (some 35)⟩,
        some (some ⟨some (0, userFlags true), [⟨0x7FFFFFFEF000, 0x7FFFFFFFF000, userFlags true⟩,
          ⟨0x401000, 0x402000, userFlags true⟩], none, 0, some (some 35)⟩, 7)) := by
    decide +kernel
  obtain ⟨s₁, h, hobs⟩ := map_inv hrun
  obtain ⟨hst₁, hobs⟩ := Prod.mk.inj hobs
  obtain ⟨s₂, h₂, hobs⟩ := map_inv hobs
  obtain ⟨hst₂, hbyte⟩ := Prod.mk.inj hobs
  obtain ⟨s₀, h₀, h₁⟩ := exec_cons h
  have hswap := exec_swap smallMachine_fresh.swap h
  refine ⟨s₀, s₁, s₂, h₀, h₁, ?_, h₂, ?_⟩
  · obtain ⟨s', _, hfault, _⟩ := pageFault_swapped hswap 0x401008 false hst₁ (by decide)
    refine ⟨s', hfault, ?_⟩
    rintro ⟨sp, hsp, a, ha, hhas⟩
    rw [pageState, hsp, map_some, some.injEq] at hst₁
    injection hst₁ with _ hareas
    rw [hareas] at ha
    revert a
    decide
  · obtain ⟨s', sp', hfault, hsp', _, hleaf, hmem⟩ :=
      pageFault_swapped (memStep_swap hswap h₂) 0x401008 false hst₂ (by decide)
    refine ⟨s', hfault, ?_⟩
    rw [userLoad_resident hsp' hleaf, ← hbyte]
    exact (if_pos rfl).trans (congrArg some (hmem 8 (by decide)))

end AlaphiOS.Memory
