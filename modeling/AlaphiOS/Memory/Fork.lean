import AlaphiOS.Memory.SwapSafety

/-!
# What the child of a fork can read

`SYS_FORK` copies the areas and walks them: every page of an area that is
resident in the parent is mapped in the child, to the same frame. Nothing else
goes over. The swap records stay with the parent, and so do pages that lie in
no area, such as the code `load_flat` mapped.

`fork_child_reads` says exactly when the child reads the byte the parent would
have read: the page went over, or the child gets a page of zeros by demand
paging and zero is what the parent would have read. The condition is on the
state before the fork, down to the number of free frames: fork takes one frame
for the level-4 table and one for every other table, and the child's fault takes
the page and the tables that are missing on the way to it (`childTables`).
-/

namespace AlaphiOS.Memory

open Lib List Option

/-- The user program may read through an entry with these flags. -/
def PageTableFlags.readable (f : PageTableFlags) : Bool := f.present && f.userAccessible

/-- The pages of an area that `fork_cow` visits, with the flags it gives to
those that are resident. -/
def VmArea.forkWalk (a : VmArea) : List (Nat × PageTableFlags) :=
  (pageAddrs a.start a.end_).map fun addr => (addr / 4096, a.flags.readOnly)

/-- The pages of a task that `fork_cow` visits. -/
def Vmm.forkWalk (v : Vmm) : List (Nat × PageTableFlags) :=
  v.areas.flatMap VmArea.forkWalk

variable {T : PageTables}

/-- A read by the user program of task `i`: at once, or after the fault that
`handle_fault` resolves. There is never a second one: a page that is resident
and still cannot be read is refused. -/
def userRead (s : Machine T) (i addr : Nat) : Option UInt8 :=
  match userLoad s i addr with
  | some b => some b
  | none => do
    let (ok, s) ← pageFault s i addr false
    if ok then userLoad s i addr else none

/-- The pages among these that are resident. -/
def resident (c : Shared T) (root : Nat) (pages : List (Nat × PageTableFlags)) :
    List (Nat × PageTableFlags) :=
  pages.filter fun x => (c.leaf root x.1).isSome

/-- Is there a table with this index path in every address space already? -/
def kernelTable (c : Shared T) (root level x : Nat) : Bool :=
  T.kernelL4 (x / 512 ^ (3 - level)) && T.hasTable c.tables root level x

/-- The tables a page adds to those an address space has. -/
def addTables (c : Shared T) (root : Nat) (made : List (Nat × Nat)) (page : Nat) :
    List (Nat × Nat) :=
  made ++ ([3, 2, 1].map fun level => (level, page / 512 ^ level)).filter fun x =>
    !(kernelTable c root x.1 x.2 || made.contains x)

/-- The tables a new address space needs for these pages. -/
def childTables (c : Shared T) (root : Nat) (pages : List Nat) : List (Nat × Nat) :=
  pages.foldl (addTables c root) []

/-- The page is in the child's page table after the fork. -/
def Carried (c : Shared T) (sp : Space) (page : Nat) : Prop :=
  (c.leaf sp.root page).isSome ∧ (T.KernelPage page ∨ ∃ fl, (page, fl) ∈ sp.vmm.forkWalk)

/-- When the child of `sp` reads at `addr` the byte `b` that the parent reads,
with `free` the free frames before the fork. -/
def ChildReads (c : Shared T) (sp : Space) (free : List Nat) (addr : Nat) (b : UInt8) : Prop :=
  (Carried c sp (addr / 4096) ∧ (T.KernelPage (addr / 4096) ∨
    ∃ fl, (addr / 4096, fl) ∈ sp.vmm.forkWalk ∧ fl.readable)) ∨
  (¬ Carried c sp (addr / 4096) ∧
    ((c.leaf sp.root (addr / 4096) = none ∧ sp.vmm.swapped (frameAddr (addr / 4096)) = none)
      ∨ b = 0) ∧
    (∃ area, sp.vmm.areas.find? (fun a => a.has addr) = some area ∧ area.flags.readable) ∧
    2 + (childTables c sp.root ((resident c sp.root sp.vmm.forkWalk).map Prod.fst
      ++ [addr / 4096])).length ≤ free.length)

/-! ## Taking frames -/

section Frames

variable {c c' : Shared T} {free : List Nat} {root page : Nat} {e : Entry}

theorem allocate_free (h : FreeFrames c.mem c.frameAllocator free) :
    (free = [] ∧ c.allocate = some (none, c)) ∨
    ∃ f rest fa, free = f :: rest ∧ c.allocate = some (some f, { c with frameAllocator := fa }) ∧
      FreeFrames c.mem fa rest := by
  cases free with
  | nil =>
    refine .inl ⟨rfl, ?_⟩
    rw [Shared.allocate, h.allocate_nil]
    rfl
  | cons f rest =>
    obtain ⟨fa, ha, hrest⟩ := h.allocate_cons
    refine .inr ⟨f, rest, fa, rfl, ?_, hrest⟩
    rw [Shared.allocate, ha]
    rfl

/-- `map_to` gets its tables exactly when there are enough free frames. -/
theorem takeTables_free : ∀ (n : Nat) {c : Shared T} {free : List Nat},
    FreeFrames c.mem c.frameAllocator free →
      (free.length < n ∧ takeTables n c = none) ∨
      (n ≤ free.length ∧ ∃ fa, takeTables n c = some { c with frameAllocator := fa } ∧
        FreeFrames c.mem fa (free.drop n)) := by
  intro n
  induction n with
  | zero => exact fun {c} _ h => .inr ⟨Nat.zero_le _, c.frameAllocator, rfl, h⟩
  | succ n ih =>
    intro c free h
    rw [takeTables]
    rcases allocate_free h with ⟨rfl, ha⟩ | ⟨f, rest, fa, rfl, ha, hrest⟩
    · rw [ha]
      exact .inl ⟨Nat.succ_pos _, rfl⟩
    · rw [ha]
      rcases ih (c := { c with frameAllocator := fa }) hrest with
        ⟨hlt, hnone⟩ | ⟨hle, fa', hsome, hdrop⟩
      · exact .inl ⟨Nat.succ_lt_succ hlt, hnone⟩
      · exact .inr ⟨Nat.succ_le_succ hle, fa', hsome, hdrop⟩

/-- `map_page` on a page that is not in use. -/
theorem mapPage_free (h : FreeFrames c.mem c.frameAllocator free) (hl : c.leaf root page = none) :
    (free.length < T.missing c.tables root page ∧ mapPage c root page e = none) ∨
    (T.missing c.tables root page ≤ free.length ∧ ∃ fa, mapPage c root page e
      = some { c with frameAllocator := fa, tables := T.mapTo c.tables root page e } ∧
      FreeFrames c.mem fa (free.drop (T.missing c.tables root page))) := by
  rcases takeTables_free (T.missing c.tables root page) h with
    ⟨hlt, hnone⟩ | ⟨hle, fa, hsome, hdrop⟩
  · refine .inl ⟨hlt, ?_⟩
    rw [mapPage, hnone]
    rfl
  · refine .inr ⟨hle, fa, ?_, hdrop⟩
    have hl' : ({ c with frameAllocator := fa } : Shared T).leaf root page = none := hl
    unfold mapPage
    rw [hsome]
    simp only [bind_eq_bind, bind_some, hl']

/-- Demand paging on a page that is not in use: a frame of zeros, when there
are frames for it and for the tables. -/
theorem zeroFill_free (flags : PageTableFlags) (h : FreeFrames c.mem c.frameAllocator free)
    (hl : c.leaf root page = none) :
    (free.length < 1 + T.missing c.tables root page ∧ ∀ c', zeroFill c root page flags
      ≠ some (true, c')) ∨
    (1 + T.missing c.tables root page ≤ free.length ∧ ∃ f c', zeroFill c root page flags
      = some (true, c') ∧ c'.leaf root page = some ⟨f, flags⟩ ∧
      ∀ off < 4096, c'.mem (frameAddr f + off) = 0) := by
  unfold zeroFill
  rcases allocate_free h with ⟨rfl, ha⟩ | ⟨f, rest, fa, rfl, ha, hrest⟩
  · rw [ha]
    exact .inl ⟨Nat.add_pos_left Nat.one_pos _, fun c' => by simp⟩
  · rw [ha]
    -- the new frame is not on the list any more, so filling it leaves the list alone
    have hfill : FreeFrames (fill c.mem (frameAddr f) 4096 0) fa rest :=
      hrest.blit (nodup_cons.mp h.nodup).1 (Nat.le_refl _) (Nat.le_refl _)
    rcases mapPage_free (c := ⟨fill c.mem (frameAddr f) 4096 0, fa, c.swap, c.tables⟩)
      (e := ⟨f, flags⟩) hfill hl with ⟨hlt, hnone⟩ | ⟨hle, fa', hsome, _⟩
    · refine .inl ⟨by rw [length_cons]; dsimp only at hlt; omega, fun c' => ?_⟩
      show (mapPage _ root page ⟨f, flags⟩).bind _ ≠ _
      rw [hnone]
      simp
    · refine .inr ⟨by rw [length_cons]; dsimp only at hle; omega, f,
        ⟨fill c.mem (frameAddr f) 4096 0, fa', c.swap, T.mapTo c.tables root page ⟨f, flags⟩⟩, ?_,
        leaf_mapTo_self .., fun off hoff =>
          fill_in (Nat.le_add_right _ _) (Nat.add_lt_add_left hoff _)⟩
      show (mapPage _ root page ⟨f, flags⟩).bind _ = _
      rw [hsome]
      rfl

end Frames

/-! ## Reading -/

section Reads

variable {s : Machine T} {i addr : Nat} {sp : Space} {e : Entry} {b : UInt8} {free : List Nat}

section

variable (hi : s.spaces[i]? = some sp)

include hi

theorem userLoad_resident
    (hl : s.shared.leaf sp.root (addr / 4096) = some e) :
    userLoad s i addr = if e.flags.readable then
      some (s.shared.mem (frameAddr e.frame + addr % 4096)) else none := by
  rw [userLoad, userEntry, bind_of_eq hi, bind_of_eq hl]
  show Option.map _ (if e.flags.readable = true then some e else none) = _
  split <;> rfl

theorem userLoad_absent
    (hl : s.shared.leaf sp.root (addr / 4096) = none) : userLoad s i addr = none := by
  rw [userLoad, userEntry, bind_of_eq hi, hl]
  rfl

/-- No read fault on a resident page is resolved. -/
theorem pageFault_resident {s' : Machine T}
    (hl : s.shared.leaf sp.root (addr / 4096) = some e) :
    pageFault s i addr false ≠ some (true, s') := by
  intro hf
  obtain ⟨sp', v, c, hi', hh, _⟩ := pageFault_inv hf
  cases hi.symm.trans hi'
  have htr : translateAddr s.shared sp.root addr
      = some (frameAddr e.frame + addr % 4096) := by
    rw [translateAddr, hl]
    rfl
  rcases handleFault_inv hh with ⟨slot, flags, _, _, hs⟩ | ⟨_, _, hcase⟩
  · rcases swapInPage_inv hs with ⟨hok, _⟩ | ⟨_, f, c₁, mem, swap, ha, _, hm⟩
    · cases hok
    · obtain ⟨fa, rfl⟩ := allocate_eq ha
      have hnone : s.shared.leaf sp.root (addr / 4096) = none := (mapPage_eq hm).1
      cases hl.symm.trans hnone
  · rcases hcase with ⟨hok, _⟩ | ⟨_, _, _, _, hw, _⟩ | ⟨_, _, hnone, _⟩
    · cases hok
    · cases hw
    · cases htr.symm.trans hnone

/-- A resident page is read through its entry, or not at all. -/
theorem userRead_resident
    (hl : s.shared.leaf sp.root (addr / 4096) = some e) :
    userRead s i addr = if e.flags.readable then
      some (s.shared.mem (frameAddr e.frame + addr % 4096)) else none := by
  unfold userRead
  rw [userLoad_resident hi hl]
  by_cases hr : e.flags.readable = true
  · rw [if_pos hr]
  · rw [if_neg hr]
    dsimp only
    cases hf : pageFault s i addr false with
    | none => rfl
    | some r =>
      obtain ⟨ok, s'⟩ := r
      cases ok with
      | true => exact absurd hf (pageFault_resident hi hl)
      | false => rfl

/-- An absent page is read after a fault. -/
theorem userRead_absent
    (hl : s.shared.leaf sp.root (addr / 4096) = none) :
    userRead s i addr = some b ↔
      ∃ s', pageFault s i addr false = some (true, s') ∧ userLoad s' i addr = some b := by
  unfold userRead
  rw [userLoad_absent hi hl]
  dsimp only
  cases hf : pageFault s i addr false with
  | none => simp
  | some r =>
    obtain ⟨ok, s'⟩ := r
    cases ok with
    | true => simp
    | false => simp

end

theorem handleFault_untouched {v : Vmm} {c : Shared T} {root : Nat} {isWrite : Bool}
    (hl : c.leaf root (addr / 4096) = none) (hs : v.swapped (frameAddr (addr / 4096)) = none) :
    handleFault v c root addr isWrite = match v.areas.find? fun a => a.has addr with
      | none => some (false, v, c)
      | some area => (zeroFill c root (addr / 4096) area.flags).map fun r => (r.1, v, r.2) := by
  have htr : translateAddr c root addr = none := by
    rw [translateAddr, hl]
    rfl
  unfold handleFault
  cases v.areas.find? fun a => a.has addr with
  | none => simp only [hs]
  | some area => simp only [hs, htr]

theorem pageFault_untouched {isWrite : Bool} (hi : s.spaces[i]? = some sp)
    (hl : s.shared.leaf sp.root (addr / 4096) = none)
    (hs : sp.vmm.swapped (frameAddr (addr / 4096)) = none) :
    pageFault s i addr isWrite = match sp.vmm.areas.find? fun a => a.has addr with
      | none => some (false, s.put i sp s.shared)
      | some area => (zeroFill s.shared sp.root (addr / 4096) area.flags).map fun r =>
          (r.1, s.put i sp r.2) := by
  rw [pageFault, hi]
  show (handleFault sp.vmm s.shared sp.root addr isWrite).bind _ = _
  rw [handleFault_untouched hl hs]
  cases sp.vmm.areas.find? fun a => a.has addr with
  | none => rfl
  | some area =>
    dsimp only
    cases zeroFill s.shared sp.root (addr / 4096) area.flags <;> rfl

/-- A page that was never touched reads as zero, if it can be had at all. -/
theorem userRead_untouched (hfree : FreeFrames s.shared.mem s.shared.frameAllocator free)
    (hi : s.spaces[i]? = some sp) (hl : s.shared.leaf sp.root (addr / 4096) = none)
    (hs : sp.vmm.swapped (frameAddr (addr / 4096)) = none) :
    userRead s i addr = some b ↔ b = 0 ∧
      (∃ area, sp.vmm.areas.find? (fun a => a.has addr) = some area ∧ area.flags.readable) ∧
      1 + T.missing s.shared.tables sp.root (addr / 4096) ≤ free.length := by
  rw [userRead_absent hi hl, pageFault_untouched hi hl hs]
  cases ha : sp.vmm.areas.find? fun a => a.has addr with
  | none => simp
  | some area =>
    dsimp only
    -- A frame for the page and one for each table that is missing.
    rcases zeroFill_free area.flags hfree hl with ⟨hlt, hno⟩ | ⟨hle, f, c', hz, hl', hzero⟩
    · refine iff_of_false ?_ (fun h => by omega)
      rintro ⟨s', hf, _⟩
      obtain ⟨⟨ok, c⟩, hz, heq⟩ := map_inv hf
      injection heq with hok _
      subst hok
      exact hno c hz
    · -- the retried load finds the new entry, and a zero behind it
      rw [hz, map_some]
      have hload : userLoad (s.put i sp c') i addr = if area.flags.readable then some 0 else none := by
        rw [userLoad_resident (Machine.put_getElem hi) hl']
        exact congrArg (fun b => if area.flags.readable then some b else none)
          (hzero _ (Nat.mod_lt _ (by decide)))
      constructor
      · rintro ⟨s', hf, hb⟩
        injection some.inj hf with _ hs'
        subst hs'
        rw [hload] at hb
        split at hb
        next hr => exact ⟨(some.inj hb).symm, ⟨area, rfl, hr⟩, hle⟩
        · cases hb
      · rintro ⟨rfl, ⟨area', harea, hr⟩, _⟩
        cases harea
        exact ⟨_, rfl, by rw [hload, if_pos hr]⟩

end Reads

/-! ## The tables of a new address space -/

section Tables

variable {c c₀ : Shared T} {parent child page : Nat} {pages : List Nat} {st : T.State}

theorem mem_addTables {made : List (Nat × Nat)} {root page level x : Nat}
    (h₁ : 1 ≤ level) (h₃ : level ≤ 3) :
    (kernelTable c root level x || (addTables c root made page).contains (level, x))
      = ((kernelTable c root level x || made.contains (level, x))
        || decide (x = page / 512 ^ level)) := by
  have hlevel : level ∈ [3, 2, 1] := by
    simp only [mem_cons, not_mem_nil, or_false]
    omega
  rw [Bool.eq_iff_iff]
  simp only [addTables, contains_eq_mem, Bool.or_eq_true, decide_eq_true_eq, mem_append,
    mem_filter, List.mem_map, Prod.mk.injEq]
  constructor
  · rintro (hk | hm | ⟨⟨l, _, rfl, rfl⟩, _⟩)
    · exact .inl (.inl hk)
    · exact .inl (.inr hm)
    · exact .inr rfl
  · rintro ((hk | hm) | rfl)
    · exact .inl hk
    · exact .inr (.inl hm)
    -- A table that was there is not made again.
    · by_cases hold : (kernelTable c root level (page / 512 ^ level)
          || made.contains (level, page / 512 ^ level)) = true
      · simp only [contains_eq_mem, Bool.or_eq_true, decide_eq_true_eq] at hold
        exact hold.imp_right .inl
      · refine .inr (.inr ⟨⟨level, hlevel, rfl, rfl⟩, ?_⟩)
        rw [Bool.not_eq_true', ← Bool.not_eq_true]
        simpa only [contains_eq_mem] using hold

theorem childTables_append : childTables c₀ parent (pages ++ [page])
    = addTables c₀ parent (childTables c₀ parent pages) page := by
  rw [childTables, foldl_append, foldl_cons, foldl_nil, ← childTables]

/-- The tables of `child` are those of the kernel and the ones that these pages need. -/
def TablesFor (c₀ : Shared T) (parent child : Nat) (pages : List Nat) (st : T.State) : Prop :=
  ∀ level x, 1 ≤ level → level ≤ 3 → T.hasTable st child level x
    = (kernelTable c₀ parent level x || (childTables c₀ parent pages).contains (level, x))

theorem TablesFor.length_append (h : TablesFor c₀ parent child pages st) (page : Nat) :
    (childTables c₀ parent (pages ++ [page])).length
      = (childTables c₀ parent pages).length + T.missing st child page := by
  rw [childTables_append, addTables, List.length_append, List.filter_map, List.length_map,
    PageTableOps.missing]
  refine congrArg (fun l : List Nat => _ + l.length) (List.filter_congr fun level hlevel => ?_)
  have hbounds : 1 ≤ level ∧ level ≤ 3 := by
    simp only [List.mem_cons, List.not_mem_nil, or_false] at hlevel
    omega
  rw [h level _ hbounds.1 hbounds.2]
  rfl

theorem TablesFor.mapTo (h : TablesFor c₀ parent child pages st) (page : Nat) (e : Entry) :
    TablesFor c₀ parent child (pages ++ [page]) (T.mapTo st child page e) := by
  intro level x h₁ h₃
  rw [childTables_append, mem_addTables h₁ h₃, ← h level x h₁ h₃, T.hasTable_mapTo]
  simp [h₁, h₃]

/-- A new address space has the tables of the kernel. -/
theorem tablesFor_cloneKernel (c₀ : Shared T) (parent child : Nat) :
    TablesFor c₀ parent child [] (T.cloneKernel c₀.tables child) := by
  intro level x _ h₃
  rw [T.hasTable_cloneKernel _ _ _ _ _ h₃, kernelTable]
  cases hk : T.kernelL4 (x / 512 ^ (3 - level)) with
  | false => simp [childTables]
  | true =>
    have hsame : T.hasTable c₀.tables child level x = T.hasTable c₀.tables parent level x :=
      T.hasTable_kernel h₃ hk
    simp [childTables, hsame]

/-- The kernel half of a new address space is that of every other one. -/
theorem leaf_cloneKernel_kernel (hk : T.KernelPage page) (root : Nat) :
    T.leaf (T.cloneKernel st child) child page = T.leaf st root page := by
  rw [T.leaf_cloneKernel, if_neg (fun h => h.2 hk)]
  exact T.leaf_kernel hk

theorem leaf_cloneKernel_user (hk : ¬ T.KernelPage page) :
    T.leaf (T.cloneKernel st child) child page = none := by
  rw [T.leaf_cloneKernel, if_pos ⟨rfl, hk⟩]

end Tables

/-! ## The walk of `fork_cow` -/

section Walk

variable {c₀ c c' : Shared T} {parent child addr : Nat} {free : List Nat}
  {shares : List (Nat × PageTableFlags)} {fl : PageTableFlags}

/-- The state in the middle of a fork that began in `c₀`, with the pages
`shares` given to the child so far. -/
structure Forked (c₀ : Shared T) (parent child : Nat) (free : List Nat)
    (shares : List (Nat × PageTableFlags)) (c : Shared T) : Prop where
  mem : c.mem = c₀.mem
  enough : 1 + (childTables c₀ parent (shares.map Prod.fst)).length ≤ free.length
  frames : FreeFrames c.mem c.frameAllocator
    (free.drop (1 + (childTables c₀ parent (shares.map Prod.fst)).length))
  /-- The parent keeps its frames. -/
  parentFrames : ∀ page,
    (c.leaf parent page).map Entry.frame = (c₀.leaf parent page).map Entry.frame
  kernel : ∀ page, T.KernelPage page → c.leaf child page = c₀.leaf parent page
  shared : ∀ {page fl}, (page, fl) ∈ shares → ¬ T.KernelPage page ∧
    ∃ e, c₀.leaf parent page = some e ∧ c.leaf child page = some ⟨e.frame, fl⟩
  unshared : ∀ {page}, ¬ T.KernelPage page → (∀ fl, (page, fl) ∉ shares) → c.leaf child page = none
  tables : ∀ {level x}, 1 ≤ level → level ≤ 3 → T.hasTable c.tables child level x
    = (kernelTable c₀ parent level x
      || (childTables c₀ parent (shares.map Prod.fst)).contains (level, x))

/-- The tables missing for a page are the ones it adds. -/
theorem Forked.length_addTables (h : Forked c₀ parent child free shares c) (page : Nat) :
    (childTables c₀ parent (shares.map Prod.fst ++ [page])).length
      = (childTables c₀ parent (shares.map Prod.fst)).length + T.missing c.tables child page :=
  TablesFor.length_append (fun _ _ => h.tables) page

/-- After `clone_kernel_half`. -/
theorem forked_clone (hfree : FreeFrames c₀.mem c₀.frameAllocator free) (hp : parent ∉ free)
    (hc : cloneKernelHalf c₀ = some (child, c)) :
    parent ≠ child ∧ Forked c₀ parent child free [] c := by
  obtain ⟨c₁, ha, rfl⟩ := cloneKernelHalf_inv hc
  rcases allocate_free hfree with ⟨rfl, hno⟩ | ⟨f, rest, fa, rfl, hyes, hrest⟩
  · cases ha.symm.trans hno
  · cases ha.symm.trans hyes
    have hne : parent ≠ child := fun he => hp (he ▸ mem_cons_self)
    -- The fresh root has the kernel half of the parent and nothing else.
    refine ⟨hne, rfl, Nat.le_add_left _ _, hrest, fun page => ?_, fun page hk => ?_,
      nofun, fun hk _ => ?_, fun {level x} h₁ h₃ => ?_⟩
    · show (T.leaf (T.cloneKernel c₀.tables child) parent page).map _ = _
      rw [T.leaf_cloneKernel, if_neg (fun h => hne h.1)]
      rfl
    · exact leaf_cloneKernel_kernel hk parent
    · exact leaf_cloneKernel_user hk
    · exact tablesFor_cloneKernel c₀ parent child level x h₁ h₃

/-- A resident page is given to the child. -/
theorem Forked.give {page : Nat} {e₀ : Entry} (h : Forked c₀ parent child free shares c)
    (hne : parent ≠ child) (he₀ : c₀.leaf parent page = some e₀)
    (hm : mapPage { c with tables := T.updateFlags c.tables parent page fl } child page
      ⟨e₀.frame, fl⟩ = some c') :
    Forked c₀ parent child free (shares ++ [(page, fl)]) c' := by
  have hold : (T.leaf (T.updateFlags c.tables parent page fl) child page) = none := (mapPage_eq hm).1
  -- a kernel page would be in use in the child already
  have hk : ¬ T.KernelPage page := by
    intro hk
    rw [T.leaf_updateFlags, if_pos ⟨rfl, .inr hk⟩, Option.map_eq_none_iff] at hold
    exact absurd (he₀.symm.trans ((h.kernel page hk).symm.trans hold)) (by simp)
  have hfar : ∀ q, ¬ T.SameLeaf parent page child q := fun q hs => hs.2.elim (fun he => hne he.symm) hk
  have hchild : ∀ q, q ≠ page → c'.leaf child q = c.leaf child q := by
    intro q hq
    obtain ⟨_, fa, rfl⟩ := mapPage_eq hm
    exact (leaf_mapTo_of_not (fun hs => hq hs.1)).trans (leaf_updateFlags_of_not (hfar q))
  rw [leaf_updateFlags_of_not (hfar page)] at hold
  have hmissing : T.missing (T.updateFlags c.tables parent page fl) child page
      = T.missing c.tables child page := by
    unfold PageTableOps.missing
    simp only [T.hasTable_updateFlags]
  have hlen := h.length_addTables page
  have henough := h.enough
  rcases mapPage_free (c := { c with tables := T.updateFlags c.tables parent page fl })
    (e := ⟨e₀.frame, fl⟩) h.frames (mapPage_eq hm).1 with ⟨_, hno⟩ | ⟨hle, fa, hyes, hdrop⟩
  · cases hm.symm.trans hno
  · cases hm.symm.trans hyes
    rw [show T.missing ({ c with tables := T.updateFlags c.tables parent page fl } :
      Shared T).tables child page = T.missing c.tables child page from hmissing] at hle hdrop
    rw [length_drop] at hle
    rw [drop_drop] at hdrop
    have hmap : (shares ++ [(page, fl)]).map Prod.fst = shares.map Prod.fst ++ [page] := by simp
    exact
      { mem := h.mem
        enough := by
          rw [hmap, hlen]
          omega
        frames := by
          rw [hmap, hlen, ← Nat.add_assoc]
          exact hdrop
        parentFrames := by
          intro q
          have hmap : T.leaf (T.mapTo (T.updateFlags c.tables parent page fl) child page
              ⟨e₀.frame, fl⟩) parent q = T.leaf (T.updateFlags c.tables parent page fl) parent q :=
            leaf_mapTo_of_not (fun hs => hs.2.elim hne hk)
          rw [← h.parentFrames q]
          show Option.map Entry.frame (T.leaf _ parent q) = _
          rw [hmap, T.leaf_updateFlags]
          split
          · rw [Option.map_map]; rfl
          · rfl
        kernel := fun q hq => (hchild q (fun he => hk (he ▸ hq))).trans (h.kernel q hq)
        shared := by
          intro q fl' hmem
          rcases mem_append.mp hmem with hmem | hmem
          · obtain ⟨hkq, e, he, hl⟩ := h.shared hmem
            have hq : q ≠ page := fun hq => absurd (hold.symm.trans (hq ▸ hl)) (by simp)
            exact ⟨hkq, e, he, (hchild q hq).trans hl⟩
          · obtain ⟨rfl, rfl⟩ := Prod.mk.inj (mem_singleton.mp hmem)
            exact ⟨hk, e₀, he₀, leaf_mapTo_self ..⟩
        unshared := by
          intro q hkq hout
          have hq : q ≠ page := fun hq => hout fl (mem_append_right _ (by rw [hq]; simp))
          exact (hchild q hq).trans
            (h.unshared hkq fun fl' hmem => hout fl' (mem_append_left _ hmem))
        tables := by
          intro level x h₁ h₃
          have htables : TablesFor c₀ parent child (shares.map Prod.fst)
              (T.updateFlags c.tables parent page fl) := fun level x h₁ h₃ =>
            (T.hasTable_updateFlags ..).trans (h.tables h₁ h₃)
          rw [hmap]
          exact htables.mapTo page _ level x h₁ h₃ }

/-- One round of the walk. -/
theorem Forked.sharePage (h : Forked c₀ parent child free shares c) (hne : parent ≠ child)
    (hr : sharePage parent child fl addr c = some c') :
    Forked c₀ parent child free
      (if (c₀.leaf parent (addr / 4096)).isSome then shares ++ [(addr / 4096, fl)] else shares)
      c' := by
  unfold Memory.sharePage at hr
  have hframes := h.parentFrames (addr / 4096)
  split at hr
  next phys hphys =>
    obtain ⟨e, he, _, hdiv⟩ := translateAddr_inv hphys
    rw [he] at hframes
    obtain ⟨e₀, he₀, hfr⟩ := map_inv hframes.symm
    obtain ⟨c₁, hremap, hm⟩ := bind_inv hr
    obtain ⟨_, rfl⟩ := remapFlags_inv hremap
    rw [hdiv, ← hfr] at hm
    rw [he₀, isSome_some, if_pos rfl]
    exact h.give hne he₀ hm
  next hnone =>
    cases hr
    rw [map_eq_none_iff.mp hnone, map_none] at hframes
    rw [map_eq_none_iff.mp hframes.symm]
    exact h

theorem resident_append {root : Nat} {l l' : List (Nat × PageTableFlags)} :
    resident c root (l ++ l') = resident c root l ++ resident c root l' :=
  filter_append ..

/-- One area. -/
theorem Forked.area {a : VmArea} {pages : List (Nat × PageTableFlags)}
    (h : Forked c₀ parent child free (resident c₀ parent pages) c) (hne : parent ≠ child)
    (hr : forPages (Memory.sharePage parent child a.flags.readOnly) a.start a.end_ c = some c') :
    Forked c₀ parent child free (resident c₀ parent (pages ++ a.forkWalk)) c' := by
  rw [resident_append]
  refine foldlM_prefix_rule (I := fun addrs c => Forked c₀ parent child free
    (resident c₀ parent pages ++ resident c₀ parent
      (addrs.map fun addr => (addr / 4096, a.flags.readOnly))) c)
    (fun addrs c addr c' h hr => ?_) (by simpa [resident] using h) (forPages_foldlM hr)
  have h' := h.sharePage hne hr
  rw [map_append, resident_append, ← append_assoc]
  split at h'
  next hsome => simpa [resident, hsome] using h'
  next hnone => simpa [resident, hnone] using h'

/-- All areas. -/
theorem forkCow_forked {v v' : Vmm} (h : Forked c₀ parent child free [] c) (hne : parent ≠ child)
    (hr : forkCow v c parent child = some (v', c')) :
    v' = ⟨v.areas, fun _ => none⟩ ∧
      Forked c₀ parent child free (resident c₀ parent v.forkWalk) c' := by
  obtain ⟨c₁, hrun, hr⟩ := bind_inv hr
  injection some.inj hr with hv hc
  subst hc
  refine ⟨hv.symm, ?_⟩
  refine foldlM_prefix_rule (I := fun areas c => Forked c₀ parent child free
    (resident c₀ parent (areas.flatMap VmArea.forkWalk)) c)
    (fun areas c a c' h hr => ?_) h hrun
  have h' := h.area hne hr
  rwa [flatMap_append, flatMap_singleton]

end Walk

/-! ## What the child reads -/

section Child

variable {s s' : Machine T} {i addr child : Nat} {sp : Space} {b : UInt8} {free : List Nat}
  {c : Shared T}

/-- What `SYS_FORK` leaves behind. -/
theorem sysFork_forked (hfree : FreeFrames s.shared.mem s.shared.frameAllocator free)
    (hi : s.spaces[i]? = some sp) (hroot : sp.root ∉ free) (hfork : sysFork s i = some s') :
    ∃ child, s'.spaces[s.spaces.length]?
        = some ⟨child, ⟨sp.vmm.areas, fun _ => none⟩, sp.heapStart, sp.brk⟩ ∧
      Forked s.shared sp.root child free (resident s.shared sp.root sp.vmm.forkWalk) s'.shared := by
  obtain ⟨sp', hi', hrun⟩ := bind_inv hfork
  cases hi.symm.trans hi'
  obtain ⟨⟨child, c₁⟩, hc, hrun⟩ := bind_inv hrun
  obtain ⟨⟨v, c₂⟩, hcow, hrun⟩ := bind_inv hrun
  cases hrun
  obtain ⟨hne, h₁⟩ := forked_clone hfree hroot hc
  obtain ⟨rfl, h₂⟩ := forkCow_forked h₁ hne hcow
  exact ⟨child, by simp, h₂⟩

/-- A page that went over is in the child's table, with the parent's frame. -/
theorem Forked.leaf_carried {page : Nat}
    (h : Forked s.shared sp.root child free (resident s.shared sp.root sp.vmm.forkWalk) c)
    (hcar : Carried s.shared sp page) :
    ∃ e fl, s.shared.leaf sp.root page = some e ∧ c.leaf child page = some ⟨e.frame, fl⟩ ∧
      (e.flags.readable → (fl.readable ↔ T.KernelPage page ∨
        ∃ fl', (page, fl') ∈ sp.vmm.forkWalk ∧ fl'.readable)) := by
  obtain ⟨hres, hcase⟩ := hcar
  obtain ⟨e, he⟩ := isSome_iff_exists.mp hres
  rcases hcase with hk | ⟨fl, hwalk⟩
  · exact ⟨e, e.flags, he, (h.kernel page hk).trans he, fun hr => iff_of_true hr (.inl hk)⟩
  · have hshared : ∀ fl, (page, fl) ∈ sp.vmm.forkWalk →
        (page, fl) ∈ resident s.shared sp.root sp.vmm.forkWalk := fun fl hmem =>
      mem_filter.mpr ⟨hmem, hres⟩
    obtain ⟨hk, e', he', hl⟩ := h.shared (hshared fl hwalk)
    cases he.symm.trans he'
    refine ⟨e, fl, he, hl, fun _ => ⟨fun hr => .inr ⟨fl, hwalk, hr⟩, ?_⟩⟩
    rintro (hk' | ⟨fl', hwalk', hr⟩)
    · exact absurd hk' hk
    · -- the walk met the page once, or `map_page` would have stopped it
      obtain ⟨_, _, _, hl'⟩ := h.shared (hshared fl' hwalk')
      injection some.inj (hl.symm.trans hl') with _ hfl
      exact hfl ▸ hr

/-- Any other page is not. -/
theorem Forked.leaf_not_carried {page : Nat}
    (h : Forked s.shared sp.root child free (resident s.shared sp.root sp.vmm.forkWalk) c)
    (hcar : ¬ Carried s.shared sp page) : c.leaf child page = none := by
  by_cases hk : T.KernelPage page
  · rw [h.kernel page hk, ← not_isSome_iff_eq_none]
    exact fun hres => hcar ⟨hres, .inl hk⟩
  · refine h.unshared hk (fun fl hmem => ?_)
    obtain ⟨hwalk, hres⟩ := mem_filter.mp hmem
    exact hcar ⟨hres, .inr ⟨fl, hwalk⟩⟩

/-- **What the child of a fork reads.** For every parent and every address it
can read just before `SYS_FORK`, the child reads the same byte exactly when
`ChildReads` holds before the fork. -/
theorem fork_child_reads (hfree : FreeFrames s.shared.mem s.shared.frameAllocator free)
    (hi : s.spaces[i]? = some sp) (hroot : sp.root ∉ free) (hfork : sysFork s i = some s')
    (hread : userRead s i addr = some b) :
    userRead s' s.spaces.length addr = some b ↔ ChildReads s.shared sp free addr b := by
  obtain ⟨child, hchild, h⟩ := sysFork_forked hfree hi hroot hfork
  unfold ChildReads
  -- A page that was carried over is read from the shared frame, any other as an untouched one.
  by_cases hcar : Carried s.shared sp (addr / 4096)
  · obtain ⟨e, fl, he, hl, hiff⟩ := h.leaf_carried hcar
    rw [userRead_resident hi he] at hread
    split at hread
    next hr =>
      rw [userRead_resident hchild hl, h.mem, ← some.inj hread, ← hiff hr]
      simp [hcar]
    · cases hread
  · have hl := h.leaf_not_carried hcar
    have hzero : (s.shared.leaf sp.root (addr / 4096) = none ∧
        sp.vmm.swapped (frameAddr (addr / 4096)) = none ∨ b = 0) ↔ b = 0 := by
      refine ⟨fun hcase => hcase.elim (fun hun => ?_) id, .inr⟩
      exact ((userRead_untouched hfree hi hun.1 hun.2).mp hread).1
    -- The child needs a frame for it, out of those that the fork has left.
    have hlen := h.length_addTables (addr / 4096)
    have henough := h.enough
    rw [userRead_untouched h.frames hchild hl rfl, length_drop, hzero, hlen]
    simp only [hcar, false_and, false_or, not_false_eq_true, true_and]
    refine and_congr_right fun _ => and_congr_right fun _ => ?_
    omega

/-- A program writes to its stack and forks: the child reads the byte. -/
theorem fork_child_reads_stack : ∃ s s', exec memStep smallMachine [.load [0x90],
      .fault 0 0x7FFFFFFFE000 true, .store 0 0x7FFFFFFFE008 7] = some s ∧
    sysFork s 0 = some s' ∧ userRead s' s.spaces.length 0x7FFFFFFFE008 = some 7 := by
  have hfacts : ∃ s ∈ exec memStep smallMachine [.load [0x90], .fault 0 0x7FFFFFFFE000 true,
      .store 0 0x7FFFFFFFE008 7], userRead s 0 0x7FFFFFFFE008 = some 7 ∧ ∃ sp ∈ s.spaces[0]?,
      (s.shared.leaf sp.root 0x7FFFFFFFE).isSome ∧
      (0x7FFFFFFFE, userFlags false) ∈ sp.vmm.forkWalk ∧ (sysFork s 0).isSome := by
    decide +kernel
  obtain ⟨s, hs, hread, sp, hsp, hres, hmem, hfork⟩ := hfacts
  obtain ⟨s', hs'⟩ := isSome_iff_exists.mp hfork
  obtain ⟨free, hsound⟩ := exec_frameInv anyPolicy_forks smallMachine_frameInv
    (by simp [Along, UnmapsExclusive, admits_anyPolicy]) hs
  have hroot : sp.root ∉ free :=
    hsound.heldFree (mem_map_of_mem (mem_of_getElem? hsp))
  refine ⟨s, s', hs, hs', (fork_child_reads hsound.frames hsp hroot hs' hread).mpr ?_⟩
  exact .inl ⟨⟨hres, .inr ⟨_, hmem⟩⟩, .inr ⟨_, hmem, rfl⟩⟩

/-- A program has written to its stack, the page is evicted, and the program forks. The parent
reads its byte back; the child has no record of the page and reads zero. -/
theorem fork_child_misses_swapped : ∃ s s', exec memStep smallMachine [.load [0x90],
      .fault 0 0x7FFFFFFFE000 true, .store 0 0x7FFFFFFFE008 7, .evict 0 0x7FFFFFFFE000] = some s ∧
    sysFork s 0 = some s' ∧ userRead s 0 0x7FFFFFFFE008 = some 7 ∧
    userRead s' s.spaces.length 0x7FFFFFFFE008 = some 0 := by
  have hrun : (exec memStep smallMachine [.load [0x90], .fault 0 0x7FFFFFFFE000 true,
      .store 0 0x7FFFFFFFE008 7, .evict 0 0x7FFFFFFFE000]).map (fun s =>
        (pageState s 0 0x7FFFFFFFE, s.shared.swap.slotByte 0 8, userLoad s 0 0x7FFFFFFFE008,
          (sysFork s 0).map fun s' => userRead s' s.spaces.length 0x7FFFFFFFE008))
      = some (some ⟨some (0, userFlags true), [⟨0x7FFFFFFEF000, 0x7FFFFFFFF000, userFlags true⟩],
        none, 0, some (some 35)⟩, 7, none, some (some 0)) := by
    decide +kernel
  obtain ⟨s, hs, hobs⟩ := map_inv hrun
  obtain ⟨hst, hobs⟩ := Prod.mk.inj hobs
  obtain ⟨hbyte, hobs⟩ := Prod.mk.inj hobs
  obtain ⟨habsent, hchild⟩ := Prod.mk.inj hobs
  obtain ⟨s', hs', hzero⟩ := map_inv hchild
  refine ⟨s, s', hs, hs', ?_, hzero⟩
  -- the parent's fault brings the page back from its slot
  obtain ⟨t, sp, hfault, hsp, _, hleaf, hmem⟩ :=
    pageFault_swapped (exec_swap smallMachine_fresh.swap hs) 0x7FFFFFFFE008 false hst (by decide)
  have hload : userLoad t 0 0x7FFFFFFFE008 = some 7 := by
    rw [userLoad_resident hsp hleaf, ← hbyte]
    exact (if_pos rfl).trans (congrArg some (hmem 8 (by decide)))
  rw [userRead, habsent]
  dsimp only
  rw [hfault]
  exact hload

end Child

end AlaphiOS.Memory
