import AlaphiOS.Memory.Areas

/-!
# What `mprotect` changes

`Vmm::mprotect` on its own, on any list of areas: not only those that `load_flat` and `SYS_BRK`
build, and with any length, where the syscall rounds to pages.

`mprotect_cases` says what an accepted call does: the first area that has the address is
replaced by up to three, and a page loop runs over the range. What is to be added is that these
are the same range. Since the areas are disjoint, an area is determined by an address in it
(`flagsAt_eq_some`), so what the splice does can be read off address by address
(`has_protect`); the loop visits the pages of the range and no others (`forPages_leaf`), and it
returns, because the area ends before the virtual addresses do.
-/

namespace AlaphiOS.Memory

open Lib List

variable {T : PageTables}

/-- A nonempty run of pages, all at virtual addresses. -/
structure VmArea.Proper (a : VmArea) : Prop where
  nonempty : a.start < a.end_
  pages : a.start % 4096 = 0 ∧ a.end_ % 4096 = 0
  addresses : ∀ x, a.start ≤ x → x ≤ a.end_ → Canonical x

/-- No address is in two of the areas. -/
def DisjointAreas (areas : List VmArea) : Prop :=
  areas.Pairwise fun a b => ∀ x, ¬ (a.has x = true ∧ b.has x = true)

/-- The flags of an address: those of the area that has it. -/
def flagsAt (areas : List VmArea) (x : Nat) : Option PageTableFlags :=
  (areas.find? fun a => a.has x).map VmArea.flags

section

variable {areas before after : List VmArea} {a area : VmArea} {x addr end_ : Nat}
  {flags f : PageTableFlags}

/-! ## The areas -/

/-- In disjoint areas the first area that has an address is the only one. -/
theorem find_has (h : DisjointAreas areas) :
    areas.find? (fun a => a.has x) = some area ↔ area ∈ areas ∧ area.has x = true := by
  constructor
  · intro hf
    have hx := find?_some hf
    exact ⟨mem_of_find?_eq_some hf, hx⟩
  · rintro ⟨hmem, hx⟩
    obtain ⟨before, after, rfl⟩ := append_of_mem hmem
    refine find?_eq_some_iff_append.mpr ⟨hx, before, after, rfl, fun a ha => ?_⟩
    have hno := (pairwise_append.mp h).2.2 a ha area mem_cons_self x
    simpa [hx] using hno

theorem flagsAt_eq_some (h : DisjointAreas areas) :
    flagsAt areas x = some f ↔ ∃ a ∈ areas, a.has x = true ∧ a.flags = f := by
  unfold flagsAt
  simp only [Option.map_eq_some_iff, find_has h, and_assoc]

/-- Address by address: the range has the new flags, the rest of the area the old ones. -/
theorem has_protect (hhas : area.has addr = true) (hlt : addr < end_) (hle : end_ ≤ area.end_) :
    (∃ a ∈ area.protect addr end_ flags, a.has x = true ∧ a.flags = f) ↔
      area.has x = true ∧ (if addr ≤ x ∧ x < end_ then flags else area.flags) = f := by
  obtain ⟨hlo, _⟩ := has_iff.mp hhas
  constructor
  · rintro ⟨a, ha, hx, rfl⟩
    rw [has_iff] at hx ⊢
    obtain ⟨_, rfl⟩ | rfl | ⟨_, rfl⟩ := mem_protect_iff.mp ha
    · dsimp only at hx ⊢
      exact ⟨by omega, if_neg (by omega)⟩
    · dsimp only at hx ⊢
      exact ⟨by omega, if_pos hx⟩
    · dsimp only at hx ⊢
      exact ⟨by omega, if_neg (by omega)⟩
  · rintro ⟨hx, rfl⟩
    rw [has_iff] at hx
    -- below the range, in it or above it
    by_cases hbelow : x < addr
    · refine ⟨_, mem_protect_iff.mpr (.inl ⟨by omega, rfl⟩), has_iff.mpr ⟨hx.1, hbelow⟩, ?_⟩
      rw [if_neg (by omega)]
    · by_cases habove : end_ ≤ x
      · refine ⟨_, mem_protect_iff.mpr (.inr (.inr ⟨by omega, rfl⟩)),
          has_iff.mpr ⟨habove, hx.2⟩, ?_⟩
        rw [if_neg (by omega)]
      · have hin : addr ≤ x ∧ x < end_ := ⟨by omega, by omega⟩
        refine ⟨_, mem_protect_iff.mpr (.inr (.inl rfl)), has_iff.mpr hin, ?_⟩
        rw [if_pos hin]

/-- The areas that replace an area have its addresses. -/
theorem has_protect_iff (hhas : area.has addr = true) (hlt : addr < end_)
    (hle : end_ ≤ area.end_) :
    (∃ a ∈ area.protect addr end_ flags, a.has x = true) ↔ area.has x = true := by
  constructor
  · rintro ⟨a, ha, hx⟩
    exact ((has_protect hhas hlt hle).mp ⟨a, ha, hx, rfl⟩).1
  · intro hx
    obtain ⟨a, ha, hax, _⟩ : ∃ a ∈ area.protect addr end_ flags, a.has x = true ∧ a.flags = _ :=
      (has_protect hhas hlt hle).mpr ⟨hx, rfl⟩
    exact ⟨a, ha, hax⟩

section Splice

variable (hhas : area.has addr = true) (hlt : addr < end_) (hle : end_ ≤ area.end_)

include hhas hlt hle

/-- The areas after the splice have the addresses of those before. -/
theorem union_splice :
    (∃ a ∈ before ++ area.protect addr end_ flags ++ after, a.has x = true) ↔
      ∃ a ∈ before ++ area :: after, a.has x = true := by
  simp only [mem_append, mem_cons, or_and_right, exists_or, exists_eq_left,
    has_protect_iff hhas hlt hle, or_assoc]

theorem disjoint_splice (h : DisjointAreas (before ++ area :: after)) :
    DisjointAreas (before ++ area.protect addr end_ flags ++ after) := by
  obtain ⟨hbefore, hcons, hcross⟩ := pairwise_append.mp h
  obtain ⟨harea, hafter⟩ := pairwise_cons.mp hcons
  have hsub : ∀ {a x}, a ∈ area.protect addr end_ flags → a.has x = true → area.has x = true :=
    fun ha hx => (has_protect_iff hhas hlt hle).mp ⟨_, ha, hx⟩
  have hpieces : DisjointAreas (area.protect addr end_ flags) := by
    refine (protect_tiles hhas hlt hle).pairwise.imp fun hab x => ?_
    rw [has_iff, has_iff]
    omega
  refine pairwise_append.mpr ⟨pairwise_append.mpr ⟨hbefore, hpieces, ?_⟩, hafter, ?_⟩
  · rintro a ha b hb x ⟨hax, hbx⟩
    exact hcross a ha area mem_cons_self x ⟨hax, hsub hb hbx⟩
  · rintro a ha b hb x ⟨hax, hbx⟩
    rcases mem_append.mp ha with ha | ha
    · exact hcross a ha b (mem_cons_of_mem _ hb) x ⟨hax, hbx⟩
    · exact harea b hb x ⟨hsub ha hax, hbx⟩

/-- The range has the new flags, and every other address those it had. -/
theorem flagsAt_splice (h : DisjointAreas (before ++ area :: after)) :
    flagsAt (before ++ area.protect addr end_ flags ++ after) x
      = if addr ≤ x ∧ x < end_ then some flags else flagsAt (before ++ area :: after) x := by
  have hdisj : DisjointAreas (before ++ area.protect addr end_ flags ++ after) :=
    disjoint_splice hhas hlt hle h
  have hnew := fun f => flagsAt_eq_some (x := x) (f := f) hdisj
  by_cases hin : addr ≤ x ∧ x < end_
  · rw [if_pos hin, hnew]
    refine ⟨⟨addr, end_, flags⟩, ?_, has_iff.mpr hin, rfl⟩
    exact mem_append_left _ (mem_append_right _ (mem_protect_iff.mpr (.inr (.inl rfl))))
  · rw [if_neg hin]
    ext f
    rw [hnew, flagsAt_eq_some h]
    simp only [mem_append, mem_cons, or_and_right, exists_or, exists_eq_left, or_assoc,
      has_protect hhas hlt hle, if_neg hin]

end Splice

/-! ## The page loop -/

variable {c c' : Shared T} {root root' p : Nat}

/-- The entry of a page as `mprotect` leaves it, seen from some address space. -/
def protectEntry (T : PageTables) (root : Nat) (flags : PageTableFlags) (root' p : Nat) :
    Option Entry → Option Entry :=
  if root' = root ∨ T.KernelPage p then Option.map fun e => { e with flags := flags } else id

theorem protectPage_entries (h : protectPage root flags addr c = some c') :
    c' = { c with tables := c'.tables } ∧ ∀ root' p, c'.leaf root' p
      = if p = addr / 4096 then protectEntry T root flags root' p (c.leaf root' p)
        else c.leaf root' p := by
  unfold protectPage at h
  split at h
  · obtain ⟨_, rfl⟩ := remapFlags_inv h
    refine ⟨rfl, fun root' p => ?_⟩
    have hleaf := T.leaf_updateFlags c.tables root (addr / 4096) flags root' p
    unfold protectEntry
    by_cases hp : p = addr / 4096
    · subst hp
      rw [if_pos rfl]
      by_cases hr : root' = root ∨ T.KernelPage (addr / 4096)
      · rw [if_pos hr]
        exact hleaf.trans (if_pos ⟨rfl, hr⟩)
      · rw [if_neg hr]
        exact hleaf.trans (if_neg fun h => hr h.2)
    · rw [if_neg hp]
      exact hleaf.trans (if_neg fun h => hp h.1)
  next hnone =>
    cases h
    have hleaf := Option.map_eq_none_iff.mp hnone
    refine ⟨rfl, fun root' p => ?_⟩
    unfold protectEntry
    split
    next hp =>
      split
      -- seen from another address space, a shared page is not there either
      next hr =>
        have hleaf' : c.leaf root' p = none := by
          subst hp
          rcases hr with rfl | hk
          · exact hleaf
          · exact (T.leaf_kernel hk).trans hleaf
        rw [hleaf']
        rfl
      · rfl
    · rfl

theorem protectPage_isSome (root addr : Nat) (flags : PageTableFlags) (c : Shared T) :
    (protectPage root flags addr c).isSome := by
  unfold protectPage
  split
  next phys hphys =>
    obtain ⟨e, he, _⟩ := translateAddr_inv hphys
    rw [remapFlags, he]
    rfl
  · rfl

/-- The loop sets the flags of the pages that begin in the range, and changes nothing else. -/
theorem protectPages_entries (haddr : addr % 4096 = 0) (hle : addr ≤ end_)
    (h : forPages (protectPage root flags) addr end_ c = some c') :
    c' = { c with tables := c'.tables } ∧ ∀ root' p, c'.leaf root' p
      = if addr ≤ frameAddr p ∧ frameAddr p < end_
        then protectEntry T root flags root' p (c.leaf root' p) else c.leaf root' p := by
  refine ⟨?_, fun root' p => ?_⟩
  · obtain ⟨_, _, hI⟩ := forPages_rule (I := fun _ c₁ => c₁ = { c with tables := c₁.tables })
      (fun a c₁ c₂ _ hI hbody => by
        have heq := (protectPage_entries hbody).1
        rw [heq, hI]) rfl h
    exact hI
  · exact forPages_leaf (g := protectEntry T root flags root')
      (fun _ _ _ hbody p => (protectPage_entries hbody).2 root' p) haddr hle h p

/-- In an area that has the range the loop does not run out of virtual addresses. -/
theorem protectPages_isSome (haddr : addr % 4096 = 0) (ha : area.Proper) (hlo : area.start ≤ addr)
    (hle : end_ ≤ area.end_) (c : Shared T) :
    (forPages (protectPage root flags) addr end_ c).isSome := by
  refine forPages_isSome (fun a c => protectPage_isSome root a flags c) (fun a hge hlt hmod => ?_) c
  have := ha.pages
  exact ha.addresses _ (by omega) (by omega)

end

/-! ## The call -/

/-- The call returns: the page loop runs only where an area has its whole range. -/
theorem mprotect_isSome {v : Vmm} {c : Shared T} {root addr len : Nat} {flags : PageTableFlags}
    (hareas : ∀ a ∈ v.areas, a.has addr = true → a.Proper) (haddr : addr % 4096 = 0)
    (hsum : virtAdd addr len = some (addr + len)) :
    (mprotect v c root addr len flags).isSome := by
  unfold mprotect
  rw [bind_of_eq hsum]
  split
  · rfl
  next idx hidx =>
    obtain ⟨hlt, hhas, _⟩ := findIdx?_eq_some_iff_getElem.mp hidx
    rw [bind_of_eq (getElem?_eq_getElem hlt)]
    split
    · rfl
    next hle =>
      have hsome : (forPages (protectPage root flags) addr (addr + len) c).isSome :=
        protectPages_isSome haddr (hareas _ (getElem_mem hlt) hhas) (has_iff.mp hhas).1
          (Nat.le_of_not_lt hle) c
      obtain ⟨c', hloop⟩ := Option.isSome_iff_exists.mp hsome
      rw [hloop]
      rfl

/-- What an accepted call has done to areas and pages. -/
structure Protects (addr len : Nat) (flags : PageTableFlags) (root : Nat) (v v' : Vmm)
    (c c' : Shared T) : Prop where
  disjoint : DisjointAreas v'.areas
  nonempty : ∀ a ∈ v'.areas, a.start < a.end_
  union : ∀ x, (∃ a ∈ v'.areas, a.has x = true) ↔ ∃ a ∈ v.areas, a.has x = true
  areaFlags : ∀ x, flagsAt v'.areas x
    = if addr ≤ x ∧ x < addr + len then some flags else flagsAt v.areas x
  swapped : v'.swapped = v.swapped
  pages : ∀ root' p, c'.leaf root' p
    = if addr ≤ frameAddr p ∧ frameAddr p < addr + len
      then protectEntry T root flags root' p (c.leaf root' p) else c.leaf root' p
  rest : c' = { c with tables := c'.tables }

/-- **`mprotect` changes exactly the range.** On disjoint nonempty areas of whole pages, with a
page-aligned address and a length that is not 0: the call returns, and succeeds if and only if
one area has the whole range. A refused call changes nothing; an accepted one sets the flags of
the addresses of the range and of the entries of its pages, and leaves all others. -/
theorem mprotect_exact {v : Vmm} {c : Shared T} {root addr len : Nat} {flags : PageTableFlags}
    (hareas : ∀ a ∈ v.areas, a.Proper) (hdisj : DisjointAreas v.areas) (haddr : addr % 4096 = 0)
    (hlen : 0 < len) (hsum : virtAdd addr len = some (addr + len)) :
    ∃ ok v' c', mprotect v c root addr len flags = some (ok, v', c') ∧
      (ok = true ↔ ∃ a ∈ v.areas, ∀ x, addr ≤ x → x < addr + len → a.has x = true) ∧
      (ok = false → v' = v ∧ c' = c) ∧
      (ok = true → Protects addr len flags root v v' c c') := by
  have hsome : (mprotect v c root addr len flags).isSome :=
    mprotect_isSome (fun a ha _ => hareas a ha) haddr hsum
  obtain ⟨⟨ok, v', c'⟩, hrun⟩ := Option.isSome_iff_exists.mp hsome
  refine ⟨ok, v', c', hrun, ?_⟩
  rcases mprotect_cases hrun with ⟨rfl, rfl, rfl, hshort⟩ |
    ⟨before, area, after, _, rfl, hsplit, _, hhas, hle, rfl, hloop⟩
  · refine ⟨⟨(fun h => nomatch h), ?_⟩, fun _ => ⟨rfl, rfl⟩, (fun h => nomatch h)⟩
    rintro ⟨a, ha, hrange⟩
    have hend := hshort a ((find_has hdisj).mpr ⟨ha, hrange addr (by omega) (by omega)⟩)
    have hlast := has_iff.mp (hrange (addr + len - 1) (by omega) (by omega))
    omega
  · have hlo := (has_iff.mp hhas).1
    have hlt : addr < addr + len := by omega
    have hmem : area ∈ v.areas := by rw [hsplit]; simp
    obtain ⟨hrest, hentries⟩ := protectPages_entries haddr (Nat.le_of_lt hlt) hloop
    refine ⟨⟨fun _ => ⟨area, hmem, fun x h₁ h₂ => has_iff.mpr ⟨by omega, by omega⟩⟩, fun _ => rfl⟩,
      (fun h => nomatch h), fun _ => ⟨?_, ?_, fun x => ?_, fun x => ?_, rfl, hentries, hrest⟩⟩
    · exact disjoint_splice hhas hlt hle (hsplit ▸ hdisj)
    · intro a ha
      dsimp only at ha
      rw [mem_append, mem_append] at ha
      rcases ha with (ha | ha) | ha
      · exact (hareas a (by rw [hsplit]; simp [ha])).nonempty
      · exact (mem_protect hlt ha).1
      · exact (hareas a (by rw [hsplit]; simp [ha])).nonempty
    · rw [hsplit]
      exact union_splice hhas hlt hle
    · rw [hsplit]
      exact flagsAt_splice hhas hlt hle (hsplit ▸ hdisj)

/-- One area of three pages. -/
def threePages : Vmm := ⟨[⟨0x1000, 0x4000, userFlags true⟩], fun _ => none⟩

/-- Its middle page is made read-only. -/
theorem mprotect_exact_middle_page :
    ∃ ok v' c', mprotect threePages smallMachine.shared 1 0x2000 0x1000 (userFlags false)
        = some (ok, v', c') ∧
      (ok = true ↔ ∃ a ∈ threePages.areas,
        ∀ x, 0x2000 ≤ x → x < 0x2000 + 0x1000 → a.has x = true) ∧
      (ok = false → v' = threePages ∧ c' = smallMachine.shared) ∧
      (ok = true → Protects 0x2000 0x1000 (userFlags false) 1 threePages v'
        smallMachine.shared c') := by
  refine mprotect_exact (fun a ha => ?_) (pairwise_singleton _ _) (by decide) (by decide) rfl
  obtain rfl := mem_singleton.mp ha
  exact ⟨by decide, by decide, fun x _ hx => .inl (Nat.lt_of_le_of_lt hx (by decide))⟩

end AlaphiOS.Memory
