import AlaphiOS.Lib.Tiling
import AlaphiOS.Memory.FrameRuns

/-!
# The areas of a task

What `SYS_BRK` and `SYS_MPROTECT` make of the areas that `load_flat` gives a task. `AreasOk` is
what the rest of the kernel takes for granted: the areas are disjoint, those of the stack cover
the stack, and those of the heap cover `[heap_start, brk)`.

The invariant behind it is `Laid`: the list of areas is a tiling of the stack, then a tiling of
the heap. `mprotect` puts a tiling in the place of one area (`protect_tiles`), which leaves both
as they are. `set_heap_end` however takes the area that starts at `heap_start` for the heap.
As long as the heap is this one area, moving its end is moving the end of the heap
(`Laid.resize`); once `mprotect` has split the heap, the other areas stay where they are, and
they overlap with the heap that has grown or remain behind the one that has shrunk
(`Laid.resize_split`). `areas_disjoint` states both together.
-/

namespace AlaphiOS.Memory

open Lib List VmArea

variable {T : PageTables}

/-- The lowest address of the stack. -/
def userStackBottom : Nat := userStackTop - userStackSize

/-- The areas are disjoint runs of pages: the stack, and the heap up to the break. -/
structure AreasOk (sp : Space) : Prop where
  pages : ∀ a ∈ sp.vmm.areas, a.start % 4096 = 0 ∧ a.end_ % 4096 = 0 ∧ a.start ≤ a.end_
  disjoint : sp.vmm.areas.Pairwise fun a b => ∀ x, ¬ (a.has x = true ∧ b.has x = true)
  stack : ∀ x, (∃ a ∈ sp.vmm.areas, userStackBottom ≤ a.start ∧ a.has x = true) ↔
    userStackBottom ≤ x ∧ x < userStackTop
  heap : ∀ x, (∃ a ∈ sp.vmm.areas, sp.heapStart ≤ a.start ∧ a.end_ ≤ userStackBottom ∧
    a.has x = true) ↔ sp.heapStart ≤ x ∧ x < sp.brk

/-- The areas of task `n` are as they should be. -/
def AreasOkAt (n : Nat) (s : Machine T) : Prop := ∃ sp, s.spaces[n]? = some sp ∧ AreasOk sp

/-- The heap is more than one area. -/
def SplitHeap (sp : Space) : Prop :=
  ∃ a ∈ sp.vmm.areas, sp.heapStart < a.start ∧ a.start < sp.brk

/-- The operation moves the break of task `n`, and its heap is more than one area. -/
def MovesSplitHeap (n : Nat) (s : Machine T) (op : MemOp) : Prop :=
  ∃ sp, s.spaces[n]? = some sp ∧ op.breakAfter n sp.heapStart sp.brk ≠ sp.brk ∧ SplitHeap sp

instance (sp : Space) : Decidable (SplitHeap sp) :=
  inferInstanceAs (Decidable (∃ a ∈ sp.vmm.areas, _))

instance (n : Nat) (s : Machine T) (op : MemOp) : Decidable (MovesSplitHeap n s op) :=
  inferInstanceAs (Decidable (∃ sp ∈ s.spaces[n]?, _))

theorem has_iff {a : VmArea} {x : Nat} : a.has x = true ↔ a.start ≤ x ∧ x < a.end_ := by
  unfold has
  rw [Bool.and_eq_true, decide_eq_true_iff, decide_eq_true_iff]

/-! ## The layout -/

/-- The areas are the stack, and behind it the heap. -/
structure Laid (sp : Space) (stack heap : List VmArea) : Prop where
  areas : sp.vmm.areas = stack ++ heap
  pages : ∀ a ∈ stack ++ heap, a.start % 4096 = 0 ∧ a.end_ % 4096 = 0
  stackTiles : Tiles start end_ userStackBottom userStackTop stack
  heapTiles : Tiles start end_ sp.heapStart sp.brk heap
  heapStart : sp.heapStart % 4096 = 0
  brk : sp.brk % 4096 = 0
  below : heap ≠ [] → sp.brk < userStackBottom
  /-- Only the area of an empty heap is empty. -/
  proper : 2 ≤ heap.length → ∀ a ∈ heap, a.start < a.end_
  flags : ∀ a ∈ stack ++ heap, ∃ writable, a.flags = userFlags writable

section

variable {sp sp' : Space} {stack heap before after : List VmArea} {a area : VmArea} {x : Nat}

theorem Laid.areasOk (h : Laid sp stack heap) : AreasOk sp where
  pages := by
    intro a ha
    rw [h.areas] at ha
    obtain ⟨hs, he⟩ := h.pages a ha
    refine ⟨hs, he, ?_⟩
    obtain ha | ha := mem_append.mp ha
    · exact (h.stackTiles.within ha).2.1
    · exact (h.heapTiles.within ha).2.1
  disjoint := by
    have hapart : ∀ {l : List VmArea}, l.Pairwise (fun a b => a.end_ ≤ b.start) →
        l.Pairwise fun a b => ∀ x, ¬ (a.has x = true ∧ b.has x = true) := by
      refine fun hl => hl.imp fun hab x => ?_
      rw [has_iff, has_iff]
      omega
    rw [h.areas]
    refine pairwise_append.mpr
      ⟨hapart h.stackTiles.pairwise, hapart h.heapTiles.pairwise, fun a ha b hb x => ?_⟩
    have hlo := (h.stackTiles.within ha).1
    have hhi := (h.heapTiles.within hb).2.2
    have hbelow := h.below (ne_nil_of_mem hb)
    rw [has_iff, has_iff]
    omega
  stack := by
    intro x
    rw [h.areas, ← h.stackTiles.mem_iff]
    constructor
    · rintro ⟨a, ha, hlo, hx⟩
      rw [has_iff] at hx
      obtain ha | ha := mem_append.mp ha
      · exact ⟨a, ha, hx⟩
      -- an area of the heap ends before the stack
      · have hhi := (h.heapTiles.within ha).2.2
        have hbelow := h.below (ne_nil_of_mem ha)
        omega
    · rintro ⟨a, ha, hx⟩
      exact ⟨a, mem_append_left _ ha, (h.stackTiles.within ha).1, has_iff.mpr hx⟩
  heap := by
    intro x
    rw [h.areas, ← h.heapTiles.mem_iff]
    constructor
    · rintro ⟨a, ha, _, hhi, hx⟩
      rw [has_iff] at hx
      obtain ha | ha := mem_append.mp ha
      · have hlo := (h.stackTiles.within ha).1
        omega
      · exact ⟨a, ha, hx⟩
    · rintro ⟨a, ha, hx⟩
      have hhi := (h.heapTiles.within ha).2.2
      have hbelow := h.below (ne_nil_of_mem ha)
      exact ⟨a, mem_append_right _ ha, (h.heapTiles.within ha).1, by omega, has_iff.mpr hx⟩

/-- An element of a list that is two lists one behind the other lies in one of them. -/
theorem append_cons_eq (h : stack ++ heap = before ++ area :: after) :
    (∃ rest, before = stack ++ rest ∧ heap = rest ++ area :: after) ∨
    (∃ rest, stack = before ++ area :: rest ∧ after = rest ++ heap) := by
  obtain ⟨rest, hbefore, hheap⟩ | ⟨rest, hstack, hafter⟩ := append_eq_append_iff.mp h
  · exact .inl ⟨rest, hbefore, hheap⟩
  · cases rest with
    | nil => exact .inl ⟨[], by rw [hstack, append_nil, append_nil], hafter.symm⟩
    | cons b rest =>
      obtain ⟨rfl, htail⟩ := cons_eq_cons.mp (hafter.trans (cons_append ..))
      exact .inr ⟨rest, hstack, htail⟩

theorem Laid.of_sameLayout (h : Laid sp stack heap) (hsame : sp.SameLayout sp') :
    Laid sp' stack heap := by
  obtain ⟨_, hstart, hbrk, hareas⟩ := hsame
  exact ⟨hareas.trans h.areas, h.pages, h.stackTiles, by rw [hstart, hbrk]; exact h.heapTiles,
    hstart ▸ h.heapStart, hbrk ▸ h.brk, hbrk ▸ h.below, h.proper, h.flags⟩

/-! ## `SYS_MPROTECT` -/

variable {addr end_ newEnd : Nat} {flags : PageTableFlags} {v : Vmm} {l : List VmArea}

/-- What `mprotect` puts in the place of an area is a tiling of it. -/
theorem protect_tiles (hhas : area.has addr = true) (hend : addr < end_) (hle : end_ ≤ area.end_) :
    Tiles VmArea.start VmArea.end_ area.start area.end_ (area.protect addr end_ flags) := by
  obtain ⟨hlo, _⟩ := has_iff.mp hhas
  unfold VmArea.protect
  refine tiles_append.mpr ⟨end_, tiles_append.mpr ⟨addr, ?_, rfl, Nat.le_of_lt hend, rfl⟩, ?_⟩
  · split
    · exact ⟨rfl, hlo, rfl⟩
    next hge => exact Nat.le_antisymm hlo (Nat.le_of_not_lt hge)
  · split
    · exact ⟨rfl, hle, rfl⟩
    next hge => exact Nat.le_antisymm hle (Nat.le_of_not_lt hge)

theorem mem_protect_iff :
    a ∈ area.protect addr end_ flags ↔ (area.start < addr ∧ a = { area with end_ := addr }) ∨
      a = ⟨addr, end_, flags⟩ ∨ (end_ < area.end_ ∧ a = { area with start := end_ }) := by
  unfold protect
  rw [mem_append, mem_append, mem_singleton, mem_ite_nil_right,
    mem_ite_nil_right, mem_singleton, mem_singleton, or_assoc]

theorem mem_protect (hend : addr < end_) (ha : a ∈ area.protect addr end_ flags) :
    a.start < a.end_ ∧ (a.start = area.start ∨ a.start = addr ∨ a.start = end_) ∧
      (a.end_ = area.end_ ∨ a.end_ = addr ∨ a.end_ = end_) ∧
      (a.flags = area.flags ∨ a.flags = flags) := by
  obtain ⟨hlt, rfl⟩ | rfl | ⟨hlt, rfl⟩ := mem_protect_iff.mp ha
  · exact ⟨hlt, .inl rfl, .inr (.inl rfl), .inl rfl⟩
  · exact ⟨hend, .inr (.inl rfl), .inr (.inr rfl), .inr rfl⟩
  · exact ⟨hlt, .inr (.inr rfl), .inl rfl, .inl rfl⟩

/-- Splitting an area of a heap leaves no empty area. -/
theorem Laid.proper_protect {rest : List VmArea}
    (h : Laid sp stack (rest ++ area :: after)) (hend : addr < end_)
    (ha : a ∈ rest ++ area.protect addr end_ flags ++ after) : a.start < a.end_ := by
  -- with an area beside the one that is split, the heap has two
  have hother : a ∈ rest ∨ a ∈ after → a.start < a.end_ := by
    intro ha
    have hlen : 0 < rest.length + after.length := by
      obtain ha | ha := ha
      · exact Nat.add_pos_left (length_pos_of_mem ha) _
      · exact Nat.add_pos_right _ (length_pos_of_mem ha)
    refine h.proper ?_ a ?_
    · rw [length_append, length_cons]
      omega
    · obtain ha | ha := ha
      · exact mem_append_left _ ha
      · exact mem_append_right _ (mem_cons_of_mem _ ha)
  rw [mem_append, mem_append] at ha
  obtain (ha | ha) | ha := ha
  · exact hother (.inl ha)
  · exact (mem_protect hend ha).1
  · exact hother (.inr ha)

/-- Splitting an area splits one area of the stack or one of the heap. -/
theorem Laid.protect {writable : Bool} (h : Laid sp stack heap)
    (hareas : sp.vmm.areas = before ++ area :: after) (hhas : area.has addr = true)
    (haddr : addr % 4096 = 0) (hpages : end_ % 4096 = 0) (hend : addr < end_)
    (hle : end_ ≤ area.end_)
    (hv : v.areas = before ++ area.protect addr end_ (userFlags writable) ++ after) :
    ∃ stack' heap', Laid { sp with vmm := v } stack' heap' := by
  have hall : ∀ a ∈ before ++ area :: after, (a.start % 4096 = 0 ∧ a.end_ % 4096 = 0) ∧
      ∃ writable, a.flags = userFlags writable := by
    rw [← hareas, h.areas]
    exact fun a ha => ⟨h.pages a ha, h.flags a ha⟩
  obtain ⟨⟨hstart, hlast⟩, hflags⟩ := hall area (by simp)
  have hnew : ∀ a ∈ before ++ area.protect addr end_ (userFlags writable) ++ after,
      (a.start % 4096 = 0 ∧ a.end_ % 4096 = 0) ∧ ∃ writable, a.flags = userFlags writable := by
    intro a ha
    rw [mem_append, mem_append] at ha
    obtain (ha | ha) | ha := ha
    · exact hall a (mem_append_left _ ha)
    · obtain ⟨-, h₁, h₂, h₃ | h₃⟩ := mem_protect hend ha
      · exact ⟨by omega, h₃ ▸ hflags⟩
      · exact ⟨by omega, writable, h₃⟩
    · exact hall a (mem_append_right _ (mem_cons_of_mem _ ha))
  have htiles : Tiles VmArea.start VmArea.end_ area.start area.end_
      (area.protect addr end_ (userFlags writable)) :=
    protect_tiles hhas hend hle
  -- the area is one of the heap, or one of the stack
  obtain ⟨rest, rfl, rfl⟩ | ⟨rest, rfl, rfl⟩ := append_cons_eq (h.areas.symm.trans hareas)
  · refine ⟨stack, rest ++ area.protect addr end_ (userFlags writable) ++ after, ?_, ?_, h.stackTiles,
      h.heapTiles.splice htiles, h.heapStart, h.brk, fun _ => h.below (by simp),
      fun _ a ha => h.proper_protect hend ha, ?_⟩
    · rw [hv, append_assoc, append_assoc, append_assoc]
    · rw [← append_assoc, ← append_assoc]
      exact fun a ha => (hnew a ha).1
    · rw [← append_assoc, ← append_assoc]
      exact fun a ha => (hnew a ha).2
  · refine ⟨before ++ area.protect addr end_ (userFlags writable) ++ rest, heap, ?_, ?_,
      h.stackTiles.splice htiles, h.heapTiles, h.heapStart, h.brk, h.below, h.proper, ?_⟩
    · rw [hv, append_assoc (before ++ _)]
    · rw [← append_assoc (before ++ _)] at hnew
      exact fun a ha => (hnew a ha).1
    · rw [← append_assoc (before ++ _)] at hnew
      exact fun a ha => (hnew a ha).2

/-! ## `SYS_BRK` -/

/-- What `set_heap_end` makes of the areas of the heap. -/
def resizeHeap (heapStart newEnd : Nat) : List VmArea → List VmArea
  | [] => [⟨heapStart, newEnd, userFlags true⟩]
  | a :: l => { a with end_ := newEnd } :: l

theorem Laid.setHeapEnd (h : Laid sp stack heap) (hlo : sp.heapStart ≤ newEnd)
    (hne : newEnd ≠ sp.brk) (hstart : sp.heapStart < userStackBottom) :
    (sp.vmm.setHeapEnd sp.heapStart newEnd (userFlags true)).areas
      = stack ++ resizeHeap sp.heapStart newEnd heap := by
  have hstack : ∀ b ∈ stack, b.start ≠ sp.heapStart := by
    intro b hb
    have := (h.stackTiles.within hb).1
    omega
  cases heap with
  | nil =>
    have hbrk : sp.heapStart = sp.brk := h.heapTiles
    rw [Vmm.setHeapEnd_missing (by rw [h.areas, append_nil]; exact hstack) (by omega), h.areas,
      append_nil]
    rfl
  | cons a l =>
    rw [Vmm.setHeapEnd_found h.areas hstack h.heapTiles.1]
    rfl

theorem eq_nil_of_length_cons_lt_two {a : VmArea} (h : (a :: l).length < 2) : l = [] := by
  rw [length_cons] at h
  exact eq_nil_of_length_eq_zero (by omega)

/-- The break of a heap of one area moves, and the area with it. -/
theorem Laid.resize (h : Laid sp stack heap) (hone : heap.length < 2)
    (hlo : sp.heapStart ≤ newEnd) (hhi : newEnd < userStackBottom) (hpages : newEnd % 4096 = 0)
    (hv : v.areas = stack ++ resizeHeap sp.heapStart newEnd heap) :
    ∃ b, Laid { sp with vmm := v, brk := newEnd } stack [b] := by
  obtain ⟨b, hb, hstart, hend, hflags⟩ : ∃ b, resizeHeap sp.heapStart newEnd heap = [b] ∧
      b.start = sp.heapStart ∧ b.end_ = newEnd ∧ ∃ writable, b.flags = userFlags writable := by
    cases heap with
    | nil => exact ⟨_, rfl, rfl, rfl, true, rfl⟩
    | cons a l =>
      obtain rfl := eq_nil_of_length_cons_lt_two hone
      exact ⟨_, rfl, h.heapTiles.1, rfl, h.flags a (by simp)⟩
  rw [hb] at hv
  have htiles : Tiles start end_ sp.heapStart newEnd [b] := by
    refine ⟨hstart, ?_, hend⟩
    rw [hend]
    exact hlo
  refine ⟨b, hv, ?_, h.stackTiles, htiles, h.heapStart, hpages, fun _ => hhi, ?_, ?_⟩
  · intro a ha
    obtain ha | ha := mem_append.mp ha
    · exact h.pages a (mem_append_left _ ha)
    · obtain rfl := mem_singleton.mp ha
      rw [hstart, hend]
      exact ⟨h.heapStart, hpages⟩
  · exact nofun
  · intro a ha
    obtain ha | ha := mem_append.mp ha
    · exact h.flags a (mem_append_left _ ha)
    · obtain rfl := mem_singleton.mp ha
      exact hflags

/-- The break of a heap of several areas moves, and only the first of them with it. -/
theorem Laid.resize_split {b : VmArea} (h : Laid sp stack (a :: b :: l)) (hne : newEnd ≠ sp.brk)
    (hv : v.areas = stack ++ resizeHeap sp.heapStart newEnd (a :: b :: l)) :
    ¬ AreasOk { sp with vmm := v, brk := newEnd } := by
  intro hok
  have hproper := h.proper (by simp)
  have ha := hproper a (by simp)
  have hb := hproper b (by simp)
  obtain ⟨hstart, -, htail⟩ := h.heapTiles
  have hmid : b.start = a.end_ := htail.1
  have hlast := (htail.within mem_cons_self).2.2
  obtain hlt | hgt := Nat.lt_or_gt_of_ne hne
  -- the areas behind the first one still reach up to the old break
  · obtain ⟨c, hc, hlo, hhi⟩ := htail.mem_iff.mpr (⟨by omega, by omega⟩ :
      a.end_ ≤ sp.brk - 1 ∧ sp.brk - 1 < sp.brk)
    have hcin := htail.within hc
    have hbelow := h.below (by simp)
    have hmem : c ∈ v.areas := by
      rw [hv]
      exact mem_append_right _ (mem_cons_of_mem _ hc)
    have := (hok.heap (sp.brk - 1)).mp ⟨c, hmem, by dsimp only; omega, by omega,
      has_iff.mpr ⟨hlo, hhi⟩⟩
    dsimp only at this
    omega
  -- the first area has grown over the second
  · have hdisj := hok.disjoint
    dsimp only at hdisj
    rw [hv] at hdisj
    have hab := (pairwise_cons.mp (pairwise_append.mp hdisj).2.1).1 b
      mem_cons_self b.start
    rw [has_iff, has_iff] at hab
    dsimp only at hab
    omega

theorem Laid.splitHeap {b : VmArea} (h : Laid sp stack (a :: b :: l)) : SplitHeap sp := by
  have hproper := h.proper (by simp)
  have ha := hproper a (by simp)
  have hb := hproper b (by simp)
  obtain ⟨hstart, -, htail⟩ := h.heapTiles
  have hmid : b.start = a.end_ := htail.1
  have hlast := (htail.within mem_cons_self).2.2
  refine ⟨b, ?_, by omega, by omega⟩
  rw [h.areas]
  exact mem_append_right _ (by simp)

theorem Laid.one_area (h : Laid sp stack heap) (hone : ¬ SplitHeap sp) : heap.length < 2 := by
  match heap with
  | [] => simp
  | [a] => simp
  | a :: b :: l => exact absurd h.splitHeap hone

theorem Laid.of_splitHeap (h : Laid sp stack heap) (hsplit : SplitHeap sp) :
    ∃ a b l, heap = a :: b :: l := by
  obtain ⟨c, hc, hlo, hhi⟩ := hsplit
  have htiles := h.heapTiles
  match heap with
  | [] =>
    have hbrk : sp.heapStart = sp.brk := htiles
    omega
  | [a] =>
    rw [h.areas] at hc
    obtain hc | hc := mem_append.mp hc
    · have hbelow := h.below (by simp)
      have := (h.stackTiles.within hc).1
      omega
    · obtain rfl := mem_singleton.mp hc
      have := htiles.1
      omega
  | a :: b :: l => exact ⟨a, b, l, rfl⟩

theorem alignDown_mod (x : Nat) : alignDown x % 4096 = 0 := Nat.mul_mod_left ..

end

section

variable {s s' : Machine T} {op : MemOp} {n : Nat} {sp : Space} {stack heap : List VmArea}

/-- `SYS_BRK` leaves the layout and the entries, or moves the end of the first area of the heap
and takes away the entries of the pages above a lower break. -/
theorem sysBrk_laid {newBrk ret : Nat} (hn : s.spaces[n]? = some sp) (h : Laid sp stack heap)
    (hr : sysBrk s n newBrk = some (ret, s')) :
    ∃ sp', s'.spaces[n]? = some sp' ∧ sp'.vmm.swapped = sp.vmm.swapped ∧
      (∀ p, s'.shared.leaf sp.root p = if sp'.brk ≤ frameAddr p ∧ frameAddr p < sp.brk then none
        else s.shared.leaf sp.root p) ∧
      (sp.SameLayout sp' ∨
        ∃ v newEnd, sp' = { sp with vmm := v, brk := newEnd } ∧ newEnd ≠ sp.brk ∧
          sp.heapStart ≤ newEnd ∧ newEnd < userStackBottom ∧ newEnd % 4096 = 0 ∧
          v.areas = stack ++ resizeHeap sp.heapStart newEnd heap) := by
  have hsame : ∀ {brk'}, sp.brk ≤ brk' → ∀ p, s.shared.leaf sp.root p
      = if brk' ≤ frameAddr p ∧ frameAddr p < sp.brk then none else s.shared.leaf sp.root p :=
    fun hle p => (if_neg (by omega)).symm
  rcases sysBrk_inv hr with rfl | ⟨sp₁, hi, _, rfl, hlo, hhi, hcase⟩
  · exact ⟨sp, hn, rfl, hsame (Nat.le_refl _), .inl ⟨rfl, rfl, rfl, rfl⟩⟩
  cases hn.symm.trans hi
  rcases hcase with ⟨hlt, rfl⟩ | ⟨hlt, c, hloop, rfl⟩ | ⟨heq, rfl⟩
  · exact ⟨_, Machine.put_getElem hn, Vmm.setHeapEnd_swapped, hsame (Nat.le_of_lt hlt),
      .inr ⟨_, _, rfl, Nat.ne_of_gt hlt, hlo, hhi, alignDown_mod _,
        h.setHeapEnd hlo (Nat.ne_of_gt hlt) (Nat.lt_of_le_of_lt hlo hhi)⟩⟩
  · exact ⟨_, Machine.put_getElem hn, Vmm.setHeapEnd_swapped,
      forPages_leaf (g := fun _ _ => none) (fun _ _ _ => releasePage_leaf) (alignDown_mod _)
        (Nat.le_of_lt hlt) hloop,
      .inr ⟨_, _, rfl, Nat.ne_of_lt hlt, hlo, hhi, alignDown_mod _,
        h.setHeapEnd hlo (Nat.ne_of_lt hlt) (Nat.lt_of_le_of_lt hlo hhi)⟩⟩
  · exact ⟨_, Machine.put_getElem hn, rfl, hsame (Nat.le_of_eq heq.symm), .inl ⟨rfl, rfl, heq, rfl⟩⟩

/-- The areas of task `n` are a stack and a heap. -/
def LaidAt (n : Nat) (s : Machine T) : Prop :=
  ∃ sp stack heap, s.spaces[n]? = some sp ∧ Laid sp stack heap

theorem LaidAt.areasOkAt (h : LaidAt n s) : AreasOkAt n s := by
  obtain ⟨sp, stack, heap, hn, h⟩ := h
  exact ⟨sp, hn, h.areasOk⟩

/-- An operation keeps the layout, unless it moves the break of a split heap, and then it
spoils the areas. -/
theorem memStep_laidAt (h : LaidAt n s) (hr : memStep s op = some s') :
    (¬ MovesSplitHeap n s op → LaidAt n s') ∧ (MovesSplitHeap n s op → ¬ AreasOkAt n s') := by
  obtain ⟨sp, stack, heap, hn, h⟩ := h
  have hmoves : ∀ {sp'}, s'.spaces[n]? = some sp' →
      (MovesSplitHeap n s op ↔ sp'.brk ≠ sp.brk ∧ SplitHeap sp) := by
    intro sp' hn'
    rw [← memStep_brk hn hr hn']
    constructor
    · rintro ⟨sp₁, h₁, hm⟩
      cases h₁.symm.trans hn
      exact hm
    · exact fun hm => ⟨sp, hn, hm⟩
  have hsame : ∀ {sp'}, s'.spaces[n]? = some sp' → sp.SameLayout sp' →
      (¬ MovesSplitHeap n s op → LaidAt n s') ∧ (MovesSplitHeap n s op → ¬ AreasOkAt n s') := by
    intro sp' hn' hl
    refine ⟨fun _ => ⟨sp', stack, heap, hn', h.of_sameLayout hl⟩, fun hm => ?_⟩
    exact absurd hl.2.2.1 ((hmoves hn').mp hm).1
  rcases memStep_layout hr hn with
    ⟨sp', hn', hl⟩ | ⟨newBrk, ret, rfl, hbrk⟩ | ⟨addr, len, prot, ok, rfl, hmp⟩
  · exact hsame hn' hl
  · obtain ⟨sp', hn', -, -, hl | ⟨v, newEnd, rfl, hne, hlo, hhi, hpages, hv⟩⟩ := sysBrk_laid hn h hbrk
    · exact hsame hn' hl
    constructor
    · intro hm
      have hone := h.one_area fun hsplit => hm ((hmoves hn').mpr ⟨hne, hsplit⟩)
      obtain ⟨b, h'⟩ := h.resize hone hlo hhi hpages hv
      exact ⟨_, _, _, hn', h'⟩
    · rintro hm ⟨sp₁, hn₁, hok⟩
      cases hn₁.symm.trans hn'
      obtain ⟨a, b, l, rfl⟩ := h.of_splitHeap ((hmoves hn').mp hm).2
      exact h.resize_split hne hv hok
  · rcases sysMprotect_inv hmp with ⟨_, rfl⟩ | ⟨sp₁, end_, before, area, after, c, _, hi, haddr, hend,
      hlt, hareas, _, hhas, hle, _, rfl⟩
    · exact hsame hn ⟨rfl, rfl, rfl, rfl⟩
    cases hi.symm.trans hn
    have hpages : end_ % 4096 = 0 := by
      have := alignDown_mod (len + 0xFFF)
      omega
    obtain ⟨stack', heap', h'⟩ :=
      h.protect (v := { sp.vmm with areas := _ }) hareas hhas haddr hpages hlt hle rfl
    refine ⟨fun _ => ⟨_, stack', heap', Machine.put_getElem hn, h'⟩, fun hm => ?_⟩
    exact absurd rfl ((hmoves (Machine.put_getElem hn)).mp hm).1

/-- A new task has the stack, an empty heap, and nothing on swap. -/
theorem loadFlat_laid {bytes : List UInt8} (h : loadFlat s bytes = some s') :
    ∃ sp stack, s'.spaces[s.spaces.length]? = some sp ∧ Laid sp stack [] ∧
      ∀ a, sp.vmm.swapped a = none := by
  obtain ⟨⟨root, c⟩, _, h⟩ := bind_inv h
  obtain ⟨c', _, h⟩ := bind_inv h
  cases h
  refine ⟨_, [⟨userStackBottom, userStackTop, userFlags true⟩], getElem?_concat_length, ⟨rfl, ?_,
    ⟨rfl, by decide, rfl⟩, rfl, alignDown_mod _, alignDown_mod _, fun hne => absurd rfl hne, ?_, ?_⟩,
    fun _ => rfl⟩
  · decide
  · exact nofun
  · exact fun a ha => ⟨true, by rw [mem_singleton.mp ha]⟩

end

/-- For a task that `load_flat` has made, and whatever is done to it and to other tasks: the
areas are as they should be after every operation, if and only if no operation that returns moves
the break while the heap is more than one area. -/
theorem areas_disjoint (s s₀ : Machine T) (bytes : List UInt8) (h : loadFlat s bytes = some s₀) :
    AreasOkAt s.spaces.length s₀ ∧ ∀ ops,
      (Along memStep (fun s₁ op => ∀ s₂, memStep s₁ op = some s₂ → AreasOkAt s.spaces.length s₂) s₀ ops ↔
        Along memStep (fun s₁ op =>
          (memStep s₁ op).isSome → ¬ MovesSplitHeap s.spaces.length s₁ op) s₀ ops) := by
  obtain ⟨sp, stack, hn, hl, -⟩ := loadFlat_laid h
  have h₀ : LaidAt s.spaces.length s₀ := ⟨sp, stack, [], hn, hl⟩
  refine ⟨h₀.areasOkAt, fun ops => along_congr (I := LaidAt s.spaces.length) ?_ ?_ h₀⟩
  · intro s₁ op hI
    constructor
    · intro hok hsome hm
      obtain ⟨s₂, hr⟩ := Option.isSome_iff_exists.mp hsome
      exact (memStep_laidAt hI hr).2 hm (hok s₂ hr)
    · exact fun hm s₂ hr => ((memStep_laidAt hI hr).1 (hm (Option.isSome_of_eq_some hr))).areasOkAt
  · exact fun s₁ op s₂ hI hm hr => (memStep_laidAt hI hr).1 (hm (Option.isSome_of_eq_some hr))

/-- A heap of three pages, of which the middle one is made read-only. -/
theorem areas_disjoint_three_pages : ∃ s₀ s₁ s₂, loadFlat smallMachine [0x90] = some s₀ ∧
    memStep s₀ (.brk 0 0x404000) = some s₁ ∧
    memStep s₁ (.mprotect 0 0x402000 0x1000 1) = some s₂ ∧ AreasOkAt 0 s₂ := by
  have hrun : ∃ s₀ ∈ loadFlat smallMachine [0x90],
      Along memStep (fun s₁ op => (memStep s₁ op).isSome → ¬ MovesSplitHeap 0 s₁ op) s₀
        [.brk 0 0x404000, .mprotect 0 0x402000 0x1000 1] ∧
      ∃ s₁ ∈ memStep s₀ (.brk 0 0x404000), (memStep s₁ (.mprotect 0 0x402000 0x1000 1)).isSome := by
    decide +kernel
  obtain ⟨s₀, h₀, hkept, s₁, h₁, hsome⟩ := hrun
  obtain ⟨s₂, h₂⟩ := Option.isSome_iff_exists.mp hsome
  have hok := ((areas_disjoint _ s₀ _ h₀).2 _).mpr hkept
  exact ⟨s₀, s₁, s₂, h₀, h₁, h₂, (hok.2 s₁ h₁).1 s₂ h₂⟩

/-- The same heap, and then a break one page higher: the first area grows over the others. -/
theorem split_heap_grows_over_itself : ∃ s₀ s, loadFlat smallMachine [0x90] = some s₀ ∧
    exec memStep s₀ [.brk 0 0x404000, .mprotect 0 0x402000 0x1000 1, .brk 0 0x405000] = some s ∧
    ¬ AreasOkAt 0 s := by
  have hrun : ((loadFlat smallMachine [0x90]).bind fun s₀ => exec memStep s₀
      [.brk 0 0x404000, .mprotect 0 0x402000 0x1000 1, .brk 0 0x405000]).map
        (fun s => s.spaces[0]?.map fun sp => sp.vmm.areas)
      = some (some [⟨0x7FFFFFFEF000, 0x7FFFFFFFF000, userFlags true⟩,
        ⟨0x401000, 0x405000, userFlags true⟩, ⟨0x402000, 0x403000, userFlags false⟩,
        ⟨0x403000, 0x404000, userFlags true⟩]) := by
    decide +kernel
  obtain ⟨s, h, hareas⟩ := map_inv hrun
  obtain ⟨s₀, h₀, h⟩ := bind_inv h
  refine ⟨s₀, s, h₀, h, ?_⟩
  rintro ⟨sp, hsp, hok⟩
  rw [hsp, Option.map_some] at hareas
  have hdisj := hok.disjoint
  rw [Option.some.inj hareas] at hdisj
  have hpair := (pairwise_cons.mp (pairwise_cons.mp hdisj).2).1 _
    mem_cons_self 0x402000
  exact hpair (by decide)

end AlaphiOS.Memory
