import AlaphiOS.Memory.Buddy
import AlaphiOS.Memory.SwapSafety
import AlaphiOS.Memory.UserHalf
import Mathlib.Algebra.Order.BigOperators.Group.List
import Mathlib.Algebra.Order.Group.Nat
import Mathlib.Data.List.Sort

/-!
# The reaper

`reap_to` of `kernel/src/memory/swap.rs`, with `gather_candidates`, `read_bits` and
`clear_accessed` (`PageMapper::clear_accessed` of `kernel/src/arch/paging.rs`). Nothing else runs
meanwhile, and the processor does not touch the pages.

Mirroring notes:
- A task of `TASK_TABLE` is its number among the address spaces and its `user_entry`; the table is
  listed by `tid`. A candidate has the number of its task for the `Arc`.
- `none` is a panic: in `gather_candidates` the additions to `vsize` and `total_vsize` can
  overflow, and `scored` can outgrow the largest block of the kernel heap. A task has fewer than
  2⁵² resident pages, so the sum of their numbers, the product and `as i64` are exact.
- The heap is taken to have a block for every request that is not above its largest one. Of the
  other `Vec`s `resident` (8 bytes an element) and the buffer of the sort (8 000 000 bytes at most)
  fit where `scored` does.
- `sort_by` is stable, and so is `insertionSort`.
- `break 'sweeps` sets `stop`, after which a visit does nothing. Instead of `reaped` and
  `progress` a round keeps the list of the pages it has evicted.
- `evict` takes the `cr3` from the task, which has not changed since the candidate was noted.
- The loop of `reap_to` has fuel; without enough it is `none`, too.

What a visit of a candidate can do is said once, in `visit_cases`.
-/

namespace AlaphiOS.Memory

open Lib List

variable {T : PageTables}

/-- A task of `TASK_TABLE`. -/
structure TaskRef where
  space : Nat
  userEntry : Nat

/-- A page that may be evicted. -/
structure Candidate where
  space : Nat
  cr3 : Nat
  vaddr : Nat
  deriving DecidableEq

/-- An element of `per_task`. -/
structure Holding where
  space : Nat
  cr3 : Nat
  vsize : Nat
  resident : List Nat

/-! ## `gather_candidates` -/

/-- How many elements of this size a `Vec` can hold that grows by `push`: the capacity doubles, and
the buffer has to fit in a block of the heap. -/
def vecLimit (elemSize : Nat) : Nat := 2 ^ Nat.log2 (blockSize maxOrder / elemSize)

/-- The loop over the areas of a task: their sizes and their resident pages. -/
def scanArea (c : Shared T) (root : Nat) (acc : Nat × List Nat) (area : VmArea) :
    Option (Nat × List Nat) := do
  let size ← usizeSub area.end_ area.start
  let vsize ← usizeAdd acc.1 size
  let resident ← forPages (fun a resident =>
    some (if (translateAddr c root a).isSome then resident ++ [a] else resident))
    area.start area.end_ acc.2
  some (vsize, resident)

/-- The loop over the tasks, with `total_vsize` and `per_task`. -/
def gatherTask (s : Machine T) (acc : Nat × List Holding) (task : TaskRef) :
    Option (Nat × List Holding) :=
  if task.userEntry = 0 then some acc
  else do
    let sp ← s.spaces[task.space]?
    let (vsize, resident) ← sp.vmm.areas.foldlM (scanArea s.shared sp.root) (0, [])
    let total ← usizeAdd acc.1 vsize
    some (total, acc.2 ++ [⟨task.space, sp.root, vsize, resident⟩])

/-- The candidates of a task with its excess over the proportional share. -/
def score (totalVsize totalResident : Nat) (h : Holding) : List (Int × Candidate) :=
  let share : Nat := if totalVsize > 0 then h.vsize * totalResident / totalVsize else 0
  let excess : Int := h.resident.length - share
  h.resident.map fun vaddr => (excess, ⟨h.space, h.cr3, vaddr⟩)

/-- `gather_candidates` up to the sort, with the excess of each. -/
def gatherScored (s : Machine T) (table : List TaskRef) : Option (List (Int × Candidate)) := do
  let (totalVsize, perTask) ← table.foldlM (gatherTask s) (0, [])
  let totalResident := perTask.foldl (fun n h => n + h.resident.length) 0
  let scored := perTask.flatMap (score totalVsize totalResident)
  -- an `(i64, Candidate)` has 32 bytes
  if scored.length ≤ vecLimit 32 then some (scored.insertionSort fun a b => b.1 ≤ a.1) else none

/-- `gather_candidates`. -/
def gatherCandidates (s : Machine T) (table : List TaskRef) : Option (List Candidate) :=
  (gatherScored s table).map fun scored => scored.map Prod.snd

/-! ## `reap_to` -/

/-- `read_bits`: accessed and dirty. -/
def readBits (c : Shared T) (cr3 vaddr : Nat) : Option (Bool × Bool) :=
  (pageFlags c cr3 vaddr).map fun flags => (flags.accessed, flags.dirty)

/-- `clear_accessed`. -/
def clearAccessed (c : Shared T) (cr3 vaddr : Nat) : Shared T :=
  match pageFlags c cr3 (alignDown vaddr) with
  | some flags =>
    if flags.accessed then
      { c with
        tables := T.updateFlags c.tables cr3 (vaddr / 4096) { flags with accessed := false } }
    else c
  | none => c

/-- Does this sweep take a page with these bits? -/
def takes : Nat → Bool × Bool → Bool
  | 0, (accessed, dirty) => !accessed && !dirty
  | 1, (accessed, _) => !accessed
  | _, _ => true

/-- Where the sweeps are: the machine, the pages they evicted, and whether they have ended. -/
structure Sweep (T : PageTables) where
  machine : Machine T
  evicted : List Candidate
  stop : Bool

/-- `FRAME_ALLOCATOR.lock().free_count()`. -/
def Machine.freeCount (s : Machine T) : Nat := s.shared.frameAllocator.freeCount

/-- The body of the loop over the candidates. -/
def visit (target sweep : Nat) (r : Sweep T) (c : Candidate) : Option (Sweep T) :=
  if r.stop then some r
  else
    match readBits r.machine.shared c.cr3 c.vaddr with
    | none => some r
    | some bits =>
      if takes sweep bits then
        (evict r.machine c.space c.vaddr).map fun (ok, s) =>
          if ok then ⟨s, r.evicted ++ [c], decide (s.freeCount ≥ target)⟩
          else { r with machine := s }
      else if bits.1 && decide (sweep ≥ 1) then
        some { r with
          machine := { r.machine with shared := clearAccessed r.machine.shared c.cr3 c.vaddr } }
      else some r

/-- The three sweeps. -/
def reapRound (target : Nat) (s : Machine T) (candidates : List Candidate) : Option (Sweep T) :=
  [0, 1, 2].foldlM (fun r sweep => candidates.foldlM (visit target sweep) r) ⟨s, [], false⟩

/-- `reap_to`, with the number of reaped frames. -/
def reapTo (table : List TaskRef) (target : Nat) : Nat → Machine T → Option (Nat × Machine T)
  | 0, _ => none
  | fuel + 1, s =>
    if s.freeCount ≥ target then some (0, s)
    else do
      let candidates ← gatherCandidates s table
      if candidates = [] then some (0, s)
      else
        let r ← reapRound target s candidates
        if r.evicted = [] then some (0, r.machine)
        else (reapTo table target fuel r.machine).map fun (n, s) => (r.evicted.length + n, s)

variable {target : Nat} {r : Sweep T}

/-- A round is its three sweeps, one after the other. -/
theorem reapRound_eq {s : Machine T} {candidates : List Candidate}
    {r₁ r₂ r₃ : Sweep T} (h₁ : candidates.foldlM (visit target 0) ⟨s, [], false⟩ = some r₁)
    (h₂ : candidates.foldlM (visit target 1) r₁ = some r₂)
    (h₃ : candidates.foldlM (visit target 2) r₂ = some r₃) :
    reapRound target s candidates = some r₃ := by
  unfold reapRound
  rw [foldlM_cons, bind_of_eq h₁, foldlM_cons, bind_of_eq h₂, foldlM_cons, bind_of_eq h₃,
    foldlM_nil]
  rfl

/-! ## Candidates as pages -/

/-- What eviction leaves alone of the address spaces. -/
def Machine.layout (s : Machine T) : List (Nat × List VmArea) :=
  s.spaces.map fun sp => (sp.root, sp.vmm.areas)

/-- The leaf entry of a candidate. -/
def Candidate.leaf (c : Candidate) (s : Machine T) : Option Entry :=
  s.shared.leaf c.cr3 (c.vaddr / 4096)

/-- Two candidates with one entry: a page that was listed twice. -/
def Candidate.SameLeaf (T : PageTables) (c d : Candidate) : Prop :=
  T.SameLeaf c.cr3 (c.vaddr / 4096) d.cr3 (d.vaddr / 4096)

instance (c d : Candidate) : Decidable (c.SameLeaf T d) :=
  inferInstanceAs (Decidable (T.SameLeaf ..))

/-- The candidate is a page of the user half of its task. -/
structure Candidate.In (c : Candidate) (s : Machine T) : Prop where
  task : ∃ areas, s.layout[c.space]? = some (c.cr3, areas)
  half : c.vaddr < 2 ^ 47

/-- The candidate is a resident page of an area of a user task. -/
structure Candidate.Listed (c : Candidate) (s : Machine T) (table : List TaskRef) : Prop where
  user : ∃ task ∈ table, task.userEntry ≠ 0 ∧ task.space = c.space
  area : ∃ areas, s.layout[c.space]? = some (c.cr3, areas) ∧
    ∃ a ∈ areas, c.vaddr ∈ pageAddrs a.start a.end_
  resident : c.leaf s ≠ none

/-! ## The list of candidates -/

/-- The bytes of an area. -/
def VmArea.size (a : VmArea) : Nat := a.end_ - a.start

/-- The addresses of the pages of an area that have a frame. -/
def residentIn (c : Shared T) (root : Nat) (a : VmArea) : List Nat :=
  (pageAddrs a.start a.end_).filter fun x => (translateAddr c root x).isSome

/-- What a task of the table holds; nothing if it is not a user task. -/
def holdingsOf (s : Machine T) (task : TaskRef) : List Holding :=
  if task.userEntry = 0 then []
  else s.layout[task.space]?.toList.map fun (root, areas) =>
    ⟨task.space, root, (areas.map VmArea.size).sum, areas.flatMap (residentIn s.shared root)⟩

def holdings (s : Machine T) (table : List TaskRef) : List Holding := table.flatMap (holdingsOf s)

/-- `total_vsize`, as a number without a bound. -/
def totalVsize (s : Machine T) (table : List TaskRef) : Nat :=
  (table.map fun task => ((holdingsOf s task).map Holding.vsize).sum).sum

/-- The user tasks of the table have address spaces. -/
def TableOk (s : Machine T) (table : List TaskRef) : Prop :=
  ∀ task ∈ table, task.userEntry ≠ 0 → task.space < s.spaces.length

/-- The one task that was loaded. -/
theorem tableOk_single {s : Machine T} (h : s.spaces.length = 1) (userEntry : Nat) :
    TableOk s [⟨0, userEntry⟩] := by
  intro task ht _
  rw [mem_singleton.mp ht, h]
  exact Nat.zero_lt_one

section

variable {s : Machine T} {table : List TaskRef} {sp : Space}

theorem scanArea_eq {c : Shared T} {root : Nat} {a : VmArea} (hsp : sp.InUserHalf)
    (ha : a ∈ sp.vmm.areas) (n : Nat) (bs : List Nat) :
    scanArea c root (n, bs) a
      = (usizeAdd n a.size).map fun m => (m, bs ++ residentIn c root a) := by
  obtain ⟨hstart, hend, hle⟩ := hsp.pages a ha
  have hsize : usizeSub a.end_ a.start = some a.size := if_pos hle
  have hloop : forPages (fun x resident =>
      some (if (translateAddr c root x).isSome then resident ++ [x] else resident))
      a.start a.end_ bs = some (bs ++ residentIn c root a) :=
    forPages_collect _ (fun x _ hx hmod => canonical_next hstart hend (hsp.top a ha) hx hmod) bs
  unfold scanArea
  rw [bind_of_eq hsize]
  cases usizeAdd n a.size with
  | none => rfl
  | some m => simp only [Option.bind_eq_bind, Option.bind_some, hloop, Option.map_some]

theorem gatherTask_eq {task : TaskRef} (hs : s.InUserHalf)
    (htask : task.userEntry ≠ 0 → task.space < s.spaces.length) {n : Nat} (bs : List Holding)
    (hn : n < 2 ^ 64) :
    gatherTask s (n, bs) task = (usizeAdd n ((holdingsOf s task).map Holding.vsize).sum).map
      fun m => (m, bs ++ holdingsOf s task) := by
  unfold gatherTask holdingsOf
  by_cases huser : task.userEntry = 0
  · rw [if_pos huser, if_pos huser, map_nil, sum_nil,
      usizeAdd_of_lt (show n + 0 < 2 ^ 64 from hn), append_nil]
    rfl
  · rw [if_neg huser, if_neg huser]
    have hi : s.spaces[task.space]? = some s.spaces[task.space] :=
      getElem?_eq_getElem (htask huser)
    generalize s.spaces[task.space] = sp at hi
    have hlayout : s.layout[task.space]? = some (sp.root, sp.vmm.areas) := by
      rw [Machine.layout, getElem?_map, hi]
      rfl
    rw [hi, hlayout, Option.bind_eq_bind, Option.bind_some,
      foldlM_usizeAdd (fun a ha n bs _ => scanArea_eq (hs.at hi) ha n bs) (by decide)]
    simp only [Option.toList_some, map_cons, map_nil, sum_cons, sum_nil,
      Nat.add_zero, nil_append]
    generalize (sp.vmm.areas.map VmArea.size).sum = vsize
    by_cases hlt : vsize < 2 ^ 64
    · rw [usizeAdd_of_lt (show 0 + vsize < 2 ^ 64 by omega), Nat.zero_add, Option.map_some,
        Option.bind_eq_bind, Option.bind_some]
      cases usizeAdd n vsize with
      | none | some => rfl
    · have hover : ∀ n, usizeAdd n vsize = none := fun n =>
        if_neg (show ¬ n + vsize < 2 ^ 64 by omega)
      rw [hover, hover]
      rfl

/-- The candidates with their excess, in their order. -/
def scored (s : Machine T) (table : List TaskRef) : List (Int × Candidate) :=
  let perTask := holdings s table
  let totalResident := perTask.foldl (fun n h => n + h.resident.length) 0
  (perTask.flatMap (score (totalVsize s table) totalResident)).insertionSort fun a b => b.1 ≤ a.1

/-- The sizes of the areas can be added up, and the list of the candidates fits in the heap. -/
def Gathers (s : Machine T) (table : List TaskRef) : Prop :=
  totalVsize s table < 2 ^ 64 ∧ (scored s table).length ≤ vecLimit 32

instance (s : Machine T) (table : List TaskRef) : Decidable (Gathers s table) :=
  inferInstanceAs (Decidable (_ ∧ _))

/-- `gather_candidates` returns exactly in these cases. -/
theorem gatherScored_eq (hs : s.InUserHalf) (htable : TableOk s table) :
    gatherScored s table = if Gathers s table then some (scored s table) else none := by
  unfold gatherScored
  rw [foldlM_usizeAdd (fun task ht n bs hn => gatherTask_eq hs (htable task ht) bs hn) (by decide)]
  show ((usizeAdd 0 (totalVsize s table)).map fun m => (m, [] ++ holdings s table)).bind _ = _
  unfold usizeAdd
  rw [Nat.zero_add, nil_append]
  by_cases hsum : totalVsize s table < 2 ^ 64
  · rw [if_pos hsum]
    refine if_congr ?_ rfl rfl
    rw [Gathers, scored, length_insertionSort]
    exact (and_iff_right hsum).symm
  · rw [if_neg hsum, if_neg fun h => hsum h.1]
    rfl

/-- A page is listed once for every area of a user task that has it. -/
theorem length_scored : (scored s table).length
    = (table.map fun task => ((holdingsOf s task).map fun h => h.resident.length).sum).sum := by
  unfold scored holdings score
  rw [length_insertionSort, flatMap_assoc, length_flatMap]
  simp only [length_flatMap, length_map]

variable {c : Candidate} {s' : Machine T}

/-- What is not resident any more is not listed any more. -/
theorem length_scored_le (hl : s'.layout = s.layout)
    (hgone : ∀ d : Candidate, d.leaf s = none → d.leaf s' = none) :
    (scored s' table).length ≤ (scored s table).length := by
  rw [length_scored, length_scored]
  refine sum_le_sum fun task _ => ?_
  unfold holdingsOf
  rw [hl]
  split
  · exact le_rfl
  rw [map_map, map_map]
  refine sum_le_sum fun x _ => ?_
  simp only [Function.comp_def, length_flatMap]
  refine sum_le_sum fun a _ => (monotone_filter_right _ fun addr h => ?_).length_le
  unfold translateAddr at h ⊢
  rw [Option.isSome_map, Option.isSome_iff_ne_none] at h ⊢
  exact fun hnone => h (hgone ⟨task.space, x.1, addr⟩ hnone)

/-- An element of the sorted list is a page of a holding. -/
theorem mem_scored_holdings : c ∈ (scored s table).map Prod.snd ↔ ∃ h ∈ holdings s table,
      c.space = h.space ∧ c.cr3 = h.cr3 ∧ c.vaddr ∈ h.resident := by
  unfold scored score
  simp only [mem_map, mem_insertionSort, mem_flatMap]
  constructor
  · intro ⟨_, ⟨h, hh, x, hx, hscore⟩, hc⟩
    subst hscore hc
    exact ⟨h, hh, rfl, rfl, hx⟩
  · intro ⟨h, hh, hspace, hcr3, hx⟩
    refine ⟨_, ⟨h, hh, c.vaddr, hx, rfl⟩, ?_⟩
    cases c
    cases hspace
    cases hcr3
    rfl

/-- They are the resident pages of the areas of the user tasks. -/
theorem mem_scored : c ∈ (scored s table).map Prod.snd ↔ c.Listed s table := by
  rw [mem_scored_holdings]
  unfold holdings holdingsOf
  constructor
  · intro ⟨h, hh, hspace, hcr3, hx⟩
    obtain ⟨task, ht, hh⟩ := mem_flatMap.mp hh
    split at hh
    · cases hh
    next huser =>
      obtain ⟨⟨root, areas⟩, hl, rfl⟩ := mem_map.mp hh
      obtain ⟨a, ha, hx⟩ := mem_flatMap.mp hx
      obtain ⟨hx, hres⟩ := mem_filter.mp hx
      obtain ⟨phys, hphys⟩ := Option.isSome_iff_exists.mp hres
      obtain ⟨e, he, _⟩ := translateAddr_inv hphys
      dsimp only at hspace hcr3
      rw [Option.mem_toList, ← hspace, ← hcr3] at hl
      rw [← hcr3] at he
      refine ⟨⟨task, ht, huser, hspace.symm⟩, ⟨areas, hl, a, ha, hx⟩, ?_⟩
      rw [Candidate.leaf, he]
      exact Option.some_ne_none e
  · intro ⟨⟨task, ht, huser, hspace⟩, ⟨areas, hl, a, ha, hx⟩, hres⟩
    refine ⟨⟨c.space, c.cr3, (areas.map VmArea.size).sum,
      areas.flatMap (residentIn s.shared c.cr3)⟩, mem_flatMap.mpr ⟨task, ht, ?_⟩, rfl, rfl,
      mem_flatMap.mpr ⟨a, ha, ?_⟩⟩
    · rw [if_neg huser, hspace, hl]
      exact mem_singleton.mpr rfl
    · refine mem_filter.mpr ⟨hx, ?_⟩
      rw [translateAddr, Option.isSome_map]
      exact Option.isSome_iff_ne_none.mpr hres

theorem Candidate.Listed.inSpace (h : c.Listed s table) (hs : s.InUserHalf) : c.In s := by
  obtain ⟨areas, hl, a, ha, hx⟩ := h.area
  refine ⟨⟨areas, hl⟩, ?_⟩
  rw [Machine.layout, getElem?_map] at hl
  obtain ⟨sp, hi, heq⟩ := map_inv hl
  obtain rfl : sp.vmm.areas = areas := congrArg Prod.snd heq
  have hend : c.vaddr < a.end_ := (mem_pageAddrs hx).2
  have htop : a.end_ ≤ userStackTop := (hs.at hi).top a ha
  exact Nat.lt_of_lt_of_le hend (Nat.le_trans htop (by decide))

theorem totalVsize_congr (h : s'.layout = s.layout) : totalVsize s' table = totalVsize s table := by
  have hone : ∀ task,
      (holdingsOf s' task).map Holding.vsize = (holdingsOf s task).map Holding.vsize := by
    intro task
    unfold holdingsOf
    by_cases huser : task.userEntry = 0
    · rw [if_pos huser, if_pos huser]
    · rw [if_neg huser, if_neg huser, h, map_map, map_map]
      refine map_congr_left fun x _ => ?_
      obtain ⟨root, areas⟩ := x
      show (areas.map VmArea.size).sum = (areas.map VmArea.size).sum
      rfl
  unfold totalVsize
  simp only [hone]

end

/-! ## What the reaper relies on -/

/-- The number of free swap slots. -/
def Machine.freeSlots (s : Machine T) : Nat := s.shared.swap.free.count true

/-- The invariants of the address spaces and of the swap partition, whatever they hold. -/
structure Machine.Ready (s : Machine T) (pages : Nat) : Prop where
  half : s.InUserHalf
  swap : s.shared.swap.Ok pages

/-- A candidate has been evicted. -/
structure Evicts (c : Candidate) (s s' : Machine T) : Prop where
  leaf : ∀ d : Candidate, d.leaf s' = if c.SameLeaf T d then none else d.leaf s
  count : s'.freeCount = s.freeCount + 1
  slots : s'.freeSlots + 1 = s.freeSlots
  layout : s'.layout = s.layout

/-- The accessed bit of a candidate has been cleared. -/
structure Clears (c : Candidate) (s s' : Machine T) : Prop where
  leaf : ∀ d : Candidate, d.leaf s' = if c.SameLeaf T d
    then (d.leaf s).map fun e => { e with flags := { e.flags with accessed := false } }
    else d.leaf s
  count : s'.freeCount = s.freeCount
  slots : s'.freeSlots = s.freeSlots
  layout : s'.layout = s.layout

section

variable {s s' : Machine T} {i pages vaddr root : Nat} {sp : Space} {c : Candidate}

theorem layout_put {sp' : Space} {shared : Shared T} (hi : s.spaces[i]? = some sp)
    (hroot : sp'.root = sp.root) (hareas : sp'.vmm.areas = sp.vmm.areas) :
    (s.put i sp' shared).layout = s.layout := by
  obtain ⟨hlt, rfl⟩ := List.getElem?_eq_some_iff.mp hi
  unfold Machine.layout Machine.put
  rw [map_set, hroot, hareas]
  refine ext_getElem? fun j => ?_
  rw [List.getElem?_set]
  split
  next hij =>
    subst hij
    rw [length_map, if_pos hlt, List.getElem?_map, List.getElem?_eq_getElem hlt]
    rfl
  · rfl

/-- A slot that was free is not any more. -/
theorem count_set_false {free : List Bool} {slot : Nat} (h : free.getD slot false = true) :
    (free.set slot false).count true + 1 = free.count true := by
  rw [getD_eq_getElem?_getD] at h
  cases hget : free[slot]? with
  | none =>
    rw [hget] at h
    exact nomatch h
  | some b =>
    rw [hget] at h
    obtain rfl : b = true := h
    obtain ⟨hlt, hb⟩ := List.getElem?_eq_some_iff.mp hget
    have hpos : 0 < free.count true := count_pos_iff.mpr (hb ▸ getElem_mem hlt)
    rw [count_set hlt, hb]
    simp only [beq_self_eq_true, if_true, Bool.false_eq_true, beq_iff_eq, if_false]
    omega

/-- `evict_addr` of a page of the user half returns: there is nothing to evict or nowhere to put
it, or the page goes to a slot that was free. -/
theorem evictAddr_spec {v : Vmm} {c : Shared T} (hpresent : c.Present) (hswap : c.swap.Ok pages)
    (root : Nat) (hva : vaddr < 2 ^ 47) :
    (evictAddr v c root vaddr = some (false, v, c) ∧
      (c.leaf root (vaddr / 4096) = none ∨ true ∉ c.swap.free)) ∨
    ∃ e slot swap v', c.leaf root (vaddr / 4096) = some e ∧ c.swap.free.getD slot false = true ∧
      swap.free = c.swap.free.set slot false ∧
      evictAddr v c root vaddr = some (true, v', ({ c with
        swap := swap
        tables := T.unmap c.tables root (vaddr / 4096) } : Shared T).deallocate e.frame) := by
  have hvirt : virtAddr vaddr = some vaddr := if_pos (.inl hva)
  unfold evictAddr
  rw [bind_of_eq hvirt]
  unfold translateAddr pageFlags
  cases hl : c.leaf root (vaddr / 4096) with
  | none => exact .inl ⟨rfl, .inl rfl⟩
  | some e =>
    simp only [Option.map_some]
    have hframe : (frameAddr e.frame + vaddr % 4096) / 4096 = e.frame := by
      unfold frameAddr
      omega
    rw [hframe]
    rcases SwapPartition.swapOut_spec c.mem e.frame hswap with
      ⟨hfull, hout⟩ | ⟨slot, swap, hout, _, hfree, hset, _, _⟩
    · rw [hout]
      exact .inl ⟨rfl, .inr hfull⟩
    · have hun : unmapPage { c with swap := swap } root (vaddr / 4096) = some (e.frame,
          { c with swap := swap, tables := T.unmap c.tables root (vaddr / 4096) }) :=
        unmapPage_of_leaf (c := { c with swap := swap }) hpresent hl
      refine .inr ⟨e, slot, swap, v.recordSwapped (alignDown vaddr) slot
        { e.flags with accessed := false, dirty := false }, rfl, hfree, hset, ?_⟩
      simp only [hout, hun, Option.bind_eq_bind, Option.bind_some]

theorem Candidate.In.space_get (h : c.In s) :
    ∃ sp, s.spaces[c.space]? = some sp ∧ sp.root = c.cr3 := by
  obtain ⟨areas, hl⟩ := h.task
  rw [Machine.layout, getElem?_map] at hl
  obtain ⟨sp, hi, hsp⟩ := map_inv hl
  exact ⟨sp, hi, congrArg Prod.fst hsp⟩

/-- The reaper's call, for a candidate. -/
theorem evict_spec (h : s.Ready pages) (hc : c.In s) :
    (evict s c.space c.vaddr = some (false, s) ∧ (c.leaf s = none ∨ s.freeSlots = 0)) ∨
    ∃ s', evict s c.space c.vaddr = some (true, s') ∧ 0 < s.freeSlots ∧ Evicts c s s' ∧
      s'.Ready pages := by
  obtain ⟨sp, hi, hroot⟩ := hc.space_get
  rcases evictAddr_spec (v := sp.vmm) h.half.present h.swap sp.root hc.half with
    ⟨he, hwhy⟩ | ⟨e, slot, swap, v', hl, hfree, hset, he⟩
  · refine .inl ⟨?_, ?_⟩
    · unfold evict
      rw [bind_of_eq hi, bind_of_eq he]
      exact congrArg (fun s => some (false, s)) (Machine.put_self hi)
    · rw [hroot] at hwhy
      exact hwhy.imp_right count_eq_zero.mpr
  · have hevict : evict s c.space c.vaddr = some (true, s.put c.space { sp with vmm := v' }
        (({ s.shared with
          swap := swap
          tables := T.unmap s.shared.tables sp.root (c.vaddr / 4096) } : Shared T).deallocate
            e.frame)) := by
      unfold evict
      rw [bind_of_eq hi, bind_of_eq he]
    have hcount := count_set_false hfree
    refine .inr ⟨_, hevict, ?_, ⟨?_, rfl, ?_, ?_⟩, ⟨evict_inUserHalf h.half hevict, ?_⟩⟩
    · show 0 < s.shared.swap.free.count true
      omega
    · intro d
      rw [hroot]
      exact T.leaf_unmap ..
    · show swap.free.count true + 1 = s.shared.swap.free.count true
      rw [hset]
      exact hcount
    · exact layout_put hi rfl (evictAddr_areas he)
    · exact evictAddr_swap h.swap he

/-- `clear_accessed` of a page that was accessed. -/
theorem clearAccessed_spec {e : Entry} (h : s.Ready pages) (hl : c.leaf s = some e)
    (ha : e.flags.accessed = true) :
    Clears c s { s with shared := clearAccessed s.shared c.cr3 c.vaddr } ∧
      ({ s with shared := clearAccessed s.shared c.cr3 c.vaddr } : Machine T).Ready pages := by
  have hpage : alignDown c.vaddr / 4096 = c.vaddr / 4096 := Nat.mul_div_cancel _ (by decide)
  have hflags : pageFlags s.shared c.cr3 (alignDown c.vaddr) = some e.flags := by
    unfold pageFlags
    rw [hpage]
    exact congrArg (Option.map Entry.flags) hl
  have hclear : clearAccessed s.shared c.cr3 c.vaddr = { s.shared with
      tables := T.updateFlags s.shared.tables c.cr3 (c.vaddr / 4096)
        { e.flags with accessed := false } } := by
    unfold clearAccessed
    rw [hflags]
    exact if_pos ha
  have hremap : remapFlags s.shared c.cr3 (c.vaddr / 4096) { e.flags with accessed := false }
      = some (clearAccessed s.shared c.cr3 c.vaddr) := by
    unfold Candidate.leaf at hl
    unfold remapFlags
    rw [hl, hclear]
  refine ⟨⟨fun d => ?_, ?_, ?_, rfl⟩, ⟨h.half.spaces, ?_⟩, ?_⟩
  · rw [hclear]
    refine (T.leaf_updateFlags ..).trans ?_
    -- an entry that is shared has the same flags
    split
    next hs =>
      have hd : d.leaf s = some e := (leaf_sameLeaf hs).trans hl
      refine Eq.trans ?_ (if_pos hs).symm
      show Option.map _ (d.leaf s) = _
      rw [hd]
      rfl
    next hs => exact (if_neg hs).symm
  · show (clearAccessed s.shared c.cr3 c.vaddr).frameAllocator.freeCount = _
    rw [hclear]
    rfl
  · show (clearAccessed s.shared c.cr3 c.vaddr).swap.free.count true = _
    rw [hclear]
    rfl
  · exact remapFlags_present hremap h.half.present (h.half.present hl)
  · show (clearAccessed s.shared c.cr3 c.vaddr).swap.Ok pages
    rw [hclear]
    exact h.swap

end

/-! ## A visit -/

/-- What a visit of a candidate in a sweep can do. -/
inductive Visited (target sweep : Nat) (c : Candidate) (r : Sweep T) : Sweep T → Prop
  | stopped (hstop : r.stop = true) : Visited target sweep c r r
  | absent (hbits : c.leaf r.machine = none) : Visited target sweep c r r
  | full (hfull : r.machine.freeSlots = 0) : Visited target sweep c r r
  | spared {e : Entry} (hleaf : c.leaf r.machine = some e)
    (htakes : takes sweep (e.flags.accessed, e.flags.dirty) = false)
    (hdue : (e.flags.accessed && decide (1 ≤ sweep)) = false) : Visited target sweep c r r
  | cleared {e : Entry} {s : Machine T} (hleaf : c.leaf r.machine = some e)
    (htakes : takes sweep (e.flags.accessed, e.flags.dirty) = false)
    (hdue : (e.flags.accessed && decide (1 ≤ sweep)) = true)
    (hclear : Clears c r.machine s) : Visited target sweep c r { r with machine := s }
  | evicted {e : Entry} {s : Machine T} (hstop : r.stop = false) (hleaf : c.leaf r.machine = some e)
    (htakes : takes sweep (e.flags.accessed, e.flags.dirty) = true)
    (hevict : Evicts c r.machine s) :
    Visited target sweep c r ⟨s, r.evicted ++ [c], decide (target ≤ s.freeCount)⟩

theorem Visited.layout {sweep : Nat} {c : Candidate} {r' : Sweep T}
    (h : Visited target sweep c r r') : r'.machine.layout = r.machine.layout := by
  cases h with
  | stopped | absent | full | spared => rfl
  | cleared _ _ _ hclear => exact hclear.layout
  | evicted _ _ _ hevict => exact hevict.layout

theorem visit_cases {c : Candidate} {pages : Nat} (target sweep : Nat)
    (h : r.machine.Ready pages) (hc : c.In r.machine) :
    ∃ r', visit target sweep r c = some r' ∧ r'.machine.Ready pages ∧
      Visited target sweep c r r' := by
  unfold visit
  by_cases hstop : r.stop = true
  · rw [if_pos hstop]
    exact ⟨r, rfl, h, .stopped hstop⟩
  rw [if_neg hstop]
  have hbits : readBits r.machine.shared c.cr3 c.vaddr
      = (c.leaf r.machine).map fun e => (e.flags.accessed, e.flags.dirty) := Option.map_map ..
  rw [hbits]
  cases hl : c.leaf r.machine with
  | none => exact ⟨r, rfl, h, .absent hl⟩
  | some e =>
    dsimp only [Option.map_some]
    by_cases htakes : takes sweep (e.flags.accessed, e.flags.dirty) = true
    · rw [if_pos htakes]
      rcases evict_spec h hc with ⟨he, hwhy⟩ | ⟨s, he, _, hevict, hready⟩
      · rw [he]
        have hfull := hwhy.resolve_left (by rw [hl]; exact Option.some_ne_none e)
        exact ⟨r, rfl, h, .full hfull⟩
      · rw [he]
        exact ⟨_, rfl, hready, .evicted (Bool.eq_false_iff.mpr hstop) hl htakes hevict⟩
    · rw [if_neg htakes]
      have htakes := Bool.eq_false_iff.mpr htakes
      by_cases hdue : (e.flags.accessed && decide (sweep ≥ 1)) = true
      · rw [if_pos hdue]
        obtain ⟨hclear, hready⟩ := clearAccessed_spec h hl (Bool.and_eq_true_iff.mp hdue).1
        exact ⟨_, rfl, hready, .cleared hl htakes hdue hclear⟩
      · rw [if_neg hdue]
        exact ⟨r, rfl, h, .spared hl htakes (Bool.eq_false_iff.mpr hdue)⟩

end AlaphiOS.Memory
