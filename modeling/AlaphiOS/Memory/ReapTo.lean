import AlaphiOS.Memory.Reaper

/-!
# The reaper terminates and frees what it reports

`reap_to(target)` should return the number of frames it has added to the free ones, stop exactly at
the target, and if it stays below the target leave no resident page in an area of a user task or no
free swap slot (`Reaps`).

It does so after at most two rounds. A round keeps count (`Round`): it has freed a frame for every
page it has evicted, and it has stopped exactly if it is at the target. Its last sweep takes
anything, so a round that has not stopped leaves nothing to evict or nowhere to put it
(`round_returns`), and the next round evicts nothing.

Two things stop the kernel (`Gathers`): the sum of the sizes of all areas, which `gather_candidates`
computes as a `u64`, and the list of the candidates, which has to fit in a block of the heap. The
areas of a task may overlap, after `SYS_MPROTECT` and `SYS_BRK`, and a page is listed once for every
area that has it, so that a program with two resident pages is enough (`reaper_outgrows_heap`).
-/

namespace AlaphiOS.Memory

open Lib List Option

variable {T : PageTables}

/-- No area of a user task has a resident page. -/
def NoResident (s : Machine T) (table : List TaskRef) : Prop :=
  ∀ task ∈ table, task.userEntry ≠ 0 → ∀ sp, s.spaces[task.space]? = some sp →
    ∀ a ∈ sp.vmm.areas, ∀ addr, a.has addr = true → translateAddr s.shared sp.root addr = none

/-- There is nothing to evict, or nowhere to put it. -/
def Exhausted (s : Machine T) (table : List TaskRef) : Prop :=
  NoResident s table ∨ s.freeSlots = 0

/-- What a call that returns `reaped` should have done. -/
structure Reaped (s : Machine T) (table : List TaskRef) (target reaped : Nat) (s' : Machine T) :
    Prop where
  count : s'.freeCount = s.freeCount + reaped
  enough : target ≤ s.freeCount → reaped = 0 ∧ s' = s
  target : s.freeCount < target →
    s'.freeCount = target ∨ (s'.freeCount < target ∧ Exhausted s' table)

/-- The call terminates, and does this. -/
def Reaps (s : Machine T) (table : List TaskRef) (target : Nat) : Prop :=
  ∃ reaped s', (∀ fuel, 2 ≤ fuel → reapTo table target fuel s = some (reaped, s')) ∧
    Reaped s table target reaped s'

variable {s : Machine T} {table : List TaskRef} {target sweep pages : Nat} {r r' : Sweep T}
  {c : Candidate} {cs : List Candidate}

/-! ## One round -/

/-- A round that started at `s`, below the target. -/
structure Round (s : Machine T) (target : Nat) (r : Sweep T) : Prop where
  layout : r.machine.layout = s.layout
  gone : ∀ d : Candidate, d.leaf s = none → d.leaf r.machine = none
  count : r.machine.freeCount = s.freeCount + r.evicted.length
  slots : r.machine.freeSlots + r.evicted.length = s.freeSlots
  stopped : r.stop = true → r.machine.freeCount = target
  goesOn : r.stop = false → r.machine.freeCount < target

/-- The pages that the last sweep has visited are gone, unless it was stopped or swap is full. -/
def Swept (visited : List Candidate) (r : Sweep T) : Prop :=
  r.stop = false → r.machine.freeSlots ≠ 0 → ∀ c ∈ visited, c.leaf r.machine = none

variable {s' : Machine T} {d : Candidate}

theorem Evicts.gone (h : Evicts c s s') (hd : d.leaf s = none) : d.leaf s' = none := by
  rw [h.leaf]
  split
  · rfl
  · exact hd

theorem Evicts.self (h : Evicts c s s') : c.leaf s' = none := by
  rw [h.leaf]
  exact if_pos ⟨rfl, .inl rfl⟩

theorem Clears.gone (h : Clears c s s') (hd : d.leaf s = none) : d.leaf s' = none := by
  rw [h.leaf, hd]
  split
  · rfl
  · rfl

theorem Visited.round (h : Round s target r) (hv : Visited target sweep c r r') :
    Round s target r' := by
  have hlayout := hv.layout.trans h.layout
  cases hv with
  | stopped | absent | full | spared => exact h
  | cleared _ _ _ hclear =>
    refine ⟨hlayout, fun d hd => hclear.gone (h.gone d hd),
      hclear.count.trans h.count, ?_, ?_, ?_⟩
    · rw [hclear.slots]
      exact h.slots
    · rw [hclear.count]
      exact h.stopped
    · rw [hclear.count]
      exact h.goesOn
  | @evicted _ s₁ hstop _ _ hevict =>
    have hcount := h.count
    have hslots := h.slots
    have hlt := h.goesOn hstop
    have hnext := hevict.count
    have hone := hevict.slots
    refine ⟨hlayout, fun d hd => hevict.gone (h.gone d hd), ?_, ?_, ?_, ?_⟩
    · show s₁.freeCount = s.freeCount + (r.evicted ++ [c]).length
      rw [length_append, length_singleton]
      omega
    · show s₁.freeSlots + (r.evicted ++ [c]).length = s.freeSlots
      rw [length_append, length_singleton]
      omega
    · intro hat
      have hat : target ≤ s₁.freeCount := of_decide_eq_true hat
      show s₁.freeCount = target
      omega
    · intro hbelow
      exact Nat.lt_of_not_le (of_decide_eq_false hbelow)

theorem Visited.swept {visited : List Candidate} (h : Swept visited r)
    (hv : Visited target 2 c r r') : Swept (visited ++ [c]) r' := by
  intro hstop hslots d hd
  rcases mem_append.mp hd with hd | hd
  -- what was gone stays away
  · cases hv with
    | stopped | absent | full | spared => exact h hstop hslots d hd
    | cleared _ _ _ hclear => exact hclear.gone (h hstop (hclear.slots ▸ hslots) d hd)
    | evicted hgo _ _ hevict =>
      have hslots : r.machine.freeSlots ≠ 0 := by
        have := hevict.slots
        omega
      exact hevict.gone (h hgo hslots d hd)
  -- and this sweep takes anything
  · obtain rfl := mem_singleton.mp hd
    cases hv with
    | stopped h => exact absurd (h.symm.trans hstop) Bool.noConfusion
    | absent h => exact h
    | full h => exact absurd h hslots
    | spared _ htakes => exact absurd htakes Bool.noConfusion
    | cleared _ htakes => exact absurd htakes Bool.noConfusion
    | evicted _ _ _ hevict => exact hevict.self

/-- A sweep returns. -/
theorem sweep_returns (hin : ∀ c ∈ cs, c.In s) (hready : r.machine.Ready pages)
    (h : Round s target r) (sweep : Nat) :
    ∃ r', cs.foldlM (visit target sweep) r = some r' ∧ r'.machine.Ready pages ∧
      Round s target r' ∧ (sweep = 2 → Swept cs r') := by
  refine foldlM_returns (I := fun visited r => r.machine.Ready pages ∧ Round s target r ∧
    (sweep = 2 → Swept visited r)) ?_ ⟨hready, h, nofun⟩
  intro before c after r hcs ⟨hready, hround, hswept⟩
  have hc := hin c (hcs ▸ mem_append_right _ mem_cons_self)
  have hc' : c.In r.machine := ⟨hround.layout ▸ hc.task, hc.half⟩
  obtain ⟨r', hvisit, hready', hv⟩ := visit_cases target sweep hready hc'
  refine ⟨r', hvisit, hready', hv.round hround, fun h2 => ?_⟩
  subst h2
  exact hv.swept (hswept rfl)

/-- So does a round. -/
theorem reapRound_returns (hready : s.Ready pages) (hin : ∀ c ∈ cs, c.In s)
    (hlt : s.freeCount < target) :
    ∃ r, reapRound target s cs = some r ∧ r.machine.Ready pages ∧ Round s target r ∧
      Swept cs r := by
  have h₀ : Round s target ⟨s, [], false⟩ :=
    ⟨rfl, fun _ hd => hd, rfl, rfl, (fun h => nomatch h), fun _ => hlt⟩
  obtain ⟨r₁, hr₁, hready₁, h₁, _⟩ := sweep_returns hin hready h₀ 0
  obtain ⟨r₂, hr₂, hready₂, h₂, _⟩ := sweep_returns hin hready₁ h₁ 1
  obtain ⟨r₃, hr₃, hready₃, h₃, hswept⟩ := sweep_returns hin hready₂ h₂ 2
  exact ⟨r₃, reapRound_eq hr₁ hr₂ hr₃, hready₃, h₃, hswept rfl⟩

/-! ## The loop -/

/-- The candidates of `gather_candidates`, when it returns. -/
theorem gatherCandidates_eq (hs : s.InUserHalf) (htable : TableOk s table)
    (hsum : Gathers s table) :
    gatherCandidates s table = some ((scored s table).map Prod.snd) := by
  rw [gatherCandidates, gatherScored_eq hs htable, if_pos hsum]
  rfl

/-- If no candidate is left, no page is. -/
theorem noResident_of_listed (hs : s.InUserHalf) (h : ∀ c : Candidate, ¬ c.Listed s table) :
    NoResident s table := by
  intro task ht huser sp hi a ha addr hhas
  obtain ⟨hlo, hhi⟩ := has_iff.mp hhas
  obtain ⟨hstart, _, _⟩ := (hs.at hi).pages a ha
  by_contra hres
  -- the page of the address is one that the loop over the area visits
  have hpage : frameAddr (addr / 4096) ∈ pageAddrs a.start a.end_ := by
    refine mem_map.mpr ⟨(frameAddr (addr / 4096) - a.start) / 4096, mem_range.mpr ?_, ?_⟩
    · unfold frameAddr
      omega
    · unfold frameAddr
      omega
  refine h ⟨task.space, sp.root, frameAddr (addr / 4096)⟩ ⟨⟨task, ht, huser, rfl⟩,
    ⟨sp.vmm.areas, ?_, a, ha, hpage⟩, ?_⟩
  · rw [Machine.layout, getElem?_map, hi]
    rfl
  · rw [Candidate.leaf, frameAddr_div]
    intro hnone
    exact hres (by rw [translateAddr, hnone]; rfl)

theorem not_listed_of_noResident (h : NoResident s table) : ¬ c.Listed s table := by
  intro ⟨⟨task, ht, huser, hspace⟩, ⟨areas, hl, a, ha, hx⟩, hres⟩
  rw [Machine.layout, getElem?_map, ← hspace] at hl
  obtain ⟨sp, hi, heq⟩ := map_inv hl
  obtain ⟨hroot, rfl⟩ := Prod.mk.inj heq
  have hnone := h task ht huser sp hi a ha c.vaddr (has_iff.mpr (mem_pageAddrs hx))
  rw [hroot] at hnone
  exact hres (map_eq_none_iff.mp hnone)

/-- The round over the candidates: at the target, or there is nothing more to do. -/
theorem round_returns (table : List TaskRef) (hready : s.Ready pages) (hlt : s.freeCount < target) :
    ∃ r, reapRound target s ((scored s table).map Prod.snd) = some r ∧ r.machine.Ready pages ∧
      Round s target r ∧ (r.machine.freeCount = target ∨
        (r.machine.freeCount < target ∧ Exhausted r.machine table)) := by
  have hin : ∀ c ∈ (scored s table).map Prod.snd, c.In s :=
    fun c hc => (mem_scored.mp hc).inSpace hready.half
  obtain ⟨r, hr, hready', hround, hswept⟩ := reapRound_returns hready hin hlt
  refine ⟨r, hr, hready', hround, ?_⟩
  cases hstop : r.stop with
  | true => exact .inl (hround.stopped hstop)
  | false =>
    refine .inr ⟨hround.goesOn hstop, ?_⟩
    by_cases hslots : r.machine.freeSlots = 0
    · exact .inr hslots
    refine .inl (noResident_of_listed hready'.half fun c hc => ?_)
    -- a page that is resident now was so at first, and has been visited
    have hbefore : c.Listed s table :=
      ⟨hc.user, hround.layout ▸ hc.area, fun hnone => hc.resident (hround.gone c hnone)⟩
    exact hc.resident (hswept hstop hslots c (mem_scored.mpr hbefore))

/-- After that a round evicts nothing. -/
theorem evicted_of_exhausted (h : Exhausted s table) (hround : Round s target r)
    (hr : reapRound target s ((scored s table).map Prod.snd) = some r) : r.evicted = [] := by
  rcases h with hnone | hslots
  · have hnil : (scored s table).map Prod.snd = [] :=
      eq_nil_iff_forall_not_mem.mpr fun c hc =>
        not_listed_of_noResident hnone (mem_scored.mp hc)
    rw [hnil] at hr
    obtain rfl : ⟨s, [], false⟩ = r := some.inj hr
    rfl
  · have hslots' := hround.slots
    exact eq_nil_of_length_eq_zero (by omega)

/-- The body of the loop, with its round. -/
theorem reapTo_succ (hlt : s.freeCount < target)
    (hg : gatherCandidates s table = some cs) (hr : reapRound target s cs = some r) (fuel : Nat) :
    reapTo table target (fuel + 1) s = if r.evicted = [] then some (0, r.machine)
      else (reapTo table target fuel r.machine).map fun (n, s) => (r.evicted.length + n, s) := by
  rw [reapTo, if_neg (Nat.not_le_of_lt hlt), bind_of_eq hg]
  split
  next hnil =>
    subst hnil
    obtain rfl : ⟨s, [], false⟩ = r := some.inj hr
    exact (if_pos rfl).symm
  · rw [hr]
    rfl

theorem Round.tableOk (h : Round s target r) (htable : TableOk s table) :
    TableOk r.machine table := by
  have hlen : r.machine.spaces.length = s.spaces.length := by
    simpa only [Machine.layout, length_map] using congrArg length h.layout
  intro task ht huser
  rw [hlen]
  exact htable task ht huser

/-- The last time around: at the target, or with a round that evicts nothing. -/
theorem reapTo_last (hready : s.Ready pages) (htable : TableOk s table)
    (hsum : Gathers s table)
    (h : s.freeCount = target ∨ (s.freeCount < target ∧ Exhausted s table)) :
    ∃ s', (∀ fuel, 1 ≤ fuel → reapTo table target fuel s = some (0, s')) ∧
      s'.freeCount = s.freeCount ∧
      (s'.freeCount = target ∨ (s'.freeCount < target ∧ Exhausted s' table)) := by
  rcases h with hat | ⟨hlt, hex⟩
  · refine ⟨s, fun fuel hfuel => ?_, rfl, .inl hat⟩
    obtain ⟨fuel, rfl⟩ := Nat.exists_eq_add_of_le' hfuel
    rw [reapTo, if_pos (Nat.le_of_eq hat.symm)]
  · obtain ⟨r, hr, _, hround, hend⟩ := round_returns table hready hlt
    have hnone := evicted_of_exhausted hex hround hr
    have hcount := hround.count
    rw [hnone, length_nil, Nat.add_zero] at hcount
    refine ⟨r.machine, fun fuel hfuel => ?_, hcount, hend⟩
    obtain ⟨fuel, rfl⟩ := Nat.exists_eq_add_of_le' hfuel
    rw [reapTo_succ hlt (gatherCandidates_eq hready.half htable hsum) hr, if_pos hnone]

/-- With enough free frames there is nothing to do. -/
theorem reaps_of_enough (henough : target ≤ s.freeCount) : Reaps s table target := by
  refine ⟨0, s, fun fuel hfuel => ?_, rfl, fun _ => ⟨rfl, rfl⟩, fun hlt => ?_⟩
  · obtain ⟨fuel, rfl⟩ := Nat.exists_eq_add_of_le' hfuel
    rw [reapTo, if_pos henough]
  · exact absurd henough (Nat.not_le_of_lt hlt)

/-- If `gather_candidates` returns, two rounds are enough. -/
theorem reaps_of_gathers (hready : s.Ready pages) (htable : TableOk s table)
    (hsum : Gathers s table) : Reaps s table target := by
  by_cases henough : target ≤ s.freeCount
  · exact reaps_of_enough henough
  have hlt := Nat.lt_of_not_le henough
  obtain ⟨r, hr, hready₁, hround, hend⟩ := round_returns table hready hlt
  have hstep := reapTo_succ hlt (gatherCandidates_eq hready.half htable hsum) hr
  by_cases hnone : r.evicted = []
  · have hcount := hround.count
    rw [hnone] at hcount
    refine ⟨0, r.machine, fun fuel hfuel => ?_, hcount, fun h => absurd h henough, fun _ => hend⟩
    obtain ⟨fuel, rfl⟩ := Nat.exists_eq_add_of_le' hfuel
    rw [hstep, if_pos hnone]
  · have hsum₁ : Gathers r.machine table :=
      ⟨(totalVsize_congr hround.layout).symm ▸ hsum.1,
        Nat.le_trans (length_scored_le hround.layout hround.gone) hsum.2⟩
    obtain ⟨s', hlast, hcount, hend'⟩ :=
      reapTo_last hready₁ (hround.tableOk htable) hsum₁ hend
    refine ⟨r.evicted.length, s', fun fuel hfuel => ?_, hcount.trans hround.count,
      fun h => absurd h henough, fun _ => hend'⟩
    obtain ⟨fuel, rfl⟩ := Nat.exists_eq_add_of_le' hfuel
    rw [hstep, if_neg hnone, hlast _ (Nat.le_add_left 1 fuel)]
    rfl

/-- If not, it stops the kernel. -/
theorem reapTo_panics (hs : s.InUserHalf) (htable : TableOk s table)
    (hlt : s.freeCount < target) (hsum : ¬ Gathers s table) (fuel : Nat) :
    reapTo table target fuel s = none := by
  have hg : gatherCandidates s table = none := by
    rw [gatherCandidates, gatherScored_eq hs htable, if_neg hsum]
    rfl
  cases fuel with
  | zero => rfl
  | succ fuel =>
    rw [reapTo, if_neg (Nat.not_le_of_lt hlt), hg]
    rfl

/-- **The reaper terminates and frees what it reports.** For every state reached by loads, forks,
faults, evictions, breaks, protections and accesses, every table of tasks and every target: exactly
if there is nothing to do, or the sizes of the areas add up to less than 2⁶⁴ and the resident pages,
each counted once for every area that has it, are at most 2¹⁸. -/
theorem reaps_iff {s₀ : Machine T} {ops : List MemOp} (h₀ : s₀.Ready pages)
    (hloads : ∀ op ∈ ops, LoadsBelowStack op) (hrun : exec memStep s₀ ops = some s)
    (htable : TableOk s table) (target : Nat) :
    Reaps s table target ↔ target ≤ s.freeCount ∨ Gathers s table := by
  have hready : s.Ready pages := ⟨exec_inUserHalf h₀.half hloads hrun, exec_swap h₀.swap hrun⟩
  constructor
  · intro ⟨_, _, hreturns, _⟩
    by_contra hnot
    obtain ⟨hlt, hsum⟩ := not_or.mp hnot
    have hnone := reapTo_panics hready.half htable (Nat.lt_of_not_le hlt) hsum 2
    exact absurd (hnone.symm.trans (hreturns 2 le_rfl)) (by simp)
  · intro h
    rcases h with henough | hsum
    · exact reaps_of_enough henough
    · exact reaps_of_gathers hready htable hsum

/-- A heap of two pages, both resident. -/
theorem reaps_two_pages : ∃ s, exec memStep smallMachine [.load [0x90], .brk 0 0x403000,
      .fault 0 0x401000 true, .fault 0 0x402000 true] = some s ∧
    ∀ target, Reaps s [⟨0, userCodeBase⟩] target := by
  have hfacts : ∃ s ∈ exec memStep smallMachine [.load [0x90], .brk 0 0x403000,
      .fault 0 0x401000 true, .fault 0 0x402000 true],
      s.spaces.length = 1 ∧ Gathers s [⟨0, userCodeBase⟩] := by decide +kernel
  obtain ⟨s, hs, hlen, hsum⟩ := hfacts
  have htable := tableOk_single hlen userCodeBase
  have h₀ : smallMachine.Ready 4 := ⟨smallMachine_inUserHalf, smallMachine_fresh.swap⟩
  exact ⟨s, hs, fun target => (reaps_iff h₀ (by decide) hs htable target).mpr (.inr hsum)⟩

/-! ## A list that outgrows the heap -/

/-- The heap of a program of one page. -/
def heapBase : Nat := 0x401000

/-- The first page of the heap is protected, which splits the area, and the break moves on by a
page, which lets the first of the parts grow over the other again. -/
def regrow : Nat → Nat → List MemOp
  | _, 0 => []
  | brk, n + 1 =>
    .mprotect 0 heapBase 0x1000 2 :: .brk 0 (brk + 0x1000) :: regrow (brk + 0x1000) n

/-- The one task has the stack, a heap up to the break, and the areas `rest`. -/
structure Grown (c : Shared T) (root : Nat) (s : Machine T) (brk : Nat) (rest : List VmArea) :
    Prop where
  shared : s.shared = c
  spaces : s.spaces.map (fun sp => (sp.root, sp.heapStart, sp.brk, sp.vmm.areas))
    = [(root, heapBase, brk,
      ⟨userStackBottom, userStackTop, userFlags true⟩ :: ⟨heapBase, brk, userFlags true⟩ :: rest)]

section

variable {c : Shared T} {root : Nat} {s : Machine T} {brk : Nat} {rest : List VmArea}

theorem Grown.space (h : Grown c root s brk rest) : ∃ sp, s.spaces = [sp] ∧ sp.root = root ∧
    sp.heapStart = heapBase ∧ sp.brk = brk ∧ sp.vmm.areas =
      ⟨userStackBottom, userStackTop, userFlags true⟩ :: ⟨heapBase, brk, userFlags true⟩ :: rest := by
  obtain ⟨sp, hsp, heq⟩ := map_eq_singleton_iff.mp h.spaces
  simp only [Prod.mk.injEq] at heq
  exact ⟨sp, hsp, heq⟩

variable {v : Vmm} {sp : Space}

/-- The protection of the first page splits the heap. -/
theorem mprotect_heapBase (hareas : v.areas = ⟨userStackBottom, userStackTop, userFlags true⟩ ::
      ⟨heapBase, brk, userFlags true⟩ :: rest)
    (hleaf : c.leaf root (heapBase / 4096) = none) (hlt : heapBase + 0x1000 < brk) :
    mprotect v c root heapBase 0x1000 (userFlags true) = some (true, { v with
      areas := ⟨userStackBottom, userStackTop, userFlags true⟩ ::
        ⟨heapBase, heapBase + 0x1000, userFlags true⟩ ::
        ⟨heapBase + 0x1000, brk, userFlags true⟩ :: rest }, c) := by
  have hend : virtAdd heapBase 0x1000 = some (heapBase + 0x1000) := by decide
  have hfind : v.areas.findIdx? (fun a => a.has heapBase) = some 1 := by
    have hhas : (⟨heapBase, brk, userFlags true⟩ : VmArea).has heapBase = true :=
      has_iff.mpr ⟨le_rfl, Nat.lt_of_le_of_lt (Nat.le_add_right _ _) hlt⟩
    have hstack : ¬ (⟨userStackBottom, userStackTop, userFlags true⟩ : VmArea).has heapBase
        = true := fun h => absurd (has_iff.mp h).1 (by decide)
    rw [hareas, findIdx?_cons, if_neg hstack, findIdx?_cons, if_pos hhas]
    rfl
  have hbody : protectPage root (userFlags true) heapBase c = some c := by
    unfold protectPage translateAddr
    rw [hleaf]
    rfl
  have hloop : forPages (protectPage root (userFlags true)) heapBase (heapBase + 0x1000) c
      = some c := by
    show pageLoop _ _ 2 _ _ = _
    rw [pageLoop, if_pos (by decide), bind_of_eq hbody, bind_of_eq hend]
    rfl
  unfold mprotect
  rw [bind_of_eq hend, hfind]
  dsimp only
  rw [hareas]
  show (if heapBase + 0x1000 > brk then _ else _) = _
  rw [if_neg (Nat.not_lt_of_lt hlt), bind_of_eq hloop, if_neg (Nat.lt_irrefl _),
    if_pos hlt]
  rfl

/-- `SYS_MPROTECT` of the first page, when `mprotect` succeeds. -/
theorem sysMprotect_heapBase (hi : s.spaces[0]? = some sp)
    (h : mprotect sp.vmm s.shared sp.root heapBase 0x1000 (userFlags true)
      = some (true, v, s.shared)) :
    sysMprotect s 0 heapBase 0x1000 2 = some (true, s.put 0 { sp with vmm := v } s.shared) := by
  have hargs : ¬ (heapBase % 4096 ≠ 0 ∨ 0x1000 = 0) := by decide
  have hva : virtAddr heapBase = some heapBase := by decide
  have hround : usizeAdd 0x1000 0xFFF = some 0x1FFF := by decide
  have hflags : userFlags (2 &&& 2 ≠ 0) = userFlags true := rfl
  have hlen : alignDown 0x1FFF = 0x1000 := by decide
  unfold sysMprotect
  simp only [if_neg hargs, hround, hi, hva, hlen, hflags, h, bind_eq_bind, bind_some]

/-- `SYS_BRK` with a larger break below the stack. -/
theorem sysBrk_grows {newBrk : Nat} (hi : s.spaces[0]? = some sp)
    (hpage : newBrk % 4096 = 0) (hlo : sp.heapStart ≤ newBrk) (hgrow : sp.brk < newBrk)
    (hhi : newBrk < userStackBottom) :
    sysBrk s 0 newBrk = some (newBrk, s.put 0 { sp with
      vmm := sp.vmm.setHeapEnd sp.heapStart newBrk (userFlags true)
      brk := newBrk } s.shared) := by
  have hbound : newBrk + 0xFFF < 2 ^ 64 := by
    unfold userStackBottom userStackTop userStackSize at hhi
    omega
  have halign : alignDown (newBrk + 0xFFF) = newBrk := by
    unfold alignDown
    omega
  have hin : ¬ (newBrk < sp.heapStart ∨ newBrk ≥ userStackTop - userStackSize) := by
    unfold userStackBottom at hhi
    omega
  unfold sysBrk
  rw [bind_of_eq hi, if_neg (by omega), bind_of_eq (usizeAdd_of_lt hbound)]
  simp only [halign, if_neg hin, if_pos (show newBrk > sp.brk from hgrow)]

/-- One more area. -/
theorem Grown.step (h : Grown c root s brk rest) (hleaf : c.leaf root (heapBase / 4096) = none)
    (hpage : brk % 4096 = 0) (hlt : heapBase + 0x1000 < brk)
    (hend : brk + 0x1000 < userStackBottom) :
    ∃ s', exec memStep s [.mprotect 0 heapBase 0x1000 2, .brk 0 (brk + 0x1000)] = some s' ∧
      Grown c root s' (brk + 0x1000) (⟨heapBase + 0x1000, brk, userFlags true⟩ :: rest) := by
  obtain ⟨sp, hsp, rfl, hheap, hbrk, hareas⟩ := h.space
  obtain rfl := h.shared
  have hi : s.spaces[0]? = some sp := by rw [hsp]; rfl
  obtain ⟨v, hv, hprotect⟩ : ∃ v : Vmm, v.areas = [⟨userStackBottom, userStackTop, userFlags true⟩]
      ++ ⟨heapBase, heapBase + 0x1000, userFlags true⟩ ::
        ⟨heapBase + 0x1000, brk, userFlags true⟩ :: rest ∧
      mprotect sp.vmm s.shared sp.root heapBase 0x1000 (userFlags true)
        = some (true, v, s.shared) := ⟨_, rfl, mprotect_heapBase hareas hleaf hlt⟩
  have hfirst := sysMprotect_heapBase hi hprotect
  have hlo : heapBase ≤ brk + 0x1000 := Nat.le_trans (Nat.le_add_right _ _)
    (Nat.le_trans (Nat.le_of_lt hlt) (Nat.le_add_right _ _))
  have hi' : (s.put 0 { sp with vmm := v } s.shared).spaces[0]? = some { sp with vmm := v } :=
    Machine.put_getElem hi
  have hsecond := sysBrk_grows hi' (show (brk + 0x1000) % 4096 = 0 by omega) (hheap.symm ▸ hlo)
    (show sp.brk < brk + 0x1000 by omega) hend
  have hgrow : v.setHeapEnd heapBase (brk + 0x1000) (userFlags true) = { v with
      areas := [⟨userStackBottom, userStackTop, userFlags true⟩]
        ++ ⟨heapBase, brk + 0x1000, userFlags true⟩ ::
          ⟨heapBase + 0x1000, brk, userFlags true⟩ :: rest } := by
    refine Vmm.setHeapEnd_found hv ?_ rfl
    intro b hb
    rw [mem_singleton.mp hb]
    decide
  refine ⟨(s.put 0 { sp with vmm := v } s.shared).put 0 { sp with
      vmm := v.setHeapEnd sp.heapStart (brk + 0x1000) (userFlags true)
      brk := brk + 0x1000 } s.shared, ?_, rfl, ?_⟩
  · rw [exec, memStep, hfirst, map_some, bind_some, exec, memStep, hsecond]
    rfl
  · simp only [Machine.put, hsp, set_cons_zero, map_cons, map_nil, hheap, hgrow]
    rfl

/-- Each step adds an area that begins with the second page of the heap and has the third. -/
theorem regrow_grown (hleaf : c.leaf root (heapBase / 4096) = none) (n : Nat)
    (h : Grown c root s brk rest) (hpage : brk % 4096 = 0)
    (hlo : heapBase + 0x3000 ≤ brk) (hhi : brk + n * 0x1000 < userStackBottom) :
    ∃ s' more, exec memStep s (regrow brk n) = some s' ∧
      Grown c root s' (brk + n * 0x1000) (more ++ rest) ∧ more.length = n ∧
      ∀ a ∈ more, a.start = heapBase + 0x1000 ∧ heapBase + 0x3000 ≤ a.end_ := by
  induction n generalizing s brk rest with
  | zero =>
    exact ⟨s, [], rfl, h, rfl, nofun⟩
  | succ n ih =>
    obtain ⟨s₁, hrun₁, h₁⟩ := h.step hleaf hpage (by omega) (by omega)
    obtain ⟨s', more, hrun, h', hlen, hmore⟩ := ih h₁ (by omega) (by omega) (by omega)
    refine ⟨s', more ++ [⟨heapBase + 0x1000, brk, userFlags true⟩], ?_, ?_, ?_, fun a ha => ?_⟩
    · obtain ⟨s₂, hs₂, hrun₁⟩ := exec_cons hrun₁
      obtain ⟨s₃, hs₃, hrun₁⟩ := exec_cons hrun₁
      cases hrun₁
      rw [regrow, exec, hs₂, bind_some, exec, hs₃, bind_some]
      exact hrun
    · rw [show brk + (n + 1) * 0x1000 = brk + 0x1000 + n * 0x1000 by omega, append_assoc]
      exact h'
    · rw [length_append, hlen]
      rfl
    · rcases mem_append.mp ha with ha | ha
      · exact hmore a ha
      · obtain rfl := mem_singleton.mp ha
        exact ⟨rfl, hlo⟩

/-- With its second and third page resident, such an area lists two pages. -/
theorem two_le_residentIn {a : VmArea} (hstart : a.start = heapBase + 0x1000)
    (hend : heapBase + 0x3000 ≤ a.end_) (h₁ : (translateAddr c root (heapBase + 0x1000)).isSome)
    (h₂ : (translateAddr c root (heapBase + 0x2000)).isSome) :
    2 ≤ (residentIn c root a).length := by
  have hpages : pageAddrs a.start a.end_ = (heapBase + 0x1000) :: (heapBase + 0x2000) ::
      pageAddrs (heapBase + 0x3000) a.end_ := by
    rw [hstart, pageAddrs_of_lt (by omega), pageAddrs_of_lt (by omega),
      show heapBase + 0x1000 + 4096 = heapBase + 0x2000 by omega,
      show heapBase + 0x2000 + 4096 = heapBase + 0x3000 by omega]
  have hfilter : ∀ {x : Nat} {l : List Nat}, (translateAddr c root x).isSome = true →
      (l.filter fun x => (translateAddr c root x).isSome).length + 1
        = ((x :: l).filter fun x => (translateAddr c root x).isSome).length := by
    intro x l hx
    rw [filter_cons, if_pos hx, length_cons]
  rw [residentIn, hpages, ← hfilter h₁, ← hfilter h₂]
  exact Nat.le_add_left 2 _

theorem regrow_loads : ∀ (n brk : Nat), ∀ op ∈ regrow brk n, LoadsBelowStack op := by
  intro n
  induction n with
  | zero => exact nofun
  | succ n ih =>
    intro brk op hop
    rcases mem_cons.mp hop with rfl | hop
    · trivial
    rcases mem_cons.mp hop with rfl | hop
    · trivial
    exact ih _ op hop

end

/-- A program with a heap of three pages, of which it has written to the second and the third, that
2¹⁷ + 1 times protects the first page and moves the break by a page: every call of the reaper with
something to do panics. -/
theorem reaper_outgrows_heap : ∃ s₀ s, exec memStep smallMachine [.load [0x90], .brk 0 0x404000,
      .fault 0 0x402000 true, .fault 0 0x403000 true] = some s₀ ∧
    exec memStep s₀ (regrow 0x404000 (2 ^ 17 + 1)) = some s ∧
    ∀ target, s.freeCount < target →
      (∀ fuel, reapTo [⟨0, userCodeBase⟩] target fuel s = none) ∧
        ¬ Reaps s [⟨0, userCodeBase⟩] target := by
  have hfacts : ∃ s₀ ∈ exec memStep smallMachine [.load [0x90], .brk 0 0x404000,
      .fault 0 0x402000 true, .fault 0 0x403000 true], ∃ sp ∈ s₀.spaces.head?,
      s₀.spaces.map (fun sp => (sp.root, sp.heapStart, sp.brk, sp.vmm.areas))
        = [(sp.root, heapBase, 0x404000, [⟨userStackBottom, userStackTop, userFlags true⟩,
          ⟨heapBase, 0x404000, userFlags true⟩])] ∧
      s₀.shared.leaf sp.root (heapBase / 4096) = none ∧
      (translateAddr s₀.shared sp.root (heapBase + 0x1000)).isSome ∧
      (translateAddr s₀.shared sp.root (heapBase + 0x2000)).isSome := by decide +kernel
  obtain ⟨s₀, hs₀, sp₀, _, hspaces, hleaf, h₁, h₂⟩ := hfacts
  obtain ⟨s, more, hs, h, hlen, hmore⟩ :=
    regrow_grown hleaf (2 ^ 17 + 1) ⟨rfl, hspaces⟩ (by decide) (by decide) (by decide)
  have hhalf : s.InUserHalf := by
    have hhalf₀ := exec_inUserHalf smallMachine_inUserHalf (by decide) hs₀
    exact exec_inUserHalf hhalf₀ (regrow_loads _ _) hs
  obtain ⟨sp, hsp, hroot, _, _, hareas⟩ := h.space
  have htable : TableOk s [⟨0, userCodeBase⟩] := tableOk_single (by rw [hsp]; rfl) _
  have hout : ¬ Gathers s [⟨0, userCodeBase⟩] := by
    intro ⟨_, hfits⟩
    have hlimit : vecLimit 32 = 2 ^ 18 := by decide
    have hcount : (scored s [⟨0, userCodeBase⟩]).length
        = (sp.vmm.areas.map fun a => (residentIn s.shared sp.root a).length).sum := by
      rw [length_scored]
      unfold holdingsOf Machine.layout
      rw [hsp]
      simp only [map_cons, map_nil, sum_cons, sum_nil, Nat.add_zero]
      exact length_flatMap
    have htwo : more.length * 2 ≤ (more.map fun a => (residentIn s.shared sp.root a).length).sum := by
      rw [← sum_replicate_nat, ← map_const']
      refine sum_le_sum fun a ha => ?_
      rw [h.shared, hroot]
      exact two_le_residentIn (hmore a ha).1 (hmore a ha).2 h₁ h₂
    rw [hcount, hareas, append_nil, map_cons, map_cons, sum_cons, sum_cons,
      hlimit] at hfits
    omega
  refine ⟨s₀, s, hs₀, hs, fun target hlt => ⟨reapTo_panics hhalf htable hlt hout, ?_⟩⟩
  intro ⟨_, _, hreturns, _⟩
  have hnone := reapTo_panics hhalf htable hlt hout 2
  exact absurd (hnone.symm.trans (hreturns 2 le_rfl)) (by simp)

end AlaphiOS.Memory
