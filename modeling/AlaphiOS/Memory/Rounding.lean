import AlaphiOS.Memory.Mprotect
import AlaphiOS.Memory.UserHalf

/-!
# Rounding to pages in `SYS_BRK` and `SYS_MPROTECT`

Both calls round a number of the program up to pages before they check it. `SYS_BRK` should refuse,
and change nothing, whenever the rounded break is not between the start of the heap and the stack
(`BrkSafe`); `SYS_MPROTECT` should accept only a range that one area has, and change nothing
otherwise (`MprotectSafe`).

They do, for every argument for which the rounding and the end of the range are numbers of their
type: the rounding overflows for the last 4095 numbers, and an address that is not canonical stops
the kernel when it is made a `VirtAddr`.
-/

namespace AlaphiOS.Memory

open Lib
open Option (isSome_iff_exists)

variable {T : PageTables}

/-- Rounded up to pages, as a number without a bound. -/
def pageRound (n : Nat) : Nat := alignDown (n + 0xFFF)

/-- `SYS_BRK` returns, and if the rounded break is not in the heap's range it returns the old break
and changes nothing. -/
def BrkSafe (s : Machine T) (i newBrk : Nat) : Prop :=
  ∃ ret s', sysBrk s i newBrk = some (ret, s') ∧
    ∀ sp, s.spaces[i]? = some sp →
      pageRound newBrk < sp.heapStart ∨ userStackBottom ≤ pageRound newBrk → ret = sp.brk ∧ s' = s

/-- `SYS_MPROTECT` returns; it succeeds only if an area has the whole range, and if it fails it
changes nothing. -/
def MprotectSafe (s : Machine T) (i addr len prot : Nat) : Prop :=
  ∃ ok s', sysMprotect s i addr len prot = some (ok, s') ∧
    (ok = true → ∃ sp, s.spaces[i]? = some sp ∧
      ∃ a ∈ sp.vmm.areas, a.start ≤ addr ∧ addr + len ≤ a.end_) ∧
    (ok = false → s' = s)

/-- The rounding fits. -/
def BrkFits (newBrk : Nat) : Prop := newBrk + 0xFFF < 2 ^ 64

/-- The call is refused at once, or the rounding fits and both ends are virtual addresses. -/
def MprotectFits (addr len : Nat) : Prop :=
  addr % 4096 ≠ 0 ∨ len = 0 ∨
    (len + 0xFFF < 2 ^ 64 ∧ Canonical addr ∧ Canonical (addr + pageRound len))

variable {s : Machine T} {i addr len prot newBrk : Nat} {sp : Space} {c : Shared T}

/-- A page that is there can be released. -/
theorem releasePage_returns (h : c.Present) (root addr : Nat) :
    ∃ c', releasePage root addr c = some c' ∧ c'.Present := by
  cases hp : translateAddr c root addr with
  | none => exact ⟨c, by rw [releasePage, hp], h⟩
  | some phys =>
    obtain ⟨e, he, _⟩ := translateAddr_inv hp
    have hrelease : releasePage root addr c
        = some (({ c with tables := T.unmap c.tables root (addr / 4096) } : Shared T).deallocate
          e.frame) := by
      rw [releasePage, hp]
      dsimp only
      rw [unmapPage_of_leaf h he]
      rfl
    exact ⟨_, hrelease, releasePage_present h hrelease⟩

/-- A rounding that does not fit stops the kernel, and any other returns. -/
theorem sysBrk_isSome_iff (hs : s.InUserHalf) (hi : s.spaces[i]? = some sp) :
    (sysBrk s i newBrk).isSome ↔ BrkFits newBrk := by
  have hsp := hs.at hi
  unfold sysBrk BrkFits
  rw [bind_of_eq hi]
  by_cases hzero : newBrk = 0
  · rw [if_pos hzero, hzero]
    exact ⟨fun _ => by decide, fun _ => rfl⟩
  · rw [if_neg hzero]
    by_cases hlt : newBrk + 0xFFF < 2 ^ 64
    · refine ⟨fun _ => hlt, fun _ => ?_⟩
      rw [bind_of_eq (usizeAdd_of_lt hlt)]
      dsimp only
      split
      · rfl
      · split
        · rfl
        · split
          -- the pages between the new and the old break are released
          next hshrink =>
            obtain ⟨c', hloop, _⟩ : ∃ c', forPages (releasePage sp.root)
                (alignDown (newBrk + 0xFFF)) sp.brk s.shared = some c' ∧ c'.Present := by
              refine forPages_returns (fun x c _ _ _ h => releasePage_returns h sp.root x) ?_
                hs.present
              intro x _ hx hmod
              have htop : sp.brk ≤ userStackTop := Nat.le_trans hsp.brk.2 (Nat.sub_le _ _)
              exact canonical_next (alignDown_mod _) hsp.brk.1 htop hx hmod
            rw [shrinkHeap, hloop]
            rfl
          · rfl
    · rw [usizeAdd, if_neg hlt]
      exact ⟨fun h => (by cases h), fun h => absurd h hlt⟩

/-- A break that is refused is left as it was. -/
theorem sysBrk_refused {s' : Machine T} {ret : Nat} (hi : s.spaces[i]? = some sp)
    (hout : pageRound newBrk < sp.heapStart ∨ userStackBottom ≤ pageRound newBrk)
    (h : sysBrk s i newBrk = some (ret, s')) : ret = sp.brk ∧ s' = s := by
  obtain ⟨sp₁, hi₁, h⟩ := bind_inv h
  cases hi.symm.trans hi₁
  split at h
  · cases h
    exact ⟨rfl, rfl⟩
  · obtain ⟨top, htop, h⟩ := bind_inv h
    obtain ⟨rfl, _⟩ := usizeAdd_eq htop
    dsimp only at h
    split at h
    · cases h
      exact ⟨rfl, rfl⟩
    next hin => exact absurd hout hin

theorem brkSafe_iff (hs : s.InUserHalf) (hi : s.spaces[i]? = some sp) :
    BrkSafe s i newBrk ↔ BrkFits newBrk := by
  rw [← sysBrk_isSome_iff hs hi]
  constructor
  · intro ⟨ret, s', hrun, _⟩
    exact isSome_iff_exists.mpr ⟨_, hrun⟩
  · intro hsome
    obtain ⟨⟨ret, s'⟩, hrun⟩ := isSome_iff_exists.mp hsome
    refine ⟨ret, s', hrun, fun sp' hi' hout => ?_⟩
    exact sysBrk_refused hi' hout hrun

/-! ## `SYS_MPROTECT` -/

/-- An address of a task's area is in a proper area. -/
theorem Space.InUserHalf.proper (hsp : sp.InUserHalf) {a : VmArea} (ha : a ∈ sp.vmm.areas)
    (hhas : a.has addr = true) : a.Proper := by
  obtain ⟨hlo, hhi⟩ := has_iff.mp hhas
  obtain ⟨hstart, hend, _⟩ := hsp.pages a ha
  have htop := hsp.top a ha
  unfold userStackTop at htop
  exact ⟨by omega, ⟨hstart, hend⟩, fun x _ hx => .inl (by omega)⟩

/-- A rounding that does not fit and an address that is not canonical stop the kernel, and any
other call returns. -/
theorem sysMprotect_isSome_iff (hs : s.InUserHalf) (hi : s.spaces[i]? = some sp) :
    (sysMprotect s i addr len prot).isSome ↔ MprotectFits addr len := by
  constructor
  · intro hsome
    obtain ⟨⟨ok, s'⟩, h⟩ := isSome_iff_exists.mp hsome
    unfold sysMprotect at h
    split at h
    next harg => exact harg.imp_right .inl
    · obtain ⟨top, htop, h⟩ := bind_inv h
      obtain ⟨rfl, hlt⟩ := usizeAdd_eq htop
      obtain ⟨_, _, h⟩ := bind_inv h
      obtain ⟨va, hva, h⟩ := bind_inv h
      obtain ⟨_, hmp, _⟩ := bind_inv h
      obtain ⟨end_, hend, _⟩ := bind_inv hmp
      obtain ⟨hva, rfl⟩ := canonical_of_virtAddr hva
      exact .inr (.inr ⟨hlt, hva, canonical_of_virtAdd hend⟩)
  · intro hfits
    unfold sysMprotect
    by_cases harg : addr % 4096 ≠ 0 ∨ len = 0
    · rw [if_pos harg]
      rfl
    · rw [if_neg harg]
      obtain ⟨haddr, hlen⟩ := not_or.mp harg
      obtain ⟨hround, hstart, hend⟩ := (hfits.resolve_left haddr).resolve_left hlen
      have hsome : (mprotect sp.vmm s.shared sp.root addr (pageRound len)
          (userFlags (prot &&& 2 ≠ 0))).isSome :=
        mprotect_isSome (fun a ha hhas => (hs.at hi).proper ha hhas) (not_not.mp haddr)
          (virtAdd_of_canonical hend)
      obtain ⟨⟨ok, vmm, c⟩, hmp⟩ := isSome_iff_exists.mp hsome
      have hva : virtAddr addr = some addr := if_pos hstart
      simp only [usizeAdd_of_lt hround, hi, hva, Option.bind_eq_bind, Option.bind_some]
      unfold pageRound at hmp
      rw [hmp]
      rfl

theorem mprotectSafe_iff (hs : s.InUserHalf) (hi : s.spaces[i]? = some sp) :
    MprotectSafe s i addr len prot ↔ MprotectFits addr len := by
  rw [← sysMprotect_isSome_iff hs hi]
  constructor
  · intro ⟨ok, s', hrun, _⟩
    exact isSome_iff_exists.mpr ⟨_, hrun⟩
  · intro hsome
    obtain ⟨⟨ok, s'⟩, hrun⟩ := isSome_iff_exists.mp hsome
    refine ⟨ok, s', hrun, ?_⟩
    rcases sysMprotect_inv hrun with ⟨rfl, rfl⟩ |
      ⟨sp, end_, before, area, after, _, rfl, hi, _, rfl, _, hareas, _, hhas, hle, _⟩
    · exact ⟨(fun h => nomatch h), fun _ => rfl⟩
    · refine ⟨fun _ => ⟨sp, hi, area, ?_, (has_iff.mp hhas).1, ?_⟩, (fun h => nomatch h)⟩
      · rw [hareas]
        exact List.mem_append_right _ List.mem_cons_self
      · have hround : len ≤ alignDown (len + 0xFFF) := by
          unfold alignDown
          omega
        omega

/-! ## The two calls in every reachable state -/

/-- **Rounding is safe exactly where it fits.** After any run of loads, forks, faults, evictions,
breaks, protections and accesses, for every argument of either call. -/
theorem rounding_safe_iff {s₀ : Machine T} {ops : List MemOp} (h₀ : s₀.InUserHalf)
    (hloads : ∀ op ∈ ops, LoadsBelowStack op) (hrun : exec memStep s₀ ops = some s)
    (hi : s.spaces[i]? = some sp) :
    (∀ addr len prot, MprotectSafe s i addr len prot ↔ MprotectFits addr len) ∧
      ∀ newBrk, BrkSafe s i newBrk ↔ BrkFits newBrk := by
  have hs : s.InUserHalf := exec_inUserHalf h₀ hloads hrun
  exact ⟨fun addr len prot => mprotectSafe_iff hs hi, fun newBrk => brkSafe_iff hs hi⟩

/-- A heap of one page, of which two are asked for and none given. -/
theorem rounding_safe_heap : ∃ s,
    exec memStep smallMachine [.load [0x90], .brk 0 0x402000] = some s ∧
    MprotectSafe s 0 0x401000 0x1001 0 ∧ BrkSafe s 0 0x400001 ∧ ¬ BrkSafe s 0 (2 ^ 64 - 1) := by
  have hspaces : ∃ s ∈ exec memStep smallMachine [.load [0x90], .brk 0 0x402000],
      s.spaces[0]?.isSome := by decide +kernel
  obtain ⟨s, hs, hspace⟩ := hspaces
  obtain ⟨sp, hi⟩ := isSome_iff_exists.mp hspace
  obtain ⟨hprotect, hbrk⟩ := rounding_safe_iff smallMachine_inUserHalf (by decide) hs hi
  refine ⟨s, hs, (hprotect _ _ _).mpr (.inr (.inr ?_)), (hbrk _).mpr ?_, ?_⟩
  · exact ⟨by decide, by decide, by decide⟩
  · unfold BrkFits
    decide
  · rw [hbrk]
    unfold BrkFits
    decide

/-- `brk(u64::MAX)`, `mprotect` of a range of that length, and `mprotect` of an address that is not
canonical stop the kernel. -/
theorem rounding_stops_kernel : ∃ s, exec memStep smallMachine [.load [0x90]] = some s ∧
    s.spaces.length = 1 ∧ ¬ BrkSafe s 0 (2 ^ 64 - 1) ∧ ¬ MprotectSafe s 0 0 (2 ^ 64 - 1) 2 ∧
    ¬ MprotectSafe s 0 (2 ^ 47) 0x1000 2 := by
  have hfacts : ∃ s ∈ exec memStep smallMachine [.load [0x90]],
      s.spaces.length = 1 ∧ (sysBrk s 0 (2 ^ 64 - 1)).isNone ∧
        (sysMprotect s 0 0 (2 ^ 64 - 1) 2).isNone ∧ (sysMprotect s 0 (2 ^ 47) 0x1000 2).isNone := by
    decide +kernel
  obtain ⟨s, hs, hlen, hbrk, hround, haddr⟩ := hfacts
  rw [Option.isNone_iff_eq_none] at hbrk hround haddr
  refine ⟨s, hs, hlen, ?_, ?_, ?_⟩
  · intro ⟨_, _, hr, _⟩
    cases hbrk.symm.trans hr
  · intro ⟨_, _, hr, _⟩
    cases hround.symm.trans hr
  · intro ⟨_, _, hr, _⟩
    cases haddr.symm.trans hr

end AlaphiOS.Memory
