import AlaphiOS.Memory.FrameRuns

/-!
# Copy-on-write isolation

Is a frame that two tasks map ever writable by one of them? `fork_cow` makes
both sides read-only and a write fault gives the writer a frame of its own, but
`mprotect` rewrites the flags of a resident page without asking who else has
its frame. So the law holds for runs in which a `SYS_MPROTECT` with `PROT_WRITE`
meets only pages whose frames are theirs alone (`Private`), and
`mprotect_makes_shared_writable` is the run that breaks it otherwise.

There is a second way out: the heap may grow over addresses whose level-4 entry
belongs to the kernel and is the same in every address space. A fault there
puts a writable user page into all of them at once, so the runs below keep
faults off these pages.

The invariant is `Sound` for the policy "two entries of one frame are both
read-only, and no entry under a kernel level-4 entry is writable from ring 3".
-/

namespace AlaphiOS.Memory

open Lib Option

/-- Shared frames are read-only, and so are user pages under kernel entries. -/
def roPolicy (T : PageTables) : Policy where
  share a b := a = false ∧ b = false
  entry page flags := T.KernelPage page → ¬ (flags.userAccessible = true ∧ flags.writable = true)

theorem roPolicy_forks (T : PageTables) : (roPolicy T).Forks where
  base := ⟨rfl, rfl⟩
  left := fun h => ⟨rfl, h.2⟩
  right := fun h => ⟨h.1, rfl⟩
  entry := fun hro _ hw => absurd (hro.symm.trans hw.2) (by decide)
  touch := fun h hw hu hk huw => h hk ⟨hu ▸ huw.1, hw ▸ huw.2⟩

variable {T : PageTables}

/-- No other page of any address space has the frame of this page. -/
def Private (c : Shared T) (root page : Nat) : Prop :=
  ∀ ⦃e root' page' e'⦄, c.leaf root page = some e → c.leaf root' page' = some e' →
    e'.frame = e.frame → page' = page ∧ root' = root

/-- The condition on a step: pages are taken away and made writable only when
their frames are their own, and faults stay off the kernel's level-4 entries. -/
def KeepsIsolation (s : Machine T) (op : MemOp) : Prop :=
  UnmapsExclusive s op ∧
  match op with
  | .fault _ addr _ => ¬ T.KernelPage (addr / 4096)
  | .mprotect i addr len prot => prot &&& 2 ≠ 0 → ∀ sp, s.spaces[i]? = some sp → ∀ page,
      addr ≤ frameAddr page → frameAddr page < addr + alignDown (len + 0xFFF) →
      Private s.shared sp.root page
  | _ => True

variable {s : Machine T} {page : Nat}

theorem Private.exclusive {c : Shared T} {root : Nat} (h : Private c root page) :
    Exclusive c root page := by
  intro e r p e' hl hl' hfr
  obtain ⟨rfl, rfl⟩ := h hl hl' hfr
  exact ⟨rfl, .inl rfl⟩

/-- A page under a kernel entry is in every address space, so it is private to
none. -/
theorem Private.not_kernel {c : Shared T} {root : Nat} (h : Private c root page)
    (hl : (c.leaf root page).isSome) : ¬ T.KernelPage page := by
  intro hk
  obtain ⟨e, he⟩ := isSome_iff_exists.mp hl
  have he' : c.leaf (root + 1) page = some e := (T.leaf_kernel hk).trans he
  have := (h he he' rfl).2
  omega

theorem KeepsIsolation.admits {op : MemOp} (h : KeepsIsolation s op) :
    Admits (roPolicy T) s op := by
  cases op with
  | fault i addr w => exact fun flags hk => absurd hk h.2
  | mprotect i addr len prot =>
    intro sp hi page h₁ h₂ hw
    have hprot : prot &&& 2 ≠ 0 := by simpa [userFlags] using hw
    have hpriv := h.2 hprot sp hi page h₁ h₂
    exact ⟨.inr hpriv.exclusive, fun hl hk => absurd hk (hpriv.not_kernel hl)⟩
  | _ => exact trivial

/-! ## What the invariant means for tasks -/

/-- A frame that two tasks map, one of them for its user program, is writable
by neither. -/
def SharedReadOnly (s : Machine T) : Prop :=
  ∀ (i j : Nat) (sp sp' : Space), i ≠ j → s.spaces[i]? = some sp → s.spaces[j]? = some sp' →
    ∀ page page' e e', s.shared.leaf sp.root page = some e →
      s.shared.leaf sp'.root page' = some e' → e.frame = e'.frame →
      (e.flags.userAccessible = true ∨ e'.flags.userAccessible = true) →
      e.flags.writable = false ∧ e'.flags.writable = false

/-- A store by one task changes nothing that another task can load. -/
def StoresPrivate (s : Machine T) : Prop :=
  ∀ i addr b s', userStore s i addr b = some s' →
    ∀ j, j ≠ i → ∀ addr', userLoad s' j addr' = userLoad s j addr'

/-- Different tasks have different level-4 tables. -/
theorem roots_ne {P : Policy} {free : List Nat} {i j : Nat} {sp sp' : Space}
    (h : Sound P s.shared free (s.spaces.map Space.root)) (hij : i ≠ j)
    (hi : s.spaces[i]? = some sp) (hj : s.spaces[j]? = some sp') : sp.root ≠ sp'.root := by
  intro heq
  have hlt : i < (s.spaces.map Space.root).length := by
    rw [List.length_map]
    exact (List.getElem?_eq_some_iff.mp hi).1
  refine hij ((List.getElem?_inj hlt h.heldNodup).mp ?_)
  rw [List.getElem?_map, List.getElem?_map, hi, hj, map_some, map_some, heq]

theorem FrameInv.sharedReadOnly (h : FrameInv (roPolicy T) s) : SharedReadOnly s := by
  obtain ⟨free, h⟩ := h
  intro i j sp sp' hij hi hj page page' e e' hl hl' hfr huser
  rcases h.pairs hl hl' hfr with hs | hro
  · -- one leaf in two address spaces: it is under a kernel entry
    have hk : T.KernelPage page := hs.2.resolve_left (fun hr => roots_ne h hij hi hj hr.symm)
    obtain rfl := hs.1
    obtain rfl : e = e' := some.inj (hl.symm.trans ((T.leaf_kernel hk).trans hl'))
    have hw : e.flags.writable = false := by
      have hentry := h.entries hl hk
      have hu := or_self_iff.mp huser
      cases hew : e.flags.writable with
      | false => rfl
      | true => exact absurd ⟨hu, hew⟩ hentry
    exact ⟨hw, hw⟩
  · exact hro

theorem SharedReadOnly.storesPrivate (h : SharedReadOnly s) : StoresPrivate s := by
  intro i addr b s' hstore j hji addr'
  obtain ⟨e, he, hw, hsp, hsh⟩ := userStore_inv hstore
  obtain ⟨sp, hi, hl, _, hu⟩ := userEntry_inv he
  unfold userLoad
  -- the store leaves the page tables, and so the entry of `j`, as they are
  rw [userEntry_congr hsp (by rw [hsh]), hsh]
  cases hj : userEntry s j addr' with
  | none => rfl
  | some e' =>
    obtain ⟨sp', hj', hl', _, _⟩ := userEntry_inv hj
    rw [map_some, map_some]
    congr 1
    refine Function.update_of_ne (fun haddr => ?_) _ _
    have hfr : e.frame = e'.frame := by
      unfold frameAddr at haddr
      omega
    have hro := (h i j sp sp' (fun heq => hji heq.symm) hi hj' _ _ e e' hl hl' hfr
      (.inl hu)).1
    rw [hw] at hro
    cases hro

/-- **Copy-on-write isolation.** Over every run of loads, forks, faults,
`SYS_BRK`s, evictions, `SYS_MPROTECT`s and user stores whose steps keep
isolation, no shared user frame is writable, and so no task sees the stores of
another. -/
theorem cow_isolation {s₀ s : Machine T} {ops : List MemOp} (h₀ : FrameInv (roPolicy T) s₀)
    (halong : Along memStep KeepsIsolation s₀ ops) (hr : exec memStep s₀ ops = some s) :
    SharedReadOnly s ∧ StoresPrivate s := by
  have h := exec_induction (P := KeepsIsolation) (I := FrameInv (roPolicy T))
    (fun _ _ _ h hk hr => memStep_frameInv (roPolicy_forks T) h hk.1 hk.admits hr) h₀ halong hr
  exact ⟨h.sharedReadOnly, h.sharedReadOnly.storesPrivate⟩

/-- Parent and child after a fork, the child with its own copy of the page. -/
theorem cow_isolation_small : ∃ s, exec memStep smallMachine
    [.load [0x90], .fault 0 0x7FFFFFFFE000 true, .store 0 0x7FFFFFFFE000 7, .fork 0,
      .fault 1 0x7FFFFFFFE000 true, .store 1 0x7FFFFFFFE000 8] = some s ∧
    SharedReadOnly s ∧ StoresPrivate s := by
  obtain ⟨s, hs⟩ := isSome_iff_exists.mp (show (exec memStep smallMachine
    [.load [0x90], .fault 0 0x7FFFFFFFE000 true, .store 0 0x7FFFFFFFE000 7, .fork 0,
      .fault 1 0x7FFFFFFFE000 true, .store 1 0x7FFFFFFFE000 8]).isSome by decide +kernel)
  refine ⟨s, hs, cow_isolation smallMachine_frameInv ?_ hs⟩
  have hstack : ¬ smallTables.KernelPage (0x7FFFFFFFE000 / 4096) := by decide
  simp only [Along, KeepsIsolation, UnmapsExclusive, hstack, not_false_eq_true, and_self,
    implies_true]

/-! ## A page that `mprotect` makes writable -/

/-- What a run shows of page `page` in the first two tasks. -/
def flagsOf (s : Machine T) (page : Nat) : Option (Option Entry × Option Entry) := do
  let sp ← s.spaces[0]?
  let sp' ← s.spaces[1]?
  some (s.shared.leaf sp.root page, s.shared.leaf sp'.root page)

theorem not_sharedReadOnly {e e' : Entry}
    (h : flagsOf s page = some (some e, some e')) (hfr : e.frame = e'.frame)
    (hu : e.flags.userAccessible = true) (hw : e.flags.writable = true) : ¬ SharedReadOnly s := by
  intro hro
  obtain ⟨sp, h₀, h⟩ := bind_inv h
  obtain ⟨sp', h₁, h⟩ := bind_inv h
  injection some.inj h with hl hl'
  have := (hro 0 1 sp sp' (by decide) h₀ h₁ page page e e' hl hl' hfr (.inl hu)).1
  rw [hw] at this
  cases this

/-- A program touches a page of its stack, forks and asks for `PROT_WRITE` on it:
the page is writable for the parent while the child still has the frame, and
the parent's next store shows in the child. -/
theorem mprotect_makes_shared_writable : FrameInv (roPolicy smallTables) smallMachine ∧
    ∃ s, exec memStep smallMachine [.load [0x90], .fault 0 0x7FFFFFFFE000 true, .fork 0,
      .mprotect 0 0x7FFFFFFFE000 4096 2] = some s ∧
      ¬ SharedReadOnly s ∧ ¬ StoresPrivate s := by
  have hrun : ((exec memStep smallMachine [.load [0x90], .fault 0 0x7FFFFFFFE000 true,
      .fork 0, .mprotect 0 0x7FFFFFFFE000 4096 2]).map fun s =>
        (flagsOf s 0x7FFFFFFFE, userLoad s 1 0x7FFFFFFFE000,
          (userStore s 0 0x7FFFFFFFE000 7).map fun s' => userLoad s' 1 0x7FFFFFFFE000))
      = some (some (some ⟨35, userFlags true⟩, some ⟨35, userFlags false⟩),
        some 0, some (some 7)) := by decide +kernel
  obtain ⟨s, hs, hobs⟩ := map_inv hrun
  simp only [Prod.mk.injEq] at hobs
  obtain ⟨hflags, hbefore, hafter⟩ := hobs
  refine ⟨smallMachine_frameInv, s, hs, not_sharedReadOnly hflags rfl rfl rfl, fun hpriv => ?_⟩
  obtain ⟨s', hstore, hload⟩ := map_inv hafter
  have := hpriv 0 0x7FFFFFFFE000 7 s' hstore 1 (by decide) 0x7FFFFFFFE000
  rw [hbefore, hload] at this
  cases this

end AlaphiOS.Memory
