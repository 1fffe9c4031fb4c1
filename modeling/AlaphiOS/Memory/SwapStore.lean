import AlaphiOS.Memory.Swap
import AlaphiOS.Lib.Run

/-!
# The swap partition is a store

What `SwapBackend` of `kernel/src/memory/swap.rs` is for: pages are put into
slots and come back from them. `StoreStep` says so without disk, flags or
cursor. The store maps a slot to the page in it; `swap_out` may choose any free
slot and must have one unless all are taken, `swap_in` hands the page back and
empties the slot.

`Holds` ties the partition to the store: the flags say which slots are empty,
and the eight sectors of a slot hold its page, with their checksums in step so
that no sector access fails. Each call keeps it (`call_refines`), and
`swap_slots_are_a_store` is the run: whatever is swapped out, swapped in and
freed, in whatever order, the replies are those of a store.
-/

namespace AlaphiOS.Memory

open Lib Io Function List Option SwapPartition

/-- The calls of `SwapBackend`, with the memory they are made in. -/
inductive SwapCall where
  | swapOut (m : Mem) (frame : Nat)
  | swapIn (m : Mem) (slot frame : Nat)
  | freeSlot (slot : Nat)

/-- What it returns. -/
inductive SwapReply where
  | slot (r : Option Nat)
  | mem (m : Mem)
  | unit

namespace SwapPartition

/-- `SwapPartition::new` with `RAMDISK_VIRT_CURSOR` at `cursor`, as far as it can stop. -/
def create (cursor pages : Nat) : Option (SwapPartition × Nat) := do
  let sectors ← usizeMul pages sectorsPerPage
  let (disk, cursor) ← RamDisk.create cursor sectors swapSectorSize
  some (⟨disk, replicate pages true, 0⟩, cursor)

/-- Make the call. -/
def call (s : SwapPartition) : SwapCall → Option (SwapReply × SwapPartition)
  | .swapOut m frame => do
    let (r, s) ← swapOut m s frame
    some (.slot r, s)
  | .swapIn m slot frame => do
    let (m, s) ← swapIn m s slot frame
    some (.mem m, s)
  | .freeSlot slot => some (.unit, s.freeSlot slot)

/-- The slot that the call gives back is in use. -/
def SlotInUse (s : SwapPartition) : SwapCall → Prop
  | .swapOut _ _ => True
  | .swapIn _ slot _ | .freeSlot slot => s.free[slot]? = some false

instance (s : SwapPartition) : (call : SwapCall) → Decidable (s.SlotInUse call)
  | .swapOut _ _ => inferInstanceAs (Decidable True)
  | .swapIn _ slot _ | .freeSlot slot => inferInstanceAs (Decidable (s.free[slot]? = some false))

/-- Every sector of the partition can be read and written. -/
def SectorsWork (s : SwapPartition) (pages : Nat) : Prop :=
  ∀ lba < pages * sectorsPerPage, (∃ buf, s.disk.readSector lba = some (.ok buf)) ∧
    ∀ buf, buf.length = swapSectorSize → ∃ d, s.disk.writeSector lba buf = some (.ok d)

/-- The page in a slot. -/
def slotPage (s : SwapPartition) (slot : Nat) : List UInt8 :=
  (range 4096).map (s.slotByte slot)

end SwapPartition

/-- The page in a frame. -/
def framePage (m : Mem) (frame : Nat) : List UInt8 :=
  (range 4096).map fun k => m (frameAddr frame + k)

/-- The page in each slot that is in use. -/
abbrev PageStore := Nat → Option (List UInt8)

/-- What a store with `pages` slots may do. -/
inductive StoreStep (pages : Nat) (store : PageStore) : SwapCall → SwapReply → PageStore → Prop
  | full {m : Mem} {frame : Nat} : (∀ slot < pages, (store slot).isSome) →
      StoreStep pages store (.swapOut m frame) (.slot none) store
  | swapOut {m : Mem} {frame slot : Nat} : slot < pages → store slot = none →
      StoreStep pages store (.swapOut m frame) (.slot (some slot))
        (update store slot (some (framePage m frame)))
  | swapIn {m m' : Mem} {slot frame : Nat} {page : List UInt8} : store slot = some page →
      framePage m' frame = page →
      (∀ x, x < frameAddr frame ∨ frameAddr frame + 4096 ≤ x → m' x = m x) →
      StoreStep pages store (.swapIn m slot frame) (.mem m') (update store slot none)
  | freeSlot {slot : Nat} : (store slot).isSome →
      StoreStep pages store (.freeSlot slot) .unit (update store slot none)

/-- The partition holds these pages. -/
structure Holds (pages : Nat) (s : SwapPartition) (store : PageStore) : Prop where
  ok : s.Ok pages
  flags : ∀ slot < pages, s.free[slot]? = some (store slot).isNone
  bounded : ∀ slot, (store slot).isSome → slot < pages
  bytes : ∀ slot page, store slot = some page → s.slotPage slot = page

/-! ## One call -/

section Calls

variable {s : SwapPartition} {pages slot frame cursor cursor' : Nat} {store : PageStore} {m : Mem}

theorem create_holds (h : create cursor pages = some (s, cursor')) :
    Holds pages s fun _ => none := by
  obtain ⟨sectors, hmul, h⟩ := bind_inv h
  obtain ⟨⟨disk, _⟩, hdisk, h⟩ := bind_inv h
  cases some.inj h
  obtain ⟨rfl, _⟩ := usizeMul_eq hmul
  obtain ⟨rfl, _, hfits, _⟩ := create_inv hdisk
  rw [Nat.mul_assoc, sectors_eq] at hfits
  exact
    { ok := new_ok hfits
      flags := fun slot hslot => getElem?_replicate_of_lt hslot
      bounded := nofun
      bytes := nofun }

section

variable (h : Holds pages s store)

include h

theorem Holds.lt_of_inUse (hslot : s.free[slot]? = some false) :
    slot < pages := by
  rw [← h.ok.slots]
  exact (List.getElem?_eq_some_iff.mp hslot).1

theorem Holds.page_of_inUse (hslot : s.free[slot]? = some false) :
    ∃ page, store slot = some page := by
  have hflag := h.flags slot (h.lt_of_inUse hslot)
  rw [hslot] at hflag
  cases hpage : store slot with
  | none => rw [hpage] at hflag; cases hflag
  | some page => exact ⟨page, rfl⟩

/-- The partition is full when no flag is set. -/
theorem Holds.full_iff :
    true ∉ s.free ↔ ∀ slot < pages, (store slot).isSome := by
  constructor
  · intro hno slot hslot
    cases hpage : store slot with
    | some page => rfl
    | none =>
      have hflag := h.flags slot hslot
      rw [hpage] at hflag
      exact absurd (mem_of_getElem? hflag) hno
  · intro hfull hmem
    obtain ⟨slot, hflag⟩ := mem_iff_getElem?.mp hmem
    have hslot : slot < pages := by
      rw [← h.ok.slots]
      exact (List.getElem?_eq_some_iff.mp hflag).1
    obtain ⟨page, hpage⟩ := isSome_iff_exists.mp (hfull slot hslot)
    rw [h.flags slot hslot, hpage] at hflag
    cases hflag

/-- Marking a slot is changing one flag. -/
theorem Holds.flags_set (hslot : slot < pages)
    (entry : Option (List UInt8)) : ∀ other < pages, (s.free.set slot entry.isNone)[other]?
      = some (update store slot entry other).isNone := by
  intro other hother
  by_cases he : other = slot
  · rw [he, update_self, getElem?_set_self (by rw [h.ok.slots]; exact hslot)]
  · rw [update_of_ne he, getElem?_set_ne (Ne.symm he)]
    exact h.flags other hother

theorem Holds.bounded_update (hslot : slot < pages)
    (entry : Option (List UInt8)) :
    ∀ other, (update store slot entry other).isSome → other < pages := by
  intro other hsome
  by_cases he : other = slot
  · rw [he]
    exact hslot
  · rw [update_of_ne he] at hsome
    exact h.bounded other hsome

/-- `swap_in` and `free_slot` empty a slot. -/
theorem Holds.freeSlot (hslot : slot < pages) :
    Holds pages (s.freeSlot slot) (update store slot none) where
  ok := freeSlot_ok h.ok
  flags := h.flags_set hslot none
  bounded := h.bounded_update hslot none
  bytes := by
    intro other page hpage
    by_cases he : other = slot
    · rw [he, update_self] at hpage
      cases hpage
    · rw [update_of_ne he] at hpage
      exact h.bytes other page hpage

end

/-- The slot that is written has the frame's page, and the others keep theirs. -/
theorem slotPage_written {s' : SwapPartition} (hdata : s'.disk.data
      = blit s.disk.data (slot * 4096) 4096 (fun k => m (frameAddr frame + k))) (other : Nat) :
    s'.slotPage other = if other = slot then framePage m frame else s.slotPage other := by
  unfold slotPage slotByte framePage
  split
  next he =>
    refine map_congr_left (fun k hk => ?_)
    rw [hdata, he]
    exact blit_at (mem_range.mp hk)
  next he =>
    refine map_congr_left (fun k hk => ?_)
    have hk := mem_range.mp hk
    rw [hdata]
    exact blit_out (by omega)

/-- `swap_out` fills a slot. -/
theorem Holds.fillSlot {s' : SwapPartition} (h : Holds pages s store) (hslot : slot < pages)
    (hok : s'.Ok pages) (hfree : s'.free = s.free.set slot false)
    (hdata : s'.disk.data
      = blit s.disk.data (slot * 4096) 4096 (fun k => m (frameAddr frame + k))) :
    Holds pages s' (update store slot (some (framePage m frame))) where
  ok := hok
  flags := by
    rw [hfree]
    exact h.flags_set hslot (some (framePage m frame))
  bounded := h.bounded_update hslot _
  bytes := by
    intro other page hpage
    rw [slotPage_written hdata]
    by_cases he : other = slot
    · rw [he, update_self] at hpage
      rw [if_pos he]
      exact some.inj hpage
    · rw [update_of_ne he] at hpage
      rw [if_neg he]
      exact h.bytes other page hpage

/-- The frame that is read into has the slot's page. -/
theorem framePage_read (s : SwapPartition) (m : Mem) (slot frame : Nat) :
    framePage (blit m (frameAddr frame) 4096 fun k => s.slotByte slot k) frame
      = s.slotPage slot := by
  unfold framePage slotPage
  exact map_congr_left (fun k hk => blit_at (mem_range.mp hk))

/-- Each call on a slot in use returns, as a store would. -/
theorem call_refines (h : Holds pages s store) (call : SwapCall) (huse : s.SlotInUse call) :
    ∃ r s' store', s.call call = some (r, s') ∧ StoreStep pages store call r store' ∧
      Holds pages s' store' := by
  cases call with
  | swapOut m frame =>
    rcases swapOut_spec m frame h.ok with
      ⟨hfull, hout⟩ | ⟨slot, s', hout, hslot, hflag, hfree, hok, hdata⟩
    · refine ⟨.slot none, s, store, ?_, .full (h.full_iff.mp hfull), h⟩
      rw [call, hout]
      rfl
    · have hempty : store slot = none := by
        rw [getD_eq_getElem?_getD, h.flags slot hslot, getD_some] at hflag
        exact isNone_iff_eq_none.mp hflag
      refine ⟨.slot (some slot), s', _, ?_, .swapOut hslot hempty,
        h.fillSlot hslot hok hfree hdata⟩
      rw [call, hout]
      rfl
  | swapIn m slot frame =>
    have hslot := h.lt_of_inUse huse
    obtain ⟨page, hpage⟩ := h.page_of_inUse huse
    refine ⟨.mem (blit m (frameAddr frame) 4096 fun k => s.slotByte slot k), s.freeSlot slot, _, ?_,
      .swapIn hpage ?_ (fun x hx => blit_out hx), h.freeSlot hslot⟩
    · rw [call, swapIn_spec h.ok hslot]
      rfl
    · rw [framePage_read]
      exact h.bytes slot page hpage
  | freeSlot slot =>
    obtain ⟨page, hpage⟩ := h.page_of_inUse huse
    refine ⟨.unit, s.freeSlot slot, _, rfl, .freeSlot ?_, h.freeSlot (h.lt_of_inUse huse)⟩
    rw [hpage]
    rfl

/-- `swap_out` finds no slot exactly when there is none, and then nothing happens. -/
theorem Holds.swapOut_none_iff (h : Holds pages s store) (m : Mem) (frame : Nat)
    (s' : SwapPartition) : swapOut m s frame = some (none, s') ↔
      s' = s ∧ ∀ slot < pages, (store slot).isSome := by
  rw [← h.full_iff]
  rcases swapOut_spec m frame h.ok with
    ⟨hfull, hout⟩ | ⟨slot, s₁, hout, hslot, hflag, _⟩
  · rw [hout]
    constructor
    · intro he
      cases he
      exact ⟨rfl, hfull⟩
    · rintro ⟨rfl, _⟩
      rfl
  · rw [hout]
    refine iff_of_false (by simp) (fun hno => hno.2 ?_)
    rw [getD_eq_getElem?_getD] at hflag
    cases hget : s.free[slot]? with
    | none => rw [hget] at hflag; cases hflag
    | some b =>
      rw [hget, getD_some] at hflag
      rw [← hflag]
      exact mem_of_getElem? hget

theorem SwapPartition.Ok.sectorsWork (h : s.Ok pages) : s.SectorsWork pages := by
  intro lba hlba
  refine ⟨⟨_, readSector_inStep h.disk hlba⟩, fun buf hbuf => ?_⟩
  obtain ⟨d, hd, _⟩ := writeSector_inStep h.disk hlba (hbuf.trans h.sectorSize.symm)
  exact ⟨d, hd⟩

end Calls

/-- **Swap slots are a store.** On a partition that `SwapPartition::new` has made, every
sequence of `swap_out`, and of `swap_in` and `free_slot` of slots in use, returns, with replies
that a store may give: a slot that was free or `None`, the page that was put into the slot.
In any state that is reached this way the partition holds the pages of the store, `swap_out`
returns `None` exactly if all slots are in use and then leaves the partition as it is, and no
sector access fails. -/
theorem swap_slots_are_a_store (cursor cursor' pages : Nat) (s₀ : SwapPartition)
    (h₀ : SwapPartition.create cursor pages = some (s₀, cursor')) (calls : List SwapCall)
    (huse : Along (fun s call => (SwapPartition.call s call).map Prod.snd)
      SwapPartition.SlotInUse s₀ calls) :
    ∃ replies s store, runReplies SwapPartition.call s₀ calls = some (replies, s) ∧
      SpecRun (StoreStep pages) (fun _ => none) calls replies store ∧ Holds pages s store ∧
      (∀ m frame s', SwapPartition.swapOut m s frame = some (none, s') ↔
        s' = s ∧ ∀ slot < pages, (store slot).isSome) ∧
      s.SectorsWork pages := by
  obtain ⟨replies, s, store, hrun, hspec, hholds⟩ := runReplies_refines
    (fun s store call (h : Holds pages s store) huse => call_refines h call huse)
    (create_holds h₀) huse
  exact ⟨replies, s, store, hrun, hspec, hholds, hholds.swapOut_none_iff, hholds.ok.sectorsWork⟩

/-- Two slots, a page for each and one too many; then the first page comes back. -/
theorem swap_slots_two_pages : ∃ s₀ cursor' replies s store,
    SwapPartition.create RamDisk.virtRegionBase 2 = some (s₀, cursor') ∧
    SpecRun (StoreStep 2) (fun _ => none) [.swapOut UInt8.ofNat 1, .swapOut UInt8.ofNat 2,
      .swapOut UInt8.ofNat 3, .swapIn UInt8.ofNat 0 4] replies store ∧
    Holds 2 s store := by
  obtain ⟨⟨s₀, cursor'⟩, h₀⟩ := isSome_iff_exists.mp
    (show (SwapPartition.create RamDisk.virtRegionBase 2).isSome by decide +kernel)
  -- The slot is in use: what `swap_in` then reads need not be evaluated.
  have hflag : ∀ r, SwapPartition.create RamDisk.virtRegionBase 2 = some r → ∀ s₃,
      exec (fun s call => (SwapPartition.call s call).map Prod.snd) r.1 [.swapOut UInt8.ofNat 1,
        .swapOut UInt8.ofNat 2, .swapOut UInt8.ofNat 3] = some s₃ →
      s₃.free[0]? = some false := by
    decide +kernel
  have huse : Along (fun s call => (SwapPartition.call s call).map Prod.snd)
      SwapPartition.SlotInUse s₀ [.swapOut UInt8.ofNat 1, .swapOut UInt8.ofNat 2,
        .swapOut UInt8.ofNat 3, .swapIn UInt8.ofNat 0 4] := by
    refine ⟨trivial, fun s₁ h₁ => ⟨trivial, fun s₂ h₂ => ⟨trivial, fun s₃ h₃ =>
      ⟨hflag _ h₀ s₃ ?_, fun _ _ => trivial⟩⟩⟩⟩
    simp only [exec, h₁, h₂, h₃, bind_some]
  obtain ⟨replies, s, store, _, hspec, hholds, _⟩ :=
    swap_slots_are_a_store _ cursor' 2 s₀ h₀ _ huse
  exact ⟨s₀, cursor', replies, s, store, h₀, hspec, hholds⟩

end AlaphiOS.Memory
