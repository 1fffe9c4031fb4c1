import AlaphiOS.Memory.AddressSpaces
import Mathlib.Data.List.Nodup

/-!
# Who owns a frame

One invariant serves every question about frames. `Sound P c free held` says of
a shared state that the frames on the free list (`free`), the frames in
somebody's hands (`held`: the level-4 tables, and a frame between `allocate`
and `map_page`) and the frames of leaf entries are apart from each other, that
every leaf entry is one the policy `P` admits, and that two different leaf
entries of one frame are a pair `P` admits.

The moves come first: what `allocate`, `map_page`, `unmap_page`, `remap_flags`
and `deallocate` do to `Sound`. Every operation of the kernel is a sequence of
these moves, and its lemma is proved from theirs. The one move with a real
precondition is freeing an unmapped frame: no other entry may have it
(`Exclusive`).
-/

namespace AlaphiOS.Memory

open Lib List

/-- What is asked of leaf entries: of the writable bits of two entries with one
frame, and of the flags of each entry by itself. -/
structure Policy where
  share : Bool → Bool → Prop
  entry : Nat → PageTableFlags → Prop

/-- A policy that permits sharing between read-only entries. -/
structure Policy.Forks (P : Policy) : Prop where
  base : P.share false false
  left : ∀ {a b}, P.share a b → P.share false b
  right : ∀ {a b}, P.share a b → P.share a false
  entry : ∀ {page flags}, flags.writable = false → P.entry page flags
  touch : ∀ {page flags flags'}, P.entry page flags → flags'.writable = flags.writable →
    flags'.userAccessible = flags.userAccessible → P.entry page flags'

variable {T : PageTables}

/-- See the module header. -/
structure Sound (P : Policy) (c : Shared T) (free held : List Nat) : Prop where
  frames : FreeFrames c.mem c.frameAllocator free
  leafFree : ∀ {root page e}, c.leaf root page = some e → e.frame ∉ free
  leafPhys : ∀ {root page e}, c.leaf root page = some e → frameAddr e.frame < 2 ^ 52
  heldFree : ∀ {f}, f ∈ held → f ∉ free
  heldPhys : ∀ {f}, f ∈ held → frameAddr f < 2 ^ 52
  heldLeaf : ∀ {f root page e}, f ∈ held → c.leaf root page = some e → e.frame ≠ f
  heldNodup : held.Nodup
  entries : ∀ {root page e}, c.leaf root page = some e → P.entry page e.flags
  pairs : ∀ {root page e root' page' e'}, c.leaf root page = some e →
    c.leaf root' page' = some e' → e.frame = e'.frame →
    T.SameLeaf root page root' page' ∨ P.share e.flags.writable e'.flags.writable

/-- No other leaf entry has the frame of this page. -/
def Exclusive (c : Shared T) (root page : Nat) : Prop :=
  ∀ ⦃e root' page' e'⦄, c.leaf root page = some e → c.leaf root' page' = some e' →
    e'.frame = e.frame → T.SameLeaf root page root' page'

/-! ## Entries after an operation on the tables -/

section Entries

variable {st : T.State} {root page r p r' p' r'' p'' : Nat} {e e' : Entry}

theorem sameLeaf_symm (h : T.SameLeaf r p r' p') : T.SameLeaf r' p' r p := by
  obtain ⟨rfl, h⟩ := h
  exact ⟨rfl, h.imp_left Eq.symm⟩

theorem sameLeaf_trans (h : T.SameLeaf r p r' p') (h' : T.SameLeaf r' p' r'' p'') :
    T.SameLeaf r p r'' p'' := by
  obtain ⟨rfl, h⟩ := h
  obtain ⟨rfl, h'⟩ := h'
  refine ⟨rfl, ?_⟩
  rcases h with rfl | hk
  · exact h'
  · exact .inr hk

/-- Two pages with one leaf have one entry. -/
theorem leaf_sameLeaf (h : T.SameLeaf r p r' p') : T.leaf st r' p' = T.leaf st r p := by
  obtain ⟨rfl, rfl | hk⟩ := h
  · rfl
  · exact T.leaf_kernel hk

theorem leaf_mapTo_self (st : T.State) (root page : Nat) (e : Entry) :
    T.leaf (T.mapTo st root page e) root page = some e := by
  rw [T.leaf_mapTo, if_pos ⟨rfl, .inl rfl⟩]

theorem leaf_mapTo_of_not (h : ¬ T.SameLeaf root page r p) :
    T.leaf (T.mapTo st root page e) r p = T.leaf st r p := by
  rw [T.leaf_mapTo, if_neg h]

variable {flags : PageTableFlags}

theorem leaf_updateFlags_of_not (h : ¬ T.SameLeaf root page r p) :
    T.leaf (T.updateFlags st root page flags) r p = T.leaf st r p := by
  rw [T.leaf_updateFlags, if_neg h]

theorem leaf_of_mapTo (hl : T.leaf (T.mapTo st root page e) r p = some e') :
    (T.SameLeaf root page r p ∧ e' = e) ∨ T.leaf st r p = some e' := by
  rw [T.leaf_mapTo] at hl
  split at hl
  next hs => exact .inl ⟨hs, (Option.some.inj hl).symm⟩
  · exact .inr hl

theorem leaf_of_unmap (hl : T.leaf (T.unmap st root page) r p = some e') :
    T.leaf st r p = some e' ∧ ¬ T.SameLeaf root page r p := by
  rw [T.leaf_unmap] at hl
  split at hl
  · cases hl
  next hs => exact ⟨hl, hs⟩

theorem leaf_of_updateFlags (hl : T.leaf (T.updateFlags st root page flags) r p = some e') :
    (T.SameLeaf root page r p ∧ ∃ e, T.leaf st root page = some e ∧ T.leaf st r p = some e ∧
      e' = { e with flags := flags }) ∨
    (¬ T.SameLeaf root page r p ∧ T.leaf st r p = some e') := by
  rw [T.leaf_updateFlags] at hl
  split at hl
  next hs =>
    obtain ⟨e, he, rfl⟩ := map_inv hl
    refine .inl ⟨hs, e, ?_, he, rfl⟩
    rw [← leaf_sameLeaf hs]
    exact he
  next hs => exact .inr ⟨hs, hl⟩

theorem leaf_of_cloneKernel (hl : T.leaf (T.cloneKernel st root) r p = some e) :
    T.leaf st r p = some e ∧ (r = root → T.KernelPage p) := by
  rw [T.leaf_cloneKernel] at hl
  split at hl
  · cases hl
  next hs => exact ⟨hl, fun hr => Decidable.not_not.mp (fun hk => hs ⟨hr, hk⟩)⟩

end Entries

namespace Sound

variable {P : Policy} {c c' : Shared T} {free held : List Nat}
  {f root page : Nat} {flags : PageTableFlags} {e : Entry}

/-! ## Moves -/

/-- Memory outside the free frames may change. -/
theorem write (h : Sound P c free held) {m : Mem}
    (hm : ∀ g ∈ free, ∀ x, frameAddr g ≤ x → x < frameAddr g + 4096 → m x = c.mem x) :
    Sound P { c with mem := m } free held :=
  { h with frames := h.frames.frame (fun g hg => readWord_other_frame (hm g hg)) }

/-- Bytes of one frame that is not free may change. -/
theorem blit (h : Sound P c free held) (hf : f ∉ free) {dst n : Nat} {b : Nat → UInt8}
    (hlo : frameAddr f ≤ dst) (hhi : dst + n ≤ frameAddr f + 4096) :
    Sound P { c with mem := Lib.blit c.mem dst n b } free held :=
  { h with frames := h.frames.blit hf hlo hhi }

/-- The swap partition does not matter. -/
theorem setSwap (h : Sound P c free held) (swap : SwapPartition) :
    Sound P { c with swap := swap } free held :=
  { h with }

theorem drop (h : Sound P c free (f :: held)) : Sound P c free held :=
  { h with
    heldFree := fun hg => h.heldFree (mem_cons_of_mem _ hg)
    heldPhys := fun hg => h.heldPhys (mem_cons_of_mem _ hg)
    heldLeaf := fun hg => h.heldLeaf (mem_cons_of_mem _ hg)
    heldNodup := (nodup_cons.mp h.heldNodup).2 }

theorem perm {held' : List Nat} (h : Sound P c free held) (hp : held.Perm held') :
    Sound P c free held' :=
  { h with
    heldFree := fun hg => h.heldFree (hp.mem_iff.mpr hg)
    heldPhys := fun hg => h.heldPhys (hp.mem_iff.mpr hg)
    heldLeaf := fun hg => h.heldLeaf (hp.mem_iff.mpr hg)
    heldNodup := hp.nodup_iff.mp h.heldNodup }

/-- `allocate` gives nothing, or hands over the first free frame. -/
theorem allocate_cases (h : Sound P c free held) {r : Option Nat}
    (ha : c.allocate = some (r, c')) :
    (free = [] ∧ r = none ∧ c' = c) ∨
    (∃ f rest fa, free = f :: rest ∧ r = some f ∧ c' = { c with frameAllocator := fa } ∧
      Sound P c' rest (f :: held)) := by
  obtain ⟨⟨r', fa⟩, hfa, heq⟩ := map_inv ha
  injection heq with hr hc
  subst hr hc
  rcases h.frames.allocate_cases hfa with ⟨hnil, rfl, rfl⟩ | ⟨f, rest, rfl, rfl, hrest⟩
  · exact .inl ⟨hnil, rfl, rfl⟩
  -- The frame leaves the free list for the hand; no entry had it, as it was free.
  · have hout := nodup_cons.mp h.frames.nodup
    refine .inr ⟨f, rest, fa, rfl, rfl, rfl, ?_⟩
    exact
      { frames := hrest
        leafFree := fun hl hmem => h.leafFree hl (mem_cons_of_mem _ hmem)
        leafPhys := h.leafPhys
        heldFree := by
          intro g hg
          rcases mem_cons.mp hg with rfl | hg
          · exact hout.1
          · exact fun hmem => h.heldFree hg (mem_cons_of_mem _ hmem)
        heldPhys := by
          intro g hg
          rcases mem_cons.mp hg with rfl | hg
          · exact h.frames.phys g mem_cons_self
          · exact h.heldPhys hg
        heldLeaf := by
          intro g r p e hg hl
          rcases mem_cons.mp hg with rfl | hg
          · exact fun he => h.leafFree hl (he ▸ mem_cons_self)
          · exact h.heldLeaf hg hl
        heldNodup := nodup_cons.mpr
          ⟨fun hg => h.heldFree hg mem_cons_self, h.heldNodup⟩
        entries := h.entries
        pairs := h.pairs }

theorem allocate_some (h : Sound P c free held) (ha : c.allocate = some (some f, c')) :
    ∃ rest fa, free = f :: rest ∧ c' = { c with frameAllocator := fa } ∧
      Sound P c' rest (f :: held) := by
  rcases h.allocate_cases ha with ⟨_, hr, _⟩ | ⟨g, rest, fa, hfree, hr, hc, h'⟩
  · cases hr
  · cases hr
    exact ⟨rest, fa, hfree, hc, h'⟩

theorem allocate_none (h : Sound P c free held) (ha : c.allocate = some (none, c')) :
    free = [] ∧ c' = c := by
  rcases h.allocate_cases ha with ⟨hnil, _, hc⟩ | ⟨g, rest, fa, _, hr, _⟩
  · exact ⟨hnil, hc⟩
  · cases hr

/-- The tables `map_to` creates are frames that leave the free list for good. -/
theorem takeTables (n : Nat) (h : Sound P c free held) (hrun : Memory.takeTables n c = some c') :
    n ≤ free.length ∧ ∃ fa, c' = { c with frameAllocator := fa } ∧
      Sound P c' (free.drop n) held := by
  induction n generalizing c c' free with
  | zero =>
    cases hrun
    exact ⟨Nat.zero_le _, c.frameAllocator, rfl, h⟩
  | succ n ih =>
    rw [Memory.takeTables] at hrun
    obtain ⟨⟨r, c₁⟩, ha, hrun⟩ := bind_inv hrun
    rcases h.allocate_cases ha with ⟨_, rfl, _⟩ | ⟨f, rest, fa, rfl, rfl, rfl, h₁⟩
    · cases hrun
    · obtain ⟨hle, fa', hc', h'⟩ := ih h₁.drop hrun
      exact ⟨Nat.succ_le_succ hle, fa', hc', h'⟩

/-- What `map_page` does when it returns. -/
theorem mapPage_cases (h : Sound P c free held) (hm : mapPage c root page e = some c') :
    T.missing c.tables root page ≤ free.length ∧ c.leaf root page = none ∧
    ∃ fa, c' = { c with frameAllocator := fa, tables := T.mapTo c.tables root page e } ∧
      Sound P { c with frameAllocator := fa } (free.drop (T.missing c.tables root page)) held := by
  obtain ⟨c₁, htake, hnone, rfl⟩ := mapPage_inv hm
  obtain ⟨hle, fa, rfl, h₁⟩ := h.takeTables _ htake
  exact ⟨hle, hnone, fa, rfl, h₁⟩

/-- Mapping a frame in hand. -/
theorem mapTo_held (h : Sound P c free (e.frame :: held)) (hQ : P.entry page e.flags) :
    Sound P { c with tables := T.mapTo c.tables root page e } free held := by
  have hhand : e.frame ∈ e.frame :: held := mem_cons_self
  exact
    { frames := h.frames
      leafFree := by
        intro r p e' hl
        rcases leaf_of_mapTo hl with ⟨_, rfl⟩ | hl
        · exact h.heldFree hhand
        · exact h.leafFree hl
      leafPhys := by
        intro r p e' hl
        rcases leaf_of_mapTo hl with ⟨_, rfl⟩ | hl
        · exact h.heldPhys hhand
        · exact h.leafPhys hl
      heldFree := h.drop.heldFree
      heldPhys := h.drop.heldPhys
      heldLeaf := by
        intro g r p e' hg hl
        rcases leaf_of_mapTo hl with ⟨_, rfl⟩ | hl
        · exact fun he => (nodup_cons.mp h.heldNodup).1 (he ▸ hg)
        · exact h.drop.heldLeaf hg hl
      heldNodup := h.drop.heldNodup
      entries := by
        intro r p e' hl
        rcases leaf_of_mapTo hl with ⟨hs, rfl⟩ | hl
        · exact hs.1 ▸ hQ
        · exact h.entries hl
      -- Nobody else maps a frame that is in hand, so the new entry shares with none.
      pairs := by
        intro r p e₁ r' p' e₂ hl hl' hfr
        rcases leaf_of_mapTo hl with ⟨hs, h₁⟩ | ho <;> rcases leaf_of_mapTo hl' with ⟨hs', h₂⟩ | ho'
        · exact .inl (sameLeaf_trans (sameLeaf_symm hs) hs')
        · exact absurd (hfr.symm.trans (by rw [h₁])) (h.heldLeaf hhand ho')
        · exact absurd (hfr.trans (by rw [h₂])) (h.heldLeaf hhand ho)
        · exact h.pairs ho ho' hfr }

/-- Mapping a frame once more, when that is fine with every entry that has it. -/
theorem mapTo_shared (h : Sound P c free held) {root' page' : Nat} {e₀ : Entry}
    (h₀ : c.leaf root' page' = some e₀) (hframe : e.frame = e₀.frame)
    (hQ : P.entry page e.flags)
    (hP : ∀ {r p e'}, c.leaf r p = some e' → e'.frame = e.frame →
      P.share e.flags.writable e'.flags.writable ∧
        P.share e'.flags.writable e.flags.writable) :
    Sound P { c with tables := T.mapTo c.tables root page e } free held := by
  exact
    { h with
      leafFree := by
        intro r p e' hl
        rcases leaf_of_mapTo hl with ⟨_, rfl⟩ | hl
        · rw [hframe]; exact h.leafFree h₀
        · exact h.leafFree hl
      leafPhys := by
        intro r p e' hl
        rcases leaf_of_mapTo hl with ⟨_, rfl⟩ | hl
        · rw [hframe]; exact h.leafPhys h₀
        · exact h.leafPhys hl
      heldLeaf := by
        intro g r p e' hg hl
        rcases leaf_of_mapTo hl with ⟨_, rfl⟩ | hl
        · rw [hframe]; exact h.heldLeaf hg h₀
        · exact h.heldLeaf hg hl
      entries := by
        intro r p e' hl
        rcases leaf_of_mapTo hl with ⟨hs, rfl⟩ | hl
        · exact hs.1 ▸ hQ
        · exact h.entries hl
      -- The new entry shares with all that have the frame, and `hP` says that this is fine.
      pairs := by
        intro r p e₁ r' p' e₂ hl hl' hfr
        rcases leaf_of_mapTo hl with ⟨hs, h₁⟩ | ho <;> rcases leaf_of_mapTo hl' with ⟨hs', h₂⟩ | ho'
        · exact .inl (sameLeaf_trans (sameLeaf_symm hs) hs')
        · subst h₁; exact .inr (hP ho' hfr.symm).1
        · subst h₂; exact .inr (hP ho hfr).2
        · exact h.pairs ho ho' hfr }

theorem unmap (h : Sound P c free held) :
    Sound P { c with tables := T.unmap c.tables root page } free held :=
  { h with
    leafFree := fun hl => h.leafFree (leaf_of_unmap hl).1
    leafPhys := fun hl => h.leafPhys (leaf_of_unmap hl).1
    heldLeaf := fun hg hl => h.heldLeaf hg (leaf_of_unmap hl).1
    entries := fun hl => h.entries (leaf_of_unmap hl).1
    pairs := fun hl hl' hfr => h.pairs (leaf_of_unmap hl).1 (leaf_of_unmap hl').1 hfr }

/-- Unmapping the only entry of a frame puts the frame in hand. -/
theorem unmap_exclusive (h : Sound P c free held) (hl : c.leaf root page = some e)
    (hx : Exclusive c root page) :
    Sound P { c with tables := T.unmap c.tables root page } free (e.frame :: held) :=
  { h.unmap with
    heldFree := by
      intro g hg
      rcases mem_cons.mp hg with rfl | hg
      · exact h.leafFree hl
      · exact h.heldFree hg
    heldPhys := by
      intro g hg
      rcases mem_cons.mp hg with rfl | hg
      · exact h.leafPhys hl
      · exact h.heldPhys hg
    heldLeaf := by
      intro g r p e' hg hl'
      obtain ⟨hl', hs⟩ := leaf_of_unmap hl'
      rcases mem_cons.mp hg with rfl | hg
      · exact fun he => hs (hx hl hl' he)
      · exact h.heldLeaf hg hl'
    heldNodup := nodup_cons.mpr ⟨fun hg => h.heldLeaf hg hl rfl, h.heldNodup⟩ }

/-- Changing the flags of an entry, when the policy admits the new flags and
the new writable bit with every other entry of the frame. -/
theorem updateFlags (h : Sound P c free held)
    (hQ : ∀ {e}, c.leaf root page = some e → P.entry page flags)
    (hP : ∀ {e r p e'}, c.leaf root page = some e → c.leaf r p = some e' → e'.frame = e.frame →
      T.SameLeaf root page r p ∨
        (P.share flags.writable e'.flags.writable ∧ P.share e'.flags.writable flags.writable)) :
    Sound P { c with tables := T.updateFlags c.tables root page flags } free held := by
  -- whatever happened to the flags, the frame of an entry is the old one
  have hold : ∀ {r p e'}, T.leaf (T.updateFlags c.tables root page flags) r p = some e' →
      ∃ e, c.leaf r p = some e ∧ e'.frame = e.frame := by
    intro r p e' hl
    rcases leaf_of_updateFlags hl with ⟨_, e, _, he, rfl⟩ | ⟨_, hl⟩
    · exact ⟨e, he, rfl⟩
    · exact ⟨e', hl, rfl⟩
  exact
    { h with
      leafFree := by
        intro r p e' hl
        obtain ⟨e, he, hfr⟩ := hold hl
        rw [hfr]; exact h.leafFree he
      leafPhys := by
        intro r p e' hl
        obtain ⟨e, he, hfr⟩ := hold hl
        rw [hfr]; exact h.leafPhys he
      heldLeaf := by
        intro g r p e' hg hl
        obtain ⟨e, he, hfr⟩ := hold hl
        rw [hfr]; exact h.heldLeaf hg he
      entries := by
        intro r p e' hl
        rcases leaf_of_updateFlags hl with ⟨hs, e, he, _, rfl⟩ | ⟨_, hl⟩
        · exact hs.1 ▸ hQ he
        · exact h.entries hl
      pairs := by
        intro r p e₁ r' p' e₂ hl hl' hfr
        rcases leaf_of_updateFlags hl with ⟨hs, e, he, _, rfl⟩ | ⟨hs, hl⟩ <;>
          rcases leaf_of_updateFlags hl' with ⟨hs', e', he', _, rfl⟩ | ⟨hs', hl'⟩
        · exact .inl (sameLeaf_trans (sameLeaf_symm hs) hs')
        · exact .inr ((hP he hl' hfr.symm).resolve_left hs').1
        · exact .inr ((hP he' hl hfr).resolve_left hs).2
        · exact h.pairs hl hl' hfr }

/-- A frame in hand goes back to the free list; it may hide frames there (see
`FreeFrames.deallocate`), but no other frame becomes free. -/
theorem deallocate (h : Sound P c free (f :: held)) :
    ∃ free', free' ⊆ f :: free ∧ Sound P (c.deallocate f) free' held := by
  have hhand : f ∈ f :: held := mem_cons_self
  obtain ⟨rest, hpre, hfr⟩ := h.frames.deallocate (h.heldFree hhand) (h.heldPhys hhand)
  have hsub : f :: rest ⊆ f :: free := cons_subset_cons f hpre.subset
  refine ⟨f :: rest, hsub, ?_⟩
  exact
    { frames := hfr
      -- What becomes free is the frame in hand, and no entry has it.
      leafFree := by
        intro r p e hl hmem
        rcases mem_cons.mp (hsub hmem) with he | hmem
        · exact h.heldLeaf hhand hl he
        · exact h.leafFree hl hmem
      leafPhys := h.leafPhys
      heldFree := by
        intro g hg hmem
        rcases mem_cons.mp (hsub hmem) with rfl | hmem
        · exact (nodup_cons.mp h.heldNodup).1 hg
        · exact h.drop.heldFree hg hmem
      heldPhys := h.drop.heldPhys
      heldLeaf := h.drop.heldLeaf
      heldNodup := h.drop.heldNodup
      entries := h.entries
      pairs := h.pairs }

/-- A new address space: its level-4 frame is in hand and its user half empty. -/
theorem cloneKernelHalf (h : Sound P c free held)
    (hc : Memory.cloneKernelHalf c = some (root, c')) :
    ∃ rest fa, free = root :: rest ∧
      c' = { c with frameAllocator := fa, tables := T.cloneKernel c.tables root } ∧
      Sound P c' rest (root :: held) := by
  obtain ⟨c₁, ha, rfl⟩ := cloneKernelHalf_inv hc
  obtain ⟨rest, fa, rfl, rfl, h₁⟩ := h.allocate_some ha
  exact ⟨rest, fa, rfl, rfl,
    { h₁ with
      leafFree := fun hl => h₁.leafFree (leaf_of_cloneKernel hl).1
      leafPhys := fun hl => h₁.leafPhys (leaf_of_cloneKernel hl).1
      heldLeaf := fun hg hl => h₁.heldLeaf hg (leaf_of_cloneKernel hl).1
      entries := fun hl => h₁.entries (leaf_of_cloneKernel hl).1
      pairs := fun hl hl' hfr =>
        h₁.pairs (leaf_of_cloneKernel hl).1 (leaf_of_cloneKernel hl').1 hfr }⟩

end Sound

end AlaphiOS.Memory
