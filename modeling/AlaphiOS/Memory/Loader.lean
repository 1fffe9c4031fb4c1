import AlaphiOS.Memory.Fork

/-!
# The image of a new program

`load_flat` copies a flat binary page by page into fresh frames, and works out
where the heap starts from the length alone. `flat_image_laid_out` says that
the two agree for every length: the pages mapped are those from the code base
up to the start of the heap, they read as the image followed by zeros, and the
heap and the stack begin behind them.

The loop is followed by one invariant, `Loading`: after `n` rounds, the first
`n` pages are in place and every other entry is as `clone_kernel_half` left it.
A round writes to a frame that has just come off the free list, so it cannot
disturb the pages before it; that the free list is intact is all this needs.
The invariant counts the frames too, so it also says exactly when `load_flat`
returns: it takes one frame for the level-4 table, one for each page and one
for each table on the way.
-/

namespace AlaphiOS.Memory

open Lib List

variable {T : PageTables}

/-- The first `n` pages of the image. -/
def imagePages (n : Nat) : List Nat := (range n).map fun k => userCodeBase / 4096 + k

/-- The frames that `load_flat` takes for `n` pages. -/
def imageFrames (c : Shared T) (n : Nat) : Nat :=
  1 + n + (childTables c 0 (imagePages n)).length

/-- `load_flat` has the frames it needs, and the kernel is not in its way. -/
structure Loadable (c : Shared T) (free : List Nat) (bytes : List UInt8) : Prop where
  enough : imageFrames c ((bytes.length + 4095) / 4096) ≤ free.length
  unused : ∀ page ∈ imagePages ((bytes.length + 4095) / 4096), T.KernelPage page →
    ∀ root, c.leaf root page = none

/-- Task `i` of `s` is laid out for these bytes; `c₀` is the state it was
loaded in, and `free` its free frames. -/
structure ImageLaid (c₀ : Shared T) (free : List Nat) (bytes : List UInt8) (s : Machine T) (i : Nat)
    (sp : Space) : Prop where
  space : s.spaces[i]? = some sp
  /-- The pages of the image. -/
  mapped : ∀ page, userCodeBase ≤ frameAddr page → frameAddr page < sp.heapStart →
    ∃ f ∈ free, s.shared.leaf sp.root page = some ⟨f, userFlags false⟩
  /-- No other page. -/
  user : ∀ page, frameAddr page < userCodeBase ∨ sp.heapStart ≤ frameAddr page →
    ¬ T.KernelPage page → s.shared.leaf sp.root page = none
  kernel : ∀ page, frameAddr page < userCodeBase ∨ sp.heapStart ≤ frameAddr page →
    T.KernelPage page → ∀ root, s.shared.leaf sp.root page = c₀.leaf root page
  image : ∀ k b, bytes[k]? = some b → userLoad s i (userCodeBase + k) = some b
  padding : ∀ addr, userCodeBase + bytes.length ≤ addr → addr < sp.heapStart →
    userLoad s i addr = some 0
  /-- The start of the heap is the least page boundary behind the image. -/
  aligned : sp.heapStart % 4096 = 0
  behind : userCodeBase + bytes.length ≤ sp.heapStart
  least : ∀ a, a % 4096 = 0 → userCodeBase + bytes.length ≤ a → sp.heapStart ≤ a
  heap : sp.brk = sp.heapStart
  stack : sp.vmm.areas = [⟨userStackTop - userStackSize, userStackTop, userFlags true⟩]
  below : sp.heapStart ≤ userStackTop - userStackSize

/-! ## One page -/

/-- The memory with page `k` of the image in frame `f`. -/
def imageMem (m : Mem) (f : Nat) (bytes : List UInt8) (k : Nat) : Mem :=
  blit (fill m (frameAddr f) 4096 0) (frameAddr f) (min (bytes.length - k * 4096) 4096)
    fun i => bytes.getD (k * 4096 + i) 0

section Page

variable {c c' : Shared T} {free : List Nat} {root k f g off : Nat} {bytes : List UInt8} {m : Mem}
  {fa : FreeListAllocator}

/-- The part of the last page behind the image is zero. -/
theorem imageMem_at (h : off < 4096) :
    imageMem m f bytes k (frameAddr f + off) = bytes.getD (k * 4096 + off) 0 := by
  unfold imageMem
  by_cases hin : off < min (bytes.length - k * 4096) 4096
  · exact blit_at hin
  · rw [blit_out (by omega), fill_in (Nat.le_add_right _ _) (by omega), getD_eq_getElem?_getD,
      getElem?_eq_none (by omega)]
    rfl

theorem imageMem_other (hne : f ≠ g) (h : off < 4096) :
    imageMem m f bytes k (frameAddr g + off) = m (frameAddr g + off) := by
  have hlo := Nat.le_add_right (frameAddr g) off
  have hhi := Nat.add_lt_add_left h (frameAddr g)
  unfold imageMem
  rw [blit_other_frame hne (Nat.le_refl _) (by omega) hlo hhi]
  exact blit_other_frame hne (Nat.le_refl _) (Nat.le_refl _) hlo hhi

theorem FreeFrames.imageMem (h : FreeFrames m fa free) (hf : f ∉ free) (bytes : List UInt8)
    (k : Nat) : FreeFrames (imageMem m f bytes k) fa free := by
  have hfill : FreeFrames (fill m (frameAddr f) 4096 0) fa free :=
    h.blit hf (Nat.le_refl _) (Nat.le_refl _)
  exact hfill.blit hf (Nat.le_refl _) (by omega)

theorem loadPage_at (h : loadPage root bytes c k = some c') :
    Canonical (userCodeBase + k * 4096) ∧ c.leaf root (userCodeBase / 4096 + k) = none := by
  obtain ⟨⟨r, c₁⟩, ha, h⟩ := bind_inv h
  cases r with
  | none => cases h
  | some frame =>
    obtain ⟨va, hva, hm⟩ := bind_inv h
    obtain ⟨hcanon, rfl⟩ := canonical_of_virtAddr hva
    refine ⟨hcanon, ?_⟩
    rw [← Nat.add_mul_div_right _ _ (by decide : 0 < 4096), ← allocate_leaf ha]
    exact (mapPage_eq hm).1

/-- A round of the copy loop on a page that is not in use. -/
theorem loadPage_free (bytes : List UInt8) (h : FreeFrames c.mem c.frameAllocator free)
    (hva : Canonical (userCodeBase + k * 4096))
    (hl : c.leaf root (userCodeBase / 4096 + k) = none) :
    (free.length < 1 + T.missing c.tables root (userCodeBase / 4096 + k) ∧
      loadPage root bytes c k = none) ∨
    (1 + T.missing c.tables root (userCodeBase / 4096 + k) ≤ free.length ∧
      ∃ f rest fa, free = f :: rest ∧
        loadPage root bytes c k = some ⟨imageMem c.mem f bytes k, fa, c.swap,
          T.mapTo c.tables root (userCodeBase / 4096 + k) ⟨f, userFlags false⟩⟩ ∧
        FreeFrames (imageMem c.mem f bytes k) fa
          (rest.drop (T.missing c.tables root (userCodeBase / 4096 + k)))) := by
  have hpage : (userCodeBase + k * 4096) / 4096 = userCodeBase / 4096 + k :=
    Nat.add_mul_div_right _ _ (by decide)
  unfold loadPage
  rcases allocate_free h with ⟨rfl, ha⟩ | ⟨f, rest, fa, rfl, ha, hrest⟩
  · rw [ha]
    exact .inl ⟨Nat.add_pos_left Nat.one_pos _, rfl⟩
  · rw [ha]
    -- what is left of the round is `map_page`, with the page copied into the new frame
    have hround : (virtAddr (userCodeBase + k * 4096)).bind (fun va =>
        mapPage ⟨imageMem c.mem f bytes k, fa, c.swap, c.tables⟩ root (va / 4096)
          ⟨f, userFlags false⟩)
        = mapPage ⟨imageMem c.mem f bytes k, fa, c.swap, c.tables⟩ root (userCodeBase / 4096 + k)
          ⟨f, userFlags false⟩ := by
      rw [virtAddr, if_pos hva, Option.bind_some, hpage]
    have hcopied := hrest.imageMem (nodup_cons.mp h.nodup).1 bytes k
    rcases mapPage_free (c := ⟨imageMem c.mem f bytes k, fa, c.swap, c.tables⟩)
      (e := ⟨f, userFlags false⟩) hcopied hl with ⟨hlt, hnone⟩ | ⟨hle, fa', hsome, hdrop⟩
    · refine .inl ⟨?_, hround.trans hnone⟩
      rw [length_cons]
      dsimp only at hlt
      omega
    · refine .inr ⟨?_, f, rest, fa', rfl, hround.trans hsome, hdrop⟩
      rw [length_cons]
      dsimp only at hle
      omega

end Page

/-! ## The copy loop -/

section Loop

variable {c₀ c c' : Shared T} {free : List Nat} {root n : Nat} {bytes : List UInt8}

theorem imagePages_succ : imagePages (n + 1) = imagePages n ++ [userCodeBase / 4096 + n] := by
  rw [imagePages, range_succ, map_append]
  rfl

theorem mem_imagePages {page : Nat} :
    page ∈ imagePages n ↔ userCodeBase / 4096 ≤ page ∧ page < userCodeBase / 4096 + n := by
  simp only [imagePages, mem_map, mem_range]
  constructor
  · rintro ⟨k, hk, rfl⟩
    omega
  · intro h
    exact ⟨page - userCodeBase / 4096, by omega, by omega⟩

/-- The state after `n` rounds of the copy loop of a `load_flat` that began in `c₀`. -/
structure Loading (c₀ : Shared T) (root : Nat) (free : List Nat) (bytes : List UInt8) (n : Nat)
    (c : Shared T) : Prop where
  enough : imageFrames c₀ n ≤ free.length
  frames : FreeFrames c.mem c.frameAllocator (free.drop (imageFrames c₀ n))
  tables : TablesFor c₀ 0 root (imagePages n) c.tables
  /-- The pages so far are in frames of their own. -/
  code : ∀ k < n, ∃ f ∈ free, f ∉ free.drop (imageFrames c₀ n) ∧
    c.leaf root (userCodeBase / 4096 + k) = some ⟨f, userFlags false⟩ ∧
    ∀ off < 4096, c.mem (frameAddr f + off) = bytes.getD (k * 4096 + off) 0
  others : ∀ page ∉ imagePages n,
    c.leaf root page = T.leaf (T.cloneKernel c₀.tables root) root page
  unused : ∀ page ∈ imagePages n, T.leaf (T.cloneKernel c₀.tables root) root page = none

theorem loading_clone (bytes : List UInt8) (hfree : FreeFrames c₀.mem c₀.frameAllocator free)
    (hc : cloneKernelHalf c₀ = some (root, c)) : Loading c₀ root free bytes 0 c := by
  obtain ⟨c₁, ha, rfl⟩ := cloneKernelHalf_inv hc
  rcases allocate_free hfree with ⟨rfl, hno⟩ | ⟨f, rest, fa, rfl, hyes, hrest⟩
  · cases ha.symm.trans hno
  · cases ha.symm.trans hyes
    exact
      { enough := Nat.le_add_left _ _
        frames := hrest
        tables := tablesFor_cloneKernel c₀ 0 root
        code := fun k hk => absurd hk (Nat.not_lt_zero k)
        others := fun _ _ => rfl
        unused := nofun }

section

variable (h : Loading c₀ root free bytes n c)

include h

theorem Loading.frames_succ : imageFrames c₀ (n + 1)
    = imageFrames c₀ n + (1 + T.missing c.tables root (userCodeBase / 4096 + n)) := by
  have hlen := h.tables.length_append (userCodeBase / 4096 + n)
  rw [← imagePages_succ] at hlen
  unfold imageFrames
  omega

theorem Loading.next_unused :
    c.leaf root (userCodeBase / 4096 + n)
      = T.leaf (T.cloneKernel c₀.tables root) root (userCodeBase / 4096 + n) := by
  refine h.others _ (fun hmem => ?_)
  have := (mem_imagePages.mp hmem).2
  omega

/-- What a round takes from the free list, and what it leaves. -/
theorem Loading.round
    (hr : loadPage root bytes c n = some c') :
    ∃ f rest fa, free.drop (imageFrames c₀ n) = f :: rest ∧ f ∉ rest ∧
      c' = ⟨imageMem c.mem f bytes n, fa, c.swap,
        T.mapTo c.tables root (userCodeBase / 4096 + n) ⟨f, userFlags false⟩⟩ ∧
      imageFrames c₀ (n + 1) ≤ free.length ∧
      (∀ g ∈ free.drop (imageFrames c₀ (n + 1)), g ∈ rest) ∧
      FreeFrames c'.mem c'.frameAllocator (free.drop (imageFrames c₀ (n + 1))) := by
  obtain ⟨hva, hl⟩ := loadPage_at hr
  have henough := h.enough
  rcases loadPage_free bytes h.frames hva hl with
    ⟨_, hno⟩ | ⟨hle, f, rest, fa, hcons, hyes, hdrop⟩
  · cases hr.symm.trans hno
  · cases hr.symm.trans hyes
    rw [length_drop] at hle
    have hrest : free.drop (imageFrames c₀ (n + 1))
        = rest.drop (T.missing c.tables root (userCodeBase / 4096 + n)) := by
      rw [h.frames_succ, ← drop_drop, hcons, Nat.add_comm 1, drop_succ_cons]
    have hnodup := h.frames.nodup
    rw [hcons] at hnodup
    refine ⟨f, rest, fa, hcons, (nodup_cons.mp hnodup).1, rfl, ?_, fun g hg => ?_, ?_⟩
    · rw [h.frames_succ]
      omega
    · exact mem_of_mem_drop (hrest ▸ hg)
    · rw [hrest]
      exact hdrop

/-- One round. -/
theorem Loading.step
    (hr : loadPage root bytes c n = some c') : Loading c₀ root free bytes (n + 1) c' := by
  have hl := (loadPage_at hr).2
  obtain ⟨f, rest, fa, hcons, hnew, rfl, henough, hsub, hframes⟩ := h.round hr
  have hfree : f ∈ free.drop (imageFrames c₀ n) := by
    rw [hcons]
    exact mem_cons_self
  have hleaf : ∀ page, T.leaf (T.mapTo c.tables root (userCodeBase / 4096 + n)
      ⟨f, userFlags false⟩) root page = if page = userCodeBase / 4096 + n
        then some ⟨f, userFlags false⟩ else c.leaf root page := fun page =>
    (T.leaf_mapTo ..).trans (if_congr sameLeaf_root rfl rfl)
  exact
    { enough := henough
      frames := hframes
      tables := by
        rw [imagePages_succ]
        exact h.tables.mapTo _ _
      code := by
        intro k hk
        rcases Nat.lt_succ_iff_lt_or_eq.mp hk with hk | rfl
        · -- a page of an earlier round: its frame is not the one just taken
          obtain ⟨g, hg, hgout, hgl, hgm⟩ := h.code k hk
          have hne : f ≠ g := fun he => hgout (he ▸ hfree)
          refine ⟨g, hg, fun hmem => hgout ?_, ?_, fun off hoff => ?_⟩
          · rw [hcons]
            exact mem_cons_of_mem _ (hsub g hmem)
          · exact (hleaf _).trans ((if_neg (by omega)).trans hgl)
          · exact (imageMem_other hne hoff).trans (hgm off hoff)
        · refine ⟨f, mem_of_mem_drop hfree, fun hmem => hnew (hsub f hmem), ?_,
            fun off hoff => ?_⟩
          · exact (hleaf _).trans (if_pos rfl)
          · exact imageMem_at hoff
      others := by
        intro page hpage
        rw [imagePages_succ, mem_append, mem_singleton, not_or] at hpage
        exact (hleaf page).trans ((if_neg hpage.2).trans (h.others page hpage.1))
      unused := by
        intro page hpage
        rw [imagePages_succ, mem_append, mem_singleton] at hpage
        rcases hpage with hpage | rfl
        · exact h.unused page hpage
        · exact h.next_unused.symm.trans hl }

/-- A round returns when the page is free to use and there are frames for it. -/
theorem Loading.returns
    (hva : Canonical (userCodeBase + n * 4096))
    (hunused : T.leaf (T.cloneKernel c₀.tables root) root (userCodeBase / 4096 + n) = none)
    (henough : imageFrames c₀ (n + 1) ≤ free.length) : ∃ c', loadPage root bytes c n = some c' := by
  have hsucc := h.frames_succ
  rcases loadPage_free bytes h.frames hva (h.next_unused.trans hunused) with
    ⟨hlt, _⟩ | ⟨_, f, rest, fa, _, hyes, _⟩
  · rw [length_drop] at hlt
    omega
  · exact ⟨_, hyes⟩

end

/-- All rounds. -/
theorem loading_of_loop (h : Loading c₀ root free bytes 0 c)
    (hr : (range n).foldlM (loadPage root bytes) c = some c') :
    Loading c₀ root free bytes n c' := by
  induction n generalizing c' with
  | zero =>
    cases hr
    exact h
  | succ n ih =>
    rw [range_succ, foldlM_append] at hr
    obtain ⟨c₁, hr₁, hr₂⟩ := bind_inv hr
    rw [foldlM_cons] at hr₂
    obtain ⟨c₂, hstep, hr₂⟩ := bind_inv hr₂
    cases hr₂
    exact (ih hr₁).step hstep

theorem imageFrames_le_succ (c : Shared T) (n : Nat) : imageFrames c n ≤ imageFrames c (n + 1) := by
  unfold imageFrames
  rw [imagePages_succ, childTables_append, addTables, length_append]
  omega

theorem loop_returns (h : Loading c₀ root free bytes 0 c)
    (hpages : ∀ k < n, Canonical (userCodeBase + k * 4096) ∧
      T.leaf (T.cloneKernel c₀.tables root) root (userCodeBase / 4096 + k) = none)
    (henough : imageFrames c₀ n ≤ free.length) :
    ∃ c', (range n).foldlM (loadPage root bytes) c = some c' := by
  induction n with
  | zero => exact ⟨c, rfl⟩
  | succ n ih =>
    obtain ⟨c₁, hr⟩ := ih (fun k hk => hpages k (Nat.lt_succ_of_lt hk))
      (Nat.le_trans (imageFrames_le_succ c₀ n) henough)
    obtain ⟨hva, hunused⟩ := hpages n (Nat.lt_succ_self n)
    obtain ⟨c₂, hr₂⟩ := (loading_of_loop h hr).returns hva hunused henough
    refine ⟨c₂, ?_⟩
    rw [range_succ, foldlM_append, hr]
    show foldlM (loadPage root bytes) c₁ [n] = some c₂
    rw [foldlM_cons, hr₂]
    rfl

end Loop

/-! ## The whole image -/

section Image

variable {s s' : Machine T} {free : List Nat} {root : Nat} {bytes : List UInt8}

theorem loadFlat_loading (hfree : FreeFrames s.shared.mem s.shared.frameAllocator free)
    (h : loadFlat s bytes = some s') : ∃ sp : Space, s'.spaces = s.spaces ++ [sp] ∧
      Loading s.shared sp.root free bytes ((bytes.length + 4095) / 4096) s'.shared ∧
      sp.heapStart = alignDown (userCodeBase + bytes.length + 4095) ∧ sp.brk = sp.heapStart ∧
      sp.vmm.areas = [⟨userStackTop - userStackSize, userStackTop, userFlags true⟩] := by
  obtain ⟨⟨root, c⟩, hc, h⟩ := bind_inv h
  obtain ⟨c', hr, h⟩ := bind_inv h
  cases h
  exact ⟨_, rfl, loading_of_loop (loading_clone bytes hfree hc) hr, rfl, rfl, rfl⟩

variable {c₀ : Shared T} {i : Nat} {sp : Space}

theorem Loading.loadable {c : Shared T}
    (h : Loading c₀ root free bytes ((bytes.length + 4095) / 4096) c) : Loadable c₀ free bytes where
  enough := h.enough
  unused := fun page hpage hk root' =>
    (leaf_cloneKernel_kernel hk root').symm.trans (h.unused page hpage)

theorem loadFlat_returns (hfree : FreeFrames s.shared.mem s.shared.frameAllocator free)
    (hfits : userCodeBase + bytes.length ≤ userStackTop - userStackSize)
    (h : Loadable s.shared free bytes) : (loadFlat s bytes).isSome := by
  have henough := h.enough
  have hclone : ∃ r, cloneKernelHalf s.shared = some r := by
    rcases allocate_free hfree with ⟨rfl, _⟩ | ⟨f, rest, fa, rfl, hyes, _⟩
    · unfold imageFrames at henough
      rw [length_nil] at henough
      omega
    · unfold cloneKernelHalf
      rw [hyes]
      exact ⟨_, rfl⟩
  obtain ⟨⟨root, c⟩, hc⟩ := hclone
  have hpages : ∀ k < (bytes.length + 4095) / 4096, Canonical (userCodeBase + k * 4096) ∧
      T.leaf (T.cloneKernel s.shared.tables root) root (userCodeBase / 4096 + k) = none := by
    intro k hk
    constructor
    · unfold userStackTop userStackSize at hfits
      exact .inl (by omega)
    · by_cases hkernel : T.KernelPage (userCodeBase / 4096 + k)
      · rw [leaf_cloneKernel_kernel hkernel 0]
        exact h.unused _ (mem_imagePages.mpr (by omega)) hkernel 0
      · exact leaf_cloneKernel_user hkernel
  obtain ⟨c', hr⟩ := loop_returns (loading_clone bytes hfree hc) hpages henough
  unfold loadFlat
  rw [hc]
  show ((foldlM (loadPage root bytes) c _).bind _).isSome
  rw [hr]
  rfl

/-- `(n + 0xFFF) & !0xFFF` is the least page boundary from `n` on. -/
theorem alignDown_up (n : Nat) : alignDown (n + 4095) % 4096 = 0 ∧ n ≤ alignDown (n + 4095) ∧
    ∀ a, a % 4096 = 0 → n ≤ a → alignDown (n + 4095) ≤ a := by
  unfold alignDown
  refine ⟨Nat.mul_mod_left .., by omega, fun a ha hle => ?_⟩
  omega

/-- The pages of the image are those up to the start of the heap. -/
theorem mem_imagePages_iff (bytes : List UInt8) (page : Nat) :
    page ∈ imagePages ((bytes.length + 4095) / 4096) ↔
      userCodeBase ≤ frameAddr page ∧
        frameAddr page < alignDown (userCodeBase + bytes.length + 4095) := by
  rw [mem_imagePages]
  unfold alignDown frameAddr userCodeBase
  omega

/-- A load from the image, padding included. -/
theorem Loading.userLoad {k : Nat}
    (h : Loading c₀ sp.root free bytes ((bytes.length + 4095) / 4096) s.shared)
    (hi : s.spaces[i]? = some sp) (hk : k / 4096 < (bytes.length + 4095) / 4096) :
    userLoad s i (userCodeBase + k) = some (bytes.getD k 0) := by
  obtain ⟨f, _, _, hl, hm⟩ := h.code (k / 4096) hk
  have hdiv : (userCodeBase + k) / 4096 = userCodeBase / 4096 + k / 4096 := by
    unfold userCodeBase
    omega
  have hmod : (userCodeBase + k) % 4096 = k % 4096 := by
    unfold userCodeBase
    omega
  rw [userLoad_resident hi (e := ⟨f, userFlags false⟩) (by rw [hdiv, hl]), hmod]
  dsimp only
  rw [hm _ (Nat.mod_lt _ (by decide)), Nat.div_add_mod' k 4096]
  rfl

theorem Loading.imageLaid
    (h : Loading c₀ sp.root free bytes ((bytes.length + 4095) / 4096) s.shared)
    (hi : s.spaces[i]? = some sp)
    (hstart : sp.heapStart = alignDown (userCodeBase + bytes.length + 4095))
    (hbrk : sp.brk = sp.heapStart)
    (hstack : sp.vmm.areas = [⟨userStackTop - userStackSize, userStackTop, userFlags true⟩])
    (hfits : userCodeBase + bytes.length ≤ userStackTop - userStackSize) :
    ImageLaid c₀ free bytes s i sp := by
  obtain ⟨haligned, hbehind, hleast⟩ := alignDown_up (userCodeBase + bytes.length)
  have hin : ∀ page, page ∈ imagePages ((bytes.length + 4095) / 4096) ↔
      userCodeBase ≤ frameAddr page ∧ frameAddr page < sp.heapStart := by
    intro page
    rw [hstart]
    exact mem_imagePages_iff bytes page
  have houter : ∀ page, frameAddr page < userCodeBase ∨ sp.heapStart ≤ frameAddr page →
      s.shared.leaf sp.root page = T.leaf (T.cloneKernel c₀.tables sp.root) sp.root page := by
    intro page hout
    refine h.others page (fun hmem => ?_)
    have := (hin page).mp hmem
    omega
  rw [← hstart] at haligned hbehind hleast
  exact
    { space := hi
      mapped := by
        intro page hlo hhi
        obtain ⟨k, hk, rfl⟩ := mem_map.mp ((hin page).mpr ⟨hlo, hhi⟩)
        obtain ⟨f, hf, _, hl, _⟩ := h.code k (mem_range.mp hk)
        exact ⟨f, hf, hl⟩
      user := fun page hout hk => (houter page hout).trans (leaf_cloneKernel_user hk)
      kernel := fun page hout hk root => (houter page hout).trans (leaf_cloneKernel_kernel hk root)
      image := by
        intro k b hb
        obtain ⟨hk, _⟩ := List.getElem?_eq_some_iff.mp hb
        rw [h.userLoad hi (by omega), getD_eq_getElem?_getD, hb]
        rfl
      padding := by
        intro addr hlo hhi
        rw [hstart] at hhi
        obtain ⟨k, rfl⟩ := Nat.exists_eq_add_of_le (Nat.le_trans (Nat.le_add_right _ _) hlo)
        have hk : k / 4096 < (bytes.length + 4095) / 4096 := by
          unfold alignDown userCodeBase at *
          omega
        rw [h.userLoad hi hk, getD_eq_getElem?_getD, List.getElem?_eq_none (by omega)]
        rfl
      aligned := haligned
      behind := hbehind
      least := hleast
      heap := hbrk
      stack := hstack
      below := hleast _ (by decide) hfits }

end Image

/-- **The layout of a loaded image.** Let the free list be intact and the image fit below the
stack. `load_flat` returns if and only if there are frames for the image and the kernel has mapped
none of its pages. Then the pages from the code base up to the start of the heap, and no others of
the user half, are mapped, for reading only. They read as the image and then as zeros; the heap
is empty and starts at the next page boundary, and the stack is above it. -/
theorem flat_image_laid_out (s : Machine T) (free : List Nat) (bytes : List UInt8)
    (hfree : FreeFrames s.shared.mem s.shared.frameAllocator free)
    (hfits : userCodeBase + bytes.length ≤ userStackTop - userStackSize) :
    ((loadFlat s bytes).isSome ↔ Loadable s.shared free bytes) ∧
    ∀ s', loadFlat s bytes = some s' →
      ∃ sp, ImageLaid s.shared free bytes s' s.spaces.length sp := by
  constructor
  · constructor
    · intro h
      obtain ⟨s', hs'⟩ := Option.isSome_iff_exists.mp h
      obtain ⟨sp, _, hloading, _⟩ := loadFlat_loading hfree hs'
      exact hloading.loadable
    · exact loadFlat_returns hfree hfits
  · intro s' hs'
    obtain ⟨sp, hspaces, hloading, hstart, hbrk, hstack⟩ := loadFlat_loading hfree hs'
    refine ⟨sp, hloading.imageLaid ?_ hstart hbrk hstack hfits⟩
    rw [hspaces]
    exact getElem?_concat_length

/-- One byte more than a page. -/
theorem flat_image_laid_out_two_pages : ∃ free s' sp,
    FreeFrames smallMachine.shared.mem smallMachine.shared.frameAllocator free ∧
    loadFlat smallMachine (replicate 4097 0x90) = some s' ∧
    ImageLaid smallMachine.shared free (replicate 4097 0x90) s' 0 sp := by
  obtain ⟨free, hsound⟩ := smallMachine_frameInv (P := anyPolicy)
  obtain ⟨s', hs'⟩ := Option.isSome_iff_exists.mp
    (show (loadFlat smallMachine (replicate 4097 0x90)).isSome by decide +kernel)
  have hfits : userCodeBase + (replicate 4097 (0x90 : UInt8)).length
      ≤ userStackTop - userStackSize := by
    rw [length_replicate]
    decide
  obtain ⟨sp, hsp⟩ := (flat_image_laid_out smallMachine free _ hsound.frames hfits).2 s' hs'
  exact ⟨free, s', sp, hsound.frames, hs', hsp⟩

end AlaphiOS.Memory
