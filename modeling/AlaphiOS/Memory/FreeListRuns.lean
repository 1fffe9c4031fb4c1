import AlaphiOS.Memory.FreeList
import AlaphiOS.Lib.Run

/-!
# The frame free list over whole runs

What a caller of `allocate` and `deallocate` relies on, with no page table in
sight: the frames given back and not handed out again are on the list, the last
one first, and `free_count` is their number. Between two calls the holders of
the other frames write into them.

`deallocate` stores the address of the old head, and the address of frame 0 is
the word that ends the list. So the list keeps everything until a frame is
given back while frame 0 is its head: `Buries` is that call, and
`free_list_keeps_all` says that it is the only way to lose a frame.
-/

namespace AlaphiOS.Memory

open Lib Function

/-- The allocator, the memory, and as a ghost the frames that were given back
and not handed out since, the last one first. -/
structure FrameRun where
  mem : Mem
  fa : FreeListAllocator
  free : List Nat

inductive FrameCall where
  | allocate
  | deallocate (frame : Nat)
  | write (addr : Nat) (byte : UInt8)

/-- A call returns (`none` is a panic, or a call nobody may make: giving back a
frame that is free or none of physical memory, writing into a free frame). -/
def frameStep (s : FrameRun) : FrameCall → Option FrameRun
  | .allocate =>
    (s.fa.allocate s.mem).map fun (frame, fa) =>
      { s with fa := fa, free := frame.elim s.free s.free.erase }
  | .deallocate f =>
    if f ∉ s.free ∧ frameAddr f < 2 ^ 52 then
      let r := s.fa.deallocate s.mem f
      some ⟨r.1, r.2, f :: s.free⟩
    else none
  | .write addr byte =>
    if addr / 4096 ∉ s.free then some { s with mem := update s.mem addr byte } else none

/-- Nothing is lost: the links lead through the free frames, `free_count` is
their number, and `allocate` returns, with the frame freed last (and `None` if
there is none). -/
def LosesNothing (s : FrameRun) : Prop :=
  Chain s.mem s.fa.head (s.free.map frameAddr) ∧ s.fa.freeCount = s.free.length ∧
    ∃ fa, s.fa.allocate s.mem = some (s.free.head?, fa)

/-- A frame is given back while frame 0 is the head of the list. -/
def Buries (s : FrameRun) : FrameCall → Prop
  | .deallocate f => f ∉ s.free ∧ frameAddr f < 2 ^ 52 ∧ s.fa.head = some 0
  | _ => False

/-- The run invariant: the list holds the free frames, and counts them exactly. -/
structure Counted (s : FrameRun) : Prop where
  frames : FreeFrames s.mem s.fa s.free
  count : s.fa.freeCount = s.free.length

theorem Counted.losesNothing {s : FrameRun} (h : Counted s) : LosesNothing s := by
  refine ⟨h.frames.chain, h.count, ?_⟩
  cases hfree : s.free with
  | nil => exact ⟨s.fa, (hfree ▸ h.frames).allocate_nil⟩
  | cons f rest =>
    obtain ⟨fa, hfa, _⟩ := (hfree ▸ h.frames).allocate_cons
    exact ⟨fa, hfa⟩

/-- A frame handed out is one less in the count. -/
theorem FreeListAllocator.allocate_freeCount {m : Mem} {fa fa' : FreeListAllocator} {f : Nat}
    (h : fa.allocate m = some (some f, fa')) : fa.freeCount = fa'.freeCount + 1 := by
  unfold allocate at h
  split at h
  · cases h
  · dsimp only at h
    split at h
    · cases h
    · split at h
      · cases h
      next hcount =>
        cases h
        dsimp only
        omega

/-- Every call but a burial keeps the list exact. -/
theorem frameStep_counted {s t : FrameRun} {c : FrameCall} (h : Counted s) (hc : ¬ Buries s c)
    (hstep : frameStep s c = some t) : Counted t := by
  cases c with
  | allocate =>
    obtain ⟨⟨frame, fa⟩, hfa, rfl⟩ := map_inv hstep
    rcases h.frames.allocate_cases hfa with ⟨hnil, rfl, rfl⟩ | ⟨f, rest, hcons, rfl, hrest⟩
    · exact h
    · have hcount := FreeListAllocator.allocate_freeCount hfa
      have hcounted := h.count
      have herase : s.free.erase f = rest := by rw [hcons, List.erase_cons_head]
      refine ⟨?_, ?_⟩
      · show FreeFrames s.mem fa (s.free.erase f)
        rw [herase]
        exact hrest
      · show fa.freeCount = (s.free.erase f).length
        rw [hcons, List.length_cons] at hcounted
        rw [herase]
        omega
  | deallocate f =>
    unfold frameStep at hstep
    dsimp only at hstep
    split at hstep
    next hok =>
      cases hstep
      have hhead : s.free.head? ≠ some 0 := by
        intro h0
        refine hc ⟨hok.1, hok.2, ?_⟩
        obtain ⟨rest, hrest⟩ := List.head?_eq_some_iff.mp h0
        have hchain := h.frames.chain
        rw [hrest] at hchain
        exact hchain.of_cons.1
      exact ⟨h.frames.deallocate_front hok.1 hok.2 hhead, congrArg (· + 1) h.count⟩
    · cases hstep
  | write addr byte =>
    unfold frameStep at hstep
    dsimp only at hstep
    split at hstep
    next hout =>
      cases hstep
      refine ⟨h.frames.frame fun f hf => readWord_congr fun x hlo hhi => ?_, h.count⟩
      refine update_of_ne (fun hx => hout ?_) _ _
      have hdiv : addr / 4096 = f := by
        unfold frameAddr at hlo hhi
        omega
      exact hdiv ▸ hf
    · cases hstep

/-- After a burial the list ends at the frame given back. -/
theorem buries_loses {s : FrameRun} {c : FrameCall} (h : Counted s) (hc : Buries s c) :
    ∃ t, frameStep s c = some t ∧ ¬ LosesNothing t := by
  cases c with
  | deallocate f =>
    obtain ⟨hfree, hphys, h0⟩ := hc
    unfold frameStep
    refine ⟨_, if_pos ⟨hfree, hphys⟩, ?_⟩
    rintro ⟨hchain, _, _⟩
    -- the link of the new head reads as the end, but the old head is still owed
    have hrest := (hchain.of_cons (a := frameAddr f)).2
    dsimp only [FreeListAllocator.deallocate] at hrest
    rw [h0, Option.getD_some, readWord_writeWord (by decide), ptr_zero] at hrest
    have hnil := List.map_eq_nil_iff.mp hrest.of_none
    have hold := h.frames.chain
    rw [hnil, h0] at hold
    cases hold.of_nil
  | allocate | write => exact hc.elim

/-- **The frame free list.** From the empty allocator over any memory, along
every run of calls: nothing is lost at the start, and nothing is lost by any
call of the run if and only if no call gives a frame back while frame 0 is the
head of the list. -/
theorem free_list_keeps_all (m : Mem) (calls : List FrameCall) :
    LosesNothing ⟨m, .empty, []⟩ ∧
    (Along frameStep (fun s c => ∀ t, frameStep s c = some t → LosesNothing t)
        ⟨m, .empty, []⟩ calls
      ↔ Along frameStep (fun s c => ¬ Buries s c) ⟨m, .empty, []⟩ calls) := by
  have h₀ : Counted ⟨m, .empty, []⟩ := ⟨FreeFrames.empty m, rfl⟩
  refine ⟨h₀.losesNothing, along_congr (I := Counted) (fun s c h => ?_)
    (fun s c t h hc hstep => frameStep_counted h hc hstep) h₀⟩
  constructor
  · intro hall hc
    obtain ⟨t, hstep, hlost⟩ := buries_loses h hc
    exact hlost (hall t hstep)
  · intro hc t hstep
    exact (frameStep_counted h hc hstep).losesNothing

/-- Frames 0 and 5 are given back. Two frames are counted, but the list ends
after frame 5: the second `allocate` returns `None`. -/
theorem frame_zero_is_buried :
    ∃ s, exec frameStep ⟨fun _ => 0, .empty, []⟩ [.deallocate 0, .deallocate 5] = some s ∧
      ¬ LosesNothing s ∧ s.fa.freeCount = 2 ∧ Chain s.mem s.fa.head [frameAddr 5] ∧
      ∃ t, frameStep s .allocate = some t ∧ t.free = [0] ∧ t.fa.freeCount = 1 ∧
        t.fa.allocate t.mem = some (none, t.fa) := by
  have hchain : ∀ m : Mem, Chain (writeWord m (frameAddr 5) 0) (some (frameAddr 5)) [frameAddr 5] :=
    fun m => Chain.push .nil (by decide) (by simp)
  refine ⟨_, rfl, ?_, rfl, hchain _, _, rfl, rfl, rfl, rfl⟩
  rintro ⟨hfree, _, _⟩
  cases hfree.unique (hchain _)

end AlaphiOS.Memory
