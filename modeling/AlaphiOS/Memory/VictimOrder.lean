import AlaphiOS.Lib.Buckets
import AlaphiOS.Memory.Reaper
import Mathlib.Data.Fintype.Prod

/-!
# The order of the victims

Enhanced second chance: a round of `reap_to` should evict first the pages that are neither accessed
nor dirty, then the dirty ones that are not accessed, then those that are accessed, each class by
decreasing excess of their task over its share (`InVictimOrder`). A page is then evicted only when
no page of an earlier class remains.

This emerges from the three sweeps. Sweep `k` evicts class `k`: before it, the pages of the earlier
classes are gone, and sweep 1 clears the accessed bit of what it does not take (`stage`). A round
that goes on has done exactly this (`OnTrack`), and one that was stopped, or has no slot left, has
evicted a beginning of the same list.

A page can be listed twice, where the areas of a task overlap or where threads have it in theirs.
That does no harm to a page that is not accessed: the first visit that may take it does, and the
next finds it gone, so only its first listing counts (`firsts`). But a page that was accessed is
met twice in sweep 1: the first visit clears its bit, the second evicts it, before dirty pages that
are not accessed and stand behind it in the list (`overlap_evicts_accessed_first`).
-/

namespace AlaphiOS.Memory

open Lib List Candidate

variable {T : PageTables}

/-- The class of a page with these accessed and dirty bits. -/
def victimClass (bits : Bool × Bool) : Nat := if bits.1 then 2 else if bits.2 then 1 else 0

/-- The accessed and dirty bits of a candidate. -/
def Candidate.bits (c : Candidate) (s : Machine T) : Option (Bool × Bool) :=
  readBits s.shared c.cr3 c.vaddr

/-- The class of a candidate in a state. -/
def Candidate.classIn (s : Machine T) (c : Candidate) : Nat :=
  victimClass ((c.bits s).getD (false, false))

/-- A candidate with its excess should go before another. -/
def Before (s : Machine T) (v w : Int × Candidate) : Prop :=
  v.2.classIn s < w.2.classIn s ∨ (v.2.classIn s = w.2.classIn s ∧ w.1 ≤ v.1)

/-- The pages of the candidates, each by its first listing. -/
def listedPages (T : PageTables) (candidates : List (Int × Candidate)) : List (Int × Candidate) :=
  firsts (fun v w => v.2.SameLeaf T w.2) candidates

/-- The evicted pages are the first ones of all by class and decreasing excess. -/
def InVictimOrder (s : Machine T) (candidates : List (Int × Candidate))
    (evicted : List Candidate) : Prop :=
  ∃ order : List (Int × Candidate), order.Perm (listedPages T candidates) ∧
    order.Pairwise (Before s) ∧ evicted <+: order.map Prod.snd

/-- What the bits of a page are before sweep `k`, when they were `bits` before the round. -/
def stage (k : Nat) (bits : Bool × Bool) : Option (Bool × Bool) :=
  if victimClass bits < k then none else if k = 2 then some (false, bits.2) else some bits

/-! ## One visit -/

/-- A page that was gone before sweep `k` is of an earlier class. -/
theorem stage_of_none : ∀ k < 3, ∀ b, stage k b = none →
    victimClass b ≠ k ∧ stage (k + 1) b = none := by
  decide

/-- What sweep `k` takes is of class `k`. -/
theorem stage_of_takes : ∀ k < 3, ∀ b b', stage k b = some b' → takes k b' = true →
    victimClass b = k ∧ stage (k + 1) b = none := by
  decide

/-- What it does not take is of a later class, -/
theorem class_of_spares : ∀ k < 3, ∀ b b', stage k b = some b' → takes k b' = false →
    victimClass b ≠ k := by
  decide

/-- and loses the accessed bit in sweep 1. -/
theorem stage_of_spares : ∀ k < 3, ∀ b b', stage k b = some b' → takes k b' = false →
    stage (k + 1) b = if b'.1 && decide (1 ≤ k) then some (false, b'.2) else some b' := by
  decide

section

variable {s s' : Machine T} {c d : Candidate} {cs before after : List Candidate} {k : Nat}
  {r r' : Sweep T}

theorem bits_eq : c.bits s = (c.leaf s).map fun e => (e.flags.accessed, e.flags.dirty) :=
  Option.map_map ..

theorem Evicts.bits (h : Evicts c s s') :
    d.bits s' = if c.SameLeaf T d then none else d.bits s := by
  rw [bits_eq, bits_eq, h.leaf]
  split
  · rfl
  · rfl

theorem Clears.bits (h : Clears c s s') :
    d.bits s' = if c.SameLeaf T d then (d.bits s).map fun b => (false, b.2) else d.bits s := by
  rw [bits_eq, bits_eq, h.leaf]
  split
  · rw [Option.map_map, Option.map_map]
    rfl
  · rfl

theorem Candidate.sameLeaf_refl (c : Candidate) : c.SameLeaf T c := ⟨rfl, .inl rfl⟩

/-- One entry, and so the same bits. -/
theorem Candidate.SameLeaf.bits (h : c.SameLeaf T d) (s : Machine T) : d.bits s = c.bits s := by
  rw [bits_eq, bits_eq]
  exact congrArg (Option.map _) (leaf_sameLeaf h)

/-- A page that is listed twice is not accessed. -/
def TwiceClear (s : Machine T) (cs : List Candidate) : Prop :=
  cs.Pairwise fun c d => c.SameLeaf T d → (c.bits s).map Prod.fst ≠ some true

instance (s : Machine T) (cs : List Candidate) : Decidable (TwiceClear s cs) :=
  inferInstanceAs (Decidable (List.Pairwise _ cs))

variable {b : Bool × Bool} {target : Nat}

/-- A page that has been listed before is not of the last class. -/
theorem TwiceClear.class_lt (h : TwiceClear s cs) (hcs : cs = before ++ c :: after)
    (hseen : ∃ d ∈ firsts (Candidate.SameLeaf T) before, d.SameLeaf T c) (hb : c.bits s = some b) :
    victimClass b < 2 := by
  subst hcs
  obtain ⟨d, hd, hsame⟩ := hseen
  have hclear := (pairwise_append.mp h).2.2 d (firsts_sublist.subset hd) c
    mem_cons_self hsame
  rw [← hsame.bits, hb] at hclear
  obtain ⟨accessed, dirty⟩ := b
  cases accessed with
  | true => exact absurd rfl hclear
  | false => cases dirty <;> decide

/-- A second visit of such a page in sweep `k` finds it gone, or leaves it alone. -/
theorem stage_again : ∀ k < 3, ∀ b, victimClass b < 2 → stage (k + 1) b = none ∨
    (stage (k + 1) b = some b ∧ takes k b = false ∧ (b.1 && decide (1 ≤ k)) = false) := by
  decide

/-- Sweep `k` of a round from `s` has visited some of the candidates, and went on. -/
structure OnTrack (s : Machine T) (cs : List Candidate) (k : Nat) (visited : List Candidate)
    (r : Sweep T) : Prop where
  bits : ∀ c ∈ cs, c.bits r.machine = (c.bits s).bind
    (stage (if ∃ d ∈ firsts (Candidate.SameLeaf T) visited, d.SameLeaf T c then k + 1 else k))
  evicted : r.evicted = buckets (classIn s) k (firsts (Candidate.SameLeaf T) cs)
    ++ (firsts (Candidate.SameLeaf T) visited).filter fun c => c.classIn s = k

/-- The round has ended early: its list of evicted pages will not change. -/
def Sweep.Stuck (r : Sweep T) : Prop := r.stop = true ∨ r.machine.freeSlots = 0

/-- A first visit that did to the page what the sweep is for. -/
theorem OnTrack.visit (h : OnTrack s cs k before r) (hb : c.bits s = some b)
    (hnew : ¬ ∃ d ∈ firsts (Candidate.SameLeaf T) before, d.SameLeaf T c)
    (hbits : ∀ d ∈ cs, d.bits r'.machine
      = if c.SameLeaf T d then stage (k + 1) b else d.bits r.machine)
    (hevicted : r'.evicted = r.evicted ++ if victimClass b = k then [c] else []) :
    OnTrack s cs k (before ++ [c]) r' := by
  have hclass : c.classIn s = victimClass b := by
    unfold classIn
    rw [hb]
    rfl
  have hfirsts : firsts (Candidate.SameLeaf T) (before ++ [c])
      = firsts (Candidate.SameLeaf T) before ++ [c] := firsts_concat.trans (if_neg hnew)
  refine ⟨fun d hd => ?_, ?_⟩
  · rw [hbits d hd, hfirsts]
    simp only [mem_append, mem_singleton, or_and_right, exists_or, exists_eq_left]
    by_cases hcd : c.SameLeaf T d
    · rw [if_pos hcd, if_pos (.inr hcd), hcd.bits, hb]
      rfl
    · rw [if_neg hcd, h.bits d hd]
      exact congrArg (fun k => (d.bits s).bind (stage k)) (if_congr (or_iff_left hcd).symm rfl rfl)
  · rw [hevicted, h.evicted, hfirsts, filter_append, append_assoc, filter_singleton,
      hclass]
    by_cases hk : victimClass b = k
    · rw [if_pos hk, decide_eq_true hk]
      rfl
    · rw [if_neg hk, decide_eq_false hk]
      rfl

/-- One visit: the round goes on, or has come to its end. -/
theorem Visited.onTrack (hk : k < 3) (hdist : TwiceClear s cs)
    (hcs : cs = before ++ c :: after) (hb : c.bits s = some b) (h : OnTrack s cs k before r)
    (hv : Visited target k c r r') :
    (r'.Stuck ∧ r'.evicted = r.evicted) ∨ OnTrack s cs k (before ++ [c]) r' := by
  have hc : c ∈ cs := hcs ▸ mem_append_right _ mem_cons_self
  have hleafBits : ∀ {e}, c.leaf r.machine = some e →
      c.bits r.machine = some (e.flags.accessed, e.flags.dirty) := by
    intro e hleaf
    rw [bits_eq, hleaf]
    rfl
  by_cases hseen : ∃ d ∈ firsts (Candidate.SameLeaf T) before, d.SameLeaf T c
  · -- listed before: nothing is left to do
    have hnow : c.bits r.machine = stage (k + 1) b := by
      rw [h.bits c hc, if_pos hseen, hb]
      rfl
    have hsame : OnTrack s cs k (before ++ [c]) r := by
      have hfirsts := firsts_concat.trans (if_pos hseen)
      exact ⟨by rw [hfirsts]; exact h.bits, by rw [hfirsts]; exact h.evicted⟩
    have hleaves : ∀ {e}, c.leaf r.machine = some e →
        takes k (e.flags.accessed, e.flags.dirty) = false ∧
        (e.flags.accessed && decide (1 ≤ k)) = false := by
      intro e hleaf
      have hbits := (hleafBits hleaf).symm.trans hnow
      rcases stage_again k hk b (hdist.class_lt hcs hseen hb) with hgone | ⟨hsame, htakes, hdue⟩
      · rw [hgone] at hbits
        cases hbits
      · rw [hsame] at hbits
        cases hbits
        exact ⟨htakes, hdue⟩
    cases hv with
    | stopped hstop => exact .inl ⟨.inl hstop, rfl⟩
    | full hfull => exact .inl ⟨.inr hfull, rfl⟩
    | absent | spared => exact .inr hsame
    | cleared hleaf _ hdue => exact absurd (hdue.symm.trans (hleaves hleaf).2) Bool.noConfusion
    | evicted _ hleaf htakes =>
      exact absurd (htakes.symm.trans (hleaves hleaf).1) Bool.noConfusion
  have hnow : c.bits r.machine = stage k b := by
    rw [h.bits c hc, if_neg hseen, hb]
    rfl
  have hstage : ∀ {e}, c.leaf r.machine = some e →
      stage k b = some (e.flags.accessed, e.flags.dirty) :=
    fun hleaf => hnow.symm.trans (hleafBits hleaf)
  -- a visit that leaves the page alone is right if the next sweep expects the same bits
  have hkeep : victimClass b ≠ k → stage (k + 1) b = stage k b →
      OnTrack s cs k (before ++ [c]) r := by
    intro hclass hsame
    refine h.visit hb hseen (fun d _ => ?_) (by rw [if_neg hclass, append_nil])
    by_cases hcd : c.SameLeaf T d
    · rw [if_pos hcd, hcd.bits, hnow, hsame]
    · rw [if_neg hcd]
  cases hv with
  | stopped hstop => exact .inl ⟨.inl hstop, rfl⟩
  | full hfull => exact .inl ⟨.inr hfull, rfl⟩
  | absent hleaf =>
    have hgone : stage k b = none := by
      rw [← hnow, bits_eq, hleaf]
      rfl
    obtain ⟨hclass, hnext⟩ := stage_of_none k hk b hgone
    exact .inr (hkeep hclass (hnext.trans hgone.symm))
  | @spared e hleaf htakes hdue =>
    have hbits := hstage hleaf
    have hclass := class_of_spares k hk b _ hbits htakes
    have hnext := stage_of_spares k hk b _ hbits htakes
    rw [if_neg (Bool.eq_false_iff.mp hdue)] at hnext
    exact .inr (hkeep hclass (hnext.trans hbits.symm))
  | @cleared e s₁ hleaf htakes hdue hclear =>
    have hbits := hstage hleaf
    have hclass := class_of_spares k hk b _ hbits htakes
    have hnext := stage_of_spares k hk b _ hbits htakes
    rw [if_pos hdue] at hnext
    refine .inr (h.visit hb hseen (fun d hd => ?_) (by rw [if_neg hclass, append_nil]))
    rw [hclear.bits]
    by_cases hcd : c.SameLeaf T d
    · rw [if_pos hcd, if_pos hcd, hcd.bits, hnow, hbits, hnext]
      rfl
    · rw [if_neg hcd, if_neg hcd]
  | @evicted e s₁ _ hleaf htakes hevict =>
    have hbits := hstage hleaf
    obtain ⟨hclass, hnext⟩ := stage_of_takes k hk b _ hbits htakes
    refine .inr (h.visit hb hseen (fun d hd => ?_) (by rw [if_pos hclass]))
    rw [hevict.bits, hnext]

/-- Nothing more happens to the list. -/
theorem Visited.stuck (h : r.Stuck) (hv : Visited target k c r r') :
    r'.Stuck ∧ r'.evicted = r.evicted := by
  cases hv with
  | stopped | absent | full | spared => exact ⟨h, rfl⟩
  | cleared _ _ _ hclear =>
    refine ⟨h.imp_right fun hslots => ?_, rfl⟩
    exact hclear.slots.trans hslots
  | evicted hstop _ _ hevict =>
    have hslots := hevict.slots
    rcases h with h | h
    · exact absurd (h.symm.trans hstop) Bool.noConfusion
    · omega

/-! ## The sweeps -/

/-- The listed pages by class, in the order of the list. -/
def victims (s : Machine T) (cs : List Candidate) : List Candidate :=
  buckets (classIn s) 3 (firsts (Candidate.SameLeaf T) cs)

/-- A round from `s` that is in sweep `k`. -/
structure Track (s : Machine T) (pages : Nat) (cs : List Candidate) (k : Nat)
    (visited : List Candidate) (r : Sweep T) : Prop where
  ready : r.machine.Ready pages
  layout : r.machine.layout = s.layout
  evicts : (r.Stuck ∧ r.evicted <+: victims s cs) ∨ OnTrack s cs k visited r

variable {pages : Nat}

theorem OnTrack.evicted_prefix (h : OnTrack s cs k before r) (hk : k < 3) (hcs : before <+: cs) :
    r.evicted <+: victims s cs := by
  rw [h.evicted]
  exact buckets_append_prefix hk ( firsts_prefix hcs)

theorem Track.visit (h : Track s pages cs k before r) (hk : k < 3)
    (hdist : TwiceClear s cs) (hcs : cs = before ++ c :: after) (hc : c.In s)
    (hb : c.bits s = some b) (target : Nat) :
    ∃ r', visit target k r c = some r' ∧ Track s pages cs k (before ++ [c]) r' := by
  have hc' : c.In r.machine := ⟨h.layout ▸ hc.task, hc.half⟩
  obtain ⟨r', hvisit, hready, hv⟩ := visit_cases target k h.ready hc'
  refine ⟨r', hvisit, hready, hv.layout.trans h.layout, ?_⟩
  rcases h.evicts with ⟨hstuck, hprefix⟩ | htrack
  · obtain ⟨hstuck', hsame⟩ := hv.stuck hstuck
    exact .inl ⟨hstuck', hsame ▸ hprefix⟩
  · rcases hv.onTrack hk hdist hcs hb htrack with ⟨hstuck, hsame⟩ | htrack'
    · have hprefix := htrack.evicted_prefix hk (hcs ▸ prefix_append _ _)
      exact .inl ⟨hstuck, hsame ▸ hprefix⟩
    · exact .inr htrack'

/-- A whole sweep, and the beginning of the next. -/
theorem Track.sweep (h : Track s pages cs k [] r) (hk : k < 3) (hdist : TwiceClear s cs)
    (hin : ∀ c ∈ cs, c.In s) (hbits : ∀ c ∈ cs, ∃ b, c.bits s = some b) (target : Nat) :
    ∃ r', cs.foldlM (Memory.visit target k) r = some r' ∧ Track s pages cs (k + 1) [] r' := by
  obtain ⟨r', hr', h'⟩ : ∃ r', cs.foldlM (Memory.visit target k) r = some r' ∧
      Track s pages cs k cs r' := by
    refine foldlM_returns (fun before c after r hcs h => ?_) h
    have hc : c ∈ cs := hcs ▸ mem_append_right _ mem_cons_self
    obtain ⟨b, hb⟩ := hbits c hc
    exact h.visit hk hdist hcs (hin c hc) hb target
  refine ⟨r', hr', h'.ready, h'.layout, h'.evicts.imp_right fun h => ⟨fun c hc => ?_, ?_⟩⟩
  · rw [h.bits c hc, if_pos (exists_firsts sameLeaf_refl hc), if_neg (by simp [firsts])]
  · rw [h.evicted, buckets, show firsts (Candidate.SameLeaf T) [] = [] from rfl, filter_nil,
      append_nil]

/-- A round evicts a beginning of the victims. -/
theorem reapRound_victims (hready : s.Ready pages) (hdist : TwiceClear s cs)
    (hin : ∀ c ∈ cs, c.In s) (hbits : ∀ c ∈ cs, ∃ b, c.bits s = some b) (target : Nat) :
    ∃ r, reapRound target s cs = some r ∧ r.evicted <+: victims s cs := by
  have h₀ : Track s pages cs 0 [] ⟨s, [], false⟩ := by
    refine ⟨hready, rfl, .inr ⟨fun c hc => ?_, rfl⟩⟩
    obtain ⟨b, hb⟩ := hbits c hc
    rw [if_neg (by simp [firsts]), hb]
    rfl
  obtain ⟨r₁, hr₁, h₁⟩ := h₀.sweep (by decide) hdist hin hbits target
  obtain ⟨r₂, hr₂, h₂⟩ := h₁.sweep (by decide) hdist hin hbits target
  obtain ⟨r₃, hr₃, h₃⟩ := h₂.sweep (by decide) hdist hin hbits target
  refine ⟨r₃, reapRound_eq hr₁ hr₂ hr₃, ?_⟩
  rcases h₃.evicts with ⟨_, hprefix⟩ | h
  · exact hprefix
  · rw [h.evicted, show firsts (Candidate.SameLeaf T) [] = [] from rfl, filter_nil,
      append_nil]
    exact prefix_refl _

end

/-! ## A round of `reap_to` -/

theorem classIn_lt (s : Machine T) (c : Candidate) : c.classIn s < 3 := by
  unfold classIn victimClass
  split
  · decide
  · split
    · decide
    · decide

/-- The candidates are sorted by decreasing excess. -/
theorem scored_pairwise (s : Machine T) (table : List TaskRef) :
    (scored s table).Pairwise fun v w => w.1 ≤ v.1 := by
  have : Std.Total fun v w : Int × Candidate => w.1 ≤ v.1 := ⟨fun v w => Int.le_total w.1 v.1⟩
  have : IsTrans (Int × Candidate) fun v w => w.1 ≤ v.1 :=
    ⟨fun _ _ _ h h' => Int.le_trans h' h⟩
  exact pairwise_insertionSort _ _

/-- **The order of the victims.** For every state at the start of a round and every target, if no
page that is accessed is listed twice. -/
theorem victims_in_order {s : Machine T} {table : List TaskRef} {pages : Nat}
    {candidates : List (Int × Candidate)} (hready : s.Ready pages) (htable : TableOk s table)
    (hgather : gatherScored s table = some candidates)
    (hdist : TwiceClear s (candidates.map Prod.snd)) (target : Nat) :
    ∃ r, reapRound target s (candidates.map Prod.snd) = some r ∧
      InVictimOrder s candidates r.evicted := by
  rw [gatherScored_eq hready.half htable] at hgather
  split at hgather
  · cases hgather
    have hlisted : ∀ c ∈ (scored s table).map Prod.snd, c.Listed s table :=
      fun c hc => mem_scored.mp hc
    have hbits : ∀ c ∈ (scored s table).map Prod.snd, ∃ b, c.bits s = some b := by
      intro c hc
      obtain ⟨e, he⟩ := Option.ne_none_iff_exists'.mp (hlisted c hc).resident
      exact ⟨(e.flags.accessed, e.flags.dirty), by rw [bits_eq, he]; rfl⟩
    obtain ⟨r, hr, hprefix⟩ := reapRound_victims hready hdist
      (fun c hc => (hlisted c hc).inSpace hready.half) hbits target
    refine ⟨r, hr, buckets (fun v => v.2.classIn s) 3 (listedPages T (scored s table)),
      buckets_perm fun v _ => classIn_lt s v.2,
      buckets_pairwise ((scored_pairwise s table).sublist firsts_sublist), ?_⟩
    unfold listedPages
    rw [buckets_map, firsts_map]
    exact hprefix
  · exact nomatch hgather

/-- A heap of two pages, the first of which was accessed: the second one goes first. -/
theorem victims_in_order_two_pages : ∃ s candidates r, exec memStep smallMachine [.load [0x90],
      .brk 0 0x403000, .fault 0 0x401000 true, .fault 0 0x402000 true, .touch 0 0x401 true]
        = some s ∧
    gatherScored s [⟨0, userCodeBase⟩] = some candidates ∧
    reapRound (s.freeCount + 2) s (candidates.map Prod.snd) = some r ∧
    r.evicted.map Candidate.vaddr = [0x402000, 0x401000] ∧
    InVictimOrder s candidates r.evicted := by
  have hfacts : ∃ s ∈ exec memStep smallMachine [.load [0x90], .brk 0 0x403000,
      .fault 0 0x401000 true, .fault 0 0x402000 true, .touch 0 0x401 true], s.spaces.length = 1 ∧
      ∃ candidates ∈ gatherScored s [⟨0, userCodeBase⟩], TwiceClear s (candidates.map Prod.snd) ∧
        ∀ r, reapRound (s.freeCount + 2) s (candidates.map Prod.snd) = some r →
          r.evicted.map Candidate.vaddr = [0x402000, 0x401000] := by decide +kernel
  obtain ⟨s, hs, hlen, candidates, hgather, hdist, hfacts⟩ := hfacts
  have htable := tableOk_single hlen userCodeBase
  have hready : s.Ready 4 := ⟨exec_inUserHalf smallMachine_inUserHalf (by decide) hs,
    exec_swap smallMachine_fresh.swap hs⟩
  obtain ⟨r, hr, horder⟩ := victims_in_order hready htable hgather hdist (s.freeCount + 2)
  exact ⟨s, candidates, r, hs, hgather, hr, hfacts r hr, horder⟩

theorem InVictimOrder.pairwise {s : Machine T} {candidates : List (Int × Candidate)}
    {evicted : List Candidate} (h : InVictimOrder s candidates evicted) :
    evicted.Pairwise fun c d => c.classIn s ≤ d.classIn s := by
  obtain ⟨order, _, hpair, hprefix⟩ := h
  refine List.Pairwise.sublist hprefix.sublist (pairwise_map.mpr (hpair.imp fun h => ?_))
  rcases h with hlt | ⟨heq, _⟩
  · exact Nat.le_of_lt hlt
  · exact Nat.le_of_eq heq

/-- A heap whose two areas overlap in a page: the first call of the reaper evicts the page before
it, and clears the accessed bit of the dirty page behind it. When the page in the overlap has been
accessed, the next round evicts it before the dirty page. -/
theorem overlap_evicts_accessed_first : ∃ s₁ s₂ s₃ candidates r,
    exec memStep smallMachine [.load [0x90], .brk 0 0x404000, .mprotect 0 0x401000 0x1000 2,
      .brk 0 0x403000, .fault 0 0x401000 true, .touch 0 0x401 true, .fault 0 0x403000 true,
      .touch 0 0x403 true] = some s₁ ∧
    reapTo [⟨0, userCodeBase⟩] (s₁.freeCount + 1) 2 s₁ = some (1, s₂) ∧
    exec memStep s₂ [.fault 0 0x402000 true, .touch 0 0x402 false] = some s₃ ∧
    gatherScored s₃ [⟨0, userCodeBase⟩] = some candidates ∧
    reapRound (s₃.freeCount + 2) s₃ (candidates.map Prod.snd) = some r ∧
    r.evicted.map (fun c => (c.vaddr, c.bits s₃))
      = [(0x402000, some (true, false)), (0x403000, some (false, true))] ∧
    ¬ InVictimOrder s₃ candidates r.evicted := by
  have hrun : ((exec memStep smallMachine [.load [0x90], .brk 0 0x404000,
      .mprotect 0 0x401000 0x1000 2, .brk 0 0x403000, .fault 0 0x401000 true, .touch 0 0x401 true,
      .fault 0 0x403000 true, .touch 0 0x403 true]).bind fun s₁ =>
      (reapTo [⟨0, userCodeBase⟩] (s₁.freeCount + 1) 2 s₁).bind fun (n, s₂) =>
      (exec memStep s₂ [.fault 0 0x402000 true, .touch 0 0x402 false]).bind fun s₃ =>
      (gatherScored s₃ [⟨0, userCodeBase⟩]).bind fun candidates =>
      (reapRound (s₃.freeCount + 2) s₃ (candidates.map Prod.snd)).map fun r =>
        (n, r.evicted.map fun c => (c.vaddr, c.bits s₃)))
      = some (1, [(0x402000, some (true, false)), (0x403000, some (false, true))]) := by
    decide +kernel
  obtain ⟨s₁, hs₁, hrun⟩ := bind_inv hrun
  obtain ⟨⟨n, s₂⟩, hs₂, hrun⟩ := bind_inv hrun
  obtain ⟨s₃, hs₃, hrun⟩ := bind_inv hrun
  obtain ⟨candidates, hgather, hrun⟩ := bind_inv hrun
  obtain ⟨r, hr, hrun⟩ := map_inv hrun
  obtain ⟨rfl, hevicted⟩ := Prod.mk.inj hrun
  refine ⟨s₁, s₂, s₃, candidates, r, hs₁, hs₂, hs₃, hgather, hr, hevicted, fun horder => ?_⟩
  -- the classes of the two pages, in the order of their eviction
  have hclasses : r.evicted.map (Candidate.classIn s₃) = [2, 1] := by
    have := congrArg (map fun v : Nat × Option (Bool × Bool) =>
      victimClass (v.2.getD (false, false))) hevicted
    rw [map_map] at this
    exact this
  have hpair := pairwise_map.mpr horder.pairwise
  rw [hclasses] at hpair
  exact absurd hpair (by decide)

end AlaphiOS.Memory
