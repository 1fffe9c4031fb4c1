import AlaphiOS.Lib.Checked
import AlaphiOS.Lib.Run
import AlaphiOS.Lib.StableSort
import Mathlib.Data.List.Chain

/-!
# The order of disk requests

`kernel/src/io/scheduler.rs`: two queues of disk requests. `submit` puts a request at
the end, `drain` empties the queue and returns the requests in the order in which they are to
be served.

`CscanScheduler` is an elevator: it goes up from where the last batch has left the
head and then starts again from the bottom. `cscan_serves_in_elevator_order` says that of
every run. `FcfsScheduler` keeps the order and joins writes that follow each
other on the disk. `fcfs_merge_preserves_accesses` says that sector by sector nothing
changes, that nothing is left to be joined, and that a read stays what and where it is.

Mirroring notes:
- `none` is an overflow of `u64`.
- `sort_by_key` is stable, and so is `insertionSort`.
- `merged.last_mut()` changes the last request in place, here it is taken off and put back.
-/

namespace AlaphiOS.Io

open Lib List

/-- `DiskRequest`. -/
structure DiskRequest where
  lba : Nat
  count : Nat
  isWrite : Bool
  deriving DecidableEq

/-- `RequestScheduler`. -/
class RequestScheduler (S : Type) where
  submit : S → DiskRequest → S
  drain : S → Option (List DiskRequest × S)

/-- The requests whose end has an address. -/
def DiskRequest.Fits (r : DiskRequest) : Prop := r.lba + r.count < 2 ^ 64

instance (r : DiskRequest) : Decidable r.Fits := inferInstanceAs (Decidable (_ < _))

/-! ## C-SCAN -/

/-- `CscanScheduler`. -/
structure CscanScheduler where
  pending : List DiskRequest
  head : Nat

namespace CscanScheduler

def new : CscanScheduler := ⟨[], 0⟩

/-- `submit`. -/
def submit (s : CscanScheduler) (req : DiskRequest) : CscanScheduler :=
  { s with pending := s.pending ++ [req] }

/-- `drain`. -/
def drain (s : CscanScheduler) : Option (List DiskRequest × CscanScheduler) := do
  let above := s.pending.insertionSort fun a b => a.lba ≤ b.lba
  let split := (above.findIdx? fun r => s.head ≤ r.lba).getD above.length
  let below := above.take split
  let above := above.drop split ++ below
  match above.getLast? with
  | some last =>
    let head ← usizeAdd last.lba last.count
    some (above, ⟨[], head⟩)
  | none => some (above, ⟨[], s.head⟩)

end CscanScheduler

instance : RequestScheduler CscanScheduler := ⟨CscanScheduler.submit, CscanScheduler.drain⟩

inductive SchedulerCall where
  | submit (req : DiskRequest)
  | drain

/-- A call, and what a `drain` returns. -/
def scheduleCall {S : Type} [RequestScheduler S] (s : S) :
    SchedulerCall → Option (Option (List DiskRequest) × S)
  | .submit req => some (none, RequestScheduler.submit s req)
  | .drain => (RequestScheduler.drain s).map fun (out, s) => (some out, s)

/-! ### What the calls ask for -/

/-- The requests in the order of their submission. -/
def submitted : List SchedulerCall → List DiskRequest
  | [] => []
  | .submit req :: calls => req :: submitted calls
  | .drain :: calls => submitted calls

/-- For each `drain`, the requests submitted since the one before it; `pending` were
submitted before the calls. -/
def batches (pending : List DiskRequest) : List SchedulerCall → List (List DiskRequest)
  | [] => []
  | .submit req :: calls => batches (pending ++ [req]) calls
  | .drain :: calls => pending :: batches [] calls

/-- The requests submitted since the last `drain`. -/
def waiting (pending : List DiskRequest) : List SchedulerCall → List DiskRequest
  | [] => pending
  | .submit req :: calls => waiting (pending ++ [req]) calls
  | .drain :: calls => waiting [] calls

/-- Every request is in one batch, or still waiting. -/
theorem batches_waiting (calls : List SchedulerCall) : ∀ pending,
    (batches pending calls).flatten ++ waiting pending calls = pending ++ submitted calls := by
  induction calls with
  | nil => intro pending; exact (append_nil _).symm
  | cons c calls ih =>
    intro pending
    cases c with
    | submit req => exact (ih (pending ++ [req])).trans (append_cons ..).symm
    | drain =>
      unfold batches waiting submitted
      rw [flatten_cons, append_assoc, ih, nil_append]

/-- The elevator: up from the head, then up from the bottom. -/
def ElevatorOrder (head : Nat) (batch out : List DiskRequest) : Prop :=
  ∃ up down, out = up ++ down ∧
    StablySorted DiskRequest.lba (batch.filter fun r => head ≤ r.lba) up ∧
    StablySorted DiskRequest.lba (batch.filter fun r => r.lba < head) down

/-- The head stands behind the last request that was served. -/
def headAfter (head : Nat) (out : List DiskRequest) : Nat :=
  (out.getLast?.map fun r => r.lba + r.count).getD head

/-- Batch after batch, each served from where the one before it has left the head. -/
def ServedInOrder : Nat → List (List DiskRequest) → List (List DiskRequest) → Nat → Prop
  | head, [], [], head' => head' = head
  | head, batch :: batches, out :: outs, head' =>
    ElevatorOrder head batch out ∧ ServedInOrder (headAfter head out) batches outs head'
  | _, _, _, _ => False

/-- Nothing is lost and nothing is served twice. -/
theorem ElevatorOrder.perm {head : Nat} {batch out : List DiskRequest}
    (h : ElevatorOrder head batch out) : out.Perm batch := by
  obtain ⟨up, down, rfl, hup, hdown⟩ := h
  have hnot : (fun r : DiskRequest => decide (r.lba < head)) = fun r => !decide (head ≤ r.lba) := by
    funext r
    rw [← decide_not]
    exact decide_eq_decide.mpr not_le.symm
  rw [hnot] at hdown
  exact (hup.perm.append hdown.perm).trans (filter_append_perm _ batch)

theorem ServedInOrder.perm {outs : List (List DiskRequest)} : ∀ {bs head head'},
    ServedInOrder head bs outs head' → outs.flatten.Perm bs.flatten := by
  induction outs with
  | nil =>
    intro bs head head' h
    cases bs with
    | nil => exact List.Perm.refl _
    | cons batch bs => exact absurd h id
  | cons out outs ih =>
    intro bs head head' h
    cases bs with
    | nil => exact absurd h id
    | cons batch bs =>
      rw [flatten_cons, flatten_cons]
      exact h.1.perm.append (ih h.2)

namespace CscanScheduler

/-- What `drain` computes: the sorted batch, cut at the head and put together the other way
round. -/
theorem elevatorOrder_rotate (head : Nat) {batch sorted : List DiskRequest}
    (h : StablySorted DiskRequest.lba batch sorted) :
    ElevatorOrder head batch
      (sorted.drop ((sorted.findIdx? fun r => head ≤ r.lba).getD sorted.length)
        ++ sorted.take ((sorted.findIdx? fun r => head ≤ r.lba).getD sorted.length)) := by
  have hnot : (fun r : DiskRequest => !decide (r.lba < head)) = fun r => decide (head ≤ r.lba) := by
    funext r
    rw [← decide_not]
    exact decide_eq_decide.mpr not_lt
  refine ⟨_, _, rfl, ?_, ?_⟩
  · rw [← findIdx_eq_getD_findIdx?, ← hnot, ← dropWhile_eq_drop_findIdx_not,
      dropWhile_eq_filter h.sorted, hnot]
    exact h.filter fun k => head ≤ k
  · rw [← findIdx_eq_getD_findIdx?, ← hnot, ← takeWhile_eq_take_findIdx_not,
      takeWhile_eq_filter h.sorted]
    exact h.filter fun k => k < head

theorem drain_spec (s : CscanScheduler) (hfits : ∀ r ∈ s.pending, r.Fits) :
    ∃ out, s.drain = some (out, ⟨[], headAfter s.head out⟩) ∧
      ElevatorOrder s.head s.pending out := by
  have horder := elevatorOrder_rotate s.head (stablySorted_insertionSort DiskRequest.lba s.pending)
  refine ⟨_, ?_, horder⟩
  unfold drain headAfter
  dsimp only
  generalize hout : drop _ _ ++ take _ _ = out at horder ⊢
  cases hlast : out.getLast? with
  | none => rfl
  | some last =>
    have hmem := horder.perm.mem_iff.mp (mem_of_getLast? hlast)
    dsimp only
    rw [usizeAdd_of_lt (hfits last hmem)]
    rfl

/-- The calls from any state on. -/
theorem run_from (calls : List SchedulerCall) : ∀ s : CscanScheduler,
    (∀ r ∈ s.pending ++ submitted calls, r.Fits) →
    ∃ replies s', runReplies scheduleCall s calls = some (replies, s') ∧
      ServedInOrder s.head (batches s.pending calls) replies.reduceOption s'.head ∧
      s'.pending = waiting s.pending calls := by
  induction calls with
  | nil => exact fun s _ => ⟨[], s, rfl, rfl, rfl⟩
  | cons c calls ih =>
    intro s hfits
    cases c with
    | submit req =>
      obtain ⟨replies, s', hrun, hserved, hpending⟩ := ih (s.submit req) (by
        rw [submitted, append_cons] at hfits
        exact hfits)
      refine ⟨none :: replies, s', ?_, hserved, hpending⟩
      rw [runReplies, scheduleCall, Option.bind_some]
      exact Option.map_eq_some_iff.mpr ⟨_, hrun, rfl⟩
    | drain =>
      obtain ⟨out, hdrain, horder⟩ :=
        s.drain_spec fun r hr => hfits r (mem_append_left _ hr)
      obtain ⟨replies, s', hrun, hserved, hpending⟩ := ih ⟨[], headAfter s.head out⟩
        fun r hr => hfits r (mem_append_right _ hr)
      refine ⟨some out :: replies, s', ?_, ⟨horder, hserved⟩, hpending⟩
      have hcall : scheduleCall s .drain = some (some out, ⟨[], headAfter s.head out⟩) := by
        show s.drain.map _ = _
        rw [hdrain]
        rfl
      rw [runReplies, hcall, Option.bind_some]
      exact Option.map_eq_some_iff.mpr ⟨_, hrun, rfl⟩

end CscanScheduler

/-- **C-SCAN serves everything in elevator order.** In every run of calls the drains return
the batches, each a permutation of what was submitted since the drain before it: the
requests at or above the head in ascending order, then those below it in ascending order, equal
addresses as they were submitted. The next batch starts behind the last request served. -/
theorem cscan_serves_in_elevator_order (calls : List SchedulerCall)
    (hfits : ∀ r ∈ submitted calls, r.Fits) :
    ∃ replies s, runReplies scheduleCall CscanScheduler.new calls = some (replies, s) ∧
      ServedInOrder 0 (batches [] calls) replies.reduceOption s.head ∧
      s.pending = waiting [] calls ∧
      (batches [] calls).flatten ++ s.pending = submitted calls ∧
      (replies.reduceOption.flatten ++ s.pending).Perm (submitted calls) := by
  obtain ⟨replies, s, hrun, hserved, hpending⟩ := CscanScheduler.run_from calls .new hfits
  have hall : (batches [] calls).flatten ++ s.pending = submitted calls := by
    rw [hpending]
    exact batches_waiting calls []
  refine ⟨replies, s, hrun, hserved, hpending, hall, ?_⟩
  rw [← hall]
  exact hserved.perm.append_right s.pending

/-- Two batches, the second around the head that the first has left. -/
theorem cscan_serves_two_batches :
    ServedInOrder 0
      [[⟨5, 1, false⟩],
        [⟨2, 1, false⟩, ⟨8, 1, false⟩, ⟨2, 4, true⟩, ⟨6, 1, false⟩, ⟨1, 1, false⟩]]
      [[⟨5, 1, false⟩],
        [⟨6, 1, false⟩, ⟨8, 1, false⟩, ⟨1, 1, false⟩, ⟨2, 1, false⟩, ⟨2, 4, true⟩]] 6 := by
  obtain ⟨replies, s, hrun, hserved, _⟩ := cscan_serves_in_elevator_order
    [.submit ⟨5, 1, false⟩, .drain, .submit ⟨2, 1, false⟩, .submit ⟨8, 1, false⟩,
      .submit ⟨2, 4, true⟩, .submit ⟨6, 1, false⟩, .submit ⟨1, 1, false⟩, .drain] (by decide)
  cases hrun
  exact hserved

/-! ## FCFS with merged writes -/

/-- `FcfsScheduler`. -/
structure FcfsScheduler where
  pending : List DiskRequest

namespace FcfsScheduler

def new : FcfsScheduler := ⟨[]⟩

/-- `submit`. -/
def submit (s : FcfsScheduler) (req : DiskRequest) : FcfsScheduler := ⟨s.pending ++ [req]⟩

/-- The body of `drain`'s loop. -/
def place (merged : List DiskRequest) (req : DiskRequest) : Option (List DiskRequest) :=
  if req.isWrite then
    match merged.getLast? with
    | some last =>
      if last.isWrite then do
        let next ← usizeAdd last.lba last.count
        if req.lba = next then
          let count ← usizeAdd last.count req.count
          some (merged.dropLast ++ [{ last with count := count }])
        else some (merged ++ [req])
      else some (merged ++ [req])
    | none => some (merged ++ [req])
  else some (merged ++ [req])

/-- `drain`. -/
def drain (s : FcfsScheduler) : Option (List DiskRequest × FcfsScheduler) := do
  let merged ← s.pending.foldlM place []
  some (merged, ⟨[]⟩)

theorem foldl_submit (batch : List DiskRequest) : ∀ s : FcfsScheduler,
    batch.foldl submit s = ⟨s.pending ++ batch⟩ := by
  induction batch with
  | nil => exact fun s => congrArg FcfsScheduler.mk (append_nil _).symm
  | cons req batch ih =>
    intro s
    rw [foldl_cons, ih]
    exact congrArg FcfsScheduler.mk (append_cons ..).symm

end FcfsScheduler

instance : RequestScheduler FcfsScheduler := ⟨FcfsScheduler.submit, FcfsScheduler.drain⟩

/-! ### Sector by sector -/

/-- The sectors of a request, in order, and whether they are written. -/
def DiskRequest.accesses (r : DiskRequest) : List (Nat × Bool) :=
  (range r.count).map fun i => (r.lba + i, r.isWrite)

/-- The sectors in order, and how they are used. -/
def accesses (requests : List DiskRequest) : List (Nat × Bool) :=
  requests.flatMap DiskRequest.accesses

/-- Two writes, the second right behind the first. -/
def Adjacent (a b : DiskRequest) : Prop :=
  a.isWrite = true ∧ b.isWrite = true ∧ b.lba = a.lba + a.count

instance (a b : DiskRequest) : Decidable (Adjacent a b) := inferInstanceAs (Decidable (_ ∧ _))

/-- The one request instead of two adjacent ones. -/
def DiskRequest.join (a b : DiskRequest) : DiskRequest := { a with count := a.count + b.count }

variable {a b r req : DiskRequest} {l merged out batch : List DiskRequest}

theorem accesses_append (l l' : List DiskRequest) :
    accesses (l ++ l') = accesses l ++ accesses l' := flatMap_append

theorem accesses_singleton (r : DiskRequest) : accesses [r] = r.accesses :=
  flatMap_singleton ..

theorem accesses_join (h : Adjacent a b) : (a.join b).accesses = a.accesses ++ b.accesses := by
  unfold DiskRequest.accesses DiskRequest.join
  dsimp only
  rw [range_add, map_append, map_map]
  congr 2
  funext i
  show (a.lba + (a.count + i), a.isWrite) = (b.lba + i, b.isWrite)
  rw [h.1, h.2.1, h.2.2, Nat.add_assoc]

theorem fits_join (h : Adjacent a b) (hb : b.Fits) : (a.join b).Fits := by
  unfold DiskRequest.Fits DiskRequest.join at *
  dsimp only
  rw [← Nat.add_assoc, ← h.2.2]
  exact hb

namespace FcfsScheduler

theorem place_join (h : Adjacent a b) (ha : a.Fits) (hb : b.Fits) (front : List DiskRequest) :
    place (front ++ [a]) b = some (front ++ [a.join b]) := by
  have hsum : a.count + b.count < 2 ^ 64 := by
    have := fits_join h hb
    unfold DiskRequest.Fits DiskRequest.join at this
    dsimp only at this
    omega
  unfold place
  rw [if_pos h.2.1, getLast?_concat]
  dsimp only
  rw [if_pos h.1, usizeAdd_of_lt ha, Option.bind_eq_bind, Option.bind_some, if_pos h.2.2,
    usizeAdd_of_lt hsum, Option.bind_some, dropLast_concat]
  rfl

theorem place_push (hfits : ∀ r ∈ merged, r.Fits)
    (h : ∀ last ∈ merged.getLast?, ¬ Adjacent last req) :
    place merged req = some (merged ++ [req]) := by
  unfold place
  split
  next hreq =>
    cases hlast : merged.getLast? with
    | none => rfl
    | some last =>
      dsimp only
      split
      next hwrite =>
        rw [bind_of_eq (usizeAdd_of_lt (hfits last (mem_of_getLast? hlast))),
          if_neg fun heq => h last hlast ⟨hwrite, hreq, heq⟩]
      · rfl
  · rfl

/-- What the loop has made of the requests `batch`. -/
structure Merged (batch merged : List DiskRequest) : Prop where
  fits : ∀ r ∈ merged, r.Fits
  accesses : accesses merged = accesses batch
  apart : merged.IsChain fun a b => ¬ Adjacent a b
  reads : (merged.filter fun r => !r.isWrite) = batch.filter fun r => !r.isWrite

theorem Merged.nil : Merged [] [] := ⟨nofun, rfl, .nil, rfl⟩

/-- A request at the end. -/
theorem Merged.push (h : Merged batch merged) (hreq : req.Fits)
    (hnot : ∀ last ∈ merged.getLast?, ¬ Adjacent last req) :
    Merged (batch ++ [req]) (merged ++ [req]) where
  fits := by
    intro r hr
    rcases mem_append.mp hr with hr | hr
    · exact h.fits r hr
    · rw [mem_singleton.mp hr]
      exact hreq
  accesses := by rw [accesses_append, accesses_append, h.accesses]
  apart := isChain_append.mpr ⟨h.apart, .singleton _, fun last hlast y hy => by
    cases hy
    exact hnot last hlast⟩
  reads := by rw [filter_append, filter_append, h.reads]

/-- A write that goes into the last request, which starts where it did. -/
theorem Merged.join {front : List DiskRequest} (h : Merged batch (front ++ [a]))
    (hadj : Adjacent a req) (hreq : req.Fits) :
    Merged (batch ++ [req]) (front ++ [a.join req]) where
  fits := by
    intro r hr
    rcases mem_append.mp hr with hr | hr
    · exact h.fits r (mem_append_left _ hr)
    · rw [mem_singleton.mp hr]
      exact fits_join hadj hreq
  accesses := by
    rw [accesses_append, accesses_append, ← h.accesses, accesses_append, accesses_singleton,
      accesses_singleton, accesses_singleton, accesses_join hadj, append_assoc]
  apart := by
    obtain ⟨hfront, _, hlast⟩ := isChain_append.mp h.apart
    refine isChain_append.mpr ⟨hfront, .singleton _, fun x hx y hy => ?_⟩
    cases hy
    exact hlast x hx a rfl
  reads := by
    have hreads := h.reads
    rw [filter_append] at hreads ⊢
    rw [filter_append, ← hreads]
    simp only [DiskRequest.join, filter_cons, filter_nil, hadj.1, hadj.2.1, Bool.not_true,
      Bool.false_eq_true, if_false, append_nil]

/-- One round of the loop. -/
theorem Merged.place (h : Merged batch merged) (hreq : req.Fits) :
    ∃ merged', place merged req = some merged' ∧ Merged (batch ++ [req]) merged' := by
  by_cases hadj : ∃ last ∈ merged.getLast?, Adjacent last req
  · obtain ⟨last, hlast, hadj⟩ := hadj
    obtain ⟨front, rfl⟩ := getLast?_eq_some_iff.mp hlast
    have hfits := h.fits last (mem_append_right _ (mem_singleton_self last))
    exact ⟨_, place_join hadj hfits hreq front, h.join hadj hreq⟩
  · have hnot : ∀ last ∈ merged.getLast?, ¬ Adjacent last req :=
      fun last hlast ha => hadj ⟨last, hlast, ha⟩
    exact ⟨_, place_push h.fits hnot, h.push hreq hnot⟩

theorem merged_returns (hfits : ∀ r ∈ batch, r.Fits) :
    ∃ merged, batch.foldlM place [] = some merged ∧ Merged batch merged :=
  foldlM_returns (I := Merged) (l := batch) (fun _ a _ _ hl h => h.place (hfits a (by
    rw [hl]
    exact mem_append_right _ mem_cons_self))) Merged.nil

/-- Requests of which no two neighbours are adjacent stay as they are. -/
theorem merged_of_apart (hfits : ∀ r ∈ l, r.Fits) (hapart : l.IsChain fun a b => ¬ Adjacent a b) :
    l.foldlM place [] = some l := by
  have hround : ∀ before req after merged, l = before ++ req :: after → merged = before →
      ∃ t, place merged req = some t ∧ t = before ++ [req] := by
    intro before req after merged hl he
    subst he
    subst hl
    have hbefore : ∀ r ∈ merged, r.Fits := fun r hr => hfits r (mem_append_left _ hr)
    refine ⟨_, place_push hbefore fun last hlast => ?_, rfl⟩
    exact (isChain_append.mp hapart).2.2 last hlast req rfl
  obtain ⟨merged, hrun, rfl⟩ :=
    foldlM_returns (I := fun before merged => merged = before) hround rfl
  exact hrun

/-- Nothing is joined across a read. -/
theorem place_behind_read (hr : r.isWrite = false) (front : List DiskRequest) :
    place (front ++ r :: l) req = (place l req).map fun l => front ++ r :: l := by
  cases hlast : l.getLast? with
  | none =>
    obtain rfl := getLast?_eq_none_iff.mp hlast
    have hcat : front ++ [r] ++ [req] = front ++ [r, req] := append_assoc front [r] [req]
    unfold place
    rw [getLast?_concat, getLast?_nil]
    dsimp only
    rw [hr, hcat]
    cases req.isWrite <;> rfl
  | some last =>
    obtain ⟨init, rfl⟩ := getLast?_eq_some_iff.mp hlast
    have hcat : front ++ r :: (init ++ [last]) = (front ++ r :: init) ++ [last] := by
      rw [append_assoc, cons_append]
    unfold place
    rw [hcat, getLast?_concat, getLast?_concat, dropLast_concat,
      dropLast_concat]
    dsimp only
    cases req.isWrite with
    | false => simp
    | true =>
      cases last.isWrite with
      | false => simp
      | true =>
        cases usizeAdd last.lba last.count with
        | none => rfl
        | some next =>
          by_cases heq : req.lba = next
          · cases usizeAdd last.count req.count with
            | none => simp [heq]
            | some count => simp [heq]
          · simp [heq]

theorem foldlM_behind_read (hr : r.isWrite = false) (front : List DiskRequest)
    (after l : List DiskRequest) :
    after.foldlM place (front ++ r :: l) = (after.foldlM place l).map fun l => front ++ r :: l := by
  induction after generalizing l with
  | nil => exact rfl
  | cons req after ih =>
    rw [foldlM_cons, foldlM_cons, place_behind_read hr]
    cases place l req with
    | none => rfl
    | some l' => exact ih l'

/-- A read cuts the batch in two. -/
theorem foldlM_read (hr : r.isWrite = false) {before after out₁ out₂ : List DiskRequest}
    (h₁ : before.foldlM place [] = some out₁) (h₂ : after.foldlM place [] = some out₂) :
    (before ++ r :: after).foldlM place [] = some (out₁ ++ r :: out₂) := by
  have hread : place out₁ r = some (out₁ ++ [r]) := by
    unfold place
    rw [hr, if_neg Bool.false_ne_true]
  rw [foldlM_append, bind_of_eq h₁, foldlM_cons, bind_of_eq hread, foldlM_behind_read hr,
    h₂]
  rfl

end FcfsScheduler

/-- **Merging writes preserves the accesses.** A batch that is submitted and drained comes back
with the same sectors read and written in the same order. No two neighbours of the result
are adjacent writes, and submitting and draining it again gives it back. The reads are the
same requests, and each still has the accesses before it that it had, and those after it. -/
theorem fcfs_merge_preserves_accesses (batch : List DiskRequest) (hfits : ∀ r ∈ batch, r.Fits) :
    ∃ out, (batch.foldl FcfsScheduler.submit .new).drain = some (out, .new) ∧
      accesses out = accesses batch ∧
      (out.IsChain fun a b => ¬ Adjacent a b) ∧
      (out.foldl FcfsScheduler.submit .new).drain = some (out, .new) ∧
      (out.filter fun r => !r.isWrite) = (batch.filter fun r => !r.isWrite) ∧
      ∀ before r after, batch = before ++ r :: after → r.isWrite = false →
        ∃ out₁ out₂, out = out₁ ++ r :: out₂ ∧ accesses out₁ = accesses before ∧
          accesses out₂ = accesses after := by
  have hdrain : ∀ {l out : List DiskRequest}, l.foldlM FcfsScheduler.place [] = some out →
      (l.foldl FcfsScheduler.submit .new).drain = some (out, .new) := by
    intro l out h
    rw [FcfsScheduler.foldl_submit]
    unfold FcfsScheduler.drain FcfsScheduler.new
    rw [nil_append, h]
    rfl
  obtain ⟨out, hrun, hout⟩ := FcfsScheduler.merged_returns hfits
  refine ⟨out, hdrain hrun, hout.accesses, hout.apart,
    hdrain (FcfsScheduler.merged_of_apart hout.fits hout.apart), hout.reads, ?_⟩
  intro before r after hbatch hr
  subst hbatch
  obtain ⟨out₁, hrun₁, hout₁⟩ := FcfsScheduler.merged_returns
    fun r hr => hfits r (mem_append_left _ hr)
  obtain ⟨out₂, hrun₂, hout₂⟩ := FcfsScheduler.merged_returns
    fun r hr => hfits r (mem_append_right _ (mem_cons_of_mem _ hr))
  refine ⟨out₁, out₂, ?_, hout₁.accesses, hout₂.accesses⟩
  exact Option.some.inj (hrun.symm.trans (FcfsScheduler.foldlM_read hr hrun₁ hrun₂))

/-- Three writes in a row, a read and a write elsewhere. -/
theorem fcfs_merge_smokeTest : ∃ out,
    ([⟨5, 1, true⟩, ⟨6, 1, true⟩, ⟨7, 1, true⟩, ⟨3, 1, false⟩, ⟨10, 1, true⟩].foldl
      FcfsScheduler.submit .new).drain = some (out, .new) ∧
      out = [⟨5, 3, true⟩, ⟨3, 1, false⟩, ⟨10, 1, true⟩] ∧
      (out.foldl FcfsScheduler.submit .new).drain = some (out, .new) := by
  obtain ⟨out, hdrain, _, _, hagain, _⟩ := fcfs_merge_preserves_accesses
    [⟨5, 1, true⟩, ⟨6, 1, true⟩, ⟨7, 1, true⟩, ⟨3, 1, false⟩, ⟨10, 1, true⟩] (by decide)
  refine ⟨out, hdrain, ?_, hagain⟩
  exact congrArg Prod.fst (Option.some.inj (hdrain.symm.trans (by rfl)))

end AlaphiOS.Io
