import AlaphiOS.Fs.Vfs
import AlaphiOS.Lib.Run

/-!
# Who has which path open

Of the file system, a `Ledger` keeps the open count and the lock of each FCB and
the path of each descriptor; cursors, contents, permissions and shared marks do not
show. `Change` lists what a call can do to it, four cases for all operations
(`Effect.ledger` in `AlaphiOS.Fs.Effects` says that this is all). Here are the two
functions that change both tables: the end of `open` and `create`, and `close`.
-/

namespace AlaphiOS.Fs

open Function Option Std AlaphiOS.Lib Fcb

/-- Who has what open. -/
@[ext] structure Ledger where
  /-- `open_count` and `locked_by` of the path's FCB. -/
  fcb : Path → Option (Nat × Option Pid)
  entry : Pid → Nat → Option Path

/-- Of an FCB, what the ledger keeps. -/
def Fcb.lock (fcb : Fcb) : Nat × Option Pid := (fcb.openCount, fcb.lockedBy)

/-- An FCB after a descriptor of `pid` was closed. -/
def released (pid : Pid) : Nat × Option Pid → Option (Nat × Option Pid)
  | (openCount, lockedBy) =>
    if openCount - 1 = 0 then none
    else some (openCount - 1, if lockedBy = some pid then none else lockedBy)

variable {Vol : Type} (H : Host Vol)

/-- The ledger of a file system. -/
def LogicalFs.ledger (fs : LogicalFs Vol) : Ledger where
  fcb path := (lookup fs.fcbs path).map lock
  entry := fs.fds.entry

/-- The path is open and marked as shared. -/
def LogicalFs.marked (fs : LogicalFs Vol) (path : Path) : Prop :=
  ∃ fcb, lookup fs.fcbs path = some fcb ∧ fcb.isShared = true

/-- The path that a call wants to open. -/
def Op.opens : Op → Option Path
  | .openPath path _ _ _ => some path
  | .create path _ => some path
  | _ => none

/-- The path whose file a call takes off the disk. -/
def LogicalFs.removes (fs : LogicalFs Vol) : Op → Option Path
  | .delete path =>
    match fs.deleteChecks path with
    | .ok (fatPath, disk) => if (H.remove disk fatPath).1 then some path else none
    | .error _ => none
  | _ => none

/-- What a call can do to the ledger. -/
inductive Change (toLowercase : Path → Path) (opens removes : Option Path) (l : Ledger) :
    Ledger → Prop
  | same : Change toLowercase opens removes l l
  | acquire {path : Path} {pid : Pid} {fd n : Nat} (hopens : opens = some path)
      (hconflict : ∀ q, l.fcb q ≠ none → q ≠ path → toLowercase q ≠ toLowercase path)
      (hlock : (l.fcb path = none ∧ n = 0) ∨ l.fcb path = some (n, none))
      (hfd : l.entry pid fd = none) :
      Change toLowercase opens removes l
        { fcb := update l.fcb path (some (n + 1, some pid))
          entry := update l.entry pid (update (l.entry pid) fd (some path)) }
  | release {path : Path} {pid : Pid} {fd : Nat} (hfd : l.entry pid fd = some path) :
      Change toLowercase opens removes l
        { fcb := update l.fcb path ((l.fcb path).bind (released pid))
          entry := update l.entry pid (update (l.entry pid) fd none) }
  | drop {path : Path} (hremoves : removes = some path) :
      Change toLowercase opens removes l { l with fcb := update l.fcb path none }

theorem entry_update {entry : Pid → Nat → Option Path} {pid : Pid} {fd : Nat} (x : Option Path)
    (pid' : Pid) (fd' : Nat) :
    update entry pid (update (entry pid) fd x) pid' fd'
      = if pid' = pid ∧ fd' = fd then x else entry pid' fd' := by
  by_cases hpid : pid' = pid
  · rw [hpid, update_self]
    by_cases hfd : fd' = fd
    · rw [hfd, update_self, if_pos ⟨rfl, rfl⟩]
    · rw [update_of_ne hfd, if_neg fun h => hfd h.2]
  · rw [update_of_ne hpid, if_neg fun h => hpid h.1]

variable {toLowercase : Path → Path}

/-- A descriptor names what it named, or the path that the call opens. -/
theorem Change.entry_cases {opens removes : Option Path} {l l' : Ledger}
    (h : Change toLowercase opens removes l l') {pid : Pid} {fd : Nat} {path : Path}
    (hentry : l'.entry pid fd = some path) : l.entry pid fd = some path ∨ opens = some path := by
  cases h with
  | same | drop => exact .inl hentry
  | @acquire path' pid' fd' n hopens _ _ _ =>
    replace hentry : update l.entry pid' _ pid fd = some path := hentry
    rw [entry_update] at hentry
    split at hentry
    · exact .inr (hopens.trans hentry)
    · exact .inl hentry
  | @release path' pid' fd' hfd =>
    replace hentry : update l.entry pid' _ pid fd = some path := hentry
    rw [entry_update] at hentry
    split at hentry
    · cases hentry
    · exact .inl hentry

namespace LogicalFs

variable {H} {fs fs' : LogicalFs Vol} {path : Path} {pid : Pid} {fd : Nat}
  {opens removes : Option Path}

/-! ## The tables -/

variable {fcbs : FcbTable} {fcb : Fcb} {res : Except FsError Unit}

theorem fcb_insert : (fun p => (lookup (fcbs.insert path fcb) p).map lock)
      = update (fun p => (lookup fcbs p).map lock) path (some fcb.lock) := by
  rw [lookup_insert]
  exact comp_update (Option.map lock) (lookup fcbs) path (some fcb)

theorem fcb_erase : (fun p => (lookup (fcbs.erase path) p).map lock)
      = update (fun p => (lookup fcbs p).map lock) path none := by
  rw [lookup_erase]
  exact comp_update (Option.map lock) (lookup fcbs) path none

/-- A change of an FCB that keeps its count and lock. -/
theorem fcb_insert_same {fcb' : Fcb} (h : lookup fcbs path = some fcb)
    (hlock : fcb'.lock = fcb.lock) : (fun p => (lookup (fcbs.insert path fcb') p).map lock)
      = fun p => (lookup fcbs p).map lock := by
  have hsame : some fcb.lock = (fun p => (lookup fcbs p).map lock) path :=
    congrArg (Option.map lock) h.symm
  rw [fcb_insert, hlock, hsame, update_eq_self]

theorem change_of_tables {l l' : Ledger} (hm : Change toLowercase opens removes l l')
    (hfcb : (fun p => (lookup fs'.fcbs p).map lock) = l'.fcb)
    (hentry : fs'.fds.entry = l'.entry) : Change toLowercase opens removes l fs'.ledger := by
  rw [show fs'.ledger = l' from Ledger.ext hfcb hentry]
  exact hm

theorem change_of_eq (h : fs'.ledger = fs.ledger) :
    Change toLowercase opens removes fs.ledger fs'.ledger := by
  rw [h]
  exact .same

/-- The marks of one table are in the other. -/
def KeepsMarks (fcbs fcbs' : FcbTable) : Prop :=
  ∀ q fcb, lookup fcbs q = some fcb → fcb.isShared = true →
    ∃ fcb', lookup fcbs' q = some fcb' ∧ fcb'.isShared = true

theorem keepsMarks_insert
    (hshared : ∀ old, lookup fcbs path = some old → old.isShared = true → fcb.isShared = true) :
    KeepsMarks fcbs (fcbs.insert path fcb) := by
  intro q old hold hmark
  rw [lookup_insert]
  by_cases hpath : q = path
  · subst hpath
    exact ⟨fcb, update_self .., hshared old hold hmark⟩
  · exact ⟨old, (update_of_ne hpath ..).trans hold, hmark⟩

/-- An FCB that is as shared as the old one. -/
theorem keepsMarks_insert_same {fcb' : Fcb} (h : lookup fcbs path = some fcb)
    (hshared : fcb'.isShared = fcb.isShared) : KeepsMarks fcbs (fcbs.insert path fcb') := by
  refine keepsMarks_insert fun old hold hmark => ?_
  cases h.symm.trans hold
  exact hshared.trans hmark

/-! ## Opening and closing -/

theorem caseConflict_eq_false (h : fs.caseConflict H path = false) (q : Path)
    (hq : fs.ledger.fcb q ≠ none) (hne : q ≠ path) : H.toLowercase q ≠ H.toLowercase path := by
  intro heq
  obtain ⟨fcb, hfcb⟩ : ∃ fcb, lookup fs.fcbs q = some fcb := by
    refine Option.isSome_iff_exists.mp (Option.isSome_iff_ne_none.mpr fun hnone => hq ?_)
    exact congrArg (Option.map lock) hnone
  refine Bool.eq_false_iff.mp h (List.any_eq_true.mpr ⟨q, mem_keys_iff.mpr ⟨fcb, hfcb⟩, ?_⟩)
  exact decide_eq_true ⟨hne, heq⟩

theorem acquire_change {res : Except FsError Nat} (h : fs.acquire path pid = some (res, fs'))
    (hconflict : fs.caseConflict H path = false) :
    Change H.toLowercase (some path) removes fs.ledger fs'.ledger := by
  unfold acquire at h
  generalize hopen : FcbTable.open fs.fcbs path = o at h
  obtain ⟨fcbs, fcb⟩ := o
  dsimp only at h
  split at h
  next hlocked =>
    -- only an FCB that was there can be locked
    cases h
    rcases FcbTable.open_spec hopen with ⟨_, rfl⟩ | ⟨_, rfl, _⟩
    · exact .same
    · cases hlocked
  next hfree =>
    obtain ⟨openCount, hcount, h⟩ := bind_inv h
    obtain ⟨⟨table, fd⟩, halloc, heq⟩ := map_inv h
    obtain ⟨_, rfl⟩ := Prod.mk.inj heq
    obtain ⟨hfd, hentry⟩ := FdRegistry.alloc_spec halloc
    obtain ⟨rfl, _⟩ := u32Add_eq hcount
    have hnone : fcb.lockedBy = none := Option.not_isSome_iff_eq_none.mp hfree
    have hlock : (fs.ledger.fcb path = none ∧ fcb.openCount = 0) ∨
        fs.ledger.fcb path = some (fcb.openCount, none) := by
      rcases FcbTable.open_spec hopen with ⟨hold, _⟩ | ⟨hnew, rfl, _⟩
      · exact .inr ((congrArg (Option.map lock) hold).trans (by rw [← hnone]; rfl))
      · exact .inl ⟨congrArg (Option.map lock) hnew, rfl⟩
    have hinsert : ∀ fcb', (fun p => (lookup (fcbs.insert path fcb') p).map lock)
        = update fs.ledger.fcb path (some fcb'.lock) := by
      intro fcb'
      rw [fcb_insert]
      rcases FcbTable.open_spec hopen with ⟨_, rfl⟩ | ⟨_, _, rfl⟩
      · rfl
      · rw [fcb_insert, update_idem]
        rfl
    exact change_of_tables (.acquire rfl (caseConflict_eq_false hconflict) hlock hfd) (hinsert _)
      hentry

/-- It leaves the disk, the permissions and the marks. -/
theorem acquire_frame {res : Except FsError Nat} (h : fs.acquire path pid = some (res, fs')) :
    fs'.disk = fs.disk ∧ fs'.perms = fs.perms ∧ KeepsMarks fs.fcbs fs'.fcbs := by
  unfold acquire at h
  generalize hopen : FcbTable.open fs.fcbs path = o at h
  obtain ⟨fcbs, fcb⟩ := o
  have hspec := FcbTable.open_spec hopen
  dsimp only at h
  split at h
  -- Somebody else has the lock. A new FCB has none, so the table is the old one.
  next hlocked =>
    cases h
    rcases hspec with ⟨_, rfl⟩ | ⟨_, rfl, _⟩
    · exact ⟨rfl, rfl, fun _ old hold hmark => ⟨old, hold, hmark⟩⟩
    · cases hlocked
  · obtain ⟨openCount, _, h⟩ := bind_inv h
    obtain ⟨_, _, heq⟩ := map_inv h
    cases heq
    refine ⟨rfl, rfl, ?_⟩
    rcases hspec with ⟨hold, rfl⟩ | ⟨hnone, rfl, rfl⟩
    · exact keepsMarks_insert_same hold rfl
    · -- a new FCB takes the place of no mark
      intro q old hold hmark
      have hne : q ≠ path := fun heq => absurd ((heq ▸ hold).symm.trans hnone) (by simp)
      refine ⟨old, ?_, hmark⟩
      dsimp only
      rw [lookup_insert, update_of_ne hne, lookup_insert, update_of_ne hne, hold]

theorem close_change (h : fs.close fd pid = some (res, fs')) :
    Change H.toLowercase opens removes fs.ledger fs'.ledger := by
  unfold close at h
  split at h
  -- The descriptor is not open; `close` has made a table for the process.
  · cases h
    exact change_of_eq (Ledger.ext rfl (FdRegistry.tableFor_spec fs.fds pid).1)
  next path hfd =>
    dsimp only at h
    split at h
    -- There is no FCB left to count down.
    next hnone =>
      cases h
      refine change_of_tables (.release hfd) ?_ FdRegistry.remove_spec
      have hno : fs.ledger.fcb path = none := congrArg (Option.map lock) hnone
      rw [hno, Option.bind_none, ← hno, update_eq_self]
      rfl
    next fcb hfcb =>
      cases h
      refine change_of_tables (.release hfd) ?_ FdRegistry.remove_spec
      have hlock : fs.ledger.fcb path = some fcb.lock := congrArg (Option.map lock) hfcb
      rw [hlock, Option.bind_some]
      -- The last holder takes the FCB with it.
      dsimp only [released, lock]
      split
      · exact fcb_erase
      · exact fcb_insert

theorem close_frame (h : fs.close fd pid = some (res, fs')) :
    fs'.disk = fs.disk ∧ fs'.perms = fs.perms := by
  unfold close at h
  split at h
  · cases h
    exact ⟨rfl, rfl⟩
  · dsimp only at h
    split at h <;> (cases h; exact ⟨rfl, rfl⟩)

/-- Closing touches no other path's FCB. -/
theorem close_fcbs (h : fs.close fd pid = some (res, fs'))
    (hpath : fs.fds.entry pid fd ≠ some path) : lookup fs'.fcbs path = lookup fs.fcbs path := by
  unfold close at h
  split at h
  · cases h
    rfl
  next closed hclosed =>
    have hne : path ≠ closed := fun heq => hpath (heq ▸ hclosed)
    dsimp only at h
    split at h
    · cases h
      rfl
    next fcb _ =>
      cases h
      dsimp only
      split
      · rw [lookup_erase, update_of_ne hne]
      · rw [lookup_insert, update_of_ne hne]

end LogicalFs

end AlaphiOS.Fs
