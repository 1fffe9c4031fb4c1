import AlaphiOS.Fs.Effects

/-!
# Descriptors over a run

The descriptors of a process are what its table has under each number (`entry`) and the number
that is next (`nextFd`). `call_descriptors` says what each call does to these two: an `open` or a
`create` that succeeds takes the next number, `close` gives one up, and no other call changes
either. So the next number is three more than the files that the process ever opened
(`nextFd_run`), and a number stands for its file until it is closed (`entry_run`).
-/

namespace AlaphiOS.Fs

open Function Std AlaphiOS.Lib FdRegistry

namespace FdRegistry

variable {fds : FdRegistry} {pid : Pid} {fd : Nat} {path : Path}

/-- The number that the process is given next. -/
def nextFd (fds : FdRegistry) (pid : Pid) : Nat := (fds.tableFor pid).2.nextFd

theorem nextFd_eq : fds.nextFd pid = ((lookup fds pid).map ProcFdTable.nextFd).getD 3 := by
  unfold nextFd tableFor
  cases lookup fds pid <;> rfl

theorem nextFd_put (table : ProcFdTable) :
    (fds.put pid table).nextFd = update fds.nextFd pid table.nextFd := by
  funext p
  rw [nextFd_eq]
  unfold put
  rw [lookup_insert]
  by_cases hp : p = pid
  · rw [hp, update_self, update_self]
    rfl
  · rw [update_of_ne hp, update_of_ne hp, nextFd_eq]

theorem nextFd_tableFor (fds : FdRegistry) (pid : Pid) : (fds.tableFor pid).1.nextFd = fds.nextFd := by
  unfold tableFor
  cases h : lookup fds pid with
  | some table => rfl
  | none =>
    show (fds.put pid .new).nextFd = fds.nextFd
    rw [nextFd_put]
    refine update_eq_self_iff.mpr ?_
    rw [nextFd_eq, h]
    rfl

/-- `alloc` gives the next number and moves it on. -/
theorem nextFd_alloc {table : ProcFdTable} (h : (fds.tableFor pid).2.alloc path = some (table, fd)) :
    fd = fds.nextFd pid ∧ ((fds.tableFor pid).1.put pid table).nextFd
      = update fds.nextFd pid (fds.nextFd pid + 1) := by
  rw [nextFd_put, nextFd_tableFor]
  unfold nextFd
  generalize (fds.tableFor pid).2 = t at h ⊢
  unfold ProcFdTable.alloc at h
  split at h
  next next hnext =>
    cases h
    refine ⟨rfl, ?_⟩
    rw [← (usizeAdd_eq hnext).1]
    rfl
  · exact nomatch h

/-- `remove` leaves it. -/
theorem nextFd_remove :
    ((fds.tableFor pid).1.put pid ((fds.tableFor pid).2.remove fd)).nextFd = fds.nextFd := by
  rw [nextFd_put, nextFd_tableFor]
  exact update_eq_self _ _

end FdRegistry

variable {Vol : Type} {H : Host Vol} {fs fs' : LogicalFs Vol} {path : Path} {pid : Pid} {fd : Nat}
  {uid gid : UInt32}

/-! ## What a call does to them -/

/-- The process that wants a new descriptor. -/
def Op.opener : Op → Option Pid
  | .openPath _ pid _ _ => some pid
  | .create _ pid => some pid
  | _ => none

/-- A call with the result `ok`, on the descriptors. -/
inductive FdChange (op : Op) (ok : Bool) (fds fds' : FdRegistry) : Prop
  | kept (hnone : ok = false ∨ op.opener = none) (hentry : fds'.entry = fds.entry)
      (hnext : fds'.nextFd = fds.nextFd)
  | opened {path : Path} {pid : Pid} (hok : ok = true) (hopener : op.opener = some pid)
      (hopens : op.opens = some path) (hfree : fds.entry pid (fds.nextFd pid) = none)
      (hentry : fds'.entry = update fds.entry pid
        (update (fds.entry pid) (fds.nextFd pid) (some path)))
      (hnext : fds'.nextFd = update fds.nextFd pid (fds.nextFd pid + 1))
  | closed {pid : Pid} {fd : Nat} (hop : op = .close fd pid)
      (hentry : fds'.entry
        = update fds.entry pid (update (fds.entry pid) fd none))
      (hnext : fds'.nextFd = fds.nextFd)

variable {op : Op} {ok : Bool}

theorem FdChange.of_eq (hnone : ok = false ∨ op.opener = none)
    (h : fs'.fds = fs.fds) : FdChange op ok fs.fds fs'.fds :=
  .kept hnone (by rw [h]) (by rw [h])

/-- `table_for` shows neither in the entries nor in the next numbers. -/
theorem FdChange.of_tableFor (hnone : ok = false ∨ op.opener = none)
    (h : fs'.fds = (fs.withTable pid).fds) : FdChange op ok fs.fds fs'.fds :=
  .kept hnone (by rw [h]; exact LogicalFs.withTable_entry)
    (by rw [h]; exact nextFd_tableFor fs.fds pid)

/-- The next number of the process stands for the path that was opened. -/
theorem FdChange.entry_opened {fds fds' : FdRegistry} (h : FdChange op true fds fds')
    (hopener : op.opener = some pid) (hopens : op.opens = some path) :
    fds'.entry pid (fds.nextFd pid) = some path := by
  cases h with
  | kept hnone _ _ => exact absurd (hnone.resolve_left (by decide)) (by rw [hopener]; simp)
  | @opened path' pid' _ hopener' hopens' _ hentry _ =>
    cases hopener.symm.trans hopener'
    cases hopens.symm.trans hopens'
    rw [hentry, update_self, update_self]
  | closed hop _ _ => exact absurd hopener (by rw [hop]; simp [Op.opener])

/-- The call gives the process a new descriptor. -/
def opensFor (pid : Pid) (call : Op × Bool) : Bool := call.2 && call.1.opener = some pid

/-- How many descriptors the process was given by these calls with these results. -/
def opened (pid : Pid) (ops : List Op) (replies : List Bool) : Nat :=
  (ops.zip replies).countP (opensFor pid)

theorem FdChange.nextFd_eq {fds fds' : FdRegistry} (h : FdChange op ok fds fds') (pid : Pid) :
    fds'.nextFd pid = fds.nextFd pid + if opensFor pid (op, ok) = true then 1 else 0 := by
  unfold opensFor
  cases h with
  | kept hnone _ hnext =>
    rw [hnext]
    rcases hnone with rfl | hnone
    · rfl
    · simp [hnone]
  | @opened path pid' hok hopener _ _ _ hnext =>
    rw [hnext, hok, hopener]
    by_cases hpid : pid = pid'
    · simp [hpid]
    · rw [update_of_ne hpid]
      simp [Ne.symm hpid]
  | closed hop _ hnext =>
    rw [hnext, hop]
    simp [Op.opener]

namespace LogicalFs

variable {res : Except FsError Nat}

/-- The number that a call returns is the next one of the process. -/
theorem acquire_descriptors (op : Op) (hopener : op.opener = some pid)
    (hopens : op.opens = some path) (h : fs.acquire path pid = some (res, fs')) :
    FdChange op res.isOk fs.fds fs'.fds ∧ ∀ fd, res = .ok fd → fd = fs.fds.nextFd pid := by
  unfold acquire at h
  generalize FcbTable.open fs.fcbs path = o at h
  dsimp only at h
  split at h
  · cases h
    exact ⟨.of_eq (.inl rfl) rfl, fun fd hfd => nomatch hfd⟩
  · obtain ⟨openCount, _, h⟩ := bind_inv h
    obtain ⟨⟨table, fd⟩, halloc, heq⟩ := map_inv h
    cases heq
    obtain ⟨hfd, hnext⟩ := nextFd_alloc halloc
    obtain ⟨hfree, hentry⟩ := alloc_spec halloc
    subst hfd
    refine ⟨.opened rfl hopener hopens hfree hentry hnext, fun fd hfd => ?_⟩
    exact (Except.ok.inj hfd).symm

/-- The end of `open` and `create`, after `fatfs` has answered. -/
theorem answered_descriptors (op : Op) {found : Bool} {disk : Vol}
    {e : FsError} (hopener : op.opener = some pid) (hopens : op.opens = some path)
    (h : (if found = true then acquire { fs with disk := some disk } path pid
      else some (.error e, { fs with disk := some disk })) = some (res, fs')) :
    FdChange op res.isOk fs.fds fs'.fds ∧ ∀ fd, res = .ok fd → fd = fs.fds.nextFd pid := by
  split at h
  · have hacquire := acquire_descriptors op hopener hopens h
    exact hacquire
  · cases h
    exact ⟨.of_eq (.inl rfl) rfl, fun fd hfd => nomatch hfd⟩

theorem open_descriptors (h : fs.open H path pid uid gid = some (res, fs')) :
    FdChange (.openPath path pid uid gid) res.isOk fs.fds fs'.fds ∧
      ∀ fd, res = .ok fd → fd = fs.fds.nextFd pid := by
  unfold LogicalFs.open at h
  split at h
  · cases h
    exact ⟨.of_eq (.inl rfl) rfl, fun fd hfd => nomatch hfd⟩
  · exact answered_descriptors _ rfl rfl h

theorem create_descriptors (h : fs.create H path pid = some (res, fs')) :
    FdChange (.create path pid) res.isOk fs.fds fs'.fds ∧
      ∀ fd, res = .ok fd → fd = fs.fds.nextFd pid := by
  unfold create at h
  split at h
  · cases h
    exact ⟨.of_eq (.inl rfl) rfl, fun fd hfd => nomatch hfd⟩
  · exact answered_descriptors _ rfl rfl h

theorem close_descriptors {res : Except FsError Unit} (h : fs.close fd pid = some (res, fs')) :
    FdChange (.close fd pid) res.isOk fs.fds fs'.fds := by
  unfold close at h
  split at h
  · cases h
    exact .of_tableFor (.inr rfl) rfl
  · refine .closed rfl ?_ ?_
    all_goals
      dsimp only at h
      split at h <;> cases h
    · exact remove_spec
    · exact remove_spec
    · exact nextFd_remove
    · exact nextFd_remove

/-- `read`, `write` and `seek` only ask for the table. -/
theorem read_fds {len : Nat} {res : Except FsError (List UInt8)}
    (h : fs.read H fd pid uid gid len = some (res, fs')) : fs'.fds = (fs.withTable pid).fds := by
  unfold read at h
  dsimp only at h
  split at h
  · cases h; rfl
  · split at h
    · split at h
      · cases h; rfl
      · obtain ⟨_, _, heq⟩ := map_inv h
        cases heq
        rfl
    · cases h; rfl

theorem write_fds {buf : List UInt8}
    (h : fs.write H fd pid uid gid buf = some (res, fs')) : fs'.fds = (fs.withTable pid).fds := by
  unfold write at h
  dsimp only at h
  split at h
  · cases h; rfl
  · split at h
    · split at h
      · obtain ⟨_, _, heq⟩ := map_inv h
        cases heq
        rfl
      · cases h; rfl
    · cases h; rfl

theorem seek_fds {offset : Nat} {res : Except FsError Unit}
    (h : fs.seek fd pid offset = some (res, fs')) : fs'.fds = (fs.withTable pid).fds := by
  unfold seek at h
  dsimp only at h
  split at h <;> cases h <;> rfl

theorem call_descriptors (h : fs.call H op = some (ok, fs')) : FdChange op ok fs.fds fs'.fds := by
  cases op <;> dsimp only [call, Outcome.ran] at h <;>
    obtain ⟨⟨res, _⟩, hop, heq⟩ := map_inv h <;> cases heq
  case openPath => exact (open_descriptors hop).1
  case create => exact (create_descriptors hop).1
  case close => exact close_descriptors hop
  case read => exact .of_tableFor (.inr rfl) (read_fds hop)
  case write => exact .of_tableFor (.inr rfl) (write_fds hop)
  case seek => exact .of_tableFor (.inr rfl) (seek_fds hop)
  -- the calls by path
  all_goals refine .of_eq (.inr rfl) ?_
  case rmdir =>
    unfold rmdir at hop
    split at hop
    · cases hop; rfl
    · obtain ⟨_, _, heq⟩ := map_inv hop
      cases heq
      rfl
  case markShared | stat =>
    first | unfold markShared at hop | unfold stat at hop
    split at hop <;> cases hop <;> rfl
  case chmod =>
    unfold sysChmod chmod at hop
    dsimp only at hop
    split at hop <;> cases hop <;> rfl
  case chown =>
    cases hop
    rfl
  all_goals
    first | unfold delete at hop | unfold rename at hop | unfold mkdir at hop | unfold getdents at hop
    split at hop
    · cases hop; rfl
    · dsimp only at hop; split at hop <;> cases hop <;> rfl

/-! ## Runs -/

theorem nextFd_run {ops : List Op} : ∀ {fs fs' : LogicalFs Vol} {replies : List Bool},
    runReplies (fun fs op => fs.call H op) fs ops = some (replies, fs') →
      fs'.fds.nextFd pid = fs.fds.nextFd pid + opened pid ops replies := by
  induction ops with
  | nil =>
    intro fs fs' replies h
    cases Option.some.inj h
    rfl
  | cons op ops ih =>
    intro fs fs' replies h
    obtain ⟨⟨ok, fs₁⟩, hcall, h⟩ := bind_inv h
    obtain ⟨⟨rest, _⟩, hrun, heq⟩ := map_inv h
    cases heq
    rw [ih hrun, (call_descriptors hcall).nextFd_eq pid]
    unfold opened
    rw [List.zip_cons_cons, List.countP_cons]
    omega

/-- An open descriptor stands for its file until the process closes it. -/
theorem entry_run {ops : List Op} (hkept : Op.close fd pid ∉ ops)
    (hentry : fs.fds.entry pid fd = some path)
    (h : exec (fun fs op => fs.step H op) fs ops = some fs') : fs'.fds.entry pid fd = some path := by
  have halong : Along (fun fs op => fs.step H op) (fun _ op => op ≠ .close fd pid ∧ True) fs ops :=
    along_true.and_forall fun op hop heq => hkept (heq ▸ hop)
  refine exec_induction (I := fun fs : LogicalFs Vol => fs.fds.entry pid fd = some path) ?_ hentry
    halong h
  rintro s op t hentry ⟨hne, _⟩ hstep
  obtain ⟨⟨ok, _⟩, hcall, rfl⟩ := map_inv hstep
  cases call_descriptors hcall with
  | kept _ heq _ => rw [heq, hentry]
  | @opened path' pid' _ _ _ hfree heq _ =>
    rw [heq, entry_update, if_neg, hentry]
    -- the number that is given is not one in use
    rintro ⟨rfl, rfl⟩
    cases hentry.symm.trans hfree
  | @closed pid' fd' hop heq _ =>
    rw [heq, entry_update, if_neg, hentry]
    rintro ⟨rfl, rfl⟩
    exact hne hop

end LogicalFs

end AlaphiOS.Fs
