import AlaphiOS.Fs.Tree

/-!
# The books of open files

`Exact` is what the two tables should say about each other: the open count of a
path is the number of descriptors that name it, its lock belongs to the process
that has one, and there is at most one.

What the tables are for is a map from paths to their holders: `Books l held` says
that a ledger is kept for such a map. Opening adds a path to it and closing
takes one away. Deleting a path does neither, but removes the FCB; that breaks
the books if the path is open (`delete_forgets_open`).
-/

namespace AlaphiOS.Fs

open Function Option Std AlaphiOS.Lib

variable {Vol : Type}

/-- Open-file bookkeeping is exact. -/
structure LogicalFs.Exact (fs : LogicalFs Vol) : Prop where
  count : ∀ path, (lookup fs.fcbs path).map Fcb.openCount
    = if fs.fds.holders path = [] then none else some (fs.fds.holders path).length
  locked : ∀ path pid, (∃ fcb, lookup fs.fcbs path = some fcb ∧ fcb.lockedBy = some pid) ↔
    ∃ fd, fs.fds.entry pid fd = some path
  once : ∀ path, (fs.fds.holders path).length ≤ 1

/-- The call does not take an open file off the disk. -/
def LogicalFs.DeletesClosed (H : Host Vol) (fs : LogicalFs Vol) (op : Op) : Prop :=
  ∀ path, fs.removes H op = some path → lookup fs.fcbs path = none

instance (H : Host Vol) (fs : LogicalFs Vol) (op : Op) : Decidable (fs.DeletesClosed H op) :=
  inferInstanceAs (Decidable (∀ path, fs.removes H op = some path → lookup fs.fcbs path = none))

/-! ## Holders -/

/-- The ledger of a map from open paths to the descriptors that hold them. -/
structure Books (l : Ledger) (held : Path → Option (Pid × Nat)) : Prop where
  fcb : ∀ path, l.fcb path = (held path).map fun holder => (1, some holder.1)
  entry : ∀ pid fd path, l.entry pid fd = some path ↔ held path = some (pid, fd)

section

variable {l l' : Ledger} {held : Path → Option (Pid × Nat)} {path : Path} {pid : Pid} {fd n : Nat}

theorem Books.fcb_none (h : Books l held) : l.fcb path = none ↔ held path = none := by
  rw [h.fcb, map_eq_none_iff]

/-- An FCB is never unlocked. -/
theorem Books.not_unlocked (h : Books l held) : l.fcb path ≠ some (n, none) := by
  intro hfcb
  rw [h.fcb, map_eq_some_iff] at hfcb
  obtain ⟨holder, _, heq⟩ := hfcb
  exact absurd (Prod.mk.inj heq).2 (by simp)

theorem Books.acquire (h : Books l held) (hfree : l.fcb path = none)
    (hfd : l.entry pid fd = none) :
    Books { fcb := update l.fcb path (some (1, some pid))
            entry := update l.entry pid (update (l.entry pid) fd (some path)) }
      (update held path (some (pid, fd))) where
  fcb := by
    intro p
    show update l.fcb path _ p = _
    by_cases hp : p = path
    · rw [hp, update_self, update_self]
      rfl
    · rw [update_of_ne hp, update_of_ne hp]
      exact h.fcb p
  entry := by
    intro pid' fd' p
    show update l.entry pid _ pid' fd' = _ ↔ _
    rw [entry_update]
    -- The new descriptor stands for `path`, and nobody held `path` before.
    by_cases hnew : pid' = pid ∧ fd' = fd
    · rw [if_pos hnew, hnew.1, hnew.2]
      by_cases hp : p = path
      · rw [hp, update_self]
        exact iff_of_true rfl rfl
      · rw [update_of_ne hp, ← h.entry, hfd]
        exact iff_of_false (fun heq => hp (some.inj heq).symm) (by simp)
    · rw [if_neg hnew, h.entry]
      by_cases hp : p = path
      · rw [hp, update_self, h.fcb_none.mp hfree]
        refine iff_of_false (by simp) fun heq => hnew ?_
        cases heq
        exact ⟨rfl, rfl⟩
      · rw [update_of_ne hp]

theorem Books.release (h : Books l held) (hfd : l.entry pid fd = some path) :
    Books { fcb := update l.fcb path ((l.fcb path).bind (released pid))
            entry := update l.entry pid (update (l.entry pid) fd none) }
      (update held path none) where
  fcb := by
    intro p
    show update l.fcb path _ p = _
    by_cases hp : p = path
    · have hheld : held path = some (pid, fd) := (h.entry pid fd path).mp hfd
      rw [hp, update_self, update_self, h.fcb, hheld]
      rfl
    · rw [update_of_ne hp, update_of_ne hp]
      exact h.fcb p
  entry := by
    intro pid' fd' p
    show update l.entry pid _ pid' fd' = _ ↔ _
    rw [entry_update]
    have hheld : held path = some (pid, fd) := (h.entry pid fd path).mp hfd
    -- The descriptor was the only one for `path`.
    by_cases hold : pid' = pid ∧ fd' = fd
    · rw [if_pos hold, hold.1, hold.2]
      refine iff_of_false (by simp) fun heq => ?_
      by_cases hp : p = path
      · rw [hp, update_self] at heq
        cases heq
      · rw [update_of_ne hp, ← h.entry, hfd] at heq
        exact hp (some.inj heq).symm
    · rw [if_neg hold, h.entry]
      by_cases hp : p = path
      · rw [hp, update_self, hheld]
        refine iff_of_false (fun heq => hold ?_) (by simp)
        cases heq
        exact ⟨rfl, rfl⟩
      · rw [update_of_ne hp]

/-- Every change keeps the books, if what it drops is not open. -/
theorem Books.change {toLowercase : Path → Path} {opens removes : Option Path} (h : Books l held)
    (hm : Change toLowercase opens removes l l')
    (hclosed : ∀ path, removes = some path → l.fcb path = none) : ∃ held', Books l' held' := by
  cases hm with
  | same => exact ⟨held, h⟩
  | acquire _ _ hlock hfd =>
    rcases hlock with ⟨hfree, rfl⟩ | hunlocked
    · exact ⟨_, h.acquire hfree hfd⟩
    · exact absurd hunlocked h.not_unlocked
  | release hfd => exact ⟨_, h.release hfd⟩
  | drop hremoves =>
    refine ⟨held, ?_⟩
    rw [← hclosed _ hremoves, update_eq_self]
    exact h

end

namespace LogicalFs

variable {H : Host Vol} {fs fs' : LogicalFs Vol} {held : Path → Option (Pid × Nat)} {path : Path}
  {pid : Pid} {fd : Nat}

theorem holders_eq (h : Books fs.ledger held) (path : Path) :
    fs.fds.holders path = (held path).toList := by
  have hmem : ∀ holder, holder ∈ fs.fds.holders path ↔ holder ∈ (held path).toList := by
    rintro ⟨pid, fd⟩
    rw [FdRegistry.mem_holders, mem_toList]
    exact h.entry pid fd path
  have hperm : (fs.fds.holders path).Perm (held path).toList :=
    (List.perm_ext_iff_of_nodup FdRegistry.nodup_holders (toList_nodup _)).mpr hmem
  cases hheld : held path with
  | none => rw [hheld] at hperm; exact List.perm_nil.mp hperm
  | some holder => rw [hheld] at hperm; exact List.perm_singleton.mp hperm

/-- Books that are kept are exact. -/
theorem exact_of_books (h : Books fs.ledger held) : fs.Exact where
  count := by
    intro path
    have hcount : (lookup fs.fcbs path).map Fcb.openCount = (fs.ledger.fcb path).map Prod.fst := by
      show _ = ((lookup fs.fcbs path).map Fcb.lock).map Prod.fst
      rw [map_map]
      rfl
    -- One holder or none, and the FCB counts to one or is not there.
    rw [hcount, h.fcb, holders_eq h]
    cases held path <;> rfl
  locked := by
    intro path pid
    have hlocked : (∃ fcb, lookup fs.fcbs path = some fcb ∧ fcb.lockedBy = some pid) ↔
        ∃ lock, fs.ledger.fcb path = some lock ∧ lock.2 = some pid := by
      show _ ↔ ∃ lock, (lookup fs.fcbs path).map Fcb.lock = some lock ∧ _
      cases lookup fs.fcbs path with
      | none => simp
      | some fcb => simp [Fcb.lock]
    have hentry : (∃ fd, fs.fds.entry pid fd = some path) ↔ ∃ fd, held path = some (pid, fd) :=
      exists_congr fun fd => h.entry pid fd path
    rw [hlocked, hentry, h.fcb]
    cases held path with
    | none => simp
    | some holder => simp [Prod.ext_iff]
  once := by
    intro path
    rw [holders_eq h]
    cases held path <;> simp

theorem mounted_books (perms : PermsDb) (disk : Option Vol) :
    Books (mounted perms disk).ledger fun _ => none where
  fcb := fun path => congrArg (Option.map Fcb.lock) (congrFun lookup_empty path)
  entry := by
    intro pid fd path
    have hnone : (mounted perms disk).ledger.entry pid fd = none := by
      show FdRegistry.entry ∅ pid fd = none
      unfold FdRegistry.entry
      rw [lookup_empty]
      rfl
    rw [hnone]
    exact iff_of_false (by simp) (by simp)

theorem run_books {perms : PermsDb} {disk : Option Vol} {ops : List Op}
    (hclosed : Along (step H) (DeletesClosed H) (mounted perms disk) ops)
    (h : exec (step H) (mounted perms disk) ops = some fs) : ∃ held, Books fs.ledger held := by
  refine exec_induction (I := fun fs => ∃ held, Books fs.ledger held) ?_
    ⟨_, mounted_books perms disk⟩ hclosed h
  rintro fs op fs' ⟨held, hbooks⟩ hdeletes hstep
  obtain ⟨ok, heffect⟩ := step_effect hstep
  refine hbooks.change heffect.ledger fun path hremoves => ?_
  exact congrArg (Option.map Fcb.lock) (hdeletes path hremoves)

/-- **Open-file bookkeeping is exact** in every state that calls reach, if they
delete no open file; and there closing leaves the FCB and lock of every other
process. -/
theorem open_files_exact {perms : PermsDb} {disk : Option Vol} {ops : List Op}
    (hclosed : Along (step H) (DeletesClosed H) (mounted perms disk) ops)
    (h : exec (step H) (mounted perms disk) ops = some fs) :
    fs.Exact ∧ ∀ fd pid res fs' path fcb, fs.close fd pid = some (res, fs') →
      lookup fs.fcbs path = some fcb → fcb.lockedBy ≠ some pid →
        lookup fs'.fcbs path = some fcb := by
  obtain ⟨held, hbooks⟩ := run_books hclosed h
  have hexact := exact_of_books hbooks
  refine ⟨hexact, fun fd pid res fs' path fcb hclose hfcb hlock => ?_⟩
  rw [close_fcbs hclose fun hentry => ?_, hfcb]
  -- a descriptor of `pid` on the path would mean that `pid` has the lock
  obtain ⟨fcb', hfcb', hlock'⟩ := (hexact.locked path pid).mpr ⟨fd, hentry⟩
  cases hfcb.symm.trans hfcb'
  exact hlock hlock'

/-- A file changes hands: while process 1 has it open process 2 is refused, later
not, and closed files may be deleted. -/
def handOver : List Op :=
  [.create ['/', 'a'] 1, .write 3 1 0 0 [7], .openPath ['/', 'a'] 2 0 0, .close 3 1,
    .openPath ['/', 'a'] 2 0 0, .create ['/', 'b'] 1, .close 4 1, .delete ['/', 'b']]

/-- One process after the other. -/
theorem open_files_exact_handOver :
    ∃ fs, exec (step treeHost) (mounted ∅ (some .empty)) handOver = some fs ∧ fs.Exact := by
  obtain ⟨fs, hfs⟩ : ∃ fs, exec (step treeHost) (mounted ∅ (some .empty)) handOver = some fs :=
    isSome_iff_exists.mp (by decide +kernel)
  exact ⟨fs, hfs, (open_files_exact (by decide +kernel) hfs).1⟩

/-- Delete an open file, and another process can create and hold it too. -/
theorem delete_forgets_open :
    ∃ fs, exec (step treeHost) (mounted ∅ (some .empty))
        [.create ['/', 'a'] 1, .delete ['/', 'a'], .create ['/', 'a'] 2] = some fs ∧
      ¬ fs.Exact := by
  have htwo : (exec (step treeHost) (mounted ∅ (some .empty))
      [.create ['/', 'a'] 1, .delete ['/', 'a'], .create ['/', 'a'] 2]).map
        (fun fs => (fs.fds.holders ['/', 'a']).length) = some 2 := by decide +kernel
  obtain ⟨fs, hfs, hlen⟩ := map_inv htwo
  refine ⟨fs, hfs, fun hexact => ?_⟩
  have honce := hexact.once ['/', 'a']
  omega

end LogicalFs

end AlaphiOS.Fs
