import AlaphiOS.Fs.Permissions

/-!
# Calls of `open` and `create` that fail

A call that returns an error should leave everything as it was: the tree on the disk, the table of
open files, the descriptors and the permissions (`Unchanged`). `open` does. `create` makes the file
before it looks at the lock of its path, so it leaves a new file behind if the path is locked and
nothing was under it (`LeavesFile`): the lock belongs to a file that was opened by this path and
then renamed, or removed together with its directory, or that was stored under a short name.

Of `fatfs` it is assumed here that `create_file` says truly whether there is a file
(`CreatesOrFails`), under whatever name it is stored.
-/

namespace AlaphiOS.Fs

open Std AlaphiOS.Lib

variable {Vol : Type}

/-- `create_file` opens what the path leads to. Where there is nothing it makes a new entry, which
need not be under the key of the path, or it fails and changes nothing. -/
structure FatTree.CreatesOrFails {F : Fat Vol} (T : FatTree F) : Prop where
  opened : ∀ v p, T.node v (T.canon p) ≠ none → T.node (F.createFile v p).2 = T.node v
  created : ∀ v p, T.node v (T.canon p) = none → (F.createFile v p).1 = true →
    T.node (F.createFile v p).2 ≠ T.node v
  failed : ∀ v p, (F.createFile v p).1 = false → T.node (F.createFile v p).2 = T.node v

theorem treeFat.createsOrFails : treeFat.tree.CreatesOrFails where
  opened v p hthere := by
    dsimp only [treeFat, treeFat.tree] at hthere ⊢
    split
    · rfl
    · rfl
    next hnone => exact absurd hnone hthere
  created v p hnone hok heq := by
    dsimp only [treeFat, treeFat.tree] at hnone hok heq
    simp only [hnone] at hok heq
    split at hok
    next hcan =>
      rw [if_pos hcan] at heq
      have := (congrFun heq (TreeVol.canon p)).symm.trans (Function.update_self ..)
      rw [hnone] at this
      cases this
    · cases hok
  failed v p := by
    dsimp only [treeFat, treeFat.tree]
    split
    · intro _; rfl
    · intro _; rfl
    · split
      · intro h; cases h
      · intro _; rfl

namespace LogicalFs

variable {H : Host Vol}

/-- The files and their contents, the open files, the descriptors and the permissions are the
same. -/
structure Unchanged (T : FatTree H.toFat) (fs fs' : LogicalFs Vol) : Prop where
  tree : fs'.disk.map T.node = fs.disk.map T.node
  fcbs : fs'.fcbs = fs.fcbs
  fds : fs'.fds = fs.fds
  perms : fs'.perms = fs.perms

variable {T : FatTree H.toFat} {fs fs' : LogicalFs Vol} {path : Path} {pid : Pid} {uid gid : UInt32}
  {e : FsError}

/-- The path is locked. -/
def Locked (fs : LogicalFs Vol) (path : Path) : Prop :=
  ∃ fcb, lookup fs.fcbs path = some fcb ∧ fcb.lockedBy.isSome

/-- The path is locked and leads to nothing, and it passes the checks and the volume takes a file
under it. -/
def LeavesFile (T : FatTree H.toFat) (fs : LogicalFs Vol) (path : Path) : Prop :=
  fs.Locked path ∧ fs.has T (T.key path) = false ∧
    ∃ disk, fs.createChecks H path = .ok (trimSlashes path, disk) ∧
      (H.createFile disk (trimSlashes path)).1 = true

/-- The end of `open` and `create` fails on a lock only, and then it has done nothing. -/
theorem acquire_error (h : fs.acquire path pid = some (.error e, fs')) :
    fs.Locked path ∧ fs' = fs := by
  unfold acquire at h
  generalize hopen : FcbTable.open fs.fcbs path = r at h
  obtain ⟨fcbs, fcb⟩ := r
  dsimp only at h
  split at h
  next hlocked =>
    cases h
    -- a new entry is not locked, so the path had one
    rcases FcbTable.open_spec hopen with ⟨hold, rfl⟩ | ⟨_, rfl, _⟩
    · exact ⟨⟨fcb, hold, hlocked⟩, rfl⟩
    · cases hlocked
  · obtain ⟨openCount, _, h⟩ := bind_inv h
    obtain ⟨_, _, heq⟩ := map_inv h
    cases heq

/-- A failed `open` has looked for the file, and no more. -/
theorem open_error (h : fs.open H path pid uid gid = some (.error e, fs')) :
    fs.Unchanged T fs' := by
  unfold LogicalFs.open at h
  split at h
  · cases h
    exact ⟨rfl, rfl, rfl, rfl⟩
  next fatPath disk hchecks =>
    obtain ⟨_, rfl, hdisk⟩ := openChecks_ok hchecks
    have hlooked : fs.Unchanged T
        { fs with disk := some (H.openFile disk (trimSlashes path)).2 } := by
      refine ⟨?_, rfl, rfl, rfl⟩
      rw [hdisk]
      exact congrArg some (T.openFile disk (trimSlashes path))
    dsimp only at h
    split at h
    · obtain ⟨_, rfl⟩ := acquire_error h
      exact hlooked
    · cases h
      exact hlooked

/-- A failed `create` did not come to `create_file`, or `create_file` failed, or it found the path
locked afterwards. -/
theorem create_error (h : fs.create H path pid = some (.error e, fs')) :
    ((∀ r, fs.createChecks H path ≠ .ok r) ∧ fs' = fs) ∨
      ∃ disk, fs.createChecks H path = .ok (trimSlashes path, disk) ∧ fs.disk = some disk ∧
        fs' = { fs with disk := some (H.createFile disk (trimSlashes path)).2 } ∧
        ((H.createFile disk (trimSlashes path)).1 = true → fs.Locked path) := by
  unfold create at h
  split at h
  next hchecks =>
    cases h
    exact .inl ⟨fun r hok => (nomatch hchecks.symm.trans hok), rfl⟩
  next fatPath disk hchecks =>
    obtain ⟨_, rfl, hdisk⟩ := createChecks_ok hchecks
    refine .inr ⟨disk, hchecks, hdisk, ?_⟩
    dsimp only at h
    split at h
    · obtain ⟨hlocked, rfl⟩ := acquire_error h
      exact ⟨rfl, fun _ => hlocked⟩
    next hok =>
      cases h
      exact ⟨rfl, fun htrue => absurd htrue hok⟩

/-- A call that only made a `create_file` changed nothing iff the tree is the same. -/
theorem unchanged_disk_iff {disk disk' : Vol} (hdisk : fs.disk = some disk) :
    fs.Unchanged T { fs with disk := some disk' } ↔ T.node disk' = T.node disk := by
  constructor
  · intro hsame
    have htree : some (T.node disk') = fs.disk.map T.node := hsame.tree
    rw [hdisk] at htree
    exact Option.some.inj htree
  · intro hnode
    refine ⟨?_, rfl, rfl, rfl⟩
    rw [hdisk]
    exact congrArg some hnode

/-- **A failed `open` changes nothing; a failed `create` changes nothing exactly if the path was
not locked, or led to something, or the volume takes no file under it.** -/
theorem failed_open_create_unchanged (hT : T.CreatesOrFails) (fs : LogicalFs Vol) (path : Path)
    (pid : Pid) (uid gid : UInt32) :
    (∀ e fs', fs.open H path pid uid gid = some (.error e, fs') → fs.Unchanged T fs') ∧
    ∀ e fs', fs.create H path pid = some (.error e, fs') →
      (fs.Unchanged T fs' ↔ ¬ fs.LeavesFile T path) := by
  refine ⟨fun e fs' h => open_error h, fun e fs' h => ?_⟩
  rcases create_error h with ⟨hnot, rfl⟩ | ⟨disk, hchecks, hdisk, rfl, hlocked⟩
  · exact ⟨fun _ hleaves => hnot _ hleaves.2.2.choose_spec.1, fun _ => ⟨rfl, rfl, rfl, rfl⟩⟩
  rw [unchanged_disk_iff hdisk]
  constructor
  · intro hsame ⟨_, hnone, disk', hchecks', hmade⟩
    obtain rfl : disk = disk' := by
      rw [hchecks] at hchecks'
      cases hchecks'
      rfl
    refine hT.created disk _ ?_ hmade hsame
    by_contra hthere
    exact Bool.eq_false_iff.mp hnone
      (has_iff.mpr ⟨disk, hdisk, Option.isSome_iff_ne_none.mpr hthere⟩)
  · intro hleaves
    by_cases hthere : T.node disk (T.canon (trimSlashes path)) = none
    -- nothing was there, so the file was not made: the path was locked
    · apply hT.failed
      by_contra hmade
      have hmade := (Bool.not_eq_false _).mp hmade
      refine hleaves ⟨hlocked hmade, Bool.eq_false_iff.mpr fun hhas => ?_, disk, hchecks, hmade⟩
      obtain ⟨v, hv, hsome⟩ := has_iff.mp hhas
      cases hdisk.symm.trans hv
      exact Option.isSome_iff_ne_none.mp hsome hthere
    · exact hT.opened _ _ hthere

/-- Two processes create one file. -/
theorem failed_create_of_existing :
    ∃ fs fs', exec (step treeHost) (mounted ∅ (some .empty)) [.create "/a".toList 1] = some fs ∧
      fs.create treeHost "/a".toList 2 = some (.error .locked, fs') ∧
      fs.Unchanged treeHost.tree fs' := by
  have hfacts : ∃ fs ∈ exec (step treeHost) (mounted ∅ (some .empty)) [.create "/a".toList 1],
      fs.has treeHost.tree (treeHost.tree.key "/a".toList) = true ∧
      (fs.create treeHost "/a".toList 2).map Prod.fst = some (.error .locked) := by decide +kernel
  obtain ⟨fs, hrun, hthere, hcreate⟩ := hfacts
  obtain ⟨⟨_, fs'⟩, hcreate, rfl⟩ := map_inv hcreate
  refine ⟨fs, fs', hrun, hcreate, ?_⟩
  have hT : treeHost.tree.CreatesOrFails := treeFat.createsOrFails
  exact ((failed_open_create_unchanged hT fs "/a".toList 2 0 0).2 _ _ hcreate).mpr
    fun hleaves => absurd hthere (by rw [hleaves.2.1]; decide)

/-- An open file is renamed. To create a file under its old name fails, and the file is there. -/
theorem failed_create_leaves_file :
    ∃ fs fs', exec (step treeHost) (mounted ∅ (some .empty))
        [.create "/a".toList 1, .rename "/a".toList "/b".toList] = some fs ∧
      fs.create treeHost "/a".toList 2 = some (.error .locked, fs') ∧
      nodeAfter (some fs) [['a']] = none ∧ nodeAfter (some fs') [['a']] = some (.file []) := by
  have hfacts : ∃ fs ∈ exec (step treeHost) (mounted ∅ (some .empty))
      [.create "/a".toList 1, .rename "/a".toList "/b".toList], nodeAfter (some fs) [['a']] = none ∧
      ∃ r ∈ fs.create treeHost "/a".toList 2, r.1 = .error .locked ∧
        nodeAfter (some r.2) [['a']] = some (.file []) := by decide +kernel
  obtain ⟨fs, hrun, hnone, ⟨_, fs'⟩, hcreate, rfl, hfile⟩ := hfacts
  exact ⟨fs, fs', hrun, hcreate, hnone, hfile⟩

end LogicalFs

end AlaphiOS.Fs
