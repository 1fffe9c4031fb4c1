import AlaphiOS.Fs.Tree

/-!
# Permissions and who they stop

`check_perm` is asked by `open`, `read` and `write` alone. So a process without any
rights on a file can delete it, rename it, remove a directory above it, or take it
over with `SYS_CHOWN` (`unprivileged_delete`); and a second path of the file has no
entry of its own.

What the permissions do protect: a file is safe from writes through its own path by
every process that its entry denies them to. `SparesFile` excludes the other ways.
-/

namespace AlaphiOS.Fs

open Function Std AlaphiOS.Lib

variable {Vol : Type} {H : Host Vol}

/-- A process that may not write the file and does not own it. -/
def PermEntry.Denies (entry : PermEntry) (uid gid : UInt32) : Prop :=
  uid ≠ 0 ∧ uid ≠ entry.uid ∧ (entry.rwxFor uid gid).canWrite = false

instance (entry : PermEntry) (uid gid : UInt32) : Decidable (entry.Denies uid gid) :=
  inferInstanceAs (Decidable (_ ∧ _ ∧ _))

/-- The call is made by such a process. The other calls do not look who makes them. -/
def Op.DeniedBy (entry : PermEntry) : Op → Prop
  | .openPath _ _ uid gid => entry.Denies uid gid
  | .read _ _ uid gid _ => entry.Denies uid gid
  | .write _ _ uid gid _ => entry.Denies uid gid
  | _ => True

instance (entry : PermEntry) : (op : Op) → Decidable (op.DeniedBy entry)
  | .openPath _ _ uid gid => inferInstanceAs (Decidable (entry.Denies uid gid))
  | .read _ _ uid gid _ => inferInstanceAs (Decidable (entry.Denies uid gid))
  | .write _ _ uid gid _ => inferInstanceAs (Decidable (entry.Denies uid gid))
  | .create .. | .close .. | .seek .. | .delete _ | .rename .. | .markShared _ | .mkdir _
  | .rmdir _ | .getdents _ | .stat _ | .chmod .. | .chown .. => inferInstanceAs (Decidable True)

/-- The call comes to the file through its own path only, does not delete, rename or
remove it or a directory above, and does not set its permissions. -/
def LogicalFs.SparesFile (T : FatTree H.toFat) (path : Path) (fs : LogicalFs Vol) : Op → Prop
  | .write fd pid _ _ _ => ∀ q, fs.fds.entry pid fd = some q → T.key q = T.key path → q = path
  | .delete q => T.key q ≠ T.key path
  | .rename old _ => ¬ T.key old <+: T.key path
  | .rmdir q => ¬ T.key q <+: T.key path
  | .chmod q _ => q ≠ path
  | .chown q _ _ => q ≠ path
  | _ => True

instance (T : FatTree H.toFat) (path : Path) (fs : LogicalFs Vol) :
    (op : Op) → Decidable (fs.SparesFile T path op)
  | .write fd pid _ _ _ => inferInstanceAs (Decidable (∀ q, fs.fds.entry pid fd = some q →
      T.key q = T.key path → q = path))
  | .delete q => inferInstanceAs (Decidable (T.key q ≠ T.key path))
  | .rename old _ => inferInstanceAs (Decidable (¬ T.key old <+: T.key path))
  | .rmdir q => inferInstanceAs (Decidable (¬ T.key q <+: T.key path))
  | .chmod q _ => inferInstanceAs (Decidable (q ≠ path))
  | .chown q _ _ => inferInstanceAs (Decidable (q ≠ path))
  | .openPath .. | .create .. | .close .. | .read .. | .seek .. | .markShared _ | .mkdir _
  | .getdents _ | .stat _ => inferInstanceAs (Decidable True)

namespace LogicalFs

variable {T : FatTree H.toFat} {fs fs' : LogicalFs Vol} {path : Path} {entry : PermEntry}

theorem not_checkPerm {uid gid : UInt32} (hentry : lookup fs.perms path = some entry)
    (hdenies : entry.Denies uid gid) : fs.checkPerm path uid gid true ≠ .ok () := by
  obtain ⟨hroot, _, hwrite⟩ := hdenies
  unfold checkPerm
  rw [if_neg hroot, hentry]
  dsimp only
  rw [hwrite]
  simp

/-- A denied call that spares the file leaves its entry. -/
theorem SparesFile.perms {op : Op} {ok : Bool} (h : fs.SparesFile T path op)
    (hentry : lookup fs.perms path = some entry) : fs.permsAfter ok op path = some entry := by
  cases op with
  | delete q =>
    have hne : path ≠ q := fun heq => h (congrArg T.key heq.symm)
    dsimp only [permsAfter]
    split
    · rw [update_of_ne hne, hentry]
    · exact hentry
  | chmod | chown => exact (update_of_ne (Ne.symm h) ..).trans hentry
  | _ => exact hentry

/-- Its calls spare the file: a write through its own path is refused. -/
theorem SparesFile.spares {op : Op} {ok : Bool} {c : Call × Bool} (h : fs.SparesFile T path op)
    (hdenied : op.DeniedBy entry) (hentry : lookup fs.perms path = some entry)
    (hmay : fs.mayCall H ok op c) : T.Spares (T.key path) c.1 := by
  refine mayCall_spares ?_ ?_ ?_ ?_ hmay
  · rintro fd pid uid gid buf q fcb rfl hfd _ _ hperm hkey
    obtain rfl := h q hfd hkey
    exact not_checkPerm hentry hdenied hperm
  · rintro q rfl _
    exact h
  · rintro old new rfl _
    exact h
  · rintro q rfl
    exact h

/-- **Permissions confine unprivileged processes** as long as they use the file by
its path and leave the rest to others: from any state, calls by processes that the
file's entry denies writing keep the file, its contents and its entry. -/
theorem permissions_confine {v : Vol} {data : List UInt8} {ops : List Op}
    (hentry : lookup fs.perms path = some entry) (hdisk : fs.disk = some v)
    (hfile : T.node v (T.key path) = some (.file data))
    (hdenied : ∀ op ∈ ops, op.DeniedBy entry)
    (hspares : Along (step H) (SparesFile T path) fs ops)
    (h : exec (step H) fs ops = some fs') :
    lookup fs'.perms path = some entry ∧
      ∃ v', fs'.disk = some v' ∧ T.node v' (T.key path) = some (.file data) := by
  refine exec_induction
    (I := fun fs => lookup fs.perms path = some entry ∧
      ∃ v, fs.disk = some v ∧ T.node v (T.key path) = some (.file data))
    ?_ ⟨hentry, v, hdisk, hfile⟩ (hspares.and_forall hdenied) h
  rintro fs op fs' ⟨hentry, hnode⟩ ⟨hdenied, hspare⟩ hstep
  obtain ⟨ok, heffect⟩ := step_effect hstep
  obtain ⟨calls, hmakes, hcalls⟩ := heffect.disk
  refine ⟨?_, hmakes.invariant
    (fun _ c hc => T.run_spares (hspare.spares hdenied hentry (hcalls c hc))) hnode⟩
  rw [heffect.perms]
  exact hspare.perms hentry

/-- Only user 1 may use the file. -/
def ownerOnly : PermEntry := ⟨1, 1, ⟨0b110⟩, ⟨0⟩, ⟨0⟩⟩

def protectedFile : LogicalFs TreeVol :=
  mounted ((∅ : PermsDb).insert ['/', 'a'] ownerOnly)
    (some (TreeVol.empty.put [['a']] (some (.file [7]))))

theorem protectedFile_entry : lookup protectedFile.perms ['/', 'a'] = some ownerOnly := by
  show lookup ((∅ : PermsDb).insert ['/', 'a'] ownerOnly) ['/', 'a'] = _
  rw [lookup_insert, update_self]

/-- Process 5 belongs to user 2: it may not open the file, and works on another. -/
def stranger : List Op :=
  [.openPath ['/', 'a'] 5 2 2, .create ['/', 'b'] 5, .write 3 5 2 2 [8], .close 3 5,
    .rename ['/', 'b'] ['/', 'a'], .delete ['/', 'b'], .getdents ['/']]

/-- A stranger tries to read and write. -/
theorem permissions_confine_stranger :
    nodeAfter (exec (step treeHost) protectedFile stranger) [['a']] = some (.file [7]) := by
  obtain ⟨fs', hfs'⟩ : ∃ fs', exec (step treeHost) protectedFile stranger = some fs' :=
    Option.isSome_iff_exists.mp (by decide +kernel)
  have hfile : (TreeVol.empty.put [['a']] (some (.file [7]))).node [['a']] = some (.file [7]) := by
    decide +kernel
  obtain ⟨_, v', hv', hnode⟩ := permissions_confine (T := treeHost.tree) protectedFile_entry rfl
    hfile (by decide) (by decide +kernel) hfs'
  rw [hfs']
  exact (nodeAfter_eq hv').mpr hnode

/-- User 2 may not write the file, but can delete it. -/
theorem unprivileged_delete :
    lookup protectedFile.perms ['/', 'a'] = some ownerOnly ∧ ownerOnly.Denies 2 2 ∧
      nodeAfter (some protectedFile) [['a']] = some (.file [7]) ∧
      nodeAfter (exec (step treeHost) protectedFile [.delete ['/', 'a']]) [['a']] = none :=
  ⟨protectedFile_entry, by decide, by decide +kernel, by decide +kernel⟩

end LogicalFs

end AlaphiOS.Fs
