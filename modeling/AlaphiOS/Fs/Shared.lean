import AlaphiOS.Fs.Tree

/-!
# Shared files

`mark_shared` makes a file immutable: `write`, `delete` and `rename` refuse a path
whose FCB carries the mark. The FCB goes with the last `close`, and the mark with
it (`reopen_forgets_shared`); another path of the file has an FCB of its own, and
`rmdir` looks at none.

`HoldsShared` is what the mark needs: the file stays open, calls come to it by the
marked path, and no directory above it is removed or renamed. Then nothing changes
or removes the file, so that its name cannot be used again either.
-/

namespace AlaphiOS.Fs

open Std AlaphiOS.Lib

variable {Vol : Type} {H : Host Vol}

/-- The call does not close the path, or come to its file or a directory above in
another way. -/
def LogicalFs.HoldsShared (T : FatTree H.toFat) (path : Path) (fs : LogicalFs Vol) : Op → Prop
  | .close fd pid => fs.fds.entry pid fd ≠ some path
  | .write fd pid _ _ _ => ∀ q, fs.fds.entry pid fd = some q → T.key q = T.key path → q = path
  | .delete q => T.key q = T.key path → q = path
  | .rename old _ => T.key old <+: T.key path → old = path
  | .rmdir q => ¬ T.key q <+: T.key path
  | _ => True

instance (T : FatTree H.toFat) (path : Path) (fs : LogicalFs Vol) :
    (op : Op) → Decidable (fs.HoldsShared T path op)
  | .close fd pid => inferInstanceAs (Decidable (fs.fds.entry pid fd ≠ some path))
  | .write fd pid _ _ _ => inferInstanceAs (Decidable (∀ q, fs.fds.entry pid fd = some q →
      T.key q = T.key path → q = path))
  | .delete q => inferInstanceAs (Decidable (T.key q = T.key path → q = path))
  | .rename old _ => inferInstanceAs (Decidable (T.key old <+: T.key path → old = path))
  | .rmdir q => inferInstanceAs (Decidable (¬ T.key q <+: T.key path))
  | .openPath .. | .create .. | .read .. | .seek .. | .markShared _ | .mkdir _ | .getdents _
  | .stat _ | .chmod .. | .chown .. => inferInstanceAs (Decidable True)

namespace LogicalFs

variable {T : FatTree H.toFat} {fs fs' : LogicalFs Vol} {path : Path}

theorem markShared_marked (h : fs.markShared path = some (.ok (), fs')) : fs'.marked path := by
  unfold markShared at h
  split at h
  next fcb hfcb =>
    cases h
    exact ⟨_, by dsimp only; rw [lookup_insert, Function.update_self], rfl⟩
  · cases h

/-- While the path is marked, what such an operation calls spares the file. -/
theorem HoldsShared.spares {op : Op} {ok : Bool} {c : Call × Bool} (h : fs.HoldsShared T path op)
    (hmarked : fs.marked path) (hmay : fs.mayCall H ok op c) : T.Spares (T.key path) c.1 := by
  refine mayCall_spares ?_ ?_ ?_ ?_ hmay
  · rintro fd pid uid gid buf q fcb rfl hentry hfcb hshared _ hkey
    obtain rfl := h q hentry hkey
    obtain ⟨fcb', hfcb', hmark⟩ := hmarked
    cases hfcb.symm.trans hfcb'
    cases hmark.symm.trans hshared
  · rintro q rfl hshared hkey
    exact not_marked_of_notShared hshared (h hkey ▸ hmarked)
  · rintro old new rfl hshared hkey
    exact not_marked_of_notShared hshared (h hkey ▸ hmarked)
  · rintro q rfl
    exact h

/-- One call keeps the mark and the file. -/
theorem HoldsShared.step {op : Op} {n : Node} (h : fs.HoldsShared T path op)
    (hmarked : fs.marked path) (hnode : ∃ v, fs.disk = some v ∧ T.node v (T.key path) = some n)
    (hstep : fs.step H op = some fs') :
    fs'.marked path ∧ ∃ v, fs'.disk = some v ∧ T.node v (T.key path) = some n := by
  obtain ⟨ok, heffect⟩ := step_effect hstep
  obtain ⟨calls, hmakes, hcalls⟩ := heffect.disk
  refine ⟨heffect.marks path hmarked ?_, ?_⟩
  · rintro fd pid rfl
    exact h
  · exact hmakes.invariant
      (fun _ c hc => T.run_spares (h.spares hmarked (hcalls c hc))) hnode

/-- **A shared file is immutable** while it is held: after `mark_shared` succeeded
on a path, every state that such calls reach has the file with the same contents,
and the mark. -/
theorem shared_immutable {fs₀ : LogicalFs Vol} {v : Vol} {data : List UInt8} {ops : List Op}
    (hmark : fs₀.markShared path = some (.ok (), fs)) (hdisk : fs.disk = some v)
    (hfile : T.node v (T.key path) = some (.file data))
    (hholds : Along (step H) (HoldsShared T path) fs ops)
    (h : exec (step H) fs ops = some fs') :
    fs'.marked path ∧ ∃ v', fs'.disk = some v' ∧ T.node v' (T.key path) = some (.file data) :=
  exec_induction
    (I := fun fs => fs.marked path ∧
      ∃ v, fs.disk = some v ∧ T.node v (T.key path) = some (.file data))
    (fun _ _ _ hI hhold hstep => hhold.step hI.1 hI.2 hstep)
    ⟨markShared_marked hmark, v, hdisk, hfile⟩ hholds h

/-- A file with one byte, open; -/
def oneByte : LogicalFs TreeVol :=
  (exec (step treeHost) (mounted ∅ (some .empty))
    [.create ['/', 'a'] 1, .write 3 1 0 0 [7]]).get (by decide +kernel)

/-- and marked. -/
def oneByteShared : LogicalFs TreeVol :=
  { oneByte with fcbs := oneByte.fcbs.insert ['/', 'a'] ⟨1, 1, true, some 1, true⟩ }

theorem oneByte_markShared : oneByte.markShared ['/', 'a'] = some (.ok (), oneByteShared) := by
  have hfcb : lookup oneByte.fcbs ['/', 'a'] = some ⟨1, 1, true, some 1, false⟩ := by
    decide +kernel
  unfold markShared
  rw [hfcb]
  rfl

/-- Everything refused, and work on another file. -/
def sharedHeld : List Op :=
  [.write 3 1 0 0 [8], .delete ['/', 'a'], .rename ['/', 'a'] ['/', 'b'], .create ['/', 'b'] 2,
    .write 3 2 0 0 [9], .close 3 2, .delete ['/', 'b']]

/-- It is kept open. -/
theorem shared_immutable_held :
    nodeAfter (exec (step treeHost) oneByteShared sharedHeld) [['a']] = some (.file [7]) := by
  obtain ⟨fs', hfs'⟩ : ∃ fs', exec (step treeHost) oneByteShared sharedHeld = some fs' :=
    Option.isSome_iff_exists.mp (by decide +kernel)
  obtain ⟨v, hv⟩ : ∃ v, oneByteShared.disk = some v :=
    Option.isSome_iff_exists.mp (by decide +kernel)
  have hbyte : nodeAfter (some oneByteShared) [['a']] = some (.file [7]) := by decide +kernel
  obtain ⟨_, v', hv', hnode⟩ := shared_immutable (T := treeHost.tree) oneByte_markShared hv
    ((nodeAfter_eq hv).mp hbyte) (by decide +kernel) hfs'
  rw [hfs']
  exact (nodeAfter_eq hv').mpr hnode

/-- Close and reopen, and the file can be written. -/
theorem reopen_forgets_shared :
    oneByte.markShared ['/', 'a'] = some (.ok (), oneByteShared) ∧
      nodeAfter (some oneByteShared) [['a']] = some (.file [7]) ∧
      nodeAfter (exec (step treeHost) oneByteShared
        [.close 3 1, .openPath ['/', 'a'] 2 0 0, .write 3 2 0 0 [8]]) [['a']] = some (.file [8]) :=
  ⟨oneByte_markShared, by decide +kernel, by decide +kernel⟩

end LogicalFs

end AlaphiOS.Fs
