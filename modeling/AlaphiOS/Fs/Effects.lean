import AlaphiOS.Fs.Ledger
import Mathlib.Logic.Relation

/-!
# What a call does

One lemma for each operation says everything the later modules use of it
(`Effect`): how the ledger of open files changes, which calls of `fatfs` it makes
and under which checks (`mayCall`), what it does to the permission table
(`permsAfter`), and that only `close` takes a shared mark away. `call_effect` puts
them together; no later proof unfolds an operation.
-/

namespace AlaphiOS.Fs

open Function Std AlaphiOS.Lib

variable {Vol : Type}

/-! ## Calls of `fatfs` -/

/-- A call of `fatfs`. -/
inductive Call where
  | openFile (path : Path)
  | createFile (path : Path)
  | createDir (path : Path)
  | remove (path : Path)
  | rename (old new : Path)
  | openDir (path : Path)
  | size (path : Path)
  | readAt (path : Path) (offset len : Nat)
  | writeAt (path : Path) (offset : Nat) (buf : List UInt8)
  deriving DecidableEq

/-- Make the call: did it succeed, and what is left of the volume. -/
def Fat.run (F : Fat Vol) (v : Vol) : Call → Bool × Vol
  | .openFile path => F.openFile v path
  | .createFile path => F.createFile v path
  | .createDir path => F.createDir v path
  | .remove path => F.remove v path
  | .rename old new => F.rename v old new
  | .openDir path => ((F.openDir v path).1.isSome, (F.openDir v path).2)
  | .size path => ((F.size v path).1.isSome, (F.size v path).2)
  | .readAt path offset len =>
    ((F.readAt v path offset len).1.isSome, (F.readAt v path offset len).2)
  | .writeAt path offset buf => F.writeAt v path offset buf

/-- These calls, with these results, take the first disk to the second. -/
inductive Fat.Makes (F : Fat Vol) : Option Vol → List (Call × Bool) → Option Vol → Prop
  | nil {disk : Option Vol} : F.Makes disk [] disk
  | cons {v : Vol} {c : Call} {calls : List (Call × Bool)} {disk : Option Vol}
      (h : F.Makes (some (F.run v c).2) calls disk) :
      F.Makes (some v) ((c, (F.run v c).1) :: calls) disk

section

variable {F : Fat Vol} {disk disk' : Option Vol}

/-- Calls after calls. -/
theorem Fat.Makes.append {disk'' : Option Vol} {calls calls' : List (Call × Bool)}
    (h : F.Makes disk calls disk') (h' : F.Makes disk' calls' disk'') :
    F.Makes disk (calls ++ calls') disk'' := by
  induction h with
  | nil => exact h'
  | cons _ ih => exact .cons (ih h')

theorem Fat.Makes.eq_of_nil (h : F.Makes disk [] disk') : disk' = disk := by
  cases h
  rfl

theorem Fat.Makes.one {v v' : Vol} {c : Call} {ok : Bool} (h : F.run v c = (ok, v')) :
    F.Makes (some v) [(c, ok)] (some v') := by
  have hone : F.Makes (some v) [(c, (F.run v c).1)] (some (F.run v c).2) := .cons .nil
  rwa [h] at hone

/-- The invariant rule: what each of the calls keeps, all of them keep. -/
theorem Fat.Makes.invariant {I : Vol → Prop}
    {calls : List (Call × Bool)} (h : F.Makes disk calls disk')
    (hcall : ∀ v, ∀ c ∈ calls, I v → I (F.run v c.1).2) (hI : ∃ v, disk = some v ∧ I v) :
    ∃ v, disk' = some v ∧ I v := by
  induction h with
  | nil => exact hI
  | @cons v c calls disk' _ ih =>
    obtain ⟨w, hw, hI⟩ := hI
    cases hw
    refine ih (fun v c hc => hcall v c (List.mem_cons_of_mem _ hc)) ⟨_, rfl, ?_⟩
    exact hcall v _ List.mem_cons_self hI

/-- Some listing of `p` has the entry that `q` names. -/
def Fat.Lists (F : Fat Vol) (p q : Path) : Prop :=
  ∃ v entries entry, (F.openDir v p).1 = some entries ∧ entry ∈ entries.filter isListed ∧
    q = childPath p entry.1

/-- What a walk from `p` can come to. -/
def Fat.Below (F : Fat Vol) : Path → Path → Prop := Relation.ReflTransGen F.Lists

/-! ## Recursive removal -/

/-- A call of `remove_dir_recursive`. -/
def Fat.Sweeps (F : Fat Vol) (p : Path) (c : Call × Bool) : Prop :=
  ∃ q, F.Below p q ∧ (c.1 = .openDir q ∨ c.1 = .remove q)

/-- Its loop at one level. -/
theorem removeEntries_makes {removeDir : Vol → Path → Option (Bool × Vol)} {p : Path}
    (hdir : ∀ {v q ok v'}, removeDir v q = some (ok, v') →
      ∃ calls, F.Makes (some v) calls (some v') ∧ ∀ c ∈ calls, F.Sweeps q c) :
    ∀ {entries : List (Path × Bool)}, (∀ e ∈ entries, F.Lists p (childPath p e.1)) →
      ∀ {v : Vol} {ok : Bool} {v' : Vol}, removeEntries F removeDir p entries v = some (ok, v') →
        ∃ calls, F.Makes (some v) calls (some v') ∧ ∀ c ∈ calls, F.Sweeps p c := by
  intro entries
  induction entries with
  | nil =>
    intro _ v ok v' h
    cases h
    exact ⟨[], .nil, nofun⟩
  | cons entry entries ih =>
    intro hlist v ok v' h
    obtain ⟨name, isDir⟩ := entry
    have hchild : F.Below p (childPath p name) :=
      .single (hlist (name, isDir) List.mem_cons_self)
    obtain ⟨⟨ok₁, v₁⟩, hone, hrest⟩ := bind_inv h
    -- the entry itself: a walk of its own, or one `remove`
    have hfirst : ∃ calls, F.Makes (some v) calls (some v₁) ∧ ∀ c ∈ calls, F.Sweeps p c := by
      split at hone
      · obtain ⟨calls, hmakes, hcalls⟩ := hdir hone
        refine ⟨calls, hmakes, fun c hc => ?_⟩
        obtain ⟨q, hq, hkind⟩ := hcalls c hc
        exact ⟨q, hchild.trans hq, hkind⟩
      · have hrun : F.run v (.remove (childPath p name)) = (ok₁, v₁) := Option.some.inj hone
        refine ⟨_, .one hrun, fun c hc => ?_⟩
        obtain rfl := List.mem_singleton.mp hc
        exact ⟨_, hchild, .inr rfl⟩
    obtain ⟨calls, hmakes, hcalls⟩ := hfirst
    dsimp only at hrest
    split at hrest
    · obtain ⟨calls', hmakes', hcalls'⟩ :=
        ih (fun e he => hlist e (List.mem_cons_of_mem _ he)) hrest
      refine ⟨calls ++ calls', hmakes.append hmakes', fun c hc => ?_⟩
      exact (List.mem_append.mp hc).elim (hcalls c) (hcalls' c)
    · cases hrest
      exact ⟨calls, hmakes, hcalls⟩

/-- `remove_dir_recursive` stays below its path. -/
theorem removeDirRecursive_makes : ∀ {depth : Nat} {v : Vol} {p : Path} {ok : Bool} {v' : Vol},
    removeDirRecursive F depth v p = some (ok, v') →
      ∃ calls, F.Makes (some v) calls (some v') ∧ ∀ c ∈ calls, F.Sweeps p c := by
  intro depth
  -- The depth of the recursion bounds the nesting; `removeEntries_makes` is the loop at one level.
  induction depth with
  | zero => intro v p ok v' h; exact absurd h (by simp [removeDirRecursive])
  | succ depth ih =>
    intro v p ok v' h
    unfold removeDirRecursive at h
    have hopen :
        F.Makes (some v) [(.openDir p, (F.openDir v p).1.isSome)] (some (F.openDir v p).2) :=
      .one rfl
    have hhere : ∀ ok, F.Sweeps p (.openDir p, ok) := fun _ => ⟨p, .refl, .inl rfl⟩
    split at h
    -- The directory cannot be opened: that is the only call.
    next v₁ heq =>
      cases h
      rw [heq] at hopen
      exact ⟨_, hopen, List.forall_mem_singleton.mpr (hhere _)⟩
    next entries v₁ heq =>
      rw [heq] at hopen
      obtain ⟨⟨ok₂, v₂⟩, hentries, hlast⟩ := bind_inv h
      -- What the loop removes are entries of `p`, so what it sweeps is below `p`.
      have hlist : ∀ e ∈ entries.filter isListed, F.Lists p (childPath p e.1) :=
        fun e he => ⟨v, entries, e, congrArg Prod.fst heq, he, rfl⟩
      obtain ⟨calls, hmakes, hcalls⟩ := removeEntries_makes ih hlist hentries
      have hsofar : ∀ c ∈ (.openDir p, true) :: calls, F.Sweeps p c :=
        List.forall_mem_cons.mpr ⟨hhere _, hcalls⟩
      dsimp only at hlast
      split at hlast
      next =>
        -- Everything below is gone, and the directory itself is removed.
        have hrun : F.run v₂ (.remove p) = (ok, v') := Option.some.inj hlast
        refine ⟨_, (hopen.append hmakes).append (.one hrun), fun c hc => ?_⟩
        rcases List.mem_append.mp hc with hc | hc
        · exact hsofar c hc
        · obtain rfl := List.mem_singleton.mp hc
          exact ⟨p, .refl, .inr rfl⟩
      · cases hlast
        exact ⟨_, hopen.append hmakes, hsofar⟩

end

/-! ## Operations -/

/-- The calls that an operation may make, if its result is `ok`; of `delete` and
`rename` the result is that of the call. -/
def LogicalFs.mayCall (H : Host Vol) (fs : LogicalFs Vol) (ok : Bool) : Op → Call × Bool → Prop
  | .openPath path _ _ _, c => c.1 = .openFile (trimSlashes path)
  | .create path _, c => c.1 = .createFile (trimSlashes path)
  | .close _ _, _ => False
  | .read fd pid _ _ len, c => ∃ path, fs.fds.entry pid fd = some path ∧
      (c.1 = .openFile (trimSlashes path) ∨ ∃ offset, c.1 = .readAt (trimSlashes path) offset len)
  | .write fd pid uid gid buf, c => ∃ path fcb, fs.fds.entry pid fd = some path ∧
      lookup fs.fcbs path = some fcb ∧ fcb.isShared = false ∧
      fs.checkPerm path uid gid true = .ok () ∧
      (c.1 = .openFile (trimSlashes path) ∨ c.1 = .writeAt (trimSlashes path) fcb.cursor buf)
  | .seek _ _ _, _ => False
  | .delete path, c => fs.notShared path = .ok () ∧ c = (.remove (trimSlashes path), ok)
  | .rename old new, c =>
      fs.notShared old = .ok () ∧ c = (.rename (trimSlashes old) (trimSlashes new), ok)
  | .markShared _, _ => False
  | .mkdir path, c => c.1 = .createDir (trimSlashes path)
  | .rmdir path, c => H.Sweeps (trimSlashes path) c
  | .getdents path, c => c.1 = .openDir (trimSlashes path)
  | .stat path, c => c.1 = .openFile (trimSlashes path) ∨ c.1 = .size (trimSlashes path) ∨
      c.1 = .openDir (trimSlashes path)
  | .chmod _ _, _ => False
  | .chown _ _ _, _ => False

/-- The entry with the bits of a mode. -/
def PermEntry.setMode (mode : Nat) (entry : PermEntry) : PermEntry :=
  let bits := UInt8.ofNat mode
  { entry with
    ownerRwx := ⟨(bits >>> 6) &&& 0b111⟩
    groupRwx := ⟨(bits >>> 3) &&& 0b111⟩
    worldRwx := ⟨bits &&& 0b111⟩ }

/-- The entry with an owner, made if there is none. -/
def PermEntry.setOwner (uid gid : UInt32) : Option PermEntry → PermEntry
  | some entry => { entry with uid := uid, gid := gid }
  | none => ⟨uid, gid, ⟨0b111⟩, ⟨0b101⟩, ⟨0b101⟩⟩

/-- What an operation with the result `ok` leaves in the permission table. -/
def LogicalFs.permsAfter (fs : LogicalFs Vol) (ok : Bool) : Op → Path → Option PermEntry
  | .delete path => if ok then update (lookup fs.perms) path none else lookup fs.perms
  | .chmod path mode =>
    update (lookup fs.perms) path ((lookup fs.perms path).map (.setMode mode))
  | .chown path uid gid =>
    update (lookup fs.perms) path (some (.setOwner uid gid (lookup fs.perms path)))
  | _ => lookup fs.perms

/-- What a call with the result `ok` does. -/
structure LogicalFs.Effect (H : Host Vol) (fs : LogicalFs Vol) (op : Op) (ok : Bool)
    (fs' : LogicalFs Vol) : Prop where
  ledger : Change H.toLowercase op.opens (fs.removes H op) fs.ledger fs'.ledger
  disk : ∃ calls, H.Makes fs.disk calls fs'.disk ∧ ∀ c ∈ calls, fs.mayCall H ok op c
  perms : lookup fs'.perms = fs.permsAfter ok op
  marks : ∀ path, fs.marked path →
    (∀ fd pid, op = .close fd pid → fs.fds.entry pid fd ≠ some path) → fs'.marked path

namespace LogicalFs

variable {H : Host Vol} {fs fs' : LogicalFs Vol} {path : Path} {pid : Pid} {fd : Nat} {uid gid : UInt32}

/-- The tables are as they were, up to cursors and new marks. -/
structure Kept (fs fs' : LogicalFs Vol) : Prop where
  ledger : fs'.ledger = fs.ledger
  marks : KeepsMarks fs.fcbs fs'.fcbs

theorem Kept.of_eq (hfcbs : fs'.fcbs = fs.fcbs) (hentry : fs'.fds.entry = fs.fds.entry) :
    fs.Kept fs' where
  ledger := by
    refine Ledger.ext ?_ hentry
    show (fun p => (lookup fs'.fcbs p).map Fcb.lock) = _
    rw [hfcbs]
    rfl
  marks := fun _ fcb hfcb hmark => ⟨fcb, hfcbs ▸ hfcb, hmark⟩

variable {disk disk' : Vol} {res : Except FsError Unit} {op : Op} {ok : Bool} {fatPath : Path}
  {c : Call} {fcb : Fcb}

theorem Kept.of_insert {fcb' : Fcb} (hfcb : lookup fs.fcbs path = some fcb)
    (hfcbs : fs'.fcbs = fs.fcbs.insert path fcb') (hlock : fcb'.lock = fcb.lock)
    (hshared : fcb.isShared = true → fcb'.isShared = true)
    (hentry : fs'.fds.entry = fs.fds.entry) : fs.Kept fs' where
  ledger := by
    refine Ledger.ext ?_ hentry
    show (fun p => (lookup fs'.fcbs p).map Fcb.lock) = _
    rw [hfcbs]
    exact fcb_insert_same hfcb hlock
  marks := by
    rw [hfcbs]
    refine keepsMarks_insert fun old hold hmark => hshared ?_
    cases hfcb.symm.trans hold
    exact hmark

/-- A call that leaves the tables. -/
theorem Effect.of_kept {calls : List (Call × Bool)}
    (hmakes : H.Makes fs.disk calls fs'.disk) (hmay : ∀ c ∈ calls, fs.mayCall H ok op c)
    (hkept : fs.Kept fs') (hperms : lookup fs'.perms = fs.permsAfter ok op) :
    fs.Effect H op ok fs' where
  ledger := change_of_eq hkept.ledger
  disk := ⟨calls, hmakes, hmay⟩
  perms := hperms
  marks := fun path ⟨fcb, hfcb, hmark⟩ _ => hkept.marks path fcb hfcb hmark

/-- One that makes no call of `fatfs`. -/
theorem Effect.refused (hkept : fs.Kept fs')
    (hdisk : fs'.disk = fs.disk) (hperms : lookup fs'.perms = fs.permsAfter ok op) :
    fs.Effect H op ok fs' := by
  have hnil : H.Makes fs.disk [] fs'.disk := by
    rw [hdisk]
    exact .nil
  exact Effect.of_kept hnil (nofun) hkept hperms

/-- One that makes a single call. -/
theorem Effect.called {ok' : Bool}
    (hdisk : fs.disk = some disk) (hrun : H.run disk c = (ok', disk'))
    (hdisk' : fs'.disk = some disk') (hmay : fs.mayCall H ok op (c, ok'))
    (hkept : fs.Kept fs') (hperms : lookup fs'.perms = fs.permsAfter ok op) :
    fs.Effect H op ok fs' := by
  refine Effect.of_kept ?_ (List.forall_mem_singleton.mpr hmay) hkept hperms
  rw [hdisk, hdisk']
  exact .one hrun

/-- One that makes two. -/
theorem Effect.calledTwice {ok' ok'' : Bool} {c' : Call} {disk'' : Vol}
    (hdisk : fs.disk = some disk) (hrun : H.run disk c = (ok', disk'))
    (hrun' : H.run disk' c' = (ok'', disk'')) (hdisk' : fs'.disk = some disk'')
    (hmay : fs.mayCall H ok op (c, ok')) (hmay' : fs.mayCall H ok op (c', ok''))
    (hkept : fs.Kept fs') (hperms : lookup fs'.perms = fs.permsAfter ok op) :
    fs.Effect H op ok fs' := by
  have hboth := List.forall_mem_cons.mpr ⟨hmay, List.forall_mem_singleton.mpr hmay'⟩
  refine Effect.of_kept ?_ hboth hkept hperms
  rw [hdisk, hdisk']
  exact (Fat.Makes.one hrun).append (.one hrun')

/-! ### Checks -/

theorem toFatPath_ok (h : toFatPath path = .ok fatPath) : fatPath = trimSlashes path := by
  unfold toFatPath at h
  split at h
  · exact (Except.ok.inj h).symm
  · cases h

theorem diskMut_ok (h : fs.diskMut = .ok disk) : fs.disk = some disk := by
  unfold diskMut at h
  split at h
  next disk' hdisk => exact hdisk.trans (congrArg some (Except.ok.inj h))
  · cases h

theorem fcb_ok (h : fs.fcb path = .ok fcb) : lookup fs.fcbs path = some fcb := by
  unfold LogicalFs.fcb at h
  split at h
  next old hold => exact Except.ok.inj h ▸ hold
  · cases h

theorem pathOf_ok (h : fs.pathOf fd pid = .ok path) : fs.fds.entry pid fd = some path := by
  unfold pathOf at h
  split at h
  next old hold => exact Except.ok.inj h ▸ hold
  · cases h

theorem not_marked_of_notShared (h : fs.notShared path = .ok ()) : ¬ fs.marked path := by
  rintro ⟨fcb, hfcb, hmark⟩
  unfold notShared at h
  rw [hfcb] at h
  dsimp only at h
  rw [if_pos hmark] at h
  cases h

theorem onDisk_ok (h : fs.onDisk path = .ok (fatPath, disk)) :
    fatPath = trimSlashes path ∧ fs.disk = some disk := by
  obtain ⟨fatPath', hpath, h⟩ := bind_eq_ok h
  obtain ⟨disk', hdisk, h⟩ := bind_eq_ok h
  cases Except.ok.inj h
  exact ⟨toFatPath_ok hpath, diskMut_ok hdisk⟩

theorem openChecks_ok (h : fs.openChecks H path uid gid = .ok (fatPath, disk)) :
    fs.caseConflict H path = false ∧ fatPath = trimSlashes path ∧ fs.disk = some disk := by
  obtain ⟨hconflict, h⟩ := guard_eq_ok h
  obtain ⟨_, _, h⟩ := bind_eq_ok h
  exact ⟨Bool.eq_false_iff.mpr hconflict, onDisk_ok h⟩

theorem createChecks_ok (h : fs.createChecks H path = .ok (fatPath, disk)) :
    fs.caseConflict H path = false ∧ fatPath = trimSlashes path ∧ fs.disk = some disk := by
  obtain ⟨hconflict, h⟩ := guard_eq_ok h
  exact ⟨Bool.eq_false_iff.mpr hconflict, onDisk_ok h⟩

/-- What `read` has checked. -/
theorem readChecks_ok (h : fs.readChecks fd pid uid gid = .ok (path, fcb, fatPath, disk)) :
    fs.fds.entry pid fd = some path ∧ lookup fs.fcbs path = some fcb ∧
      fatPath = trimSlashes path ∧ fs.disk = some disk := by
  obtain ⟨path', hentry, h⟩ := bind_eq_ok h
  obtain ⟨_, _, h⟩ := bind_eq_ok h
  obtain ⟨fcb', hfcb, h⟩ := bind_eq_ok h
  obtain ⟨fatPath', hfat, h⟩ := bind_eq_ok h
  obtain ⟨disk', hdisk, h⟩ := bind_eq_ok h
  cases Except.ok.inj h
  exact ⟨pathOf_ok hentry, fcb_ok hfcb, toFatPath_ok hfat, diskMut_ok hdisk⟩

/-- What `write` has checked. -/
theorem writeChecks_ok (h : fs.writeChecks fd pid uid gid = .ok (path, fcb, fatPath, disk)) :
    fs.fds.entry pid fd = some path ∧ lookup fs.fcbs path = some fcb ∧ fcb.isShared = false ∧
      fs.checkPerm path uid gid true = .ok () ∧ fatPath = trimSlashes path ∧
      fs.disk = some disk := by
  obtain ⟨path', hentry, h⟩ := bind_eq_ok h
  obtain ⟨fcb', hfcb, h⟩ := bind_eq_ok h
  obtain ⟨hshared, h⟩ := guard_eq_ok h
  obtain ⟨_, hperm, h⟩ := bind_eq_ok h
  obtain ⟨fatPath', hfat, h⟩ := bind_eq_ok h
  obtain ⟨disk', hdisk, h⟩ := bind_eq_ok h
  cases Except.ok.inj h
  exact ⟨pathOf_ok hentry, fcb_ok hfcb, Bool.eq_false_iff.mpr hshared, hperm, toFatPath_ok hfat,
    diskMut_ok hdisk⟩

/-- What `rename` has checked. -/
theorem renameChecks_ok {old new oldFat newFat : Path}
    (h : fs.renameChecks H old new = .ok (oldFat, newFat, disk)) :
    fs.notShared old = .ok () ∧ oldFat = trimSlashes old ∧ newFat = trimSlashes new ∧
      fs.disk = some disk := by
  obtain ⟨_, h⟩ := guard_eq_ok h
  obtain ⟨_, hshared, h⟩ := bind_eq_ok h
  obtain ⟨oldFat', hold, h⟩ := bind_eq_ok h
  obtain ⟨newFat', hnew, h⟩ := bind_eq_ok h
  obtain ⟨disk', hdisk, h⟩ := bind_eq_ok h
  cases Except.ok.inj h
  exact ⟨hshared, toFatPath_ok hold, toFatPath_ok hnew, diskMut_ok hdisk⟩

/-! ### Opening and closing -/

/-- The end of `open` and `create`, after a call of `fatfs`. -/
theorem acquire_effect {res : Except FsError Nat} {e : FsError}
    (hopens : op.opens = some path) (hperms : ∀ ok, fs.permsAfter ok op = lookup fs.perms)
    (hmay : ∀ ok ok', fs.mayCall H ok op (c, ok')) (hconflict : fs.caseConflict H path = false)
    (hdisk : fs.disk = some disk) (hrun : H.run disk c = (ok, disk'))
    (h : (if ok then acquire { fs with disk := some disk' } path pid
      else some (.error e, { fs with disk := some disk' })) = some (res, fs')) :
    fs.Effect H op res.isOk fs' := by
  generalize hfs : ({ fs with disk := some disk' } : LogicalFs Vol) = fs₁ at h
  split at h
  next hok =>
    have hledger : fs₁.ledger = fs.ledger := by rw [← hfs]; rfl
    obtain ⟨hsame, hsame', hmarks⟩ := acquire_frame h
    refine ⟨?_, ⟨[(c, ok)], ?_, List.forall_mem_singleton.mpr (hmay _ _)⟩, ?_, ?_⟩
    · rw [hopens, ← hledger]
      exact acquire_change h (by rw [← hfs]; exact hconflict)
    · rw [hdisk, hsame, ← hfs]
      exact .one hrun
    · rw [hperms, hsame', ← hfs]
    · rintro q ⟨fcb, hfcb, hmark⟩ _
      exact hmarks q fcb (by rw [← hfs]; exact hfcb) hmark
  · cases h
    rw [← hfs]
    exact .called hdisk hrun rfl (hmay _ _) (.of_eq rfl rfl) (hperms _).symm

/-- `open`. -/
theorem open_effect {res : Except FsError Nat}
    (h : fs.open H path pid uid gid = some (res, fs')) :
    fs.Effect H (.openPath path pid uid gid) res.isOk fs' := by
  unfold LogicalFs.open at h
  split at h
  · cases h
    exact .refused (.of_eq rfl rfl) rfl rfl
  next fatPath disk hchecks =>
    obtain ⟨hconflict, rfl, hdisk⟩ := openChecks_ok hchecks
    have hrun : H.run disk (.openFile (trimSlashes path)) = _ := rfl
    exact acquire_effect rfl (fun _ => rfl) (fun _ _ => rfl) hconflict hdisk hrun h

/-- `create`. -/
theorem create_effect {res : Except FsError Nat} (h : fs.create H path pid = some (res, fs')) :
    fs.Effect H (.create path pid) res.isOk fs' := by
  unfold create at h
  split at h
  · cases h
    exact .refused (.of_eq rfl rfl) rfl rfl
  next fatPath disk hchecks =>
    obtain ⟨hconflict, rfl, hdisk⟩ := createChecks_ok hchecks
    have hrun : H.run disk (.createFile (trimSlashes path)) = _ := rfl
    exact acquire_effect rfl (fun _ => rfl) (fun _ _ => rfl) hconflict hdisk hrun h

/-- `close`. -/
theorem close_effect (h : fs.close fd pid = some (res, fs')) :
    fs.Effect H (.close fd pid) res.isOk fs' := by
  obtain ⟨hdisk, hperms⟩ := close_frame h
  refine ⟨close_change h, ⟨[], hdisk ▸ .nil, nofun⟩,
    congrArg lookup hperms, ?_⟩
  rintro q ⟨fcb, hfcb, hmark⟩ hopen
  exact ⟨fcb, (close_fcbs h (hopen fd pid rfl)).trans hfcb, hmark⟩

/-! ### Through a descriptor -/

theorem withTable_entry : (fs.withTable pid).fds.entry = fs.fds.entry :=
  (FdRegistry.tableFor_spec fs.fds pid).1

/-- `read`. -/
theorem read_effect {len : Nat} {res : Except FsError (List UInt8)}
    (h : fs.read H fd pid uid gid len = some (res, fs')) :
    fs.Effect H (.read fd pid uid gid len) res.isOk fs' := by
  have htable : fs.Kept (fs.withTable pid) := .of_eq rfl withTable_entry
  unfold read at h
  dsimp only at h
  split at h
  -- The checks before the disk is used.
  · cases h
    exact .refused htable rfl rfl
  next path fcb fatPath disk hchecks =>
    obtain ⟨hentry, hfcb, rfl, hdisk⟩ := readChecks_ok hchecks
    rw [withTable_entry] at hentry
    -- `open_file`, and the read if the file is there.
    have hrun : H.run disk (.openFile (trimSlashes path)) = _ := rfl
    have hmay : ∀ ok ok', fs.mayCall H ok (.read fd pid uid gid len)
        (.openFile (trimSlashes path), ok') := fun _ _ => ⟨path, hentry, .inl rfl⟩
    split at h
    · have hrun' : H.run (H.openFile disk (trimSlashes path)).2
          (.readAt (trimSlashes path) fcb.cursor len) = _ := rfl
      have hmay' : ∀ ok ok', fs.mayCall H ok (.read fd pid uid gid len)
          (.readAt (trimSlashes path) fcb.cursor len, ok') :=
        fun _ _ => ⟨path, hentry, .inr ⟨fcb.cursor, rfl⟩⟩
      split at h
      · cases h
        exact .calledTwice hdisk hrun hrun' rfl (hmay _ _) (hmay' _ _) (.of_eq rfl withTable_entry) rfl
      -- Only a read that succeeds moves the cursor.
      next bytes _ =>
        obtain ⟨cursor, _, heq⟩ := map_inv h
        cases heq
        refine .calledTwice hdisk hrun hrun' rfl (hmay _ _) (hmay' _ _) ?_ rfl
        exact .of_insert hfcb rfl rfl id withTable_entry
    · cases h
      exact .called hdisk hrun rfl (hmay _ _) (.of_eq rfl withTable_entry) rfl

/-- `write`. -/
theorem write_effect {buf : List UInt8} {res : Except FsError Nat}
    (h : fs.write H fd pid uid gid buf = some (res, fs')) :
    fs.Effect H (.write fd pid uid gid buf) res.isOk fs' := by
  have htable : fs.Kept (fs.withTable pid) := .of_eq rfl withTable_entry
  unfold write at h
  dsimp only at h
  split at h
  · cases h
    exact .refused htable rfl rfl
  next path fcb fatPath disk hchecks =>
    obtain ⟨hentry, hfcb, hshared, hperm, rfl, hdisk⟩ := writeChecks_ok hchecks
    rw [withTable_entry] at hentry
    have hrun : H.run disk (.openFile (trimSlashes path)) = _ := rfl
    -- That it is not shared and the caller may write was checked before the first call.
    have hmay : ∀ ok ok', fs.mayCall H ok (.write fd pid uid gid buf)
        (.openFile (trimSlashes path), ok') :=
      fun _ _ => ⟨path, fcb, hentry, hfcb, hshared, hperm, .inl rfl⟩
    split at h
    · have hrun' : H.run (H.openFile disk (trimSlashes path)).2
          (.writeAt (trimSlashes path) fcb.cursor buf) = _ := rfl
      have hmay' : ∀ ok ok', fs.mayCall H ok (.write fd pid uid gid buf)
          (.writeAt (trimSlashes path) fcb.cursor buf, ok') :=
        fun _ _ => ⟨path, fcb, hentry, hfcb, hshared, hperm, .inr rfl⟩
      split at h
      next =>
        -- Only a write that succeeds moves the cursor.
        obtain ⟨cursor, _, heq⟩ := map_inv h
        cases heq
        refine .calledTwice hdisk hrun hrun' rfl (hmay _ _) (hmay' _ _) ?_ rfl
        exact .of_insert hfcb rfl rfl id withTable_entry
      · cases h
        exact .calledTwice hdisk hrun hrun' rfl (hmay _ _) (hmay' _ _) (.of_eq rfl withTable_entry) rfl
    · cases h
      exact .called hdisk hrun rfl (hmay _ _) (.of_eq rfl withTable_entry) rfl

theorem seek_effect {offset : Nat} (h : fs.seek fd pid offset = some (res, fs')) :
    fs.Effect H (.seek fd pid offset) res.isOk fs' := by
  unfold seek at h
  dsimp only at h
  split at h
  · cases h
    exact .refused (.of_eq rfl withTable_entry) rfl rfl
  next path fcb hchecks =>
    cases h
    obtain ⟨path', _, hchecks⟩ := bind_eq_ok hchecks
    obtain ⟨fcb', hfcb, hchecks⟩ := bind_eq_ok hchecks
    cases Except.ok.inj hchecks
    exact .refused (.of_insert (fcb_ok hfcb) rfl rfl id withTable_entry) rfl rfl

/-! ### By path -/

/-- A deletion, with the call it rests on. -/
theorem delete_cases (h : fs.delete H path = some (res, fs')) : (res.isOk = false ∧ fs' = fs) ∨
      ∃ disk, fs.deleteChecks path = .ok (trimSlashes path, disk) ∧ fs.disk = some disk ∧
        fs.notShared path = .ok () ∧ res.isOk = (H.remove disk (trimSlashes path)).1 ∧
        fs' = if res.isOk then
            { fs with
              fcbs := fs.fcbs.erase path
              perms := fs.perms.erase path
              disk := some (H.remove disk (trimSlashes path)).2 }
          else { fs with disk := some (H.remove disk (trimSlashes path)).2 } := by
  unfold delete at h
  split at h
  · cases h
    exact .inl ⟨rfl, rfl⟩
  next fatPath disk hchecks =>
    obtain ⟨_, hshared, honDisk⟩ := bind_eq_ok hchecks
    obtain ⟨rfl, hdisk⟩ := onDisk_ok honDisk
    refine .inr ⟨disk, hchecks, hdisk, hshared, ?_⟩
    dsimp only at h
    split at h
    next hok => cases h; exact ⟨hok.symm, rfl⟩
    next hok => cases h; exact ⟨(Bool.eq_false_iff.mpr hok).symm, rfl⟩

/-- `delete`. -/
theorem delete_effect (h : fs.delete H path = some (res, fs')) :
    fs.Effect H (.delete path) res.isOk fs' := by
  rcases delete_cases h with ⟨hok, rfl⟩ | ⟨disk, hchecks, hdisk, hshared, hok, rfl⟩
  · rw [hok]
    exact .refused (.of_eq rfl rfl) rfl rfl
  · have hmakes : H.Makes fs.disk [(.remove (trimSlashes path), res.isOk)]
        (some (H.remove disk (trimSlashes path)).2) := by
      rw [hdisk]
      exact .one (Prod.ext hok.symm rfl)
    have hmay : ∀ c ∈ [(Call.remove (trimSlashes path), res.isOk)],
        fs.mayCall H res.isOk (.delete path) c := List.forall_mem_singleton.mpr ⟨hshared, rfl⟩
    split
    -- The file is gone, and with it its FCB and its permissions.
    next hdone =>
      refine ⟨change_of_tables (.drop ?_) fcb_erase rfl, ⟨_, hmakes, hmay⟩, ?_, ?_⟩
      · dsimp only [removes]
        rw [hchecks]
        exact if_pos (hok.symm.trans hdone)
      · dsimp only [permsAfter]
        rw [lookup_erase, if_pos hdone]
      -- A shared file is not deleted, so the marks stay.
      · rintro q ⟨fcb, hfcb, hmark⟩ _
        have hne : q ≠ path := fun heq => not_marked_of_notShared hshared (heq ▸ ⟨fcb, hfcb, hmark⟩)
        exact ⟨fcb, by dsimp only; rw [lookup_erase, update_of_ne hne, hfcb], hmark⟩
    next hdone =>
      refine ⟨.same, ⟨_, hmakes, hmay⟩, ?_, fun _ hmark _ => hmark⟩
      dsimp only [permsAfter]
      rw [if_neg hdone]

/-- `rename`. -/
theorem rename_effect {old new : Path} (h : fs.rename H old new = some (res, fs')) :
    fs.Effect H (.rename old new) res.isOk fs' := by
  unfold rename at h
  split at h
  · cases h
    exact .refused (.of_eq rfl rfl) rfl rfl
  next oldFat newFat disk hchecks =>
    obtain ⟨hshared, rfl, rfl, hdisk⟩ := renameChecks_ok hchecks
    generalize hrun : H.rename disk (trimSlashes old) (trimSlashes new) = r at h
    obtain ⟨ok, disk'⟩ := r
    replace hrun : H.run disk (.rename (trimSlashes old) (trimSlashes new)) = (ok, disk') := hrun
    cases ok <;> (cases h; exact .called hdisk hrun rfl ⟨hshared, rfl⟩ (.of_eq rfl rfl) rfl)

theorem markShared_effect (h : fs.markShared path = some (res, fs')) :
    fs.Effect H (.markShared path) res.isOk fs' := by
  unfold markShared at h
  split at h
  next fcb hfcb =>
    cases h
    exact .refused (.of_insert hfcb rfl rfl (fun _ => rfl) rfl) rfl rfl
  · cases h
    exact .refused (.of_eq rfl rfl) rfl rfl

theorem mkdir_effect (h : fs.mkdir H path = some (res, fs')) :
    fs.Effect H (.mkdir path) res.isOk fs' := by
  unfold mkdir at h
  split at h
  · cases h
    exact .refused (.of_eq rfl rfl) rfl rfl
  next fatPath disk hchecks =>
    obtain ⟨rfl, hdisk⟩ := onDisk_ok (guard_eq_ok hchecks).2
    have hrun : H.run disk (.createDir (trimSlashes path)) = _ := rfl
    dsimp only at h
    split at h <;> (cases h; exact .called hdisk hrun rfl rfl (.of_eq rfl rfl) rfl)

theorem rmdir_effect (h : fs.rmdir H path = some (res, fs')) :
    fs.Effect H (.rmdir path) res.isOk fs' := by
  unfold rmdir at h
  split at h
  · cases h
    exact .refused (.of_eq rfl rfl) rfl rfl
  next fatPath disk hchecks =>
    obtain ⟨rfl, hdisk⟩ := onDisk_ok hchecks
    obtain ⟨⟨ok, disk'⟩, hremove, heq⟩ := map_inv h
    cases heq
    obtain ⟨calls, hmakes, hcalls⟩ := removeDirRecursive_makes hremove
    exact ⟨.same, ⟨calls, hdisk ▸ hmakes, hcalls⟩, rfl, fun _ hmark _ => hmark⟩

theorem getdents_effect {res : Except FsError (List (Path × Bool))}
    (h : fs.getdents H path = some (res, fs')) : fs.Effect H (.getdents path) res.isOk fs' := by
  unfold getdents at h
  split at h
  · cases h
    exact .refused (.of_eq rfl rfl) rfl rfl
  next fatPath disk hchecks =>
    obtain ⟨rfl, hdisk⟩ := onDisk_ok hchecks
    have hrun : H.run disk (.openDir (trimSlashes path)) = _ := rfl
    dsimp only at h
    split at h <;> (cases h; exact .called hdisk hrun rfl rfl (.of_eq rfl rfl) rfl)

/-- The second call of `stat`. -/
theorem statOnDisk_second (F : Fat Vol) (disk : Vol) (p : Path) :
    ∃ c, (c = .size p ∨ c = .openDir p) ∧
      (statOnDisk F disk p).2 = (F.run (F.openFile disk p).2 c).2 := by
  unfold statOnDisk
  dsimp only
  by_cases hok : (F.openFile disk p).1 = true
  · refine ⟨.size p, .inl rfl, ?_⟩
    rw [if_pos hok]
    split <;> rename_i heq <;> (dsimp only [Fat.run]; rw [heq])
  · refine ⟨.openDir p, .inr rfl, ?_⟩
    rw [if_neg hok]
    split <;> rename_i heq <;> (dsimp only [Fat.run]; rw [heq])

theorem stat_effect {res : Except FsError Stat} (h : fs.stat H path = some (res, fs')) :
    fs.Effect H (.stat path) res.isOk fs' := by
  unfold stat at h
  split at h
  · cases h
    exact .refused (.of_eq rfl rfl) rfl rfl
  next fatPath disk hchecks =>
    obtain ⟨rfl, hdisk⟩ := onDisk_ok hchecks
    obtain ⟨c, hc, hsecond⟩ := statOnDisk_second H.toFat disk (trimSlashes path)
    have hrun : H.run disk (.openFile (trimSlashes path)) = _ := rfl
    have hrun' : H.run (H.openFile disk (trimSlashes path)).2 c = _ := rfl
    cases h
    exact .calledTwice hdisk hrun hrun' (congrArg some hsecond) (.inl rfl) (.inr hc)
      (.of_eq rfl rfl) rfl

/-! ### Permissions -/

theorem sysChmod_effect {mode : Nat} (h : fs.sysChmod path mode = some (res, fs')) :
    fs.Effect H (.chmod path mode) res.isOk fs' := by
  unfold sysChmod chmod at h
  dsimp only at h
  split at h
  next entry hentry =>
    cases h
    refine .refused (.of_eq rfl rfl) rfl ?_
    dsimp only [permsAfter]
    rw [lookup_insert, hentry]
    rfl
  next hnone =>
    cases h
    refine .refused (.of_eq rfl rfl) rfl ?_
    dsimp only [permsAfter]
    rw [hnone, Option.map_none, ← hnone, update_eq_self]

theorem sysChown_effect {uid' gid' : UInt32} (h : fs.sysChown path uid' gid' = some (res, fs')) :
    fs.Effect H (.chown path uid' gid') res.isOk fs' := by
  unfold sysChown at h
  cases h
  refine .refused (.of_eq rfl rfl) rfl ?_
  dsimp only [permsAfter]
  rw [lookup_insert]
  cases lookup fs.perms path <;> rfl

/-- **What every call does.** -/
theorem call_effect (h : fs.call H op = some (ok, fs')) : fs.Effect H op ok fs' := by
  cases op <;> dsimp only [call, Outcome.ran] at h <;>
    obtain ⟨⟨res, _⟩, hop, heq⟩ := map_inv h <;> cases heq
  case openPath => exact open_effect hop
  case create => exact create_effect hop
  case close => exact close_effect hop
  case read => exact read_effect hop
  case write => exact write_effect hop
  case seek => exact seek_effect hop
  case delete => exact delete_effect hop
  case rename => exact rename_effect hop
  case markShared => exact markShared_effect hop
  case mkdir => exact mkdir_effect hop
  case rmdir => exact rmdir_effect hop
  case getdents => exact getdents_effect hop
  case stat => exact stat_effect hop
  case chmod => exact sysChmod_effect hop
  case chown => exact sysChown_effect hop

theorem step_effect (h : fs.step H op = some fs') : ∃ ok, fs.Effect H op ok fs' := by
  obtain ⟨⟨ok, _⟩, hcall, rfl⟩ := map_inv h
  exact ⟨ok, call_effect hcall⟩

end LogicalFs

end AlaphiOS.Fs
