import AlaphiOS.Fs.Tree

/-!
# What a mode means

A mode has nine bits, three each for the owner, the group and the others. `ModeHolds` is what
`SYS_CHMOD` should leave behind: `stat` reports the three fields of the mode, and `check_perm` goes
by the field that is selected for the process.

`SYS_CHMOD` takes the mode as a byte, so the owner's read bit never arrives; and `chmod` of a path
without an entry in the permission table does nothing. Those are the only two reasons why a mode
does not hold (`chmod_takes_effect_iff`).
-/

namespace AlaphiOS.Fs

open Std AlaphiOS.Lib

/-- Three bits of a mode: field 2 is the owner's, 1 the group's, 0 that of the others. -/
def modeField (mode i : Nat) : Nat := mode / 8 ^ i % 8

/-- The field of a mode that applies to a process, by the owner and group of the file. -/
def modeFieldFor (mode : Nat) (owner group uid gid : UInt32) : Nat :=
  if uid = owner then modeField mode 2
  else if gid = group then modeField mode 1
  else modeField mode 0

section

variable {Vol : Type} (H : Host Vol)

/-- `stat` and `check_perm` see the mode as it was asked for. -/
def LogicalFs.ModeHolds (fs : LogicalFs Vol) (path : Path) (mode : Nat) : Prop :=
  ∃ st fs', fs.stat H path = some (.ok st, fs') ∧
    st.ownerRwx.toNat = modeField mode 2 ∧ st.groupRwx.toNat = modeField mode 1 ∧
    st.worldRwx.toNat = modeField mode 0 ∧
    ∀ uid gid, uid ≠ 0 →
      (fs.checkPerm path uid gid false = .ok () ↔
        (modeFieldFor mode st.uid st.gid uid gid).testBit 2 = true) ∧
      (fs.checkPerm path uid gid true = .ok () ↔
        (modeFieldFor mode st.uid st.gid uid gid).testBit 1 = true)

end

/-! ## The fields of a byte -/

theorem modeField_lt (mode i : Nat) : modeField mode i < 8 := Nat.mod_lt _ (by decide)

/-- What `SYS_CHMOD` cuts out of the byte. -/
theorem toNat_field (mode : Nat) :
    ((UInt8.ofNat mode >>> 6) &&& 0b111).toNat = modeField (mode % 256) 2 ∧
    ((UInt8.ofNat mode >>> 3) &&& 0b111).toNat = modeField (mode % 256) 1 ∧
    (UInt8.ofNat mode &&& 0b111).toNat = modeField (mode % 256) 0 := by
  have hlow : ∀ n : Nat, n &&& 7 = n % 8 := fun n => Nat.and_two_pow_sub_one_eq_mod n 3
  unfold modeField
  refine ⟨?_, ?_, ?_⟩ <;> simp [hlow, Nat.shiftRight_eq_div_pow]

/-- A mode that fits a byte loses nothing, any other loses the owner's read bit. -/
theorem modeField_byte {mode : Nat} (h : mode < 512) :
    (modeField (mode % 256) 2 = modeField mode 2 ↔ mode < 256) ∧
    modeField (mode % 256) 1 = modeField mode 1 ∧ modeField (mode % 256) 0 = modeField mode 0 := by
  unfold modeField
  omega

variable {rwx : Rwx}

theorem canRead_iff (h : rwx.bits.toNat < 8) : rwx.canRead = rwx.bits.toNat.testBit 2 := by
  have hall : ∀ n < 8, (UInt8.ofNat n &&& 0b100 != 0) = n.testBit 2 := by decide
  have hbits := hall _ h
  rwa [UInt8.ofNat_toNat] at hbits

theorem canWrite_iff (h : rwx.bits.toNat < 8) : rwx.canWrite = rwx.bits.toNat.testBit 1 := by
  have hall : ∀ n < 8, (UInt8.ofNat n &&& 0b010 != 0) = n.testBit 1 := by decide
  have hbits := hall _ h
  rwa [UInt8.ofNat_toNat] at hbits

/-- The bits that `SYS_CHMOD` leaves for a process are a field of the byte. -/
theorem setMode_rwxFor (entry : PermEntry) (mode : Nat) (uid gid : UInt32) :
    ((entry.setMode mode).rwxFor uid gid).bits.toNat
      = modeFieldFor (mode % 256) entry.uid entry.gid uid gid := by
  obtain ⟨howner, hgroup, hworld⟩ := toNat_field mode
  unfold PermEntry.rwxFor modeFieldFor
  by_cases huid : uid = entry.uid
  · rw [if_pos huid, if_pos (show uid = (entry.setMode mode).uid from huid)]
    exact howner
  · rw [if_neg huid, if_neg (show ¬ uid = (entry.setMode mode).uid from huid)]
    by_cases hgid : gid = entry.gid
    · rw [if_pos hgid, if_pos (show gid = (entry.setMode mode).gid from hgid)]
      exact hgroup
    · rw [if_neg hgid, if_neg (show ¬ gid = (entry.setMode mode).gid from hgid)]
      exact hworld

theorem modeFieldFor_lt (mode : Nat) (owner group uid gid : UInt32) :
    modeFieldFor mode owner group uid gid < 8 := by
  unfold modeFieldFor
  split
  · exact modeField_lt ..
  · split <;> exact modeField_lt ..

namespace LogicalFs

variable {Vol : Type} {H : Host Vol} {fs fs' : LogicalFs Vol} {path : Path} {mode : Nat}

/-! ## After a call -/

variable {st : Stat} {entry : PermEntry} {fs'' : LogicalFs Vol}

/-- `check_perm` with an entry goes by the bits for the process. -/
theorem checkPerm_entry {uid : UInt32} (gid : UInt32) (huid : uid ≠ 0)
    (hentry : lookup fs.perms path = some entry) :
    (fs.checkPerm path uid gid false = .ok () ↔ (entry.rwxFor uid gid).canRead = true) ∧
    (fs.checkPerm path uid gid true = .ok () ↔ (entry.rwxFor uid gid).canWrite = true) := by
  unfold checkPerm
  rw [if_neg huid, hentry]
  cases hread : (entry.rwxFor uid gid).canRead <;>
    cases hwrite : (entry.rwxFor uid gid).canWrite <;> simp [huid, hread, hwrite]

/-- What `stat` says of a file is what is on the disk, with the entry of the path. -/
theorem stat_of_perms {fs₁ : LogicalFs Vol} (h : fs.stat H path = some (.ok st, fs₁))
    (hdisk : fs'.disk = fs.disk) :
    ∃ fs'', fs'.stat H path
      = some (.ok (Stat.of (lookup fs'.perms path) st.size st.isDir), fs'') := by
  have honDisk : fs'.onDisk path = fs.onDisk path := by
    unfold onDisk diskMut
    rw [hdisk]
  unfold stat at h ⊢
  rw [honDisk]
  split at h
  · cases h
  next fatPath disk hchecks =>
    dsimp only at h ⊢
    cases hres : (statOnDisk H.toFat disk fatPath).1 with
    | error e =>
      rw [hres] at h
      cases h
    | ok r =>
      rw [hres] at h
      cases h
      refine ⟨_, congrArg some (Prod.ext (congrArg Except.ok ?_) rfl)⟩
      cases lookup fs.perms path <;> rfl

/-- `SYS_CHMOD` sets the bits of an entry, and makes none. -/
theorem sysChmod_inv {res : Except FsError Unit} (h : fs.sysChmod path mode = some (res, fs')) :
    fs'.disk = fs.disk ∧ lookup fs'.perms path = (lookup fs.perms path).map (.setMode mode) := by
  unfold sysChmod chmod at h
  dsimp only at h
  split at h
  next entry hentry =>
    cases h
    refine ⟨rfl, ?_⟩
    rw [lookup_insert, Function.update_self, hentry]
    rfl
  next hnone =>
    cases h
    exact ⟨rfl, by rw [hnone]; rfl⟩

/-- A byte of a mode holds for every path that has an entry. -/
theorem modeHolds_of_entry (hentry : lookup fs.perms path = some (entry.setMode mode))
    (hstat : fs.stat H path
      = some (.ok (Stat.of (some (entry.setMode mode)) st.size st.isDir), fs'')) :
    fs.ModeHolds H path (mode % 256) := by
  obtain ⟨howner, hgroup, hworld⟩ := toNat_field mode
  refine ⟨_, _, hstat, howner, hgroup, hworld, fun uid gid huid => ?_⟩
  have hbits := setMode_rwxFor entry mode uid gid
  have hlt : ((entry.setMode mode).rwxFor uid gid).bits.toNat < 8 := by
    rw [hbits]
    exact modeFieldFor_lt ..
  obtain ⟨hread, hwrite⟩ := checkPerm_entry gid huid hentry
  rw [hread, hwrite, canRead_iff hlt, canWrite_iff hlt, hbits]
  exact ⟨Iff.rfl, Iff.rfl⟩

/-- Without an entry everything is allowed, and `stat` says that nothing is. -/
theorem not_modeHolds_of_none (hnone : lookup fs.perms path = none)
    (hstat : fs.stat H path = some (.ok (Stat.of none st.size st.isDir), fs'')) :
    ¬ fs.ModeHolds H path mode := by
  intro ⟨st', _, hstat', howner, hgroup, hworld, hperm⟩
  obtain rfl : Stat.of none st.size st.isDir = st' := by
    rw [hstat] at hstat'
    cases hstat'
    rfl
  have hallowed : fs.checkPerm path 1 1 false = .ok () := by
    unfold checkPerm
    rw [if_neg (by decide), hnone]
  have hbit := (hperm 1 1 (by decide)).1.mp hallowed
  -- user 1 is neither owner nor group, so its field is the one that `stat` reports as 0
  have hfield : modeFieldFor mode 0 0 1 1 = 0 := hworld.symm
  rw [show modeFieldFor mode (Stat.of none st.size st.isDir).uid
    (Stat.of none st.size st.isDir).gid 1 1 = 0 from hfield] at hbit
  cases hbit

/-- **The modes that take effect**: those below 256, on paths that have an entry. -/
theorem chmod_takes_effect_iff (hmode : mode < 512)
    (hfile : ∃ st fs₁, fs.stat H path = some (.ok st, fs₁))
    (h : fs.sysChmod path mode = some (.ok (), fs')) :
    fs'.ModeHolds H path mode ↔ (lookup fs.perms path).isSome ∧ mode < 256 := by
  obtain ⟨st, fs₁, hstat⟩ := hfile
  obtain ⟨hdisk, hperms⟩ := sysChmod_inv h
  obtain ⟨fs'', hstat'⟩ := stat_of_perms hstat hdisk
  cases hentry : lookup fs.perms path with
  | none =>
    rw [hentry, Option.map_none] at hperms
    rw [hperms] at hstat'
    constructor
    · intro hholds
      exact absurd hholds (not_modeHolds_of_none hperms hstat')
    · intro hsome
      cases hsome.1
  | some entry =>
    rw [hentry, Option.map_some] at hperms
    rw [hperms] at hstat'
    have hbyte : fs'.ModeHolds H path (mode % 256) := modeHolds_of_entry hperms hstat'
    constructor
    · intro hholds
      refine ⟨rfl, ?_⟩
      obtain ⟨st', _, hst', howner, _⟩ := hholds
      obtain ⟨st'', _, hst'', howner', _⟩ := hbyte
      obtain rfl : st' = st'' := by
        rw [hst'] at hst''
        cases hst''
        rfl
      exact (modeField_byte hmode).1.mp (howner'.symm.trans howner)
    · intro hlt
      rwa [Nat.mod_eq_of_lt hlt.2] at hbyte

/-- A file of user 5. -/
def ownedFile : Option (LogicalFs TreeVol) :=
  exec (step treeHost) (mounted ∅ (some .empty))
    [.create "/a".toList 1, .close 3 1, .chown "/a".toList 5 5]

/-- On a file with an owner. -/
theorem chmod_takes_effect_ownedFile :
    ∃ fs fs', ownedFile = some fs ∧ fs.sysChmod "/a".toList 0o77 = some (.ok (), fs') ∧
      fs'.ModeHolds treeHost "/a".toList 0o77 := by
  have hfacts : ∃ fs ∈ ownedFile, (fs.stat treeHost "/a".toList).map (fun r => r.1.isOk) = some true ∧
      (lookup fs.perms "/a".toList).isSome ∧
      (fs.sysChmod "/a".toList 0o77).map (fun r => r.1.isOk) = some true := by decide +kernel
  obtain ⟨fs, hrun, hstat, hentry, hchmod⟩ := hfacts
  have hok : ∀ {α : Type} {o : Outcome TreeVol α}, o.map (fun r => r.1.isOk) = some true →
      ∃ a fs', o = some (.ok a, fs') := by
    intro α o ho
    obtain ⟨⟨res, fs'⟩, rfl, hres⟩ := map_inv ho
    cases res with
    | error e => cases hres
    | ok a => exact ⟨a, fs', rfl⟩
  obtain ⟨_, fs', hchmod⟩ := hok hchmod
  refine ⟨fs, fs', hrun, hchmod, ?_⟩
  exact (chmod_takes_effect_iff (by decide) (hok hstat) hchmod).mpr ⟨hentry, by decide⟩

/-- Mode 640 on that file: its owner can write it, and cannot read it. -/
theorem chmod_drops_owner_read :
    ∃ fs fs' st fs'', ownedFile = some fs ∧
      fs.sysChmod "/a".toList 0o640 = some (.ok (), fs') ∧
      fs'.stat treeHost "/a".toList = some (.ok st, fs'') ∧ st.ownerRwx = 0b010 ∧
      modeField 0o640 2 = 0b110 ∧
      fs'.checkPerm "/a".toList 5 5 false = .error .permissionDenied := by
  have hfacts : ∃ fs ∈ ownedFile, ∃ r ∈ fs.sysChmod "/a".toList 0o640, r.1.isOk = true ∧
      r.2.checkPerm "/a".toList 5 5 false = .error .permissionDenied ∧
      (r.2.stat treeHost "/a".toList).map (fun r => r.1.toOption.map Stat.ownerRwx)
        = some (some 0b010) := by decide +kernel
  obtain ⟨fs, hrun, ⟨res, fs'⟩, hchmod, hok, hdenied, hstat⟩ := hfacts
  cases res with
  | error e => cases hok
  | ok u =>
    obtain ⟨⟨res, fs''⟩, hstat, heq⟩ := map_inv hstat
    cases res with
    | error e => cases heq
    | ok st =>
      exact ⟨fs, fs', st, fs'', hrun, hchmod, hstat, Option.some.inj heq, by decide, hdenied⟩

end LogicalFs

end AlaphiOS.Fs
