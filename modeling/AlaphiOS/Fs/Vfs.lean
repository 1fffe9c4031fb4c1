import AlaphiOS.Fs.Tables

/-!
# The logical file system

`LogicalFs` of `kernel/src/fs/vfs.rs` with the permission table of
`kernel/src/fs/overlay.rs`, and the two syscalls of
`kernel/src/syscall/dispatch.rs` that work on the permissions (`SYS_CHMOD`,
`SYS_CHOWN`).

Mirroring notes:
- `fatfs` and the disk under it are a parameter: a volume and what each call
  returns and leaves. A `File` or `Dir` lives for one call; a `File` is always
  moved to the cursor first, so `seek` and `read` (or `write_all`) are one
  operation. Nothing is assumed of the calls here.
- `str::to_lowercase` is a parameter too. The theorems hold for every such
  function.
- An operation gives its result and the state it leaves, which can change before
  an error. `none` is a panic: a counter that overflows, or a recursion of
  `remove_dir_recursive` deeper than the kernel stack.
- What an operation checks before its first call of `fatfs` is a function of its
  own (`openChecks` and so on), in the order of the source.
- `auth` is left out: no operation here reads it.
-/

namespace AlaphiOS.Fs

open Std AlaphiOS.Lib

/-- `FsError`. -/
inductive FsError where
  | notFound
  | alreadyExists
  | permissionDenied
  | locked
  | isShared
  | notOpen
  | invalidPath
  | notMounted
  deriving DecidableEq

/-! ## Permissions -/

/-- `rwx` bits: bit 2 is read, bit 1 is write. -/
structure Rwx where
  bits : UInt8
  deriving DecidableEq

/-- `can_read`. -/
def Rwx.canRead (rwx : Rwx) : Bool := rwx.bits &&& 0b100 != 0

/-- `can_write`. -/
def Rwx.canWrite (rwx : Rwx) : Bool := rwx.bits &&& 0b010 != 0

/-- Owner and bits of a path. -/
structure PermEntry where
  uid : UInt32
  gid : UInt32
  ownerRwx : Rwx
  groupRwx : Rwx
  worldRwx : Rwx
  deriving DecidableEq

/-- The bits that hold for a process. -/
def PermEntry.rwxFor (entry : PermEntry) (uid gid : UInt32) : Rwx :=
  if uid = entry.uid then entry.ownerRwx
  else if gid = entry.gid then entry.groupRwx
  else entry.worldRwx

abbrev PermsDb := TreeMap Path PermEntry

/-! ## State -/

/-- The calls of `fatfs` that the operations make, on paths from the root. Each
gives its result (a flag or `none` for an error) and the volume it leaves. -/
structure Fat (Vol : Type) where
  openFile : Vol → Path → Bool × Vol
  createFile : Vol → Path → Bool × Vol
  createDir : Vol → Path → Bool × Vol
  remove : Vol → Path → Bool × Vol
  rename : Vol → Path → Path → Bool × Vol
  /-- `open_dir` and its `iter`: the names, and which of them are directories. -/
  openDir : Vol → Path → Option (List (Path × Bool)) × Vol
  /-- `seek(SeekFrom::End(0))` on an opened file. -/
  size : Vol → Path → Option Nat × Vol
  /-- `seek` to an offset and `read` into a buffer of a length. -/
  readAt : Vol → Path → Nat → Nat → Option (List UInt8) × Vol
  /-- `seek` to an offset and `write_all`. -/
  writeAt : Vol → Path → Nat → List UInt8 → Bool × Vol

/-- What the code runs on. -/
structure Host (Vol : Type) extends Fat Vol where
  toLowercase : Path → Path
  /-- How many nested calls of `remove_dir_recursive` the kernel stack holds. -/
  stackDepth : Nat

/-- The tables and the disk. -/
structure LogicalFs (Vol : Type) where
  fcbs : FcbTable
  fds : FdRegistry
  perms : PermsDb
  disk : Option Vol

/-- What an operation returns and the state it leaves. -/
abbrev Outcome (Vol α : Type) := Option (Except FsError α × LogicalFs Vol)

/-- `path.trim_start_matches('/')`. -/
def trimSlashes (path : Path) : Path := path.dropWhile (· = '/')

/-- `to_fat_path`. -/
def toFatPath (path : Path) : Except FsError Path :=
  if path.head? = some '/' then .ok (trimSlashes path) else .error .invalidPath

section

variable {Vol : Type} (H : Host Vol) (fs : LogicalFs Vol)

/-- `LogicalFs::new` and `mount_disk`; the permissions are those loaded at boot. -/
def LogicalFs.mounted (perms : PermsDb) (disk : Option Vol) : LogicalFs Vol := ⟨∅, ∅, perms, disk⟩

/-- `disk_mut`. -/
def LogicalFs.diskMut : Except FsError Vol :=
  match fs.disk with
  | some disk => .ok disk
  | none => .error .notMounted

/-- An open path that differs from this one, but not in lower case. -/
def LogicalFs.caseConflict (path : Path) : Bool :=
  fs.fcbs.keys.any fun p => p ≠ path ∧ H.toLowercase p = H.toLowercase path

/-- `check_perm`. -/
def LogicalFs.checkPerm (path : Path) (uid gid : UInt32) (wantWrite : Bool) : Except FsError Unit :=
  if uid = 0 then .ok ()
  else match lookup fs.perms path with
    | none => .ok ()
    | some entry =>
      let rwx := entry.rwxFor uid gid
      if wantWrite && !rwx.canWrite then .error .permissionDenied
      else if !wantWrite && !rwx.canRead then .error .permissionDenied
      else .ok ()

/-- `self.fcbs.get_mut(path).ok_or(FsError::NotOpen)`. -/
def LogicalFs.fcb (path : Path) : Except FsError Fcb :=
  match lookup fs.fcbs path with
  | some fcb => .ok fcb
  | none => .error .notOpen

/-- The path of a descriptor. -/
def LogicalFs.pathOf (fd : Nat) (pid : Pid) : Except FsError Path :=
  match fs.fds.entry pid fd with
  | some path => .ok path
  | none => .error .notOpen

/-- `if let Some(fcb) = self.fcbs.get_mut(path) { if fcb.is_shared { .. } }`. -/
def LogicalFs.notShared (path : Path) : Except FsError Unit :=
  match lookup fs.fcbs path with
  | some fcb => if fcb.isShared then .error .isShared else .ok ()
  | none => .ok ()

/-- `self.fds.table_for(pid)`, which makes a table for a new process. -/
def LogicalFs.withTable (pid : Pid) : LogicalFs Vol := { fs with fds := (fs.fds.tableFor pid).1 }

/-! ## Opening and closing -/

/-- The end of `open` and `create`: lock the path and give it a descriptor. -/
def LogicalFs.acquire (path : Path) (pid : Pid) : Outcome Vol Nat :=
  let (fcbs, fcb) := FcbTable.open fs.fcbs path
  if fcb.lockedBy.isSome then some (.error .locked, { fs with fcbs := fcbs })
  else
    (u32Add fcb.openCount 1).bind fun openCount =>
      ((fs.fds.tableFor pid).2.alloc path).map fun (table, fd) =>
        (.ok fd, { fs with
          fcbs := fcbs.insert path { fcb with lockedBy := some pid, openCount := openCount }
          fds := (fs.fds.tableFor pid).1.put pid table })

/-- The checks of `open`. -/
def LogicalFs.openChecks (path : Path) (uid gid : UInt32) : Except FsError (Path × Vol) := do
  if fs.caseConflict H path then throw .alreadyExists
  fs.checkPerm path uid gid false
  let fatPath ← toFatPath path
  let disk ← fs.diskMut
  pure (fatPath, disk)

/-- `open`. -/
def LogicalFs.open (path : Path) (pid : Pid) (uid gid : UInt32) : Outcome Vol Nat :=
  match fs.openChecks H path uid gid with
  | .error e => some (.error e, fs)
  | .ok (fatPath, disk) =>
    let (ok, disk) := H.openFile disk fatPath
    let fs := { fs with disk := some disk }
    if ok then fs.acquire path pid else some (.error .notFound, fs)

/-- The checks of `create`. -/
def LogicalFs.createChecks (path : Path) : Except FsError (Path × Vol) := do
  if fs.caseConflict H path then throw .alreadyExists
  let fatPath ← toFatPath path
  let disk ← fs.diskMut
  pure (fatPath, disk)

/-- `create`. -/
def LogicalFs.create (path : Path) (pid : Pid) : Outcome Vol Nat :=
  match fs.createChecks H path with
  | .error e => some (.error e, fs)
  | .ok (fatPath, disk) =>
    let (ok, disk) := H.createFile disk fatPath
    let fs := { fs with disk := some disk }
    if ok then fs.acquire path pid else some (.error .invalidPath, fs)

/-- `close`. -/
def LogicalFs.close (fd : Nat) (pid : Pid) : Outcome Vol Unit :=
  match fs.fds.entry pid fd with
  | none => some (.error .notOpen, fs.withTable pid)
  | some path =>
    let fs := { fs with
      fds := (fs.fds.tableFor pid).1.put pid ((fs.fds.tableFor pid).2.remove fd) }
    match lookup fs.fcbs path with
    | none => some (.ok (), fs)
    | some fcb =>
      let fcb := { fcb with
        openCount := fcb.openCount - 1
        lockedBy := if fcb.lockedBy = some pid then none else fcb.lockedBy }
      let fcbs := if fcb.openCount = 0 then fs.fcbs.erase path else fs.fcbs.insert path fcb
      some (.ok (), { fs with fcbs := fcbs })

/-! ## Through a descriptor -/

/-- The checks of `read`. -/
def LogicalFs.readChecks (fd : Nat) (pid : Pid) (uid gid : UInt32) :
    Except FsError (Path × Fcb × Path × Vol) := do
  let path ← fs.pathOf fd pid
  fs.checkPerm path uid gid false
  let fcb ← fs.fcb path
  let fatPath ← toFatPath path
  let disk ← fs.diskMut
  pure (path, fcb, fatPath, disk)

/-- `read`. -/
def LogicalFs.read (fd : Nat) (pid : Pid) (uid gid : UInt32) (len : Nat) : Outcome Vol (List UInt8) :=
  let fs := fs.withTable pid
  match fs.readChecks fd pid uid gid with
  | .error e => some (.error e, fs)
  | .ok (path, fcb, fatPath, disk) =>
    let (ok, disk) := H.openFile disk fatPath
    if ok then
      let (bytes, disk) := H.readAt disk fatPath fcb.cursor len
      let fs := { fs with disk := some disk }
      match bytes with
      | none => some (.error .invalidPath, fs)
      | some bytes =>
        (usizeAdd fcb.cursor bytes.length).map fun cursor =>
          (.ok bytes, { fs with fcbs := fs.fcbs.insert path { fcb with cursor := cursor } })
    else some (.error .notFound, { fs with disk := some disk })

/-- The checks of `write`. -/
def LogicalFs.writeChecks (fd : Nat) (pid : Pid) (uid gid : UInt32) :
    Except FsError (Path × Fcb × Path × Vol) := do
  let path ← fs.pathOf fd pid
  let fcb ← fs.fcb path
  if fcb.isShared then throw .isShared
  fs.checkPerm path uid gid true
  let fatPath ← toFatPath path
  let disk ← fs.diskMut
  pure (path, fcb, fatPath, disk)

/-- `write`. -/
def LogicalFs.write (fd : Nat) (pid : Pid) (uid gid : UInt32) (buf : List UInt8) : Outcome Vol Nat :=
  let fs := fs.withTable pid
  match fs.writeChecks fd pid uid gid with
  | .error e => some (.error e, fs)
  | .ok (path, fcb, fatPath, disk) =>
    let (ok, disk) := H.openFile disk fatPath
    if ok then
      let (written, disk) := H.writeAt disk fatPath fcb.cursor buf
      let fs := { fs with disk := some disk }
      if written then
        (usizeAdd fcb.cursor buf.length).map fun cursor =>
          (.ok buf.length, { fs with
            fcbs := fs.fcbs.insert path { fcb with cursor := cursor, dirty := true } })
      else some (.error .invalidPath, fs)
    else some (.error .notFound, { fs with disk := some disk })

/-- The checks of `seek`. -/
def LogicalFs.seekChecks (fd : Nat) (pid : Pid) : Except FsError (Path × Fcb) := do
  let path ← fs.pathOf fd pid
  let fcb ← fs.fcb path
  pure (path, fcb)

/-- `seek`. -/
def LogicalFs.seek (fd : Nat) (pid : Pid) (offset : Nat) : Outcome Vol Unit :=
  let fs := fs.withTable pid
  match fs.seekChecks fd pid with
  | .error e => some (.error e, fs)
  | .ok (path, fcb) =>
    some (.ok (), { fs with fcbs := fs.fcbs.insert path { fcb with cursor := offset } })

/-! ## By path -/

/-- `to_fat_path` and `disk_mut`. -/
def LogicalFs.onDisk (path : Path) : Except FsError (Path × Vol) := do
  let fatPath ← toFatPath path
  let disk ← fs.diskMut
  pure (fatPath, disk)

/-- The checks of `delete`. -/
def LogicalFs.deleteChecks (path : Path) : Except FsError (Path × Vol) := do
  fs.notShared path
  fs.onDisk path

/-- `delete`. -/
def LogicalFs.delete (path : Path) : Outcome Vol Unit :=
  match fs.deleteChecks path with
  | .error e => some (.error e, fs)
  | .ok (fatPath, disk) =>
    let (ok, disk) := H.remove disk fatPath
    let fs := { fs with disk := some disk }
    if ok then
      some (.ok (), { fs with fcbs := fs.fcbs.erase path, perms := fs.perms.erase path })
    else some (.error .notFound, fs)

/-- The checks of `rename`. -/
def LogicalFs.renameChecks (old new : Path) : Except FsError (Path × Path × Vol) := do
  if fs.caseConflict H new then throw .alreadyExists
  fs.notShared old
  let oldFat ← toFatPath old
  let newFat ← toFatPath new
  let disk ← fs.diskMut
  pure (oldFat, newFat, disk)

/-- `rename`. -/
def LogicalFs.rename (old new : Path) : Outcome Vol Unit :=
  match fs.renameChecks H old new with
  | .error e => some (.error e, fs)
  | .ok (oldFat, newFat, disk) =>
    let (ok, disk) := H.rename disk oldFat newFat
    let fs := { fs with disk := some disk }
    if ok then some (.ok (), fs) else some (.error .notFound, fs)

/-- `mark_shared`. -/
def LogicalFs.markShared (path : Path) : Outcome Vol Unit :=
  match lookup fs.fcbs path with
  | some fcb => some (.ok (), { fs with fcbs := fs.fcbs.insert path { fcb with isShared := true } })
  | none => some (.error .notFound, fs)

/-- The checks of `mkdir`. -/
def LogicalFs.mkdirChecks (path : Path) : Except FsError (Path × Vol) := do
  if fs.caseConflict H path then throw .alreadyExists
  fs.onDisk path

/-- `mkdir`. -/
def LogicalFs.mkdir (path : Path) : Outcome Vol Unit :=
  match fs.mkdirChecks H path with
  | .error e => some (.error e, fs)
  | .ok (fatPath, disk) =>
    let (ok, disk) := H.createDir disk fatPath
    let fs := { fs with disk := some disk }
    if ok then some (.ok (), fs) else some (.error .alreadyExists, fs)

/-! ## Directories -/

/-- The path of a directory's entry. -/
def childPath (fatPath name : Path) : Path :=
  if fatPath = [] then name else fatPath ++ '/' :: name

/-- Neither `.` nor `..`. -/
def isListed (entry : Path × Bool) : Bool := entry.1 ≠ ['.'] ∧ entry.1 ≠ ['.', '.']

/-- The loop of `remove_dir_recursive` over the entries. -/
def removeEntries (F : Fat Vol) (removeDir : Vol → Path → Option (Bool × Vol)) (fatPath : Path) :
    List (Path × Bool) → Vol → Option (Bool × Vol)
  | [], disk => some (true, disk)
  | (name, isDir) :: entries, disk =>
    let child := childPath fatPath name
    (if isDir then removeDir disk child else some (F.remove disk child)).bind fun (ok, disk) =>
      if ok then removeEntries F removeDir fatPath entries disk else some (false, disk)

/-- `remove_dir_recursive`; every error is `NotFound`. -/
def removeDirRecursive (F : Fat Vol) : Nat → Vol → Path → Option (Bool × Vol)
  | 0, _, _ => none
  | depth + 1, disk, fatPath =>
    match F.openDir disk fatPath with
    | (none, disk) => some (false, disk)
    | (some entries, disk) => do
      let (ok, disk) ←
        removeEntries F (removeDirRecursive F depth) fatPath (entries.filter isListed) disk
      if ok then some (F.remove disk fatPath) else some (false, disk)

/-- `rmdir`. -/
def LogicalFs.rmdir (path : Path) : Outcome Vol Unit :=
  match fs.onDisk path with
  | .error e => some (.error e, fs)
  | .ok (fatPath, disk) =>
    (removeDirRecursive H.toFat H.stackDepth disk fatPath).map fun (ok, disk) =>
      (if ok then .ok () else .error .notFound, { fs with disk := some disk })

/-- `getdents`. -/
def LogicalFs.getdents (path : Path) : Outcome Vol (List (Path × Bool)) :=
  match fs.onDisk path with
  | .error e => some (.error e, fs)
  | .ok (fatPath, disk) =>
    let (entries, disk) := H.openDir disk fatPath
    let fs := { fs with disk := some disk }
    match entries with
    | none => some (.error .notFound, fs)
    | some entries => some (.ok (entries.filter isListed), fs)

/-! ## Metadata -/

/-- What `stat` returns. -/
structure Stat where
  size : Nat
  isDir : Bool
  uid : UInt32
  gid : UInt32
  ownerRwx : UInt8
  groupRwx : UInt8
  worldRwx : UInt8

/-- The size, and whether the path is a directory. -/
def statOnDisk (F : Fat Vol) (disk : Vol) (fatPath : Path) : Except FsError (Nat × Bool) × Vol :=
  let (ok, disk) := F.openFile disk fatPath
  if ok then
    match F.size disk fatPath with
    | (some size, disk) => (.ok (size, false), disk)
    | (none, disk) => (.error .invalidPath, disk)
  else
    match F.openDir disk fatPath with
    | (some _, disk) => (.ok (0, true), disk)
    | (none, disk) => (.error .notFound, disk)

/-- `Stat`, with the permissions of the overlay or zeros. -/
def Stat.of (perm : Option PermEntry) (size : Nat) (isDir : Bool) : Stat :=
  match perm with
  | some e => ⟨size, isDir, e.uid, e.gid, e.ownerRwx.bits, e.groupRwx.bits, e.worldRwx.bits⟩
  | none => ⟨size, isDir, 0, 0, 0, 0, 0⟩

/-- `stat`. -/
def LogicalFs.stat (path : Path) : Outcome Vol Stat :=
  match fs.onDisk path with
  | .error e => some (.error e, fs)
  | .ok (fatPath, disk) =>
    let (res, disk) := statOnDisk H.toFat disk fatPath
    some (res.map fun (size, isDir) => Stat.of (lookup fs.perms path) size isDir,
      { fs with disk := some disk })

/-- `chmod`. -/
def LogicalFs.chmod (path : Path) (owner group world : UInt8) : Outcome Vol Unit :=
  match lookup fs.perms path with
  | some entry =>
    let entry := { entry with ownerRwx := ⟨owner⟩, groupRwx := ⟨group⟩, worldRwx := ⟨world⟩ }
    some (.ok (), { fs with perms := fs.perms.insert path entry })
  | none => some (.ok (), fs)

/-- `SYS_CHMOD`: the mode is cut to a byte first. -/
def LogicalFs.sysChmod (path : Path) (mode : Nat) : Outcome Vol Unit :=
  let bits := UInt8.ofNat mode
  fs.chmod path ((bits >>> 6) &&& 0b111) ((bits >>> 3) &&& 0b111) (bits &&& 0b111)

/-- `SYS_CHOWN`. -/
def LogicalFs.sysChown (path : Path) (uid gid : UInt32) : Outcome Vol Unit :=
  let entry :=
    match lookup fs.perms path with
    | some entry => { entry with uid := uid, gid := gid }
    | none => ⟨uid, gid, ⟨0b111⟩, ⟨0b101⟩, ⟨0b101⟩⟩
  some (.ok (), { fs with perms := fs.perms.insert path entry })

/-! ## Calls -/

/-- A call, with its arguments. -/
inductive Op where
  | openPath (path : Path) (pid : Pid) (uid gid : UInt32)
  | create (path : Path) (pid : Pid)
  | close (fd : Nat) (pid : Pid)
  | read (fd : Nat) (pid : Pid) (uid gid : UInt32) (len : Nat)
  | write (fd : Nat) (pid : Pid) (uid gid : UInt32) (buf : List UInt8)
  | seek (fd : Nat) (pid : Pid) (offset : Nat)
  | delete (path : Path)
  | rename (old new : Path)
  | markShared (path : Path)
  | mkdir (path : Path)
  | rmdir (path : Path)
  | getdents (path : Path)
  | stat (path : Path)
  | chmod (path : Path) (mode : Nat)
  | chown (path : Path) (uid gid : UInt32)

/-- Whether a call succeeded, and the state after it. -/
def Outcome.ran {α : Type} (o : Outcome Vol α) : Option (Bool × LogicalFs Vol) :=
  o.map fun (res, fs) => (res.isOk, fs)

/-- Make the call. -/
def LogicalFs.call : Op → Option (Bool × LogicalFs Vol)
  | .openPath path pid uid gid => (fs.open H path pid uid gid).ran
  | .create path pid => (fs.create H path pid).ran
  | .close fd pid => (fs.close fd pid).ran
  | .read fd pid uid gid len => (fs.read H fd pid uid gid len).ran
  | .write fd pid uid gid buf => (fs.write H fd pid uid gid buf).ran
  | .seek fd pid offset => (fs.seek fd pid offset).ran
  | .delete path => (fs.delete H path).ran
  | .rename old new => (fs.rename H old new).ran
  | .markShared path => (fs.markShared path).ran
  | .mkdir path => (fs.mkdir H path).ran
  | .rmdir path => (fs.rmdir H path).ran
  | .getdents path => (fs.getdents H path).ran
  | .stat path => (fs.stat H path).ran
  | .chmod path mode => (fs.sysChmod path mode).ran
  | .chown path uid gid => (fs.sysChown path uid gid).ran

/-- The state after a call, whatever it returned. -/
def LogicalFs.step (op : Op) : Option (LogicalFs Vol) := (fs.call H op).map Prod.snd

end

end AlaphiOS.Fs
