import AlaphiOS.Fs.Descriptors
import AlaphiOS.Fs.Tree
import AlaphiOS.Io.Console
import AlaphiOS.Syscall.Dispatch

/-!
# Reading and writing through a descriptor

`SYS_READ` and `SYS_WRITE` of `kernel/src/syscall/dispatch.rs`, with `dev_read` and `dev_write`:
here by what they do to the file system and the console (`Syscall.Dispatch` has the locks they
take).

A descriptor below `DEV_FD_OFFSET` is looked up in the table of the process, one from there on is
a device. The numbers of files count up from three and closing a file does not give its number
back, so the two ranges meet: the 65534th file that a process opens has the number of the console.

Mirroring notes:
- The caller's pid, uid and gid are arguments. Of the buffer's address only matters whether it is
  null; the bytes that a call puts into the buffer are part of its result.
-/

namespace AlaphiOS.Syscall

open Lib Fs Io Function LogicalFs

/-- `CONSOLE_DEV`. -/
def consoleDev : Nat := 0

/-- What is behind the descriptors: `FS` and `CONSOLE`. -/
structure Files (Vol : Type) where
  fs : LogicalFs Vol
  term : Terminal

namespace Files

variable {Vol : Type} (H : Host Vol) (k : Files Vol)

/-- The loop of `dev_read` over a buffer of a length. -/
def getBytes (t : Terminal) : Nat → List UInt8 × Terminal
  | 0 => ([], t)
  | n + 1 =>
    match t.get with
    | (some ch, t) => let (bytes, t) := getBytes t n; (ch :: bytes, t)
    | (none, t) => ([], t)

/-- `dev_read`. -/
def devRead (devIdx len : Nat) : Int × List UInt8 × Files Vol :=
  if devIdx = consoleDev then
    let (bytes, term) := getBytes k.term len
    (if bytes.length = 0 then eagain else asI64 bytes.length, bytes, { k with term })
  else (enodev, [], k)

/-- `dev_write`. -/
def devWrite (devIdx : Nat) (buf : List UInt8) : Int × Files Vol :=
  if devIdx = consoleDev then (asI64 buf.length, { k with term := buf.foldl Terminal.put k.term })
  else (enodev, k)

/-- `match fs::FS.lock().read(..)`. -/
def fsRead (fd : Nat) (pid : Pid) (uid gid : UInt32) (len : Nat) :
    Option (Int × List UInt8 × Files Vol) :=
  (k.fs.read H fd pid uid gid len).map fun (res, fs) =>
    match res with
    | .ok bytes => (asI64 bytes.length, bytes, { k with fs })
    | .error e => (fsErr e, [], { k with fs })

/-- `match fs::FS.lock().write(..)`. -/
def fsWrite (fd : Nat) (pid : Pid) (uid gid : UInt32) (buf : List UInt8) :
    Option (Int × Files Vol) :=
  (k.fs.write H fd pid uid gid buf).map fun (res, fs) =>
    match res with
    | .ok n => (asI64 n, { k with fs })
    | .error e => (fsErr e, { k with fs })

/-- `SYS_READ`. -/
def sysRead (fd : Nat) (pid : Pid) (uid gid : UInt32) (bufPtr len : Nat) :
    Option (Int × List UInt8 × Files Vol) :=
  if len > 0 ∧ bufPtr = 0 then some (efault, [], k)
  else if fd ≥ devFdOffset then some (k.devRead (fd - devFdOffset) len)
  else k.fsRead H fd pid uid gid len

/-- `SYS_WRITE`. -/
def sysWrite (fd : Nat) (pid : Pid) (uid gid : UInt32) (bufPtr : Nat) (buf : List UInt8) :
    Option (Int × Files Vol) :=
  if buf.length > 0 ∧ bufPtr = 0 then some (efault, k)
  else if fd ≥ devFdOffset then some (k.devWrite (fd - devFdOffset) buf)
  else k.fsWrite H fd pid uid gid buf

/-- Both calls go to the file system, unless they are refused for their buffer. -/
def ReachesFile (fd : Nat) (pid : Pid) : Prop :=
  ∀ uid gid bufPtr,
    (∀ len, ¬ (len > 0 ∧ bufPtr = 0) →
      k.sysRead H fd pid uid gid bufPtr len = k.fsRead H fd pid uid gid len) ∧
    ∀ buf, ¬ (buf.length > 0 ∧ bufPtr = 0) →
      k.sysWrite H fd pid uid gid bufPtr buf = k.fsWrite H fd pid uid gid buf

/-- Both go to a device. -/
def ReachesDevice (fd : Nat) (pid : Pid) (devIdx : Nat) : Prop :=
  ∀ uid gid bufPtr,
    (∀ len, ¬ (len > 0 ∧ bufPtr = 0) →
      k.sysRead H fd pid uid gid bufPtr len = some (k.devRead devIdx len)) ∧
    ∀ buf, ¬ (buf.length > 0 ∧ bufPtr = 0) →
      k.sysWrite H fd pid uid gid bufPtr buf = some (k.devWrite devIdx buf)

variable {H k}

theorem reachesFile {fd : Nat} (h : fd < devFdOffset) (pid : Pid) : k.ReachesFile H fd pid := by
  intro uid gid bufPtr
  have hfile : ¬ fd ≥ devFdOffset := Nat.not_le_of_lt h
  refine ⟨fun len hbuf => ?_, fun buf hbuf => ?_⟩
  · unfold sysRead
    rw [if_neg hbuf, if_neg hfile]
  · unfold sysWrite
    rw [if_neg hbuf, if_neg hfile]

theorem reachesDevice {fd : Nat} (h : devFdOffset ≤ fd) (pid : Pid) :
    k.ReachesDevice H fd pid (fd - devFdOffset) := by
  intro uid gid bufPtr
  refine ⟨fun len hbuf => ?_, fun buf hbuf => ?_⟩
  · unfold sysRead
    rw [if_neg hbuf, if_pos h]
  · unfold sysWrite
    rw [if_neg hbuf, if_pos h]

end Files

open Files

variable {Vol : Type} {H : Host Vol}

theorem nextFd_mounted (perms : PermsDb) (disk : Option Vol) (pid : Pid) :
    (mounted perms disk).fds.nextFd pid = 3 := by
  rw [FdRegistry.nextFd_eq]
  unfold mounted
  rw [lookup_empty]
  rfl

variable {fs : LogicalFs Vol} {path : Path} {pid : Pid} {n : Nat}

/-- What an `open` or a `create` returned: the next number, for the path. -/
theorem descriptor_of_open {fs' : LogicalFs Vol} {fd : Nat}
    (h : (∃ uid gid, fs.open H path pid uid gid = some (.ok fd, fs')) ∨
      fs.create H path pid = some (.ok fd, fs')) :
    fd = fs.fds.nextFd pid ∧ fs'.fds.entry pid fd = some path := by
  rcases h with ⟨uid, gid, hopen⟩ | hcreate
  · obtain ⟨hchange, hfd⟩ := open_descriptors hopen
    obtain rfl := hfd fd rfl
    exact ⟨rfl, hchange.entry_opened rfl rfl⟩
  · obtain ⟨hchange, hfd⟩ := create_descriptors hcreate
    obtain rfl := hfd fd rfl
    exact ⟨rfl, hchange.entry_opened rfl rfl⟩

/-! ## Opening and closing one file -/

def onePath : Path := ['/', 'a']

/-- A volume with one file. -/
def oneFile : TreeVol := TreeVol.empty.put [['a']] (some (.file []))

/-- Process 1 opens the file and closes it, `n` times. -/
def openAndClose (n : Nat) : List Op :=
  (List.range n).flatMap fun i => [.openPath onePath 1 0 0, .close (3 + i) 1]

/-- After `n` times: nothing is open, and the numbers are used up. -/
structure Idle (n : Nat) (fs : LogicalFs TreeVol) : Prop where
  disk : fs.disk = some oneFile
  fcbs : lookup fs.fcbs = fun _ => none
  next : fs.fds.nextFd 1 = 3 + n

theorem open_of_checks {fatPath : Path} {uid gid : UInt32}
    {disk disk' : Vol} (hchecks : fs.openChecks H path uid gid = .ok (fatPath, disk))
    (hfile : H.openFile disk fatPath = (true, disk')) (pid : Pid) :
    fs.open H path pid uid gid = LogicalFs.acquire { fs with disk := some disk' } path pid := by
  simp only [LogicalFs.open, hchecks, hfile, if_true]

/-- A path that is not open can be locked. -/
theorem acquire_of_closed
    (hclosed : lookup fs.fcbs path = none) (hfew : fs.fds.nextFd pid + 1 < 2 ^ 64) :
    ∃ fs', fs.acquire path pid = some (.ok (fs.fds.nextFd pid), fs') ∧ fs'.disk = fs.disk ∧
      lookup fs'.fcbs = update (lookup fs.fcbs) path
        (some { Fcb.fresh with lockedBy := some pid, openCount := 1 }) := by
  have hnew : FcbTable.open fs.fcbs path = (fs.fcbs.insert path .fresh, .fresh) := by
    unfold FcbTable.open
    rw [hclosed]
  obtain ⟨table, halloc⟩ := ProcFdTable.alloc_of_lt hfew path
  unfold acquire
  rw [hnew, halloc]
  refine ⟨_, rfl, rfl, ?_⟩
  rw [lookup_insert, lookup_insert, update_idem]
  rfl

/-- Closing the only descriptor of a path forgets the path. -/
theorem close_of_only {fd : Nat} {fcb : Fcb}
    (hentry : fs.fds.entry pid fd = some path) (hfcb : lookup fs.fcbs path = some fcb)
    (honly : fcb.openCount = 1) :
    ∃ fs', fs.close fd pid = some (.ok (), fs') ∧ fs'.disk = fs.disk ∧
      lookup fs'.fcbs = update (lookup fs.fcbs) path none := by
  unfold close
  rw [hentry]
  dsimp only
  rw [hfcb]
  dsimp only
  rw [honly]
  exact ⟨_, rfl, rfl, lookup_erase⟩

theorem Idle.open {fs : LogicalFs TreeVol} (h : Idle n fs) (hn : 3 + n + 1 < 2 ^ 64) :
    ∃ fs', fs.open treeHost onePath 1 0 0 = some (.ok (3 + n), fs') ∧ fs'.disk = some oneFile ∧
      lookup fs'.fcbs = update (fun _ => none) onePath
        (some { Fcb.fresh with lockedBy := some 1, openCount := 1 }) := by
  have hconflict : fs.caseConflict treeHost onePath = false := by
    refine List.any_eq_false.mpr fun p hp => ?_
    obtain ⟨fcb, hfcb⟩ := mem_keys_iff.mp hp
    exact absurd hfcb (by rw [h.fcbs]; simp)
  have hchecks : fs.openChecks treeHost onePath 0 0 = .ok (['a'], oneFile) := by
    unfold openChecks diskMut
    rw [hconflict, h.disk]
    rfl
  have hfile : treeHost.openFile oneFile ['a'] = (true, oneFile) :=
    Prod.ext (by decide +kernel) rfl
  rw [open_of_checks hchecks hfile, ← h.fcbs, ← h.next]
  refine acquire_of_closed (congrFun h.fcbs onePath) ?_
  rw [show _ = 3 + n from h.next]
  exact hn

/-- One time more. -/
theorem Idle.again {fs : LogicalFs TreeVol} (h : Idle n fs) (hn : 3 + n + 1 < 2 ^ 64) :
    ∃ fs', runReplies (fun fs op => fs.call treeHost op) fs
        [.openPath onePath 1 0 0, .close (3 + n) 1] = some ([true, true], fs') ∧
      Idle (n + 1) fs' := by
  obtain ⟨fs₁, hopen, hdisk, hfcbs⟩ := h.open hn
  have hentry : fs₁.fds.entry 1 (3 + n) = some onePath :=
    (descriptor_of_open (.inl ⟨0, 0, hopen⟩)).2
  obtain ⟨fs₂, hclose, hdisk₂, hfcbs₂⟩ :=
    close_of_only hentry (by rw [hfcbs, update_self]) rfl
  have hrun : runReplies (fun fs op => fs.call treeHost op) fs
      [.openPath onePath 1 0 0, .close (3 + n) 1] = some ([true, true], fs₂) := by
    simp only [runReplies, call, Outcome.ran, hopen, hclose, Option.map_some,
      Option.bind_some]
    rfl
  refine ⟨fs₂, hrun, hdisk₂.trans hdisk, ?_, ?_⟩
  · rw [hfcbs₂, hfcbs, update_idem]
    exact update_eq_self onePath _
  · rw [nextFd_run hrun, h.next]
    rfl

theorem idle_openAndClose (hn : 3 + n < 2 ^ 64) :
    ∃ replies fs, runReplies (fun fs op => fs.call treeHost op) (mounted ∅ (some oneFile))
        (openAndClose n) = some (replies, fs) ∧ Idle n fs := by
  induction n with
  | zero => exact ⟨[], _, rfl, rfl, lookup_empty, nextFd_mounted ∅ (some oneFile) 1⟩
  | succ n ih =>
    obtain ⟨replies, fs, hrun, hidle⟩ := ih (by omega)
    obtain ⟨fs', hagain, hidle'⟩ := hidle.again hn
    refine ⟨replies ++ [true, true], fs', ?_, hidle'⟩
    unfold openAndClose
    rw [List.range_succ, List.flatMap_append, List.flatMap_singleton]
    exact runReplies_append hrun hagain

/-! ## Descriptors and devices -/

/-- **Where a descriptor leads.** A process opens a file after any calls of any processes, and
makes any further calls without closing it. The descriptor stands for that file, and `SYS_READ`
and `SYS_WRITE` take it to the file system, if the process had opened fewer than 65533 files
before, open or not; from then on they take it to a device. -/
theorem descriptor_below_devices_iff {perms : PermsDb} {disk : Option Vol} {before after : List Op}
    {replies : List Bool} {fs fs' fs'' : LogicalFs Vol} {path : Path} {pid : Pid} {fd : Nat}
    (term : Terminal)
    (hbefore : runReplies (fun fs op => fs.call H op) (LogicalFs.mounted perms disk) before
      = some (replies, fs))
    (hopen : (∃ uid gid, fs.open H path pid uid gid = some (.ok fd, fs')) ∨
      fs.create H path pid = some (.ok fd, fs'))
    (hafter : exec (fun fs op => fs.step H op) fs' after = some fs'')
    (hclose : Op.close fd pid ∉ after) :
    fd = 3 + opened pid before replies ∧
    fs''.fds.entry pid fd = some path ∧
    (fd < devFdOffset ↔ opened pid before replies < 65533) ∧
    (opened pid before replies < 65533 → ReachesFile H ⟨fs'', term⟩ fd pid) ∧
    (65533 ≤ opened pid before replies →
      ReachesDevice H ⟨fs'', term⟩ fd pid (opened pid before replies - 65533)) := by
  obtain ⟨hnext, hentry⟩ := descriptor_of_open hopen
  have hfd : fd = 3 + opened pid before replies := by
    rw [hnext, LogicalFs.nextFd_run hbefore, nextFd_mounted]
  have hoffset : devFdOffset = 3 + 65533 := rfl
  refine ⟨hfd, LogicalFs.entry_run hclose hentry hafter, by omega, fun hfew => ?_, fun hmany => ?_⟩
  · exact reachesFile (by omega) pid
  · have hidx : opened pid before replies - 65533 = fd - devFdOffset := by omega
    rw [hidx]
    exact reachesDevice (by omega) pid

/-- The second file of process 1. -/
theorem descriptor_below_devices_second :
    ∃ replies fs fs', runReplies (fun fs op => fs.call treeHost op)
        (LogicalFs.mounted ∅ (some oneFile)) (openAndClose 1) = some (replies, fs) ∧
      fs.open treeHost onePath 1 0 0 = some (.ok 4, fs') ∧
      fs'.fds.entry 1 4 = some onePath ∧ ReachesFile treeHost ⟨fs', .new⟩ 4 1 := by
  obtain ⟨replies, fs, hrun, hidle⟩ := idle_openAndClose (n := 1) (by decide)
  obtain ⟨fs', hopen, _, _⟩ := hidle.open (by decide)
  have hafter : exec (fun fs op => fs.step treeHost op) fs' [] = some fs' := rfl
  obtain ⟨_, hentry, hlow, hfile, _⟩ := descriptor_below_devices_iff Terminal.new hrun
    (.inl ⟨0, 0, hopen⟩) hafter List.not_mem_nil
  exact ⟨replies, fs, fs', hrun, hopen, hentry, hfile (hlow.mp (by decide))⟩

/-- The 65534th file of process 1 has the number of the console, and what is written to it is
sent to the serial line. -/
theorem descriptor_is_console :
    ∃ replies fs fs', runReplies (fun fs op => fs.call treeHost op)
        (LogicalFs.mounted ∅ (some oneFile)) (openAndClose 65533) = some (replies, fs) ∧
      fs.open treeHost onePath 1 0 0 = some (.ok devFdOffset, fs') ∧
      fs'.fds.entry 1 devFdOffset = some onePath ∧
      Files.sysWrite treeHost ⟨fs', .new⟩ devFdOffset 1 0 0 1 [byte 'x']
        = some (1, ⟨fs', { Terminal.new with serial := [byte 'x'] }⟩) := by
  obtain ⟨replies, fs, hrun, hidle⟩ := idle_openAndClose (n := 65533) (by decide)
  obtain ⟨fs', hopen, _, _⟩ := hidle.open (by decide)
  have hentry := (descriptor_of_open (.inl ⟨0, 0, hopen⟩)).2
  exact ⟨replies, fs, fs', hrun, hopen, hentry, rfl⟩

end AlaphiOS.Syscall
