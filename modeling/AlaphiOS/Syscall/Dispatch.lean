import AlaphiOS.Syscall.Channels
import AlaphiOS.Memory.AddressSpaces

/-!
# The dispatcher

`syscall_handler` of `kernel/src/syscall/dispatch.rs`, with the numbers of
`kernel/src/syscall/numbers.rs`: every branch by the spinlocks it takes and the value it
returns.

All but one branch take each lock once at a time (`keeps_branch`, `keeps_channelIo`).
`SYS_PIPE_CLOSE` looks the handle up in the scrutinee of an `if let`, so `IPC_TABLE` is
still locked where it locks it again to remove the handle. `never_relocks` has this one
exception, and `pipeClose_relocks` is a run of it.

The branches take their locks by rank (`orderly_branch`), apart from `SYS_PIPE_CLOSE` and from
`SYS_BRK` and `SYS_FORK`, which lock the task while `FRAME_ALLOCATOR` is locked. Those two
keep to an order of their own, `allocatorFirst`.

Mirroring notes:
- The arguments are the registers; `as u8` and `as u32` cut them.
- `FsError::NotADirectory` and `FsError::IsADirectory` are never made.
- Methods of `LogicalFs` and of the access matrix run under the lock of their table and
  take no other lock, apart from the allocator's and those of a page fault.
-/

namespace AlaphiOS.Syscall

open Lib Lib.LockCode Ipc Fs Memory List

/-! ## Numbers -/

/-- The system calls that have a branch. -/
inductive Sys where
  | fork
  | exit
  | waitpid
  | getpid
  | getppid
  | clone
  | gettid
  | join
  | yield
  | mutexLock
  | mutexTrylock
  | mutexUnlock
  | condvarWait
  | condvarSignal
  | condvarBroadcast
  | trylock
  | getresource
  | brk
  | mprotect
  | read
  | write
  | ioctl
  | openDev
  | closeDev
  | openFile
  | close
  | seek
  | create
  | delete
  | rename
  | mkdir
  | rmdir
  | getdents
  | stat
  | chmod
  | chown
  | markShared
  | msgSend
  | msgRecv
  | shmOpen
  | shmClose
  | pipeCreate
  | pipeRead
  | pipeWrite
  | pipeClose
  | login
  | logout
  | access
  | grant
  | revoke
  | kill
  | sigreturn
  | signal
  deriving DecidableEq

namespace Sys

/-- The constants `SYS_*`. -/
def number : Sys → Nat
  | fork => 0
  | exit => 1
  | waitpid => 2
  | getpid => 3
  | getppid => 4
  | clone => 5
  | gettid => 6
  | join => 7
  | yield => 8
  | mutexLock => 9
  | mutexTrylock => 10
  | mutexUnlock => 11
  | condvarWait => 12
  | condvarSignal => 13
  | condvarBroadcast => 14
  | trylock => 15
  | getresource => 16
  | brk => 17
  | mprotect => 18
  | read => 19
  | write => 20
  | ioctl => 21
  | openDev => 22
  | closeDev => 23
  | openFile => 24
  | close => 25
  | seek => 26
  | create => 27
  | delete => 28
  | rename => 30
  | mkdir => 31
  | rmdir => 32
  | getdents => 33
  | stat => 34
  | chmod => 35
  | chown => 36
  | markShared => 39
  | msgSend => 40
  | msgRecv => 41
  | shmOpen => 42
  | shmClose => 43
  | pipeCreate => 44
  | pipeRead => 45
  | pipeWrite => 46
  | pipeClose => 47
  | login => 48
  | logout => 49
  | access => 50
  | grant => 51
  | revoke => 52
  | kill => 53
  | sigreturn => 54
  | signal => 55

def all : List Sys :=
  [fork, exit, waitpid, getpid, getppid, clone, gettid, join, yield, mutexLock, mutexTrylock,
    mutexUnlock, condvarWait, condvarSignal, condvarBroadcast, trylock, getresource, brk, mprotect,
    read, write, ioctl, openDev, closeDev, openFile, close, seek, create, delete, rename, mkdir, rmdir,
    getdents, stat, chmod, chown, markShared, msgSend, msgRecv, shmOpen, shmClose, pipeCreate,
    pipeRead, pipeWrite, pipeClose, login, logout, access, grant, revoke, kill, sigreturn, signal]

/-- The call of a number. -/
def ofNumber (nr : Nat) : Option Sys := all.find? fun s => s.number == nr

theorem number_of_ofNumber {nr : Nat} {s : Sys} (h : ofNumber nr = some s) : s.number = nr := by
  have hfound : (s.number == nr) = true := find?_some (p := fun s => number s == nr) h
  exact beq_iff_eq.mp hfound

/-- The four that look a channel up and send to it or receive from it. -/
def channelIo : List Sys := [pipeRead, msgRecv, pipeWrite, msgSend]

/-- The three that do not keep to `lockOrder`. -/
def disorderly : List Sys := [brk, fork, pipeClose]

theorem exists_of_mem_channelIo {nr : Nat} (h : nr ∈ channelIo.map number) :
    ∃ s ∈ channelIo, ofNumber nr = some s := by
  obtain ⟨s, hs, rfl⟩ := mem_map.mp h
  exact ⟨s, hs, by revert s; decide⟩

end Sys

/-! ## Error codes -/

def enosys : Int := -38
def ebadf : Int := -9
def efault : Int := -14
def eagain : Int := -11
def epipe : Int := -32
def emsgsize : Int := -90
def enoent : Int := -2
def eacces : Int := -13
def eexist : Int := -17
def ebusy : Int := -16
def erofs : Int := -30
def enodev : Int := -19

/-- `fs_err`. -/
def fsErr : FsError → Int
  | .notFound => enoent
  | .alreadyExists => eexist
  | .permissionDenied => eacces
  | .locked => ebusy
  | .isShared => erofs
  | .notOpen => ebadf
  | .invalidPath => efault
  | .notMounted => enodev

/-- The errors of `send` and `recv`. -/
def ipcErr : IpcError → Int
  | .closed => epipe
  | .wouldBlock => eagain
  | .tooLarge => emsgsize

/-- `MAX_SIGNALS`. -/
def maxSignals : Nat := 32

/-- `DEV_FD_OFFSET`. -/
def devFdOffset : Nat := 0x10000

/-! ## What branches share -/

/-- The arguments. -/
structure Args where
  arg0 : Nat
  arg1 : Nat
  arg2 : Nat
  arg3 : Nat

/-- `str_from_user`: whether there is a string. -/
def strFromUser (ptr len : Nat) : Code Bool := do
  if ptr = 0 ∨ len = 0 then pure false
  else
    userMemory
    let v ← view
    pure v.utf8

def withPath (ptr len : Nat) (body : Code Int) : Code Int := do
  if ← strFromUser ptr len then body else pure efault

/-- `TASK_TABLE` and, if it has the task, the task, for the body. -/
def withTask (tid : Nat) (body missing : Code Int) : Code Int :=
  withLock .taskTable do
    let v ← view
    if v.inTable tid then withLock (.task tid) body else missing

/-- `current_uid_gid`. -/
def currentUidGid : Code (Nat × Nat) := do
  let tid ← currentTid
  withLock .taskTable do
    let v ← view
    if v.inTable tid then
      withLock (.task tid) do
        let v ← view
        pure (v.uid tid, v.gid tid)
    else pure (0, 0)

/-- `match fs::FS.lock().method(..)`: the guard lives through both arms. -/
def fsCall (ok : Nat → Code Int) : Code Int :=
  withLock .fs do
    heapCalls
    userMemory
    let v ← view
    match v.fsResult with
    | .ok n => ok n
    | .error e => pure (fsErr e)

/-- `let res = RESOURCE_TABLE.lock().get(..)`: the guard ends with the statement. -/
def withResource (handle : Nat) (body : Nat → Code Int) : Code Int := do
  let res ← withLock .resourceTable do
    let v ← view
    pure (v.resource handle)
  match res with
  | some r => body r
  | none => pure ebadf

/-- `if let Some(ch) = IPC_TABLE.lock().get(handle)`: the guard lives through the block. -/
def withChannel (handle : Nat) (body : Channel → Code Int) : Code Int :=
  withLock .ipcTable do
    let v ← view
    match v.channel handle with
    | some ch => body ch
    | none => pure ebadf

/-- `IPC_TABLE.lock().insert(..)`. -/
def ipcInsert : Code Int :=
  withLock .ipcTable do
    let v ← view
    heapCalls
    pure (asI64 v.nextHandle)

/-- The loop of `dev_read` over the buffer. -/
def readBytes : Nat → Code Nat
  | 0 => pure 0
  | n + 1 => do
    let v ← view
    if v.consoleReady then
      userMemory
      let k ← readBytes n
      pure (k + 1)
    else pure 0

/-- `dev_read`. -/
def devRead (devIdx len : Nat) : Code Int := do
  if devIdx = 0 then
    withLock .console do
      let n ← readBytes len
      pure (if n = 0 then eagain else asI64 n)
  else pure enodev

/-- `dev_write`. -/
def devWrite (devIdx len : Nat) : Code Int := do
  if devIdx = 0 then
    withLock .console do
      times len userMemory
      pure (asI64 len)
  else pure enodev

/-- The loop of `SYS_KILL` over the locked table: the task it finds, and whether that one is
Blocked. -/
def killScan (pid : Nat) : List Nat → Code (Option (Nat × Bool))
  | [] => pure none
  | t :: ts => do
    let v ← view
    if v.inTable t then
      let hit ← withLock (.task t) do
        let v ← view
        pure (if v.pid t = pid then some (t, v.state t == .blocked) else none)
      match hit with
      | some found => pure (some found)
      | none => killScan pid ts
    else killScan pid ts

/-! ## Branches -/

/-- `SYS_READ`. -/
def sysRead (fd bufPtr len : Nat) : Code Int := do
  if len > 0 ∧ bufPtr = 0 then pure efault
  else if fd ≥ devFdOffset then devRead (fd - devFdOffset) len
  else
    let _ ← currentPid
    let _ ← currentUidGid
    fsCall fun n => pure (asI64 n)

/-- `SYS_WRITE`. -/
def sysWrite (fd bufPtr len : Nat) : Code Int := do
  if len > 0 ∧ bufPtr = 0 then pure efault
  else if fd ≥ devFdOffset then devWrite (fd - devFdOffset) len
  else
    let _ ← currentPid
    let _ ← currentUidGid
    fsCall fun n => pure (asI64 n)

/-- `SYS_IOCTL`. -/
def sysIoctl (fd cmd : Nat) : Code Int := do
  if fd < devFdOffset then pure enodev
  else
    withLock .deviceTable do
      let v ← view
      if v.hasDevice (fd - devFdOffset) then
        pure (if cmd = 1 ∨ cmd = 2 then 0 else enosys)
      else pure enodev

/-- `SYS_OPEN_DEV`. -/
def sysOpenDev (ptr len : Nat) : Code Int :=
  withPath ptr len <| withLock .deviceTable do
    userMemory
    let v ← view
    match v.device with
    | some idx => pure (asI64 (idx + devFdOffset))
    | none => pure enodev

/-- `SYS_RENAME`. -/
def sysRename (a : Args) : Code Int := do
  let old ← strFromUser a.arg0 a.arg1
  let new ← strFromUser a.arg2 a.arg3
  if old ∧ new then fsCall fun _ => pure 0 else pure efault

/-- `SYS_GETDENTS`; a record has 64 bytes of name and one more. -/
def sysGetdents (a : Args) : Code Int := do
  withPath a.arg0 a.arg1 <|
    if a.arg3 > 0 ∧ a.arg2 = 0 then pure efault
    else fsCall fun entries => do
      userMemory
      pure (asI64 (min entries (a.arg3 / 65)))

/-- `SYS_LOGIN`. -/
def sysLogin (pwdPtr pwdLen : Nat) : Code Int := do
  if pwdPtr = 0 ∨ pwdLen = 0 then pure efault
  else
    let ok ← withLock .fs do
      heapCalls
      userMemory
      let v ← view
      pure v.passwordOk
    if ok then
      let tid ← currentTid
      withTask tid (pure 0) (pure 0)
    else pure eacces

/-- `SYS_GRANT` and `SYS_REVOKE`. -/
def sysChangeRights : Code Int := do
  let _ ← currentUidGid
  withLock .accessControl do
    heapCalls
    let v ← view
    pure (if v.succeeds then 0 else eacces)

/-- `SYS_CLONE`. -/
def sysClone (flags : Nat) : Code Int := do
  if flags &&& 0x100 = 0 then pure enosys
  else
    let currTid ← currentTid
    let thread ← withLock .taskTable do
      let v ← view
      if v.inTable currTid then
        withLock (.task currTid) do
          let v ← view
          heapCalls
          pure (some v.nextTid)
      else pure none
    match thread with
    | none => pure ebadf
    | some tid =>
      spawn tid
      pure (asI64 tid)

/-- `SYS_FORK`: the frame allocator is locked to the end of the second block, the parent and
the table until they are dropped before `spawn`. -/
def sysFork : Code Int := do
  let currTid ← currentTid
  withLock .frameAllocator (pure ())
  withLock .frameAllocator do
    let child ← withLock .taskTable do
      let v ← view
      if v.inTable currTid then
        withLock (.task currTid) do
          let v ← view
          heapCalls
          pure (some (v.nextTid, v.nextPid))
      else pure none
    match child with
    | none => pure ebadf
    | some (tid, pid) =>
      spawn tid
      pure (asI64 pid)

/-- `SYS_KILL`. -/
def sysKill (targetPid arg1 : Nat) : Code Int := do
  if arg1 % 256 ≥ maxSignals then pure efault
  else
    let found ← withLock .taskTable do
      let v ← view
      heapCalls
      killScan targetPid v.allTids
    match found with
    | some (tid, true) =>
      unblockTid tid
      pure 0
    | some (_, false) => pure 0
    | none => pure enoent

/-- `SYS_SIGNAL`. -/
def sysSignal (arg0 : Nat) : Code Int := do
  if arg0 % 256 ≥ maxSignals then pure efault
  else
    let tid ← currentTid
    withTask tid (pure 0) (pure ebadf)

/-- `SYS_BRK`. -/
def sysBrk (newBrk : Nat) : Code Int := do
  let tid ← currentTid
  withLock .frameAllocator <| withTask tid (do
    let v ← view
    let aligned := (newBrk + 0xFFF) / 4096 * 4096
    if newBrk = 0 ∨ aligned < v.heapStart tid ∨ aligned ≥ userStackTop - userStackSize then
      pure (asI64 (v.brk tid))
    else
      heapCalls
      pure (asI64 aligned)) (pure ebadf)

/-- `SYS_MPROTECT`. -/
def sysMprotect (addr len : Nat) : Code Int := do
  if addr % 4096 ≠ 0 ∨ len = 0 then pure efault
  else
    let tid ← currentTid
    withTask tid (do
      heapCalls
      let v ← view
      pure (if v.succeeds then 0 else efault)) (pure ebadf)

/-- `SYS_SHM_OPEN`: the registry is locked while the handle is made. -/
def sysShmOpen (namePtr nameLen : Nat) : Code Int := do
  if namePtr = 0 ∨ nameLen = 0 then pure efault
  else
    userMemory
    heapCalls
    withLock .shmRegistry do
      heapCalls
      ipcInsert

/-- `SYS_PIPE_CLOSE`. -/
def sysPipeClose (fuel handle : Nat) : Code Int :=
  withChannel handle fun ch => do
    ch.close fuel
    withLock .ipcTable heapCalls
    pure 0

/-- `SYS_PIPE_READ` and `SYS_MSG_RECV`. -/
def sysRecv (fuel handle bufPtr len : Nat) : Code Int := do
  if len > 0 ∧ bufPtr = 0 then pure efault
  else
    withChannel handle fun ch => do
      match ← ch.recv fuel len with
      | .ok bytesRead => pure (asI64 bytesRead)
      | .error e => pure (ipcErr e)

/-- `SYS_PIPE_WRITE` and `SYS_MSG_SEND`. -/
def sysSend (fuel handle bufPtr len : Nat) : Code Int := do
  if len > 0 ∧ bufPtr = 0 then pure efault
  else
    withChannel handle fun ch => do
      match ← ch.send fuel len with
      | .ok _ => pure 0
      | .error e => pure (ipcErr e)

/-- The branch of a call. -/
def branch (fuel : Nat) (a : Args) : Sys → Code Int
  | .getpid => do pure (asI64 (← currentPid))
  | .getppid => do pure (((← currentPpid).map asI64).getD (-1))
  | .gettid => do pure (asI64 (← currentTid))
  | .yield => do schedule; pure 0
  | .exit => exit
  | .waitpid => wait fuel a.arg0
  | .join => waitTid fuel a.arg0
  | .getresource => do
    heapCalls
    withLock .resourceTable do
      let v ← view
      heapCalls
      pure (asI64 v.nextHandle)
  | .mutexLock => withResource a.arg0 fun r => do QueuedResource.lock fuel r; pure 0
  | .mutexTrylock | .trylock => withResource a.arg0 fun r => do
    pure (if ← QueuedResource.tryLock r then 0 else eagain)
  | .mutexUnlock => withResource a.arg0 fun r => do QueuedResource.unlock r; pure 0
  | .condvarWait => withResource a.arg0 fun r => do QueuedResource.wait fuel r; pure 0
  | .condvarSignal => withResource a.arg0 fun r => do QueuedResource.signal r; pure 0
  | .condvarBroadcast => withResource a.arg0 fun r => do QueuedResource.broadcast fuel r; pure 0
  | .pipeCreate => do heapCalls; ipcInsert
  | .pipeClose => sysPipeClose fuel a.arg0
  | .pipeRead | .msgRecv => sysRecv fuel a.arg0 a.arg1 a.arg2
  | .pipeWrite | .msgSend => sysSend fuel a.arg0 a.arg1 a.arg2
  | .shmOpen => sysShmOpen a.arg0 a.arg1
  | .shmClose => do withLock .ipcTable heapCalls; pure 0
  | .openFile => withPath a.arg0 a.arg1 do
    let _ ← currentPid
    let _ ← currentUidGid
    fsCall fun fd => pure (asI64 fd)
  | .close => do
    let _ ← currentPid
    fsCall fun _ => pure 0
  | .read => sysRead a.arg0 a.arg1 a.arg2
  | .write => sysWrite a.arg0 a.arg1 a.arg2
  | .seek => do
    let _ ← currentPid
    fsCall fun _ => pure 0
  | .ioctl => sysIoctl a.arg0 a.arg1
  | .openDev => sysOpenDev a.arg0 a.arg1
  | .closeDev => pure 0
  | .create => withPath a.arg0 a.arg1 do
    let _ ← currentPid
    fsCall fun fd => pure (asI64 fd)
  | .delete | .mkdir | .rmdir | .chmod | .markShared =>
    withPath a.arg0 a.arg1 (fsCall fun _ => pure 0)
  | .rename => sysRename a
  | .chown => withPath a.arg0 a.arg1 do
    withLock .fs do
      userMemory
      heapCalls
    pure 0
  | .getdents => sysGetdents a
  | .stat => withPath a.arg0 a.arg1 <|
    if a.arg2 = 0 then pure efault
    else fsCall fun _ => do userMemory; pure 0
  | .login => sysLogin a.arg1 a.arg2
  | .logout => do
    let tid ← currentTid
    withTask tid (pure 0) (pure 0)
  | .access => withLock .accessControl do
    let v ← view
    pure v.rights
  | .grant | .revoke => sysChangeRights
  | .clone => sysClone a.arg0
  | .fork => sysFork
  | .kill => sysKill a.arg0 a.arg1
  | .sigreturn => do
    userMemory
    let v ← view
    pure v.savedRax
  | .signal => sysSignal a.arg0
  | .brk => sysBrk a.arg0
  | .mprotect => sysMprotect a.arg0 a.arg1

/-- `syscall_handler`. -/
def syscallHandler (fuel nr : Nat) (a : Args) : Code Int :=
  match Sys.ofNumber nr with
  | some s => branch fuel a s
  | none => pure enosys

/-- The kernel as one task finds it that is alone and has made a pipe, with the handle 0. -/
def onePipe : View where
  current := some 1
  needsReschedule := false
  pickNext := none
  inTable t := t == 1
  allTids := [1]
  pid t := t
  state _ := .running
  parent _ := none
  exitCode _ := none
  uid _ := 0
  gid _ := 0
  heapStart _ := 0
  brk _ := 0
  nextTid := 2
  nextPid := 2
  resource _ := none
  channel handle := if handle = 0 then some (.pipe 0) else none
  nextHandle := 1
  locked _ := false
  popFront := none
  len _ := 0
  closed _ := false
  heapCalls := 1
  faults := 0
  swapped := false
  handled := true
  utf8 := true
  fsResult := .error .notMounted
  passwordOk := false
  rights := 0
  succeeds := false
  device := none
  hasDevice _ := false
  consoleReady := false
  savedRax := 0

/-! ## Which locks the branches take -/

def allClasses : List LockClass :=
  [.taskTable, .scheduler, .task, .heap, .frameAllocator, .swap, .resourceTable, .state, .condWaiters,
    .ipcTable, .shmRegistry, .buf, .closed, .waiters, .fs, .console, .deviceTable, .accessControl]

/-- What a call on files takes. -/
def fileClasses : List LockClass := .fs :: userClasses

/-- A string from user memory. -/
theorem orderly_strFromUser (ptr len : Nat) : Ranked userClasses (strFromUser ptr len) := by
  unfold strFromUser
  split
  · exact .pure false
  · exact orderly_userMemory.bind fun _ => .view fun _ => .pure _

/-- A call with a path. -/
theorem orderly_withPath {ptr len : Nat} {body : Code Int} (h : Ranked allClasses body) :
    Ranked allClasses (withPath ptr len body) := by
  refine .bind ((orderly_strFromUser ptr len).mono rfl) fun ok => ?_
  split
  · exact h
  · exact .pure efault

/-- A look at one task. -/
theorem orderly_withTask {tid : Nat} {body missing : Code Int} (hbody : Ranked [.heap] body)
    (hmissing : Ranked [] missing) :
    Ranked wakeClasses (withTask tid body missing) := by
  refine .withLock rfl (.view fun v => ?_)
  split
  · exact .withLock rfl (hbody.mono rfl)
  · exact hmissing.mono rfl

/-- `current_uid_gid`. -/
theorem orderly_currentUidGid : Ranked wakeClasses currentUidGid := by
  refine .bind (orderly_currentTid.mono rfl) fun tid => .withLock rfl (.view fun v => ?_)
  split
  · exact .withLock rfl (.view fun _ => .pure _)
  · exact .pure _

variable {ok : Nat → Code Int}

/-- A method of `LogicalFs`. -/
theorem orderly_fsCall (h : ∀ n, Ranked userClasses (ok n)) : Ranked fileClasses (fsCall ok) := by
  refine .withLock rfl (.bind (orderly_heapCalls.mono rfl) fun _ => ?_)
  refine .bind (orderly_userMemory.mono rfl) fun _ => .view fun v => ?_
  split
  · exact (h _).mono rfl
  · exact .pure _

theorem orderly_ipcInsert : Ranked [.ipcTable, .heap] ipcInsert :=
  .withLock rfl (.view fun _ => .bind (orderly_heapCalls.mono rfl) fun _ => .pure _)

/-- Bytes from the console. -/
theorem orderly_readBytes : ∀ n, Ranked userClasses (readBytes n)
  | 0 => .pure 0
  | n + 1 => by
    refine .view fun v => ?_
    split
    · exact orderly_userMemory.bind fun _ => (orderly_readBytes n).bind fun _ => .pure _
    · exact .pure 0

theorem orderly_devRead (devIdx len : Nat) : Ranked allClasses (devRead devIdx len) := by
  unfold devRead
  split
  · exact .withLock rfl (.bind ((orderly_readBytes len).mono rfl) fun _ => .pure _)
  · exact .pure enodev

theorem orderly_devWrite (devIdx len : Nat) : Ranked allClasses (devWrite devIdx len) := by
  unfold devWrite
  split
  · exact .withLock rfl (.bind ((orderly_userMemory.times len).mono rfl) fun _ => .pure _)
  · exact .pure enodev

theorem orderly_killScan (pid : Nat) : ∀ ts, Ranked [.task] (killScan pid ts)
  | [] => .pure none
  | t :: ts => by
    refine .view fun v => ?_
    split
    · refine .bind (.withLock rfl (.view fun _ => .pure _)) fun hit => ?_
      split
      · exact .pure _
      · exact orderly_killScan pid ts
    · exact orderly_killScan pid ts

/-- `current_pid`, `current_uid_gid`, then a method of the file system. -/
theorem orderly_asUser (h : ∀ n, Ranked userClasses (ok n)) : Ranked allClasses (do
      let _ ← currentPid
      let _ ← currentUidGid
      fsCall ok) :=
  .bind (orderly_currentPid.mono rfl) fun _ => .bind (orderly_currentUidGid.mono rfl) fun _ =>
    (orderly_fsCall h).mono rfl

/-- `current_pid`, then a method of the file system. -/
theorem orderly_asProcess (h : ∀ n, Ranked userClasses (ok n)) : Ranked allClasses (do
      let _ ← currentPid
      fsCall ok) :=
  .bind (orderly_currentPid.mono rfl) fun _ => (orderly_fsCall h).mono rfl

theorem orderly_sysRead (fd bufPtr len : Nat) : Ranked allClasses (sysRead fd bufPtr len) := by
  unfold sysRead
  split
  · exact .pure efault
  · split
    · exact orderly_devRead _ len
    · exact orderly_asUser fun _ => .pure _

theorem orderly_sysWrite (fd bufPtr len : Nat) : Ranked allClasses (sysWrite fd bufPtr len) := by
  unfold sysWrite
  split
  · exact .pure efault
  · split
    · exact orderly_devWrite _ len
    · exact orderly_asUser fun _ => .pure _

theorem orderly_sysIoctl (fd cmd : Nat) : Ranked allClasses (sysIoctl fd cmd) := by
  unfold sysIoctl
  split
  · exact .pure enodev
  · refine .withLock rfl (.view fun v => ?_)
    split
    · exact .pure _
    · exact .pure enodev

theorem orderly_sysOpenDev (ptr len : Nat) : Ranked allClasses (sysOpenDev ptr len) := by
  refine orderly_withPath (.withLock rfl (.bind (orderly_userMemory.mono rfl) fun _ =>
    .view fun v => ?_))
  split
  · exact .pure _
  · exact .pure enodev

theorem orderly_sysRename (a : Args) : Ranked allClasses (sysRename a) := by
  refine .bind ((orderly_strFromUser _ _).mono rfl) fun old => ?_
  refine .bind ((orderly_strFromUser _ _).mono rfl) fun new => ?_
  split
  · exact (orderly_fsCall fun _ => .pure 0).mono rfl
  · exact .pure efault

theorem orderly_sysGetdents (a : Args) : Ranked allClasses (sysGetdents a) := by
  refine orderly_withPath ?_
  split
  · exact .pure efault
  · exact (orderly_fsCall fun _ => orderly_userMemory.bind fun _ => .pure _).mono rfl

theorem orderly_sysLogin (pwdPtr pwdLen : Nat) : Ranked allClasses (sysLogin pwdPtr pwdLen) := by
  unfold sysLogin
  split
  · exact .pure efault
  · refine .bind (.withLock rfl ?_) fun ok => ?_
    · exact .bind (orderly_heapCalls.mono rfl) fun _ => .bind (orderly_userMemory.mono rfl) fun _ =>
        .view fun _ => .pure _
    · split
      · exact .bind (orderly_currentTid.mono rfl) fun _ =>
          (orderly_withTask (.pure 0) (.pure 0)).mono rfl
      · exact .pure eacces

theorem orderly_sysChangeRights : Ranked allClasses sysChangeRights :=
  .bind (orderly_currentUidGid.mono rfl) fun _ =>
    .withLock rfl (.bind (orderly_heapCalls.mono rfl) fun _ => .view fun _ => .pure _)

/-- What `SYS_CLONE` and `SYS_FORK` do with the parent. -/
theorem orderly_copyTask {β : Type} (tid : Nat) (f : View → β) :
    Ranked wakeClasses (withLock .taskTable do
      let v ← view
      if v.inTable tid then
        withLock (.task tid) do
          let v ← view
          heapCalls
          pure (some (f v))
      else pure none : Code (Option β)) := by
  refine .withLock rfl (.view fun v => ?_)
  split
  · exact .withLock rfl (.view fun _ => .bind (orderly_heapCalls.mono rfl) fun _ => .pure _)
  · exact .pure none

theorem orderly_sysClone (flags : Nat) : Ranked allClasses (sysClone flags) := by
  unfold sysClone
  split
  · exact .pure enosys
  · refine .bind (orderly_currentTid.mono rfl) fun currTid => ?_
    refine .bind ((orderly_copyTask currTid View.nextTid).mono rfl) fun thread => ?_
    split
    · exact .pure ebadf
    · exact .bind ((orderly_spawn _).mono rfl) fun _ => .pure _

theorem orderly_sysKill (targetPid arg1 : Nat) : Ranked allClasses (sysKill targetPid arg1) := by
  unfold sysKill
  split
  · exact .pure efault
  · refine .bind (.withLock rfl (.view fun v => .bind (orderly_heapCalls.mono rfl) fun _ =>
      (orderly_killScan targetPid v.allTids).mono rfl)) fun found => ?_
    split
    · exact .bind ((orderly_unblockTid _).mono rfl) fun _ => .pure 0
    · exact .pure 0
    · exact .pure enoent

theorem orderly_sysSignal (arg0 : Nat) : Ranked allClasses (sysSignal arg0) := by
  unfold sysSignal
  split
  · exact .pure efault
  · exact .bind (orderly_currentTid.mono rfl) fun _ =>
      (orderly_withTask (.pure 0) (.pure ebadf)).mono rfl

theorem orderly_sysMprotect (addr len : Nat) : Ranked allClasses (sysMprotect addr len) := by
  unfold sysMprotect
  split
  · exact .pure efault
  · refine .bind (orderly_currentTid.mono rfl) fun tid => (orderly_withTask ?_ (.pure ebadf)).mono rfl
    exact orderly_heapCalls.bind fun _ => .view fun _ => .pure _

theorem orderly_sysShmOpen (namePtr nameLen : Nat) :
    Ranked allClasses (sysShmOpen namePtr nameLen) := by
  unfold sysShmOpen
  split
  · exact .pure efault
  · refine .bind (orderly_userMemory.mono rfl) fun _ => .bind (orderly_heapCalls.mono rfl) fun _ => ?_
    exact .withLock rfl (.bind (orderly_heapCalls.mono rfl) fun _ => orderly_ipcInsert.mono rfl)

/-! ### `SYS_BRK` and `SYS_FORK`

These two take the frame allocator first, and then the table and the task. -/

/-- The order with the allocator before tasks. -/
def allocatorFirst : LockOrder Lock LockClass where
  cls := Lock.cls
  before a b := lockOrder.before a b ||
    (a == .frameAllocator && [.taskTable, .scheduler, .task].contains b)
  irrefl k := by cases k <;> rfl

theorem orderly_allocatorFirst {α : Type} {ks : List LockClass} {c : Code α}
    (h : Ranked ks c) : Orderly allocatorFirst none [] ks c :=
  h.weaken (fun _ => rfl) fun _ _ hbefore => Bool.or_eq_true_iff.mpr (.inl hbefore)

/-- `SYS_FORK` takes a task after the allocator. -/
theorem orderly_sysFork : Orderly allocatorFirst none [] allClasses sysFork := by
  refine .bind ((orderly_allocatorFirst orderly_currentTid).mono rfl) fun currTid => ?_
  refine .bind (.withLock rfl (.pure ())) fun _ => .withLock rfl ?_
  have hcopy := orderly_allocatorFirst (orderly_copyTask currTid fun v => (v.nextTid, v.nextPid))
  refine .bind (hcopy.mono rfl) fun child => ?_
  split
  · exact .pure ebadf
  · exact .bind ((orderly_allocatorFirst (orderly_spawn _)).mono rfl) fun _ => .pure _

/-- So does `SYS_BRK`. -/
theorem orderly_sysBrk (newBrk : Nat) :
    Orderly allocatorFirst none [] allClasses (sysBrk newBrk) := by
  refine .bind ((orderly_allocatorFirst orderly_currentTid).mono rfl) fun tid => .withLock rfl ?_
  refine (orderly_allocatorFirst (orderly_withTask (.view fun v => ?_) (.pure ebadf))).mono rfl
  dsimp only
  split
  · exact .pure _
  · exact orderly_heapCalls.bind fun _ => .pure _

section

variable {R : Rules Lock} {fuel : Nat} {a : Args}

/-- A call on a resource waits with nothing held. -/
theorem orderly_withResource {handle : Nat} {body : Nat → Code Int}
    (h : ∀ r, Blocks allClasses (body r)) :
    Blocks allClasses (withResource handle body) := by
  have hget : Ranked allClasses (withLock .resourceTable do
      let v ← view
      pure (v.resource handle) : Code (Option Nat)) := .withLock rfl (.view fun _ => .pure _)
  refine .bind (hget.waits rfl) fun res => ?_
  split
  · exact h _
  · exact .pure ebadf

variable {s : Sys}

/-- **Every other branch keeps to the order.** -/
theorem orderly_branch (hio : s ∉ Sys.channelIo) (hs : s ∉ Sys.disorderly) :
    Blocks allClasses (branch fuel a s) := by
  cases s with
  | pipeRead | msgRecv | pipeWrite | msgSend => exact absurd (by decide) hio
  | brk | fork | pipeClose => exact absurd (by decide) hs
  | getpid => exact .bind (orderly_currentPid.waits rfl) fun _ => .pure _
  | getppid => exact .bind (orderly_currentPpid.waits rfl) fun _ => .pure _
  | gettid => exact .bind (orderly_currentTid.waits rfl) fun _ => .pure _
  | yield => exact .bind (orderly_schedule.waits rfl) fun _ => .pure _
  | exit => exact orderly_exit.waits rfl
  | waitpid => exact (orderly_wait fuel a.arg0).mono rfl
  | join => exact (orderly_waitTid fuel a.arg0).mono rfl
  | getresource =>
    have hinsert : Ranked allClasses (withLock .resourceTable do
        let v ← view
        heapCalls
        pure (asI64 v.nextHandle) : Code Int) :=
      .withLock rfl (.view fun _ => .bind (orderly_heapCalls.mono rfl) fun _ => .pure _)
    exact .bind (orderly_heapCalls.waits rfl) fun _ => hinsert.waits rfl
  | mutexLock =>
    exact orderly_withResource fun r => .bind ((orderly_lock fuel r).mono rfl) fun _ => .pure _
  | mutexTrylock | trylock =>
    exact orderly_withResource fun r => .bind ((orderly_tryLock r).waits rfl) fun _ => .pure _
  | mutexUnlock =>
    exact orderly_withResource fun r => .bind ((orderly_unlock r).waits rfl) fun _ => .pure _
  | condvarWait =>
    exact orderly_withResource fun r => .bind ((orderly_resource_wait fuel r).mono rfl) fun _ => .pure _
  | condvarSignal =>
    exact orderly_withResource fun r => .bind ((orderly_resource_signal r).waits rfl) fun _ => .pure _
  | condvarBroadcast =>
    exact orderly_withResource fun r =>
      .bind ((orderly_resource_broadcast fuel r).waits rfl) fun _ => .pure _
  | pipeCreate => exact .bind (orderly_heapCalls.waits rfl) fun _ => orderly_ipcInsert.waits rfl
  | shmOpen => exact (orderly_sysShmOpen _ _).waits rfl
  | shmClose =>
    have hremove : Ranked allClasses (withLock .ipcTable heapCalls) :=
      .withLock rfl (orderly_heapCalls.mono rfl)
    exact .bind (hremove.waits rfl) fun _ => .pure _
  | openFile => exact (orderly_withPath (orderly_asUser fun _ => .pure _)).waits rfl
  | close | seek => exact (orderly_asProcess fun _ => .pure _).waits rfl
  | read => exact (orderly_sysRead _ _ _).waits rfl
  | write => exact (orderly_sysWrite _ _ _).waits rfl
  | ioctl => exact (orderly_sysIoctl _ _).waits rfl
  | openDev => exact (orderly_sysOpenDev _ _).waits rfl
  | closeDev => exact .pure 0
  | create => exact (orderly_withPath (orderly_asProcess fun _ => .pure _)).waits rfl
  | delete | mkdir | rmdir | chmod | markShared =>
    exact (orderly_withPath ((orderly_fsCall fun _ => .pure 0).mono rfl)).waits rfl
  | rename => exact (orderly_sysRename a).waits rfl
  | chown =>
    refine (orderly_withPath (.bind (.withLock rfl ?_) fun _ => .pure 0)).waits rfl
    exact .bind (orderly_userMemory.mono rfl) fun _ => orderly_heapCalls.mono rfl
  | getdents => exact (orderly_sysGetdents a).waits rfl
  | stat =>
    refine (orderly_withPath ?_).waits rfl
    split
    · exact .pure efault
    · exact (orderly_fsCall fun _ => orderly_userMemory.bind fun _ => .pure 0).mono rfl
  | login => exact (orderly_sysLogin _ _).waits rfl
  | logout =>
    exact .bind (orderly_currentTid.waits rfl) fun _ => (orderly_withTask (.pure 0) (.pure 0)).waits rfl
  | access =>
    have hread : Ranked allClasses (withLock .accessControl do
        let v ← view
        pure v.rights : Code Int) := .withLock rfl (.view fun _ => .pure _)
    exact hread.waits rfl
  | grant | revoke => exact orderly_sysChangeRights.waits rfl
  | clone => exact (orderly_sysClone _).waits rfl
  | kill => exact (orderly_sysKill _ _).waits rfl
  | sigreturn => exact .bind (orderly_userMemory.waits rfl) fun _ => .view fun _ => .pure _
  | signal => exact (orderly_sysSignal _).waits rfl
  | mprotect => exact (orderly_sysMprotect _ _).waits rfl

/-- No branch takes a lock twice, but for `SYS_PIPE_CLOSE`. -/
theorem keeps_branch (hio : s ∉ Sys.channelIo) (hclose : s ≠ .pipeClose) (hR : R.wait []) :
    Keeps R (branch fuel a s) [] := by
  by_cases hs : s ∈ Sys.disorderly
  · unfold Sys.disorderly at hs
    simp only [mem_cons, not_mem_nil, or_false] at hs
    rcases hs with rfl | rfl | rfl
    · exact (orderly_sysBrk a.arg0).quiet clear_nil
    · exact orderly_sysFork.quiet clear_nil
    · exact absurd rfl hclose
  · refine (orderly_branch hio hs).keeps (fun guards hguards => ?_) clear_nil
    cases hguards
    exact hR

/-- What is done with a channel is done with `IPC_TABLE` locked, the waiting too. -/
theorem orderly_withChannel {handle : Nat} {body : Channel → Code Int}
    (h : ∀ ch, Blocks channelClasses (body ch)) :
    Orderly lockOrder (some [.ipcTable]) [] allClasses (withChannel handle body) := by
  refine Orderly.withLock_waits (w := some []) rfl (.view fun v => ?_)
  split
  · exact (h _).mono rfl
  · exact .pure ebadf

/-- The four calls on channels wait with `IPC_TABLE` held. -/
theorem orderly_channelIo (hs : s ∈ Sys.channelIo) :
    Orderly lockOrder (some [.ipcTable]) [] allClasses (branch fuel a s) := by
  have hrecv : Orderly lockOrder (some [.ipcTable]) [] allClasses
      (sysRecv fuel a.arg0 a.arg1 a.arg2) := by
    unfold sysRecv
    split
    · exact .pure efault
    · refine orderly_withChannel fun ch => (orderly_recv fuel ch a.arg2).bind fun r => ?_
      cases r <;> exact .pure _
  have hsend : Orderly lockOrder (some [.ipcTable]) [] allClasses
      (sysSend fuel a.arg0 a.arg1 a.arg2) := by
    unfold sysSend
    split
    · exact .pure efault
    · refine orderly_withChannel fun ch => (orderly_send fuel ch a.arg2).bind fun r => ?_
      cases r <;> exact .pure _
  unfold Sys.channelIo at hs
  simp only [mem_cons, not_mem_nil, or_false] at hs
  rcases hs with rfl | rfl | rfl | rfl
  · exact hrecv
  · exact hrecv
  · exact hsend
  · exact hsend

/-- They take no lock twice. -/
theorem keeps_channelIo (hs : s ∈ Sys.channelIo) (hR : R.wait [.ipcTable]) :
    Keeps R (branch fuel a s) [] := by
  change Keeps R (branch fuel a s) ([] ++ [])
  refine (orderly_channelIo hs).keeps (fun guards hguards => ?_) clear_nil
  cases hguards
  exact hR

/-- `SYS_PIPE_CLOSE` does not wait, and ends where it takes `IPC_TABLE` again. -/
theorem keeps_pipeClose (hR : R.relock) : Keeps R (branch fuel a .pipeClose) [] := by
  have hclear : Clear Lock.cls channelClasses [.ipcTable] := clear_nil.cons rfl
  refine keeps_withLock not_mem_nil (keeps_view fun v => ?_)
  split
  · refine Keeps.bind ((orderly_close fuel _).quiet hclear) fun _ => ?_
    exact (keeps_withLock_again (mem_singleton.mpr rfl) hR).bind fun _ => rfl
  · rfl

end

/-! ## No lock twice -/

/-- `SYS_PIPE_CLOSE` of an unknown handle. -/
theorem pipeClose_missing {fuel handle : Nat} {env : Nat → View}
    (h : (env 0).channel handle = none) :
    (sysPipeClose fuel handle).events env 0 [] = [.lock .ipcTable [], .unlock .ipcTable] := by
  simp [sysPipeClose, withChannel, withLock, acquire, release, view, events, bind, pure, LockCode.bind, h]

/-- **No system call takes a spinlock that it holds**, whatever its number and arguments are
and whatever it finds, but for `SYS_PIPE_CLOSE` of a handle that is there. -/
theorem never_relocks (fuel nr : Nat) (a : Args) (env : Nat → View)
    (h : ¬ (nr = Sys.pipeClose.number ∧ (env 0).channel a.arg0 ≠ none)) :
    ∀ l held, .lock l held ∈ (syscallHandler fuel nr a).events env 0 [] → l ∉ held := by
  intro l held hmem hheld
  let R : Rules Lock := ⟨False, fun _ => True⟩
  unfold syscallHandler at hmem
  cases hs : Sys.ofNumber nr with
  | none =>
    rw [hs] at hmem
    cases hmem
  | some s =>
    rw [hs] at hmem
    -- `SYS_PIPE_CLOSE` with an unknown handle only looks it up.
    by_cases hclose : s = .pipeClose
    · subst hclose
      have hnone : (env 0).channel a.arg0 = none := by
        by_contra hsome
        exact h ⟨(Sys.number_of_ofNumber hs).symm, hsome⟩
      have hmem : LockEvent.lock l held ∈ (sysPipeClose fuel a.arg0).events env 0 [] := hmem
      rw [pipeClose_missing hnone] at hmem
      simp only [mem_cons, LockEvent.lock.injEq, reduceCtorEq, not_mem_nil, or_false] at hmem
      rw [hmem.2] at hheld
      cases hheld
    · have hkeeps : Keeps R (branch fuel a s) [] := by
        -- The four that wait do so under `IPC_TABLE`, which is no second lock of the same one.
        by_cases hio : s ∈ Sys.channelIo
        · exact keeps_channelIo hio trivial
        · exact keeps_branch hio hclose trivial
      exact Does.events hkeeps 0 _ hmem hheld

/-- Three bytes are written to the pipe. -/
theorem never_relocks_pipeWrite :
    .lock (.buf 0) [.ipcTable] ∈
      (syscallHandler 2 Sys.pipeWrite.number ⟨0, 4096, 3, 0⟩).events (fun _ => onePipe) 0 [] ∧
    ∀ l held, .lock l held ∈
      (syscallHandler 2 Sys.pipeWrite.number ⟨0, 4096, 3, 0⟩).events (fun _ => onePipe) 0 [] → l ∉ held :=
  ⟨by decide, never_relocks 2 Sys.pipeWrite.number ⟨0, 4096, 3, 0⟩ (fun _ => onePipe) (by decide)⟩

/-- The pipe is closed: `IPC_TABLE` is locked, and it is locked again. -/
theorem pipeClose_relocks :
    ∃ l held, .lock l held ∈
      (syscallHandler 1 Sys.pipeClose.number ⟨0, 0, 0, 0⟩).events (fun _ => onePipe) 0 [] ∧ l ∈ held :=
  ⟨.ipcTable, [.ipcTable], by decide, by decide⟩

end AlaphiOS.Syscall
