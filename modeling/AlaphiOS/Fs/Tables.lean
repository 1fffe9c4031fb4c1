import AlaphiOS.Lib.Checked
import AlaphiOS.Lib.Maps
import Mathlib.Data.List.Nodup

/-!
# Open files

The two tables of `kernel/src/fs/fcb.rs` and `kernel/src/fs/fd_table.rs`: one
entry for each open path (`FcbTable`), and for each process the paths its file
descriptors name (`FdRegistry`).

Mirroring notes:
- A path is the list of the characters of its string.
- A `&mut` that a table hands out is the entry; writing through it is `insert`.
- `Fcb.path` is never read and is left out.
- `next_fd` only grows, so every descriptor in use is below it. The table carries
  that as a field.
-/

namespace AlaphiOS.Fs

open Function Std AlaphiOS.Lib

/-- A path. -/
abbrev Path := List Char

abbrev Pid := Nat

/-! ## File control blocks -/

/-- A file control block. -/
structure Fcb where
  cursor : Nat
  openCount : Nat
  dirty : Bool
  lockedBy : Option Pid
  isShared : Bool
  deriving DecidableEq

/-- As `FcbTable::open` makes it. -/
def Fcb.fresh : Fcb := ⟨0, 0, false, none, false⟩

/-- The FCBs, by path. -/
abbrev FcbTable := TreeMap Path Fcb

/-- `FcbTable::open`: the entry of the path, made if there is none. -/
def FcbTable.open (fcbs : FcbTable) (path : Path) : FcbTable × Fcb :=
  match lookup fcbs path with
  | some fcb => (fcbs, fcb)
  | none => (fcbs.insert path .fresh, .fresh)

theorem FcbTable.open_spec {fcbs fcbs' : FcbTable} {path : Path} {fcb : Fcb}
    (h : FcbTable.open fcbs path = (fcbs', fcb)) :
    (lookup fcbs path = some fcb ∧ fcbs' = fcbs) ∨
      (lookup fcbs path = none ∧ fcb = .fresh ∧ fcbs' = fcbs.insert path .fresh) := by
  unfold FcbTable.open at h
  split at h
  next old hold =>
    cases h
    exact .inl ⟨hold, rfl⟩
  next hnone =>
    cases h
    exact .inr ⟨hnone, rfl, rfl⟩

/-! ## File descriptors -/

structure FdEntry where
  path : Path
  deriving DecidableEq

/-- The descriptors of a process. -/
structure ProcFdTable where
  nextFd : Nat
  map : TreeMap Nat FdEntry
  fdsBelow : ∀ {fd entry}, lookup map fd = some entry → fd < nextFd

namespace ProcFdTable

/-- `new`. -/
def new : ProcFdTable :=
  ⟨3, ∅, fun h => absurd ((congrFun lookup_empty _).symm.trans h) (by simp)⟩

/-- `alloc`, with the number that `next_fd += 1` gives. -/
def allocAt (t : ProcFdTable) (path : Path) (next : Nat) (h : t.nextFd < next) : ProcFdTable where
  nextFd := next
  map := t.map.insert t.nextFd ⟨path⟩
  fdsBelow := by
    intro fd entry hfd
    rw [lookup_insert] at hfd
    by_cases heq : fd = t.nextFd
    · exact heq ▸ h
    · rw [update_of_ne heq] at hfd
      exact Nat.lt_trans (t.fdsBelow hfd) h

/-- `alloc`. -/
def alloc (t : ProcFdTable) (path : Path) : Option (ProcFdTable × Nat) :=
  match h : usizeAdd t.nextFd 1 with
  | some next => some (t.allocAt path next (by have := (usizeAdd_eq h).1; omega), t.nextFd)
  | none => none

/-- Short of the last number there is always another one. -/
theorem alloc_of_lt {t : ProcFdTable} (h : t.nextFd + 1 < 2 ^ 64) (path : Path) :
    ∃ table, t.alloc path = some (table, t.nextFd) := by
  unfold alloc
  split
  · exact ⟨_, rfl⟩
  next hnone => exact absurd (usizeAdd_of_lt h) (by rw [hnone]; simp)

/-- `remove`. -/
def remove (t : ProcFdTable) (fd : Nat) : ProcFdTable where
  nextFd := t.nextFd
  map := t.map.erase fd
  fdsBelow := by
    intro x entry hx
    rw [lookup_erase] at hx
    by_cases heq : x = fd
    · rw [heq, update_self] at hx
      cases hx
    · rw [update_of_ne heq] at hx
      exact t.fdsBelow hx

end ProcFdTable

/-- The tables, by process. -/
abbrev FdRegistry := TreeMap Pid ProcFdTable

namespace FdRegistry

variable {fds : FdRegistry} {pid : Pid} {fd : Nat} {path : Path}

/-- `table_for`: the table of the process, made if there is none. -/
def tableFor (fds : FdRegistry) (pid : Pid) : FdRegistry × ProcFdTable :=
  match lookup fds pid with
  | some table => (fds, table)
  | none => (fds.insert pid .new, .new)

/-- Write through the reference that `table_for` returned. -/
def put (fds : FdRegistry) (pid : Pid) (table : ProcFdTable) : FdRegistry := fds.insert pid table

/-- The path a descriptor names. -/
def entry (fds : FdRegistry) (pid : Pid) (fd : Nat) : Option Path :=
  (lookup fds pid).bind fun table => (lookup table.map fd).map FdEntry.path

/-- The descriptors, over all processes, that name the path. -/
def holders (fds : FdRegistry) (path : Path) : List (Pid × Nat) :=
  fds.toList.flatMap fun (pid, table) =>
    (table.map.toList.filter (·.2.path = path)).map fun (fd, _) => (pid, fd)

theorem entry_eq_some : fds.entry pid fd = some path ↔
    ∃ table, lookup fds pid = some table ∧ lookup table.map fd = some ⟨path⟩ := by
  unfold entry
  rw [Option.bind_eq_some_iff]
  refine exists_congr fun table => and_congr_right fun _ => ?_
  rw [Option.map_eq_some_iff]
  constructor
  · rintro ⟨⟨_⟩, he, rfl⟩
    exact he
  · exact fun he => ⟨⟨path⟩, he, rfl⟩

theorem mem_holders : (pid, fd) ∈ fds.holders path ↔ fds.entry pid fd = some path := by
  rw [entry_eq_some]
  unfold holders
  rw [List.mem_flatMap]
  constructor
  · rintro ⟨⟨pid', table⟩, htable, hfd⟩
    obtain ⟨⟨fd', entry⟩, hmem, heq⟩ := List.mem_map.mp hfd
    cases heq
    obtain ⟨hentry, hpath⟩ := List.mem_filter.mp hmem
    obtain rfl : entry.path = path := of_decide_eq_true hpath
    exact ⟨table, mem_toList_iff.mp htable, mem_toList_iff.mp hentry⟩
  · rintro ⟨table, htable, hentry⟩
    refine ⟨(pid, table), mem_toList_iff.mpr htable, List.mem_map.mpr ⟨(fd, ⟨path⟩), ?_, rfl⟩⟩
    exact List.mem_filter.mpr ⟨mem_toList_iff.mpr hentry, decide_eq_true rfl⟩

theorem nodup_holders : (fds.holders path).Nodup := by
  refine List.nodup_flatMap.mpr ⟨fun ⟨pid, table⟩ _ => ?_, ?_⟩
  · -- within a process: the descriptors are the keys of its table
    have hfds : ((table.map.toList.filter (·.2.path = path)).map Prod.fst).Nodup :=
      nodup_map_fst_toList.sublist (List.filter_sublist.map _)
    have hpairs := hfds.map (f := fun fd => (pid, fd)) fun _ _ h => (Prod.mk.inj h).2
    rwa [List.map_map] at hpairs
  · -- between processes: the pids are the keys of the registry
    have hpids : (fds.toList.map Prod.fst).Pairwise (· ≠ ·) := nodup_map_fst_toList
    refine (List.pairwise_map.mp hpids).imp fun hne => ?_
    intro x hx hx'
    obtain ⟨_, _, rfl⟩ := List.mem_map.mp hx
    obtain ⟨_, _, heq⟩ := List.mem_map.mp hx'
    exact hne (Prod.mk.inj heq).1.symm

theorem entry_put (table : ProcFdTable) : (fds.put pid table).entry
    = update fds.entry pid fun fd => (lookup table.map fd).map FdEntry.path := by
  funext p fd
  unfold entry put
  rw [lookup_insert]
  by_cases hp : p = pid
  · rw [hp, update_self, update_self]
    rfl
  · rw [update_of_ne hp, update_of_ne hp]

theorem tableFor_spec (fds : FdRegistry) (pid : Pid) : (fds.tableFor pid).1.entry = fds.entry ∧
    (fun fd => (lookup (fds.tableFor pid).2.map fd).map FdEntry.path) = fds.entry pid := by
  unfold tableFor
  cases h : lookup fds pid with
  | some table =>
    refine ⟨rfl, funext fun fd => ?_⟩
    unfold entry
    rw [h]
    rfl
  | none =>
    have hentry : (fun fd => (lookup ProcFdTable.new.map fd).map FdEntry.path) = fds.entry pid := by
      funext fd
      unfold entry
      rw [h, show lookup ProcFdTable.new.map fd = none from congrFun lookup_empty fd]
      rfl
    refine ⟨?_, hentry⟩
    show (fds.put pid .new).entry = fds.entry
    rw [entry_put, hentry, update_eq_self]

/-- `alloc` in the table of a process, put back. -/
theorem alloc_spec {table : ProcFdTable}
    (h : (fds.tableFor pid).2.alloc path = some (table, fd)) :
    fds.entry pid fd = none ∧ ((fds.tableFor pid).1.put pid table).entry
      = update fds.entry pid (update (fds.entry pid) fd (some path)) := by
  obtain ⟨htable, hentry⟩ := tableFor_spec fds pid
  generalize (fds.tableFor pid).2 = t at h hentry
  unfold ProcFdTable.alloc at h
  split at h
  next next hnext =>
    cases h
    constructor
    · rw [← hentry]
      dsimp only
      cases hfd : lookup t.map t.nextFd with
      | none => rfl
      | some e => exact absurd (t.fdsBelow hfd) (Nat.lt_irrefl _)
    · rw [entry_put, htable, ← hentry]
      congr 1
      funext x
      show (lookup (t.map.insert t.nextFd ⟨path⟩) x).map FdEntry.path = _
      rw [lookup_insert]
      exact congrFun (comp_update (Option.map FdEntry.path) (lookup t.map) t.nextFd _) x
  · cases h

/-- `remove` in the table of a process, put back. -/
theorem remove_spec : ((fds.tableFor pid).1.put pid ((fds.tableFor pid).2.remove fd)).entry
    = update fds.entry pid (update (fds.entry pid) fd none) := by
  obtain ⟨htable, hentry⟩ := tableFor_spec fds pid
  rw [entry_put, htable, ← hentry]
  congr 1
  funext x
  show (lookup ((fds.tableFor pid).2.map.erase fd) x).map FdEntry.path = _
  rw [lookup_erase]
  exact congrFun (comp_update (Option.map FdEntry.path) _ fd none) x

end FdRegistry

end AlaphiOS.Fs
