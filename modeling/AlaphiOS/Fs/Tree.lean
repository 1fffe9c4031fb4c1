import AlaphiOS.Fs.Effects

/-!
# The tree on the disk

`fatfs` shows a volume as a tree: a path leads to a key, the names from the root
down, and under a key there is a file, a directory or nothing. `FatTree` says what
the calls do to that tree, as far as the later modules use it:

- looking (`open_file`, `open_dir`, `seek` and `read`) changes nothing;
- `create_file` and `create_dir` keep what is there: `create_file` opens a file
  that exists, without truncating it;
- `remove` takes away at most the one entry (it refuses a directory that is not
  empty), `rename` at most what is at or below the old name, and what else is there
  it keeps;
- a write changes at most the one file, also if it fails half way;
- a listed name leads one step down.

Which paths lead to the same key is left open (`canon`): runs of slashes, upper
and lower case and `.` and `..` all make other paths to one file. A key has the names
under which entries are stored. The kernel has `fatfs` without long names, so a new
entry whose name is not of the form 8.3 is stored under a short name that also depends
on its neighbours: `.system` becomes `SYSTEM~1`, and no path but one with `SYSTEM~1`
leads there. So nothing is said of the key under which something new appears.

`treeFat` is a small volume that obeys these laws, for names of the form 8.3.
-/

namespace AlaphiOS.Fs

open Function Std AlaphiOS.Lib

abbrev Name := List Char

/-- Where a node is: the names on the way. -/
abbrev Key := List Name

/-- A file or a directory. -/
inductive Node where
  | file (data : List UInt8)
  | dir
  deriving DecidableEq

/-- The tree that the calls of `fatfs` show, and what they do to it. -/
structure FatTree {Vol : Type} (F : Fat Vol) where
  canon : Path → Key
  node : Vol → Key → Option Node
  openFile : ∀ v p, node (F.openFile v p).2 = node v
  openDir : ∀ v p, node (F.openDir v p).2 = node v
  size : ∀ v p, node (F.size v p).2 = node v
  readAt : ∀ v p offset len, node (F.readAt v p offset len).2 = node v
  createFile : ∀ v p k, node v k ≠ none → node (F.createFile v p).2 k = node v k
  createDir : ∀ v p k, node v k ≠ none → node (F.createDir v p).2 k = node v k
  writeAt : ∀ v p offset buf k, k ≠ canon p → node (F.writeAt v p offset buf).2 k = node v k
  writeAt_isSome : ∀ v p offset buf k,
    (node (F.writeAt v p offset buf).2 k).isSome = (node v k).isSome
  remove : ∀ v p k, k ≠ canon p → node (F.remove v p).2 k = node v k
  removed : ∀ v p, node (F.remove v p).2 (canon p)
    = if (F.remove v p).1 then none else node v (canon p)
  rename : ∀ v old new k, ¬ canon old <+: k → node v k ≠ none →
    node (F.rename v old new).2 k = node v k
  listed : ∀ v p entries entry, (F.openDir v p).1 = some entries →
    entry ∈ entries.filter isListed → ∃ x, canon (childPath p entry.1) = canon p ++ [x]

namespace FatTree

variable {Vol : Type} {F : Fat Vol} (T : FatTree F)

/-- The key of a path of `LogicalFs`. -/
def key (path : Path) : Key := T.canon (trimSlashes path)

/-- A walk only goes down. -/
theorem below_prefix {p q : Path} (h : F.Below p q) : T.canon p <+: T.canon q := by
  induction h with
  | refl => exact List.prefix_refl _
  | tail _ hlist ih =>
    obtain ⟨v, entries, entry, hopen, hmem, rfl⟩ := hlist
    obtain ⟨x, hx⟩ := T.listed v _ entries entry hopen hmem
    rw [hx]
    exact ih.trans (List.prefix_append _ _)

/-- A call that cannot take away what is under a key. -/
def Keeps (k : Key) : Call → Prop
  | .remove p => T.canon p ≠ k
  | .rename old _ => ¬ T.canon old <+: k
  | _ => True

/-- Nor change it. -/
def Spares (k : Key) (c : Call) : Prop :=
  T.Keeps k c ∧ ∀ p offset buf, c = .writeAt p offset buf → T.canon p ≠ k

variable {k : Key} {v : Vol} {c : Call}

/-- What is there stays. -/
theorem run_spares {n : Node} (h : T.Spares k c)
    (hnode : T.node v k = some n) : T.node (F.run v c).2 k = some n := by
  have hthere : T.node v k ≠ none := by simp [hnode]
  cases c with
  | openFile p => exact (congrFun (T.openFile v p) k).trans hnode
  | createFile p => exact (T.createFile v p k hthere).trans hnode
  | createDir p => exact (T.createDir v p k hthere).trans hnode
  | remove p => exact (T.remove v p k (Ne.symm h.1)).trans hnode
  | rename old new => exact (T.rename v old new k h.1 hthere).trans hnode
  | openDir p => exact (congrFun (T.openDir v p) k).trans hnode
  | size p => exact (congrFun (T.size v p) k).trans hnode
  | readAt p offset len => exact (congrFun (T.readAt v p offset len) k).trans hnode
  | writeAt p offset buf =>
    exact (T.writeAt v p offset buf k (Ne.symm (h.2 p offset buf rfl))).trans hnode

theorem run_keeps (h : T.Keeps k c)
    (hnode : (T.node v k).isSome) : (T.node (F.run v c).2 k).isSome := by
  obtain ⟨n, hn⟩ := Option.isSome_iff_exists.mp hnode
  by_cases hwrite : ∃ p offset buf, c = .writeAt p offset buf
  · obtain ⟨p, offset, buf, rfl⟩ := hwrite
    exact (T.writeAt_isSome v p offset buf k).trans hnode
  · refine Option.isSome_iff_exists.mpr ⟨n, T.run_spares ⟨h, fun p offset buf hc => ?_⟩ hn⟩
    exact absurd ⟨p, offset, buf, hc⟩ hwrite

end FatTree

namespace LogicalFs

variable {Vol : Type} {H : Host Vol} {T : FatTree H.toFat} {k : Key} {fs : LogicalFs Vol} {op : Op}
  {ok : Bool} {c : Call × Bool}

/-- Of the operations, three can take away what is under a key: a deletion of it,
and renaming or recursively removing it or something above. -/
theorem mayCall_keeps
    (hdelete : ∀ path, op = .delete path → fs.notShared path = .ok () → T.key path ≠ k)
    (hrename : ∀ old new, op = .rename old new → fs.notShared old = .ok () → ¬ T.key old <+: k)
    (hrmdir : ∀ path, op = .rmdir path → ¬ T.key path <+: k)
    (hmay : fs.mayCall H ok op c) : T.Keeps k c.1 := by
  cases op with
  | openPath | create | mkdir | getdents => rw [show c.1 = _ from hmay]; trivial
  | close | seek | markShared | chmod | chown => exact hmay.elim
  | read fd pid uid gid len =>
    obtain ⟨path, _, hc | ⟨offset, hc⟩⟩ := hmay <;> (rw [hc]; trivial)
  | write fd pid uid gid buf =>
    obtain ⟨path, fcb, _, _, _, _, hc | hc⟩ := hmay <;> (rw [hc]; trivial)
  -- The three that remove something.
  | delete path =>
    obtain ⟨hshared, hc⟩ := hmay
    rw [hc]
    exact hdelete path rfl hshared
  | rename old new =>
    obtain ⟨hshared, hc⟩ := hmay
    rw [hc]
    exact hrename old new rfl hshared
  | rmdir path =>
    -- A recursive removal removes what it lists, all of it below its path.
    obtain ⟨q, hbelow, hc | hc⟩ := hmay
    · rw [hc]; trivial
    · rw [hc]
      exact fun hkey => hrmdir path rfl (hkey ▸ T.below_prefix hbelow)
  | stat path => obtain hc | hc | hc := hmay <;> (rw [hc]; trivial)

/-- Only `write` writes, with its checks passed. -/
theorem mayCall_writeAt {p : Path} {offset : Nat} {data : List UInt8}
    (hmay : fs.mayCall H ok op c) (hc : c.1 = .writeAt p offset data) :
    ∃ fd pid uid gid buf path fcb, op = .write fd pid uid gid buf ∧ p = trimSlashes path ∧
      fs.fds.entry pid fd = some path ∧ lookup fs.fcbs path = some fcb ∧ fcb.isShared = false ∧
      fs.checkPerm path uid gid true = .ok () := by
  cases op with
  | write fd pid uid gid buf =>
    obtain ⟨path, fcb, hentry, hfcb, hshared, hperm, hc' | hc'⟩ := hmay
    · cases hc.symm.trans hc'
    · cases hc.symm.trans hc'
      exact ⟨fd, pid, uid, gid, _, path, fcb, rfl, rfl, hentry, hfcb, hshared, hperm⟩
  | rmdir path =>
    obtain ⟨q, _, hc' | hc'⟩ := hmay <;> cases hc.symm.trans hc'
  | _ => simp [mayCall, hc, Prod.ext_iff] at hmay

/-- A fourth can change it: a write. -/
theorem mayCall_spares
    (hwrite : ∀ fd pid uid gid buf path fcb, op = .write fd pid uid gid buf →
      fs.fds.entry pid fd = some path → lookup fs.fcbs path = some fcb → fcb.isShared = false →
      fs.checkPerm path uid gid true = .ok () → T.key path ≠ k)
    (hdelete : ∀ path, op = .delete path → fs.notShared path = .ok () → T.key path ≠ k)
    (hrename : ∀ old new, op = .rename old new → fs.notShared old = .ok () → ¬ T.key old <+: k)
    (hrmdir : ∀ path, op = .rmdir path → ¬ T.key path <+: k)
    (hmay : fs.mayCall H ok op c) : T.Spares k c.1 := by
  refine ⟨mayCall_keeps hdelete hrename hrmdir hmay, fun p offset data hc => ?_⟩
  obtain ⟨fd, pid, uid, gid, buf, path, fcb, hop, rfl, hentry, hfcb, hshared, hperm⟩ :=
    mayCall_writeAt hmay hc
  exact hwrite fd pid uid gid buf path fcb hop hentry hfcb hshared hperm

end LogicalFs

/-! ## A volume -/

def asciiLower (path : Path) : Path := path.map Char.toLower

/-- The names that have been used, and what is under each key. -/
structure TreeVol where
  names : List Key
  node : Key → Option Node

namespace TreeVol

def empty : TreeVol := ⟨[], fun _ => none⟩

/-- Empty parts and `.` stay, `..` goes up, case is ignored. -/
def canon (path : Path) : Key :=
  (path.splitOn '/').foldl (fun k part =>
    if part = [] ∨ part = ['.'] then k
    else if part = ['.', '.'] then k.dropLast
    else k ++ [asciiLower part]) []

/-- Set a node. -/
def put (v : TreeVol) (k : Key) (n : Option Node) : TreeVol where
  names := if k ∈ v.names then v.names else v.names ++ [k]
  node := update v.node k n

def isDir (v : TreeVol) (k : Key) : Bool := k = [] ∨ v.node k = some .dir

/-- Something is below the key. -/
def hasChild (v : TreeVol) (k : Key) : Bool :=
  v.names.any fun k' => k <+: k' ∧ k' ≠ k ∧ (v.node k').isSome

/-- The entry of a directory under a key, if its name is one. -/
def entry (v : TreeVol) (p : Path) (k : Key) : Option (Path × Bool) :=
  match v.node k, k.getLast? with
  | some n, some x =>
    if k = canon p ++ [x] ∧ canon (childPath p x) = k then some (x, n = .dir) else none
  | _, _ => none

/-- What is at or below `old` goes to `new`, where nothing is. -/
def move (v : TreeVol) (old new : Key) : TreeVol where
  names := v.names ++ (v.names.filter (old <+: ·)).map fun k => new ++ k.drop old.length
  node := fun k =>
    if new <+: k ∧ v.node k = none then v.node (old ++ k.drop new.length)
    else if old <+: k then none
    else v.node k

end TreeVol

open TreeVol in
/-- A file system on such volumes. As in `fatfs`, the empty path is no directory. -/
def treeFat : Fat TreeVol where
  openFile v p := (match v.node (canon p) with | some (.file _) => true | _ => false, v)
  createFile v p :=
    match v.node (canon p) with
    | some (.file _) => (true, v)
    | some .dir => (false, v)
    | none =>
      if canon p ≠ [] ∧ v.isDir (canon p).dropLast then (true, v.put (canon p) (some (.file [])))
      else (false, v)
  createDir v p :=
    match v.node (canon p) with
    | some .dir => (true, v)
    | some (.file _) => (false, v)
    | none =>
      if canon p ≠ [] ∧ v.isDir (canon p).dropLast then (true, v.put (canon p) (some .dir))
      else (false, v)
  remove v p :=
    if (v.node (canon p)).isSome ∧ ¬ v.hasChild (canon p) then (true, v.put (canon p) none)
    else (false, v)
  rename v old new :=
    if canon old = canon new ∧ (v.node (canon old)).isSome then (true, v)
    else if (v.node (canon old)).isSome ∧ v.node (canon new) = none ∧ canon new ≠ [] ∧
        v.isDir (canon new).dropLast then (true, v.move (canon old) (canon new))
    else (false, v)
  openDir v p := (if p ≠ [] ∧ v.isDir (canon p) then some (v.names.filterMap (v.entry p)) else none, v)
  size v p := (match v.node (canon p) with | some (.file data) => some data.length | _ => none, v)
  readAt v p offset len :=
    (match v.node (canon p) with
      | some (.file data) => some ((data.drop offset).take len)
      | _ => none, v)
  writeAt v p offset buf :=
    match v.node (canon p) with
    | some (.file data) =>
      (true, v.put (canon p) (some (.file
        (data.take offset ++ buf ++ data.drop (min offset data.length + buf.length)))))
    | _ => (false, v)

namespace TreeVol

variable {k : Key} {v : TreeVol}

/-- A creation keeps what is there. -/
theorem put_of_none {k' : Key} (n : Option Node) (h : v.node k = none)
    (h' : v.node k' ≠ none) : (v.put k n).node k' = v.node k' := by
  have hk : k' ≠ k := fun hk => h' (by rw [hk, h])
  exact update_of_ne hk _ _

theorem put_isSome {n : Node} (h : (v.node k).isSome) (k' : Key) :
    ((v.put k (some n)).node k').isSome = (v.node k').isSome := by
  dsimp only [put]
  by_cases hk : k' = k
  · rw [hk, update_self, h]
    rfl
  · rw [update_of_ne hk]

theorem move_other {old new : Key} (h : ¬ old <+: k)
    (hthere : v.node k ≠ none) : (v.move old new).node k = v.node k := by
  dsimp only [move]
  rw [if_neg fun hnew => hthere hnew.2, if_neg h]

theorem entry_eq {p : Path} {e : Path × Bool} (h : v.entry p k = some e) :
    canon (childPath p e.1) = canon p ++ [e.1] := by
  unfold entry at h
  split at h
  · split at h
    next hname =>
      cases h
      exact hname.2.trans hname.1
    · cases h
  · cases h

end TreeVol

/-- It obeys the laws. -/
def treeFat.tree : FatTree treeFat where
  canon := TreeVol.canon
  node := TreeVol.node
  openFile _ _ := rfl
  openDir _ _ := rfl
  size _ _ := rfl
  readAt _ _ _ _ := rfl
  createFile v p k hk := by
    dsimp only [treeFat]
    split
    · rfl
    · rfl
    next hnone =>
      split
      · exact TreeVol.put_of_none _ hnone hk
      · rfl
  createDir v p k hk := by
    dsimp only [treeFat]
    split
    · rfl
    · rfl
    next hnone =>
      split
      · exact TreeVol.put_of_none _ hnone hk
      · rfl
  writeAt v p offset buf k hk := by
    dsimp only [treeFat]
    split
    · exact update_of_ne hk _ _
    · rfl
  writeAt_isSome v p offset buf k := by
    dsimp only [treeFat]
    split
    next hfile => exact TreeVol.put_isSome (by rw [hfile]; rfl) k
    · rfl
  remove v p k hk := by
    dsimp only [treeFat]
    split
    · exact update_of_ne hk _ _
    · rfl
  removed v p := by
    dsimp only [treeFat]
    split
    · exact update_self _ _ _
    · rfl
  rename v old new k hk hthere := by
    dsimp only [treeFat]
    split
    · rfl
    · split
      · exact TreeVol.move_other hk hthere
      · rfl
  listed v p entries entry hopen hmem := by
    dsimp only [treeFat] at hopen
    split at hopen
    · cases hopen
      obtain ⟨k, _, hentry⟩ := List.mem_filterMap.mp (List.mem_filter.mp hmem).1
      exact ⟨entry.1, TreeVol.entry_eq hentry⟩
    · cases hopen

def treeHost : Host TreeVol := { treeFat with toLowercase := asciiLower, stackDepth := 8 }

def treeHost.tree : FatTree treeHost.toFat := treeFat.tree

/-- What a run leaves under a key. -/
def nodeAfter (fs : Option (LogicalFs TreeVol)) (k : Key) : Option Node :=
  (fs.bind LogicalFs.disk).bind fun v => v.node k

theorem nodeAfter_eq {fs : LogicalFs TreeVol} {v : TreeVol} {k : Key} {n : Node}
    (hdisk : fs.disk = some v) : nodeAfter (some fs) k = some n ↔ v.node k = some n := by
  unfold nodeAfter
  rw [Option.bind_some, hdisk]
  rfl

end AlaphiOS.Fs
