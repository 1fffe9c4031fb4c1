import AlaphiOS.Fs.Tree

/-!
# Permissions and the files they belong to

The permission table is kept by path, and the operations that move or drop a name
do not all know of it: `rename` leaves the entry under the old path
(`rename_leaves_entry`), recursive removal leaves the entries of what it removed,
`SYS_CHOWN` makes an entry for a path that leads nowhere, and every further path of
a file is without one.

`lastSet` is what should hold: with each file go the permissions last set on it,
under whatever name. The table agrees with that as long as permissions are set and
files deleted by one path each (`S` has no two paths of the same file), owners are
given to files that exist, and what is renamed or recursively removed has no entry
at or below it.
-/

namespace AlaphiOS.Fs

open Function Std AlaphiOS.Lib

variable {Vol : Type} {H : Host Vol}

/-- Something is under the key. -/
def LogicalFs.has (T : FatTree H.toFat) (fs : LogicalFs Vol) (k : Key) : Bool :=
  (fs.disk.bind fun v => T.node v k).isSome

/-- No entry is for a path at or below the key. -/
def LogicalFs.NoEntryBelow (T : FatTree H.toFat) (fs : LogicalFs Vol) (k : Key) : Prop :=
  ∀ q ∈ fs.perms.keys, ¬ k <+: T.key q

instance (T : FatTree H.toFat) (fs : LogicalFs Vol) (k : Key) : Decidable (fs.NoEntryBelow T k) :=
  inferInstanceAs (Decidable (∀ q ∈ fs.perms.keys, ¬ k <+: T.key q))

/-! ## What should hold -/

/-- The permissions last set on each file, after a call with the result `ok`:
renaming takes them along, and they are gone with the file. -/
def lastSet (T : FatTree H.toFat) (g : Key → Option PermEntry) (fs : LogicalFs Vol) (op : Op)
    (ok : Bool) (fs' : LogicalFs Vol) : Key → Option PermEntry :=
  let set : Key → Option PermEntry :=
    match op with
    | .rename old new =>
      if ok then fun k =>
        if T.key new <+: k then g (T.key old ++ k.drop (T.key new).length)
        else if T.key old <+: k then none
        else g k
      else g
    | .chmod path mode => update g (T.key path) ((g (T.key path)).map (.setMode mode))
    | .chown path uid gid =>
      if fs.has T (T.key path) then
        update g (T.key path) (some (.setOwner uid gid (g (T.key path))))
      else g
    | _ => g
  fun k => if fs'.has T k then set k else none

/-- A call, and the permissions last set. -/
def LogicalFs.tracked (T : FatTree H.toFat) (s : LogicalFs Vol × (Key → Option PermEntry))
    (op : Op) : Option (LogicalFs Vol × (Key → Option PermEntry)) :=
  (s.1.call H op).map fun (ok, fs') => (fs', lastSet T s.2 s.1 op ok fs')

/-- The table has, for each path of `S`, what was last set on its file, and nothing
if there is none. -/
structure LogicalFs.Follows (T : FatTree H.toFat) (S : Path → Prop) (fs : LogicalFs Vol)
    (g : Key → Option PermEntry) : Prop where
  entry : ∀ path, S path → lookup fs.perms path = g (T.key path)
  there : ∀ k, g k ≠ none → fs.has T k
  named : ∀ k, g k ≠ none → ∃ path, S path ∧ T.key path = k

/-- The call sets permissions and deletes by paths of `S`, of files that exist, and
renames and removes no tree that has an entry. -/
def LogicalFs.TendsPerms (T : FatTree H.toFat) (S : Path → Prop) (fs : LogicalFs Vol) : Op → Prop
  | .delete path => S path
  | .rename old new => fs.NoEntryBelow T (T.key old) ∧ fs.NoEntryBelow T (T.key new)
  | .rmdir path => fs.NoEntryBelow T (T.key path)
  | .chmod path _ => S path
  | .chown path _ _ => S path ∧ fs.has T (T.key path)
  | _ => True

instance (T : FatTree H.toFat) (S : Path → Prop) [DecidablePred S] (fs : LogicalFs Vol) :
    (op : Op) → Decidable (fs.TendsPerms T S op)
  | .delete path => inferInstanceAs (Decidable (S path))
  | .rename old new => inferInstanceAs
      (Decidable (fs.NoEntryBelow T (T.key old) ∧ fs.NoEntryBelow T (T.key new)))
  | .rmdir path => inferInstanceAs (Decidable (fs.NoEntryBelow T (T.key path)))
  | .chmod path _ => inferInstanceAs (Decidable (S path))
  | .chown path _ _ => inferInstanceAs (Decidable (S path ∧ fs.has T (T.key path)))
  | .openPath .. | .create .. | .close .. | .read .. | .write .. | .seek .. | .markShared _
  | .mkdir _ | .getdents _ | .stat _ => inferInstanceAs (Decidable True)

namespace LogicalFs

variable {T : FatTree H.toFat} {S : Path → Prop} {fs fs' : LogicalFs Vol}
  {g : Key → Option PermEntry} {k : Key}

theorem has_iff : fs.has T k ↔ ∃ v, fs.disk = some v ∧ (T.node v k).isSome := by
  unfold has
  cases hdisk : fs.disk with
  | none | some => simp

/-- Where no path has an entry, nothing was set. -/
theorem Follows.none_below (h : Follows T S fs g) {j : Key} (hj : fs.NoEntryBelow T j)
    (hk : j <+: k) : g k = none := by
  by_contra hset
  obtain ⟨path, hS, rfl⟩ := h.named k hset
  have hentry : lookup fs.perms path ≠ none := by rw [h.entry path hS]; exact hset
  exact hj path (mem_keys_iff.mpr (Option.ne_none_iff_exists'.mp hentry)) hk

variable {ok : Bool} {op : Op} {path : Path}

/-- A call of a tended run keeps what has permissions, unless it deletes it. -/
theorem has_step (h : Follows T S fs g) (htends : fs.TendsPerms T S op)
    (heffect : fs.Effect H op ok fs') (hset : g k ≠ none)
    (hdelete : ∀ path, op = .delete path → T.key path ≠ k) : fs'.has T k := by
  obtain ⟨v, hdisk, hnode⟩ := has_iff.mp (h.there k hset)
  obtain ⟨calls, hmakes, hcalls⟩ := heffect.disk
  refine has_iff.mpr (hmakes.invariant (fun v c hc => T.run_keeps ?_) ⟨v, hdisk, hnode⟩)
  refine mayCall_keeps (fun path hop _ => hdelete path hop) ?_ ?_ (hcalls c hc)
  · rintro old new rfl _ hbelow
    exact hset (h.none_below htends.1 hbelow)
  · rintro path rfl hbelow
    exact hset (h.none_below htends hbelow)

/-- Nothing is forgotten of what is still there. -/
theorem forget_eq {set : Key → Option PermEntry} (h : set k ≠ none → fs'.has T k) :
    (if fs'.has T k then set k else none) = set k := by
  by_cases hset : set k = none
  · rw [hset, ite_self]
  · rw [if_pos (h hset)]

/-- A call that leaves the table and what was set. -/
theorem Follows.unchanged (h : Follows T S fs g)
    (htends : fs.TendsPerms T S op) (heffect : fs.Effect H op ok fs')
    (hperms : fs.permsAfter ok op = lookup fs.perms)
    (hlast : lastSet T g fs op ok fs' = fun k => if fs'.has T k then g k else none)
    (hdelete : ∀ path, op ≠ .delete path) : Follows T S fs' (lastSet T g fs op ok fs') := by
  have hkept : ∀ k, g k ≠ none → fs'.has T k :=
    fun k hset => has_step h htends heffect hset fun path hop => absurd hop (hdelete path)
  have hsame : lastSet T g fs op ok fs' = g := hlast.trans (funext fun k => forget_eq (hkept k))
  rw [hsame]
  refine ⟨fun path hS => ?_, hkept, h.named⟩
  show lookup fs'.perms path = g (T.key path)
  rw [heffect.perms, hperms]
  exact h.entry path hS

/-- A deletion takes the file, if it succeeds. -/
theorem delete_has (h : fs.call H (.delete path) = some (ok, fs')) :
    fs'.has T (T.key path) = (!ok && fs.has T (T.key path)) := by
  obtain ⟨⟨res, _⟩, hdelete, heq⟩ := map_inv h
  cases heq
  rcases delete_cases hdelete with ⟨hok, rfl⟩ | ⟨disk, _, hdisk, _, hok, rfl⟩
  · rw [hok]
    rfl
  · have hremoved := T.removed disk (trimSlashes path)
    rw [← hok] at hremoved
    have hhas : ∀ fs₁ : LogicalFs Vol, fs₁.disk = some (H.remove disk (trimSlashes path)).2 →
        fs₁.has T (T.key path) = (!res.isOk && fs.has T (T.key path)) := by
      intro fs₁ hdisk₁
      unfold has
      rw [hdisk₁, hdisk, Option.bind_some, Option.bind_some]
      show (T.node _ (T.canon _)).isSome = (_ && (T.node _ (T.canon _)).isSome)
      rw [hremoved]
      cases res.isOk <;> rfl
    split <;> exact hhas _ rfl

theorem Follows.delete (hS : ∀ p q, S p → S q → T.key p = T.key q → p = q)
    (h : Follows T S fs g) (hpath : S path) (hcall : fs.call H (.delete path) = some (ok, fs')) :
    Follows T S fs' (lastSet T g fs (.delete path) ok fs') := by
  have heffect := call_effect hcall
  have hhas := delete_has (T := T) hcall
  have hother : ∀ k, g k ≠ none → T.key path ≠ k → fs'.has T k := fun k hset hne =>
    has_step h (show fs.TendsPerms T S (.delete path) from hpath) heffect hset
      fun p hop => by cases hop; exact hne
  refine ⟨fun q hq => ?_, ?_, ?_⟩
  · show lookup fs'.perms q = if fs'.has T (T.key q) then g (T.key q) else none
    rw [heffect.perms]
    dsimp only [permsAfter]
    -- Another path of the set has another key, on which the deletion has no effect.
    by_cases hqp : q = path
    · subst hqp
      rw [hhas]
      cases ok with
      | true => rw [if_pos rfl, update_self]; rfl
      -- Nothing was deleted, and the entry stays.
      | false =>
        rw [if_neg Bool.false_ne_true, Bool.not_false, Bool.true_and, h.entry q hq]
        exact (forget_eq (h.there _)).symm
    · have hne : T.key path ≠ T.key q := fun heq => hqp (hS q path hq hpath heq.symm)
      rw [forget_eq fun hset => hother _ hset hne, ← h.entry q hq]
      split
      · exact update_of_ne hqp ..
      · rfl
  · intro k hset
    by_contra hno
    exact hset (if_neg hno)
  · intro k hset
    refine h.named k fun hnone => hset ?_
    show (if fs'.has T k then g k else none) = none
    rw [hnone, ite_self]

/-- A call that sets the entry of a path. -/
theorem Follows.set {x : Option PermEntry}
    (hS : ∀ p q, S p → S q → T.key p = T.key q → p = q) (h : Follows T S fs g) (hpath : S path)
    (heffect : fs.Effect H op ok fs') (hnone : ∀ c, ¬ fs.mayCall H ok op c)
    (hthere : x ≠ none → fs.has T (T.key path))
    (hperms : fs.permsAfter ok op = update (lookup fs.perms) path x)
    (hlast : lastSet T g fs op ok fs'
      = fun k => if fs'.has T k then update g (T.key path) x k else none) :
    Follows T S fs' (lastSet T g fs op ok fs') := by
  -- no call of `fatfs` was made
  have hhas : ∀ k, fs'.has T k = fs.has T k := by
    obtain ⟨calls, hmakes, hcalls⟩ := heffect.disk
    cases calls with
    | nil => intro k; unfold has; rw [hmakes.eq_of_nil]
    | cons c calls => exact absurd (hcalls c List.mem_cons_self) (hnone c)
  have hkept : ∀ k, update g (T.key path) x k ≠ none → fs'.has T k := by
    intro k hset
    rw [hhas]
    by_cases hk : k = T.key path
    · subst hk
      rw [update_self] at hset
      exact hthere hset
    · rw [update_of_ne hk] at hset
      exact h.there k hset
  rw [hlast, funext fun k => forget_eq (hkept k)]
  refine ⟨fun q hq => ?_, hkept, fun k hset => ?_⟩
  · rw [heffect.perms, hperms]
    by_cases hqp : q = path
    · rw [hqp, update_self, update_self]
    · have hne : T.key q ≠ T.key path := fun heq => hqp (hS q path hq hpath heq)
      rw [update_of_ne hqp, update_of_ne hne]
      exact h.entry q hq
  · by_cases hk : k = T.key path
    · exact ⟨path, hpath, hk.symm⟩
    · rw [update_of_ne hk] at hset
      exact h.named k hset

/-- Renaming what has no permissions takes none along. -/
theorem lastSet_rename {old new : Path} (h : Follows T S fs g)
    (hold : fs.NoEntryBelow T (T.key old)) (hnew : fs.NoEntryBelow T (T.key new)) :
    lastSet T g fs (.rename old new) ok fs' = fun k => if fs'.has T k then g k else none := by
  cases ok with
  | false => rfl
  | true =>
    funext k
    show (if fs'.has T k then
      (if T.key new <+: k then g (T.key old ++ k.drop (T.key new).length)
        else if T.key old <+: k then none else g k) else none) = _
    congr 1
    split
    next hbelow => rw [h.none_below hold (List.prefix_append _ _), h.none_below hnew hbelow]
    · split
      next hbelow => exact (h.none_below hold hbelow).symm
      · rfl

/-- One call. -/
theorem Follows.step (hS : ∀ p q, S p → S q → T.key p = T.key q → p = q)
    (h : Follows T S fs g) (htends : fs.TendsPerms T S op)
    (hcall : fs.call H op = some (ok, fs')) : Follows T S fs' (lastSet T g fs op ok fs') := by
  have heffect := call_effect hcall
  cases op with
  | delete path => exact h.delete hS htends hcall
  | rename old new =>
    exact h.unchanged htends heffect rfl (lastSet_rename h htends.1 htends.2) (by simp)
  | chmod path mode =>
    have hentry := h.entry path htends
    refine h.set hS htends heffect (fun _ => id) ?_ (by dsimp only [permsAfter]; rw [hentry]) rfl
    exact fun hset => h.there _ fun hnone => hset (by rw [hnone]; rfl)
  | chown path uid gid =>
    obtain ⟨hpath, hthere⟩ := htends
    have hentry := h.entry path hpath
    refine h.set hS hpath heffect (fun _ => id) (fun _ => hthere) rfl ?_
    unfold lastSet
    dsimp only
    rw [if_pos hthere, hentry]
  | _ => exact h.unchanged htends heffect rfl rfl (by simp)

/-- **Permissions follow the file** in every state that tended calls reach: each path
of `S` has the entry that was last set on its file, through whatever names, and a
path without a file has none. -/
theorem permissions_follow {fs₀ : LogicalFs Vol} {g₀ : Key → Option PermEntry} {ops : List Op}
    (hS : ∀ p q, S p → S q → T.key p = T.key q → p = q) (hstart : Follows T S fs₀ g₀)
    (htends : Along (tracked T) (fun s op => s.1.TendsPerms T S op) (fs₀, g₀) ops)
    (h : exec (tracked T) (fs₀, g₀) ops = some (fs, g)) (path : Path) (hpath : S path) :
    lookup fs.perms path = if fs.has T (T.key path) then g (T.key path) else none := by
  have hfollows : Follows T S fs g := by
    refine exec_induction (I := fun s => Follows T S s.1 s.2) ?_ hstart htends h
    rintro ⟨fs, g⟩ op ⟨fs', g'⟩ hI htend hstep
    obtain ⟨⟨ok, _⟩, hcall, heq⟩ := map_inv hstep
    cases heq
    exact hI.step hS htend hcall
  rw [forget_eq (hfollows.there _)]
  exact hfollows.entry path hpath

theorem follows_mounted (disk : Option Vol) : Follows T S (mounted ∅ disk) fun _ => none where
  entry := fun path _ => congrFun lookup_empty path
  there := fun _ h => absurd rfl h
  named := fun _ h => absurd rfl h

/-- Owner and mode of a file are set; it is deleted and made again; another file, of
which nothing was set, is renamed. -/
def tendedFiles : List Op :=
  [.create "/a".toList 1, .close 3 1, .chown "/a".toList 5 5, .chmod "/a".toList 0o77,
    .delete "/a".toList, .create "/a".toList 1, .create "/c".toList 1,
    .rename "/c".toList "/b".toList, .chown "/b".toList 6 6]

/-- Two files of one run. -/
theorem permissions_follow_tendedFiles :
    ∃ fs g, exec (tracked treeHost.tree) (mounted ∅ (some .empty), fun _ => none) tendedFiles
        = some (fs, g) ∧
      ∀ path ∈ ["/a".toList, "/b".toList], lookup fs.perms path
        = if fs.has treeHost.tree (treeHost.tree.key path) then g (treeHost.tree.key path)
          else none := by
  obtain ⟨⟨fs, g⟩, hrun⟩ : ∃ s, exec (tracked treeHost.tree)
      (mounted ∅ (some .empty), fun _ => none) tendedFiles = some s :=
    Option.isSome_iff_exists.mp (by decide +kernel)
  refine ⟨fs, g, hrun, fun path hpath => ?_⟩
  refine permissions_follow (S := (· ∈ ["/a".toList, "/b".toList])) ?_ (follows_mounted _) ?_ hrun
    path hpath
  · have hone : ∀ p ∈ ["/a".toList, "/b".toList], ∀ q ∈ ["/a".toList, "/b".toList],
        treeHost.tree.key p = treeHost.tree.key q → p = q := by decide +kernel
    exact fun p q hp hq => hone p hp q hq
  · decide +kernel

/-- A file is given to user 5 and renamed: nothing is known of its owner. -/
theorem rename_leaves_entry :
    ∃ fs g, exec (tracked treeHost.tree) (mounted ∅ (some .empty), fun _ => none)
        [.create "/a".toList 1, .close 3 1, .chown "/a".toList 5 5,
          .rename "/a".toList "/b".toList] = some (fs, g) ∧
      fs.has treeHost.tree [['b']] ∧ g [['b']] = some ⟨5, 5, ⟨0b111⟩, ⟨0b101⟩, ⟨0b101⟩⟩ ∧
      lookup fs.perms "/b".toList = none := by
  have hrun : (exec (tracked treeHost.tree) (mounted ∅ (some .empty), fun _ => none)
      [.create "/a".toList 1, .close 3 1, .chown "/a".toList 5 5,
        .rename "/a".toList "/b".toList]).map (fun s =>
          (s.1.has treeHost.tree [['b']], s.2 [['b']], lookup s.1.perms "/b".toList))
      = some (true, some ⟨5, 5, ⟨0b111⟩, ⟨0b101⟩, ⟨0b101⟩⟩, none) := by decide +kernel
  obtain ⟨⟨fs, g⟩, hexec, heq⟩ := map_inv hrun
  obtain ⟨hhas, heq⟩ := Prod.mk.inj heq
  obtain ⟨hset, hnone⟩ := Prod.mk.inj heq
  exact ⟨fs, g, hexec, hhas, hset, hnone⟩

end LogicalFs

end AlaphiOS.Fs
