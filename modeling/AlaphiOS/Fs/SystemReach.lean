import AlaphiOS.Fs.Tree

/-!
# What calls reach on the disk

The kernel makes the directory `.system` for its databases (`ensure_system_dir` of
`kernel/src/fs/fat.rs`). Without long names `fatfs` stores it as `SYSTEM~1`, the one name
by which a path leads there. `LogicalFs` does not know it: what is below is opened, created,
listed and removed like anything else (`create_in_system`).

To say what a run touches, `Fat.logged` keeps with the volume a list of the calls
made on it. Calls whose paths stay out of the directory, and which do not rename or
recursively remove what is above it, touch nothing in it. For reading and writing
through a descriptor this takes an invariant: every descriptor names a path that
was opened before.
-/

namespace AlaphiOS.Fs

open List Std AlaphiOS.Lib

variable {Vol : Type}

/-! ## A log of the calls -/

/-- `fatfs` with a log of its calls. -/
def Fat.logged (F : Fat Vol) : Fat (Vol × List Call) where
  openFile := fun (v, log) p => ((F.openFile v p).1, (F.openFile v p).2, log ++ [.openFile p])
  createFile := fun (v, log) p =>
    ((F.createFile v p).1, (F.createFile v p).2, log ++ [.createFile p])
  createDir := fun (v, log) p => ((F.createDir v p).1, (F.createDir v p).2, log ++ [.createDir p])
  remove := fun (v, log) p => ((F.remove v p).1, (F.remove v p).2, log ++ [.remove p])
  rename := fun (v, log) old new =>
    ((F.rename v old new).1, (F.rename v old new).2, log ++ [.rename old new])
  openDir := fun (v, log) p => ((F.openDir v p).1, (F.openDir v p).2, log ++ [.openDir p])
  size := fun (v, log) p => ((F.size v p).1, (F.size v p).2, log ++ [.size p])
  readAt := fun (v, log) p offset len =>
    ((F.readAt v p offset len).1, (F.readAt v p offset len).2, log ++ [.readAt p offset len])
  writeAt := fun (v, log) p offset buf =>
    ((F.writeAt v p offset buf).1, (F.writeAt v p offset buf).2, log ++ [.writeAt p offset buf])

/-- The host over it. -/
def Host.logged (H : Host Vol) : Host (Vol × List Call) where
  toFat := H.toFat.logged
  toLowercase := H.toLowercase
  stackDepth := H.stackDepth

theorem Fat.run_logged (F : Fat Vol) (v : Vol) (log : List Call) (c : Call) :
    F.logged.run (v, log) c = ((F.run v c).1, (F.run v c).2, log ++ [c]) := by
  cases c <;> rfl

/-- The log is the calls made. -/
theorem Fat.makes_logged {F : Fat Vol} {v : Vol} {log : List Call} {calls : List (Call × Bool)}
    {disk : Option (Vol × List Call)} (h : F.logged.Makes (some (v, log)) calls disk) :
    ∃ v', disk = some (v', log ++ calls.map Prod.fst) := by
  generalize hstart : some (v, log) = start at h
  induction h generalizing v log with
  | nil => exact ⟨v, by rw [← hstart, map_nil, append_nil]⟩
  | @cons w c calls disk _ ih =>
    cases hstart
    rw [F.run_logged] at ih
    obtain ⟨v', hv'⟩ := ih rfl
    exact ⟨v', by rw [hv', map_cons, append_assoc, singleton_append]⟩

/-- Listings are those of the volume. -/
theorem Fat.below_logged {F : Fat Vol} {p q : Path} (h : F.logged.Below p q) : F.Below p q := by
  refine Relation.ReflTransGen.mono ?_ _ _ h
  rintro p q ⟨⟨v, log⟩, entries, entry, hopen, hmem, rfl⟩
  exact ⟨v, entries, entry, hopen, hmem, rfl⟩

/-! ## The system domain -/

namespace FatTree

variable {F : Fat Vol} (T : FatTree F)

/-- The directory that `create_dir(".system")` makes, by the name that is stored. -/
def system : Key := T.canon "SYSTEM~1".toList

/-- The call opens, reads, lists, creates, changes or removes what is under the key.
A renamed directory takes along what is below. -/
def Touches (k : Key) : Call → Prop
  | .openFile p | .createFile p | .createDir p | .remove p | .openDir p | .size p => T.canon p = k
  | .readAt p _ _ | .writeAt p _ _ => T.canon p = k
  | .rename old new => T.canon old <+: k ∨ T.canon new <+: k

/-- The call touches nothing at or below the directory. -/
def Clean (c : Call) : Prop := ∀ k, T.system <+: k → ¬ T.Touches k c

/-- Neither in the directory nor, for what works on whole subtrees, above it. -/
def OutsideSystem : Op → Prop
  | .openPath p _ _ _ | .create p _ | .delete p | .mkdir p | .getdents p | .stat p =>
    ¬ T.system <+: T.key p
  | .rmdir p => ¬ T.system <+: T.key p ∧ ¬ T.key p <+: T.system
  | .rename old new => (¬ T.system <+: T.key old ∧ ¬ T.key old <+: T.system) ∧
      ¬ T.system <+: T.key new ∧ ¬ T.key new <+: T.system
  | _ => True

instance : (op : Op) → Decidable (T.OutsideSystem op)
  | .openPath p _ _ _ | .create p _ | .delete p | .mkdir p | .getdents p | .stat p =>
    inferInstanceAs (Decidable (¬ T.system <+: T.key p))
  | .rmdir p => inferInstanceAs (Decidable (¬ T.system <+: T.key p ∧ ¬ T.key p <+: T.system))
  | .rename old new =>
    inferInstanceAs (Decidable ((¬ T.system <+: T.key old ∧ ¬ T.key old <+: T.system) ∧
      ¬ T.system <+: T.key new ∧ ¬ T.key new <+: T.system))
  | .close .. | .read .. | .write .. | .seek .. | .markShared _ | .chmod .. | .chown .. =>
    inferInstanceAs (Decidable True)

variable {T}

/-- Two prefixes of one key are comparable. -/
theorem not_prefix_of_apart {j k : Key} (h : ¬ T.system <+: j ∧ ¬ j <+: T.system)
    (hk : T.system <+: k) : ¬ j <+: k := fun hj =>
  ( prefix_or_prefix_of_prefix hk hj).elim h.1 h.2

end FatTree

namespace LogicalFs

variable {H : Host Vol} {T : FatTree H.toFat} {fs fs' : LogicalFs (Vol × List Call)}

/-- Every descriptor names a path outside. -/
def OpenOutside (T : FatTree H.toFat) (fs : LogicalFs (Vol × List Call)) : Prop :=
  ∀ pid fd path, fs.fds.entry pid fd = some path → ¬ T.system <+: T.key path

theorem mayCall_clean {op : Op} {ok : Bool} {c : Call × Bool} (houtside : T.OutsideSystem op)
    (hopen : OpenOutside T fs) (hmay : fs.mayCall H.logged ok op c) : T.Clean c.1 := by
  -- a call on the one file of an outside path
  have hone : ∀ {p : Path} {k : Key}, ¬ T.system <+: T.key p → T.system <+: k → T.key p ≠ k :=
    fun hp hk heq => hp (heq ▸ hk)
  intro k hk
  cases op with
  | openPath | create | mkdir | getdents => rw [show c.1 = _ from hmay]; exact hone houtside hk
  | close | seek | markShared | chmod | chown => exact hmay.elim
  | read fd pid uid gid len =>
    obtain ⟨path, hentry, hc | ⟨offset, hc⟩⟩ := hmay <;>
      (rw [hc]; exact hone (hopen pid fd path hentry) hk)
  | write fd pid uid gid buf =>
    obtain ⟨path, fcb, hentry, _, _, _, hc | hc⟩ := hmay <;>
      (rw [hc]; exact hone (hopen pid fd path hentry) hk)
  | delete path =>
    obtain ⟨_, hc⟩ := hmay
    rw [hc]
    exact hone houtside hk
  | rename old new =>
    obtain ⟨_, hc⟩ := hmay
    rw [hc]
    rintro (hold | hnew)
    · exact FatTree.not_prefix_of_apart houtside.1 hk hold
    · exact FatTree.not_prefix_of_apart houtside.2 hk hnew
  | rmdir path =>
    obtain ⟨q, hbelow, hc⟩ := hmay
    have hq : T.canon q ≠ k := by
      rintro rfl
      exact FatTree.not_prefix_of_apart houtside hk (T.below_prefix (Fat.below_logged hbelow))
    obtain hc | hc := hc <;> (rw [hc]; exact hq)
  | stat path =>
    obtain hc | hc | hc := hmay <;> (rw [hc]; exact hone houtside hk)

theorem openOutside_step {op : Op} {ok : Bool} (houtside : T.OutsideSystem op)
    (hopen : OpenOutside T fs) (h : fs.Effect H.logged op ok fs') : OpenOutside T fs' := by
  intro pid fd path hentry
  rcases h.ledger.entry_cases hentry with hold | hopens
  · exact hopen pid fd path hold
  · cases op with
    | openPath | create => exact Option.some.inj hopens ▸ houtside
    | _ => exact absurd hopens (by simp [Op.opens])

/-- **The system domain is out of reach** of calls whose paths stay outside: in no
run of them is anything at or below the directory touched. -/
theorem system_out_of_reach {perms : PermsDb} {v : Vol} {ops : List Op}
    (houtside : ∀ op ∈ ops, T.OutsideSystem op)
    (h : exec (step H.logged) (mounted perms (some (v, []))) ops = some fs) :
    ∃ v' log, fs.disk = some (v', log) ∧ ∀ c ∈ log, T.Clean c := by
  -- At first no file is open.
  have hempty : OpenOutside T (mounted perms (some (v, []))) := by
    intro pid fd path hentry
    have hnone : FdRegistry.entry ∅ pid fd = none := by
      unfold FdRegistry.entry
      rw [lookup_empty]
      rfl
    cases hnone.symm.trans hentry
  -- The log is clean, and every open file is outside: a descriptor carries a path from one
  -- call to a later one.
  refine (exec_induction
    (I := fun fs => (∃ v' log, fs.disk = some (v', log) ∧ ∀ c ∈ log, T.Clean c) ∧ OpenOutside T fs)
    ?_ ⟨⟨v, [], rfl, nofun⟩, hempty⟩
    (along_true.and_forall houtside) h).1
  rintro fs op fs' ⟨⟨v', log, hdisk, hclean⟩, hopen⟩ ⟨hout, _⟩ hstep
  obtain ⟨ok, heffect⟩ := step_effect hstep
  refine ⟨?_, openOutside_step hout hopen heffect⟩
  obtain ⟨calls, hmakes, hcalls⟩ := heffect.disk
  rw [hdisk] at hmakes
  obtain ⟨v'', hdisk'⟩ := Fat.makes_logged hmakes
  refine ⟨v'', _, hdisk', fun c hc => ?_⟩
  -- The calls of this step come after those of the log.
  rcases mem_append.mp hc with hc | hc
  · exact hclean c hc
  · obtain ⟨call, hcall, rfl⟩ := mem_map.mp hc
    exact mayCall_clean hout hopen (hcalls call hcall)

/-- The volume as it is formatted at boot. -/
def formatted : TreeVol := TreeVol.empty.put ["system~1".toList] (some .dir)

/-- A directory is made, used and removed again. -/
def besideSystem : List Op :=
  [.mkdir "/d".toList, .create "/d/f".toList 1, .write 3 1 0 0 [1], .close 3 1,
    .rename "/d/f".toList "/d/g".toList, .getdents "/d".toList, .rmdir "/d".toList]

/-- Calls beside `/SYSTEM`. -/
theorem system_out_of_reach_besideSystem :
    ∃ fs v log, exec (step treeHost.logged) (mounted ∅ (some (formatted, []))) besideSystem
        = some fs ∧ fs.disk = some (v, log) ∧ ∀ c ∈ log, treeHost.tree.Clean c := by
  obtain ⟨fs, hfs⟩ : ∃ fs, exec (step treeHost.logged) (mounted ∅ (some (formatted, [])))
      besideSystem = some fs := Option.isSome_iff_exists.mp (by decide +kernel)
  obtain ⟨v, log, hdisk, hclean⟩ :=
    system_out_of_reach (T := treeHost.tree) (by decide +kernel) hfs
  exact ⟨fs, v, log, hfs, hdisk, hclean⟩

/-- Any process creates a password database there, and writes to it. -/
theorem create_in_system :
    ∃ fs v log, exec (step treeHost.logged) (mounted ∅ (some (formatted, [])))
        [.create "/SYSTEM~1/auth.db".toList 1, .write 3 1 5 5 [0, 7]] = some fs ∧
      fs.disk = some (v, log) ∧
      v.node ["system~1".toList, "auth.db".toList] = some (.file [0, 7]) ∧
      ∃ c ∈ log, ¬ treeHost.tree.Clean c := by
  have hrun : (exec (step treeHost.logged) (mounted ∅ (some (formatted, [])))
      [.create "/SYSTEM~1/auth.db".toList 1, .write 3 1 5 5 [0, 7]]).bind
        (fun fs => fs.disk.map fun (v, log) =>
          (v.node ["system~1".toList, "auth.db".toList], log)) = some (some (.file [0, 7]),
      [.createFile "SYSTEM~1/auth.db".toList, .openFile "SYSTEM~1/auth.db".toList,
        .writeAt "SYSTEM~1/auth.db".toList 0 [0, 7]]) := by decide +kernel
  obtain ⟨fs, hfs, hdisk⟩ := bind_inv hrun
  obtain ⟨⟨v, log⟩, hdisk, heq⟩ := map_inv hdisk
  obtain ⟨hnode, rfl⟩ := Prod.mk.inj heq
  refine ⟨fs, v, _, hfs, hdisk, hnode, .createFile "SYSTEM~1/auth.db".toList, by simp,
    fun hclean => ?_⟩
  exact hclean ["system~1".toList, "auth.db".toList] (by decide +kernel)
    (show treeHost.tree.canon "SYSTEM~1/auth.db".toList = _ by decide +kernel)

end LogicalFs

end AlaphiOS.Fs
