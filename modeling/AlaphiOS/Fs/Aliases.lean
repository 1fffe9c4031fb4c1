import AlaphiOS.Fs.OpenFiles

/-!
# One file, several names

`fatfs` ignores leading slashes (they are stripped before it is asked) and case, so
one file has many paths; the lock is kept by path. `case_conflict` refuses a path
that differs from an open one in case only. It compares the unstripped paths, so
`/a` and `//a` are opened side by side (`slash_opens_twice`).

`fold` is the case folding of `fatfs`, and any function will do. Calls keep one FCB
and one descriptor for each file as long as the paths they open differ from open
paths of the same file in a way that `str::to_lowercase` removes.
-/

namespace AlaphiOS.Fs

open Function Option Std AlaphiOS.Lib

variable {Vol : Type}

/-- The file that a path denotes. -/
def fileOf (fold : Path → Path) (path : Path) : Path := fold (trimSlashes path)

/-- No two FCBs and no two descriptors denote the same file. -/
structure LogicalFs.OnePerFile (fold : Path → Path) (fs : LogicalFs Vol) : Prop where
  fcb : ∀ p q, lookup fs.fcbs p ≠ none → lookup fs.fcbs q ≠ none →
    fileOf fold p = fileOf fold q → p = q
  entry : ∀ pid fd p pid' fd' q, fs.fds.entry pid fd = some p → fs.fds.entry pid' fd' = some q →
    fileOf fold p = fileOf fold q → pid = pid' ∧ fd = fd'

/-- A path that the call opens has the lower case of every open path of its file;
and the call does not delete an open file, which opening and closing never do. -/
def LogicalFs.SpellsAlike (fold : Path → Path) (H : Host Vol) (fs : LogicalFs Vol) (op : Op) :
    Prop :=
  (∀ path, op.opens = some path → ∀ q ∈ fs.fcbs.keys, fileOf fold q = fileOf fold path →
    H.toLowercase q = H.toLowercase path) ∧ fs.DeletesClosed H op

instance (fold : Path → Path) (H : Host Vol) (fs : LogicalFs Vol) (op : Op) :
    Decidable (fs.SpellsAlike fold H op) :=
  inferInstanceAs (Decidable ((∀ path, op.opens = some path → ∀ q ∈ fs.fcbs.keys,
    fileOf fold q = fileOf fold path → H.toLowercase q = H.toLowercase path) ∧
      fs.DeletesClosed H op))

/-- The same of a ledger: open paths of one file are equal. -/
def Unaliased (fold : Path → Path) (l : Ledger) : Prop :=
  ∀ p q, l.fcb p ≠ none → l.fcb q ≠ none → fileOf fold p = fileOf fold q → p = q

section

variable {fold toLowercase : Path → Path} {l l' : Ledger} {opens removes : Option Path}

theorem Unaliased.shrink (h : Unaliased fold l) (hsub : ∀ p, l'.fcb p ≠ none → l.fcb p ≠ none) :
    Unaliased fold l' :=
  fun p q hp hq => h p q (hsub p hp) (hsub q hq)

theorem Unaliased.change (h : Unaliased fold l) (hm : Change toLowercase opens removes l l')
    (hspell : ∀ path, opens = some path → ∀ q, l.fcb q ≠ none → fileOf fold q = fileOf fold path →
      toLowercase q = toLowercase path) : Unaliased fold l' := by
  cases hm with
  | same => exact h
  | @acquire path pid fd n hopens hconflict hlock hfd =>
    -- an open path of the same file is the path itself
    have hsame : ∀ q, l.fcb q ≠ none → fileOf fold q = fileOf fold path → q = path := by
      intro q hq hfile
      by_contra hne
      exact hconflict q hq hne (hspell path hopens q hq hfile)
    have hold : ∀ q, q ≠ path → update l.fcb path (some (n + 1, some pid)) q ≠ none →
        l.fcb q ≠ none := by
      intro q hq hfcb
      rwa [update_of_ne hq] at hfcb
    intro p q hp hq hfile
    by_cases hp' : p = path
    · by_cases hq' : q = path
      · rw [hp', hq']
      · rw [hp'] at hfile ⊢
        exact (hsame q (hold q hq' hq) hfile.symm).symm
    · by_cases hq' : q = path
      · rw [hq'] at hfile ⊢
        exact hsame p (hold p hp' hp) hfile
      · exact h p q (hold p hp' hp) (hold q hq' hq) hfile
  | @release path pid fd hfd =>
    refine h.shrink fun p hp hnone => hp ?_
    show update l.fcb path _ p = none
    by_cases hpath : p = path
    · rw [hpath, update_self, ← hpath, hnone]
      rfl
    · rwa [update_of_ne hpath]
  | @drop path _ =>
    refine h.shrink fun p hp hnone => hp ?_
    show update l.fcb path _ p = none
    by_cases hpath : p = path
    · rw [hpath, update_self]
    · rwa [update_of_ne hpath]

end

namespace LogicalFs

variable {H : Host Vol} {fold : Path → Path} {fs : LogicalFs Vol}

theorem ledger_fcb_ne_none {path : Path} :
    fs.ledger.fcb path ≠ none ↔ lookup fs.fcbs path ≠ none := by
  show (lookup fs.fcbs path).map Fcb.lock ≠ none ↔ _
  rw [ne_eq, map_eq_none_iff]

theorem onePerFile_of_books {held : Path → Option (Pid × Nat)} (hbooks : Books fs.ledger held)
    (h : Unaliased fold fs.ledger) : fs.OnePerFile fold where
  fcb := fun p q hp hq => h p q (ledger_fcb_ne_none.mpr hp) (ledger_fcb_ne_none.mpr hq)
  entry := by
    intro pid fd p pid' fd' q hp hq hfile
    have hheld := (hbooks.entry pid fd p).mp hp
    have hheld' := (hbooks.entry pid' fd' q).mp hq
    have hopen : ∀ {x holder}, held x = some holder → fs.ledger.fcb x ≠ none := by
      intro x holder hx hnone
      cases hx.symm.trans (hbooks.fcb_none.mp hnone)
    obtain rfl := h p q (hopen hheld) (hopen hheld') hfile
    exact Prod.mk.inj (some.inj (hheld.symm.trans hheld'))

/-- **Access is exclusive for each file** in every state that calls reach, if
paths of one file are told apart by their lower case only. -/
theorem one_per_file {perms : PermsDb} {disk : Option Vol} {ops : List Op}
    (hspell : Along (step H) (SpellsAlike fold H) (mounted perms disk) ops)
    (h : exec (step H) (mounted perms disk) ops = some fs) : fs.OnePerFile fold := by
  have hinit : ∀ p, (mounted perms disk).ledger.fcb p = none :=
    fun p => (mounted_books perms disk).fcb p
  obtain ⟨⟨held, hbooks⟩, hone⟩ := exec_induction
    (I := fun fs => (∃ held, Books fs.ledger held) ∧ Unaliased fold fs.ledger)
    (fun fs op fs' ⟨⟨held, hbooks⟩, hone⟩ ⟨hlower, hdeletes⟩ hstep => by
      obtain ⟨ok, heffect⟩ := step_effect hstep
      refine ⟨hbooks.change heffect.ledger fun path hremoves => ?_, ?_⟩
      · exact congrArg (Option.map Fcb.lock) (hdeletes path hremoves)
      · refine hone.change heffect.ledger fun path hopens q hq hfile => ?_
        refine hlower path hopens q (mem_keys_iff.mpr ?_) hfile
        exact Option.ne_none_iff_exists'.mp (ledger_fcb_ne_none.mp hq))
    ⟨⟨_, mounted_books perms disk⟩, fun p _ hp => absurd (hinit p) hp⟩ hspell h
  exact onePerFile_of_books hbooks hone

/-- Two processes and one file: other cases of an open path are refused. -/
def caseRefused : List Op :=
  [.create ['/', 'a'] 1, .openPath ['/', 'A'] 2 0 0, .close 3 1, .openPath ['/', 'A'] 2 0 0]

/-- The other case is refused. -/
theorem one_per_file_caseRefused :
    ∃ fs, exec (step treeHost) (mounted ∅ (some .empty)) caseRefused = some fs ∧
      fs.OnePerFile asciiLower := by
  obtain ⟨fs, hfs⟩ : ∃ fs, exec (step treeHost) (mounted ∅ (some .empty)) caseRefused = some fs :=
    isSome_iff_exists.mp (by decide +kernel)
  exact ⟨fs, hfs, one_per_file (by decide +kernel) hfs⟩

/-- One more slash, and two processes have the file open. -/
theorem slash_opens_twice :
    ∃ fs, exec (step treeHost) (mounted ∅ (some .empty))
        [.create ['/', 'a'] 1, .openPath ['/', '/', 'a'] 2 0 0] = some fs ∧
      ¬ fs.OnePerFile asciiLower := by
  have hboth : (exec (step treeHost) (mounted ∅ (some .empty))
      [.create ['/', 'a'] 1, .openPath ['/', '/', 'a'] 2 0 0]).map
        (fun fs => (fs.fds.entry 1 3, fs.fds.entry 2 3))
      = some (some ['/', 'a'], some ['/', '/', 'a']) := by decide +kernel
  obtain ⟨fs, hfs, hentries⟩ := map_inv hboth
  obtain ⟨hone, htwo⟩ := Prod.mk.inj hentries
  refine ⟨fs, hfs, fun h => ?_⟩
  exact absurd (h.entry 1 3 _ 2 3 _ hone htwo (by decide)).1 (by decide)

end LogicalFs

end AlaphiOS.Fs
