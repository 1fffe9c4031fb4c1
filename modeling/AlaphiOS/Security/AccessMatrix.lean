import AlaphiOS.Security.AccessControl
import Mathlib.Data.List.Nodup

/-!
# The access matrix behind the access lists

The textbook form of `kernel/src/security/mod.rs`: a matrix of rights, with a row for each domain
and a column for each object, and a table of roles beside it. A call assigns to one cell or to
none.

`matrixOf` reads the matrix off the access lists. It commutes with every call (`call_matrixOf`),
so the lists of any sequence of calls are the matrix of that sequence. `lookup` would do so with
any lists; that there is nothing in them besides, no second entry of a domain and no entry
without rights, is `Tidy`.
-/

namespace AlaphiOS.Security

open Lib Function List

/-! ## Lists without waste -/

/-- Each domain has one entry at most, and each entry some right. -/
structure Tidy (entries : List AccessEntry) : Prop where
  domains : (entries.map AccessEntry.domain).Nodup
  rights : ∀ e ∈ entries, e.rights ≠ .none

/-- The entry that is changed keeps its domain. -/
theorem map_domain_modify (entries : List AccessEntry) (idx : Nat) (rights : Rights) :
    (entries.modify idx fun e => { e with rights := rights }).map AccessEntry.domain
      = entries.map AccessEntry.domain := by
  refine ext_getElem? fun i => ?_
  rw [getElem?_map, getElem?_map, getElem?_modify]
  cases entries[i]? with
  | none => rfl
  | some e =>
    by_cases hi : idx = i
    · simp [hi]
    · simp [hi]

theorem mem_modify {entries : List AccessEntry} {idx : Nat} {f : AccessEntry → AccessEntry}
    {e : AccessEntry} (h : e ∈ entries.modify idx f) : e ∈ entries ∨ ∃ old ∈ entries, f old = e := by
  obtain ⟨i, hi⟩ := mem_iff_getElem?.mp h
  rw [getElem?_modify] at hi
  obtain ⟨old, hold, heq⟩ := Option.map_eq_some_iff.mp hi
  have hmem : old ∈ entries := mem_of_getElem? hold
  split at heq
  · exact .inr ⟨old, hmem, heq⟩
  · exact .inl (heq ▸ hmem)

/-- `setEntry` keeps the list tidy in each of its three branches. -/
theorem Tidy.setEntry {entries : List AccessEntry} (h : Tidy entries) (domain : DomainId)
    (rights : Rights) : Tidy (setEntry entries domain rights) := by
  unfold Security.setEntry
  split
  · refine ⟨h.domains.sublist (filter_sublist.map _), fun e he => ?_⟩
    exact h.rights e (mem_of_mem_filter he)
  next hbits =>
    have hrights : rights ≠ .none := fun heq => hbits (by rw [heq]; rfl)
    split
    next idx hidx =>
      refine ⟨?_, fun e he => ?_⟩
      · rw [map_domain_modify]
        exact h.domains
      · rcases mem_modify he with he | ⟨old, _, rfl⟩
        · exact h.rights e he
        · exact hrights
    next hnone =>
      have hnew : ∀ e ∈ entries, e.domain ≠ domain :=
        fun e he => beq_eq_false_iff_ne.mp (findIdx?_eq_none_iff.mp hnone e he)
      refine ⟨?_, fun e he => ?_⟩
      · rw [map_append]
        refine nodup_append.mpr ⟨h.domains, nodup_singleton _, fun d hd d' hd' => ?_⟩
        obtain ⟨e, he, rfl⟩ := mem_map.mp hd
        obtain rfl := mem_singleton.mp hd'
        exact hnew e he
      · rcases mem_append.mp he with he | he
        · exact h.rights e he
        · obtain rfl := mem_singleton.mp he
          exact hrights

/-- The entries of every object are tidy. -/
def AccessList.Tidy (l : AccessList) : Prop :=
  ∀ o entries, Lib.lookup l.objects o = some entries → Security.Tidy entries

theorem AccessList.Tidy.set {l : AccessList} (h : l.Tidy) (domain : DomainId) (object : ObjectId)
    (rights : Rights) : (l.set domain object rights).Tidy := by
  intro o entries ho
  unfold AccessList.set at ho
  dsimp only at ho
  rw [lookup_insert] at ho
  by_cases heq : o = object
  · subst heq
    rw [update_self] at ho
    cases ho
    refine Security.Tidy.setEntry ?_ domain rights
    cases hold : Lib.lookup l.objects o with
    | none => exact ⟨nodup_nil, nofun⟩
    | some entries => exact h o entries hold
  · rw [update_of_ne heq] at ho
    exact h o entries ho

/-! ## The matrix -/

/-- What a domain may do to an object, what role it has, and what the roles may do. -/
structure Matrix where
  cell : DomainId → ObjectId → Rights
  role : DomainId → Option RoleId
  roles : RoleId → Option Rights

/-- A call of any of the operations that change something. -/
inductive Call where
  | setRights (domain : DomainId) (object : ObjectId) (rights : Rights)
  | grant (grantor target : DomainId) (object : ObjectId) (rights : Rights)
  | revoke (revoker target : DomainId) (object : ObjectId) (rights : Rights)
  | defineRole (role : RoleId) (rights : Rights)
  | assignRole (domain : DomainId) (role : RoleId)

/-- The cell that the call is about. -/
def Call.Writes (d : DomainId) (o : ObjectId) : Call → Prop
  | .setRights domain object _ => d = domain ∧ o = object
  | .grant _ target object _ => d = target ∧ o = object
  | .revoke _ target object _ => d = target ∧ o = object
  | _ => False

namespace Matrix

/-- Nobody may do anything, and there are no roles. -/
def empty : Matrix := ⟨fun _ _ => .none, fun _ => none, fun _ => none⟩

/-- The rights of a domain's role. -/
def roleRights (M : Matrix) (d : DomainId) : Rights := ((M.role d).bind M.roles).getD .none

/-- The cell and the role together. -/
def access (M : Matrix) (d : DomainId) (o : ObjectId) : Rights :=
  ⟨(M.cell d o).bits ||| (M.roleRights d).bits⟩

/-- Assignment to one cell. -/
def assign (M : Matrix) (d : DomainId) (o : ObjectId) (rights : Rights) : Matrix :=
  { M with cell := fun d' o' => if d' = d ∧ o' = o then rights else M.cell d' o' }

/-- Owners and controllers may give and take any rights. -/
def rules (M : Matrix) (d : DomainId) (o : ObjectId) : Bool :=
  (M.access d o).contains Rights.owner || (M.access d o).contains Rights.control

/-- Who has the copy right may give what rights they have. -/
def copies (M : Matrix) (d : DomainId) (o : ObjectId) (rights : Rights) : Bool :=
  (M.access d o).contains Rights.copy && (M.access d o).contains rights.bits

/-- The call on the matrix, and whether it is permitted. -/
def step (M : Matrix) : Call → Bool × Matrix
  | .setRights d o rights => (true, M.assign d o rights)
  | .grant g d o rights =>
    if M.rules g o || M.copies g o rights then
      (true, M.assign d o ⟨(M.cell d o).bits ||| rights.bits⟩)
    else (false, M)
  | .revoke r d o rights =>
    if M.rules r o then (true, M.assign d o ⟨(M.cell d o).bits &&& ~~~rights.bits⟩)
    else (false, M)
  | .defineRole role rights =>
    (true, { M with roles := fun r => if r = role then some rights else M.roles r })
  | .assignRole d role =>
    (true, { M with role := fun d' => if d' = d then some role else M.role d' })

/-- The matrix after a sequence of calls. -/
def after (calls : List Call) : Matrix := calls.foldl (fun M c => (M.step c).2) empty

/-- A call leaves every cell but the one it is about. -/
theorem step_cell {M : Matrix} {c : Call} {d : DomainId} {o : ObjectId} (h : ¬ c.Writes d o) :
    (M.step c).2.cell d o = M.cell d o := by
  cases c with
  | setRights domain object rights => exact if_neg h
  | grant | revoke =>
    unfold step
    dsimp only
    split
    · exact if_neg h
    · rfl
  | defineRole | assignRole => rfl

end Matrix

namespace RbacAccessControl

/-- The call on the access lists, and its result (`true` where there is none). -/
def call (ac : RbacAccessControl) : Call → Bool × RbacAccessControl
  | .setRights domain object rights => (true, ac.setRights domain object rights)
  | .grant grantor target object rights => ac.grant grantor target object rights
  | .revoke revoker target object rights => ac.revoke revoker target object rights
  | .defineRole role rights => (true, ac.defineRole role rights)
  | .assignRole domain role => (true, ac.assignRole domain role)

/-- The access lists after a sequence of calls. -/
def after (calls : List Call) : RbacAccessControl := calls.foldl (fun ac c => (ac.call c).2) new

/-- The matrix that the lists and maps stand for. -/
def matrixOf (ac : RbacAccessControl) : Matrix :=
  ⟨ac.acl.lookup, lookup ac.userRoles, lookup ac.roles⟩

variable {ac : RbacAccessControl}

theorem access_matrixOf (d : DomainId) (o : ObjectId) : ac.matrixOf.access d o = ac.access d o := rfl

/-- `set` is assignment to one cell. -/
theorem matrixOf_set (d : DomainId) (o : ObjectId) (rights : Rights) :
    matrixOf { ac with acl := ac.acl.set d o rights } = ac.matrixOf.assign d o rights := by
  unfold matrixOf Matrix.assign
  congr 1
  funext d' o'
  exact AccessList.lookup_set

/-- The two ways `grant` can go through set the same entry. -/
theorem grant_eq (g d : DomainId) (o : ObjectId) (rights : Rights) :
    ac.grant g d o rights =
      if ac.matrixOf.rules g o || ac.matrixOf.copies g o rights then
        (true, ac.setRights d o ⟨(ac.acl.lookup d o).bits ||| rights.bits⟩)
      else (false, ac) := by
  unfold grant Matrix.rules Matrix.copies
  rw [access_matrixOf]
  dsimp only
  by_cases hown : ((ac.access g o).contains Rights.owner
      || (ac.access g o).contains Rights.control) = true
  · rw [if_pos hown, if_pos (by rw [hown, Bool.true_or])]
    rfl
  rw [if_neg hown, Bool.eq_false_of_not_eq_true hown, Bool.false_or]
  by_cases hcopy : (ac.access g o).contains Rights.copy = true
  · rw [if_pos hcopy, hcopy, Bool.true_and]
    -- what can be copied is what was asked for
    exact if_congr beq_iff_eq.symm rfl rfl
  · rw [if_neg hcopy, Bool.eq_false_of_not_eq_true hcopy, Bool.false_and]
    rfl

theorem revoke_eq (r d : DomainId) (o : ObjectId) (rights : Rights) :
    ac.revoke r d o rights =
      if ac.matrixOf.rules r o then
        (true, ac.setRights d o ⟨(ac.acl.lookup d o).bits &&& ~~~rights.bits⟩)
      else (false, ac) := rfl

/-- A call on the lists is the call on their matrix. -/
theorem call_matrixOf (ac : RbacAccessControl) (c : Call) :
    (ac.call c).1 = (ac.matrixOf.step c).1 ∧
      matrixOf (ac.call c).2 = (ac.matrixOf.step c).2 := by
  unfold call Matrix.step
  cases c with
  | setRights d o rights => exact ⟨rfl, matrixOf_set d o rights⟩
  | grant g d o rights =>
    dsimp only
    rw [grant_eq]
    split
    · exact ⟨rfl, matrixOf_set d o _⟩
    · exact ⟨rfl, rfl⟩
  | revoke r d o rights =>
    dsimp only
    rw [revoke_eq]
    split
    · exact ⟨rfl, matrixOf_set d o _⟩
    · exact ⟨rfl, rfl⟩
  | defineRole role rights =>
    refine ⟨rfl, ?_⟩
    unfold defineRole matrixOf
    congr 1
    exact lookup_insert.trans (funext fun r => update_apply _ _ _ r)
  | assignRole d role =>
    refine ⟨rfl, ?_⟩
    unfold assignRole matrixOf
    congr 1
    exact lookup_insert.trans (funext fun d' => update_apply _ _ _ d')

/-- A call is refused and changes nothing, or it goes through and the lists are as they were or
one entry of them is set. -/
theorem call_cases (ac : RbacAccessControl) (c : Call) :
    ac.call c = (false, ac) ∨
      (ac.call c).1 = true ∧
        ((ac.call c).2.acl = ac.acl ∨
          ∃ d o rights, (ac.call c).2.acl = ac.acl.set d o rights) := by
  unfold call
  cases c with
  | setRights d o rights => exact .inr ⟨rfl, .inr ⟨d, o, rights, rfl⟩⟩
  | grant g d o rights =>
    dsimp only
    rw [grant_eq]
    split
    · exact .inr ⟨rfl, .inr ⟨d, o, _, rfl⟩⟩
    · exact .inl rfl
  | revoke r d o rights =>
    dsimp only
    rw [revoke_eq]
    split
    · exact .inr ⟨rfl, .inr ⟨d, o, _, rfl⟩⟩
    · exact .inl rfl
  | defineRole | assignRole => exact .inr ⟨rfl, .inl rfl⟩

theorem call_tidy (h : ac.acl.Tidy) (c : Call) : (ac.call c).2.acl.Tidy := by
  rcases call_cases ac c with heq | ⟨_, heq | ⟨d, o, rights, heq⟩⟩
  · rw [heq]
    exact h
  · rw [heq]
    exact h
  · rw [heq]
    exact h.set d o rights

/-! ## Any sequence of calls -/

theorem after_matrixOf (calls : List Call) : (after calls).matrixOf = Matrix.after calls := by
  have hnew : new.matrixOf = Matrix.empty := by
    unfold matrixOf new Matrix.empty
    rw [lookup_empty, lookup_empty]
    rfl
  unfold after Matrix.after
  rw [← hnew]
  exact (foldl_hom matrixOf fun ac c => (call_matrixOf ac c).2.symm).symm

theorem after_tidy (calls : List Call) : (after calls).acl.Tidy := by
  have hnew : new.acl.Tidy := by
    intro o entries ho
    have hnone : Lib.lookup new.acl.objects o = none := congrFun lookup_empty o
    cases hnone.symm.trans ho
  exact foldlRecOn (motive := fun ac : RbacAccessControl => ac.acl.Tidy) calls _ hnew
    fun _ h c _ => call_tidy h c

/-- **The access lists are an access matrix.** After any sequence of calls each domain has one
entry at most in the list of an object, and none without rights; what a domain may do is its cell
of the matrix or-ed with the rights of its role. The next call is permitted where the matrix
permits it and makes the same change; one that is refused changes nothing, and every cell but the
one that is named in the call stays as it was. -/
theorem access_lists_are_matrix (calls : List Call) :
    (∀ o entries, Lib.lookup (after calls).acl.objects o = some entries →
      (entries.map AccessEntry.domain).Nodup ∧ ∀ e ∈ entries, e.rights ≠ Rights.none) ∧
    (∀ d o, (after calls).access d o
      = ⟨((Matrix.after calls).cell d o).bits ||| ((Matrix.after calls).roleRights d).bits⟩) ∧
    ∀ c : Call,
      ((after calls).call c).1 = ((Matrix.after calls).step c).1 ∧
      (((after calls).call c).1 = false → ((after calls).call c).2 = after calls) ∧
      ∀ d o, ¬ c.Writes d o →
        ((Matrix.after calls).step c).2.cell d o = (Matrix.after calls).cell d o ∧
        ((after calls).call c).2.acl.lookup d o = (after calls).acl.lookup d o := by
  have habs := after_matrixOf calls
  refine ⟨fun o entries ho => ?_, fun d o => ?_, fun c => ⟨?_, fun hno => ?_, fun d o hframe => ?_⟩⟩
  · have htidy := after_tidy calls o entries ho
    exact ⟨htidy.domains, htidy.rights⟩
  · rw [← habs]
    rfl
  · rw [← habs]
    exact (call_matrixOf _ c).1
  · rcases call_cases (after calls) c with heq | ⟨hyes, _⟩
    · rw [heq]
    · cases hyes.symm.trans hno
  · have hcell := Matrix.step_cell (M := Matrix.after calls) hframe
    refine ⟨hcell, ?_⟩
    have hnext := (call_matrixOf (after calls) c).2
    rw [habs] at hnext
    calc ((after calls).call c).2.acl.lookup d o
        = ((Matrix.after calls).step c).2.cell d o := by rw [← hnext]; rfl
      _ = (Matrix.after calls).cell d o := hcell
      _ = (after calls).acl.lookup d o := by rw [← habs]; rfl

end RbacAccessControl

end AlaphiOS.Security
