import AlaphiOS.Lib.Maps
import Mathlib.Data.Set.Basic

/-!
# The access matrix

`kernel/src/security/mod.rs`: an access list per object, a role per domain, and `grant` and
`revoke` on them. What a domain may do to an object is what its entry in the list says or
what its role says, whatever the object is.

Everything `grant` and `revoke` do to the matrix goes through `AccessList::set`, and
`lookup_set` is all that is used of it. From there on the matrix is the function `access`:
`has_setRights` is the step, `Confined` is what `grant` and `revoke` keep on an object
that nobody owns or controls, and `confined_serveAll` is the run.

Mirroring notes:
- A `u32` of right bits is a `BitVec 32`. `Result<(), ()>` is `Bool`, next to the state,
  which a refused call leaves as it was.
- The vector of an object may hold any entries, also several for one domain; `find` takes
  the first.
-/

namespace AlaphiOS.Security

open Lib Function List
open Std (TreeMap)

abbrev DomainId := UInt32
abbrev ObjectId := UInt64
abbrev RoleId := UInt32

/-- Bits of rights. -/
structure Rights where
  bits : BitVec 32
  deriving DecidableEq

namespace Rights

/-- `NONE`. -/
def none : Rights := ⟨0⟩

def read : BitVec 32 := 1#32 <<< 0
def copy : BitVec 32 := 1#32 <<< 3
def owner : BitVec 32 := 1#32 <<< 4
def control : BitVec 32 := 1#32 <<< 5

/-- `contains`. -/
def contains (r : Rights) (bits : BitVec 32) : Bool := r.bits &&& bits == bits

/-- The right with number `i`. -/
def Has (r : Rights) (i : Nat) : Prop := r.bits.getLsbD i = true

instance (r : Rights) (i : Nat) : Decidable (r.Has i) := inferInstanceAs (Decidable (_ = _))

variable {i : Nat}

theorem has_or {a b : BitVec 32} :
    (⟨a ||| b⟩ : Rights).Has i ↔ (⟨a⟩ : Rights).Has i ∨ (⟨b⟩ : Rights).Has i := by
  unfold Has
  rw [BitVec.getLsbD_or, Bool.or_eq_true]

/-- A constant of one right. -/
theorem has_shift {n : Nat} (hn : n < 32) : (⟨1#32 <<< n⟩ : Rights).Has i ↔ i = n := by
  unfold Has
  rw [BitVec.getLsbD_shiftLeft, BitVec.getLsbD_one]
  simp only [Bool.and_eq_true, decide_eq_true_eq, Bool.not_eq_true', decide_eq_false_iff_not]
  omega

/-- `a & b == b`: every bit of `b` is in `a`. -/
theorem has_of_and_eq {a b : BitVec 32} (h : a &&& b = b) (hi : (⟨b⟩ : Rights).Has i) :
    (⟨a⟩ : Rights).Has i := by
  unfold Has at hi ⊢
  dsimp only at hi ⊢
  rw [← h, BitVec.getLsbD_and, Bool.and_eq_true] at hi
  exact hi.1

theorem contains_iff {r : Rights} {bits : BitVec 32} :
    r.contains bits = true ↔ ∀ i, (⟨bits⟩ : Rights).Has i → r.Has i := by
  unfold contains
  rw [beq_iff_eq]
  refine ⟨fun h i hi => has_of_and_eq h hi, fun h => BitVec.eq_of_getLsbD_eq fun i _ => ?_⟩
  rw [BitVec.getLsbD_and]
  cases hb : bits.getLsbD i with
  | false => exact Bool.and_false _
  | true =>
    rw [Bool.and_true]
    exact h i hb

end Rights

/-! ## Access lists -/

/-- What a domain may do. -/
structure AccessEntry where
  domain : DomainId
  rights : Rights

/-- `AccessList`. -/
structure AccessList where
  objects : TreeMap ObjectId (List AccessEntry)

/-- The first entry of a domain. -/
def findEntry (entries : List AccessEntry) (domain : DomainId) : Option AccessEntry :=
  entries.find? fun e => e.domain == domain

/-- What `set` makes of the entries of the object. -/
def setEntry (entries : List AccessEntry) (domain : DomainId) (rights : Rights) :
    List AccessEntry :=
  if rights.bits = 0 then entries.filter fun e => e.domain != domain
  else
    match entries.findIdx? fun e => e.domain == domain with
    | some idx => entries.modify idx fun e => { e with rights := rights }
    | none => entries ++ [⟨domain, rights⟩]

namespace AccessList

/-- `AccessList::new`. -/
def new : AccessList := ⟨∅⟩

/-- `lookup`. -/
def lookup (l : AccessList) (domain : DomainId) (object : ObjectId) : Rights :=
  (((Lib.lookup l.objects object).bind fun entries => findEntry entries domain).map
    AccessEntry.rights).getD .none

/-- `set`. -/
def set (l : AccessList) (domain : DomainId) (object : ObjectId) (rights : Rights) : AccessList :=
  ⟨l.objects.insert object (setEntry ((Lib.lookup l.objects object).getD []) domain rights)⟩

end AccessList

/-- The rights of a domain in a vector of entries. -/
def rightsIn (entries : List AccessEntry) (domain : DomainId) : Rights :=
  ((findEntry entries domain).map AccessEntry.rights).getD .none

variable {d domain : DomainId} {rights : Rights} {object : ObjectId} {entries : List AccessEntry}

theorem rightsIn_filter : rightsIn (entries.filter fun e => e.domain != domain) d
      = if d = domain then .none else rightsIn entries d := by
  unfold rightsIn findEntry
  rw [find?_filter]
  by_cases hd : d = domain
  · subst hd
    rw [if_pos rfl, find?_eq_none.mpr]
    · rfl
    · intro e _
      simp
  · rw [if_neg hd]
    congr 2
    refine congrArg (fun p => entries.find? p) (funext fun e => ?_)
    by_cases he : e.domain = d
    · simp [he, hd]
    · simp [he]

theorem rightsIn_modify : ∀ {idx : Nat}, entries.findIdx? (fun e => e.domain == domain) = some idx →
      rightsIn (entries.modify idx fun e => { e with rights := rights }) d
        = if d = domain then rights else rightsIn entries d := by
  unfold rightsIn findEntry
  induction entries with
  | nil => intro idx h; cases h
  | cons e es ih =>
    intro idx h
    rw [findIdx?_cons] at h
    split at h
    -- The entry that is changed keeps its domain.
    next hdom =>
      cases h
      have hdom : e.domain = domain := beq_iff_eq.mp hdom
      rw [modify_zero_cons, find?_cons, find?_cons]
      by_cases hd : d = domain
      · simp [hdom, hd]
      · have hne : (e.domain == d) = false := beq_eq_false_iff_ne.mpr fun he => hd (he.symm.trans hdom)
        rw [if_neg hd]
        dsimp only
        rw [hne]
    next hdom =>
      obtain ⟨j, hj, rfl⟩ := Option.map_eq_some_iff.mp h
      have hdom : e.domain ≠ domain := fun he => hdom (beq_iff_eq.mpr he)
      rw [modify_succ_cons, find?_cons, find?_cons]
      by_cases hd : e.domain = d
      · subst hd
        rw [if_neg hdom]
        simp
      · have hne : (e.domain == d) = false := beq_eq_false_iff_ne.mpr hd
        rw [hne]
        exact ih hj

theorem rightsIn_push (h : entries.findIdx? (fun e => e.domain == domain) = none) :
    rightsIn (entries ++ [⟨domain, rights⟩]) d = if d = domain then rights else rightsIn entries d := by
  have hnone : ∀ e ∈ entries, e.domain ≠ domain := by
    intro e he hdom
    have hfalse := findIdx?_eq_none_iff.mp h e he
    rw [beq_eq_false_iff_ne] at hfalse
    exact hfalse hdom
  unfold rightsIn findEntry
  rw [find?_append]
  by_cases hd : d = domain
  · subst hd
    rw [if_pos rfl, find?_eq_none.mpr fun e he hdom => hnone e he (beq_iff_eq.mp hdom)]
    simp
  · have hne : (domain == d) = false := beq_eq_false_iff_ne.mpr (Ne.symm hd)
    rw [if_neg hd, find?_singleton, hne]
    simp

theorem rightsIn_setEntry :
    rightsIn (setEntry entries domain rights) d = if d = domain then rights else rightsIn entries d := by
  unfold setEntry
  split
  next hzero =>
    -- No entry is as good as an entry without rights.
    have hnone : rights = .none := by
      obtain ⟨bits⟩ := rights
      rw [show bits = 0 from hzero]
      rfl
    rw [hnone]
    exact rightsIn_filter
  · split
    next idx h => exact rightsIn_modify h
    next h => exact rightsIn_push h

theorem AccessList.lookup_eq (l : AccessList) (d : DomainId) (o : ObjectId) :
    l.lookup d o = rightsIn ((Lib.lookup l.objects o).getD []) d := by
  unfold AccessList.lookup rightsIn
  cases Lib.lookup l.objects o <;> rfl

/-- `set` writes one entry of the matrix. -/
theorem AccessList.lookup_set {l : AccessList} {o : ObjectId} :
    (l.set domain object rights).lookup d o
      = if d = domain ∧ o = object then rights else l.lookup d o := by
  rw [lookup_eq, lookup_eq]
  unfold AccessList.set
  dsimp only
  rw [Lib.lookup_insert]
  by_cases ho : o = object
  · subst ho
    rw [update_self, Option.getD_some, rightsIn_setEntry]
    simp only [and_true]
  · rw [update_of_ne ho, if_neg fun h => ho h.2]

/-! ## `RbacAccessControl` -/

/-- `RbacAccessControl`. -/
structure RbacAccessControl where
  acl : AccessList
  roles : TreeMap RoleId Rights
  userRoles : TreeMap DomainId RoleId

namespace RbacAccessControl

/-- `RbacAccessControl::new`. -/
def new : RbacAccessControl := ⟨.new, ∅, ∅⟩

/-- `define_role`. -/
def defineRole (ac : RbacAccessControl) (role : RoleId) (rights : Rights) : RbacAccessControl :=
  { ac with roles := ac.roles.insert role rights }

/-- `assign_role`. -/
def assignRole (ac : RbacAccessControl) (domain : DomainId) (role : RoleId) : RbacAccessControl :=
  { ac with userRoles := ac.userRoles.insert domain role }

/-- `set_rights`. -/
def setRights (ac : RbacAccessControl) (domain : DomainId) (object : ObjectId) (rights : Rights) :
    RbacAccessControl :=
  { ac with acl := ac.acl.set domain object rights }

/-- `role_rights`. -/
def roleRights (ac : RbacAccessControl) (domain : DomainId) : Rights :=
  ((Lib.lookup ac.userRoles domain).bind fun role => Lib.lookup ac.roles role).getD .none

/-- `access`. -/
def access (ac : RbacAccessControl) (domain : DomainId) (object : ObjectId) : Rights :=
  let acl := ac.acl.lookup domain object
  let role := ac.roleRights domain
  ⟨acl.bits ||| role.bits⟩

/-- `grant`. -/
def grant (ac : RbacAccessControl) (grantor target : DomainId) (object : ObjectId)
    (rights : Rights) : Bool × RbacAccessControl :=
  let g := ac.access grantor object
  let current := ac.acl.lookup target object
  let granted := { ac with acl := ac.acl.set target object ⟨current.bits ||| rights.bits⟩ }
  if g.contains Rights.owner || g.contains Rights.control then (true, granted)
  else if g.contains Rights.copy then
    let copyable := g.bits &&& rights.bits
    if copyable = rights.bits then (true, granted) else (false, ac)
  else (false, ac)

/-- `revoke`. -/
def revoke (ac : RbacAccessControl) (revoker target : DomainId) (object : ObjectId)
    (rights : Rights) : Bool × RbacAccessControl :=
  let r := ac.access revoker object
  if r.contains Rights.owner || r.contains Rights.control then
    let current := ac.acl.lookup target object
    (true, { ac with acl := ac.acl.set target object ⟨current.bits &&& ~~~rights.bits⟩ })
  else (false, ac)

/-- A call of any domain. -/
inductive Request where
  | grant (grantor target : DomainId) (object : ObjectId) (rights : Rights)
  | revoke (revoker target : DomainId) (object : ObjectId) (rights : Rights)

/-- Serve a request. -/
def serve (ac : RbacAccessControl) : Request → RbacAccessControl
  | .grant grantor target object rights => (ac.grant grantor target object rights).2
  | .revoke revoker target object rights => (ac.revoke revoker target object rights).2

def serveAll (ac : RbacAccessControl) (requests : List Request) : RbacAccessControl :=
  requests.foldl serve ac

/-! ## The matrix, one call at a time -/

variable {ac ac' : RbacAccessControl} {o : ObjectId}

theorem has_access {i : Nat} :
    (ac.access d o).Has i ↔ (ac.acl.lookup d o).Has i ∨ (ac.roleRights d).Has i := Rights.has_or

variable {target : DomainId}

/-- Only one entry of the matrix changes, and not what the roles give. -/
theorem has_setRights {i : Nat} : ((ac.setRights target object rights).access d o).Has i ↔
      (if d = target ∧ o = object then rights else ac.acl.lookup d o).Has i ∨
        (ac.roleRights d).Has i := by
  rw [has_access]
  unfold setRights
  dsimp only
  rw [AccessList.lookup_set]
  rfl

/-- Nobody has OWNER or CONTROL on the object. -/
def Unowned (ac : RbacAccessControl) (o : ObjectId) : Prop :=
  ∀ d, (ac.access d o).contains Rights.owner = false ∧ (ac.access d o).contains Rights.control = false

/-- The rights somebody has on the object: the union over all domains. -/
def anyone (ac : RbacAccessControl) (o : ObjectId) : Set Nat := {i | ∃ d, (ac.access d o).Has i}

/-- From one state to another, nobody loses a right on the object and nobody has one that
nobody had. -/
structure Confined (ac ac' : RbacAccessControl) (o : ObjectId) : Prop where
  grows : ∀ d i, (ac.access d o).Has i → (ac'.access d o).Has i
  within : ac'.anyone o ⊆ ac.anyone o

theorem Confined.refl (ac : RbacAccessControl) (o : ObjectId) : Confined ac ac o :=
  ⟨fun _ _ h => h, fun _ h => h⟩

theorem Confined.trans {ac'' : RbacAccessControl} (h : Confined ac ac' o) (h' : Confined ac' ac'' o) :
    Confined ac ac'' o :=
  ⟨fun d i hi => h'.grows d i (h.grows d i hi), fun _ hi => h.within (h'.within hi)⟩

/-- OWNER and CONTROL are single bits, so nobody has them where nobody had them. -/
theorem Unowned.of_confined (h : ac.Unowned o) (hc : Confined ac ac' o) : ac'.Unowned o := by
  have hbit : ∀ {n : Nat}, n < 32 → (∀ d, (ac.access d o).contains (1#32 <<< n) = false) →
      ∀ d, (ac'.access d o).contains (1#32 <<< n) = false := by
    intro n hn hnot d
    refine Bool.eq_false_iff.mpr fun hcon => ?_
    obtain ⟨d', hd'⟩ := hc.within ⟨d, Rights.contains_iff.mp hcon n ((Rights.has_shift hn).mpr rfl)⟩
    refine Bool.eq_false_iff.mp (hnot d') (Rights.contains_iff.mpr fun i hi => ?_)
    rw [(Rights.has_shift hn).mp hi]
    exact hd'
  intro d
  exact ⟨hbit (n := 4) (by decide) (fun d => (h d).1) d, hbit (n := 5) (by decide) (fun d => (h d).2) d⟩

/-- Rights that some domain has on `o` are added to the entry of another. -/
theorem confined_add (hsome : object = o → ∀ i, rights.Has i → i ∈ ac.anyone o) : Confined ac
      (ac.setRights target object ⟨(ac.acl.lookup target object).bits ||| rights.bits⟩) o := by
  refine ⟨fun d i hi => ?_, fun i hi => ?_⟩
  · rw [has_setRights]
    split
    next heq =>
      obtain ⟨rfl, rfl⟩ := heq
      exact (has_access.mp hi).imp_left fun h => Rights.has_or.mpr (.inl h)
    · exact has_access.mp hi
  · obtain ⟨d, hd⟩ := hi
    rw [has_setRights] at hd
    split at hd
    next heq =>
      obtain ⟨rfl, rfl⟩ := heq
      -- What the target has now, it had, or it was granted, or it has by its role.
      rcases hd with hd | hd
      · rcases Rights.has_or.mp hd with hold | hnew
        · exact ⟨d, has_access.mpr (.inl hold)⟩
        · exact hsome rfl i hnew
      · exact ⟨d, has_access.mpr (.inr hd)⟩
    · exact ⟨d, has_access.mpr hd⟩

/-- A change of another object's entry does not show on `o`. -/
theorem confined_other (ho : o ≠ object) : Confined ac (ac.setRights target object rights) o := by
  have hsame : ∀ d i, ((ac.setRights target object rights).access d o).Has i ↔
      (ac.access d o).Has i := by
    intro d i
    rw [has_setRights, has_access, if_neg fun heq => ho heq.2]
  refine ⟨fun d i hi => (hsame d i).mpr hi, fun i hi => ?_⟩
  obtain ⟨d, hd⟩ := hi
  exact ⟨d, (hsame d i).mp hd⟩

/-- Who passes the check of `grant` and `revoke` for owners acts on another object. -/
theorem Unowned.ne (h : ac.Unowned o) (hown : ((ac.access d object).contains Rights.owner
      || (ac.access d object).contains Rights.control) = true) : o ≠ object := by
  rintro rfl
  rw [(h d).1, (h d).2] at hown
  cases hown

theorem confined_grant (h : ac.Unowned o) (grantor target : DomainId) (object : ObjectId)
    (rights : Rights) : Confined ac (ac.grant grantor target object rights).2 o := by
  unfold grant
  dsimp only
  split
  next hown => exact confined_other (h.ne hown)
  · split
    · split
      next hcopy =>
        refine confined_add fun ho i hi => ⟨grantor, ?_⟩
        subst ho
        exact Rights.has_of_and_eq hcopy hi
      · exact .refl ac o
    · exact .refl ac o

theorem confined_revoke (h : ac.Unowned o) (revoker target : DomainId) (object : ObjectId)
    (rights : Rights) : Confined ac (ac.revoke revoker target object rights).2 o := by
  unfold revoke
  dsimp only
  split
  next hown => exact confined_other (h.ne hown)
  · exact .refl ac o

theorem confined_serve (h : ac.Unowned o) (r : Request) : Confined ac (ac.serve r) o := by
  cases r with
  | grant grantor target object rights => exact confined_grant h grantor target object rights
  | revoke revoker target object rights => exact confined_revoke h revoker target object rights

/-! ## Any sequence of calls -/

theorem confined_serveAll : ∀ (requests : List Request) {ac : RbacAccessControl}, ac.Unowned o →
    Confined ac (ac.serveAll requests) o
  | [], ac, _ => .refl ac o
  | r :: rs, ac, h => by
    have hstep := confined_serve h r
    exact hstep.trans (confined_serveAll rs (h.of_confined hstep))

/-- **Rights cannot be amplified by copying.** On an object that nobody owns or controls, no
calls of any domains on any objects give anybody a right that nobody had, at any time, nor
take a right from anybody. -/
theorem rights_confined (ac : RbacAccessControl) (o : ObjectId) (before after : List Request)
    (hunowned : ∀ d, (ac.access d o).contains Rights.owner = false ∧
      (ac.access d o).contains Rights.control = false) :
    (ac.serveAll (before ++ after)).anyone o ⊆ (ac.serveAll before).anyone o ∧
      (ac.serveAll before).anyone o ⊆ ac.anyone o ∧
      ∀ d i, ((ac.serveAll before).access d o).Has i →
        ((ac.serveAll (before ++ after)).access d o).Has i := by
  have hbefore : Confined ac (ac.serveAll before) o := confined_serveAll before hunowned
  have hafter : Confined (ac.serveAll before) (ac.serveAll (before ++ after)) o := by
    have hrun : ac.serveAll (before ++ after) = (ac.serveAll before).serveAll after :=
      foldl_append
    rw [hrun]
    exact confined_serveAll after (Unowned.of_confined hunowned hbefore)
  exact ⟨hafter.within, hbefore.within, hafter.grows⟩

/-- Domain 1 may read the object 42 and copy this right. -/
def oneReader : RbacAccessControl := new.setRights 1 42 ⟨Rights.read ||| Rights.copy⟩

theorem oneReader_unowned : oneReader.Unowned 42 := by
  intro d
  have hentry : oneReader.acl.lookup d 42
      = if d = 1 then ⟨Rights.read ||| Rights.copy⟩ else Rights.none := by
    refine AccessList.lookup_set.trans ?_
    simp only [and_true]
    rfl
  have hrole : oneReader.roleRights d = Rights.none := rfl
  unfold access
  rw [hentry, hrole]
  split <;> decide

/-- It gives the right to domain 2, and cannot take it back. -/
theorem rights_confined_oneReader :
    ((oneReader.serveAll [.grant 1 2 42 ⟨Rights.read⟩]).access 2 42).Has 0 ∧
    ((oneReader.serveAll ([.grant 1 2 42 ⟨Rights.read⟩] ++ [.revoke 1 2 42 ⟨Rights.read⟩])).access
      2 42).Has 0 := by
  have hcopied : ((oneReader.serveAll [.grant 1 2 42 ⟨Rights.read⟩]).access 2 42).Has 0 := by
    decide +kernel
  have h := rights_confined oneReader 42 [.grant 1 2 42 ⟨Rights.read⟩] [.revoke 1 2 42 ⟨Rights.read⟩]
    oneReader_unowned
  exact ⟨hcopied, h.2.2 2 0 hcopied⟩

end RbacAccessControl

end AlaphiOS.Security
