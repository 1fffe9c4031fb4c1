import AlaphiOS.Fs.Tree
import AlaphiOS.Lib.ByteFile

/-!
# What is read and written through a descriptor

A descriptor stands for a path, the path for a file on the disk and an entry with a cursor. `OpenAt`
is that chain, with the bytes of the file and the cursor; `through_cases` says what `seek`, `read`
and `write` do to the two.

A call is as it should be (`AsWritten`) if a read gives what is in the file at the cursor, and a
write puts its bytes there and nowhere else. The cursor can be behind the end of the file, since
`seek` takes any number. `fatfs` then moves to the end, so the bytes land there and the cursor goes
on from the number it had. Every other write is as it should be.

Of `fatfs` it is assumed that its files are files of bytes in the sense of `Lib.ByteFile`
(`ByteFiles`).
-/

namespace AlaphiOS.Fs

open Function
open Option (isSome_iff_exists)

open Std AlaphiOS.Lib

variable {Vol : Type}

/-- A file opens, reads and writes as a list of bytes. -/
structure FatTree.ByteFiles {F : Fat Vol} (T : FatTree F) : Prop where
  opens : ∀ {v p data}, T.node v (T.canon p) = some (.file data) → (F.openFile v p).1 = true
  reads : ∀ {v p data} (offset len : Nat), T.node v (T.canon p) = some (.file data) →
    ∃ out, (F.readAt v p offset len).1 = some out ∧ ReadOf data offset len out
  writes : ∀ {v p data} (offset : Nat) (buf : List UInt8),
    T.node v (T.canon p) = some (.file data) →
      (F.writeAt v p offset buf).1 = true ∧
      T.node (F.writeAt v p offset buf).2 (T.canon p) = some (.file (overwrite data offset buf))

theorem treeFat.byteFiles : treeFat.tree.ByteFiles where
  opens := by
    intro v p data hfile
    have hfile : v.node (TreeVol.canon p) = some (.file data) := hfile
    dsimp only [treeFat]
    rw [hfile]
  reads := by
    intro v p data offset len hfile
    have hfile : v.node (TreeVol.canon p) = some (.file data) := hfile
    dsimp only [treeFat]
    rw [hfile]
    exact ⟨_, rfl, List.prefix_refl _, id⟩
  writes := by
    intro v p data offset buf hfile
    have hfile : v.node (TreeVol.canon p) = some (.file data) := hfile
    dsimp only [treeFat, treeFat.tree]
    rw [hfile]
    exact ⟨rfl, update_self ..⟩

/-- Who calls, and through which descriptor. -/
structure Handle where
  fd : Nat
  pid : Pid
  uid : UInt32
  gid : UInt32

/-- A call through a descriptor. -/
inductive FdCall where
  | seek (offset : Nat)
  | read (len : Nat)
  | write (buf : List UInt8)
  deriving DecidableEq

/-- What the call writes. -/
def FdCall.written : FdCall → List UInt8
  | .seek _ => []
  | .read _ => []
  | .write buf => buf

namespace LogicalFs

section

variable (H : Host Vol) (d : Handle) (path : Path) (fs : LogicalFs Vol)

/-- A call through the descriptor, with the bytes that a read returns. -/
def through : FdCall → Outcome Vol (List UInt8)
  | .seek offset => (fs.seek d.fd d.pid offset).map fun (res, fs) => (res.map fun _ => [], fs)
  | .read len => fs.read H d.fd d.pid d.uid d.gid len
  | .write buf =>
    (fs.write H d.fd d.pid d.uid d.gid buf).map fun (res, fs) => (res.map fun _ => [], fs)

/-- The state after it. -/
def afterCall (call : FdCall) : Option (LogicalFs Vol) := (fs.through H d call).map Prod.snd

/-- The permissions and the shared mark let the call pass. -/
def Allows : FdCall → Prop
  | .seek _ => True
  | .read _ => fs.checkPerm path d.uid d.gid false = .ok ()
  | .write _ => fs.notShared path = .ok () ∧ fs.checkPerm path d.uid d.gid true = .ok ()

end

/-- The bytes of a file. -/
def contents {H : Host Vol} (T : FatTree H.toFat) (path : Path) (fs : LogicalFs Vol) : List UInt8 :=
  match fs.disk.bind fun v => T.node v (T.key path) with
  | some (.file data) => data
  | _ => []

/-- Where the next read or write of the path begins. -/
def cursorOf (path : Path) (fs : LogicalFs Vol) : Nat :=
  ((lookup fs.fcbs path).map Fcb.cursor).getD 0

/-- The descriptor is open on a file with these bytes, at this cursor. -/
structure OpenAt {H : Host Vol} (T : FatTree H.toFat) (d : Handle) (path : Path)
    (fs : LogicalFs Vol) (data : List UInt8) (cursor : Nat) : Prop where
  entry : fs.fds.entry d.pid d.fd = some path
  fcb : ∃ fcb, lookup fs.fcbs path = some fcb ∧ fcb.cursor = cursor
  slash : path.head? = some '/'
  file : ∃ v, fs.disk = some v ∧ T.node v (T.key path) = some (.file data)

variable {H : Host Vol} {T : FatTree H.toFat} {d : Handle} {path : Path} {fs fs' : LogicalFs Vol}
  {data : List UInt8} {cursor : Nat}

theorem OpenAt.contents_eq (h : OpenAt T d path fs data cursor) : fs.contents T path = data := by
  obtain ⟨v, hdisk, hfile⟩ := h.file
  unfold contents
  rw [hdisk, Option.bind_some, hfile]

theorem OpenAt.cursorOf_eq (h : OpenAt T d path fs data cursor) : fs.cursorOf path = cursor := by
  obtain ⟨fcb, hfcb, hcursor⟩ := h.fcb
  unfold cursorOf
  rw [hfcb]
  exact hcursor

/-- How a state shows that the descriptor is open. -/
theorem openAt_of_file (hentry : fs.fds.entry d.pid d.fd = some path)
    (hfcb : (lookup fs.fcbs path).isSome) (hslash : path.head? = some '/')
    (hfile : (fs.disk.bind fun v => T.node v (T.key path)) = some (.file data)) :
    OpenAt T d path fs data (fs.cursorOf path) := by
  obtain ⟨fcb, hfcb⟩ := isSome_iff_exists.mp hfcb
  obtain ⟨v, hdisk, hnode⟩ := bind_inv hfile
  refine ⟨hentry, ⟨fcb, hfcb, ?_⟩, hslash, v, hdisk, hnode⟩
  unfold cursorOf
  rw [hfcb]
  rfl

/-! ## What a call does -/

/-- The outcomes of a call through a descriptor: the cursor moves, the call is refused, or it reads
or writes at the cursor and moves it on. The kernel stops if the cursor leaves its type. -/
inductive Through (T : FatTree H.toFat) (d : Handle) (path : Path) (fs : LogicalFs Vol)
    (data : List UInt8) (cursor : Nat) : FdCall → Outcome Vol (List UInt8) → Prop
  | seek {offset : Nat} {fs' : LogicalFs Vol} (h : OpenAt T d path fs' data offset)
      (hperms : fs'.perms = fs.perms) :
      Through T d path fs data cursor (.seek offset) (some (.ok [], fs'))
  | refused {call : FdCall} {e : FsError} {fs' : LogicalFs Vol} (hno : ¬ fs.Allows d path call)
      (h : OpenAt T d path fs' data cursor) (hperms : fs'.perms = fs.perms) :
      Through T d path fs data cursor call (some (.error e, fs'))
  | read {len : Nat} {out : List UInt8} {fs' : LogicalFs Vol}
      (hout : ReadOf data cursor len out) (hlt : cursor + out.length < 2 ^ 64)
      (h : OpenAt T d path fs' data (cursor + out.length)) (hperms : fs'.perms = fs.perms) :
      Through T d path fs data cursor (.read len) (some (.ok out, fs'))
  | readStops {len : Nat} {out : List UInt8} (hout : ReadOf data cursor len out)
      (hlt : ¬ cursor + out.length < 2 ^ 64) : Through T d path fs data cursor (.read len) none
  | write {buf : List UInt8} {fs' : LogicalFs Vol} (hyes : fs.Allows d path (.write buf))
      (hlt : cursor + buf.length < 2 ^ 64)
      (h : OpenAt T d path fs' (overwrite data cursor buf) (cursor + buf.length))
      (hperms : fs'.perms = fs.perms) :
      Through T d path fs data cursor (.write buf) (some (.ok [], fs'))
  | writeStops {buf : List UInt8} (hyes : fs.Allows d path (.write buf))
      (hlt : ¬ cursor + buf.length < 2 ^ 64) : Through T d path fs data cursor (.write buf) none

/-- The table of the process is made if it is not there; nothing else can tell. -/
theorem OpenAt.withTable (h : OpenAt T d path fs data cursor) :
    OpenAt T d path (fs.withTable d.pid) data cursor :=
  ⟨by rw [withTable_entry]; exact h.entry, h.fcb, h.slash, h.file⟩

variable {fcb : Fcb} {v : Vol} {buf : List UInt8}

/-- The entry of the path is written with a new cursor, and the file may have changed. -/
theorem OpenAt.move {data' : List UInt8} (h : OpenAt T d path fs data cursor)
    (hfile : T.node v (T.key path) = some (.file data')) :
    OpenAt T d path { fs with fcbs := fs.fcbs.insert path fcb, disk := some v } data'
      fcb.cursor where
  entry := h.entry
  fcb := ⟨fcb, by dsimp only; rw [lookup_insert, update_self], rfl⟩
  slash := h.slash
  file := ⟨v, rfl, hfile⟩

/-- The descriptor is in its table and the path in that of the open files. -/
theorem OpenAt.path_eq (h : OpenAt T d path fs data cursor) :
    fs.pathOf d.fd d.pid = .ok path := by
  unfold pathOf
  rw [h.entry]

theorem fcb_of_lookup (hfcb : lookup fs.fcbs path = some fcb) : fs.fcb path = .ok fcb := by
  unfold LogicalFs.fcb
  rw [hfcb]

section

variable (h : OpenAt T d path fs data cursor)

include h

/-- The checks of `seek` pass. -/
theorem OpenAt.seekChecks
    (hfcb : lookup fs.fcbs path = some fcb) : fs.seekChecks d.fd d.pid = .ok (path, fcb) := by
  unfold LogicalFs.seekChecks
  rw [h.path_eq]
  show fs.fcb path >>= _ = _
  rw [fcb_of_lookup hfcb]
  rfl

/-- Those of `read` depend on the permissions only. -/
theorem OpenAt.readChecks
    (hfcb : lookup fs.fcbs path = some fcb) (hdisk : fs.disk = some v) :
    fs.readChecks d.fd d.pid d.uid d.gid
      = (fs.checkPerm path d.uid d.gid false).map fun _ => (path, fcb, trimSlashes path, v) := by
  unfold LogicalFs.readChecks toFatPath diskMut
  rw [h.path_eq]
  show (fs.checkPerm path d.uid d.gid false) >>= _ = _
  rw [fcb_of_lookup hfcb, if_pos h.slash, hdisk]
  cases fs.checkPerm path d.uid d.gid false <;> rfl

/-- Those of `write` on the shared mark, too. -/
theorem OpenAt.writeChecks
    (hfcb : lookup fs.fcbs path = some fcb) (hdisk : fs.disk = some v) :
    fs.writeChecks d.fd d.pid d.uid d.gid
      = if fcb.isShared then .error .isShared
        else (fs.checkPerm path d.uid d.gid true).map fun _ =>
          (path, fcb, trimSlashes path, v) := by
  unfold LogicalFs.writeChecks toFatPath diskMut
  rw [h.path_eq]
  show fs.fcb path >>= _ = _
  rw [fcb_of_lookup hfcb, if_pos h.slash, hdisk]
  cases hshared : fcb.isShared with
  | true => simp [hshared, bind, Except.bind, throw, throwThe, MonadExceptOf.throw]
  | false =>
    cases fs.checkPerm path d.uid d.gid true <;>
      simp [hshared, bind, Except.bind, Except.map, pure, Except.pure]

theorem seek_through (offset : Nat) :
    Through T d path fs data cursor (.seek offset) (fs.through H d (.seek offset)) := by
  have htable := h.withTable
  obtain ⟨fcb, hfcb, _⟩ := htable.fcb
  obtain ⟨v, hdisk, hfile⟩ := htable.file
  unfold through seek
  dsimp only
  rw [htable.seekChecks hfcb]
  refine .seek ?_ rfl
  rw [hdisk]
  exact htable.move hfile

end

theorem read_through (B : T.ByteFiles) (h : OpenAt T d path fs data cursor) (len : Nat) :
    Through T d path fs data cursor (.read len) (fs.through H d (.read len)) := by
  have htable := h.withTable
  obtain ⟨fcb, hfcb, rfl⟩ := htable.fcb
  obtain ⟨v, hdisk, hfile⟩ := htable.file
  have hopened : T.node (H.openFile v (trimSlashes path)).2 (T.canon (trimSlashes path))
      = some (.file data) := by
    rw [T.openFile]
    exact hfile
  unfold through read
  dsimp only
  rw [htable.readChecks hfcb hdisk]
  cases hperm : fs.checkPerm path d.uid d.gid false with
  | error e =>
    rw [show (fs.withTable d.pid).checkPerm path d.uid d.gid false = .error e from hperm]
    refine .refused (fun hyes => ?_) htable rfl
    cases hperm.symm.trans hyes
  | ok u =>
    rw [show (fs.withTable d.pid).checkPerm path d.uid d.gid false = .ok u from hperm]
    obtain ⟨out, hread, hout⟩ := B.reads fcb.cursor len hopened
    have hkept : T.node (H.readAt (H.openFile v (trimSlashes path)).2 (trimSlashes path)
        fcb.cursor len).2 (T.key path) = some (.file data) := by
      rw [T.readAt]
      exact hopened
    dsimp only [Except.map]
    rw [if_pos (B.opens hfile), hread]
    dsimp only
    by_cases hlt : fcb.cursor + out.length < 2 ^ 64
    · rw [usizeAdd_of_lt hlt]
      exact .read hout hlt (htable.move hkept) rfl
    · rw [usizeAdd, if_neg hlt]
      exact .readStops hout hlt

theorem write_through (B : T.ByteFiles) (h : OpenAt T d path fs data cursor) (buf : List UInt8) :
    Through T d path fs data cursor (.write buf) (fs.through H d (.write buf)) := by
  have htable := h.withTable
  obtain ⟨fcb, hfcb, rfl⟩ := htable.fcb
  obtain ⟨v, hdisk, hfile⟩ := htable.file
  have hopened : T.node (H.openFile v (trimSlashes path)).2 (T.canon (trimSlashes path))
      = some (.file data) := by
    rw [T.openFile]
    exact hfile
  have hshared : fs.notShared path = if fcb.isShared then .error .isShared else .ok () := by
    unfold notShared
    rw [show lookup fs.fcbs path = some fcb from hfcb]
  unfold through write
  dsimp only
  rw [htable.writeChecks hfcb hdisk]
  cases hmark : fcb.isShared with
  | true =>
    rw [hmark] at hshared
    refine .refused (fun hyes => ?_) htable rfl
    cases hshared.symm.trans hyes.1
  | false =>
    rw [hmark] at hshared
    cases hperm : fs.checkPerm path d.uid d.gid true with
    | error e =>
      rw [show (fs.withTable d.pid).checkPerm path d.uid d.gid true = .error e from hperm]
      refine .refused (fun hyes => ?_) htable rfl
      cases hperm.symm.trans hyes.2
    | ok u =>
      rw [show (fs.withTable d.pid).checkPerm path d.uid d.gid true = .ok u from hperm]
      have hyes : fs.Allows d path (.write buf) := ⟨hshared, hperm⟩
      obtain ⟨hwritten, hfile'⟩ := B.writes fcb.cursor buf hopened
      simp only [Bool.false_eq_true, if_false, Except.map]
      rw [if_pos (B.opens hfile), if_pos hwritten]
      by_cases hlt : fcb.cursor + buf.length < 2 ^ 64
      · rw [usizeAdd_of_lt hlt]
        exact .write hyes hlt (htable.move hfile') rfl
      · rw [usizeAdd, if_neg hlt]
        exact .writeStops hyes hlt

/-- **What a call through a descriptor does.** -/
theorem through_cases (B : T.ByteFiles) (h : OpenAt T d path fs data cursor) (call : FdCall) :
    Through T d path fs data cursor call (fs.through H d call) := by
  cases call with
  | seek offset => exact seek_through h offset
  | read len => exact read_through B h len
  | write buf => exact write_through B h buf

variable {call : FdCall} {start : Nat} {calls : List FdCall}

/-- A call that returns leaves the descriptor open, and the permissions alone. -/
theorem afterCall_openAt (B : T.ByteFiles) (h : OpenAt T d path fs data cursor)
    (hcall : fs.afterCall H d call = some fs') :
    (∃ data' cursor', OpenAt T d path fs' data' cursor') ∧ fs'.perms = fs.perms := by
  obtain ⟨⟨res, _⟩, hres, rfl⟩ := map_inv hcall
  have hcases := through_cases B h call
  rw [hres] at hcases
  cases hcases with
  | seek h hperms => exact ⟨⟨_, _, h⟩, hperms⟩
  | refused _ h hperms => exact ⟨⟨_, _, h⟩, hperms⟩
  | read _ _ h hperms => exact ⟨⟨_, _, h⟩, hperms⟩
  | write _ _ h hperms => exact ⟨⟨_, _, h⟩, hperms⟩

/-! ## What a call should do -/

section

variable (T) (d) (path)

/-- A read gives the bytes at the cursor, a write puts its bytes there and nowhere else, and both
move the cursor on; a refused call does nothing. -/
def AsWritten (fs : LogicalFs Vol) (call : FdCall) (res : Except FsError (List UInt8))
    (fs' : LogicalFs Vol) : Prop :=
  match res, call with
  | .error _, _ => fs'.contents T path = fs.contents T path ∧ fs'.cursorOf path = fs.cursorOf path
  | .ok _, .seek offset => fs'.contents T path = fs.contents T path ∧ fs'.cursorOf path = offset
  | .ok out, .read len =>
    ReadOf (fs.contents T path) (fs.cursorOf path) len out ∧
      fs'.contents T path = fs.contents T path ∧ fs'.cursorOf path = fs.cursorOf path + out.length
  | .ok _, .write buf =>
    portion (fs'.contents T path) (fs.cursorOf path) buf.length = buf ∧
      (∀ i, i < fs.cursorOf path ∨ fs.cursorOf path + buf.length ≤ i →
        (fs'.contents T path)[i]? = (fs.contents T path)[i]?) ∧
      fs'.cursorOf path = fs.cursorOf path + buf.length

/-- The call returns, and does what it should. -/
def Serves (fs : LogicalFs Vol) (call : FdCall) : Prop :=
  ∃ res fs', fs.through H d call = some (res, fs') ∧ AsWritten T path fs call res fs'

/-- The file and the cursor fit their types, also with what is written. -/
def Fits (fs : LogicalFs Vol) (call : FdCall) : Prop :=
  fs.cursorOf path < 2 ^ 64 ∧ (fs.contents T path).length + call.written.length < 2 ^ 64

instance (fs : LogicalFs Vol) (call : FdCall) : Decidable (fs.Fits T path call) :=
  inferInstanceAs (Decidable (_ ∧ _))

/-- Something is written at most at the end of the file. -/
def InFile (fs : LogicalFs Vol) (call : FdCall) : Prop :=
  fs.Allows d path call →
    call.written = [] ∨ fs.cursorOf path ≤ (fs.contents T path).length

instance (fs : LogicalFs Vol) : (call : FdCall) → Decidable (fs.Allows d path call)
  | .seek _ => inferInstanceAs (Decidable True)
  | .read _ => inferInstanceAs (Decidable (_ = _))
  | .write _ => inferInstanceAs (Decidable (_ ∧ _))

instance (fs : LogicalFs Vol) (call : FdCall) : Decidable (fs.InFile T d path call) :=
  inferInstanceAs (Decidable (_ → _))

/-- Nothing is written between `start` and `start + n`. -/
def Spares (start n : Nat) (fs : LogicalFs Vol) (call : FdCall) : Prop :=
  call.written = [] ∨ fs.cursorOf path + call.written.length ≤ start ∨
    start + n ≤ fs.cursorOf path

instance (start n : Nat) (fs : LogicalFs Vol) (call : FdCall) :
    Decidable (fs.Spares path start n call) := inferInstanceAs (Decidable (_ ∨ _))

end

/-- Whoever moves to `start` and reads gets the bytes, in as many pieces as it takes. -/
def ReadsBack (H : Host Vol) (d : Handle) (start : Nat) (buf : List UInt8)
    (fs : LogicalFs Vol) : Prop :=
  ∀ lens : List Nat, (∀ n ∈ lens, 0 < n) →
    ∃ (outs : List (List UInt8)) (fs' : LogicalFs Vol),
      runReplies (through H d) fs (.seek start :: lens.map .read)
        = some (.ok [] :: outs.map .ok, fs') ∧
      outs.flatten.take buf.length = buf.take outs.flatten.length ∧
      (buf.length ≤ lens.length → buf.length ≤ outs.flatten.length)

theorem write_asWritten (h : OpenAt T d path fs data cursor)
    (h' : OpenAt T d path fs' (overwrite data cursor buf) (cursor + buf.length))
    (hin : buf = [] ∨ cursor ≤ data.length) : AsWritten T path fs (.write buf) (.ok []) fs' := by
  unfold AsWritten
  dsimp only
  rw [h.contents_eq, h.cursorOf_eq, h'.contents_eq, h'.cursorOf_eq]
  rcases hin with rfl | hin
  · rw [overwrite_nil]
    exact ⟨List.take_zero, fun _ _ => rfl, rfl⟩
  · exact ⟨portion_overwrite hin, fun i hi => getElem?_overwrite_other hin hi, rfl⟩

/-- A call serves exactly if it writes at most at the end of the file. -/
theorem serves_iff (B : T.ByteFiles) (h : OpenAt T d path fs data cursor)
    (hfits : fs.Fits T path call) : fs.Serves T d path call ↔ fs.InFile T d path call := by
  unfold Serves Fits InFile at *
  have hcases := through_cases B h call
  rw [h.contents_eq, h.cursorOf_eq] at *
  generalize fs.through H d call = o at hcases ⊢
  cases hcases with
  | seek h' _ =>
    refine ⟨fun _ _ => .inl rfl, fun _ => ⟨_, _, rfl, ?_⟩⟩
    exact ⟨h'.contents_eq.trans h.contents_eq.symm, h'.cursorOf_eq⟩
  | refused hno h' _ =>
    refine ⟨fun _ hyes => absurd hyes hno, fun _ => ⟨_, _, rfl, ?_⟩⟩
    exact ⟨h'.contents_eq.trans h.contents_eq.symm, h'.cursorOf_eq.trans h.cursorOf_eq.symm⟩
  | read hout _ h' _ =>
    refine ⟨fun _ _ => .inl rfl, fun _ => ⟨_, _, rfl, ?_⟩⟩
    unfold AsWritten
    dsimp only
    rw [h.contents_eq, h.cursorOf_eq]
    exact ⟨hout, h'.contents_eq, h'.cursorOf_eq⟩
  | readStops hout hlt =>
    -- no read moves the cursor behind both the end and the place where it was
    have hsize : data.length < 2 ^ 64 := hfits.2
    exact absurd (by rcases hout.length_le with rfl | hle <;> [exact hfits.1; omega]) hlt
  | @write buf fs' hyes _ h' _ =>
    constructor
    · intro ⟨res, fs₁, heq, hwritten⟩ _
      cases heq
      by_contra hout
      obtain ⟨hbuf, hend⟩ := not_or.mp hout
      have hportion := hwritten.1
      rw [h'.contents_eq, h.cursorOf_eq] at hportion
      exact portion_overwrite_ne (Nat.lt_of_not_le hend) hbuf hportion
    · intro hin
      exact ⟨_, _, rfl, write_asWritten h h' (hin hyes)⟩
  | @writeStops buf hyes hlt =>
    constructor
    · intro ⟨res, fs₁, heq, _⟩
      cases heq
    · intro hin
      have hsize : data.length + buf.length < 2 ^ 64 := hfits.2
      rcases hin hyes with hnil | hle
      · obtain rfl : buf = [] := hnil
        exact absurd hfits.1 hlt
      · exact absurd (by omega) hlt

/-! ## Reading back -/

/-- Reads, one after the other. -/
theorem reads_through (B : T.ByteFiles) (hdata : data.length < 2 ^ 64) :
    ∀ (lens : List Nat) {fs : LogicalFs Vol} {cursor : Nat}, OpenAt T d path fs data cursor →
      fs.checkPerm path d.uid d.gid false = .ok () → cursor < 2 ^ 64 →
      ∃ outs fs', runReplies (through H d) fs (lens.map .read) = some (outs.map .ok, fs') ∧
        ReadsOf data cursor lens outs := by
  intro lens
  induction lens with
  | nil => exact fun _ _ _ => ⟨[], _, rfl, .nil⟩
  | cons len lens ih =>
    intro fs cursor h hperm hcursor
    have hcases := through_cases B h (.read len)
    generalize hcall : fs.through H d (.read len) = o at hcases
    cases hcases with
    | refused hno _ _ => exact absurd hperm hno
    | readStops hout hlt =>
      exact absurd (by rcases hout.length_le with rfl | hle <;> [exact hcursor; omega]) hlt
    | @read _ out fs' hout hlt h' hperms =>
      have hperm' : fs'.checkPerm path d.uid d.gid false = .ok () := by
        unfold checkPerm at hperm ⊢
        rw [hperms]
        exact hperm
      obtain ⟨outs, fs'', hrest, hreads⟩ := ih h' hperm' hlt
      refine ⟨out :: outs, fs'', ?_, .cons hout hreads⟩
      rw [List.map_cons, runReplies, hcall, Option.bind_some]
      dsimp only
      rw [hrest]
      rfl

/-- What is in the file between two places is what is read back from there. -/
theorem readsBack_of_portion (B : T.ByteFiles) (h : OpenAt T d path fs data cursor)
    (hdata : data.length < 2 ^ 64) (hperm : fs.checkPerm path d.uid d.gid false = .ok ())
    (hin : start + buf.length ≤ data.length)
    (hportion : portion data start buf.length = buf) : fs.ReadsBack H d start buf := by
  intro lens hlens
  have hcases := through_cases B h (.seek start)
  generalize hcall : fs.through H d (.seek start) = o at hcases
  cases hcases with
  | refused hno _ _ => exact absurd trivial hno
  | @seek _ fs' h' hperms =>
    have hperm' : fs'.checkPerm path d.uid d.gid false = .ok () := by
      unfold checkPerm at hperm ⊢
      rw [hperms]
      exact hperm
    obtain ⟨outs, fs'', hrun, hreads⟩ := reads_through B hdata lens h' hperm' (by omega)
    refine ⟨outs, fs'', ?_, hreads.of_portion hportion, fun hle => hreads.enough hlens hin hle⟩
    rw [runReplies, hcall, Option.bind_some]
    dsimp only
    rw [hrun]
    rfl

/-- A part of the file that is spared stays as it is. -/
theorem spares_run (B : T.ByteFiles)
    (hopen : OpenAt T d path fs data cursor) (hin : start + buf.length ≤ data.length)
    (hportion : portion data start buf.length = buf)
    (hspares : Along (afterCall H d) (Spares path start buf.length) fs calls)
    (hrun : exec (afterCall H d) fs calls = some fs') :
    ∃ data' cursor', OpenAt T d path fs' data' cursor' ∧ start + buf.length ≤ data'.length ∧
      portion data' start buf.length = buf := by
  refine exec_induction (P := Spares path start buf.length)
    (I := fun s => ∃ data cursor, OpenAt T d path s data cursor ∧
      start + buf.length ≤ data.length ∧ portion data start buf.length = buf) ?_
    ⟨data, cursor, hopen, hin, hportion⟩ hspares hrun
  intro s call t ⟨data, cursor, hs, hin, hportion⟩ hspare hcall
  obtain ⟨⟨res, _⟩, hres, rfl⟩ := map_inv hcall
  have hcases := through_cases B hs call
  rw [hres] at hcases
  cases hcases with
  | seek h _ => exact ⟨_, _, h, hin, hportion⟩
  | refused _ h _ => exact ⟨_, _, h, hin, hportion⟩
  | read _ _ h _ => exact ⟨_, _, h, hin, hportion⟩
  | @write written _ _ _ h _ =>
    refine ⟨_, _, h, Nat.le_trans hin length_le_overwrite, ?_⟩
    rcases hspare with hnil | hapart
    · obtain rfl : written = [] := hnil
      rw [overwrite_nil]
      exact hportion
    · rw [hs.cursorOf_eq] at hapart
      exact (portion_overwrite_of_disjoint hin hapart).trans hportion

/-- The permissions are the same along a run through the descriptor. -/
theorem openAt_run (B : T.ByteFiles)
    (hopen : OpenAt T d path fs data cursor) (hrun : exec (afterCall H d) fs calls = some fs') :
    (∃ data' cursor', OpenAt T d path fs' data' cursor') ∧ fs'.perms = fs.perms := by
  refine exec_induction (P := fun _ _ => True)
    (I := fun s => (∃ data' cursor', OpenAt T d path s data' cursor') ∧ s.perms = fs.perms) ?_
    ⟨⟨_, _, hopen⟩, rfl⟩ along_true hrun
  intro s call t ⟨⟨_, _, hs⟩, hperms⟩ _ hcall
  obtain ⟨ht, hsame⟩ := afterCall_openAt B hs hcall
  exact ⟨ht, hsame.trans hperms⟩

/-- **What is written is read back.** All calls of a run through a descriptor do what they should
exactly if each of its writes is in the file or at its end; and what such a write has written is
read back from there as long as no other write reaches it. -/
theorem served_run_iff (B : T.ByteFiles) (hopen : OpenAt T d path fs data cursor)
    (calls : List FdCall) (hfits : Along (afterCall H d) (Fits T path) fs calls) :
    (Along (afterCall H d) (Serves T d path) fs calls ↔
      Along (afterCall H d) (InFile T d path) fs calls) ∧
    ∀ before s buf t between u, exec (afterCall H d) fs before = some s →
      s.through H d (.write buf) = some (.ok [], t) →
      s.cursorOf path ≤ (s.contents T path).length →
      exec (afterCall H d) t between = some u →
      Along (afterCall H d) (Spares path (s.cursorOf path) buf.length) t between →
      fs.checkPerm path d.uid d.gid false = .ok () → (u.contents T path).length < 2 ^ 64 →
      u.ReadsBack H d (s.cursorOf path) buf := by
  constructor
  · refine Along.congr (I := fun s => ∃ data cursor, OpenAt T d path s data cursor) ?_ ?_ hfits
      ⟨data, cursor, hopen⟩
    · intro s call ⟨_, _, hs⟩ hfit
      exact serves_iff B hs hfit
    · intro s call t ⟨_, _, hs⟩ _ _ hcall
      exact (afterCall_openAt B hs hcall).1
  · intro before s buf t between u hbefore hwrite hin hbetween hspares hperm hsize
    obtain ⟨⟨data₁, cursor₁, hs⟩, hperms⟩ := openAt_run B hopen hbefore
    rw [hs.contents_eq, hs.cursorOf_eq] at hin
    rw [hs.cursorOf_eq] at hspares ⊢
    have hcases := through_cases B hs (.write buf)
    rw [hwrite] at hcases
    cases hcases with
    | write _ _ ht hperms₁ =>
      have hlen : cursor₁ + buf.length ≤ (overwrite data₁ cursor₁ buf).length := by
        rw [length_overwrite hin]
        exact Nat.le_max_right ..
      obtain ⟨_, _, hu, hin', hportion⟩ :=
        spares_run B ht hlen (portion_overwrite hin) hspares hbetween
      have hperms₂ := (openAt_run B ht hbetween).2
      have hperm' : u.checkPerm path d.uid d.gid false = .ok () := by
        unfold checkPerm at hperm ⊢
        rw [hperms₂, hperms₁, hperms]
        exact hperm
      rw [hu.contents_eq] at hsize
      exact readsBack_of_portion B hu hsize hperm' hin' hportion

/-- A new file, opened by process 1 as descriptor 3. -/
def newFile : Option (LogicalFs TreeVol) :=
  exec (step treeHost) (mounted ∅ (some .empty)) [.create "/a".toList 1]

/-- Seeks, reads and writes on a new file. -/
theorem served_run_newFile :
    ∃ fs, newFile = some fs ∧
      Along (afterCall treeHost ⟨3, 1, 0, 0⟩) (Serves treeHost.tree ⟨3, 1, 0, 0⟩ "/a".toList) fs
        [.write [7, 8], .write [9], .seek 1, .write [6], .seek 0, .read 3] ∧
      ∃ t u, fs.through treeHost ⟨3, 1, 0, 0⟩ (.write [7, 8]) = some (.ok [], t) ∧
        exec (afterCall treeHost ⟨3, 1, 0, 0⟩) t [.write [9], .seek 5] = some u ∧
        u.ReadsBack treeHost ⟨3, 1, 0, 0⟩ 0 [7, 8] := by
  have hfacts : ∃ fs ∈ newFile,
      (fs.fds.entry 1 3 = some "/a".toList ∧ (lookup fs.fcbs "/a".toList).isSome ∧
        (fs.disk.bind fun v => v.node [['a']]) = some (.file [])) ∧
      fs.cursorOf "/a".toList = 0 ∧
      Along (afterCall treeHost ⟨3, 1, 0, 0⟩) (Fits treeHost.tree "/a".toList) fs
        [.write [7, 8], .write [9], .seek 1, .write [6], .seek 0, .read 3] ∧
      Along (afterCall treeHost ⟨3, 1, 0, 0⟩) (InFile treeHost.tree ⟨3, 1, 0, 0⟩ "/a".toList) fs
        [.write [7, 8], .write [9], .seek 1, .write [6], .seek 0, .read 3] ∧
      ∃ r ∈ fs.through treeHost ⟨3, 1, 0, 0⟩ (.write [7, 8]), r.1 = .ok [] ∧
        Along (afterCall treeHost ⟨3, 1, 0, 0⟩) (Spares "/a".toList 0 2) r.2 [.write [9], .seek 5] ∧
        ∃ u ∈ exec (afterCall treeHost ⟨3, 1, 0, 0⟩) r.2 [.write [9], .seek 5],
          (u.contents treeHost.tree "/a".toList).length < 2 ^ 64 := by decide +kernel
  obtain ⟨fs, hfs, ⟨hentry, hfcb, hfile⟩, hcursor, hfits, hin, ⟨_, t⟩, hwrite, rfl, hspares, u, hu,
    hsize⟩ := hfacts
  have B : treeHost.tree.ByteFiles := treeFat.byteFiles
  have hopen : OpenAt treeHost.tree ⟨3, 1, 0, 0⟩ "/a".toList fs [] (fs.cursorOf "/a".toList) :=
    openAt_of_file hentry hfcb rfl hfile
  obtain ⟨hserved, hback⟩ := served_run_iff B hopen _ hfits
  refine ⟨fs, hfs, hserved.mpr hin, t, u, hwrite, hu, ?_⟩
  rw [← hcursor] at hspares
  have hreads := hback [] fs [7, 8] t [.write [9], .seek 5] u rfl hwrite
    (by rw [hcursor]; exact Nat.zero_le _) hu hspares rfl hsize
  rwa [hcursor] at hreads

/-- A byte is written behind the end of a new file: it lands at the start, and the cursor is where
it would be if the file had a hole. -/
theorem write_behind_end :
    ∃ fs s t, newFile = some fs ∧ fs.afterCall treeHost ⟨3, 1, 0, 0⟩ (.seek 5) = some s ∧
      s.cursorOf "/a".toList = 5 ∧
      s.through treeHost ⟨3, 1, 0, 0⟩ (.write [7]) = some (.ok [], t) ∧
      t.contents treeHost.tree "/a".toList = [7] ∧ t.cursorOf "/a".toList = 6 ∧
      ¬ s.Serves treeHost.tree ⟨3, 1, 0, 0⟩ "/a".toList (.write [7]) := by
  have hfacts : ∃ fs ∈ newFile, ∃ s ∈ fs.afterCall treeHost ⟨3, 1, 0, 0⟩ (.seek 5),
      s.cursorOf "/a".toList = 5 ∧ ∃ r ∈ s.through treeHost ⟨3, 1, 0, 0⟩ (.write [7]),
        r.1 = .ok [] ∧ r.2.contents treeHost.tree "/a".toList = [7] ∧
        r.2.cursorOf "/a".toList = 6 := by decide +kernel
  obtain ⟨fs, hfs, s, hs, hcursor, ⟨_, t⟩, hwrite, rfl, hdata, hmoved⟩ := hfacts
  refine ⟨fs, s, t, hfs, hs, hcursor, hwrite, hdata, hmoved, ?_⟩
  intro ⟨res, fs', hcall, hserved⟩
  cases hwrite.symm.trans hcall
  have hportion := hserved.1
  rw [hdata, hcursor] at hportion
  cases hportion

end LogicalFs

end AlaphiOS.Fs
