import AlaphiOS.Lib.Bytes
import AlaphiOS.Lib.Checked
import AlaphiOS.Lib.Ring
import AlaphiOS.Lib.Run

/-!
# The scancode ring under interrupts

`push_scancode` and `pop_scancode` of `kernel/src/arch/interrupts.rs`. The
keyboard interrupt pushes, `drain_scancodes` pops, and the interrupt can come
between any two accesses that `pop_scancode` makes to the ring. `Keyboard.step`
therefore takes `pop_scancode` one access at a time, with an interrupt as a
single step in between.

The ring of `Lib.Ring` has its indices in range by construction and pops at
once. That the code has both is proved here. `PhaseOk` is what `pop_scancode`
knows in the middle: only it moves the head, and a ring that it has seen not to
be empty does not become empty. So its last access, the store of the head, is
where the code leaves the queue, and `Fifo` holds at every moment: what was
accepted is what was popped, followed by what is in the ring.

Mirroring notes:
- An index outside the buffer, or an overflowing sum, is a panic: `none`.
- `accepted` and `popped` are the codes stored and returned so far; the program
  has no such variables.
-/

namespace AlaphiOS.Io

open Lib Function List Option

/-- `SCANCODE_BUF`, `SCANCODE_HEAD` and `SCANCODE_TAIL`. -/
structure ScancodeRing where
  buf : Block 256
  head : Nat
  tail : Nat

namespace ScancodeRing

/-- `buf[i] = scancode`. -/
def put (r : ScancodeRing) (i : Nat) (scancode : UInt8) : Option ScancodeRing :=
  if i < 256 then
    some { r with buf := ⟨r.buf.1.set i scancode, length_set.trans r.buf.2⟩ }
  else none

/-- `push_scancode`. -/
def pushScancode (r : ScancodeRing) (scancode : UInt8) : Option ScancodeRing := do
  let sum ← usizeAdd r.tail 1
  let nextTail := sum % 256
  if nextTail ≠ r.head then
    let r' ← r.put r.tail scancode
    some { r' with tail := nextTail }
  else some r

/-- The codes that are stored and not yet popped, the oldest first. -/
def unread (r : ScancodeRing) : List UInt8 :=
  (range ((r.tail + (256 - r.head)) % 256)).map fun i => r.buf.1.getD ((r.head + i) % 256) 0

end ScancodeRing

/-- How far `pop_scancode` has come. -/
inductive PopPhase where
  /-- It has not begun. -/
  | idle
  | headLoaded (head : Nat)
  /-- The tail was loaded too, and is another. -/
  | notEmpty (head : Nat)
  | codeRead (head : Nat) (scancode : UInt8)

/-- The ring, with what went in and out. -/
structure Keyboard where
  ring : ScancodeRing
  phase : PopPhase
  accepted : List UInt8
  popped : List UInt8

/-- One access. -/
inductive KeyboardOp where
  /-- The keyboard interrupt. -/
  | interrupt (scancode : UInt8)
  /-- The next access of `pop_scancode`. -/
  | pop

namespace Keyboard

def boot : Keyboard := ⟨⟨⟨replicate 256 0, length_replicate⟩, 0, 0⟩, .idle, [], []⟩

/-- An access of `pop_scancode`. -/
def popStep (k : Keyboard) : Option Keyboard :=
  match k.phase with
  | .idle => some { k with phase := .headLoaded k.ring.head }
  | .headLoaded head =>
    -- `None` is returned, or the pop goes on
    if head = k.ring.tail then some { k with phase := .idle }
    else some { k with phase := .notEmpty head }
  | .notEmpty head => do
    let scancode ← k.ring.buf.1[head]?
    some { k with phase := .codeRead head scancode }
  | .codeRead head scancode => do
    let next ← usizeAdd head 1
    some { k with
      ring := { k.ring with head := next % 256 }
      phase := .idle
      popped := k.popped ++ [scancode] }

/-- Make the access. -/
def step (k : Keyboard) : KeyboardOp → Option Keyboard
  | .interrupt scancode => do
    let ring ← k.ring.pushScancode scancode
    -- the tail moves when the code was stored
    let accepted := if ring.tail = k.ring.tail then k.accepted else k.accepted ++ [scancode]
    some { k with ring, accepted }
  | .pop => k.popStep

/-- What `pop_scancode` can rely on, with interrupts since its last access. -/
def PhaseOk (r : ScancodeRing) : PopPhase → Prop
  | .idle => True
  | .headLoaded head => head = r.head
  | .notEmpty head => head = r.head ∧ r.head ≠ r.tail
  | .codeRead head scancode => head = r.head ∧ r.head ≠ r.tail ∧ r.buf.1[head]? = some scancode

/-- The keyboard is a queue. -/
structure Fifo (k : Keyboard) : Prop where
  head_lt : k.ring.head < 256
  tail_lt : k.ring.tail < 256
  queue : k.accepted = k.popped ++ k.ring.unread
  phase : PhaseOk k.ring k.phase

end Keyboard

/-! ## The ring -/

namespace ScancodeRing

variable {r : ScancodeRing} {scancode : UInt8}

/-- The ring of the library, given that the indices are in range. -/
def toRing (r : ScancodeRing) (hhead : r.head < 256) (htail : r.tail < 256) : Ring 256 UInt8 :=
  ⟨fun i => r.buf.1.getD i 0, r.head, r.tail, hhead, htail⟩

theorem unread_eq (hhead : r.head < 256) (htail : r.tail < 256) :
    r.unread = (r.toRing hhead htail).contents := rfl

theorem getElem?_buf {i : Nat} (hi : i < 256) : r.buf.1[i]? = some (r.buf.1.getD i 0) := by
  have hlt : i < r.buf.1.length := by rw [r.buf.2]; exact hi
  rw [getD_eq_getElem?_getD, getElem?_eq_getElem hlt, getD_some]

/-- Storing a code and moving the tail is a push. -/
theorem toRing_push (hhead : r.head < 256) (htail : r.tail < 256)
    (hroom : (r.tail + 1) % 256 ≠ r.head) (scancode : UInt8)
    (hlen : (r.buf.1.set r.tail scancode).length = 256) (hnext : (r.tail + 1) % 256 < 256) :
    toRing ⟨⟨r.buf.1.set r.tail scancode, hlen⟩, r.head, (r.tail + 1) % 256⟩ hhead hnext
      = (r.toRing hhead htail).push scancode := by
  have hbuf : (fun i => (r.buf.1.set r.tail scancode).getD i 0)
      = update (fun i => r.buf.1.getD i 0) r.tail scancode := by
    funext i
    rw [getD_eq_getElem?_getD]
    by_cases hi : i = r.tail
    · rw [hi, update_self, getElem?_set_self (by rw [r.buf.2]; exact htail),
        getD_some]
    · rw [update_of_ne hi, getElem?_set_ne (Ne.symm hi), getD_eq_getElem?_getD]
  have hpush : (r.toRing hhead htail).push scancode = _ := if_pos hroom
  rw [hpush]
  unfold toRing
  dsimp only
  congr 1

/-- `push_scancode` returns: the ring is full and stays as it is, or the code is put behind the
others. -/
theorem pushScancode_cases (hhead : r.head < 256) (htail : r.tail < 256) (scancode : UInt8) :
    (r.pushScancode scancode = some r ∧ r.unread.length = 255) ∨
    ∃ r', r.pushScancode scancode = some r' ∧ r.unread.length < 255 ∧
      r'.unread = r.unread ++ [scancode] ∧ r'.head = r.head ∧ r'.tail = (r.tail + 1) % 256 ∧
      r'.tail ≠ r'.head ∧ ∀ i, i ≠ r.tail → r'.buf.1[i]? = r.buf.1[i]? := by
  have hlen : r.unread.length = (r.toRing hhead htail).len := by
    rw [unread_eq hhead htail, Ring.length_contents]
  unfold pushScancode
  rw [bind_of_eq (usizeAdd_of_lt (by omega))]
  by_cases hroom : (r.tail + 1) % 256 ≠ r.head
  · have hset : (r.buf.1.set r.tail scancode).length = 256 := length_set.trans r.buf.2
    refine .inr ⟨⟨⟨r.buf.1.set r.tail scancode, hset⟩, r.head, (r.tail + 1) % 256⟩, ?_, ?_, ?_,
      rfl, rfl, hroom, fun i hi => getElem?_set_ne (Ne.symm hi)⟩
    · rw [if_pos hroom, put, if_pos htail]
      rfl
    · have hspace := Ring.len_succ_lt (r := r.toRing hhead htail) hroom
      omega
    · have hnext : (r.tail + 1) % 256 < 256 := Nat.mod_lt _ (by decide)
      rw [unread_eq (r := ⟨_, _, (r.tail + 1) % 256⟩) hhead hnext, toRing_push hhead htail hroom]
      exact Ring.contents_push (r := r.toRing hhead htail) hroom scancode
  · refine .inl ⟨if_neg hroom, ?_⟩
    have hfull := Ring.len_succ_of_full (r := r.toRing hhead htail) (Decidable.not_not.mp hroom)
    omega

/-- Moving the head past a code is a pop. -/
theorem unread_advance (hhead : r.head < 256) (htail : r.tail < 256) (hne : r.head ≠ r.tail)
    (hcode : r.buf.1[r.head]? = some scancode) :
    r.unread = scancode :: unread { r with head := (r.head + 1) % 256 } := by
  have hpop : (r.toRing hhead htail).pop = some (r.buf.1.getD r.head 0,
      toRing { r with head := (r.head + 1) % 256 } (Nat.mod_lt _ (by decide)) htail) := if_neg hne
  have hread : r.buf.1.getD r.head 0 = scancode := by
    rw [getD_eq_getElem?_getD, hcode, getD_some]
  rw [unread_eq hhead htail, Ring.contents_pop hpop, hread]
  rfl

theorem unread_eq_nil (hhead : r.head < 256) (htail : r.tail < 256) (he : r.head = r.tail) :
    r.unread = [] := by
  rw [← length_eq_zero_iff, unread_eq hhead htail, Ring.length_contents]
  exact Ring.len_eq_zero.mpr he

end ScancodeRing

/-! ## Every moment -/

namespace Keyboard

variable {k k' : Keyboard}

theorem boot_fifo : boot.Fifo where
  head_lt := by decide
  tail_lt := by decide
  queue := rfl
  phase := trivial

/-- An interrupt: nothing that `pop_scancode` relies on changes. -/
theorem PhaseOk.push {r r' : ScancodeRing} {phase : PopPhase} (h : PhaseOk r phase)
    (hhead : r'.head = r.head) (hne : r'.tail ≠ r'.head)
    (hbuf : ∀ i, i ≠ r.tail → r'.buf.1[i]? = r.buf.1[i]?) : PhaseOk r' phase := by
  cases phase with
  | idle => trivial
  | headLoaded head => exact h.trans hhead.symm
  | notEmpty head => exact ⟨h.1.trans hhead.symm, Ne.symm hne⟩
  | codeRead head scancode =>
    obtain ⟨rfl, hold, hcode⟩ := h
    exact ⟨hhead.symm, Ne.symm hne, (hbuf _ hold).trans hcode⟩

/-- An interrupt drops its code when 255 codes are unread, and only then. -/
theorem Fifo.interrupt (h : k.Fifo) (scancode : UInt8) :
    ∃ k', k.step (.interrupt scancode) = some k' ∧ k'.Fifo ∧
      ((k.accepted.length = k.popped.length + 255 ∧ k' = k) ∨
        (k.accepted.length < k.popped.length + 255 ∧
          k'.accepted = k.accepted ++ [scancode] ∧ k'.popped = k.popped)) := by
  have hlen : k.accepted.length = k.popped.length + k.ring.unread.length := by
    rw [h.queue, length_append]
  rcases ScancodeRing.pushScancode_cases h.head_lt h.tail_lt scancode with
    ⟨hpush, hfull⟩ | ⟨r, hpush, hroom, hunread, hhead, htail, hne, hbuf⟩
  · refine ⟨k, ?_, h, .inl ⟨by omega, rfl⟩⟩
    rw [step, bind_of_eq hpush, if_pos rfl]
  · have hmoved : r.tail ≠ k.ring.tail := by
      have := h.tail_lt
      omega
    refine ⟨{ k with ring := r, accepted := k.accepted ++ [scancode] }, ?_, ?_,
      .inr ⟨by omega, rfl, rfl⟩⟩
    · rw [step, bind_of_eq hpush, if_neg hmoved]
    · exact
        { head_lt := by
            rw [hhead]
            exact h.head_lt
          tail_lt := by
            rw [htail]
            exact Nat.mod_lt _ (by decide)
          queue := by
            show k.accepted ++ [scancode] = k.popped ++ r.unread
            rw [hunread, h.queue, append_assoc]
          phase := h.phase.push hhead hne hbuf }

/-- The accesses left until `pop_scancode` returns a code, for all codes in the ring. -/
def work (k : Keyboard) : Nat :=
  4 * k.ring.unread.length + match k.phase with
    | .idle => 3
    | .headLoaded _ => 2
    | .notEmpty _ => 1
    | .codeRead _ _ => 0

/-- An access of `pop_scancode` keeps the queue, and brings the end nearer unless it is empty. -/
theorem Fifo.popStep (h : k.Fifo) : ∃ k', k.popStep = some k' ∧ k'.Fifo ∧
    k'.accepted = k.accepted ∧ (k.ring.unread = [] ∨ k'.work < k.work) := by
  have hphase := h.phase
  unfold Keyboard.popStep work
  cases hp : k.phase with
  | idle => exact ⟨_, rfl, { h with phase := rfl }, rfl, .inr (Nat.lt_succ_self _)⟩
  | headLoaded head =>
    rw [hp] at hphase
    obtain rfl : head = k.ring.head := hphase
    dsimp only
    split
    next he =>
      exact ⟨_, rfl, { h with phase := trivial }, rfl,
        .inl (ScancodeRing.unread_eq_nil h.head_lt h.tail_lt he)⟩
    next hne =>
      exact ⟨_, rfl, { h with phase := ⟨rfl, hne⟩ }, rfl, .inr (Nat.lt_succ_self _)⟩
  | notEmpty head =>
    rw [hp] at hphase
    obtain ⟨rfl, hne⟩ := hphase
    dsimp only
    rw [ScancodeRing.getElem?_buf h.head_lt]
    exact ⟨_, rfl, { h with phase := ⟨rfl, hne, ScancodeRing.getElem?_buf h.head_lt⟩ }, rfl,
      .inr (Nat.lt_succ_self _)⟩
  | codeRead head scancode =>
    rw [hp] at hphase
    obtain ⟨rfl, hne, hcode⟩ := hphase
    have hlt := h.head_lt
    -- the store of the head is where the code leaves the queue
    have hpop := ScancodeRing.unread_advance h.head_lt h.tail_lt hne hcode
    dsimp only
    rw [usizeAdd_of_lt (by omega)]
    refine ⟨_, rfl, ⟨Nat.mod_lt _ (by decide), h.tail_lt, ?_, trivial⟩, rfl, .inr ?_⟩
    · dsimp only
      rw [append_assoc, singleton_append, ← hpop]
      exact h.queue
    · dsimp only
      rw [hpop, length_cons]
      omega

/-- One step, of either side. -/
theorem Fifo.step (h : k.Fifo) (op : KeyboardOp) : ∃ k', k.step op = some k' ∧ k'.Fifo := by
  cases op with
  | interrupt scancode =>
    obtain ⟨k', hstep, hfifo, _⟩ := h.interrupt scancode
    exact ⟨k', hstep, hfifo⟩
  | pop =>
    obtain ⟨k', hstep, hfifo, _⟩ := h.popStep
    exact ⟨k', hstep, hfifo⟩

/-- Every interleaving. -/
theorem Fifo.run (ops : List KeyboardOp) : ∀ {k : Keyboard}, k.Fifo →
    ∃ k', exec Keyboard.step k ops = some k' ∧ k'.Fifo := by
  induction ops with
  | nil => exact fun {k} h => ⟨k, rfl, h⟩
  | cons op ops ih =>
    intro k h
    obtain ⟨k₁, hstep, h₁⟩ := h.step op
    obtain ⟨k', hrun, h'⟩ := ih h₁
    refine ⟨k', ?_, h'⟩
    rw [exec, hstep, bind_some, hrun]

/-- When the interrupts pause, `pop_scancode` gets to the end of the queue. -/
theorem Fifo.drains (h : k.Fifo) :
    ∃ n k', exec Keyboard.step k (replicate n .pop) = some k' ∧ k'.popped = k.accepted := by
  -- by induction on the accesses that are left
  induction hn : k.work using Nat.strongRecOn generalizing k with
  | _ n ih =>
    by_cases hempty : k.ring.unread = []
    · refine ⟨0, k, rfl, ?_⟩
      rw [h.queue, hempty, append_nil]
    · obtain ⟨k₁, hstep, h₁, haccepted, hless⟩ := h.popStep
      have hless := hless.resolve_left hempty
      obtain ⟨m, k', hrun, hpopped⟩ := ih k₁.work (hn ▸ hless) h₁ rfl
      refine ⟨m + 1, k', ?_, hpopped.trans haccepted⟩
      rw [replicate_succ, exec]
      show (k.popStep).bind _ = _
      rw [hstep, bind_some, hrun]

end Keyboard

/-- **The scancode ring is a queue, whenever the interrupts come.** For every interleaving of
keyboard interrupts with the single accesses of `pop_scancode`: nothing panics, the indices stay
in range, and what was accepted is what was popped, in this order, followed by what is in the ring.
The next interrupt drops its code exactly if 255 accepted codes have not been popped, and
`pop_scancode` can always go on to pop all that was accepted. -/
theorem scancode_ring_fifo (ops : List KeyboardOp) :
    ∃ k, exec Keyboard.step Keyboard.boot ops = some k ∧
      k.ring.head < 256 ∧ k.ring.tail < 256 ∧ k.accepted = k.popped ++ k.ring.unread ∧
      (∀ scancode, ∃ k', k.step (.interrupt scancode) = some k' ∧
        ((k.accepted.length = k.popped.length + 255 ∧ k' = k) ∨
          (k.accepted.length < k.popped.length + 255 ∧
            k'.accepted = k.accepted ++ [scancode] ∧ k'.popped = k.popped))) ∧
      ∃ n k', exec Keyboard.step k (replicate n .pop) = some k' ∧ k'.popped = k.accepted := by
  obtain ⟨k, hrun, h⟩ := Keyboard.Fifo.run ops Keyboard.boot_fifo
  refine ⟨k, hrun, h.head_lt, h.tail_lt, h.queue, fun scancode => ?_, h.drains⟩
  obtain ⟨k', hstep, _, hcases⟩ := h.interrupt scancode
  exact ⟨k', hstep, hcases⟩

-- an interrupt when the first pop has loaded head and tail, and one before its last access
example : (exec Keyboard.step Keyboard.boot [.interrupt 0x1E, .pop, .pop, .interrupt 0x30, .pop,
    .interrupt 0x2E, .pop]).map (fun k => (k.popped, k.ring.unread))
      = some ([0x1E], [0x30, 0x2E]) := by
  decide +kernel

end AlaphiOS.Io
