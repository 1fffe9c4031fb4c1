import AlaphiOS.Lib.Ring
import AlaphiOS.Lib.Run
import Mathlib.Data.List.DropRight

/-!
# The console

`kernel/src/io/console.rs` and the scancode ring of `kernel/src/arch/interrupts.rs`. A key goes
through three buffers: the interrupt puts its scancode into the ring, `drain_scancodes` decodes it
into the line that is being typed, and a newline makes that line the one that `get` hands out.
There is room for one such line. `drain_scancodes` empties the whole ring, however many newlines
are in it, and each takes the place of the line before it, read or not.

`Session` runs this with the interrupts between any two rounds of the loop. `Streams` is the
invariant: what was handed out, what is ready, what has been typed of the next line and what is
still in the ring are together what was received. The one step that breaks it is `Overwrites`.

Mirroring notes:
- `line_buf[..line_len]` and `ready_buf[..ready_len]` are lists of at most 256 bytes; nothing
  reads the arrays beyond.
- `SERIAL.lock().send` appends to `serial`.
-/

namespace AlaphiOS.Io

open Lib List

/-! ## Scancodes -/

/-- A byte literal `b'c'`. -/
def byte (c : Char) : UInt8 := c.toUInt8

def newline : UInt8 := byte '\n'

/-- `SCANCODE_TO_ASCII`; 39, 96 and 92 are the quote, the backquote and the backslash. -/
def scancodeToAscii : List UInt8 :=
  [0, 0, byte '1', byte '2', byte '3', byte '4', byte '5', byte '6', byte '7', byte '8',
   byte '9', byte '0', byte '-', byte '=', 8, byte '\t',
   byte 'q', byte 'w', byte 'e', byte 'r', byte 't', byte 'y', byte 'u', byte 'i', byte 'o', byte 'p',
   byte '[', byte ']', byte '\n', 0,
   byte 'a', byte 's', byte 'd', byte 'f', byte 'g', byte 'h', byte 'j', byte 'k', byte 'l',
   byte ';', 39, 96, 0, 92,
   byte 'z', byte 'x', byte 'c', byte 'v', byte 'b', byte 'n', byte 'm',
   byte ',', byte '.', byte '/', 0, 0, 0, byte ' ']

/-- The character of a key that goes down; a code with the high bit is a key that goes up. -/
def decodeScancode (code : UInt8) : Option UInt8 :=
  if code &&& 0x80 ≠ 0 then none
  else scancodeToAscii[code.toNat]?.filter fun c => c ≠ 0

/-! ## The two line buffers -/

/-- The line being typed and the one being read. -/
structure Console where
  lineBuf : List UInt8
  readyBuf : List UInt8
  readyPos : Nat
  line_fits : lineBuf.length ≤ 256
  ready_fits : readyBuf.length ≤ 256
  pos_le : readyPos ≤ readyBuf.length

namespace Console

/-- `Console::new`. -/
def new : Console := ⟨[], [], 0, Nat.zero_le _, Nat.zero_le _, Nat.le_refl _⟩

/-- A character goes to the end of the line. -/
def store (c : Console) (ch : UInt8) (h : c.lineBuf.length < 256) : Console :=
  { c with
    lineBuf := c.lineBuf ++ [ch]
    line_fits := by rw [length_append]; exact h }

/-- The line is copied to `ready_buf`, and an empty one begun. -/
def release (c : Console) : Console := ⟨[], c.lineBuf, 0, Nat.zero_le _, c.line_fits, Nat.zero_le _⟩

/-- The next byte of `ready_buf`. -/
def next (c : Console) : Option (UInt8 × Console) :=
  if h : c.readyPos < c.readyBuf.length then
    some (c.readyBuf[c.readyPos], { c with readyPos := c.readyPos + 1, pos_le := h })
  else none

/-- What `get` can hand out without draining. -/
def unread (c : Console) : List UInt8 := c.readyBuf.drop c.readyPos

variable {c : Console}

theorem next_some {ch : UInt8} {c' : Console} (h : c.next = some (ch, c')) :
    c.unread = ch :: c'.unread ∧ c'.lineBuf = c.lineBuf := by
  unfold next at h
  split at h
  next hpos =>
    cases h
    exact ⟨drop_eq_getElem_cons hpos, rfl⟩
  · exact nomatch h

end Console

/-! ## The console and what it is connected to -/

/-- Ring, console and serial port. -/
structure Terminal where
  ring : Ring 256 UInt8
  console : Console
  serial : List UInt8

open Terminal

namespace Terminal

def new : Terminal := ⟨⟨fun _ => 0, 0, 0, by decide, by decide⟩, .new, []⟩

/-- `push_scancode`. -/
def pushScancode (t : Terminal) (code : UInt8) : Terminal := { t with ring := t.ring.push code }

/-- `pop_scancode`. -/
def popScancode (t : Terminal) : Option (UInt8 × Terminal) :=
  t.ring.pop.map fun (code, ring) => (code, { t with ring })

/-- The body of the loop of `drain_scancodes`. -/
def feed (t : Terminal) (code : UInt8) : Terminal :=
  match decodeScancode code with
  | none => t
  | some ch =>
    -- a full line takes no more characters, not even its newline
    let t :=
      if h : t.console.lineBuf.length < 256 then
        { t with console := t.console.store ch h, serial := t.serial ++ [ch] }
      else t
    if ch = newline then { t with console := t.console.release } else t

theorem ring_feed (t : Terminal) (code : UInt8) : (t.feed code).ring = t.ring := by
  unfold feed
  split
  · rfl
  · dsimp only; split <;> split <;> rfl

variable {code : UInt8} {t : Terminal}

theorem popScancode_some {t' : Terminal} (h : t.popScancode = some (code, t')) :
    t.ring.contents = code :: t'.ring.contents ∧ t'.console = t.console := by
  obtain ⟨⟨code, ring⟩, hpop, heq⟩ := map_inv h
  cases heq
  exact ⟨Ring.contents_pop hpop, rfl⟩

theorem feed_none (h : decodeScancode code = none) : t.feed code = t := by
  unfold feed
  rw [h]

/-- A character is appended to what has been typed of the line, while there is room. -/
theorem feed_char {ch : UInt8} {pending : List UInt8}
    (h : decodeScancode code = some ch) (hch : ch ≠ newline)
    (hline : t.console.lineBuf = pending.take 256) :
    (t.feed code).console.lineBuf = (pending ++ [ch]).take 256 ∧
      (t.feed code).console.unread = t.console.unread := by
  unfold feed
  rw [h]
  dsimp only
  rw [if_neg hch]
  split
  next hroom =>
    rw [hline, length_take] at hroom
    refine ⟨?_, rfl⟩
    unfold Console.store
    dsimp only
    rw [hline, take_of_length_le (by omega), take_of_length_le]
    rw [length_append, length_singleton]
    omega
  next hfull =>
    rw [hline, length_take] at hfull
    refine ⟨?_, rfl⟩
    rw [hline, take_append_of_le_length (by omega)]

/-- A newline hands the line over. -/
theorem feed_newline (h : decodeScancode code = some newline)
    (hroom : t.console.lineBuf.length < 256) :
    (t.feed code).console.lineBuf = [] ∧
      (t.feed code).console.unread = t.console.lineBuf ++ [newline] := by
  unfold feed
  rw [h]
  dsimp only
  rw [dif_pos hroom, if_pos rfl]
  exact ⟨rfl, rfl⟩

/-- `drain_scancodes`. -/
def drainScancodes (t : Terminal) : Terminal :=
  match _h : t.popScancode with
  | none => t
  | some (code, t') => drainScancodes (t'.feed code)
termination_by t.ring.len
decreasing_by
  rw [ring_feed, ← Ring.length_contents, ← Ring.length_contents, (popScancode_some _h).1,
    length_cons]
  exact Nat.lt_succ_self _

/-- `get`. -/
def get (t : Terminal) : Option UInt8 × Terminal :=
  match t.console.next with
  | some (ch, console) => (some ch, { t with console })
  | none =>
    let t := t.drainScancodes
    match t.console.next with
    | some (ch, console) => (some ch, { t with console })
    | none => (none, t)

/-- `put`. -/
def put (t : Terminal) (byte : UInt8) : Terminal := { t with serial := t.serial ++ [byte] }

end Terminal

/-! ## Keys and calls of `get` -/

/-- The keyboard, a caller of `get`, and what the one has sent and the other been given. -/
structure Session where
  term : Terminal
  draining : Bool
  received : List UInt8
  out : List UInt8

/-- What happens to the terminal. -/
inductive Event where
  /-- The keyboard interrupt. -/
  | key (code : UInt8)
  /-- `get`, up to the first round of the loop. -/
  | get
  /-- A round of the loop; the last one, with the ring empty, goes on to the end of `get`. -/
  | round

/-- The scancodes that come with an event. -/
def Event.codes : Event → List UInt8
  | .key code => [code]
  | _ => []

namespace Session

def new : Session := ⟨.new, false, [], []⟩

/-- `get` after the loop. -/
def finish (s : Session) : Session :=
  match s.term.console.next with
  | some (ch, console) =>
    { s with
      term := { s.term with console }
      draining := false
      out := s.out ++ [ch] }
  | none => { s with draining := false }

/-- The interrupt can come between any two rounds; another `get` cannot, it waits for the lock of
`CONSOLE`. -/
def step (s : Session) : Event → Option Session
  | .key code =>
    some { s with term := s.term.pushScancode code, received := s.received ++ [code] }
  | .get =>
    if s.draining then none
    else
      match s.term.console.next with
      | some (ch, console) => some { s with term := { s.term with console }, out := s.out ++ [ch] }
      | none => some { s with draining := true }
  | .round =>
    if s.draining then
      match s.term.popScancode with
      | some (code, term) => some { s with term := term.feed code }
      | none => some s.finish
    else none

/-- Without keys in between, the rounds are `drain_scancodes`. -/
theorem exec_rounds (t : Terminal) : ∀ s : Session, s.term = t → s.draining = true →
    ∃ n, exec step s (replicate n .round) = some (finish { s with term := t.drainScancodes }) := by
  fun_induction drainScancodes t with
  | case1 t hpop =>
    rintro s rfl hdrain
    refine ⟨1, ?_⟩
    rw [replicate_one, exec, step, if_pos hdrain, hpop]
    rfl
  | case2 t code t' hpop ih =>
    rintro s rfl hdrain
    obtain ⟨n, hn⟩ := ih { s with term := t'.feed code } rfl hdrain
    refine ⟨n + 1, ?_⟩
    rw [replicate_succ, exec, step, if_pos hdrain, hpop]
    exact hn

/-- And the whole of it is `get`. -/
theorem exec_get (s : Session) (h : s.draining = false) :
    ∃ n, exec step s (.get :: replicate n .round)
      = some { s with term := s.term.get.2, out := s.out ++ s.term.get.1.toList } := by
  unfold Terminal.get
  cases hnext : s.term.console.next with
  | some p =>
    refine ⟨0, ?_⟩
    rw [exec, step, h, if_neg Bool.false_ne_true, hnext]
    rfl
  | none =>
    obtain ⟨n, hn⟩ := exec_rounds s.term { s with draining := true } rfl rfl
    refine ⟨n, ?_⟩
    rw [exec, step, h, if_neg Bool.false_ne_true, hnext]
    refine hn.trans (congrArg some ?_)
    unfold finish
    dsimp only
    cases s.term.drainScancodes.console.next with
    | some p => rfl
    | none =>
      dsimp only
      rw [Option.toList_none, append_nil]

/-! ## What was typed -/

/-- The characters of the keys. -/
def decoded (codes : List UInt8) : List UInt8 := codes.filterMap decodeScancode

theorem decoded_append_left (a b : List UInt8) : decoded a <+: decoded (a ++ b) := by
  unfold decoded
  rw [filterMap_append]
  exact prefix_append _ _

theorem decoded_none {code : UInt8} (h : decodeScancode code = none) (codes : List UInt8) :
    decoded (code :: codes) = decoded codes := filterMap_cons_none h

theorem decoded_some {code ch : UInt8} (h : decodeScancode code = some ch) (codes : List UInt8) :
    decoded (code :: codes) = ch :: decoded codes := filterMap_cons_some h

/-- All of a text up to its last newline. -/
def upToNewline (text : List UInt8) : List UInt8 := text.rdropWhile fun c => c != newline

theorem upToNewline_newline (a b : List UInt8) :
    upToNewline (a ++ newline :: b) = a ++ newline :: upToNewline b := by
  unfold upToNewline
  induction b using reverseRecOn with
  | nil => exact rdropWhile_concat_neg _ _ _ (by decide)
  | append_singleton b c ih =>
    rw [← cons_append, ← append_assoc, rdropWhile_concat, rdropWhile_concat]
    split
    · exact ih
    · rw [append_assoc, cons_append]

theorem upToNewline_append {a b : List UInt8} (h : newline ∉ b) :
    upToNewline (a ++ b) = upToNewline a := by
  unfold upToNewline
  induction b using reverseRecOn with
  | nil => rw [append_nil]
  | append_singleton b c ih =>
    obtain ⟨hb, hc⟩ : newline ∉ b ∧ newline ≠ c := by simpa using h
    rw [← append_assoc, rdropWhile_concat, if_pos (bne_iff_ne.mpr hc.symm)]
    exact ih hb

/-- What is complete stays so, whatever comes after it. -/
theorem upToNewline_mono (a b : List UInt8) : upToNewline a <+: upToNewline (a ++ b) := by
  by_cases h : newline ∈ b
  · obtain ⟨l, r, rfl⟩ := append_of_mem h
    have hcut : upToNewline a <+: a := rdropWhile_prefix _ _
    rw [← append_assoc, upToNewline_newline, append_assoc]
    exact hcut.trans (prefix_append _ _)
  · exact ⟨[], by rw [append_nil, upToNewline_append h]⟩

/-- Every line that is complete has fewer than 256 characters before its newline. -/
def ShortLines (text : List UInt8) : Prop :=
  ∀ line, newline ∉ line → line ++ [newline] <:+: text → line.length < 256

/-- The characters received so far. -/
def typed (s : Session) : List UInt8 := decoded s.received

/-- The characters in the three buffers, the oldest first. -/
def held (s : Session) : List UInt8 :=
  s.term.console.unread ++ s.term.console.lineBuf ++ decoded s.term.ring.contents

/-- What was handed out is the beginning of what was typed up to the last newline, and the
buffers hold the rest of that. -/
def Lossless (s : Session) : Prop :=
  s.out <+: upToNewline s.typed ∧ upToNewline (s.out ++ s.held) = upToNewline s.typed

/-- The ring has room for the key. -/
def HasRoom (s : Session) : Event → Prop
  | .key _ => ¬ s.term.ring.Full
  | _ => True

/-- A newline comes out of the ring before the line that is ready has been read to its end. -/
def Overwrites (s : Session) : Event → Prop
  | .round => s.draining = true ∧
      (s.term.popScancode.bind fun (code, _) => decodeScancode code) = some newline ∧
      s.term.console.readyPos < s.term.console.readyBuf.length
  | _ => False

instance (s : Session) : (e : Event) → Decidable (s.HasRoom e)
  | .key _ => inferInstanceAs (Decidable (¬ _))
  | .get | .round => inferInstanceAs (Decidable True)

instance (s : Session) : (e : Event) → Decidable (s.Overwrites e)
  | .round => inferInstanceAs (Decidable (_ ∧ _ ∧ _))
  | .get | .key _ => inferInstanceAs (Decidable False)

/-- `pending` is the line that is being typed, of which `line_buf` has what there is room for. -/
structure Streams (s : Session) (pending : List UInt8) : Prop where
  open_ : newline ∉ pending
  line : s.term.console.lineBuf = pending.take 256
  all : s.out ++ s.term.console.unread ++ pending ++ decoded s.term.ring.contents = s.typed
  lines : upToNewline (s.out ++ s.term.console.unread) = s.out ++ s.term.console.unread

variable {s t : Session} {pending : List UInt8}

theorem Streams.lossless (h : Streams s pending) (hshort : ShortLines s.typed) : s.Lossless := by
  have hbegin : s.out ++ s.term.console.unread <+: upToNewline s.typed := by
    have hpre := upToNewline_mono (s.out ++ s.term.console.unread)
      (pending ++ decoded s.term.ring.contents)
    rwa [h.lines, ← append_assoc, h.all] at hpre
  refine ⟨(prefix_append _ _).trans hbegin, ?_⟩
  unfold held
  rw [h.line]
  by_cases hnl : newline ∈ decoded s.term.ring.contents
  · -- the line in the buffer will be complete, so all of it is there
    obtain ⟨l, r, hdec, hl⟩ := eq_append_cons_of_mem hnl
    have hlen : (pending ++ l).length < 256 := by
      refine hshort (pending ++ l) ?_ ⟨s.out ++ s.term.console.unread, r, ?_⟩
      · rw [mem_append]
        exact not_or_intro h.open_ hl
      · rw [← h.all, hdec]
        simp only [append_assoc, cons_append, nil_append]
    rw [length_append] at hlen
    rw [take_of_length_le (by omega), ← h.all]
    simp only [append_assoc]
  · have hcut : ∀ l, newline ∉ l → upToNewline (s.out ++ s.term.console.unread ++ (l ++
        decoded s.term.ring.contents)) = upToNewline (s.out ++ s.term.console.unread) := by
      intro l hl
      refine upToNewline_append ?_
      rw [mem_append]
      exact not_or_intro hl hnl
    rw [← h.all, append_assoc (_ ++ _) pending, hcut pending h.open_,
      ← hcut (pending.take 256) fun hmem => h.open_ (mem_of_mem_take hmem)]
    simp only [append_assoc]

variable {e : Event}

/-- Neither calls nor rounds send anything. -/
theorem step_received (h : step s e = some t) : t.received = s.received ++ e.codes := by
  unfold step at h
  cases e with
  | key code =>
    cases h
    rfl
  | get =>
    dsimp only at h
    split at h
    · exact nomatch h
    · split at h <;> (obtain rfl := Option.some.inj h; exact (append_nil _).symm)
  | round =>
    dsimp only at h
    split at h
    · split at h
      · obtain rfl := Option.some.inj h; exact (append_nil _).symm
      · cases h
        unfold finish
        split <;> exact (append_nil _).symm
    · exact nomatch h

/-! ## One step -/

theorem Streams.key (h : Streams s pending) {code : UInt8} (hroom : ¬ s.term.ring.Full) :
    Streams { s with term := s.term.pushScancode code, received := s.received ++ [code] } pending := by
  refine ⟨h.open_, h.line, ?_, h.lines⟩
  unfold typed decoded pushScancode
  dsimp only
  rw [Ring.contents_push hroom, filterMap_append, filterMap_append, ← append_assoc]
  exact congrArg (fun l => l ++ _) h.all

/-- Handing out a byte moves it from the buffer to the caller. -/
theorem Streams.next (h : Streams s pending) {ch : UInt8} {console : Console}
    (hnext : s.term.console.next = some (ch, console)) (draining : Bool) :
    Streams ⟨{ s.term with console }, draining, s.received, s.out ++ [ch]⟩ pending := by
  obtain ⟨hunread, hline⟩ := Console.next_some hnext
  have hmove : s.out ++ s.term.console.unread = s.out ++ [ch] ++ console.unread := by
    rw [hunread, append_assoc, singleton_append]
  refine ⟨h.open_, hline.trans h.line, ?_, ?_⟩
  · rw [← hmove]
    exact h.all
  · rw [← hmove]
    exact h.lines

section

variable {code : UInt8} {term : Terminal}

/-- A newline from the ring ends the line, which has room for it, and makes it the one that is
ready. -/
theorem Streams.of_newline (h : Streams s pending) (hshort : ShortLines s.typed)
    (hpop : s.term.popScancode = some (code, term)) (hdec : decodeScancode code = some newline) :
    (term.feed code).console.lineBuf = [] ∧
      (term.feed code).console.unread = pending ++ [newline] ∧
      s.out ++ s.term.console.unread ++ pending ++ newline :: decoded term.ring.contents
        = s.typed := by
  obtain ⟨hring, hconsole⟩ := popScancode_some hpop
  have hall := h.all
  rw [hring, decoded_some hdec] at hall
  have hlen : pending.length < 256 := by
    refine hshort pending h.open_ ⟨s.out ++ s.term.console.unread, decoded term.ring.contents, ?_⟩
    rw [← hall]
    simp only [append_assoc, cons_append, nil_append]
  have hline : term.console.lineBuf = pending := by
    rw [hconsole, h.line, take_of_length_le (Nat.le_of_lt hlen)]
  obtain ⟨hempty, hunread⟩ := feed_newline hdec (hline.symm ▸ hlen)
  exact ⟨hempty, hline ▸ hunread, hall⟩

/-- A round of the loop keeps everything, unless a newline finds an unread line. -/
theorem Streams.feed (h : Streams s pending) (hshort : ShortLines s.typed)
    (hpop : s.term.popScancode = some (code, term))
    (hread : decodeScancode code = some newline → s.term.console.unread = []) :
    ∃ pending', Streams { s with term := term.feed code } pending' := by
  obtain ⟨hring, hconsole⟩ := popScancode_some hpop
  have hall := h.all
  rw [hring] at hall
  cases hdec : decodeScancode code with
  | none =>
    refine ⟨pending, h.open_, ?_, ?_, ?_⟩
    all_goals rw [feed_none hdec, hconsole]
    · exact h.line
    · rwa [decoded_none hdec] at hall
    · exact h.lines
  | some ch =>
    by_cases hch : ch = newline
    · subst hch
      obtain ⟨hempty, hunread, htyped⟩ := h.of_newline hshort hpop hdec
      rw [hread hdec, append_nil] at htyped
      refine ⟨[], not_mem_nil, hempty, ?_, ?_⟩
      · dsimp only
        rw [hunread, ring_feed, append_nil]
        refine Eq.trans ?_ htyped
        simp only [append_assoc, cons_append, nil_append]
      · dsimp only
        rw [hunread, ← append_assoc]
        exact upToNewline_newline (s.out ++ pending) []
    · obtain ⟨hline, hunread⟩ := feed_char hdec hch (hconsole ▸ h.line)
      rw [hconsole] at hunread
      refine ⟨pending ++ [ch], ?_, hline, ?_, ?_⟩
      · rw [mem_append, mem_singleton]
        exact not_or_intro h.open_ (Ne.symm hch)
      · dsimp only
        rw [hunread, ring_feed]
        refine Eq.trans ?_ hall
        rw [decoded_some hdec]
        simp only [append_assoc, cons_append, nil_append]
      · dsimp only
        rw [hunread]
        exact h.lines

/-- Where it finds one, that line is gone. -/
theorem Streams.not_lossless (h : Streams s pending) (hshort : ShortLines s.typed)
    (hpop : s.term.popScancode = some (code, term)) (hdec : decodeScancode code = some newline)
    (hunread : s.term.console.unread ≠ []) : ¬ Lossless { s with term := term.feed code } := by
  rintro ⟨_, hheld⟩
  obtain ⟨hempty, hready, htyped⟩ := h.of_newline hshort hpop hdec
  have hleft : upToNewline (s.out ++ held { s with term := term.feed code })
      = s.out ++ pending ++ newline :: upToNewline (decoded term.ring.contents) := by
    rw [← upToNewline_newline]
    unfold held
    dsimp only
    rw [hempty, hready, ring_feed]
    simp only [append_assoc, cons_append, nil_append, append_nil]
  have hright : upToNewline s.typed = s.out ++ s.term.console.unread ++ pending ++
      newline :: upToNewline (decoded term.ring.contents) := by
    rw [← htyped, upToNewline_newline]
  have hlen := congrArg length (hleft.symm.trans (hheld.trans hright))
  simp only [length_append] at hlen
  have := length_pos_iff.mpr hunread
  omega

end

theorem Streams.step (h : Streams s pending) (hroom : s.HasRoom e) (hshort : ShortLines s.typed)
    (hkeeps : ¬ Overwrites s e) (hstep : step s e = some t) : ∃ pending', Streams t pending' := by
  unfold Session.step at hstep
  cases e with
  | key code =>
    cases hstep
    exact ⟨pending, h.key hroom⟩
  | get =>
    dsimp only at hstep
    split at hstep
    · exact nomatch hstep
    · split at hstep
      next ch console hnext =>
        cases hstep
        exact ⟨pending, h.next hnext s.draining⟩
      · cases hstep
        exact ⟨pending, h.open_, h.line, h.all, h.lines⟩
  | round =>
    dsimp only at hstep
    split at hstep
    next hdrain =>
      split at hstep
      next code term hpop =>
        cases hstep
        refine h.feed hshort hpop fun hdec => ?_
        refine drop_eq_nil_of_le (Nat.le_of_not_lt fun hpos => ?_)
        exact hkeeps ⟨hdrain, by rw [hpop]; exact hdec, hpos⟩
      · cases hstep
        unfold finish
        split
        next ch console hnext => exact ⟨pending, h.next hnext false⟩
        · exact ⟨pending, h.open_, h.line, h.all, h.lines⟩
    · exact nomatch hstep

theorem Overwrites.step (h : Overwrites s e) :
    ∃ code term, Session.step s e = some { s with term := term.feed code } ∧
      s.term.popScancode = some (code, term) ∧ decodeScancode code = some newline ∧
      s.term.console.unread ≠ [] := by
  cases e with
  | key | get => exact h.elim
  | round =>
    obtain ⟨hdrain, hnewline, hpos⟩ := h
    obtain ⟨⟨code, term⟩, hpop, hdec⟩ := bind_inv hnewline
    refine ⟨code, term, ?_, hpop, hdec, fun hnil => ?_⟩
    · unfold Session.step
      dsimp only
      rw [if_pos hdrain, hpop]
    · exact Nat.not_lt_of_le (drop_eq_nil_iff.mp hnil) hpos

/-! ## Whole runs -/

/-- The characters of the keys of a run. -/
def typedBy (events : List Event) : List UInt8 := decoded (events.flatMap Event.codes)

theorem ShortLines.mono {a b : List UInt8} (h : ShortLines b) (hab : a <+: b) : ShortLines a :=
  fun line hline hin => h line hline (hin.trans hab.isInfix)

theorem ShortLines.of_length {text : List UInt8} (h : text.length ≤ 256) : ShortLines text := by
  intro line _ hin
  have hlen := hin.length_le
  rw [length_append, length_singleton] at hlen
  omega

/-- The lines of a run are short at each of its steps. -/
theorem along_shortLines {events : List Event} : ∀ {s : Session},
    ShortLines (decoded (s.received ++ events.flatMap Event.codes)) →
      Along step (fun s e => ShortLines (decoded (s.received ++ e.codes))) s events := by
  induction events with
  | nil => exact fun _ => trivial
  | cons e events ih =>
    intro s hshort
    rw [flatMap_cons, ← append_assoc] at hshort
    refine ⟨hshort.mono (decoded_append_left _ _), fun t ht => ih ?_⟩
    rwa [step_received ht]

/-- **The console hands out what was typed.** Where no line is too long and the ring does not
overflow, the bytes that the calls of `get` return are at all times the beginning of the text up
to its last newline, with the rest of it in the buffers, if and only if no newline comes out of
the ring before the line that is ready has been read to its end. -/
theorem console_lossless_iff (events : List Event) (hlines : ShortLines (typedBy events))
    (hring : Along step HasRoom new events) :
    Along step (fun s e => ∀ t, step s e = some t → Lossless t) new events ↔
      Along step (fun s e => ¬ Overwrites s e) new events := by
  have hshort : Along step (fun s e => ShortLines (decoded (s.received ++ e.codes))) new events :=
    along_shortLines hlines
  have hnew : ∃ pending, Streams new pending := ⟨[], not_mem_nil, rfl, rfl, rfl⟩
  refine Along.congr (I := fun s => ∃ pending, Streams s pending) ?_ ?_ (hring.and hshort) hnew
  · rintro s e ⟨pending, h⟩ ⟨hroom, hshort⟩
    have hbefore : ShortLines s.typed := hshort.mono (decoded_append_left _ _)
    refine ⟨fun hall hover => ?_, fun hkeeps t ht => ?_⟩
    · obtain ⟨code, term, hstep, hpop, hdec, hunread⟩ := hover.step
      exact h.not_lossless hbefore hpop hdec hunread (hall _ hstep)
    · obtain ⟨pending', h'⟩ := h.step hroom hbefore hkeeps ht
      refine h'.lossless ?_
      unfold typed
      rw [step_received ht]
      exact hshort
  · rintro s e t ⟨pending, h⟩ ⟨hroom, hshort⟩ hkeeps ht
    exact h.step hroom (hshort.mono (decoded_append_left _ _)) hkeeps ht

/-- A line of one character is typed and read. -/
def oneLine : List Event := [.key 0x1E, .get, .round, .key 0x1C, .round, .round, .get]

/-- A line is typed and read. -/
theorem console_lossless_oneLine :
    ShortLines (typedBy oneLine) ∧ Along step HasRoom new oneLine ∧
      Along step (fun s e => ∀ t, step s e = some t → Lossless t) new oneLine := by
  have hlines : ShortLines (typedBy oneLine) := .of_length (by decide +kernel)
  have hring : Along step HasRoom new oneLine := by decide +kernel
  exact ⟨hlines, hring, (console_lossless_iff oneLine hlines hring).mpr (by decide +kernel)⟩

/-- Two lines of one character are typed before the first `get`. -/
def twoLines : List Event :=
  [.key 0x1E, .key 0x1C, .key 0x30, .key 0x1C, .get, .round, .round, .round, .round, .round, .get]

/-- The first of them is never handed out. -/
theorem first_line_is_lost :
    ShortLines (typedBy twoLines) ∧ Along step HasRoom new twoLines ∧
      ∃ s, exec step new twoLines = some s ∧ s.out = [byte 'b', newline] ∧
        upToNewline s.typed = [byte 'a', newline, byte 'b', newline] ∧
        ¬ s.out <+: upToNewline s.typed := by
  refine ⟨.of_length (by decide +kernel), by decide +kernel, ?_⟩
  have hfacts : ∃ s ∈ exec step new twoLines, s.out = [byte 'b', newline] ∧
      upToNewline s.typed = [byte 'a', newline, byte 'b', newline] := by
    decide +kernel
  obtain ⟨s, hs, hout, htyped⟩ := hfacts
  refine ⟨s, hs, hout, htyped, ?_⟩
  rw [hout, htyped]
  decide

end Session

end AlaphiOS.Io
