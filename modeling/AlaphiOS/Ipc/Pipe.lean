import AlaphiOS.Ipc.Channel
import AlaphiOS.Lib.Checked

/-!
# Pipes

`kernel/src/ipc/pipe.rs`: a buffer of 4096 bytes between any number of senders and
receivers. A `send` that finds less room than it needs pushes what fits, waits on
`not_full` and goes on; other senders may push in between.

`pipe_lossless` is the stream: for any interleaving, spurious wake-ups included, what
the receivers get is what the senders pushed, in order, and what each sender pushed is
a prefix of its data.

Mirroring notes:
- `PIPE_BUF - guard.len()` is checked; `none` is its panic.
- The loop of `send` runs on `fuel`; the length of the data is enough
  (`exists_sendLoop`).
- The bytes a `send` pushes are its `log`.
-/

namespace AlaphiOS.Ipc

open Lib Lib.Monitor List

/-- `PIPE_BUF`. -/
def pipeBuf : Nat := 4096

/-- `Pipe`. -/
structure Pipe where
  buf : List UInt8
  closed : Bool

namespace Pipe

def new : Pipe := ⟨[], false⟩

/-- What a call knows between two stretches. -/
inductive Frame where
  | send (data : List UInt8) (bytesWritten : Nat)
  | recv (len : Nat)
  | close
  deriving DecidableEq

/-- What a call returns. -/
inductive Reply where
  | sent (result : Except IpcError Unit)
  /-- The bytes received; their number is returned. -/
  | received (bytes : List UInt8)
  | closed

abbrev Outcome := Stretch Cond Pipe Frame Reply UInt8

/-- The loop of `send`. -/
def sendLoop (data : List UInt8) (fuel bytesWritten : Nat) (pipe : Pipe) : Option Outcome :=
  if bytesWritten < data.length then
    if pipe.closed then some ⟨pipe, [], [], .ret (.sent (.error .closed))⟩
    else do
      let availableSpace ← usizeSub pipeBuf pipe.buf.length
      if availableSpace = 0 then some ⟨pipe, [], [], .wait .notFull (.send data bytesWritten)⟩
      else
        let toWrite := min (data.length - bytesWritten) availableSpace
        let chunk := (data.drop bytesWritten).take toWrite
        match fuel with
        | 0 => none
        | fuel + 1 => do
          let rest ← sendLoop data fuel (bytesWritten + toWrite) { pipe with buf := pipe.buf ++ chunk }
          some { rest with log := chunk ++ rest.log, wakes := .signal .notEmpty :: rest.wakes }
  else some ⟨pipe, [], [], .ret (.sent (.ok ()))⟩

/-- `send`. -/
def send (data : List UInt8) (bytesWritten : Nat) (pipe : Pipe) : Option Outcome :=
  sendLoop data data.length bytesWritten pipe

/-- `recv`. -/
def recv (len : Nat) (pipe : Pipe) : Outcome :=
  if pipe.buf = [] then
    if pipe.closed then ⟨pipe, [], [], .ret (.received [])⟩
    else ⟨pipe, [], [], .wait .notEmpty (.recv len)⟩
  else
    let toRead := min len pipe.buf.length
    ⟨{ pipe with buf := pipe.buf.drop toRead }, [],
      if toRead > 0 then [.signal .notFull] else [], .ret (.received (pipe.buf.take toRead))⟩

/-- `close`. -/
def close (pipe : Pipe) : Outcome :=
  ⟨{ pipe with closed := true }, [], [.broadcast .notEmpty, .broadcast .notFull], .ret .closed⟩

/-- `impl IpcChannel for Pipe`. -/
def program : Program Cond Pipe Frame Call Reply UInt8 where
  enter
    | .send data => .send data 0
    | .recv len => .recv len
    | .close => .close
  code
    | .send data bytesWritten, pipe => send data bytesWritten pipe
    | .recv len, pipe => some (recv len pipe)
    | .close, pipe => some (close pipe)

/-! ## One stretch of `send` -/

variable {data : List UInt8} {fuel written : Nat} {pipe : Pipe} {st : Outcome}

/-- What a stretch of `send` does: it pushes the next bytes of the data, signals if there
are any, and is done, or closed out, or waits with the rest. -/
structure Sends (data : List UInt8) (written : Nat) (pipe : Pipe) (st : Outcome) : Prop where
  buf : st.shared.buf = pipe.buf ++ st.log
  closed : st.shared.closed = pipe.closed
  bounded : pipe.buf.length ≤ pipeBuf → st.shared.buf.length ≤ pipeBuf
  next : st.log <+: data.drop written
  wakes : ∃ n, st.wakes = replicate n (.signal .notEmpty) ∧ (st.log ≠ [] → 0 < n)
  finish : st.finish = .wait .notFull (.send data (written + st.log.length)) ∧ pipe.closed = false ∨
    st.finish = .ret (.sent (.error .closed)) ∨
    st.finish = .ret (.sent (.ok ())) ∧ st.log = data.drop written

theorem Sends.idle (h : st.shared = pipe) (hlog : st.log = []) (hwakes : st.wakes = [])
    (hfinish : st.finish = .wait .notFull (.send data written) ∧ pipe.closed = false ∨
      st.finish = .ret (.sent (.error .closed)) ∨
      st.finish = .ret (.sent (.ok ())) ∧ data.length ≤ written) :
    Sends data written pipe st where
  buf := by rw [h, hlog, append_nil]
  closed := by rw [h]
  bounded := by
    rw [h]
    exact id
  next := by
    rw [hlog]
    exact nil_prefix
  wakes := ⟨0, hwakes, fun hne => absurd hlog hne⟩
  finish := by
    rw [hlog]
    rcases hfinish with hw | he | ⟨hr, hlen⟩
    · exact .inl hw
    · exact .inr (.inl he)
    · exact .inr (.inr ⟨hr, (drop_of_length_le hlen).symm⟩)

/-- One more chunk in front. -/
theorem Sends.chunk {n : Nat} {rest : Outcome} (hn : n ≤ data.length - written)
    (hroom : n ≤ pipeBuf - pipe.buf.length)
    (h : Sends data (written + n) { pipe with buf := pipe.buf ++ (data.drop written).take n } rest) :
    Sends data written pipe { rest with
      log := (data.drop written).take n ++ rest.log
      wakes := .signal .notEmpty :: rest.wakes } := by
  have hlen : ((data.drop written).take n).length = n := by
    rw [length_take, length_drop]
    omega
  -- What is left behind the chunk is what the rest of the stretch starts from.
  have hsplit : (data.drop written).take n ++ data.drop (written + n) = data.drop written := by
    rw [← drop_drop]
    exact take_append_drop n _
  refine ⟨?_, h.closed, fun hle => h.bounded ?_, ?_, ?_, ?_⟩
  · show rest.shared.buf = pipe.buf ++ (_ ++ rest.log)
    rw [h.buf, append_assoc]
  · show (pipe.buf ++ _).length ≤ pipeBuf
    rw [length_append, hlen]
    omega
  · have hpre : (data.drop written).take n ++ rest.log <+:
        (data.drop written).take n ++ data.drop (written + n) :=
      (prefix_append_right_inj _).mpr h.next
    rwa [hsplit] at hpre
  -- Each chunk has a signal of its own.
  · obtain ⟨m, hm, _⟩ := h.wakes
    exact ⟨m + 1, by rw [replicate_succ, ← hm], fun _ => Nat.succ_pos m⟩
  · rcases h.finish with ⟨hw, hopen⟩ | he | ⟨hr, hlog⟩
    · refine .inl ⟨?_, hopen⟩
      show rest.finish = _
      rw [hw, length_append, hlen, Nat.add_assoc]
    · exact .inr (.inl he)
    · refine .inr (.inr ⟨hr, ?_⟩)
      show _ ++ rest.log = _
      rw [hlog, hsplit]

/-- One round of the loop: it ends here, or goes on behind a chunk. -/
theorem sendLoop_inv (h : sendLoop data fuel written pipe = some st) :
    Sends data written pipe st ∨ ∃ fuel' n rest, fuel = fuel' + 1 ∧ n ≤ data.length - written ∧
      n ≤ pipeBuf - pipe.buf.length ∧
      sendLoop data fuel' (written + n) { pipe with buf := pipe.buf ++ (data.drop written).take n }
        = some rest ∧
      st = { rest with
        log := (data.drop written).take n ++ rest.log
        wakes := .signal .notEmpty :: rest.wakes } := by
  unfold sendLoop at h
  split at h
  · split at h
    -- Closed, also in the middle of the data.
    · cases h
      exact .inl (.idle rfl rfl rfl (.inr (.inl rfl)))
    next hopen =>
      obtain ⟨space, hspace, h⟩ := bind_inv h
      split at h
      · cases h
        exact .inl (.idle rfl rfl rfl (.inl ⟨rfl, Bool.eq_false_iff.mpr hopen⟩))
      · cases fuel with
        -- Out of fuel; `exists_sendLoop` says that this does not happen.
        | zero => cases h
        | succ fuel =>
          obtain ⟨rest, hrest, h⟩ := bind_inv h
          cases h
          refine .inr ⟨fuel, _, rest, rfl, Nat.min_le_left .., ?_, hrest, rfl⟩
          rw [← (usizeSub_eq hspace).1]
          exact Nat.min_le_right ..
  next hdone =>
    cases h
    exact .inl (.idle rfl rfl rfl (.inr (.inr ⟨rfl, Nat.not_lt.mp hdone⟩)))

theorem sends_sendLoop
    (h : sendLoop data fuel written pipe = some st) : Sends data written pipe st := by
  induction fuel generalizing written pipe st with
  | zero =>
    rcases sendLoop_inv h with hends | ⟨_, _, _, hfuel, _⟩
    · exact hends
    · exact absurd hfuel (Nat.succ_ne_zero _).symm
  | succ fuel ih =>
    rcases sendLoop_inv h with hends | ⟨fuel', n, rest, hfuel, hn, hroom, hrest, rfl⟩
    · exact hends
    · obtain rfl : fuel = fuel' := Nat.succ.inj hfuel
      exact (ih hrest).chunk hn hroom

/-- With enough fuel and no more in the buffer than it holds, there is no panic. -/
theorem exists_sendLoop (hle : pipe.buf.length ≤ pipeBuf)
    (hfuel : data.length - written ≤ fuel) : ∃ st, sendLoop data fuel written pipe = some st := by
  induction fuel generalizing written pipe with
  | zero =>
    unfold sendLoop
    rw [if_neg (by omega)]
    exact ⟨_, rfl⟩
  | succ fuel ih =>
    unfold sendLoop
    split
    next hmore =>
      split
      · exact ⟨_, rfl⟩
      · rw [usizeSub, bind_of_eq (if_pos hle)]
        split
        · exact ⟨_, rfl⟩
        next hroom =>
          -- the chunk fits, and takes at least one byte
          let n := min (data.length - written) (pipeBuf - pipe.buf.length)
          have hfits : (pipe.buf ++ (data.drop written).take n).length ≤ pipeBuf := by
            rw [length_append, length_take, length_drop]
            omega
          have hless : data.length - (written + n) ≤ fuel := by omega
          obtain ⟨rest, hrest⟩ := @ih (written + n) ⟨pipe.buf ++ (data.drop written).take n, _⟩
            hfits hless
          dsimp only
          rw [hrest]
          exact ⟨_, rfl⟩
    · exact ⟨_, rfl⟩

/-! ## The stream -/

variable {k : Frame}

/-- The bytes a stretch hands out. -/
def handedOut : Finish Cond Frame Reply → List UInt8
  | .ret (.received bytes) => bytes
  | _ => []

/-- No byte gets lost, and none is made up: what was in the buffer and what is pushed
is what is handed out and what stays. -/
theorem code_stream (h : program.code k pipe = some st) :
    pipe.buf ++ st.log = handedOut st.finish ++ st.shared.buf := by
  cases k with
  -- A `send` hands out nothing, however it ends.
  | send data written =>
    have hsends := sends_sendLoop h
    have hnone : handedOut st.finish = [] := by
      rcases hsends.finish with ⟨hw, _⟩ | he | ⟨hr, _⟩
      · rw [hw]
        rfl
      · rw [he]
        rfl
      · rw [hr]
        rfl
    rw [hnone, hsends.buf, nil_append]
  -- A `recv` pushes nothing, and what it takes off the front it hands out.
  | recv len =>
    obtain rfl : recv len pipe = st := Option.some.inj h
    unfold recv
    split
    next hempty =>
      split
      · rw [hempty]; rfl
      · rw [hempty]; rfl
    · rw [append_nil]
      exact (take_append_drop _ pipe.buf).symm
  | close =>
    obtain rfl : close pipe = st := Option.some.inj h
    exact append_nil _

/-- `recv` pushes nothing. -/
theorem recv_log (len : Nat) (pipe : Pipe) : (recv len pipe).log = [] := by
  unfold recv
  split
  · split
    · rfl
    · rfl
  · rfl

theorem code_bounded (h : program.code k pipe = some st) (hle : pipe.buf.length ≤ pipeBuf) :
    st.shared.buf.length ≤ pipeBuf := by
  cases k with
  | send data written => exact (sends_sendLoop h).bounded hle
  | recv len =>
    have hstream := code_stream h
    obtain rfl : recv len pipe = st := Option.some.inj h
    have hlen := congrArg length hstream
    rw [recv_log, append_nil, length_append] at hlen
    omega
  | close =>
    obtain rfl : close pipe = st := Option.some.inj h
    exact hle

theorem exists_code (hle : pipe.buf.length ≤ pipeBuf) (k : Frame) :
    ∃ st, program.code k pipe = some st := by
  cases k with
  | send data written => exact exists_sendLoop hle (Nat.sub_le ..)
  | recv | close => exact ⟨_, rfl⟩

variable {len : Nat}

/-- With room for a byte, `recv` returns none only at the end of the stream. -/
theorem recv_end (hlen : 0 < len)
    (h : (recv len pipe).finish = .ret (.received [])) : pipe.closed = true ∧ pipe.buf = [] := by
  unfold recv at h
  split at h
  next hempty =>
    split at h
    next hclosed => exact ⟨hclosed, hempty⟩
    · cases h
  next hsome =>
    have htake : pipe.buf.take (min len pipe.buf.length) = [] := by injection h with h; injection h
    have hpos := length_pos_iff.mpr hsome
    have hcut := congrArg length htake
    rw [length_take, length_nil] at hcut
    omega

/-! ### One call -/

/-- What a call knows agrees with what it has put: a `send` the first bytes of its data,
the others nothing. -/
def Going : Call → Frame → List UInt8 → Prop
  | .send data, k, es => ∃ written, k = .send data written ∧ es = data.take written
  | w, k, es => k = program.enter w ∧ es = []

/-- What a call has put when it returns. -/
def Gone : Call → Reply → List UInt8 → Prop
  | .send data, r, es => es <+: data ∧ (r = .sent (.ok ()) → es = data)
  | _, _, es => es = []

theorem rule_send (h : program.code (.send data written) pipe = some st) :
    data.take written ++ st.log <+: data := by
  have hpre := (prefix_append_right_inj (data.take written)).mpr (sends_sendLoop h).next
  rwa [take_append_drop] at hpre

/-- A `recv` that waits goes on as it began. -/
theorem recv_wait {c : Cond} {k' : Frame} (h : (recv len pipe).finish = .wait c k') :
    c = .notEmpty ∧ k' = .recv len := by
  unfold recv at h
  split at h
  · split at h
    · cases h
    · injection h with hc hk'
      exact ⟨hc.symm, hk'.symm⟩
  · cases h

theorem rule : Rule program Going Gone where
  enter := by
    intro w
    cases w with
    | send data => exact ⟨0, rfl, take_zero.symm⟩
    | recv | close => exact ⟨rfl, rfl⟩
  wait := by
    intro w k es pipe st c k' hgoing hcode hfinish
    cases w with
    | send data =>
      obtain ⟨written, rfl, rfl⟩ := hgoing
      rcases (sends_sendLoop hcode).finish with ⟨hw, _⟩ | he | ⟨hr, _⟩
      · rw [hw] at hfinish
        injection hfinish with _ hk'
        refine ⟨written + st.log.length, hk'.symm, ?_⟩
        -- what is pushed is what comes next
        rw [take_add, ← prefix_iff_eq_take.mp (sends_sendLoop hcode).next]
      · cases he.symm.trans hfinish
      · cases hr.symm.trans hfinish
    | recv len =>
      obtain ⟨rfl, rfl⟩ := hgoing
      obtain rfl : recv len pipe = st := Option.some.inj hcode
      exact ⟨(recv_wait hfinish).2, recv_log len pipe⟩
    | close =>
      obtain ⟨rfl, rfl⟩ := hgoing
      obtain rfl : close pipe = st := Option.some.inj hcode
      exact absurd hfinish (by simp [close])
  ret := by
    intro w k es pipe st r hgoing hcode hfinish
    cases w with
    | send data =>
      obtain ⟨written, rfl, rfl⟩ := hgoing
      refine ⟨rule_send hcode, fun hok => ?_⟩
      rcases (sends_sendLoop hcode).finish with ⟨hw, _⟩ | he | ⟨_, hlog⟩
      · cases hw.symm.trans hfinish
      · rw [he, hok] at hfinish
        cases hfinish
      · rw [hlog, take_append_drop]
    | recv len =>
      obtain ⟨rfl, rfl⟩ := hgoing
      obtain rfl : recv len pipe = st := Option.some.inj hcode
      exact recv_log len pipe
    | close =>
      obtain ⟨rfl, rfl⟩ := hgoing
      obtain rfl : close pipe = st := Option.some.inj hcode
      rfl

/-! ### All runs -/

variable {τ : Type} {s : State τ Cond Pipe Frame} {tr es : List (Event τ Call Reply UInt8)}

/-- All bytes returned by `recv`, in order. -/
def received (tr : List (Event τ Call Reply UInt8)) : List UInt8 :=
  tr.flatMap fun
    | .returned _ (.received bytes) => bytes
    | _ => []

theorem received_append : received (tr ++ es) = received tr ++ received es := flatMap_append

theorem received_report (id : τ × Nat) (st : Outcome) :
    received (State.report id st) = handedOut st.finish := by
  unfold State.report received
  rw [flatMap_cons]
  cases st.finish with
  | wait => rfl
  | ret r => cases r <;> simp [handedOut]

variable [DecidableEq τ]

/-- What a pipe has taken in and given out. -/
structure Lossless (s : State τ Cond Pipe Frame) (tr : List (Event τ Call Reply UInt8)) : Prop where
  bounded : s.shared.buf.length ≤ pipeBuf
  /-- There is no underflow. -/
  runs : ∀ k, ∃ st, program.code k s.shared = some st
  inOrder : received tr <+: (puts tr).map Prod.snd
  /-- Only the calls of `send` push. -/
  pushed : ∀ x ∈ puts tr, ∃ data, .called x.1 (.send data) ∈ tr
  /-- The bytes of one call, in the order in which it pushed them. -/
  merged : ∀ id data, .called id (.send data) ∈ tr → putsOf id tr <+: data ∧
    (.returned id (.sent (.ok ())) ∈ tr → putsOf id tr = data)
  /-- The end of the stream is seen only there. -/
  ended : ∀ op s' es id len, step program s op = some (s', es) → .called id (.recv len) ∈ tr →
    0 < len → .returned id (.received []) ∈ es → s.shared.closed = true ∧ s.shared.buf = []

theorem stream_reaches {ops : List (Op τ Call)} (h : Reaches program new ops s tr) :
    s.shared.buf.length ≤ pipeBuf ∧ (puts tr).map Prod.snd = received tr ++ s.shared.buf := by
  refine reaches_induction (P := fun _ _ => True)
    (I := fun (s : State τ Cond Pipe Frame) tr => s.shared.buf.length ≤ pipeBuf ∧
      (puts tr).map Prod.snd = received tr ++ s.shared.buf) ?_ ?_ along_true h
  · exact ⟨Nat.zero_le _, rfl⟩
  · intro s tr op s' es ⟨hle, hputs⟩ _ hstep
    cases hstep with
    | start w _ =>
      refine ⟨hle, ?_⟩
      rw [puts_append, received_append, map_append, hputs]
      simp [puts, received]
    | @run t k st hk hcode =>
      rw [State.apply_shared]
      refine ⟨code_bounded hcode hle, ?_⟩
      rw [puts_append, received_append, puts_report, received_report, map_append, hputs,
        append_assoc, append_assoc, ← code_stream hcode, map_map]
      exact congrArg (fun log => received tr ++ (s.shared.buf ++ log)) (map_id st.log)
    | @wake t =>
      rw [(s.wakes_unblock t).shared, append_nil]
      exact ⟨hle, hputs⟩

/-- **A pipe is a bounded lossless byte stream**, for any interleaving of calls by any
tasks. -/
theorem pipe_lossless {ops : List (Op τ Call)} (h : Reaches program new ops s tr) :
    Lossless s tr := by
  obtain ⟨hle, hputs⟩ := stream_reaches h
  have hcalls := calls_accounted rule h
  refine ⟨hle, exists_code hle, ?_, fun x hx => ?_, fun id data hcalled => ?_, ?_⟩
  · rw [hputs]
    exact prefix_append ..
  -- Who has pushed a byte is in a call, and it is no `recv` or `close`.
  · obtain ⟨w, hw, hmem⟩ := hcalls.exists_of_puts hx
    have hne : putsOf x.1 tr ≠ [] := ne_nil_of_mem hmem
    cases w with
    | send data => exact ⟨data, hw⟩
    | recv | close =>
      rcases hcalls.of_called hw with ⟨k, ⟨_, hnil⟩, _⟩ | ⟨r, _, hnil⟩
      · exact absurd hnil hne
      · exact absurd hnil hne
  · rcases hcalls.of_called hcalled with ⟨k, ⟨n, _, htake⟩, hret⟩ | ⟨r, hret, hpre, hwhole⟩
    · rw [htake]
      exact ⟨ take_prefix .., fun hok => absurd hok (hret _)⟩
    · exact ⟨hpre, fun hok => hwhole ((hret _).mp hok).symm⟩
  · intro op s' es id len hstep hcalled hlen hret
    cases step_inv hstep with
    | start => exact absurd hret (by simp)
    | wake => exact absurd hret not_mem_nil
    | @run t k st hk hcode =>
      have hid : id = (t, s.calls t) := report_id st _ hret
      subst hid
      obtain ⟨w, hw, _, hgoing⟩ := hcalls.active t k (Phase.frame_of_runnable hk)
      obtain rfl := (hw _).mp hcalled
      obtain ⟨rfl, _⟩ := hgoing
      obtain rfl : recv len s.shared = st := Option.some.inj hcode
      exact recv_end hlen (returned_mem_report.mp hret)

/-- Task 0 waits for bytes, task 1 sends three, and task 0 takes two of them. -/
def twoOfThree : List (Op (Fin 2) Call) :=
  [.start 0 (.recv 2), .run 0, .start 1 (.send [7, 8, 9]), .run 1, .run 0]

/-- Two of three bytes are read. -/
theorem pipe_lossless_twoOfThree : ∃ s tr, Reaches program new twoOfThree s tr ∧
    received tr = [7, 8] ∧ s.shared.buf = [9] ∧ Lossless s tr := by
  have hrun : Reaches program new twoOfThree _ _ := rfl
  exact ⟨_, _, hrun, by decide +kernel, by decide +kernel, pipe_lossless hrun⟩

end Pipe

end AlaphiOS.Ipc
