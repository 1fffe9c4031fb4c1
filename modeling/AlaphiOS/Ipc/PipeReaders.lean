import AlaphiOS.Ipc.Pipe
import AlaphiOS.Lib.WaitQueues

/-!
# Readers left waiting

`send` signals `not_empty` once for a chunk of any length, and `recv` signals only
`not_full`. A receiver that takes less than there is uses up the signal: the receivers
behind it go on waiting next to a buffer that is not empty (`receiver_stranded`).

No reader is stranded as long as each wake-up is passed on: a `recv` leaves bytes
behind only if nobody waits for them, or if another receiver is about to run
(`no_stranded_receiver`). The invariant is `Attended`.
-/

namespace AlaphiOS.Ipc.Pipe

open Lib Lib.Monitor Function List Option State

def Frame.isRecv : Frame → Bool
  | .recv _ => true
  | .send _ _ | .close => false

variable {τ : Type} {s s' : State τ Cond Pipe Frame} {t x : τ}

/-- `t` is in `recv` and can run. -/
def Receiver (s : State τ Cond Pipe Frame) (t : τ) : Prop :=
  (s.phase t).runnable.any Frame.isRecv = true

instance : Decidable (Receiver s t) := inferInstanceAs (Decidable (_ = true))

/-- There are bytes, no sender or receiver can run, and a receiver waits. -/
def Stranded (s : State τ Cond Pipe Frame) : Prop :=
  s.shared.buf ≠ [] ∧ (∀ t k, (s.phase t).runnable = some k → k = .close) ∧
    ∃ t len, s.phase t = .waiting .notEmpty (.recv len)

/-- Who leaves bytes behind leaves them to nobody who waits, or to another receiver that
can run. -/
def PassesOnFrom (s : State τ Cond Pipe Frame) (t : τ) : Frame → Prop
  | .recv len => len < s.shared.buf.length →
      s.waiters .notEmpty = [] ∨ ∃ x, x ≠ t ∧ Receiver s x
  | .send _ _ | .close => True

/-- A step that leaves bytes leaves somebody to read them. -/
def PassesOn (s : State τ Cond Pipe Frame) : Op τ Call → Prop
  | .run t => ∀ k, (s.phase t).runnable = some k → PassesOnFrom s t k
  | .start _ _ | .wake _ => True

/-- Nobody waits for bytes, or a receiver can run. -/
def Attended (s : State τ Cond Pipe Frame) : Prop :=
  s.waiters .notEmpty = [] ∨ ∃ t, Receiver s t

/-! ## Wake-ups -/

theorem Receiver.wakes (h : Receiver s x) (hwakes : s.Wakes s') : Receiver s' x := by
  unfold Receiver at h ⊢
  cases hk : (s.phase x).runnable with
  | none =>
    rw [hk] at h
    cases h
  | some k => rwa [hwakes.phase_of_runnable hk]

/-- Receivers wait on `not_empty`. -/
def Sorted : Cond → Frame → Prop
  | .notEmpty, k => k.isRecv = true
  | .notFull, _ => True

theorem code_sorted {k k' : Frame} {pipe : Pipe} {st : Outcome} {c : Cond}
    (h : program.code k pipe = some st) (hfinish : st.finish = .wait c k') : Sorted c k' := by
  cases k with
  | send data written =>
    rcases (sends_sendLoop h).finish with ⟨hw, _⟩ | he | ⟨hr, _⟩
    · rw [hw] at hfinish
      cases hfinish
      trivial
    · cases he.symm.trans hfinish
    · cases hr.symm.trans hfinish
  | recv len =>
    obtain rfl : recv len pipe = st := some.inj h
    obtain ⟨rfl, rfl⟩ := recv_wait hfinish
    rfl
  | close =>
    obtain rfl : close pipe = st := some.inj h
    exact absurd hfinish (by simp [close])

variable [DecidableEq τ]

/-- A signal wakes a receiver, unless nobody waits. -/
theorem attended_signal (htidy : Tidy s) (hsorted : WaitsOn Sorted s) :
    Attended (s.signal .notEmpty) := by
  cases hw : s.waiters .notEmpty with
  | nil =>
    refine .inl ?_
    rw [s.signal_waiters_self, hw, tail_nil]
  | cons x xs =>
    obtain ⟨k, hk⟩ := (htidy.mem .notEmpty x).mp (hw ▸ mem_cons_self)
    refine .inr ⟨x, ?_⟩
    unfold Receiver
    rw [signal_cons hw hk]
    show ((update s.phase x _ x).runnable.any Frame.isRecv) = true
    rw [update_self]
    exact hsorted x .notEmpty k (.inl hk)

theorem attended_signals {n : Nat} (hn : 0 < n) (htidy : Tidy s) (hsorted : WaitsOn Sorted s) :
    Attended ((replicate n (.signal .notEmpty)).foldl wakeUp s) := by
  obtain ⟨m, rfl⟩ := Nat.exists_eq_add_of_lt hn
  -- the last signal alone is enough
  rw [Nat.zero_add, replicate_succ', foldl_append]
  exact attended_signal (Tidy.wakeAll _ htidy) (hsorted.wakes (wakes_wakeAll _ s))

/-- The end of a stretch that does not wait for bytes, as far as the others go. -/
theorem attended_settle {finish : Finish Cond Frame Reply}
    (h : s.waiters .notEmpty = [] ∨ ∃ x, x ≠ t ∧ Receiver s x)
    (hfinish : ∀ k, finish ≠ .wait .notEmpty k) : Attended (s.settle t finish) := by
  rcases h with hnil | ⟨x, hx, hrecv⟩
  · exact .inl ((s.settle_waiters_of_ne t hfinish).trans hnil)
  · refine .inr ⟨x, ?_⟩
    unfold Receiver at hrecv ⊢
    rwa [s.settle_phase_of_ne finish hx]

/-! ## Runs -/

/-- The queues are in order, and bytes that are there are attended to. -/
structure Served (s : State τ Cond Pipe Frame) : Prop where
  tidy : Tidy s
  sorted : WaitsOn Sorted s
  attended : s.shared.buf ≠ [] → Attended s

/-- A stretch of `send`: the bytes it pushes are signalled. -/
theorem Served.send {data : List UInt8} {written : Nat} {st : Outcome} (h : Served s)
    (hk : (s.phase t).runnable = some (.send data written))
    (hcode : program.code (.send data written) s.shared = some st)
    (hbuf : st.shared.buf ≠ []) : Attended (s.apply t st) := by
  have hsends := sends_sendLoop hcode
  obtain ⟨n, hwakes, hpos⟩ := hsends.wakes
  have hstay := wakes_wakeAll st.wakes { s with shared := st.shared }
  have hattended : Attended (st.wakes.foldl wakeUp { s with shared := st.shared }) := by
    rcases Nat.eq_zero_or_pos n with hzero | hn
    · -- nothing was pushed, so that the bytes were there before
      have hlog : st.log = [] := Classical.not_not.mp fun hne => absurd (hpos hne) (by omega)
      rw [hsends.buf, hlog, append_nil] at hbuf
      rw [hwakes, hzero]
      exact h.attended hbuf
    · rw [hwakes]
      exact attended_signals hn ⟨h.tidy.nodup, h.tidy.mem⟩ h.sorted
  refine attended_settle ?_ fun k hwait => ?_
  · refine hattended.imp_right fun ⟨x, hx⟩ => ⟨x, ?_, hx⟩
    -- `t` itself is in `send`
    rintro rfl
    unfold Receiver at hx
    rw [hstay.phase_of_runnable (s := { s with shared := st.shared }) hk] at hx
    exact absurd hx (by simp [hk, Frame.isRecv])
  · rcases hsends.finish with ⟨hw, _⟩ | he | ⟨hr, _⟩
    · cases hw.symm.trans hwait
    · cases he.symm.trans hwait
    · cases hr.symm.trans hwait

/-- A stretch of `recv` that leaves bytes. -/
theorem attended_recv {len : Nat}
    (hpass : len < s.shared.buf.length → s.waiters .notEmpty = [] ∨ ∃ x, x ≠ t ∧ Receiver s x)
    (hbuf : (recv len s.shared).shared.buf ≠ []) : Attended (s.apply t (recv len s.shared)) := by
  have hsome : s.shared.buf ≠ [] := by
    intro hnil
    unfold recv at hbuf
    rw [if_pos hnil] at hbuf
    split at hbuf <;> exact hbuf hnil
  have hrecv : recv len s.shared =
      ⟨{ s.shared with buf := s.shared.buf.drop (min len s.shared.buf.length) }, [], if min len s.shared.buf.length > 0 then [.signal .notFull] else [],
      .ret (.received (s.shared.buf.take (min len s.shared.buf.length)))⟩ := by
    unfold recv
    rw [if_neg hsome]
  -- It took `len` bytes, and there were more.
  have hless : len < s.shared.buf.length := by
    rw [hrecv] at hbuf
    have hlen := length_pos_iff.mpr hbuf
    rw [length_drop] at hlen
    omega
  rw [hrecv]
  refine attended_settle ?_ nofun
  have hstay := wakes_wakeAll
    (if min len s.shared.buf.length > 0 then [.signal .notFull] else []) { s with
      shared := { s.shared with buf := s.shared.buf.drop (min len s.shared.buf.length) } }
  -- Nobody waits, or another receiver can run; the signal is for senders and changes neither.
  rcases hpass hless with hnil | ⟨x, hx, hready⟩
  · refine .inl ?_
    split
    · exact (signal_waiters_of_ne _ (by decide)).trans hnil
    · exact hnil
  · exact .inr ⟨x, hx, Receiver.wakes (s := { s with
      shared := { s.shared with buf := s.shared.buf.drop (min len s.shared.buf.length) } })
      hready hstay⟩

/-- `close` leaves nobody waiting. -/
theorem attended_close (s : State τ Cond Pipe Frame) (t : τ) :
    Attended (s.apply t (close s.shared)) := by
  refine attended_settle (.inl ?_) fun k hwait => absurd hwait (by simp [close])
  exact (broadcast_waiters_of_ne _ (by decide)).trans (broadcast_waiters_self ..)

theorem Served.step {op : Op τ Call} {es : List (Event τ Call Reply UInt8)} (h : Served s)
    (hop : op.isWake = false) (hpass : PassesOn s op) (hstep : Step program s op s' es) :
    Served s' := by
  refine ⟨h.tidy.step hop hstep, h.sorted.step code_sorted hstep, fun hbuf => ?_⟩
  cases hstep with
  | @start t w hout =>
    rcases h.attended hbuf with hnil | ⟨x, hx⟩
    · exact .inl hnil
    · refine .inr ⟨x, ?_⟩
      -- A task that begins a call was not in one.
      have hxt : x ≠ t := by
        rintro rfl
        unfold Receiver at hx
        rw [hout] at hx
        exact absurd hx (by simp [Phase.runnable])
      show (update s.phase t _ x).runnable.any Frame.isRecv = true
      rwa [update_of_ne hxt]
  | @run t k st hk hcode =>
    rw [apply_shared] at hbuf
    cases k with
    | send data written => exact h.send hk hcode hbuf
    | recv len =>
      obtain rfl : recv len s.shared = st := some.inj hcode
      exact attended_recv (hpass _ hk) hbuf
    | close =>
      obtain rfl : close s.shared = st := some.inj hcode
      exact attended_close s t
  | wake => exact absurd hop (by simp [Op.isWake])

/-- **No reader is stranded** while wake-ups are passed on. -/
theorem no_stranded_receiver {ops : List (Op τ Call)} {tr : List (Event τ Call Reply UInt8)}
    (hwakes : ∀ op ∈ ops, op.isWake = false)
    (hpass : Along (traced (Monitor.step program)) (fun x op => PassesOn x.1 op)
      (State.init new, []) ops)
    (h : Reaches program new ops s tr) : ¬ Stranded s := by
  have hserved : Served s := by
    refine reaches_induction (I := fun s _ => Served s) ?_ ?_ (hpass.and_forall hwakes) h
    · exact ⟨tidy_init _, waitsOn_init _, fun hbuf => absurd rfl hbuf⟩
    · exact fun hI hP hstep => hI.step hP.1 hP.2 hstep
  rintro ⟨hbuf, hidle, t, len, hwait⟩
  -- Nobody waits, or a receiver can run: both are excluded in a stranded state.
  rcases hserved.attended hbuf with hnil | ⟨x, hx⟩
  · have hmem := (hserved.tidy.mem .notEmpty t).mpr ⟨_, hwait⟩
    rw [hnil] at hmem
    cases hmem
  · unfold Receiver at hx
    cases hk : (s.phase x).runnable with
    | none =>
      rw [hk] at hx
      cases hx
    | some k =>
      rw [hk, hidle x k hk] at hx
      exact absurd hx (by simp [Frame.isRecv])

/-- Of four tasks two wait to receive; a third sends two bytes; the first receiver takes `len` of
them. -/
def twoReaders (len : Nat) : List (Op (Fin 4) Call) :=
  [.start 0 (.recv len), .run 0, .start 1 (.recv 1), .run 1, .start 2 (.send [7, 8]), .run 2, .run 0]

instance (s : State (Fin 4) Cond Pipe Frame) (t : Fin 4) :
    (k : Frame) → Decidable (PassesOnFrom s t k)
  | .recv len => inferInstanceAs (Decidable (len < s.shared.buf.length →
      s.waiters .notEmpty = [] ∨ ∃ x, x ≠ t ∧ Receiver s x))
  | .send _ _ | .close => instDecidableTrue

instance (s : State (Fin 4) Cond Pipe Frame) : (op : Op (Fin 4) Call) → Decidable (PassesOn s op)
  | .run t => inferInstanceAs (Decidable (∀ k, (s.phase t).runnable = some k → PassesOnFrom s t k))
  | .start _ _ | .wake _ => instDecidableTrue

/-- Four tasks on a pipe. -/
theorem no_stranded_receiver_four :
    Along (traced (Monitor.step program)) (fun x op => PassesOn x.1 op)
      (State.init new, []) (twoReaders 4) ∧
    ∃ s tr, Reaches program new (twoReaders 4) s tr ∧ ¬ Stranded s := by
  have hpass : Along (traced (Monitor.step program)) (fun x op => PassesOn x.1 op)
      (State.init new, []) (twoReaders 4) := by
    decide +kernel
  obtain ⟨⟨s, tr⟩, hrun⟩ : ∃ x, exec (traced (Monitor.step program)) (State.init new, []) (twoReaders 4)
      = some x := isSome_iff_exists.mp (by decide +kernel)
  exact ⟨hpass, s, tr, hrun, no_stranded_receiver (by decide) hpass hrun⟩

/-- With room for one byte, the first receiver leaves one, and the second is not woken. -/
theorem receiver_stranded : (∀ op ∈ twoReaders 1, op.isWake = false) ∧
    ∃ s tr, Reaches program new (twoReaders 1) s tr ∧ Stranded s := by
  obtain ⟨⟨s, tr⟩, hrun, hbuf, hidle, hwait⟩ :
      ∃ x ∈ exec (traced (Monitor.step program)) (State.init new, []) (twoReaders 1),
        x.1.shared.buf = [8] ∧ (∀ t, (x.1.phase t).runnable = none) ∧
        x.1.phase 1 = .waiting .notEmpty (.recv 1) := by
    decide +kernel
  refine ⟨by decide, s, tr, hrun, ?_, fun t k hk => ?_, 1, 1, hwait⟩
  · rw [hbuf]
    exact cons_ne_nil _ _
  · exact absurd ((hidle t).symm.trans hk) (by simp)

end AlaphiOS.Ipc.Pipe
