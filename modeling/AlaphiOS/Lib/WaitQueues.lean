import AlaphiOS.Lib.Monitor

/-!
# The queues of a monitor

Without spurious wake-ups the queues hold the waiting tasks, each of them once
(`Tidy`). `WaitsOn K s` sorts them: who waits or has waited on `c` goes on with a `K c`.
`Covers s c n` is for wake-ups that must not get lost: if someone waits on
`c`, then `n` tasks have been woken from `c` and have not run yet. A signal adds one
to `n`, a task that runs takes one away, and waiting needs `n` to be zero.
-/

namespace AlaphiOS.Lib.Monitor

open Function List State

variable {τ γ σ κ ω ρ ε : Type}

/-- The queues hold the waiting tasks, each once. -/
structure Tidy (s : State τ γ σ κ) : Prop where
  nodup : ∀ c, (s.waiters c).Nodup
  mem : ∀ c t, t ∈ s.waiters c ↔ ∃ k, s.phase t = .waiting c k

/-- What a task that waits on `c`, or was woken from it, goes on with. -/
def WaitsOn (K : γ → κ → Prop) (s : State τ γ σ κ) : Prop :=
  ∀ t c k, s.phase t = .waiting c k ∨ s.phase t = .woken c k → K c k

/-- If someone waits on `c`, then `n` tasks were woken from `c` and have not run since. -/
def Covers (s : State τ γ σ κ) (c : γ) (n : Nat) : Prop :=
  s.waiters c ≠ [] →
    ∃ ts : List τ, ts.Nodup ∧ (∀ t ∈ ts, ∃ k, s.phase t = .woken c k) ∧ n ≤ ts.length

section

variable {s : State τ γ σ κ} {t : τ} {c c' : γ} {n m : Nat} {k : κ} {r : ρ}

theorem tidy_init (shared : σ) : Tidy (init shared : State τ γ σ κ) where
  nodup := fun _ => nodup_nil
  mem := fun c t => by simp [init]

variable {s' : State τ γ σ κ} {K : γ → κ → Prop}

theorem waitsOn_init (shared : σ) : WaitsOn K (init shared : State τ γ σ κ) := by
  intro t c k h
  exact absurd h (by simp [init])

theorem WaitsOn.wakes (h : WaitsOn K s) (hwakes : s.Wakes s') : WaitsOn K s' := by
  intro t c k hphase
  rcases hwakes.later t with heq | ⟨d, k', hwait, hwoken⟩
  · rw [heq] at hphase
    exact h t c k hphase
  · rw [hwoken] at hphase
    rcases hphase with hphase | hphase
    · cases hphase
    · cases hphase
      exact h t c k (.inl hwait)

theorem Tidy.not_mem (h : Tidy s) (hk : ∀ c k, s.phase t ≠ .waiting c k) (c : γ) :
    t ∉ s.waiters c := fun ht =>
  have ⟨k, hw⟩ := (h.mem c t).mp ht
  hk c k hw

variable {p : Phase γ κ} {M : Program γ σ κ ω ρ ε} {op : Op τ ω} {es : List (Event τ ω ρ ε)}
  {f : Finish γ κ ρ}

theorem Phase.ne_waiting_of_runnable (h : p.runnable = some k) (c : γ) (k' : κ) :
    p ≠ .waiting c k' := by
  rintro rfl
  exact absurd h (by simp [Phase.runnable])

theorem Covers.of_eq_nil (h : s.waiters c = []) : Covers s c n := fun hne => absurd h hne

theorem Covers.zero (s : State τ γ σ κ) (c : γ) : Covers s c 0 := fun _ =>
  ⟨[], nodup_nil, nofun, Nat.zero_le _⟩

theorem Covers.mono (h : Covers s c n) (hle : m ≤ n) : Covers s c m := fun hne =>
  have ⟨ts, hnodup, hwoken, hlen⟩ := h hne
  ⟨ts, hnodup, hwoken, Nat.le_trans hle hlen⟩

/-- If someone waits, then one of those who were woken has not run yet. -/
theorem Covers.exists_woken (h : Covers s c n) (hn : 0 < n) (hne : s.waiters c ≠ []) :
    ∃ t k, s.phase t = .woken c k := by
  obtain ⟨ts, _, hwoken, hlen⟩ := h hne
  obtain ⟨t, ht⟩ := exists_mem_of_length_pos (Nat.lt_of_lt_of_le hn hlen)
  exact ⟨t, hwoken t ht⟩

/-- The tasks of the witness were woken already, so that a wake-up does not touch them. -/
theorem Covers.wakes (h : Covers s c n) (hwakes : s.Wakes s')
    (hwaiters : s'.waiters c ≠ [] → s.waiters c ≠ []) : Covers s' c n := by
  intro hne
  obtain ⟨ts, hnodup, hwoken, hlen⟩ := h (hwaiters hne)
  refine ⟨ts, hnodup, fun x hx => ?_, hlen⟩
  obtain ⟨k', hk'⟩ := hwoken x hx
  exact ⟨k', (hwakes.phase_of_runnable (by rw [hk']; rfl)).trans hk'⟩

variable [DecidableEq τ]

theorem Tidy.start (h : Tidy s) (hout : s.phase t = .outside) :
    Tidy { s with phase := update s.phase t (.ready k) } where
  nodup := h.nodup
  mem := by
    intro c x
    rw [h.mem c x]
    by_cases hx : x = t
    · subst hx
      simp [hout]
    · simp [update_of_ne hx]

theorem Covers.start (h : Covers s c n) (hout : s.phase t = .outside) :
    Covers { s with phase := update s.phase t (.ready k) } c n := by
  intro hne
  obtain ⟨ts, hnodup, hwoken, hlen⟩ := h hne
  refine ⟨ts, hnodup, fun x hx => ?_, hlen⟩
  obtain ⟨k', hk'⟩ := hwoken x hx
  have hxt : x ≠ t := by
    rintro rfl
    cases hout.symm.trans hk'
  exact ⟨k', (update_of_ne hxt ..).trans hk'⟩

/-- Only the phase of `t` is new, and it does not count, or is a wait of the right sort. -/
theorem WaitsOn.update (h : WaitsOn K s)
    (hphase : s'.phase = update s.phase t p) (hp : ∀ c k, p = .waiting c k → K c k)
    (hwoken : ∀ c k, p ≠ .woken c k) : WaitsOn K s' := by
  intro x c k hx
  rw [hphase] at hx
  by_cases hxt : x = t
  · subst hxt
    rw [update_self] at hx
    rcases hx with hx | hx
    · exact hp c k hx
    · exact absurd hx (hwoken c k)
  · rw [update_of_ne hxt] at hx
    exact h x c k hx

variable [DecidableEq γ]

/-- **If every stretch waits where it should, so does everyone.** -/
theorem WaitsOn.step (h : WaitsOn K s)
    (hcode : ∀ {k p st c k'}, M.code k p = some st → st.finish = .wait c k' → K c k')
    (hstep : Step M s op s' es) : WaitsOn K s' := by
  cases hstep with
  | start w hout =>
    exact h.update rfl (nofun) (nofun)
  | @run t k st hk hst =>
    have hwoken : WaitsOn K (st.wakes.foldl wakeUp { s with shared := st.shared }) :=
      WaitsOn.wakes (s := { s with shared := st.shared }) h (wakes_wakeAll st.wakes _)
    unfold apply
    cases hfin : st.finish with
    | wait c k' =>
      refine hwoken.update rfl (fun d k'' hp => ?_) (nofun)
      cases hp
      exact hcode hst hfin
    | ret r =>
      exact hwoken.update rfl (nofun)
        (nofun)
  | @wake t => exact h.wakes (s.wakes_unblock t)

theorem Tidy.signal (h : Tidy s) (c : γ) : Tidy (s.signal c) := by
  cases hw : s.waiters c with
  | nil =>
    unfold State.signal
    rwa [hw]
  | cons t ts =>
    obtain ⟨k, hk⟩ := (h.mem c t).mp (hw ▸ mem_cons_self)
    have hnodup := h.nodup c
    rw [hw] at hnodup
    obtain ⟨hnotin, hts⟩ := nodup_cons.mp hnodup
    rw [State.signal_cons hw hk]
    refine ⟨fun d => ?_, fun d x => ?_⟩
    · by_cases hd : d = c
      · subst hd
        show (update s.waiters d ts d).Nodup
        rwa [update_self]
      · show (update s.waiters c ts d).Nodup
        rw [update_of_ne hd]
        exact h.nodup d
    · show x ∈ update s.waiters c ts d ↔
        ∃ k', update s.phase t (.woken c k) x = .waiting d k'
      by_cases hx : x = t
      · -- `t` was in the queue of `c` only, and once
        subst hx
        rw [update_self]
        refine iff_of_false (fun hmem => ?_) (by simp)
        by_cases hd : d = c
        · subst hd
          rw [update_self] at hmem
          exact hnotin hmem
        · rw [update_of_ne hd] at hmem
          obtain ⟨k', hk'⟩ := (h.mem d x).mp hmem
          exact hd (Phase.waiting.inj (hk'.symm.trans hk)).1
      · rw [update_of_ne hx, ← h.mem d x]
        by_cases hd : d = c
        · subst hd
          rw [update_self, hw, mem_cons]
          exact ⟨.inr, fun hmem => hmem.resolve_left hx⟩
        · rw [update_of_ne hd]

theorem Tidy.wakeAll (ws : List (Wake γ)) : ∀ {s : State τ γ σ κ}, Tidy s →
    Tidy (ws.foldl wakeUp s) := by
  induction ws with
  | nil => exact fun h => h
  | cons w ws ih =>
    intro s h
    refine ih ?_
    cases w with
    | signal c => exact h.signal c
    | broadcast c => exact broadcast_rule (fun _ h => h.signal c) h

theorem Tidy.wait (h : Tidy s) (hk : ∀ c k, s.phase t ≠ .waiting c k) :
    Tidy (s.settle t (.wait c k : Finish γ κ ρ)) := by
  -- A task that runs is in no queue, so it is in one of them once behind the step.
  have hnotin := h.not_mem hk
  refine ⟨fun d => ?_, fun d x => ?_⟩
  · show (update s.waiters c (s.waiters c ++ [t]) d).Nodup
    by_cases hd : d = c
    · subst hd
      rw [update_self]
      refine nodup_append.mpr ⟨h.nodup d, pairwise_singleton .., fun x hx y hy => ?_⟩
      rintro rfl
      exact hnotin d (mem_singleton.mp hy ▸ hx)
    · rw [update_of_ne hd]
      exact h.nodup d
  · show x ∈ update s.waiters c (s.waiters c ++ [t]) d ↔
      ∃ k', update s.phase t (.waiting c k) x = .waiting d k'
    by_cases hx : x = t
    · subst hx
      rw [update_self]
      by_cases hd : d = c
      · subst hd
        rw [update_self]
        simp
      · rw [update_of_ne hd]
        exact iff_of_false (hnotin d) fun ⟨_, heq⟩ => hd (Phase.waiting.inj heq).1.symm
    · rw [update_of_ne hx, ← h.mem d x]
      by_cases hd : d = c
      · subst hd
        rw [update_self, mem_append, mem_singleton]
        exact ⟨fun hmem => hmem.resolve_right hx, .inl⟩
      · rw [update_of_ne hd]

theorem Tidy.ret (h : Tidy s) (hk : ∀ c k, s.phase t ≠ .waiting c k) :
    Tidy (s.settle t (.ret r : Finish γ κ ρ)) := by
  refine ⟨h.nodup, fun d x => ?_⟩
  show x ∈ s.waiters d ↔ ∃ k', update s.phase t .outside x = .waiting d k'
  by_cases hx : x = t
  · subst hx
    rw [update_self]
    exact iff_of_false (h.not_mem hk d) (by simp)
  · rw [update_of_ne hx]
    exact h.mem d x

/-- **Every step but a spurious wake-up keeps the queues tidy.** -/
theorem Tidy.step (h : Tidy s) (hop : op.isWake = false) (hstep : Step M s op s' es) : Tidy s' := by
  cases hstep with
  | start w hout => exact h.start hout
  | @run t k st hk hcode =>
    have hwakes := wakes_wakeAll st.wakes { s with shared := st.shared }
    have htidy : Tidy (st.wakes.foldl wakeUp { s with shared := st.shared }) :=
      Tidy.wakeAll st.wakes ⟨h.nodup, h.mem⟩
    have hnot : ∀ c k', (st.wakes.foldl wakeUp { s with shared := st.shared }).phase t
        ≠ .waiting c k' := by
      rw [hwakes.phase_of_runnable (s := { s with shared := st.shared }) hk]
      exact Phase.ne_waiting_of_runnable hk
    unfold apply
    cases st.finish with
    | wait c k' => exact htidy.wait hnot
    | ret r => exact htidy.ret hnot
  | wake => exact absurd hop (by simp [Op.isWake])

/-- A signal wakes one more, if anyone is left waiting behind it. -/
theorem Covers.signal_self (h : Covers s c n) (htidy : Tidy s) : Covers (s.signal c) c (n + 1) := by
  intro hne
  rw [s.signal_waiters_self] at hne
  cases hw : s.waiters c with
  | nil => exact absurd (by rw [hw, tail_nil]) hne
  | cons t ts =>
    obtain ⟨k, hk⟩ := (htidy.mem c t).mp (hw ▸ mem_cons_self)
    -- The first waiter joins those that were woken before.
    obtain ⟨us, hnodup, hwoken, hlen⟩ := h (by rw [hw]; exact cons_ne_nil _ _)
    rw [signal_cons hw hk]
    have hnot : ∀ u ∈ us, u ≠ t := by
      rintro u hu rfl
      obtain ⟨k', hk'⟩ := hwoken u hu
      cases hk.symm.trans hk'
    refine ⟨t :: us, nodup_cons.mpr ⟨fun ht => hnot t ht rfl, hnodup⟩, fun u hu => ?_, ?_⟩
    · rcases mem_cons.mp hu with rfl | hu
      · exact ⟨k, update_self ..⟩
      · obtain ⟨k', hk'⟩ := hwoken u hu
        exact ⟨k', (update_of_ne (hnot u hu) ..).trans hk'⟩
    · exact Nat.succ_le_succ hlen

theorem Covers.signal_of_ne (h : Covers s c n) (hne : c ≠ c') : Covers (s.signal c') c n :=
  h.wakes (s.wakes_signal c') fun hw => by rwa [s.signal_waiters_of_ne hne] at hw

/-- The end of a stretch of `t` that was not woken from `c`. -/
theorem Covers.settle_keep (h : Covers s c n) (hf : ∀ k, f ≠ .wait c k)
    (ht : ∀ k, s.phase t ≠ .woken c k) : Covers (s.settle t f) c n := by
  intro hne
  rw [s.settle_waiters_of_ne t hf] at hne
  obtain ⟨ts, hnodup, hwoken, hlen⟩ := h hne
  refine ⟨ts, hnodup, fun x hx => ?_, hlen⟩
  obtain ⟨k, hk⟩ := hwoken x hx
  have hxt : x ≠ t := by
    rintro rfl
    exact ht k hk
  exact ⟨k, (s.settle_phase_of_ne f hxt).trans hk⟩

/-- The end of a stretch of `t`, which may be one of those that were woken. -/
theorem Covers.settle_erase (h : Covers s c (n + 1))
    (hf : ∀ k, f ≠ .wait c k) : Covers (s.settle t f) c n := by
  intro hne
  rw [s.settle_waiters_of_ne t hf] at hne
  obtain ⟨ts, hnodup, hwoken, hlen⟩ := h hne
  -- `t` is taken off the list of those that were woken, if it is on it.
  refine ⟨ts.erase t, hnodup.erase t, fun x hx => ?_, ?_⟩
  · obtain ⟨hxt, hx⟩ := (List.Nodup.mem_erase_iff hnodup).mp hx
    rw [s.settle_phase_of_ne f hxt]
    exact hwoken x hx
  · have := le_length_erase (a := t) (l := ts)
    omega

end

end AlaphiOS.Lib.Monitor
