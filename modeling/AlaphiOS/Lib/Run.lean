/-!
# Runs of a partial step function

A system is a state type `σ`, operations `ω` and a partial step function;
`none` means the operation cannot be taken (or the program stopped there).
`exec` runs a list of operations. `Along P` says that every operation of the
run was taken in a state where `P` held, which is how an assumption about
single steps becomes an assumption about a whole run.

`exec_induction` is the invariant rule, `exec_isSome_iff` says when a run returns;
`foldlM_rule` is the same rule for a loop over a list, `foldlM_prefix_rule` with
an invariant about the part that is done, and `foldlM_returns` shows that the loop
returns, too. `runReplies` also collects what the operations return;
`runReplies_simulates` is the rule for two systems side by side,
`runReplies_refines` the one for a system and a specification of its replies.
-/

namespace AlaphiOS.Lib

open List Option

variable {α β : Type _} {x : Option α} {b : β}

/-- A `do` block that returns has returned from its first step. -/
theorem bind_inv {f : α → Option β} (h : (x >>= f) = some b) : ∃ a, x = some a ∧ f a = some b :=
  bind_eq_some_iff.mp h

theorem map_inv {f : α → β} (h : x.map f = some b) : ∃ a, x = some a ∧ f a = b :=
  map_eq_some_iff.mp h

/-- It goes on with what that step returns. -/
theorem bind_of_eq {a : α} (h : x = some a) (f : α → Option β) : (x >>= f) = f a := by
  rw [h]
  rfl

variable {σ ω : Type}

/-- Run the operations in order. -/
def exec (step : σ → ω → Option σ) : σ → List ω → Option σ
  | s, [] => some s
  | s, o :: os => (step s o).bind fun t => exec step t os

/-- `P` holds of every state and operation met along the run. -/
def Along (step : σ → ω → Option σ) (P : σ → ω → Prop) : σ → List ω → Prop
  | _, [] => True
  | s, o :: os => P s o ∧ ∀ t, step s o = some t → Along step P t os

variable {step : σ → ω → Option σ}

/-- On concrete runs, what holds along them can be evaluated. -/
instance decidableForallSome {α : Type} {P : α → Prop} [DecidablePred P] :
    (o : Option α) → Decidable (∀ a, o = some a → P a)
  | none => isTrue fun _ h => nomatch h
  | some a => decidable_of_iff (P a) ⟨fun h _ ha => some.inj ha ▸ h, fun h => h a rfl⟩

instance Along.decidable {P : σ → ω → Prop} [∀ s o, Decidable (P s o)] :
    (s : σ) → (os : List ω) → Decidable (Along step P s os)
  | _, [] => isTrue trivial
  | s, o :: os =>
    have : DecidablePred fun t => Along step P t os := fun t => Along.decidable t os
    inferInstanceAs (Decidable (P s o ∧ ∀ t, step s o = some t → Along step P t os))

variable {os : List ω} {s u : σ}

theorem exec_cons {o : ω} (h : exec step s (o :: os) = some u) :
    ∃ t, step s o = some t ∧ exec step t os = some u :=
  bind_inv h

variable {P : σ → ω → Prop} {I : σ → Prop}

/-- The invariant rule: what every permitted step keeps, every permitted run
keeps. -/
theorem exec_induction (hstep : ∀ s o t, I s → P s o → step s o = some t → I t) (hI : I s)
    (hP : Along step P s os) (h : exec step s os = some u) : I u := by
  induction os generalizing s u with
  | nil =>
    obtain rfl : s = u := some.inj h
    exact hI
  | cons o os ih =>
    obtain ⟨t, ht, hu⟩ := exec_cons h
    exact ih (hstep s o t hI hP.1 ht) (hP.2 t ht) hu

/-- A run returns exactly if each of its steps does. -/
theorem exec_isSome_iff (hP : ∀ s o, I s → ((step s o).isSome ↔ P s o))
    (hstep : ∀ s o t, I s → step s o = some t → I t) :
    ∀ {os : List ω} {s : σ}, I s → ((exec step s os).isSome ↔ Along step P s os) := by
  intro os
  induction os with
  | nil => exact fun _ => ⟨fun _ => trivial, fun _ => rfl⟩
  | cons o os ih =>
    intro s hI
    have ho := hP s o hI
    unfold exec Along
    cases hs : step s o with
    | none =>
      rw [hs] at ho
      exact ⟨nofun, fun h => absurd (ho.mpr h.1) (by simp)⟩
    | some t =>
      rw [hs] at ho
      have hrest := ih (hstep s o t hI hs)
      rw [bind_some, hrest]
      exact ⟨fun h => ⟨ho.mp rfl, fun _ ht => some.inj ht ▸ h⟩, fun h => h.2 t rfl⟩

/-- Every step of a run that returns does. -/
theorem along_isSome (h : (exec step s os).isSome) :
    Along step (fun s o => (step s o).isSome) s os :=
  (exec_isSome_iff (I := fun _ => True) (fun _ _ _ => Iff.rfl) (fun _ _ _ _ _ => trivial)
    trivial).mp h

/-- What holds of every operation holds along the run. -/
theorem Along.and_forall {Q : ω → Prop} :
    ∀ {s : σ}, Along step P s os → (∀ o ∈ os, Q o) → Along step (fun s o => Q o ∧ P s o) s os := by
  induction os with
  | nil => exact fun _ _ => trivial
  | cons o os ih =>
    intro s h hQ
    refine ⟨⟨hQ o mem_cons_self, h.1⟩, fun t ht => ?_⟩
    exact ih (h.2 t ht) fun o ho => hQ o (mem_cons_of_mem _ ho)

variable {Q : σ → ω → Prop}

theorem Along.and :
    ∀ {s : σ}, Along step P s os → Along step Q s os → Along step (fun s o => P s o ∧ Q s o) s os := by
  induction os with
  | nil => exact fun _ _ => trivial
  | cons o os ih => exact fun hP hQ => ⟨⟨hP.1, hQ.1⟩, fun t ht => ih (hP.2 t ht) (hQ.2 t ht)⟩

/-- With nothing assumed of the steps. -/
theorem along_true : ∀ {s : σ}, Along step (fun _ _ => True) s os := by
  induction os with
  | nil => intro s; trivial
  | cons o os ih => intro s; exact ⟨trivial, fun _ _ => ih⟩

/-- Two conditions that agree wherever an invariant holds, which the steps under the one of
them keep, agree along the runs that meet `H`. -/
theorem Along.congr {H : σ → ω → Prop} (hPQ : ∀ s o, I s → H s o → (P s o ↔ Q s o))
    (hstep : ∀ s o t, I s → H s o → Q s o → step s o = some t → I t) :
    ∀ {s : σ}, Along step H s os → I s → (Along step P s os ↔ Along step Q s os) := by
  induction os with
  | nil => exact fun _ _ => Iff.rfl
  | cons o os ih =>
    intro s hH hI
    constructor
    · rintro ⟨hP, h⟩
      have hQ := (hPQ s o hI hH.1).mp hP
      exact ⟨hQ, fun t ht => (ih (hH.2 t ht) (hstep s o t hI hH.1 hQ ht)).mp (h t ht)⟩
    · rintro ⟨hQ, h⟩
      have hP := (hPQ s o hI hH.1).mpr hQ
      exact ⟨hP, fun t ht => (ih (hH.2 t ht) (hstep s o t hI hH.1 hQ ht)).mpr (h t ht)⟩

/-- The same along any run. -/
theorem along_congr (hPQ : ∀ s o, I s → (P s o ↔ Q s o))
    (hstep : ∀ s o t, I s → Q s o → step s o = some t → I t) (hI : I s) :
    Along step P s os ↔ Along step Q s os :=
  Along.congr (fun s o hI _ => hPQ s o hI) (fun s o t hI _ => hstep s o t hI) along_true hI

/-- The invariant rule for a `for` loop whose body may stop. -/
theorem foldlM_rule {α : Type} {body : σ → α → Option σ} :
    ∀ {l : List α}, (∀ s a t, a ∈ l → I s → body s a = some t → I t) →
      ∀ {s u : σ}, I s → l.foldlM body s = some u → I u := by
  intro l
  induction l with
  | nil =>
    intro _ s u hI h
    cases h
    exact hI
  | cons a l ih =>
    intro hbody s u hI h
    rw [foldlM_cons] at h
    obtain ⟨t, ht, hu⟩ := bind_inv h
    exact ih (fun s b t hb => hbody s b t (mem_cons_of_mem _ hb))
      (hbody s a t mem_cons_self hI ht) hu

/-- The same, with an invariant that speaks of the elements done so far. -/
theorem foldlM_prefix_rule {α : Type} {body : σ → α → Option σ} {I : List α → σ → Prop}
    (hbody : ∀ before s a t, I before s → body s a = some t → I (before ++ [a]) t)
    {l : List α} (hI : I [] s) (h : l.foldlM body s = some u) : I l u := by
  have hgen : ∀ (l before : List α) {s u : σ}, I before s → l.foldlM body s = some u →
      I (before ++ l) u := by
    intro l
    induction l with
    | nil =>
      intro before s u hI h
      cases h
      rw [append_nil]
      exact hI
    | cons a l ih =>
      intro before s u hI h
      rw [foldlM_cons] at h
      obtain ⟨t, ht, hu⟩ := bind_inv h
      rw [append_cons]
      exact ih _ (hbody before s a t hI ht) hu
  exact hgen l [] hI h

/-- The same for total correctness: a loop whose body returns, wherever the loop is, returns. -/
theorem foldlM_returns {α : Type} {body : σ → α → Option σ} {I : List α → σ → Prop} {l : List α}
    (hbody : ∀ before a after s, l = before ++ a :: after → I before s →
      ∃ t, body s a = some t ∧ I (before ++ [a]) t) (hI : I [] s) :
    ∃ u, l.foldlM body s = some u ∧ I l u := by
  have hgen : ∀ (after before : List α) (s : σ), l = before ++ after → I before s →
      ∃ u, after.foldlM body s = some u ∧ I l u := by
    intro after
    induction after with
    | nil =>
      intro before s hl hI
      rw [append_nil] at hl
      exact ⟨s, rfl, hl ▸ hI⟩
    | cons a after ih =>
      intro before s hl hI
      obtain ⟨t, ht, hI⟩ := hbody before a after s hl hI
      obtain ⟨u, hu, hI⟩ := ih (before ++ [a]) t (by rw [hl, append_cons]) hI
      refine ⟨u, ?_, hI⟩
      rw [foldlM_cons, ht]
      exact hu
  exact hgen l [] s rfl hI

/-! ## Replies -/

section

variable {ρ : Type}

/-- Run the operations in order and collect the replies. -/
def runReplies (call : σ → ω → Option (ρ × σ)) : σ → List ω → Option (List ρ × σ)
  | s, [] => some ([], s)
  | s, o :: os =>
    (call s o).bind fun (r, t) => (runReplies call t os).map fun (rs, u) => (r :: rs, u)

variable {call : σ → ω → Option (ρ × σ)} {rs : List ρ}

/-- A run after a run. -/
theorem runReplies_append {os' : List ω} {rs' : List ρ} {t : σ}
    (h : runReplies call s os = some (rs, t)) (h' : runReplies call t os' = some (rs', u)) :
    runReplies call s (os ++ os') = some (rs ++ rs', u) := by
  induction os generalizing s t rs with
  | nil =>
    cases some.inj h
    exact h'
  | cons o os ih =>
    obtain ⟨⟨r, s₁⟩, hs, h⟩ := bind_inv h
    obtain ⟨⟨rs, _⟩, hu, heq⟩ := map_inv h
    cases heq
    rw [cons_append, runReplies, hs, bind_some]
    dsimp only
    rw [ih hu h']
    rfl

/-- Two systems whose calls reply alike from related states, related again
afterwards: so do their runs. -/
theorem runReplies_simulates {σ' ρ' : Type} {call' : σ' → ω → Option (ρ' × σ')}
    {R : σ → σ' → Prop} {f : ρ → ρ'}
    (hcall : ∀ s s' o r t, R s s' → call s o = some (r, t) →
      ∃ t', call' s' o = some (f r, t') ∧ R t t')
    {s' : σ'} (hR : R s s') (h : runReplies call s os = some (rs, u)) :
    ∃ u', runReplies call' s' os = some (rs.map f, u') ∧ R u u' := by
  induction os generalizing s s' rs u with
  | nil =>
    cases some.inj h
    exact ⟨s', rfl, hR⟩
  | cons o os ih =>
    obtain ⟨⟨r, t⟩, hs, h⟩ := bind_inv h
    obtain ⟨⟨rs, u⟩, hu, h⟩ := map_inv h
    cases h
    obtain ⟨t', hs', hR⟩ := hcall s s' o r t hR hs
    obtain ⟨u', hu', hR⟩ := ih hR hu
    refine ⟨u', ?_, hR⟩
    rw [runReplies, hs', bind_some]
    dsimp only
    rw [hu']
    rfl

/-- A run of a specification, which relates a state, a call, its reply and the state after it. -/
inductive SpecRun {τ : Type} (spec : τ → ω → ρ → τ → Prop) : τ → List ω → List ρ → τ → Prop
  | nil {t : τ} : SpecRun spec t [] [] t
  | cons {t u v : τ} {o : ω} {r : ρ} {os : List ω} {rs : List ρ} : spec t o r u →
      SpecRun spec u os rs v → SpecRun spec t (o :: os) (r :: rs) v

/-- A system whose permitted calls return, and reply as the specification allows: so do its
permitted runs. -/
theorem runReplies_refines {τ : Type} {spec : τ → ω → ρ → τ → Prop} {R : σ → τ → Prop}
    (hcall : ∀ s t o, R s t → P s o →
      ∃ r s' t', call s o = some (r, s') ∧ spec t o r t' ∧ R s' t') :
    ∀ {os : List ω} {s : σ} {t : τ}, R s t →
      Along (fun s o => (call s o).map Prod.snd) P s os →
      ∃ rs s' t', runReplies call s os = some (rs, s') ∧ SpecRun spec t os rs t' ∧ R s' t' := by
  intro os
  induction os with
  | nil => exact fun {s t} hR _ => ⟨[], s, t, rfl, .nil, hR⟩
  | cons o os ih =>
    intro s t hR hP
    obtain ⟨r, s₁, t₁, hs, hspec, hR₁⟩ := hcall s t o hR hP.1
    have hnext : (call s o).map Prod.snd = some s₁ := by rw [hs, map_some]
    obtain ⟨rs, s', t', hrun, hspecs, hR'⟩ := ih hR₁ (hP.2 s₁ hnext)
    refine ⟨r :: rs, s', t', ?_, .cons hspec hspecs, hR'⟩
    rw [runReplies, hs, bind_some]
    dsimp only
    rw [hrun]
    rfl

end

end AlaphiOS.Lib
