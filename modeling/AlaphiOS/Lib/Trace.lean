import AlaphiOS.Lib.Run

/-!
# Runs with events

`traced` turns a step function that reports events into one that collects them,
so that the rules of `Run` apply. `Until arm disarm bad` is the safety property
"after an `arm` event there is no `bad` event until there has been a `disarm`
event". It is checked event by event: `Armed` is what a trace has to remember,
and `until_snoc` and `armed_snoc` say what one more event does; `until_append`
and `armed_append` are about several events that do not arm.
-/

namespace AlaphiOS.Lib

open List

variable {σ ω ε : Type}

/-- Take a step and append its events. -/
def traced (step : σ → ω → Option (σ × List ε)) (s : σ × List ε) (o : ω) : Option (σ × List ε) :=
  (step s.1 o).map fun r => (r.1, s.2 ++ r.2)

/-- A step of `traced`. -/
theorem traced_inv {step : σ → ω → Option (σ × List ε)} {s s' : σ × List ε} {o : ω}
    (h : traced step s o = some s') :
    ∃ es, step s.1 o = some (s'.1, es) ∧ s'.2 = s.2 ++ es := by
  obtain ⟨⟨t, es⟩, ht, rfl⟩ := map_inv h
  exact ⟨es, ht, rfl⟩

variable {arm disarm bad : ε → Prop} {l : List ε} {e : ε}

/-- Every `bad` event after an `arm` event has a `disarm` event in between. -/
def Until (arm disarm bad : ε → Prop) (l : List ε) : Prop :=
  ∀ before a between b after, l = before ++ a :: (between ++ b :: after) → arm a → bad b →
    ∃ d ∈ between, disarm d

/-- There has been an `arm` event and no `disarm` event since. -/
def Armed (arm disarm : ε → Prop) (l : List ε) : Prop :=
  ∃ before a between, l = before ++ a :: between ∧ arm a ∧ ∀ d ∈ between, ¬ disarm d

theorem not_armed_nil : ¬ Armed arm disarm [] := by
  rintro ⟨before, a, between, h, _⟩
  exact absurd h (by simp)

theorem until_nil : Until arm disarm bad [] := by
  intro before a between b after h
  exact absurd h (by simp)

/-- One more event, and `Armed`. -/
theorem armed_snoc : Armed arm disarm (l ++ [e]) ↔ arm e ∨ (Armed arm disarm l ∧ ¬ disarm e) := by
  constructor
  · rintro ⟨before, a, between, heq, ha, hb⟩
    rcases eq_nil_or_concat between with rfl | ⟨init, last, rfl⟩
    · obtain ⟨_, hlast⟩ := append_inj' heq rfl
      exact .inl (head_eq_of_cons_eq hlast ▸ ha)
    · rw [concat_eq_append, ← cons_append, ← append_assoc] at heq
      obtain ⟨hl, hlast⟩ := append_inj' heq rfl
      obtain rfl : e = last := head_eq_of_cons_eq hlast
      rw [concat_eq_append] at hb
      exact .inr ⟨⟨before, a, init, hl, ha, fun d hd => hb d (mem_append_left _ hd)⟩,
        hb e (by simp)⟩
  · rintro (ha | ⟨⟨before, a, between, rfl, ha, hb⟩, he⟩)
    · exact ⟨l, e, [], rfl, ha, nofun⟩
    · refine ⟨before, a, between ++ [e], by simp, ha, fun d hd => ?_⟩
      rcases mem_append.mp hd with hd | hd
      · exact hb d hd
      · rw [mem_singleton.mp hd]
        exact he

/-- One more event, and `Until`. -/
theorem until_snoc (hl : Until arm disarm bad l) (he : bad e → ¬ Armed arm disarm l) :
    Until arm disarm bad (l ++ [e]) := by
  intro before a between b after heq ha hb
  rcases eq_nil_or_concat after with rfl | ⟨init, last, rfl⟩
  · -- the new event is the bad one
    rw [← cons_append, ← append_assoc] at heq
    obtain ⟨hpre, hlast⟩ := append_inj' heq rfl
    obtain rfl : e = b := head_eq_of_cons_eq hlast
    refine Classical.byContradiction fun hno => he hb ?_
    exact ⟨before, a, between, hpre, ha, fun d hd hdis => hno ⟨d, hd, hdis⟩⟩
  · have hsplit : before ++ a :: (between ++ b :: init.concat last)
        = (before ++ a :: (between ++ b :: init)) ++ [last] := by
      simp
    rw [hsplit] at heq
    obtain ⟨hpre, _⟩ := append_inj' heq rfl
    exact hl before a between b init hpre ha hb

/-- Events that do not arm leave nothing armed. -/
theorem armed_append {es : List ε} : ∀ {l : List ε}, (∀ e ∈ es, ¬ arm e) →
    Armed arm disarm (l ++ es) → Armed arm disarm l := by
  induction es with
  | nil =>
    intro l _ h
    rwa [append_nil] at h
  | cons e es ih =>
    intro l hes h
    rw [append_cons] at h
    rcases armed_snoc.mp (ih (fun x hx => hes x (mem_cons_of_mem _ hx)) h) with ha | ⟨hl, _⟩
    · exact absurd ha (hes e mem_cons_self)
    · exact hl

/-- Several events that do not arm. -/
theorem until_append {es : List ε} : ∀ {l : List ε}, Until arm disarm bad l →
    (∀ e ∈ es, ¬ arm e) → (∀ e ∈ es, bad e → ¬ Armed arm disarm l) →
      Until arm disarm bad (l ++ es) := by
  induction es with
  | nil =>
    intro l h _ _
    rwa [append_nil]
  | cons e es ih =>
    intro l hl hes hbad
    rw [append_cons]
    refine ih (until_snoc hl (hbad e mem_cons_self))
      (fun x hx => hes x (mem_cons_of_mem _ hx)) fun x hx hb h => ?_
    have he : ∀ y ∈ [e], ¬ arm y := by
      intro y hy
      rw [mem_singleton.mp hy]
      exact hes e mem_cons_self
    exact hbad x (mem_cons_of_mem _ hx) hb (armed_append he h)

end AlaphiOS.Lib
