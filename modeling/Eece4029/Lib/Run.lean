import Mathlib.Data.List.Basic

/-!
# Runs of a labelled transition system

A program that takes step after step is a relation `step : σ → ℓ → σ → Prop`: in state `s`, a step
that the label `l` names may lead to `s'`. `Run step s₀ tr s` is a run from `s₀` to `s` with the
list `tr` of the steps it takes, oldest first, so that a property of every state of a run and a
condition on every step of it are both statements about `tr`. `Run.inv_where` is the induction rule
for an invariant that a step keeps only under a condition, `Run.inv` its unconditional case,
`Run.forall_step_iff` and `Run.forall_iff` the case where the condition is exact, for properties of
steps and of states. `Run.simulates` is forward simulation by an abstraction function, stuttering
included, and `Run.labels_iff` is the case where the abstract system has no other steps.
-/

namespace Transition

universe u v w x
variable {σ : Type u} {ℓ : Type v} {τ : Type w} {κ : Type x}

/-- One step of a run: the state before it, its label and the state after it. -/
structure Step (σ : Type u) (ℓ : Type v) where
  pre : σ
  label : ℓ
  post : σ

/-- `Run step s₀ tr s`: from `s₀` the steps `tr`, oldest first, lead to `s`. -/
inductive Run (step : σ → ℓ → σ → Prop) (s₀ : σ) : List (Step σ ℓ) → σ → Prop
  | nil : Run step s₀ [] s₀
  | snoc {tr : List (Step σ ℓ)} {s s' : σ} {l : ℓ} : Run step s₀ tr s → step s l s' →
      Run step s₀ (tr ++ [⟨s, l, s'⟩]) s'

/-- `s` is the last state of some run from `s₀`. -/
def Reachable (step : σ → ℓ → σ → Prop) (s₀ s : σ) : Prop :=
  ∃ tr, Run step s₀ tr s

variable {step : σ → ℓ → σ → Prop} {s₀ s s' : σ} {tr : List (Step σ ℓ)}

/-! ## Runs and their steps -/

/-- A run that continues a run is one run. -/
theorem Run.append {tr' : List (Step σ ℓ)} (h : Run step s₀ tr s) (h' : Run step s tr' s') :
    Run step s₀ (tr ++ tr') s' := by
  induction h' with
  | nil => simpa using h
  | snoc _ hs ih =>
    rw [← List.append_assoc]
    exact ih.snoc hs

/-- Every step of a run starts in a reachable state, and it is a step of the system. -/
theorem Run.mem (h : Run step s₀ tr s) :
    ∀ x ∈ tr, Reachable step s₀ x.pre ∧ step x.pre x.label x.post := by
  induction h with
  | nil => exact fun x hx => nomatch hx
  | @snoc tr s s' l hr hs ih =>
    intro x hx
    rcases List.mem_append.1 hx with hx | hx
    · exact ih x hx
    · rw [List.mem_singleton.1 hx]
      exact ⟨⟨tr, hr⟩, hs⟩

/-- A run of a system is a run of one that has more steps. -/
theorem Run.mono {step' : σ → ℓ → σ → Prop} (hle : ∀ s l s', step s l s' → step' s l s')
    (h : Run step s₀ tr s) : Run step' s₀ tr s := by
  induction h with
  | nil => exact .nil
  | snoc _ hs ih => exact ih.snoc (hle _ _ _ hs)

/-- A run without a step ends where it starts. -/
theorem Run.eq_of_nil (h : Run step s₀ [] s) : s = s₀ := by
  generalize htr : [] = tr at h
  cases h with
  | nil => rfl
  | snoc => simp at htr

/-- A run through a step is a run up to it and a run from there. -/
theorem Run.split {pre post : List (Step σ ℓ)} {x : Step σ ℓ}
    (h : Run step s₀ (pre ++ x :: post) s) :
    Run step s₀ pre x.pre ∧ step x.pre x.label x.post ∧ Run step x.post post s := by
  generalize htr : pre ++ x :: post = tr at h
  induction h generalizing post with
  | nil => exact absurd htr (by simp)
  | @snoc tr s s' l hr hs ih =>
    rcases List.eq_nil_or_concat post with rfl | ⟨post, y, rfl⟩
    · obtain ⟨rfl, hx⟩ := List.append_inj' htr rfl
      cases hx
      exact ⟨hr, hs, .nil⟩
    · rw [List.concat_eq_append, ← List.cons_append, ← List.append_assoc] at htr
      obtain ⟨hpres, hy⟩ := List.append_inj' htr rfl
      cases hy
      obtain ⟨hpre, hx, hpost⟩ := ih hpres
      rw [List.concat_eq_append]
      exact ⟨hpre, hx, hpost.snoc hs⟩

/-- The first step of a run. -/
theorem Run.cons_inv {x : Step σ ℓ} (h : Run step s₀ (x :: tr) s) :
    x.pre = s₀ ∧ step s₀ x.label x.post ∧ Run step x.post tr s := by
  have happend : Run step s₀ ([] ++ x :: tr) s := h
  obtain ⟨hpre, hx, hpost⟩ := happend.split
  obtain hpre := hpre.eq_of_nil
  exact ⟨hpre, hpre ▸ hx, hpost⟩

/-! ## Invariants -/

/-- An invariant that every step meeting the condition `C` keeps holds in every state of a run
whose steps all meet `C`. -/
theorem Run.inv_where {I : σ → Prop} {C : σ → ℓ → Prop} (h0 : I s₀)
    (hstep : ∀ s l s', I s → C s l → step s l s' → I s') (hr : Run step s₀ tr s)
    (hC : ∀ x ∈ tr, C x.pre x.label) : I s ∧ ∀ x ∈ tr, I x.pre ∧ I x.post := by
  induction hr with
  | nil => exact ⟨h0, fun x hx => nomatch hx⟩
  | @snoc tr s s' l _ hs ih =>
    obtain ⟨hi, hall⟩ := ih fun x hx => hC x (List.mem_append_left _ hx)
    have hi' : I s' := hstep s l s' hi (hC ⟨s, l, s'⟩ (by simp)) hs
    refine ⟨hi', ?_⟩
    intro x hx
    rcases List.mem_append.1 hx with hx | hx
    · exact hall x hx
    · rw [List.mem_singleton.1 hx]
      exact ⟨hi, hi'⟩

/-- An invariant that every step keeps holds at the end of every run. -/
theorem Run.inv {I : σ → Prop} (h0 : I s₀)
    (hstep : ∀ s l s', I s → step s l s' → I s') (hr : Run step s₀ tr s) : I s :=
  (Run.inv_where (C := fun _ _ => True) h0 (fun s l s' hi _ => hstep s l s' hi) hr
    fun _ _ => trivial).1

/-- An invariant that every step keeps holds in every reachable state. -/
theorem Reachable.inv {I : σ → Prop} (h0 : I s₀)
    (hstep : ∀ s l s', I s → step s l s' → I s') (h : Reachable step s₀ s) : I s := by
  obtain ⟨tr, hr⟩ := h
  exact hr.inv h0 hstep

/-- When a step out of a good state has the property `P` only if it meets the condition `C`, and
then leads to a good one, all steps of a run have `P` exactly when all of them meet `C`. -/
theorem Run.forall_step_iff {I : σ → Prop} {P : σ → ℓ → σ → Prop} {C : σ → ℓ → Prop} (h0 : I s₀)
    (hkeep : ∀ s l s', I s → C s l → step s l s' → I s' ∧ P s l s')
    (hbreak : ∀ s l s', I s → step s l s' → P s l s' → C s l) (hr : Run step s₀ tr s) :
    (∀ x ∈ tr, P x.pre x.label x.post) ↔ ∀ x ∈ tr, C x.pre x.label := by
  suffices h : ((∀ x ∈ tr, P x.pre x.label x.post) ↔ ∀ x ∈ tr, C x.pre x.label) ∧
      ((∀ x ∈ tr, C x.pre x.label) → I s) from h.1
  induction hr with
  | nil => exact ⟨⟨fun _ => nofun, fun _ => nofun⟩, fun _ => h0⟩
  | @snoc tr s s' l _ hs ih =>
    simp only [List.forall_mem_append, List.forall_mem_singleton, ih.1]
    refine ⟨and_congr_right fun hC => ⟨hbreak s l s' (ih.2 hC) hs, ?_⟩, ?_⟩
    · exact fun hl => (hkeep s l s' (ih.2 hC) hl hs).2
    · exact fun h => (hkeep s l s' (ih.2 h.1) h.2 hs).1

/-- When a step out of a good state leads to a state with the property `P` only if it meets the
condition `C`, and then to a good one, all states of a run have `P` exactly when all its steps
meet `C`. -/
theorem Run.forall_iff {I P : σ → Prop} {C : σ → ℓ → Prop} (h0 : I s₀) (hP : ∀ s, I s → P s)
    (hkeep : ∀ s l s', I s → C s l → step s l s' → I s')
    (hbreak : ∀ s l s', I s → step s l s' → P s' → C s l) (hr : Run step s₀ tr s) :
    (P s ∧ ∀ x ∈ tr, P x.pre ∧ P x.post) ↔ ∀ x ∈ tr, C x.pre x.label := by
  have hsteps := hr.forall_step_iff (P := fun s _ s' => P s ∧ P s') h0
    (fun s l s' hi hl hs =>
      have hi' := hkeep s l s' hi hl hs
      ⟨hi', hP s hi, hP s' hi'⟩)
    fun s l s' hi hs hpp => hbreak s l s' hi hs hpp.2
  refine ⟨fun h => hsteps.1 h.2, fun hC => ⟨?_, hsteps.2 hC⟩⟩
  exact hP s (hr.inv_where h0 hkeep hC).1

/-! ## Simulation -/

/-- Forward simulation by an abstraction function: when every step from a reachable state either is
invisible to `abs` or is the abstract step that `op` names, the visible steps of a run are the
labels of an abstract run between the images of its ends. -/
theorem Run.simulates {astep : τ → κ → τ → Prop} (abs : σ → τ) (op : Step σ ℓ → Option κ)
    (hstep : ∀ s l s', Reachable step s₀ s → step s l s' →
      (op ⟨s, l, s'⟩ = none ∧ abs s' = abs s) ∨
        ∃ k, op ⟨s, l, s'⟩ = some k ∧ astep (abs s) k (abs s'))
    (hr : Run step s₀ tr s) :
    ∃ atr, Run astep (abs s₀) atr (abs s) ∧ atr.map (·.label) = tr.filterMap op := by
  induction hr with
  | nil => exact ⟨[], .nil, rfl⟩
  | @snoc tr s s' l hr hs ih =>
    obtain ⟨atr, ha, hl⟩ := ih
    rcases hstep s l s' ⟨tr, hr⟩ hs with ⟨hop, heq⟩ | ⟨k, hop, hk⟩
    · exact ⟨atr, heq ▸ ha, by simp [hl, hop]⟩
    · exact ⟨_, ha.snoc hk, by simp [hl, hop]⟩

/-- Bisimulation by an abstraction function: when the steps from a state are those from its image,
the runs are those from the image, with the same labels. -/
theorem Run.labels_iff {astep : τ → ℓ → τ → Prop} (abs : σ → τ)
    (hstep : ∀ s l s', step s l s' → astep (abs s) l (abs s'))
    (hback : ∀ s l t, astep (abs s) l t → ∃ s', step s l s' ∧ abs s' = t) {t : τ} {ls : List ℓ} :
    (∃ tr s, Run step s₀ tr s ∧ abs s = t ∧ tr.map (·.label) = ls) ↔
      ∃ atr, Run astep (abs s₀) atr t ∧ atr.map (·.label) = ls := by
  constructor
  · rintro ⟨tr, s, hr, rfl, rfl⟩
    induction hr with
    | nil => exact ⟨[], .nil, rfl⟩
    | snoc _ hs ih =>
      obtain ⟨atr, ha, hl⟩ := ih
      exact ⟨_, ha.snoc (hstep _ _ _ hs), by simp [hl]⟩
  · rintro ⟨atr, ha, rfl⟩
    induction ha with
    | nil => exact ⟨[], s₀, .nil, rfl, rfl⟩
    | snoc _ hs ih =>
      obtain ⟨tr, s, hr, rfl, hl⟩ := ih
      obtain ⟨s', hs', rfl⟩ := hback _ _ _ hs
      exact ⟨_, s', hr.snoc hs', rfl, by simp [hl]⟩

/-! ## Guarded functions

A system is often given by a guard `ok s l` and the state `f s l` after the step that `l` names. -/

section
variable {ok : σ → ℓ → Prop} {f : σ → ℓ → σ}

/-- The guards hold along the labels `ls`, one after the other. -/
def EnabledAll (ok : σ → ℓ → Prop) (f : σ → ℓ → σ) : σ → List ℓ → Prop
  | _, [] => True
  | s, l :: ls => ok s l ∧ EnabledAll ok f (f s l) ls

instance EnabledAll.decidable [∀ s, DecidablePred (ok s)] :
    ∀ (s : σ) (ls : List ℓ), Decidable (EnabledAll ok f s ls)
  | _, [] => .isTrue trivial
  | s, l :: ls =>
    have := EnabledAll.decidable (f s l) ls
    inferInstanceAs (Decidable (_ ∧ _))

/-- Labels that are enabled one after the other make a run. -/
theorem EnabledAll.run : ∀ {ls : List ℓ} {s : σ}, EnabledAll ok f s ls →
    ∃ tr, Run (fun s l s' => ok s l ∧ s' = f s l) s tr (ls.foldl f s) ∧ tr.map (·.label) = ls
  | [], _, _ => ⟨[], .nil, rfl⟩
  | l :: ls, s, ⟨hl, h⟩ => by
    obtain ⟨tr, hr, hlabels⟩ := h.run
    exact ⟨_, (Run.nil.snoc ⟨hl, rfl⟩).append hr, by simp [hlabels]⟩

end

end Transition
