import Eece4029.Lib.Run
import Mathlib.Data.List.Infix
import Mathlib.Logic.Function.Basic

/-!
# Networks of deterministic processes

A process puts values into its own channel and gets values through connections, each of which
delivers what some process has put, in order and from the beginning. What it does next depends on
its state only, so what it does at all depends on the values that it gets. `Process.play` is a
process alone, on given sequences of values; a network is a process for every index and the process
`source c` behind every connection `c`, where any process may move next.

`NetRun.comparable` is that the order does not matter: of two runs of a network, what a process has
done in one of them continues what it has done in the other one. `Plays.eq_play` is that every
process does in a network what it does alone, on what the others put.
-/

namespace Dataflow

open Transition

/-- What a process does next: put a value, or get one through a connection and go on with it, or
nothing any more. -/
inductive Action (κ α σ : Type)
  | put (value : α) (next : σ)
  | get (c : κ) (next : α → σ)
  | stop

/-- A deterministic process with connections `κ` and values `α`. -/
structure Process (κ α : Type) where
  State : Type
  start : State
  action : State → Action κ α State

/-- A call that has returned. -/
inductive Transfer (κ α : Type)
  | put (value : α)
  | got (c : κ) (value : α)
deriving DecidableEq

variable {ι κ α : Type}

/-- The values put, oldest first. -/
def puts (es : List (Transfer κ α)) : List α :=
  es.filterMap fun
    | .put v => some v
    | .got _ _ => none

/-- The values got through the connection, oldest first. -/
def gots [DecidableEq κ] (c : κ) (es : List (Transfer κ α)) : List α :=
  es.filterMap fun
    | .put _ => none
    | .got d v => if d = c then some v else none

/-- An element of a prefix is in the same place of the list. -/
theorem getElem?_mono {l l' : List α} {k : Nat} {v : α} (h : l <+: l')
    (hv : l[k]? = some v) : l'[k]? = some v := by
  obtain ⟨hk, rfl⟩ := List.getElem?_eq_some_iff.1 hv
  exact List.prefix_iff_getElem?.1 h k hk

section
variable {es es' : List (Transfer κ α)} {v : α}

@[simp] theorem puts_append : puts (es ++ es') = puts es ++ puts es' := List.filterMap_append

@[simp] theorem puts_put : puts ([.put v] : List (Transfer κ α)) = [v] := rfl

@[simp] theorem puts_got {c : κ} : puts [.got c v] = [] := rfl

theorem puts_mono (h : es <+: es') : puts es <+: puts es' := h.filterMap _

variable [DecidableEq κ] {c d : κ}

@[simp] theorem gots_append : gots c (es ++ es') = gots c es ++ gots c es' :=
  List.filterMap_append

@[simp] theorem gots_put : gots c [.put v] = [] := rfl

@[simp] theorem gots_got : gots c [.got d v] = if d = c then [v] else [] := by
  by_cases h : d = c <;> simp [gots, h]

theorem gots_mono (h : es <+: es') : gots c es <+: gots c es' := h.filterMap _

end

/-! ## Processes -/

namespace Process

variable {p : Process κ α} {s s₁ s₂ : p.State} {e e' : Transfer κ α} {es es' : List (Transfer κ α)}

/-- The process takes a step that is the call `e`. -/
inductive Step (p : Process κ α) : p.State → Transfer κ α → p.State → Prop
  | put {s s' : p.State} {v : α} (h : p.action s = .put v s') : Step p s (.put v) s'
  | got {s : p.State} {c : κ} {v : α} {f : α → p.State} (h : p.action s = .get c f) :
      Step p s (.got c v) (f v)

/-- The process has made the calls and is in the state. -/
inductive Plays (p : Process κ α) : List (Transfer κ α) → p.State → Prop
  | start : Plays p [] p.start
  | snoc {es : List (Transfer κ α)} {e : Transfer κ α} {s s' : p.State} (h : Plays p es s)
      (hs : Step p s e s') : Plays p (es ++ [e]) s'

/-- A call leads to one state only. -/
theorem Step.unique (h : Step p s e s₁) (h' : Step p s e s₂) : s₁ = s₂ := by
  cases h with
  | put h =>
    obtain ⟨h'⟩ := h'
    cases h.symm.trans h'
    rfl
  | got h =>
    cases h' with
    | got h' =>
      cases h.symm.trans h'
      rfl

/-- Two calls that are possible in one state are the same, or two gets through one connection. -/
theorem Step.same (h : Step p s e s₁) (h' : Step p s e' s₂) :
    e = e' ∨ ∃ c v v', e = .got c v ∧ e' = .got c v' := by
  cases h with
  | put h =>
    cases h' with
    | put h' => cases h.symm.trans h'; exact .inl rfl
    | got h' => cases h.symm.trans h'
  | got h =>
    cases h' with
    | put h' => cases h.symm.trans h'
    | got h' => cases h.symm.trans h'; exact .inr ⟨_, _, _, rfl, rfl⟩

/-- The last call of a process that has made one. -/
theorem Plays.last (h : Plays p (es ++ [e]) s) : ∃ s', Plays p es s' ∧ Step p s' e s := by
  generalize hes : es ++ [e] = es' at h
  cases h with
  | start => simp at hes
  | snoc h hs =>
    obtain ⟨rfl, he⟩ := List.append_inj' hes rfl
    cases he
    exact ⟨_, h, hs⟩

/-- The calls determine the state. -/
theorem Plays.unique (h : Plays p es s₁) (h' : Plays p es s₂) : s₁ = s₂ := by
  induction h generalizing s₂ with
  | start =>
    generalize hes : ([] : List (Transfer κ α)) = es at h'
    cases h' with
    | start => rfl
    | snoc => simp at hes
  | snoc _ hs ih =>
    obtain ⟨s, hp, hs'⟩ := h'.last
    cases ih hp
    exact hs.unique hs'

/-- A process that has made calls made the first ones of them. -/
theorem Plays.of_append (h : Plays p (es ++ es') s) : ∃ s', Plays p es s' := by
  induction es' using List.reverseRecOn generalizing s with
  | nil => exact ⟨s, List.append_nil es ▸ h⟩
  | append_singleton es' e ih =>
    rw [← List.append_assoc] at h
    obtain ⟨_, hp, -⟩ := h.last
    exact ih hp

/-- The call after the first ones, from any state that they may have led to. -/
theorem Plays.next (h : Plays p es s) (h' : Plays p (es ++ e :: es') s₁) :
    ∃ s', Step p s e s' := by
  rw [List.append_cons] at h'
  obtain ⟨s', hp⟩ := h'.of_append
  obtain ⟨_, hp', hs⟩ := hp.last
  cases h.unique hp'
  exact ⟨s', hs⟩

/-! ## What a process wants -/

/-- The process wants to put the value. -/
def WantsPut (p : Process κ α) (s : p.State) (v : α) : Prop :=
  match p.action s with
  | .put w _ => w = v
  | _ => False

/-- The process wants to get through the connection. -/
def WantsGet (p : Process κ α) (s : p.State) (c : κ) : Prop :=
  match p.action s with
  | .get d _ => d = c
  | _ => False

instance [DecidableEq α] (p : Process κ α) (s : p.State) (v : α) : Decidable (p.WantsPut s v) :=
  match h : p.action s with
  | .put w _ => decidable_of_iff (w = v) (by simp only [WantsPut, h])
  | .get _ _ | .stop => .isFalse (by simp only [WantsPut, h, not_false_eq_true])

instance [DecidableEq κ] (p : Process κ α) (s : p.State) (c : κ) : Decidable (p.WantsGet s c) :=
  match h : p.action s with
  | .get d _ => decidable_of_iff (d = c) (by simp only [WantsGet, h])
  | .put _ _ | .stop => .isFalse (by simp only [WantsGet, h, not_false_eq_true])

/-- The state after a call that the process wanted to make. -/
def after (p : Process κ α) (s : p.State) : Transfer κ α → p.State
  | .put _ =>
    match p.action s with
    | .put _ s' => s'
    | _ => s
  | .got _ v =>
    match p.action s with
    | .get _ f => f v
    | _ => s

theorem WantsPut.step {v : α} (h : p.WantsPut s v) : Step p s (.put v) (p.after s (.put v)) := by
  unfold WantsPut at h
  unfold after
  split at h
  · next w s' hact =>
    subst h
    simp only
    exact .put hact
  · exact h.elim

theorem WantsGet.step {c : κ} {v : α} (h : p.WantsGet s c) :
    Step p s (.got c v) (p.after s (.got c v)) := by
  unfold WantsGet at h
  unfold after
  split at h
  · next d f hact =>
    subst h
    simp only
    exact .got hact
  · exact h.elim

/-! ## A process alone -/

variable [DecidableEq κ]

/-- The state and the calls of the process after `n` calls, where the connection `c` delivers the
sequence `deliver c`. -/
def play (p : Process κ α) (deliver : κ → Nat → α) : Nat → p.State × List (Transfer κ α)
  | 0 => (p.start, [])
  | n + 1 =>
    let (s, es) := p.play deliver n
    match p.action s with
    | .put v s' => (s', es ++ [.put v])
    | .get c f =>
      let v := deliver c (gots c es).length
      (f v, es ++ [.got c v])
    | .stop => (s, es)

section
variable {deliver : κ → Nat → α} {n : Nat} {s' : p.State} {v : α} {c : κ} {f : α → p.State}

/-- The next call of a process alone, a put. -/
theorem play_put (h : p.play deliver n = (s, es)) (ha : p.action s = .put v s') :
    p.play deliver (n + 1) = (s', es ++ [.put v]) := by
  simp only [play, h, ha]

/-- The next call of a process alone, a get. -/
theorem play_got (h : p.play deliver n = (s, es)) (ha : p.action s = .get c f) :
    p.play deliver (n + 1) = (f (deliver c (gots c es).length),
      es ++ [.got c (deliver c (gots c es).length)]) := by
  simp only [play, h, ha]

/-- What a process alone has done it does not undo. -/
theorem play_mono {m : Nat} (hnm : n ≤ m) : (p.play deliver n).2 <+: (p.play deliver m).2 := by
  induction hnm with
  | refl => exact List.prefix_rfl
  | @step m _ ih =>
    refine ih.trans ?_
    rcases h : p.play deliver m with ⟨s, es⟩
    cases ha : p.action s with
    | put v s' =>
      rw [play_put h ha]
      exact List.prefix_append _ _
    | get c f =>
      rw [play_got h ha]
      exact List.prefix_append _ _
    | stop =>
      simp only [play, h, ha]
      exact List.prefix_rfl

end

/-- A process that has got what its connections deliver has done what it does alone. -/
theorem Plays.eq_play {deliver : κ → Nat → α} (h : Plays p es s)
    (hd : ∀ c k v, (gots c es)[k]? = some v → v = deliver c k) :
    p.play deliver es.length = (s, es) := by
  induction h with
  | start => rfl
  | @snoc es e s s' _ hs ih =>
    have hd' : ∀ c k v, (gots c es)[k]? = some v → v = deliver c k := by
      intro c k v hv
      refine hd c k v ?_
      rw [gots_append]
      exact getElem?_mono (List.prefix_append _ _) hv
    rw [List.length_append, List.length_singleton]
    cases hs with
    | put hact => exact play_put (ih hd') hact
    | @got c v f hact =>
      have hv : v = deliver c (gots c es).length := by
        refine hd c _ v ?_
        simp
      rw [play_got (ih hd') hact, ← hv]

end Process

/-! ## Networks -/

variable [DecidableEq ι] [DecidableEq κ]

/-- A step of a network: some process makes a call, and what it gets is the next value that the
process behind the connection has put. A state of the network is the calls of every process. -/
inductive NetStep (P : ι → Process κ α) (source : κ → ι) :
    (ι → List (Transfer κ α)) → ι × Transfer κ α → (ι → List (Transfer κ α)) → Prop
  | mk {H : ι → List (Transfer κ α)} {i : ι} {e : Transfer κ α} {s s' : (P i).State}
      (hp : (P i).Plays (H i) s) (hs : (P i).Step s e s')
      (hfed : ∀ c v, e = .got c v → (puts (H (source c)))[(gots c (H i)).length]? = some v) :
      NetStep P source H (i, e) (Function.update H i (H i ++ [e]))

/-- A run of a network. -/
abbrev NetRun (P : ι → Process κ α) (source : κ → ι)
    (tr : List (Step (ι → List (Transfer κ α)) (ι × Transfer κ α)))
    (H : ι → List (Transfer κ α)) : Prop :=
  Run (NetStep P source) (fun _ => []) tr H

/-- Every process has done what it may do, and has got the first values of its sources. -/
structure Fed (P : ι → Process κ α) (source : κ → ι) (H : ι → List (Transfer κ α)) : Prop where
  plays : ∀ i, ∃ s, (P i).Plays (H i) s
  fed : ∀ i c, gots c (H i) <+: puts (H (source c))

variable {P : ι → Process κ α} {source : κ → ι} {H H' : ι → List (Transfer κ α)}
  {tr : List (Step (ι → List (Transfer κ α)) (ι × Transfer κ α))}

omit [DecidableEq κ] in
/-- A call of a process continues what it has done. -/
theorem prefix_update (i : ι) (e : Transfer κ α) (j : ι) :
    H j <+: Function.update H i (H i ++ [e]) j := by
  by_cases hj : j = i
  · subst hj
    rw [Function.update_self]
    exact List.prefix_append _ _
  · rw [Function.update_of_ne hj]

omit [DecidableEq κ] in
/-- What was put is what was put before, and by the call. -/
theorem puts_update (i : ι) (e : Transfer κ α) (j : ι) :
    puts (Function.update H i (H i ++ [e]) j) =
      puts (H j) ++ if j = i then puts [e] else [] := by
  by_cases hj : j = i
  · subst hj
    rw [Function.update_self, if_pos rfl, puts_append]
  · rw [Function.update_of_ne hj, if_neg hj, List.append_nil]

/-- What was got is what was got before, and by the call. -/
theorem gots_update (i : ι) (e : Transfer κ α) (c : κ) (j : ι) :
    gots c (Function.update H i (H i ++ [e]) j) =
      gots c (H j) ++ if j = i then gots c [e] else [] := by
  by_cases hj : j = i
  · subst hj
    rw [Function.update_self, if_pos rfl, gots_append]
  · rw [Function.update_of_ne hj, if_neg hj, List.append_nil]

/-- The processes of a network are fed by each other. -/
theorem NetRun.isFed (h : NetRun P source tr H) : Fed P source H := by
  refine h.inv (I := Fed P source) ⟨fun i => ⟨_, .start⟩, fun _ _ => List.nil_prefix⟩ ?_
  rintro H ⟨i, e⟩ _ hF ⟨hp, hs, hfed⟩
  constructor
  · intro j
    by_cases hj : j = i
    · subst hj
      rw [Function.update_self]
      exact ⟨_, hp.snoc hs⟩
    · rw [Function.update_of_ne hj]
      exact hF.plays j
  · intro j c
    refine List.IsPrefix.trans ?_ (puts_mono (prefix_update i e (source c)))
    by_cases hj : j = i
    · subst hj
      rw [Function.update_self, gots_append]
      cases e with
      | put v => simpa using hF.fed j c
      | got d v =>
        by_cases hd : d = c
        · subst hd
          obtain ⟨t, ht⟩ := hF.fed j d
          have hv := hfed d v rfl
          rw [← ht, List.getElem?_append_right (Nat.le_refl _), Nat.sub_self] at hv
          cases t with
          | nil => cases hv
          | cons w t =>
            cases hv
            exact ⟨t, by simpa using ht⟩
        · simpa [hd] using hF.fed j c
    · rw [Function.update_of_ne hj]
      exact hF.fed j c

/-- **The order of the steps does not matter.** What a process has done in a run of a network, and
what it has done in any state where all processes are fed by each other, continue one another. -/
theorem NetRun.comparable (h : NetRun P source tr H) (h' : Fed P source H') :
    ∀ i, H i <+: H' i ∨ H' i <+: H i := by
  -- the induction is on the first run; the second state stays what it is
  refine h.inv (I := fun H => ∀ i, H i <+: H' i ∨ H' i <+: H i) (fun i => .inl List.nil_prefix) ?_
  rintro H ⟨i, e⟩ _ hcmp ⟨hp, hs, hfed⟩ j
  by_cases hj : j = i
  · subst hj
    rw [Function.update_self]
    rcases hcmp j with ⟨t, ht⟩ | hle
    · cases t with
      | nil =>
        rw [List.append_nil] at ht
        exact .inr (ht ▸ List.prefix_append _ _)
      | cons e' t =>
        obtain ⟨s', hp'⟩ := h'.plays j
        rw [← ht] at hp'
        obtain ⟨_, hs'⟩ := hp.next hp'
        have he : e = e' := by
          rcases hs.same hs' with he | ⟨c, v, v', rfl, rfl⟩
          · exact he
          · -- both are the value after those got before
            have hv := hfed c v rfl
            have hv' : (puts (H' (source c)))[(gots c (H j)).length]? = some v' := by
              refine getElem?_mono (h'.fed j c) ?_
              rw [← ht, gots_append]
              simp [gots]
            rcases hcmp (source c) with hle | hle
            · cases (getElem?_mono (puts_mono hle) hv).symm.trans hv'
              rfl
            · cases (getElem?_mono (puts_mono hle) hv').symm.trans hv
              rfl
        subst he
        exact .inl ⟨t, by simpa using ht⟩
    · exact .inr (hle.trans (List.prefix_append _ _))
  · rw [Function.update_of_ne hj]
    exact hcmp j

end Dataflow
