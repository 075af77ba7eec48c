import Eece4029.Lib.Errno

/-!
# The calls that a program makes

More about the programs of `Errno`, with rules that follow the program. `Calls P p`: every call that
`p` can make has the property `P`, whatever the calls before it have returned. `Delivers R Q p`: the
value of `p` has the property `Q` if no call has failed and the results are as `R` documents them.
And `p.mapCall f` is the program `p` with the call `f c` for every call `c`, as when the calls go
through another layer: its executions are those of `p` with `f` applied to the calls
(`exec_mapCall`), so what holds of the executions of `p` carries over.
-/

namespace Errno

universe u v

variable {C : Type u} {D : Type v} {α β : Type}

/-- Every call that the program can make has the property, as long as it does not go wrong. -/
def Calls (P : C → Prop) : Prog C α → Prop
  | .ret _ => True
  | .call c next => P c ∧ ∀ r, Calls P (next r)
  | .errno next => ∀ e, Calls P (next e)
  | .log next => Calls P next
  | .wrong => True

/-- The program with other calls in place of its own. -/
def Prog.mapCall (f : C → D) : Prog C α → Prog D α
  | .ret a => .ret a
  | .call c next => .call (f c) fun r => (next r).mapCall f
  | .errno next => .errno fun e => (next e).mapCall f
  | .log next => .log (next.mapCall f)
  | .wrong => .wrong

/-- If no call fails and every result is one that `R` allows, the value has the property `Q`. -/
def Delivers (R : C → Nat → Prop) (Q : α → Prop) (p : Prog C α) : Prop :=
  ∀ err tr a err', Exec p err tr a err' → (∀ c r, (c, r) ∈ tr → ∃ n, r = .ok n ∧ R c n) → Q a

variable {p : Prog C α} {q : α → Prog C β} {c : C} {P : C → Prop} {R : C → Nat → Prop}
  {Q : α → Prop} {g : C → D} {f : Nat → α} {a : α} {err err' : Nat}

/-! ## Calls with a property -/

theorem calls_pure : Calls P (pure a : Prog C α) := trivial

theorem calls_wrong : Calls P (wrong : Prog C α) := trivial

theorem calls_log : Calls P (log : Prog C Unit) := trivial

theorem calls_call (h : P c) : Calls P (call c) := ⟨h, fun _ => trivial⟩

theorem Calls.bind (hp : Calls P p) (hq : ∀ a, Calls P (q a)) : Calls P (p >>= q) := by
  induction p with
  | ret a => exact hq a
  | call c next ih => exact ⟨hp.1, fun r => ih r (hp.2 r)⟩
  | errno next ih => exact fun e => ih e (hp e)
  | log next ih => exact ih hp
  | wrong => trivial

theorem Calls.imp {P' : C → Prop} (h : ∀ c, P c → P' c) (hp : Calls P p) : Calls P' p := by
  induction p with
  | ret a => trivial
  | call c next ih => exact ⟨h c hp.1, fun r => ih r (hp.2 r)⟩
  | errno next ih => exact fun e => ih e (hp e)
  | log next ih => exact ih hp
  | wrong => trivial

/-- The calls of an execution have it. -/
theorem Calls.exec {tr : List (C × Except Nat Nat)} (hp : Calls P p) (h : Exec p err tr a err') :
    ∀ x ∈ tr, P x.1 := by
  induction h with
  | ret => exact fun x hx => absurd hx List.not_mem_nil
  | ok _ ih | error _ ih => exact List.forall_mem_cons.2 ⟨hp.1, ih (hp.2 _)⟩
  | errno _ ih => exact ih (hp _)
  | log _ _ ih => exact ih hp

/-! ## The value when no call fails -/

theorem Delivers.pure (h : Q a) : Delivers R Q (pure a : Prog C α) := by
  intro err tr a' err' hexec _
  rw [(exec_pure.1 hexec).2.1]
  exact h

theorem Delivers.bind {Q' : β → Prop} (hp : Delivers R Q p) (hq : ∀ a, Q a → Delivers R Q' (q a)) :
    Delivers R Q' (p >>= q) := by
  intro err tr b err' h hok
  obtain ⟨tr₁, tr₂, a, err₁, rfl, h₁, h₂⟩ := h.bind_inv
  have ha : Q a := hp _ _ _ _ h₁ fun c r hc => hok c r (List.mem_append_left _ hc)
  exact hq a ha _ _ _ _ h₂ fun c r hc => hok c r (List.mem_append_right _ hc)

theorem Delivers.call {k : Int → Prog C α} (h : ∀ n : Nat, R c n → Delivers R Q (k n)) :
    Delivers R Q (Errno.call c >>= k) := by
  intro err tr a err' hexec hok
  rcases hexec.call_inv with ⟨n, err₁, tr', rfl, hnext⟩ | ⟨e, tr', rfl, -⟩
  · obtain ⟨n', hn, hR⟩ := hok c _ (List.mem_cons_self ..)
    cases hn
    exact h n hR _ _ _ _ hnext fun c' r hc => hok c' r (List.mem_cons_of_mem _ hc)
  · obtain ⟨n, hn, -⟩ := hok c _ (List.mem_cons_self ..)
    cases hn

/-- What makes no call may come first. -/
theorem Delivers.after {Q' : β → Prop} (hp : Silent p) (hq : ∀ a, Delivers R Q' (q a)) :
    Delivers R Q' (p >>= q) := by
  intro err tr b err' h hok
  obtain ⟨a, err₁, h₂⟩ := h.after hp
  exact hq a _ _ _ _ h₂ hok

/-! ## Other calls in place of them -/

theorem mapCall_bind : (p >>= q).mapCall g = p.mapCall g >>= fun a => (q a).mapCall g := by
  induction p with
  | ret a => rfl
  | call c next ih => exact congrArg _ (funext ih)
  | errno next ih => exact congrArg _ (funext ih)
  | log next ih => exact congrArg _ ih
  | wrong => rfl

/-- Calls that stay as they are. -/
theorem Calls.mapCall_eq {g : C → C} (h : Calls (fun c => g c = c) p) : p.mapCall g = p := by
  induction p with
  | ret a => rfl
  | call c next ih =>
    rw [Prog.mapCall, h.1]
    exact congrArg _ (funext fun r => ih r (h.2 r))
  | errno next ih => exact congrArg _ (funext fun e => ih e (h e))
  | log next ih => exact congrArg _ (ih h)
  | wrong => rfl

theorem Calls.mapCall {P : D → Prop} (h : Calls (fun c => P (g c)) p) :
    Calls P (p.mapCall g) := by
  induction p with
  | ret a => trivial
  | call c next ih => exact ⟨h.1, fun r => ih r (h.2 r)⟩
  | errno next ih => exact fun e => ih e (h e)
  | log next ih => exact ih h
  | wrong => trivial

theorem Safe.mapCall (h : Safe p) : Safe (p.mapCall g) := by
  induction p with
  | ret a => trivial
  | call c next ih => exact fun r => ih r (h r)
  | errno next ih => exact fun e => ih e (h e)
  | log next ih => exact ih h
  | wrong => exact h

/-- The calls of an execution, changed. -/
def mapTrace (g : C → D) (tr : List (C × Except Nat Nat)) : List (D × Except Nat Nat) :=
  tr.map (Prod.map g id)

@[simp] theorem mapTrace_nil : mapTrace g [] = [] := rfl

@[simp] theorem mapTrace_cons {x : C × Except Nat Nat} {tr : List (C × Except Nat Nat)} :
    mapTrace g (x :: tr) = (g x.1, x.2) :: mapTrace g tr := rfl

theorem mem_mapTrace {tr : List (C × Except Nat Nat)} {d : D} {r : Except Nat Nat} :
    (d, r) ∈ mapTrace g tr ↔ ∃ c, (c, r) ∈ tr ∧ g c = d := by
  simp [mapTrace]

/-- An execution with the other calls is one of the program. -/
theorem exec_mapCall {tr : List (D × Except Nat Nat)} : Exec (p.mapCall g) err tr a err' ↔
    ∃ tr', tr = mapTrace g tr' ∧ Exec p err tr' a err' := by
  constructor
  · intro h
    induction p generalizing err tr with
    | ret b =>
      cases h
      exact ⟨[], rfl, .ret⟩
    | call c next ih =>
      cases h with
      | ok h =>
        obtain ⟨tr', rfl, h'⟩ := ih _ h
        exact ⟨_, rfl, .ok h'⟩
      | error h =>
        obtain ⟨tr', rfl, h'⟩ := ih _ h
        exact ⟨_, rfl, .error h'⟩
    | errno next ih =>
      cases h with
      | errno h =>
        obtain ⟨tr', rfl, h'⟩ := ih _ h
        exact ⟨tr', rfl, .errno h'⟩
    | log next ih =>
      cases h with
      | log err₀ h =>
        obtain ⟨tr', rfl, h'⟩ := ih h
        exact ⟨tr', rfl, .log err₀ h'⟩
    | wrong => cases h
  · rintro ⟨tr', rfl, h⟩
    induction h with
    | ret => exact .ret
    | ok _ ih => exact .ok ih
    | error _ ih => exact .error ih
    | errno _ ih => exact .errno ih
    | log err₀ _ ih => exact .log err₀ ih

theorem Returns.mapCall (h : Returns f p) : Returns f (p.mapCall g) := by
  intro err tr a err' hexec d e hd
  obtain ⟨tr', rfl, hexec'⟩ := exec_mapCall.1 hexec
  obtain ⟨c, hc, -⟩ := mem_mapTrace.1 hd
  exact h _ _ _ _ hexec' c e hc

theorem Answers.mapCall (h : Answers f p) : Answers f (p.mapCall g) := by
  intro e tr a err' hexec
  obtain ⟨tr', rfl, hexec'⟩ := exec_mapCall.1 hexec
  obtain ⟨rfl, ha⟩ := h _ _ _ _ hexec'
  exact ⟨rfl, ha⟩

theorem Silent.mapCall (h : Silent p) : Silent (p.mapCall g) := by
  intro err tr a err' hexec
  obtain ⟨tr', rfl, hexec'⟩ := exec_mapCall.1 hexec
  rw [h _ _ _ _ hexec', mapTrace_nil]

theorem Delivers.mapCall {R : D → Nat → Prop} (h : Delivers (fun c => R (g c)) Q p) :
    Delivers R Q (p.mapCall g) := by
  intro err tr a err' hexec hok
  obtain ⟨tr', rfl, hexec'⟩ := exec_mapCall.1 hexec
  exact h _ _ _ _ hexec' fun c r hc => hok (g c) r (mem_mapTrace.2 ⟨c, hc, rfl⟩)

end Errno
