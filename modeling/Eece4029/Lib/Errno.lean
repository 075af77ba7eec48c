import Mathlib.Data.List.Basic
import Mathlib.Tactic.Common

/-!
# Programs that make system calls

A system call that fails returns `-1` and leaves the number of the error in `errno`, and whoever
wants to report it has to read `errno` before anything else changes it. `Prog` are programs that
make system calls, read `errno` and write to a log. Any number is a possible result of a call, and
every successful call and every message may change `errno` (`Exec`). A program may also come to a
point where its behaviour is undefined (`wrong`): no execution goes on from there, and `GoesWrong`
allows whatever calls may follow. `Safe` programs do not come to one.

`Returns f p` says of a program that it returns `f e` when one of its calls has failed with the
error `e`. Its rules follow the program: what comes before the first call does not matter
(`Returns.after`), and after a call it is enough that the program goes on when the call has
succeeded, and comes to `f e` without another call when it has not (`Returns.call`).
-/

namespace Errno

universe u

/-- A program with the system calls `C`. -/
inductive Prog (C : Type u) (α : Type)
  | ret (a : α)
  | call (c : C) (next : Int → Prog C α)
  | errno (next : Nat → Prog C α)
  | log (next : Prog C α)
  | wrong

variable {C : Type u} {α β : Type}

/-- Go on with the value of a program. -/
def Prog.bind : Prog C α → (α → Prog C β) → Prog C β
  | .ret a, q => q a
  | .call c next, q => .call c fun r => (next r).bind q
  | .errno next, q => .errno fun e => (next e).bind q
  | .log next, q => .log (next.bind q)
  | .wrong, _ => .wrong

instance : Monad (Prog C) where
  pure := .ret
  bind := Prog.bind

/-- Make a system call: its value is what the call returns. -/
def call (c : C) : Prog C Int := .call c .ret

/-- The value of `errno`. -/
def errno : Prog C Nat := .errno .ret

/-- Write messages to the log. -/
def log : Prog C Unit := .log (.ret ())

/-- Undefined behaviour. -/
def wrong : Prog C α := .wrong

/-- `Exec p err tr a err'`: started when `errno` is `err`, the program may make the calls `tr`, each
with its number or its error, and end with the value `a` when `errno` is `err'`. -/
inductive Exec : Prog C α → Nat → List (C × Except Nat Nat) → α → Nat → Prop
  | ret {a : α} {err : Nat} : Exec (.ret a) err [] a err
  | ok {c : C} {next : Int → Prog C α} {n err err' err'' : Nat} {tr : List (C × Except Nat Nat)}
      {a : α} : Exec (next n) err' tr a err'' → Exec (.call c next) err ((c, .ok n) :: tr) a err''
  | error {c : C} {next : Int → Prog C α} {e err err' : Nat} {tr : List (C × Except Nat Nat)}
      {a : α} : Exec (next (-1)) e tr a err' → Exec (.call c next) err ((c, .error e) :: tr) a err'
  | errno {next : Nat → Prog C α} {err err' : Nat} {tr : List (C × Except Nat Nat)} {a : α} :
      Exec (next err) err tr a err' → Exec (.errno next) err tr a err'
  | log {next : Prog C α} {err err'' : Nat} {tr : List (C × Except Nat Nat)} {a : α} (err' : Nat) :
      Exec next err' tr a err'' → Exec (.log next) err tr a err''

/-- `GoesWrong p err tr`: started when `errno` is `err`, the program may come to a point where its
behaviour is undefined. The calls `tr` are those before this point and any others after it. -/
inductive GoesWrong : Prog C α → Nat → List (C × Except Nat Nat) → Prop
  | wrong {err : Nat} {tr : List (C × Except Nat Nat)} : GoesWrong .wrong err tr
  | ok {c : C} {next : Int → Prog C α} {n err err' : Nat} {tr : List (C × Except Nat Nat)} :
      GoesWrong (next n) err' tr → GoesWrong (.call c next) err ((c, .ok n) :: tr)
  | error {c : C} {next : Int → Prog C α} {e err : Nat} {tr : List (C × Except Nat Nat)} :
      GoesWrong (next (-1)) e tr → GoesWrong (.call c next) err ((c, .error e) :: tr)
  | errno {next : Nat → Prog C α} {err : Nat} {tr : List (C × Except Nat Nat)} :
      GoesWrong (next err) err tr → GoesWrong (.errno next) err tr
  | log {next : Prog C α} {err : Nat} {tr : List (C × Except Nat Nat)} (err' : Nat) :
      GoesWrong next err' tr → GoesWrong (.log next) err tr

/-- How the program may end after the calls `tr`: with a value, or in undefined behaviour. -/
def Ends (p : Prog C α) (err : Nat) (tr : List (C × Except Nat Nat)) : Option α → Prop
  | some a => ∃ err', Exec p err tr a err'
  | none => GoesWrong p err tr

variable {p : Prog C α} {q : α → Prog C β} {k : Int → Prog C α} {c : C}
  {tr : List (C × Except Nat Nat)} {a : α} {b : β} {e err err' : Nat} {f : Nat → α}

/-! ## Executions of a sequence -/

theorem exec_pure {a' : α} :
    Exec (pure a : Prog C α) err tr a' err' ↔ tr = [] ∧ a' = a ∧ err' = err := by
  refine ⟨fun h => ?_, ?_⟩
  · cases h
    exact ⟨rfl, rfl, rfl⟩
  · rintro ⟨rfl, rfl, rfl⟩
    exact .ret

/-- An execution of a sequence is one of its first part and one of the rest. -/
theorem Exec.bind_inv (h : Exec (p >>= q) err tr b err') : ∃ tr₁ tr₂ a err₁,
    tr = tr₁ ++ tr₂ ∧ Exec p err tr₁ a err₁ ∧ Exec (q a) err₁ tr₂ b err' := by
  induction p generalizing err tr with
  | ret a => exact ⟨[], tr, a, err, rfl, .ret, h⟩
  | call c next ih =>
    cases h with
    | ok h =>
      obtain ⟨tr₁, tr₂, a, err₁, rfl, hp, hq⟩ := ih _ h
      exact ⟨_, tr₂, a, err₁, rfl, .ok hp, hq⟩
    | error h =>
      obtain ⟨tr₁, tr₂, a, err₁, rfl, hp, hq⟩ := ih _ h
      exact ⟨_, tr₂, a, err₁, rfl, .error hp, hq⟩
  | errno next ih =>
    cases h with
    | errno h =>
      obtain ⟨tr₁, tr₂, a, err₁, rfl, hp, hq⟩ := ih _ h
      exact ⟨tr₁, tr₂, a, err₁, rfl, .errno hp, hq⟩
  | log next ih =>
    cases h with
    | log err₀ h =>
      obtain ⟨tr₁, tr₂, a, err₁, rfl, hp, hq⟩ := ih h
      exact ⟨tr₁, tr₂, a, err₁, rfl, .log err₀ hp, hq⟩
  | wrong => cases h

/-- A call succeeds with some number, or it fails, and what follows finds its error in `errno`. -/
theorem Exec.call_inv (h : Exec (Errno.call c >>= k) err tr a err') :
    (∃ (n err₁ : Nat) (tr' : List (C × Except Nat Nat)), tr = (c, .ok n) :: tr' ∧
      Exec (k n) err₁ tr' a err') ∨
    ∃ (e : Nat) (tr' : List (C × Except Nat Nat)), tr = (c, .error e) :: tr' ∧
      Exec (k (-1)) e tr' a err' := by
  cases h with
  | ok h => exact .inl ⟨_, _, _, rfl, h⟩
  | error h => exact .inr ⟨_, _, rfl, h⟩

/-! ## How a program ends -/

section
variable {r : Option α}

theorem Exec.ends (h : Exec p err tr a err') : Ends p err tr (some a) := ⟨err', h⟩

theorem GoesWrong.ends (h : GoesWrong p err tr) : Ends p err tr none := h

theorem ends_pure : Ends (pure a : Prog C α) err tr r ↔ tr = [] ∧ r = some a := by
  cases r with
  | none => exact iff_of_false (fun h => nomatch h) fun h => nomatch h.2
  | some a' =>
    refine ⟨?_, ?_⟩
    · rintro ⟨err', hexec⟩
      obtain ⟨htr, rfl, -⟩ := exec_pure.1 hexec
      exact ⟨htr, rfl⟩
    · rintro ⟨rfl, ha⟩
      cases ha
      exact ⟨err, .ret⟩

theorem Ends.wrong_inv (h : Ends (wrong : Prog C α) err tr r) : r = none := by
  cases r with
  | none => rfl
  | some a =>
    obtain ⟨err', hexec⟩ := h
    cases hexec

theorem Ends.log_inv {p : Prog C α} (h : Ends (Errno.log >>= fun _ => p) err tr r) :
    ∃ err', Ends p err' tr r := by
  cases r with
  | none =>
    cases h with
    | log err' h => exact ⟨err', h⟩
  | some a =>
    obtain ⟨err', hexec⟩ := h
    cases hexec with
    | log err₀ h => exact ⟨err₀, err', h⟩

theorem Ends.errno_inv {k : Nat → Prog C α} (h : Ends (Errno.errno >>= k) err tr r) :
    Ends (k err) err tr r := by
  cases r with
  | none =>
    cases h with
    | errno h => exact h
  | some a =>
    obtain ⟨err', hexec⟩ := h
    cases hexec with
    | errno h => exact ⟨err', h⟩

theorem Ends.call_inv (h : Ends (Errno.call c >>= k) err tr r) :
    (∃ (n err₁ : Nat) (tr' : List (C × Except Nat Nat)), tr = (c, .ok n) :: tr' ∧
      Ends (k n) err₁ tr' r) ∨
    ∃ (e : Nat) (tr' : List (C × Except Nat Nat)), tr = (c, .error e) :: tr' ∧
      Ends (k (-1)) e tr' r := by
  cases r with
  | none =>
    cases h with
    | ok h => exact .inl ⟨_, _, _, rfl, h⟩
    | error h => exact .inr ⟨_, _, rfl, h⟩
  | some a =>
    obtain ⟨err', hexec⟩ := h
    rcases hexec.call_inv with ⟨n, err₁, tr', rfl, h⟩ | ⟨e, tr', rfl, h⟩
    · exact .inl ⟨n, err₁, tr', rfl, err', h⟩
    · exact .inr ⟨e, tr', rfl, err', h⟩

end

/-! ## Programs that do not go wrong -/

/-- The program does not come to undefined behaviour, whatever its calls return. -/
def Safe : Prog C α → Prop
  | .ret _ => True
  | .call _ next => ∀ r, Safe (next r)
  | .errno next => ∀ e, Safe (next e)
  | .log next => Safe next
  | .wrong => False

theorem safe_pure : Safe (pure a : Prog C α) := trivial

theorem safe_log : Safe (log : Prog C Unit) := trivial

theorem safe_call : Safe (Errno.call c) := fun _ => trivial

theorem Safe.bind (hp : Safe p) (hq : ∀ a, Safe (q a)) : Safe (p >>= q) := by
  induction p with
  | ret a => exact hq a
  | call c next ih => exact fun r => ih r (hp r)
  | errno next ih => exact fun e => ih e (hp e)
  | log next ih => exact ih hp
  | wrong => exact hp.elim

theorem Safe.not_goesWrong (hp : Safe p) : ¬ GoesWrong p err tr := by
  intro h
  induction h with
  | wrong => exact hp
  | ok _ ih | error _ ih => exact ih (hp _)
  | errno _ ih => exact ih (hp _)
  | log _ _ ih => exact ih hp

/-- Such a program ends with a value. -/
theorem Safe.ends {r : Option α} (hp : Safe p) (h : Ends p err tr r) :
    ∃ a err', r = some a ∧ Exec p err tr a err' := by
  cases r with
  | some a =>
    obtain ⟨err', hexec⟩ := h
    exact ⟨a, err', rfl, hexec⟩
  | none => exact absurd h hp.not_goesWrong

/-! ## Programs that make no call -/

/-- The program makes no system call. -/
def Silent (p : Prog C α) : Prop := ∀ err tr a err', Exec p err tr a err' → tr = []

theorem silent_pure : Silent (pure a : Prog C α) :=
  fun _ _ _ _ h => (exec_pure.1 h).1

theorem silent_wrong : Silent (wrong : Prog C α) := fun _ _ _ _ h => nomatch h

theorem silent_log : Silent (log : Prog C Unit) := by
  intro err tr a err' h
  cases h with
  | log err₀ h =>
    cases h
    rfl

/-- After such a program an execution is one of what follows. -/
theorem Exec.after (h : Exec (p >>= q) err tr b err') (hp : Silent p) :
    ∃ a err₁, Exec (q a) err₁ tr b err' := by
  obtain ⟨tr₁, tr₂, a, err₁, rfl, h₁, h₂⟩ := h.bind_inv
  rw [hp _ _ _ _ h₁]
  exact ⟨a, err₁, h₂⟩

theorem Silent.bind (hp : Silent p) (hq : ∀ a, Silent (q a)) : Silent (p >>= q) := by
  intro err tr b err' h
  obtain ⟨a, err₁, h₂⟩ := h.after hp
  exact hq _ _ _ _ _ h₂

/-- From a moment when `errno` is `e` the program makes no call, and its value is `f e`. -/
def Answers (f : Nat → α) (p : Prog C α) : Prop :=
  ∀ e tr a err', Exec p e tr a err' → tr = [] ∧ a = f e

theorem answers_pure : Answers (fun _ => a) (pure a : Prog C α) :=
  fun _ _ _ _ h => ⟨(exec_pure.1 h).1, (exec_pure.1 h).2.1⟩

/-- The value of `errno` that is read first is the error. -/
theorem answers_errno {k : Nat → Prog C α} (h : ∀ e, Answers (fun _ => f e) (k e)) :
    Answers f (errno >>= k) := by
  intro e tr a err' hexec
  cases hexec with
  | errno hexec => exact h e _ _ _ _ hexec

/-- A program that drops the value of a silent one. -/
theorem Silent.answers (hp : Silent p) {q : α → Prog C β} (hq : ∀ a, Answers (fun _ => b) (q a)) :
    Answers (fun _ => b) (p >>= q) := by
  intro e tr a err' h
  obtain ⟨a', err₁, h₂⟩ := h.after hp
  exact hq _ _ _ _ _ h₂

/-- What follows makes no call either, and its value is determined. -/
theorem Answers.bind {g : α → β} (hp : Answers f p) (hq : ∀ a, Answers (fun _ => g a) (q a)) :
    Answers (g ∘ f) (p >>= q) := by
  intro e tr a err' h
  obtain ⟨tr₁, tr₂, a', err₁, rfl, h₁, h₂⟩ := h.bind_inv
  obtain ⟨rfl, rfl⟩ := hp _ _ _ _ h₁
  obtain ⟨rfl, rfl⟩ := hq _ _ _ _ _ h₂
  exact ⟨rfl, rfl⟩

theorem Answers.silent (h : Answers f p) : Silent p :=
  fun err tr a err' hexec => (h err tr a err' hexec).1

/-! ## The value after a failed call -/

/-- When a call of the program has failed with the error `e`, the value is `f e`. -/
def Returns (f : Nat → α) (p : Prog C α) : Prop :=
  ∀ err tr a err', Exec p err tr a err' → ∀ c e, (c, .error e) ∈ tr → a = f e

theorem Silent.returns (h : Silent p) : Returns f p := by
  intro err tr a err' hexec c e hc
  rw [h _ _ _ _ hexec] at hc
  cases hc

/-- What makes no call may come first. -/
theorem Returns.after {f : Nat → β} (hp : Silent p) (hq : ∀ a, Returns f (q a)) :
    Returns f (p >>= q) := by
  intro err tr b err' h
  obtain ⟨a, err₁, h₂⟩ := h.after hp
  exact hq _ _ _ _ _ h₂

/-- What makes no call may follow; its value is determined by that of the program before it. -/
theorem Returns.bind {g : α → β} (hp : Returns f p) (hq : ∀ a, Answers (fun _ => g a) (q a)) :
    Returns (g ∘ f) (p >>= q) := by
  intro err tr b err' h c e hc
  obtain ⟨tr₁, tr₂, a, err₁, rfl, h₁, h₂⟩ := h.bind_inv
  obtain ⟨rfl, rfl⟩ := hq _ _ _ _ _ h₂
  rw [List.append_nil] at hc
  exact congrArg g (hp _ _ _ _ h₁ c e hc)

/-- A call that succeeds is followed by a program that returns `f e` for its own errors, and one
that fails by one that answers with its error. -/
theorem Returns.call {k : Int → Prog C α} (hok : ∀ n : Nat, Returns f (k n))
    (herror : Answers f (k (-1))) : Returns f (Errno.call c >>= k) := by
  intro err tr a err' h c' e hc
  rcases h.call_inv with ⟨n, err₁, tr', rfl, hnext⟩ | ⟨e', tr', rfl, hnext⟩
  · rcases List.mem_cons.1 hc with heq | hc
    · cases heq
    · exact hok _ _ _ _ _ hnext c' e hc
  · obtain ⟨rfl, rfl⟩ := herror _ _ _ _ hnext
    cases List.mem_singleton.1 hc
    rfl

end Errno
