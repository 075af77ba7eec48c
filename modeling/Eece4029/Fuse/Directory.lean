import Eece4029.Fuse.Bbfs

/-!
# Listing an open directory

`bb_opendir` keeps the `DIR` of the system in the handle, and `bb_readdir` "will copy the entire
directory into the buffer": it calls the system's `readdir` until that returns `NULL`, and each
entry is passed to `filler`. Nothing rewinds the stream. So the calls on one handle share the
entries among them (`HandleRun.passed`), and a call after the last entry takes the `NULL` that it
gets first for an error. `listing_complete_iff` says that only the first call on a handle lists the
directory.

The path and the offset of a request are not looked at, and the log is left out.
-/

namespace Eece4029

open Transition

/-! ## Directory streams -/

/-- A `DIR`: the entries that `readdir` has returned, and the others in the order in which it will
return them. -/
structure Dir where
  returned : List String
  rest : List String

namespace Dir

/-- The stream of a directory that was just opened. -/
def opened (entries : List String) : Dir := ⟨[], entries⟩

/-- The entries of the directory. -/
def entries (dp : Dir) : List String := dp.returned ++ dp.rest

/-- The system's `readdir`: the next entry, or `NULL` at the end. -/
def readdir : Dir → Option String × Dir
  | ⟨returned, []⟩ => (none, ⟨returned, []⟩)
  | ⟨returned, de :: rest⟩ => (some de, ⟨returned ++ [de], rest⟩)

variable {dp dp' : Dir} {de : String}

theorem readdir_none : dp.readdir = (none, dp') ↔ dp.rest = [] ∧ dp' = dp := by
  rcases dp with ⟨returned, _ | ⟨de, rest⟩⟩ <;> simp [readdir, eq_comm]

theorem readdir_some : dp.readdir = (some de, dp') ↔
    dp.rest = de :: dp'.rest ∧ dp'.returned = dp.returned ++ [de] := by
  rcases dp with ⟨returned, _ | ⟨de, rest⟩⟩
  · simp [readdir]
  · rcases dp' with ⟨returned', rest'⟩
    simp only [readdir, Prod.mk.injEq, Option.some.injEq, mk.injEq, List.cons.injEq, and_assoc]
    refine and_congr_right ?_
    rintro rfl
    rw [and_comm, eq_comm, eq_comm (a := returned')]

end Dir

/-! ## The operations -/

/-- The `ENOMEM` that a full buffer is reported with. -/
def ENOMEM : Nat := 12

/-- `bb_opendir`: its result and the stream in the handle, `NULL` if `opendir` failed with an
`errno`. -/
def bbOpendir : Except Nat (List String) → Int × Option Dir
  | .ok entries => (0, some (.opened entries))
  | .error errno => (bbError errno, none)

/-- The names that were passed in calls of `filler`. -/
def filledNames (filled : List (String × Bool)) : List String := filled.map (·.1)

/-- What a call of `bb_readdir` does: its result, the calls of `filler` that it made, each with the
name that was passed and whether the buffer was full, and the stream that it leaves. -/
structure Listing where
  retstat : Int
  filled : List (String × Bool)
  dp : Dir

/-- The names that were passed to `filler`. -/
def Listing.names (l : Listing) : List String := filledNames l.filled

/-- The loop of `bb_readdir`, with the calls of `filler` so far and the entry to be passed next. The
function `filler` tells whether the buffer is full for a name, after the names before it. -/
def fillLoop (filler : List String → String → Bool) (filled : List (String × Bool)) (de : String)
    (dp : Dir) : Listing :=
  let full := filler (filledNames filled) de
  if full then
    ⟨-ENOMEM, filled ++ [(de, full)], dp⟩
  else
    match _h : dp.readdir with
    | (none, dp') => ⟨0, filled ++ [(de, full)], dp'⟩
    | (some de', dp') => fillLoop filler (filled ++ [(de, full)]) de' dp'
termination_by dp.rest.length
decreasing_by
  rw [(Dir.readdir_some.1 _h).1]
  exact Nat.lt_succ_self _

/-- `bb_readdir`, at a moment when `errno` holds the given value: a `NULL` from the first `readdir`
is an error, and at the end of a directory `readdir` leaves `errno` alone. -/
def bbReaddir (filler : List String → String → Bool) (errno : Nat) (dp : Dir) : Listing :=
  match dp.readdir with
  | (none, dp') => ⟨bbError errno, [], dp'⟩
  | (some de, dp') => fillLoop filler [] de dp'

variable {filler : List String → String → Bool} {errno : Nat} {dp dp' dp₀ : Dir}

/-! ## One call -/

/-- What the loop passes to `filler` after the calls `filled` it takes from the stream, from the
entry `de` on. It ends with the stream, or with a full buffer. -/
theorem fillLoop_spec (filler : List String → String → Bool) (filled : List (String × Bool))
    (de : String) (dp : Dir) : ∃ more, (fillLoop filler filled de dp).filled = filled ++ more ∧
    (∃ names, more.map (·.1) = de :: names ∧
      dp.rest = names ++ (fillLoop filler filled de dp).dp.rest ∧
      (fillLoop filler filled de dp).dp.returned = dp.returned ++ names) ∧
    ((∀ c ∈ more, c.2 = false) → (fillLoop filler filled de dp).dp.rest = [] ∧
      (fillLoop filler filled de dp).retstat = 0) := by
  fun_induction fillLoop filler filled de dp with
  | case1 filled de dp full hfull =>
    refine ⟨[(de, full)], rfl, ⟨[], rfl, rfl, (List.append_nil _).symm⟩, fun h => ?_⟩
    exact absurd (h _ (List.mem_singleton_self _)) (by simp [hfull])
  | case2 filled de dp full hfull dp' hnull =>
    obtain ⟨hrest, rfl⟩ := Dir.readdir_none.1 hnull
    exact ⟨[(de, full)], rfl, ⟨[], rfl, rfl, (List.append_nil _).symm⟩, fun _ => ⟨hrest, rfl⟩⟩
  | case3 filled de dp full hfull de' dp' hnext ih =>
    obtain ⟨hrest, hreturned⟩ := Dir.readdir_some.1 hnext
    obtain ⟨more, hfilled, ⟨names, hnames, hleft, hmoved⟩, hdone⟩ := ih
    refine ⟨(de, full) :: more, ?_, ⟨de' :: names, ?_, ?_, ?_⟩, fun h => ?_⟩
    · rw [hfilled, List.append_assoc, List.singleton_append]
    · rw [List.map_cons, hnames]
    · rw [hrest, hleft, List.cons_append]
    · rw [hmoved, hreturned, List.append_assoc, List.singleton_append]
    · exact hdone fun c hc => h c (List.mem_cons_of_mem _ hc)

section
variable {filled : List (String × Bool)} {de de' : String}

theorem fillLoop_full (h : filler (filledNames filled) de = true) :
    (fillLoop filler filled de dp).retstat = -ENOMEM := by
  rw [fillLoop, if_pos h]

theorem fillLoop_done (h : filler (filledNames filled) de = false)
    (hdp : dp.readdir = (none, dp')) : (fillLoop filler filled de dp).retstat = 0 := by
  rw [fillLoop, if_neg (by simp [h])]
  split
  · rfl
  · next hnext =>
    rw [hdp] at hnext
    cases hnext

theorem fillLoop_next (h : filler (filledNames filled) de = false)
    (hdp : dp.readdir = (some de', dp')) : fillLoop filler filled de dp =
      fillLoop filler (filled ++ [(de, false)]) de' dp' := by
  rw [fillLoop, if_neg (by simp [h])]
  split
  · next hdone =>
    rw [hdp] at hdone
    cases hdone
  · next hnext =>
    rw [hdp] at hnext
    cases hnext
    rw [h]
end

/-- A call passes the next entries of the stream, at least one if there is one. If the buffer was
never full they are all that were left, and the call succeeds unless there were none. -/
structure Lists (dp : Dir) (l : Listing) : Prop where
  returned : l.dp.returned = dp.returned ++ l.names
  rest : dp.rest = l.names ++ l.dp.rest
  progress : dp.rest ≠ [] → l.names ≠ []
  all : dp.rest ≠ [] → (∀ c ∈ l.filled, c.2 = false) → l.dp.rest = [] ∧ l.retstat = 0

theorem bbReaddir_lists : Lists dp (bbReaddir filler errno dp) := by
  unfold bbReaddir
  split
  · next dp' hnull =>
    obtain ⟨hrest, rfl⟩ := Dir.readdir_none.1 hnull
    exact ⟨(List.append_nil _).symm, rfl, fun h => absurd hrest h, fun h => absurd hrest h⟩
  · next de dp' hnext =>
    obtain ⟨hrest, hreturned⟩ := Dir.readdir_some.1 hnext
    obtain ⟨more, hfilled, ⟨names, hnames, hleft, hmoved⟩, hdone⟩ :=
      fillLoop_spec filler [] de dp'
    rw [List.nil_append] at hfilled
    have hall : (fillLoop filler [] de dp').names = de :: names := by
      rw [Listing.names, filledNames, hfilled, hnames]
    refine ⟨?_, ?_, ?_, ?_⟩
    · rw [hmoved, hreturned, hall, List.append_assoc, List.singleton_append]
    · rw [hrest, hleft, hall, List.cons_append]
    · rw [hall]
      exact fun _ => List.cons_ne_nil _ _
    · rw [hfilled]
      exact fun _ => hdone

/-! ## The calls on a handle -/

/-- A call of `bb_readdir` with the offset zero: what `filler` answers, the value of `errno` at the
call, and what the call does. -/
structure ReaddirCall where
  filler : List String → String → Bool
  errno : Nat
  listing : Listing

/-- The step of an open directory. -/
def ReaddirStep (dp : Dir) (call : ReaddirCall) (dp' : Dir) : Prop :=
  call.listing = bbReaddir call.filler call.errno dp ∧ dp' = call.listing.dp

/-- `tr` is a run of calls on a handle that holds the stream `dp₀` of a successful `bb_opendir`. -/
structure HandleRun (opendir : Except Nat (List String)) (dp₀ : Dir)
    (tr : List (Step Dir ReaddirCall)) (dp : Dir) : Prop where
  handle : (bbOpendir opendir).2 = some dp₀
  run : Run ReaddirStep dp₀ tr dp

variable {opendir : Except Nat (List String)} {tr pre post : List (Step Dir ReaddirCall)}
  {call : ReaddirCall} {x : Step Dir ReaddirCall}

theorem ReaddirStep.lists (h : ReaddirStep dp call dp') : Lists dp call.listing ∧
    dp' = call.listing.dp := by
  obtain ⟨hcall, hdp⟩ := h
  exact ⟨hcall ▸ bbReaddir_lists, hdp⟩

/-- The names that the calls of a run passed to `filler`, one call after the other. -/
def passed (tr : List (Step Dir ReaddirCall)) : List String :=
  tr.flatMap fun x => x.label.listing.names

/-- The calls of a run pass the entries that the stream has returned since, once each. -/
theorem passed_run (h : Run ReaddirStep dp₀ tr dp) :
    dp.returned = dp₀.returned ++ passed tr ∧ dp₀.rest = passed tr ++ dp.rest := by
  induction h with
  | nil => exact ⟨(List.append_nil _).symm, rfl⟩
  | @snoc tr dp dp' call _ hs ih =>
    obtain ⟨hreturned, hrest⟩ := ih
    obtain ⟨hlists, rfl⟩ := hs.lists
    have hpassed : passed (tr ++ [⟨dp, call, call.listing.dp⟩]) =
        passed tr ++ call.listing.names := by
      simp [passed]
    refine ⟨?_, ?_⟩
    · rw [hlists.returned, hreturned, hpassed, List.append_assoc]
    · rw [hrest, hlists.rest, hpassed, List.append_assoc]

/-- The calls on a handle share the entries of the directory among them. -/
theorem HandleRun.passed (h : HandleRun opendir dp₀ tr dp) :
    dp₀.entries = passed tr ++ dp.rest ∧ dp₀.rest = dp₀.entries := by
  obtain ⟨hhandle, hrun⟩ := h
  cases opendir with
  | error errno => cases hhandle
  | ok entries =>
    cases hhandle
    exact ⟨(passed_run hrun).2, rfl⟩

/-- The first call on a handle takes the entries from the start of the directory. -/
theorem lists_first (h : Run ReaddirStep dp₀ (x :: post) dp) : Lists dp₀ x.label.listing := by
  have hrun : Run ReaddirStep dp₀ ([] ++ x :: post) dp := h
  obtain ⟨hpre, hx, -⟩ := hrun.split
  exact hpre.eq_of_nil ▸ hx.lists.1

/-- The call passes every entry to `filler` once and returns zero. -/
structure CompleteListing (entries : List String) (l : Listing) : Prop where
  names : l.names.Perm entries
  retstat : l.retstat = 0

/-- **Only the first listing of an open directory is complete.** Of the calls on a handle for a
directory with an entry, one whose `filler` never reports a full buffer passes every entry once and
returns zero exactly when it is the first call. -/
theorem listing_complete_iff (h : HandleRun opendir dp₀ tr dp) (hne : dp₀.entries ≠ [])
    (htr : tr = pre ++ x :: post) (hfull : ∀ c ∈ x.label.listing.filled, c.2 = false) :
    CompleteListing dp₀.entries x.label.listing ↔ pre = [] := by
  subst htr
  obtain ⟨hpassed, hfresh⟩ := h.passed
  constructor
  · intro hcomplete
    rcases pre with _ | ⟨y, pre⟩
    · rfl
    · -- the first call passed an entry, and there is none that this one did not pass
      have hfirst := (lists_first h.run).progress (hfresh ▸ hne)
      have hlen := congrArg List.length hpassed
      have hall := hcomplete.names.length_eq
      simp only [passed, List.flatMap_append, List.flatMap_cons, List.length_append] at hlen
      have hpos := List.length_pos_iff.2 hfirst
      omega
  · rintro rfl
    have hlists := lists_first h.run
    obtain ⟨hrest, hretstat⟩ := hlists.all (hfresh ▸ hne) hfull
    refine ⟨?_, hretstat⟩
    rw [← hfresh, hlists.rest, hrest, List.append_nil]

/-- A listing into a buffer that is never full. -/
def listAll (dp : Dir) : ReaddirCall := ⟨fun _ _ => false, 0, bbReaddir (fun _ _ => false) 0 dp⟩

/-- A directory with its two entries, and the stream after them. -/
def dots : Dir := .opened [".", ".."]

def dotsRead : Dir := ⟨[".", ".."], []⟩

theorem listAll_dots : (listAll dots).listing = ⟨0, [(".", false), ("..", false)], dotsRead⟩ := by
  simp [listAll, dots, dotsRead, bbReaddir, Dir.opened, Dir.readdir, fillLoop]

/-- Two listings on one handle. -/
theorem two_listings : HandleRun (.ok [".", ".."]) dots
    [⟨dots, listAll dots, dotsRead⟩, ⟨dotsRead, listAll dotsRead, dotsRead⟩] dotsRead := by
  have hfirst : ReaddirStep dots (listAll dots) dotsRead :=
    ⟨rfl, (congrArg Listing.dp listAll_dots).symm⟩
  exact ⟨rfl, (Run.nil.snoc hfirst).snoc ⟨rfl, rfl⟩⟩

theorem listing_complete_iff_dots : CompleteListing dots.entries (listAll dots).listing ∧
    ¬ CompleteListing dots.entries (listAll dotsRead).listing := by
  refine ⟨?_, ?_⟩
  · refine (listing_complete_iff two_listings (by decide) (List.nil_append _).symm ?_).2 rfl
    rw [listAll_dots]
    decide
  · have hfull : ∀ c ∈ (listAll dotsRead).listing.filled, c.2 = false := by decide
    rw [listing_complete_iff two_listings (by decide) List.singleton_append.symm hfull]
    exact List.cons_ne_nil _ _

/-- The second listing passes nothing. -/
theorem second_listing_empty : ¬ ∀ (opendir : Except Nat (List String)) (dp₀ : Dir)
    (tr : List (Step Dir ReaddirCall)) (dp : Dir), HandleRun opendir dp₀ tr dp →
      dp₀.entries ≠ [] → ∀ x ∈ tr, (∀ c ∈ x.label.listing.filled, c.2 = false) →
      CompleteListing dp₀.entries x.label.listing := by
  intro h
  have hcomplete := h _ _ _ _ two_listings (by decide) _ (List.mem_cons_of_mem _
    (List.mem_singleton_self _)) (by decide)
  exact absurd hcomplete.names.length_eq (by decide)

end Eece4029
