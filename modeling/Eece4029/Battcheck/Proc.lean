import Eece4029.Battcheck.LifeCycle

/-!
# What read_proc prints

A call of `read_proc` goes over the list while the thread goes on checking, so what it prints is no
state of the batteries: each percent is one that the battery had at some time during the call
(`read_prints`). The line has a pipe after every battery, "for easy parsing in userspace", and
whoever splits it there gets the names and the percents back (`readProcLine_procLine`). It is taken
to fit into the page that the kernel passes: `read_proc` does not look at `buf_length`.
-/

namespace Eece4029

open Transition Records BattcheckModule

/-- What `read_proc` prints for these batteries. -/
def procLine (bs : List AcpiBattery) : List Char :=
  " | ".toList ++ bs.flatMap entry ++ "\n".toList

/-! ## The line -/

/-- What stands between two pipes. -/
def procField (b : AcpiBattery) : List Char :=
  " ".toList ++ b.name.toList ++ ": ".toList ++ decimal b.percent.toInt ++ "% ".toList

/-- The name and the percent in a field. -/
def readProcField (text : List Char) : Option (String × Int) :=
  match text.splitOn ':' with
  | [name, percent] =>
    some (String.ofList name.tail, readDecimal (percent.tail.takeWhile (· ≠ '%')))
  | _ => none

/-- The fields of a line, but the space before the first pipe and the end after the last one. -/
def readProcLine (text : List Char) : List (Option (String × Int)) :=
  (text.splitOn '|').tail.dropLast.map readProcField

/-- The line is a list of fields. -/
theorem procLine_eq (bs : List AcpiBattery) :
    procLine bs = records '|' (" ".toList :: bs.map procField) ++ " \n".toList := by
  have hshift : ∀ rest, ' ' :: (bs.flatMap entry ++ rest) =
      records '|' (bs.map procField) ++ ' ' :: rest := by
    intro rest
    induction bs with
    | nil => rfl
    | cons b bs ih =>
      rw [List.map_cons, records_cons, List.append_assoc, List.cons_append, ← ih]
      simp [entry, procField]
  have h := hshift "\n".toList
  rw [records_cons, List.append_assoc, List.cons_append]
  exact congrArg ([' ', '|'] ++ ·) h

theorem readProcField_procField {b : AcpiBattery} (hname : ':' ∉ b.name.toList) :
    readProcField (procField b) = some (b.name, b.percent.toInt) := by
  have hfield : procField b = (' ' :: b.name.toList) ++
      ':' :: (' ' :: (decimal b.percent.toInt ++ ['%', ' '])) := by
    simp [procField]
  have hpercent : ':' ∉ ' ' :: (decimal b.percent.toInt ++ ['%', ' ']) := by
    have hcolon := notMem_decimal (c := ':') (by decide) (by decide) b.percent.toInt
    simpa using hcolon
  have hstop : (decimal b.percent.toInt ++ ['%', ' ']).takeWhile (· ≠ '%') =
      decimal b.percent.toInt := by
    rw [List.takeWhile_append_of_pos, List.takeWhile_cons_of_neg (by decide), List.append_nil]
    rintro c hc
    rw [decide_eq_true_eq]
    rintro rfl
    exact notMem_decimal (by decide) (by decide) _ hc
  rw [readProcField, hfield, List.splitOn_append_cons_self_of_not_mem (by simpa using hname),
    List.splitOn_eq_singleton hpercent]
  simp only [List.tail_cons]
  rw [hstop, readDecimal_decimal, String.ofList_toList]

/-- **The line can be read**: from what is printed for any batteries, whatever their percents, whose
names have neither a pipe nor a colon, one gets the names and the percents back. -/
theorem readProcLine_procLine {bs : List AcpiBattery}
    (hname : ∀ b ∈ bs, '|' ∉ b.name.toList ∧ ':' ∉ b.name.toList) :
    readProcLine (procLine bs) = bs.map fun b => some (b.name, b.percent.toInt) := by
  have hpipe : ∀ r ∈ " ".toList :: bs.map procField, '|' ∉ r := by
    intro r hr
    rcases List.mem_cons.1 hr with rfl | hr
    · decide
    · obtain ⟨b, hb, rfl⟩ := List.mem_map.1 hr
      have hdecimal := notMem_decimal (c := '|') (by decide) (by decide) b.percent.toInt
      simpa [procField, hdecimal] using (hname b hb).1
  rw [readProcLine, procLine_eq, splitOn_records hpipe (by decide), List.cons_append,
    List.tail_cons, List.dropLast_concat, List.map_map]
  exact List.map_congr_left fun b hb => readProcField_procField (hname b hb).2

/-- Two batteries, one with a percent that has overflowed. -/
def bats : List AcpiBattery :=
  [{ AcpiBattery.zeroed "BAT0" with percent := -3 },
    { AcpiBattery.zeroed "BAT1" with percent := 40 }]

theorem readProcLine_bats :
    readProcLine (procLine bats) = [some ("BAT0", -3), some ("BAT1", 40)] :=
  readProcLine_procLine (by decide)

/-! ## The call -/

/-- Names do not change. -/
theorem name_checkBattery {b : AcpiBattery} {eval : Evaluation} :
    (checkBattery eval b).battery.name = b.name := by
  have hkeeps : KeepsField AcpiBattery.name bstOffsets := by
    simp [KeepsField, bstOffsets]
  have hsampled : (b.sampled eval).name = b.name := getBatteryControlMethod_keeps hkeeps
  rw [← hsampled]
  unfold checkBattery
  dsimp only
  split <;> rfl

theorem name_found {name : String} {eval : Evaluation} :
    (AcpiBattery.found name eval).name = name := by
  have hkeeps : KeepsField AcpiBattery.name bifOffsets := by
    simp [KeepsField, bifOffsets]
  exact getBatteryControlMethod_keeps hkeeps

variable {ρ : Type} {bus : Option (List AcpiChild)} {s : BattcheckModule ρ}
  {a a' : BatteryService ρ} {call : ServiceCall ρ} {scratch : List Nat} {r : ρ}

/-- The batteries have the names of the children they were found at. -/
def BatteryService.Named (a : BatteryService ρ) : Prop :=
  a.monitor.batteries.map (·.name) = a.found.map AcpiChild.text

/-- While something is read all batteries of the bus have been found, and the list has them. -/
theorem StandsFor.reading {x : Nat × List Char} (h : StandsFor bus s a scratch)
    (hr : a.reader r = some x) :
    s.Shows a.monitor.batteries ∧
      ∃ children, bus = some children ∧ WalkedPast children a.found := by
  obtain ⟨s₀, hs₀, ⟨rfl, rfl, -⟩ | ⟨l, bs, hrep⟩⟩ := h
  · cases hr
  · rw [hs₀]
    have hproc : s₀.proc = true := by
      refine hrep.served r fun hnone => ?_
      rw [hrep.reader_none hnone] at hr
      cases hr
    have hl := hrep.not_leaving_of_proc hproc
    refine ⟨⟨l, hrep.blocks.list, by rw [hrep.blocks.data, hrep.listed hl]⟩, ?_⟩
    have hphase := hrep.phase
    have hwalked := hrep.walked
    rw [hproc] at hphase
    cases hpc : s₀.pc with
    | proc | loaded | stopping | stopped =>
      rw [hpc] at hwalked
      exact hwalked
    | freeing | exited =>
      rw [hpc] at hl
      exact absurd trivial hl
    | _ =>
      rw [hpc] at hphase
      cases hphase.1

/-- Only the end of a call returns a text. -/
theorem readEnd_of_text {label : BattcheckLabel ρ} {text : List Char}
    (h : serviceCall s label = some (.text r text)) : label = .readEnd r text := by
  cases label with
  | readEnd r' text' =>
    cases h
    rfl
  | findChild =>
    simp only [serviceCall] at h
    split at h
    · split at h <;> cases h
    · cases h
  | kthreadRun ok => cases ok <;> cases h
  | read r' offset ok =>
    simp only [serviceCall] at h
    split at h <;> cases h
  | _ => cases h

/-- The call `r` has printed the batteries `bs` since the first of the steps `mid`, each one as the
list had it before one of these steps. -/
structure Reading (children : List AcpiChild) (mid : BattcheckTrace ρ) (r : ρ)
    (a : BatteryService ρ) (bs : List AcpiBattery) : Prop where
  reader : a.reader r = some (bs.length, " | ".toList ++ bs.flatMap entry)
  named : a.Named
  names : bs.map (·.name) =
    ((children.filter fun c => c.status = some true).map AcpiChild.text).take bs.length
  seen : ∀ (k : Nat) (b : AcpiBattery), bs[k]? = some b →
    ∃ z ∈ mid, ∃ bs', z.pre.Shows bs' ∧ bs'[k]? = some b

variable {children : List AcpiChild} {mid : BattcheckTrace ρ} {bs : List AcpiBattery}

theorem Reading.mono (h : Reading children mid r a bs)
    (z : Step (BattcheckModule ρ) (BattcheckLabel ρ)) (hr : a'.reader r = a.reader r)
    (hnamed : a'.Named) :
    Reading children (mid ++ [z]) r a' bs := by
  refine ⟨hr.trans h.reader, hnamed, h.names, fun k b hb => ?_⟩
  obtain ⟨z', hz', hseen⟩ := h.seen k b hb
  exact ⟨z', List.mem_append_left _ hz', hseen⟩

/-- One more battery is printed. -/
theorem Reading.print {s' : BattcheckModule ρ} {label : BattcheckLabel ρ} {i : Nat}
    {buf : List Char} {b : AcpiBattery} (h : Reading children mid r a bs)
    (hstands : StandsFor (some children) s a scratch) (hr : a.reader r = some (i, buf))
    (hb : a.monitor.batteries[i]? = some b) (hr' : a'.reader r = some (i + 1, buf ++ entry b))
    (hnamed : a'.Named) : Reading children (mid ++ [⟨s, label, s'⟩]) r a' (bs ++ [b]) := by
  obtain ⟨rfl, rfl⟩ := Prod.ext_iff.1 (Option.some.inj (hr.symm.trans h.reader))
  obtain ⟨hshows, children', hbus, hpast⟩ := hstands.reading hr
  obtain rfl := Option.some.inj hbus
  have hname : ((children.filter fun c => c.status = some true).map AcpiChild.text)[bs.length]? =
      some b.name := by
    rw [← hpast.2, ← h.named, List.getElem?_map, hb]
    rfl
  refine ⟨?_, hnamed, ?_, fun k c hc => ?_⟩
  · rw [hr', List.flatMap_append, List.append_assoc, List.length_append]
    simp
  · rw [List.map_append, h.names, List.length_append, List.length_singleton, List.take_add_one,
      hname]
    rfl
  · rcases Nat.lt_or_ge k bs.length with hk | hk
    · rw [List.getElem?_append_left hk] at hc
      obtain ⟨z, hz, hseen⟩ := h.seen k c hc
      exact ⟨z, List.mem_append_left _ hz, hseen⟩
    · have hlt := (List.getElem?_eq_some_iff.1 hc).1
      rw [List.length_append, List.length_singleton] at hlt
      obtain rfl : k = bs.length := by omega
      rw [List.getElem?_concat_length] at hc
      exact ⟨_, List.mem_concat_self, _, hshows, hb.trans hc⟩

variable [DecidableEq ρ]

theorem ServiceStep.named (h : ServiceStep a call a') (ha : a.Named) : a'.Named := by
  cases h with
  | find => simp [BatteryService.Named, watch, Monitor.init, Function.comp_def, name_found]
  | monitor _ hm =>
    cases hm with
    | @sample eval b _ hb =>
      have hset : (a.monitor.batteries.set a.monitor.pos (checkBattery eval b).battery).map
          (·.name) = a.monitor.batteries.map (·.name) := by
        obtain ⟨hlt, rfl⟩ := List.getElem?_eq_some_iff.1 hb
        rw [List.map_set, name_checkBattery, ← List.map_set, List.set_getElem_self]
      exact hset.trans ha
    | sleep => exact ha
  | _ => exact ha

/-- What a step of the service does to the call `r`. -/
theorem ServiceStep.reader (h : ServiceStep a call a') (r : ρ) :
    a'.reader r = a.reader r ∨
      (call = .entry r ∧ ∃ i buf b, a.reader r = some (i, buf) ∧ a.monitor.batteries[i]? = some b ∧
        a'.reader r = some (i + 1, buf ++ BattcheckModule.entry b)) ∨
      (call = .read r ∧ a.reader r = none) ∨ ∃ text, call = .text r text := by
  cases h with
  | find | start | monitor => exact .inl rfl
  | @read r' hnone =>
    obtain rfl | hne := eq_or_ne r r'
    · exact .inr (.inr (.inl ⟨rfl, hnone⟩))
    · exact .inl (Function.update_of_ne hne _ _)
  | @entry r' i buf b hr hb =>
    obtain rfl | hne := eq_or_ne r r'
    · exact .inr (.inl ⟨rfl, i, buf, b, hr, hb, Function.update_self _ _ _⟩)
    · exact .inl (Function.update_of_ne hne _ _)
  | @text r' i buf hr hend =>
    obtain rfl | hne := eq_or_ne r r'
    · exact .inr (.inr (.inr ⟨_, rfl⟩))
    · exact .inl (Function.update_of_ne hne _ _)

/-- From one place in the line to another one the call goes on with the batteries. -/
theorem reading_run {s₁ : BattcheckModule ρ} {a₁ : BatteryService ρ} {scratch₁ : List Nat}
    (hrun : Run (BattcheckStep (some children)) s₁ mid s)
    (h₁ : StandsFor (some children) s₁ a₁ scratch₁) (hr₁ : a₁.reader r = some (0, " | ".toList))
    (hnamed : a₁.Named) (hmid : ∀ z ∈ mid, ∀ text, z.label ≠ .readEnd r text) :
    ∃ a scratch bs, StandsFor (some children) s a scratch ∧ Reading children mid r a bs := by
  induction hrun with
  | nil =>
    refine ⟨a₁, scratch₁, [], h₁, ?_, hnamed, rfl, nofun⟩
    rw [hr₁, List.flatMap_nil, List.append_nil]
    rfl
  | @snoc mid s s' label _ hs ih =>
    obtain ⟨a, scratch, bs, hstands, hreading⟩ := ih fun z hz =>
      hmid z (List.mem_append_left _ hz)
    obtain ⟨⟨a', scratch', hstands', hfollows, -⟩, -⟩ := hstands.step hs
    cases hcall : serviceCall s label with
    | none =>
      rw [hcall] at hfollows
      obtain rfl : a' = a := hfollows
      exact ⟨a', scratch', bs, hstands', hreading.mono _ rfl hreading.named⟩
    | some call =>
      rw [hcall] at hfollows
      have hnamed' := ServiceStep.named hfollows hreading.named
      rcases ServiceStep.reader hfollows r with heq | ⟨rfl, i, buf, b, hr, hb, hr'⟩ | ⟨-, hnone⟩ |
        ⟨text, rfl⟩
      · exact ⟨a', scratch', bs, hstands', hreading.mono _ heq hnamed'⟩
      · exact ⟨a', scratch', bs ++ [b], hstands', hreading.print hstands hr hb hr' hnamed'⟩
      · cases hreading.reader.symm.trans hnone
      · exact absurd (readEnd_of_text hcall) (hmid ⟨s, label, s'⟩ (by simp) text)

/-- **What a call of `read_proc` prints**: at any time of the run, and whatever happens between its
first and its last step, it prints every battery of the bus once, in the order of the bus, each one
as it is in the list at some time during the call (if the line fits into the page). -/
theorem read_prints {pre mid : BattcheckTrace ρ}
    {x y : Step (BattcheckModule ρ) (BattcheckLabel ρ)} {ok : Bool} {text : List Char}
    (h : BattcheckRun bus (pre ++ x :: (mid ++ [y])) s) (hx : x.label = .read r 0 ok)
    (hy : y.label = .readEnd r text) (hmid : ∀ z ∈ mid, ∀ text', z.label ≠ .readEnd r text') :
    ∃ children bs, bus = some children ∧ text = procLine bs ∧
      bs.map (·.name) = (children.filter fun c => c.status = some true).map AcpiChild.text ∧
      ∀ (k : Nat) (b : AcpiBattery), bs[k]? = some b →
        ∃ z ∈ mid, ∃ bs', z.pre.Shows bs' ∧ bs'[k]? = some b := by
  obtain ⟨hpre, hxs, hrest⟩ := h.split
  obtain ⟨hmids, hys, -⟩ : Run (BattcheckStep bus) x.post mid y.pre ∧
      BattcheckStep bus y.pre y.label y.post ∧ Run (BattcheckStep bus) y.post [] s := hrest.split
  obtain ⟨a₀, atr, scratch₀, h₀, harun, -⟩ := BattcheckRun.standsFor hpre
  have hinit : (.init : BatteryService ρ).Named := rfl
  have hnamed₀ : a₀.Named := harun.inv hinit fun _ _ _ ha hs => hs.named ha
  obtain ⟨⟨a₁, scratch₁, h₁, hfollows₁, -⟩, -⟩ := h₀.step hxs
  rw [hx] at hfollows₁
  have hr₁ : a₁.reader r = some (0, " | ".toList) ∧ a₁.Named := by
    cases hfollows₁ with
    | read hnone => exact ⟨Function.update_self _ _ _, hnamed₀⟩
  obtain ⟨-, children, hbus, -⟩ := h₁.reading hr₁.1
  subst hbus
  obtain ⟨a, scratch, bs, hstands, hreading⟩ := reading_run hmids h₁ hr₁.1 hr₁.2 hmid
  obtain ⟨⟨a', scratch', -, hfollows, -⟩, -⟩ := hstands.step hys
  rw [hy] at hfollows
  cases hfollows with
  | text hr hend =>
    obtain ⟨rfl, rfl⟩ := Prod.ext_iff.1 (Option.some.inj (hr.symm.trans hreading.reader))
    obtain ⟨-, children', hbus, hpast⟩ := hstands.reading hr
    obtain rfl := Option.some.inj hbus
    refine ⟨children, bs, rfl, rfl, ?_, hreading.seen⟩
    have hlen := congrArg List.length hreading.named
    rw [List.length_map, hpast.2] at hlen
    rw [hreading.names, List.take_of_length_le (hlen ▸ hend)]

/-- The call in `session` prints the battery that is there, with the percent of its first check. -/
theorem read_prints_session : ∃ bs, " | BAT0: 50% | \n".toList = procLine bs ∧
    bs.map (·.name) = [bat0.1] := by
  have henabled : EnabledAll (BattcheckModule.Enabled laptop) (BattcheckModule.next laptop)
      (.init : BattcheckModule Unit) (session.take 12) := by
    decide
  obtain ⟨tr, h, hlabels⟩ := henabled.run
  have hsplit : tr.map (·.label) = session.take 8 ++ .read () 0 true ::
      ([.threadCheck (bstOf 1) [.begunToDischarge, .critical], .readBattery ()] ++
        [.readEnd () " | BAT0: 50% | \n".toList]) := hlabels
  obtain ⟨pre, tr₁, rfl, -, h₁⟩ := List.map_eq_append_iff.1 hsplit
  obtain ⟨x, tr₂, rfl, hx, h₂⟩ := List.map_eq_cons_iff.1 h₁
  obtain ⟨mid, tr₃, rfl, hmid, h₃⟩ := List.map_eq_append_iff.1 h₂
  obtain ⟨y, tr₄, rfl, hy, h₄⟩ := List.map_eq_cons_iff.1 h₃
  obtain rfl := List.map_eq_nil_iff.1 h₄
  have hends : ∀ z ∈ mid, ∀ text', z.label ≠ .readEnd () text' := by
    intro z hz text' hlabel
    have hmem := List.mem_map_of_mem (f := (·.label)) hz
    rw [hmid, hlabel] at hmem
    simp at hmem
  obtain ⟨children, bs, hbus, htext, hnames, -⟩ := read_prints h hx hy hends
  obtain rfl := Option.some.inj hbus
  exact ⟨bs, htext, hnames⟩

end Eece4029
