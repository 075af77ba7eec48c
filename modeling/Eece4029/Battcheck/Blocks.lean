import Eece4029.Battcheck.Module

/-!
# The blocks of the batteries

Between two steps of the module the live blocks of `struct acpi_battery` are the head of the list,
its elements, which hold the batteries, and the scratch blocks of the loop variables that nothing
points to (`BatteryBlocks`). Here is what the operations on the list find there and leave behind. A
loop variable is a pointer to the element with some index or, after the last one, to the head
(`cursor`).
-/

namespace Eece4029

/-- The blocks of the list `l` hold the batteries `bs`, and with them the head and the scratch
blocks are live, and no others. -/
structure BatteryBlocks (heap : BatteryHeap) (l scratch : List Nat) (bs : List AcpiBattery) :
    Prop where
  list : Circular heap acpiBatteryList l
  data : l.map (fun a => (heap.cell a).map ListNode.data) = bs.map some
  live : ∀ a, heap.Live a ↔ a ∈ acpiBatteryList :: (l ++ scratch)
  nodup : (acpiBatteryList :: (l ++ scratch)).Nodup

/-- Where a loop over the list is that has seen `i` elements. -/
def cursor (l : List Nat) (i : Nat) : Ptr := l[i]?.or (some acpiBatteryList)

variable {heap : BatteryHeap} {l scratch : List Nat} {bs : List AcpiBattery} {a i : Nat}
  {b : AcpiBattery}

namespace BatteryBlocks

theorem length_eq (h : BatteryBlocks heap l scratch bs) : l.length = bs.length := by
  simpa using congrArg List.length h.data

theorem getElem? (h : BatteryBlocks heap l scratch bs) (i : Nat) :
    l[i]?.map (fun a => (heap.cell a).map ListNode.data) = bs[i]?.map some := by
  rw [← List.getElem?_map, h.data, List.getElem?_map]

/-- The head is no element. -/
theorem ne_head (h : BatteryBlocks heap l scratch bs) (hi : l[i]? = some a) :
    a ≠ acpiBatteryList := by
  rintro rfl
  exact (List.nodup_cons.1 h.list.nodup).1 (List.mem_of_getElem? hi)

/-- A loop is at the head when it has seen all elements, and before that at an element. -/
theorem cursor_eq_head (h : BatteryBlocks heap l scratch bs) :
    cursor l i = some acpiBatteryList ↔ bs.length ≤ i := by
  rw [← h.length_eq, ← List.getElem?_eq_none_iff, cursor]
  cases hi : l[i]? with
  | none => simp
  | some a => simpa using h.ne_head hi

theorem exists_of_cursor_ne (h : BatteryBlocks heap l scratch bs)
    (hne : cursor l i ≠ some acpiBatteryList) : ∃ a, l[i]? = some a ∧ cursor l i = some a := by
  rw [Ne, h.cursor_eq_head, ← h.length_eq, ← List.getElem?_eq_none_iff] at hne
  obtain ⟨a, ha⟩ := Option.ne_none_iff_exists'.1 hne
  exact ⟨a, ha, by rw [cursor, ha]; rfl⟩

/-- A loop begins with the first element. -/
theorem first (h : BatteryBlocks heap l scratch bs) :
    BattcheckModule.firstBattery heap = .ok (cursor l 0) := by
  obtain ⟨c, hc, hn⟩ := h.list.next_head
  simp only [BattcheckModule.firstBattery, Heap.load_some hc, bind, Except.bind]
  rw [hn]
  rfl

/-- A loop finds a battery in an element, and the next element. -/
theorem get (h : BatteryBlocks heap l scratch bs) (hi : l[i]? = some a) :
    ∃ c, heap.cell a = some c ∧ bs[i]? = some c.data ∧ c.next = cursor l (i + 1) := by
  obtain ⟨c, hc, hn⟩ := h.list.next_getElem? hi
  have hget := h.getElem? i
  rw [hi, Option.map_some, hc, Option.map_some] at hget
  cases hb : bs[i]? with
  | none => simp [hb] at hget
  | some b =>
    simp only [hb, Option.map_some, Option.some.injEq] at hget
    exact ⟨c, hc, by rw [hget], hn⟩

/-- Another battery in an element. -/
theorem set (h : BatteryBlocks heap l scratch bs) (hi : l[i]? = some a) :
    BatteryBlocks (heap.upd a fun c => { c with data := b }) l scratch (bs.set i b) := by
  obtain ⟨c, hc, -⟩ := h.get hi
  refine ⟨h.list.upd fun _ => ⟨rfl, rfl⟩, ?_, ?_, h.nodup⟩
  · refine List.ext_getElem? fun j => ?_
    have hnodup : l.Nodup := (List.nodup_cons.1 h.list.nodup).2
    have hlt : i < bs.length := h.length_eq ▸ (List.getElem?_eq_some_iff.1 hi).1
    rw [List.getElem?_map, List.getElem?_map]
    obtain rfl | hij := eq_or_ne i j
    · rw [hi, List.getElem?_set_self hlt, Option.map_some, Heap.cell_upd_self hc]
      rfl
    · rw [List.getElem?_set_ne hij, ← h.getElem? j]
      cases hj : l[j]? with
      | none => rfl
      | some a' =>
        have hne : a' ≠ a := by
          rintro rfl
          have hlt := (List.getElem?_eq_some_iff.1 hi).1
          exact hij ((List.getElem?_inj hlt hnodup).1 (hi.trans hj.symm))
        rw [Option.map_some, Option.map_some, Heap.cell_upd, Function.update_of_ne hne]
  · intro a'
    rw [← h.live a']
    obtain rfl | hne := eq_or_ne a' a
    · exact iff_of_true (Heap.live_of_cell (Heap.cell_upd_self hc)) (Heap.live_of_cell hc)
    · rw [Heap.Live, Heap.cell_upd, Function.update_of_ne hne, Heap.Live]

/-- The same blocks, with other pointers between them. -/
theorem relink {heap' : BatteryHeap} {l' scratch' : List Nat} {bs' : List AcpiBattery}
    (h : BatteryBlocks heap l scratch bs) (hs : heap.SameData heap')
    (hl : Circular heap' acpiBatteryList l')
    (hdata : l'.map (fun a => (heap.cell a).map ListNode.data) = bs'.map some)
    (hperm : List.Perm (l' ++ scratch') (l ++ scratch)) : BatteryBlocks heap' l' scratch' bs' := by
  have hperm' := hperm.cons acpiBatteryList
  refine ⟨hl, ?_, fun a => ?_, hperm'.nodup_iff.2 h.nodup⟩
  · rw [← hdata]
    exact List.map_congr_left fun a _ => hs a
  · rw [hs.live, h.live, hperm'.mem_iff]

/-- The next block to be made is not live. -/
theorem fresh (h : BatteryBlocks heap l scratch bs) :
    heap.next ∉ acpiBatteryList :: (l ++ scratch) :=
  fun hm => Nat.lt_irrefl _ ((h.live _).2 hm).lt

/-- A new block that nothing points to. -/
theorem malloc (h : BatteryBlocks heap l scratch bs) (c : ListNode AcpiBattery) :
    BatteryBlocks (heap.malloc c).2 l (scratch ++ [heap.next]) bs := by
  have hsame : Heap.SameOn (acpiBatteryList :: l) heap (heap.malloc c).2 :=
    Heap.sameOn_malloc h.list.live
  refine ⟨h.list.same hsame, ?_, fun a => ?_, ?_⟩
  · rw [← h.data]
    exact List.map_congr_left fun a ha => by rw [hsame a (List.mem_cons_of_mem _ ha)]
  · rw [← List.append_assoc, ← List.cons_append, List.mem_append, ← h.live, List.mem_singleton,
      Heap.Live, Heap.cell_malloc]
    obtain rfl | hne := eq_or_ne a heap.next
    · simp
    · rw [Function.update_of_ne hne, or_iff_left hne, Heap.Live]
  · rw [← List.append_assoc, ← List.cons_append]
    exact (List.perm_append_singleton _ _).nodup_iff.2 (List.nodup_cons.2 ⟨h.fresh, h.nodup⟩)

/-- A scratch block is made, or not. -/
theorem kzalloc (h : BatteryBlocks heap l scratch bs) (ok : Bool) :
    ∃ scratch', BatteryBlocks (BattcheckModule.kzalloc heap ok) l scratch' bs ∧
      scratch'.length = scratch.length + if ok then 1 else 0 := by
  cases ok with
  | false => exact ⟨scratch, h, rfl⟩
  | true => exact ⟨_, h.malloc _, List.length_append⟩

/-- The first element is taken out of the list and freed. -/
theorem free (h : BatteryBlocks heap (a :: l) scratch (b :: bs)) :
    ∃ heap₁, listDel heap a = .ok heap₁ ∧ heap₁.free (some a) = .ok (heap₁.drop a) ∧
      BatteryBlocks (heap₁.drop a) l scratch bs := by
  obtain ⟨heap₁, hdel, hl, hs⟩ := h.list.delFirst
  have hswap := (List.Perm.swap a acpiBatteryList (l ++ scratch)).nodup_iff.1 h.nodup
  obtain ⟨ha, hnodup⟩ := List.nodup_cons.1 hswap
  have hlive : heap₁.Live a := (hs.live.trans (h.live a)).2 (by simp)
  obtain ⟨c, hc⟩ := Option.ne_none_iff_exists'.1 hlive
  have hne : ∀ a' ∈ acpiBatteryList :: (l ++ scratch), a' ≠ a := fun a' ha' =>
    ne_of_mem_of_not_mem ha' ha
  refine ⟨heap₁, hdel, Heap.free_some hc, hl.same (Heap.sameOn_drop ?_), ?_, fun a' => ?_, hnodup⟩
  · rw [← List.cons_append] at ha
    exact fun hm => ha (List.mem_append_left _ hm)
  · rw [← (List.cons.inj h.data).2]
    refine List.map_congr_left fun a' ha' => ?_
    rw [Heap.cell_drop, Function.update_of_ne (hne a' (by simp [ha'])), hs a']
  · rw [Heap.Live, Heap.cell_drop]
    obtain rfl | hne' := eq_or_ne a' a
    · rw [Function.update_self]
      exact iff_of_false (fun h => h rfl) ha
    · rw [Function.update_of_ne hne', ← Heap.Live, hs.live, h.live]
      simp [hne']

/-- The first thing that a loop over the list looks at, the head or an element. -/
theorem load_first (h : BatteryBlocks heap l scratch bs) :
    ∃ c, heap.load (cursor l 0) = .ok c ∧ c.next = cursor l 1 := by
  cases l with
  | nil =>
    obtain ⟨c, hc, hn⟩ := h.list.next_head
    exact ⟨c, Heap.load_some hc, hn⟩
  | cons a l =>
    obtain ⟨c, hc, hn⟩ := h.list.next_getElem? (i := 0) rfl
    exact ⟨c, Heap.load_some hc, hn⟩

end BatteryBlocks

/-! ## The sections of the module -/

namespace BattcheckModule

variable {ρ : Type} {s : BattcheckModule ρ}

/-- `INIT_LIST_HEAD` of the variable. -/
theorem initList_init : ∃ heap, initListHead (init : BattcheckModule ρ).heap acpiBatteryList =
    .ok heap ∧ BatteryBlocks heap [] [] [] := by
  have hc : (init : BattcheckModule ρ).heap.cell acpiBatteryList =
      some ⟨.zeroed "", none, none⟩ := rfl
  obtain ⟨heap, hinit, hl, hs, -⟩ := Circular.init hc
  refine ⟨heap, hinit, hl, rfl, fun a => ?_, List.nodup_cons.2 ⟨by simp, List.nodup_nil⟩⟩
  rw [hs.live, List.append_nil, List.mem_singleton]
  obtain rfl | hne := eq_or_ne a acpiBatteryList
  · exact iff_of_true (Heap.live_of_cell hc) rfl
  · refine iff_of_false (fun hlive => hlive ?_) hne
    exact Function.update_of_ne hne _ _

/-- The new battery is the last one of the list. -/
theorem addBattery_spec (h : BatteryBlocks s.heap l scratch bs) (c : AcpiChild) :
    ∃ heap a, s.addBattery c = .ok { s with
        heap := heap, names := s.names + if c.name.isSome then 1 else 0 } ∧
      BatteryBlocks heap (l ++ [a]) scratch (bs ++ [.found c.text c.info]) := by
  have hnew := h.malloc ⟨.found c.text c.info, none, none⟩
  let a := s.heap.next
  let heap₁ := (s.heap.malloc ⟨.found c.text c.info, none, none⟩).2
  have hc : heap₁.cell a = some ⟨.found c.text c.info, none, none⟩ := Function.update_self _ _ _
  have ha : a ∉ acpiBatteryList :: l := by
    have hfresh := h.fresh
    rw [← List.cons_append] at hfresh
    exact fun hm => hfresh (List.mem_append_left _ hm)
  obtain ⟨heap₂, hinit, -, hs₂, hsame₂⟩ := Circular.init hc
  have hlist₂ : Circular heap₂ acpiBatteryList l := hnew.list.same (hsame₂ _ ha)
  obtain ⟨c₂, hc₂⟩ := Option.ne_none_iff_exists'.1 (hs₂.live.2 (Heap.live_of_cell hc))
  obtain ⟨heap₃, hadd, hl, hs₃⟩ := hlist₂.addTail hc₂ ha
  refine ⟨heap₃, a, ?_, hnew.relink (hs₂.trans hs₃) hl ?_ ?_⟩
  · simp only [addBattery, bind, Except.bind]
    rw [show initListHead (s.heap.malloc ⟨.found c.text c.info, none, none⟩).2
      (s.heap.malloc ⟨.found c.text c.info, none, none⟩).1 = .ok heap₂ from hinit]
    simp only
    rw [show listAddTail heap₂ (s.heap.malloc ⟨.found c.text c.info, none, none⟩).1
      acpiBatteryList = .ok heap₃ from hadd]
    rfl
  · rw [List.map_append, List.map_append, hnew.data, List.map_singleton, hc]
    rfl
  · rw [List.append_assoc]
    exact List.perm_append_comm.append_left l

/-- The battery is checked and the loop goes on to the next one. -/
theorem threadCheck_spec (h : BatteryBlocks s.heap l scratch bs) (hi : l[i]? = some a)
    (delay : Nat) (eval : Evaluation) :
    ∃ b heap, bs[i]? = some b ∧ s.threadCheck (some a) delay eval =
        .ok ((checkBattery eval b).reports, { s with
          heap := heap
          task := if (checkBattery eval b).trapped then .trapped else
            .running (.each (cursor l (i + 1))
              (if (checkBattery eval b).delay then 2 else delay)) }) ∧
      BatteryBlocks heap l scratch (bs.set i (checkBattery eval b).battery) := by
  obtain ⟨c, hc, hb, hn⟩ := h.get hi
  refine ⟨c.data, _, hb, ?_, h.set hi⟩
  simp only [threadCheck, Heap.load_some hc, Heap.store_some hc, bind, Except.bind]
  rw [Heap.load_some (Heap.cell_upd_self hc)]
  simp only [hn]
  rfl

/-- `kthread_stop` needs a thread that runs. -/
theorem kthreadStop_eq (s : BattcheckModule ρ) :
    (∃ e, s.kthreadStop = .error e) ∧ (∀ pc, s.task ≠ .running pc) ∨
      s.kthreadStop = .ok { s with pc := .stopping, shouldStop := true } ∧
        ∃ pc, s.task = .running pc := by
  unfold kthreadStop
  cases s.task with
  | none | error | trapped | ended => exact .inl ⟨⟨_, rfl⟩, fun _ => nofun⟩
  | running pc => exact .inr ⟨rfl, pc, rfl⟩

theorem threadTest_spec (h : BatteryBlocks s.heap l scratch bs) :
    s.threadTest = .ok { s with
      task := if s.shouldStop then .ended else .running (.each (cursor l 0) 1) } := by
  unfold threadTest
  cases s.shouldStop with
  | true => rfl
  | false =>
    simp only [h.first, bind, Except.bind]
    rfl

theorem removeProc_spec (h : BatteryBlocks s.heap l scratch bs) :
    s.removeProc = .ok { s with pc := .freeing (cursor l 0) (cursor l 1), proc := false } := by
  obtain ⟨c, hc, hn⟩ := h.load_first
  simp only [removeProc, h.first, hc, bind, Except.bind, hn]
  rfl

/-- The first element is freed, and `tmp` is the first one of what is left. -/
theorem freeBattery_spec {b : AcpiBattery} (h : BatteryBlocks s.heap (a :: l) scratch (b :: bs)) :
    ∃ heap, s.freeBattery a (cursor (a :: l) 1) =
        .ok { s with heap := heap, pc := .freeing (cursor l 0) (cursor l 1) } ∧
      BatteryBlocks heap l scratch bs := by
  obtain ⟨heap, hdel, hfree, h'⟩ := h.free
  obtain ⟨c, hc, hn⟩ := h'.load_first
  refine ⟨_, ?_, h'⟩
  simp only [freeBattery, hdel, hfree, bind, Except.bind]
  rw [show cursor (a :: l) 1 = cursor l 0 from rfl, hc]
  simp only [hn]
  rfl

variable [DecidableEq ρ] {r : ρ} {reader : Reader}

/-- A call at the offset `0` has printed nothing yet. -/
theorem read_spec (h : BatteryBlocks s.heap l scratch bs) (r : ρ) (ok : Bool) :
    ∃ heap scratch', s.read r 0 ok = .ok { s with
        heap := heap
        reader := Function.update s.reader r (some ⟨cursor l 0, " | ".toList⟩) } ∧
      BatteryBlocks heap l scratch' bs ∧
      scratch'.length = scratch.length + if ok then 1 else 0 := by
  obtain ⟨scratch', h', hlen⟩ := h.kzalloc ok
  refine ⟨_, scratch', ?_, h', hlen⟩
  simp only [read, if_pos, h'.first, bind, Except.bind]
  rfl

/-- A battery is printed. -/
theorem readBattery_spec (h : BatteryBlocks s.heap l scratch bs) (hi : l[i]? = some a)
    (hr : reader.battery = some a) :
    ∃ b, bs[i]? = some b ∧ s.readBattery r reader = .ok { s with
      reader := Function.update s.reader r (some ⟨cursor l (i + 1), reader.buf ++ entry b⟩) } := by
  obtain ⟨c, hc, hb, hn⟩ := h.get hi
  refine ⟨c.data, hb, ?_⟩
  simp only [readBattery, hr, Heap.load_some hc, bind, Except.bind, hn]
  rfl

end BattcheckModule

end Eece4029
