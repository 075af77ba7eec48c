import Eece4029.Streams.Connections

/-!
# The lists of producers

`stream_disconnect` sets the pointers of the neighbours of the block that it frees, and these only
if there is a block before it; it does not touch `prod_head` and `prod_curr`. So the list of a
consumer stays whole exactly when the block has a neighbour on both sides: taking out the first
block leaves `prod_head` on a freed block, and taking out the last one `prod_curr`.
`producer_list_intact_iff` says this of whole runs of `stream_connect` and `stream_disconnect`.
-/

namespace Eece4029

open Transition

variable {ι α : Type} [DecidableEq ι]

/-- The integrity of the lists: every stream has a list of the connections that it consumes from,
in the order in which they were made, and every stream counts the blocks in all lists that point to
it. -/
structure Intact (w : Wiring ι α) : Prop where
  list : ∀ i, ProducerList w.net.heap (w.net.stream i) (w.nodes i)
  count : ∀ o, (w.net.stream o).numConsumers =
    w.conns.countP fun c => (w.net.heap.cell c.node).map (·.stream) = some o

/-- The call is no `stream_disconnect` that takes out the first or the last block of a list: in the
list of `in_`, the first connection from `out`, if there is one, is neither the first nor the last
connection. -/
def WireCall.Inner (w : Wiring ι α) : WireCall ι → Prop
  | .connect _ _ => True
  | .disconnect in_ out =>
    let producers := (into in_ w.conns).map (·.producer)
    producers.head? ≠ some out ∧ (out ∈ producers → out ∈ producers.dropLast)

instance (w : Wiring ι α) (call : WireCall ι) : Decidable (call.Inner w) :=
  match call with
  | .connect _ _ => inferInstanceAs (Decidable True)
  | .disconnect _ _ => inferInstanceAs (Decidable (_ ∧ _))

variable {w w' : Wiring ι α} {in_ out i o : ι} {a : Nat} {fuel : Nat} {call : WireCall ι}
  {buffer : ι → Slot → α} {tr : List (Step (Wiring ι α) (WireCall ι))}

/-! ## The invariant -/

namespace Wiring

theorem mem_nodes : a ∈ w.nodes i ↔ ∃ c ∈ w.conns, c.consumer = i ∧ c.node = a := by
  simp [nodes, into, and_assoc]

/-- Intact lists, with what the code relies on beyond them: no block belongs to two connections, and
each is a connection to the producer that it was made for. -/
structure Inv (w : Wiring ι α) : Prop where
  list : ∀ i, ProducerList w.net.heap (w.net.stream i) (w.nodes i)
  nodup : (w.conns.map (·.node)).Nodup
  target : ∀ c ∈ w.conns, Network.target w.net.heap c.node = some c.producer
  count : ∀ o, (w.net.stream o).numConsumers = w.conns.countP fun c => c.producer = o

namespace Inv

theorem init : (Wiring.init buffer : Wiring ι α).Inv where
  list _ := ⟨rfl, rfl, trivial⟩
  nodup := List.nodup_nil
  target _ hc := nomatch hc
  count _ := rfl

theorem intact (h : w.Inv) : Intact w where
  list := h.list
  count o := by
    rw [h.count o]
    refine List.countP_congr ?_
    intro _ hc
    have htarget := h.target _ hc
    unfold Network.target at htarget
    simp [htarget]

/-- The list of one stream has no block twice. -/
theorem nodup_nodes (h : w.Inv) (i : ι) : (w.nodes i).Nodup :=
  h.nodup.sublist ((List.filter_sublist).map _)

/-- A block is in the list of one stream only. -/
theorem node_unique (h : w.Inv) (ha : a ∈ w.nodes i) (ho : a ∈ w.nodes o) : i = o := by
  obtain ⟨c, hc, rfl, hca⟩ := mem_nodes.1 ha
  obtain ⟨d, hd, rfl, hda⟩ := mem_nodes.1 ho
  rw [List.inj_on_of_nodup_map h.nodup hc hd (hca.trans hda.symm)]

theorem live (h : w.Inv) : ∀ a ∈ w.nodes i, w.net.heap.Live a := (h.list i).linked.live

/-- What `stream_connect` leaves: the new block is at the end of the list of `in_`, and the lists of
the other streams are as they were. -/
structure ConnectEffect (w : Wiring ι α) (in_ out : ι) (net : Network ι α) : Prop where
  list : ProducerList net.heap (net.stream in_) (w.nodes in_ ++ [w.net.heap.next])
  ends : ∀ i, i ≠ in_ → (net.stream i).prodHead = (w.net.stream i).prodHead ∧
    (net.stream i).prodCurr = (w.net.stream i).prodCurr
  same : ∀ i, i ≠ in_ → Heap.SameOn (w.nodes i) w.net.heap net.heap
  target : ∀ a, Network.target net.heap a =
    if a = w.net.heap.next then some out else Network.target w.net.heap a
  count : ∀ o, (net.stream o).numConsumers =
    (w.net.stream o).numConsumers + if o = out then 1 else 0

/-- The blocks of the lists stay as they are when a block is made. -/
theorem sameOn_malloc (h : w.Inv) (c : Producer ι) :
    Heap.SameOn (w.nodes i) w.net.heap (w.net.heap.malloc c).2 :=
  Heap.sameOn_malloc h.live

/-- The new block is in no list yet. -/
theorem next_notMem (h : w.Inv) : w.net.heap.next ∉ w.nodes i :=
  fun ha => Nat.lt_irrefl _ (h.live _ ha).lt

/-- `stream_connect` returns. -/
theorem streamConnect_effect (h : w.Inv) (in_ out : ι) :
    ∃ net, w.net.streamConnect in_ out = .ok net ∧ ConnectEffect w in_ out net := by
  have hlist := h.list in_
  have hmalloc : ∀ a, Network.target (w.net.heap.malloc (w.net.newProducer out)).2 a =
      if a = w.net.heap.next then some out else Network.target w.net.heap a := by
    intro a
    rw [Network.target, Heap.cell_malloc, Function.update_apply]
    split <;> rfl
  have hp : (w.net.heap.malloc (w.net.newProducer out)).2.cell w.net.heap.next =
      some (w.net.newProducer out) := Function.update_self _ _ _
  unfold Network.streamConnect
  rcases List.eq_nil_or_concat (w.nodes in_) with hnil | ⟨l, x, hcat⟩
  · rw [hnil] at hlist
    simp only [hlist.head, List.head?_nil, if_pos]
    refine ⟨_, rfl, ?_⟩
    obtain ⟨hhead, hcurr, hends, hcount⟩ := Network.stream_connect in_ out
      (s := { w.net with heap := (w.net.heap.malloc (w.net.newProducer out)).2 })
      (f := fun i => { i with prodHead := some w.net.heap.next, prodCurr := some w.net.heap.next })
      (g := fun o => { o with numConsumers := (streamConnect o.toStream).2.numConsumers })
      (fun _ => rfl) fun _ => ⟨rfl, rfl, rfl⟩
    refine ⟨⟨?_, ?_, ?_⟩, hends, fun i _ => h.sameOn_malloc _, hmalloc, hcount⟩
    · rw [hnil]; exact hhead
    · rw [hnil]; exact hcurr
    · rw [hnil]; exact linked_singleton.2 ⟨_, hp, rfl, rfl⟩
  · rw [List.concat_eq_append] at hcat
    rw [hcat] at hlist
    have hne : (w.net.stream in_).prodHead ≠ none := by simp [hlist.head]
    have hlast : (w.net.stream in_).prodCurr = some x := by rw [hlist.curr, List.getLast?_concat]
    have hx : x ∈ w.nodes in_ := by simp [hcat]
    have hxp : x ≠ w.net.heap.next := Nat.ne_of_lt (h.live x hx).lt
    obtain ⟨cx, hcx⟩ := Option.ne_none_iff_exists'.1 (h.live x hx)
    have hcx' : ((w.net.heap.malloc (w.net.newProducer out)).2.upd w.net.heap.next
        fun c => { c with prev := some x }).cell x = some cx := by
      rw [Heap.cell_upd, Function.update_of_ne hxp, h.sameOn_malloc _ x hx, hcx]
    simp only [if_neg hne, hlast, Heap.malloc_fst, Heap.store_some hp, Heap.store_some hcx', bind,
      Except.bind]
    refine ⟨_, rfl, ?_⟩
    obtain ⟨hhead, hcurr, hends, hcount⟩ := Network.stream_connect in_ out
      (s := { w.net with
        heap := ((w.net.heap.malloc (w.net.newProducer out)).2.upd w.net.heap.next
            fun c => { c with prev := some x }).upd x
          fun c => { c with next := some w.net.heap.next } })
      (f := fun i => { i with prodCurr := some w.net.heap.next })
      (g := fun o => { o with numConsumers := (streamConnect o.toStream).2.numConsumers })
      (fun _ => rfl) fun _ => ⟨rfl, rfl, rfl⟩
    have hsame : ∀ i, Heap.SameOn (w.nodes i) w.net.heap
        ((w.net.heap.malloc (w.net.newProducer out)).2.upd w.net.heap.next
          fun c => { c with prev := some x }) :=
      fun i => (h.sameOn_malloc _).trans (Heap.sameOn_upd h.next_notMem)
    refine ⟨⟨?_, ?_, ?_⟩, hends, ?_, ?_, hcount⟩
    · rw [hhead, hlist.head, hcat]
      simp
    · rw [hcurr, List.getLast?_concat]
    · rw [hcat]
      refine (hlist.linked.same (hcat ▸ hsame in_)).link (hcat ▸ h.nodup_nodes in_)
        (hcat ▸ h.next_notMem) ⟨{ w.net.newProducer out with prev := some x }, ?_, rfl, rfl⟩
        fun c => ⟨rfl, rfl⟩
      rw [Heap.cell_upd, Function.update_self, hp, Option.map_some]
    · intro i hi
      refine (hsame i).trans (Heap.sameOn_upd ?_)
      exact fun hxi => hi (h.node_unique hxi hx)
    · intro a
      exact ((Network.target_upd (by simp) a).trans (Network.target_upd (by simp) a)).trans
        (hmalloc a)

/-- `stream_connect` returns, and puts a new block at the end of the list of `in_`. -/
theorem connect (h : w.Inv) (in_ out : ι) : ∃ net, w.net.streamConnect in_ out = .ok net ∧
    Inv ⟨net, w.conns ++ [⟨(w.net.heap.malloc (w.net.newProducer out)).1, in_, out⟩]⟩ := by
  obtain ⟨net, hret, heff⟩ := h.streamConnect_effect in_ out
  refine ⟨net, hret, ?_, ?_, ?_, ?_⟩
  · intro i
    by_cases hi : i = in_
    · subst hi
      have := heff.list
      simpa [nodes, into] using this
    · have hnodes : nodes ⟨net, w.conns ++ [⟨w.net.heap.next, in_, out⟩]⟩ i = w.nodes i := by
        simp [nodes, into, Ne.symm hi]
      rw [Heap.malloc_fst, hnodes]
      obtain ⟨hhead, hcurr⟩ := heff.ends i hi
      exact ⟨hhead.trans (h.list i).head, hcurr.trans (h.list i).curr,
        (h.list i).linked.same (heff.same i hi)⟩
  · simp only [List.map_append, List.map_cons, List.map_nil, Heap.malloc_fst]
    refine List.nodup_append.2 ⟨h.nodup, List.nodup_singleton _, ?_⟩
    intro a ha b hb hab
    obtain ⟨c, hc, rfl⟩ := List.mem_map.1 ha
    have hnew : c.node = w.net.heap.next := hab.trans (List.mem_singleton.1 hb)
    exact h.next_notMem (i := c.consumer) (mem_nodes.2 ⟨c, hc, rfl, hnew⟩)
  · intro c hc
    rw [heff.target]
    rcases List.mem_append.1 hc with hc | hc
    · have hne : c.node ≠ w.net.heap.next := fun hnew =>
        h.next_notMem (i := c.consumer) (mem_nodes.2 ⟨c, hc, rfl, hnew⟩)
      rw [if_neg hne, h.target c hc]
    · cases List.mem_singleton.1 hc
      exact if_pos rfl
  · intro o
    rw [heff.count, h.count, List.countP_append, List.countP_singleton]
    simp only [eq_comm (a := o), decide_eq_true_eq]

end Inv

/-! ## Disconnecting -/

/-- The connection `d` is the oldest one from `out` to `in_`; `older` and `newer` are the other
connections. -/
structure Oldest (w : Wiring ι α) (in_ out : ι) (older : List (Connection ι)) (d : Connection ι)
    (newer : List (Connection ι)) : Prop where
  conns : w.conns = older ++ d :: newer
  consumer : d.consumer = in_
  producer : d.producer = out
  first : ∀ b ∈ older, b.consumer = in_ → b.producer ≠ out
  erased : w.conns.eraseP (Connection.between in_ out) = older ++ newer

/-- There is no connection between the two streams, or an oldest one. -/
theorem oldest (w : Wiring ι α) (in_ out : ι) :
    (∀ b ∈ into in_ w.conns, b.producer ≠ out) ∧
      w.conns.eraseP (Connection.between in_ out) = w.conns ∨
    ∃ older d newer, w.Oldest in_ out older d newer := by
  by_cases hany : ∃ c ∈ w.conns, Connection.between in_ out c = true
  · obtain ⟨c, hc, hb⟩ := hany
    obtain ⟨d, older, newer, hbefore, hd, hconns, herase⟩ := List.exists_of_eraseP hc hb
    obtain ⟨hin, hout⟩ : d.consumer = in_ ∧ d.producer = out := by
      simpa [Connection.between] using hd
    refine .inr ⟨older, d, newer, hconns, hin, hout, ?_, herase⟩
    intro b hb hbin hbout
    exact hbefore b hb (by simp [Connection.between, hbin, hbout])
  · refine .inl ⟨?_, List.eraseP_of_forall_not fun c hc hb => hany ⟨c, hc, hb⟩⟩
    intro b hb hbout
    obtain ⟨hmem, hbin⟩ := List.mem_filter.1 hb
    refine hany ⟨b, hmem, ?_⟩
    simpa [Connection.between, hbout] using hbin

namespace Oldest

variable {older newer : List (Connection ι)} {d : Connection ι}

theorem into_eq (ho : w.Oldest in_ out older d newer) :
    into in_ w.conns = into in_ older ++ d :: into in_ newer := by
  simp [into, ho.conns, ho.consumer]

theorem nodes (ho : w.Oldest in_ out older d newer) :
    w.nodes in_ = (into in_ older).map (·.node) ++ d.node :: (into in_ newer).map (·.node) := by
  rw [Wiring.nodes, ho.into_eq, List.map_append, List.map_cons]

theorem nodes_erased (ho : w.Oldest in_ out older d newer) (net : Network ι α) :
    Wiring.nodes ⟨net, w.conns.eraseP (Connection.between in_ out)⟩ in_ =
      (into in_ older).map (·.node) ++ (into in_ newer).map (·.node) := by
  simp [Wiring.nodes, into, ho.erased]

theorem nodes_erased_of_ne (ho : w.Oldest in_ out older d newer) (net : Network ι α)
    (hi : i ≠ in_) :
    Wiring.nodes ⟨net, w.conns.eraseP (Connection.between in_ out)⟩ i = w.nodes i := by
  have hne : d.consumer ≠ i := fun h => hi (h.symm.trans ho.consumer)
  rw [Wiring.nodes, Wiring.nodes, ho.erased, ho.conns]
  simp [into, hne]

/-- The call is an inner one when there are connections of `in_` before and after this one. -/
theorem inner_iff (ho : w.Oldest in_ out older d newer) :
    (WireCall.disconnect in_ out).Inner w ↔ into in_ older ≠ [] ∧ into in_ newer ≠ [] := by
  have hfirst : ∀ b ∈ into in_ older, b.producer ≠ out := by
    intro b hb
    obtain ⟨hmem, hbin⟩ := List.mem_filter.1 hb
    exact ho.first b hmem (by simpa using hbin)
  have hmem : out ∉ (into in_ older).map (·.producer) := by
    intro hmem
    obtain ⟨b, hb, hbout⟩ := List.mem_map.1 hmem
    exact hfirst b hb hbout
  simp only [WireCall.Inner, ho.into_eq, List.map_append, List.map_cons, ho.producer]
  refine and_congr ?_ ?_
  · cases hold : into in_ older with
    | nil => simp
    | cons b front => simp [hfirst b (by simp [hold])]
  · cases into in_ newer with
    | nil => simpa using hmem
    | cons b back => simp

end Oldest

namespace Inv

variable {older newer : List (Connection ι)} {d : Connection ι}

/-- The blocks of connections from other producers. -/
theorem target_ne (h : w.Inv) (in_ out : ι) {cs : List (Connection ι)}
    (hsub : ∀ b ∈ cs, b ∈ w.conns) (hne : ∀ b ∈ into in_ cs, b.producer ≠ out) :
    ∀ a ∈ (into in_ cs).map (·.node), Network.target w.net.heap a ≠ some out := by
  intro a ha
  obtain ⟨b, hb, rfl⟩ := List.mem_map.1 ha
  rw [h.target b (hsub b (List.mem_of_mem_filter hb))]
  simpa using hne b hb

/-- `stream_disconnect` of two streams without a connection leaves everything as it is. -/
theorem disconnect_none (h : w.Inv) (hno : ∀ b ∈ into in_ w.conns, b.producer ≠ out) :
    w.net.streamDisconnect fuel in_ out =
      if (w.nodes in_).length ≤ fuel then .ok w.net else .error .fuel :=
  Network.streamDisconnect_none (h.list in_) (h.target_ne in_ out (fun _ hb => hb) hno)

/-- `stream_disconnect` of two streams with a connection frees the block of the oldest one. -/
theorem disconnect_oldest (h : w.Inv) (ho : w.Oldest in_ out older d newer) :
    ∃ c, w.net.heap.cell d.node = some c ∧
      c.prev = ((into in_ older).map (·.node)).getLast? ∧
      c.next = ((into in_ newer).map (·.node)).head? ∧
      ∀ fuel, w.net.streamDisconnect fuel in_ out =
        if (into in_ older).length < fuel then
          .ok ({ w.net with heap := (Network.unlinked w.net.heap c).drop d.node }.setStream out
            Network.loseConsumer)
        else
          .error .fuel := by
  have hd : d ∈ w.conns := by simp [ho.conns]
  obtain ⟨c, hc, hstream⟩ := Option.map_eq_some_iff.1 (h.target d hd)
  have hlist := h.list in_
  rw [ho.nodes] at hlist
  obtain ⟨hp, hn, -, -⟩ := Network.live_neighbours hlist.linked hc
  have hold : ∀ b ∈ older, b ∈ w.conns := fun b hb => by simp [ho.conns, hb]
  have hfirst := h.target_ne in_ out hold fun b hb => by
      obtain ⟨hmem, hbin⟩ := List.mem_filter.1 hb
      exact ho.first b hmem (by simpa using hbin)
  refine ⟨c, hc, hp, hn, ?_⟩
  intro fuel
  rw [Network.streamDisconnect_found hlist hfirst hc (hstream.trans ho.producer), List.length_map]

/-- The block of the oldest connection is no other connection's. -/
theorem node_notMem (h : w.Inv) (ho : w.Oldest in_ out older d newer) :
    ∀ b ∈ older ++ newer, b.node ≠ d.node := by
  have hnodup := h.nodup
  rw [ho.conns, List.map_append, List.map_cons, List.nodup_middle, List.nodup_cons,
    ← List.map_append] at hnodup
  exact fun b hb hbd => hnodup.1 (List.mem_map.2 ⟨b, hb, hbd⟩)

/-- The blocks of the other connections lead to the producers that they led to. -/
theorem target_erased (h : w.Inv) (ho : w.Oldest in_ out older d newer) (c : Producer ι) :
    ∀ b ∈ w.conns.eraseP (Connection.between in_ out),
      Network.target ((Network.unlinked w.net.heap c).drop d.node) b.node = some b.producer := by
  intro b hb
  have hne : b.node ≠ d.node := h.node_notMem ho b (ho.erased ▸ hb)
  have hdrop : Network.target ((Network.unlinked w.net.heap c).drop d.node) b.node =
      Network.target (Network.unlinked w.net.heap c) b.node := by
    unfold Network.target
    rw [Heap.cell_drop, Function.update_of_ne hne]
  exact (hdrop.trans (Network.target_unlinked _)).trans (h.target b (List.mem_of_mem_eraseP hb))

/-- The producer counts one connection less, and the other streams count those that they had. -/
theorem count_erased (h : w.Inv) (ho : w.Oldest in_ out older d newer) (o : ι) :
    (if o = out then Network.loseConsumer (w.net.stream out) else w.net.stream o).numConsumers =
      (w.conns.eraseP (Connection.between in_ out)).countP fun c => c.producer = o := by
  have hcount := h.count o
  rw [ho.conns, List.countP_append, List.countP_cons, ← Nat.add_assoc, ← List.countP_append,
    ← ho.erased] at hcount
  split
  · next heq =>
    subst heq
    rw [if_pos (by simp [ho.producer])] at hcount
    exact Nat.sub_eq_of_eq_add hcount
  · next hne =>
    rw [if_neg (by simp [ho.producer, Ne.symm hne])] at hcount
    exact hcount

/-- Taking out a connection that has one before and one after it keeps the lists intact. -/
theorem disconnect_inner (h : w.Inv) (ho : w.Oldest in_ out older d newer)
    (hfront : into in_ older ≠ []) (hback : into in_ newer ≠ []) {c : Producer ι}
    (hprev : c.prev = ((into in_ older).map (·.node)).getLast?)
    (hnext : c.next = ((into in_ newer).map (·.node)).head?) :
    Inv ⟨{ w.net with heap := (Network.unlinked w.net.heap c).drop d.node }.setStream out
      Network.loseConsumer, w.conns.eraseP (Connection.between in_ out)⟩ := by
  have hnodup := h.nodup_nodes in_
  have hlist := h.list in_
  rw [ho.nodes] at hnodup hlist
  obtain ⟨l, x, hl⟩ : ∃ l x, (into in_ older).map (·.node) = l ++ [x] := by
    rcases List.eq_nil_or_concat ((into in_ older).map (·.node)) with hnil | ⟨l, x, hcat⟩
    · exact absurd (List.map_eq_nil_iff.1 hnil) hfront
    · exact ⟨l, x, hcat.trans List.concat_eq_append⟩
  obtain ⟨y, l', hl'⟩ : ∃ y l', (into in_ newer).map (·.node) = y :: l' := by
    cases hb : (into in_ newer).map (·.node) with
    | nil => exact absurd (List.map_eq_nil_iff.1 hb) hback
    | cons y l' => exact ⟨y, l', rfl⟩
  rw [hl, List.getLast?_concat] at hprev
  rw [hl', List.head?_cons] at hnext
  rw [hl, hl'] at hnodup hlist
  -- the three blocks that change are in the list of `in_`, so the other lists keep theirs
  have hmem : x ∈ w.nodes in_ ∧ y ∈ w.nodes in_ ∧ d.node ∈ w.nodes in_ := by
    simp [ho.nodes, hl, hl']
  have hunlinked : Network.unlinked w.net.heap c = (w.net.heap.upd x fun b =>
      { b with next := some y }).upd y fun b => { b with prev := some x } := by
    unfold Network.unlinked
    rw [hprev, hnext]
  have hlinked := hlist.linked.unlink (f := fun b : Producer ι => { b with next := some y })
    (g := fun b => { b with prev := some x }) hnodup (fun _ => ⟨rfl, rfl⟩) fun _ => ⟨rfl, rfl⟩
  rw [← hunlinked] at hlinked
  have hends := fun i => Network.ends_setStream (i := out) (o := i) (f := Network.loseConsumer)
    (s := { w.net with heap := (Network.unlinked w.net.heap c).drop d.node })
    fun _ => ⟨rfl, rfl⟩
  refine ⟨?_, ?_, ?_, ?_⟩
  · intro i
    by_cases hi : i = in_
    · subst hi
      rw [ho.nodes_erased, hl, hl']
      refine ⟨(hends i).1.trans ?_, (hends i).2.trans ?_, hlinked.same (Heap.sameOn_drop ?_)⟩
      · rw [hlist.head]
        simp
      · rw [hlist.curr]
        simp
      · rw [List.nodup_middle, List.nodup_cons] at hnodup
        exact hnodup.1
    · rw [ho.nodes_erased_of_ne _ hi, Network.heap_setStream, hunlinked]
      have hother : ∀ a ∈ w.nodes in_, a ∉ w.nodes i := fun a ha hai => hi (h.node_unique hai ha)
      refine ⟨(hends i).1.trans (h.list i).head, (hends i).2.trans (h.list i).curr, ?_⟩
      exact (h.list i).linked.same (((Heap.sameOn_upd (hother x hmem.1)).trans
        (Heap.sameOn_upd (hother y hmem.2.1))).trans (Heap.sameOn_drop (hother _ hmem.2.2)))
  · exact h.nodup.sublist (List.eraseP_sublist.map _)
  · exact h.target_erased ho c
  · intro o
    rw [Network.stream_setStream]
    exact h.count_erased ho o

/-- Taking out the first or the last connection breaks them. -/
theorem disconnect_edge (h : w.Inv) (ho : w.Oldest in_ out older d newer) {net : Network ι α}
    (hstream : ∀ i, (net.stream i).prodHead = (w.net.stream i).prodHead ∧
      (net.stream i).prodCurr = (w.net.stream i).prodCurr)
    (hint : Intact ⟨net, w.conns.eraseP (Connection.between in_ out)⟩) :
    into in_ older ≠ [] ∧ into in_ newer ≠ [] := by
  have hlist := hint.list in_
  have hnodup := h.nodup_nodes in_
  have hold := h.list in_
  rw [ho.nodes] at hnodup hold
  rw [ho.nodes_erased] at hlist
  obtain ⟨-, hn₂, hdisj⟩ := List.nodup_append.1 hnodup
  constructor
  · intro hnil
    have hhead := hlist.head.symm.trans ((hstream in_).1.trans hold.head)
    simp only [hnil, List.map_nil, List.nil_append, List.head?_cons] at hhead
    exact (List.nodup_cons.1 hn₂).1 (List.mem_of_head? hhead)
  · intro hnil
    have hcurr := hlist.curr.symm.trans ((hstream in_).2.trans hold.curr)
    simp only [hnil, List.map_nil, List.append_nil, List.getLast?_concat] at hcurr
    exact hdisj _ (List.mem_of_getLast? hcurr) _ List.mem_cons_self rfl

/-! ## Steps and runs -/

/-- Every call returns. -/
theorem returns (h : w.Inv) (call : WireCall ι) : ∃ w', WireStep w call w' := by
  cases call with
  | connect in_ out =>
    obtain ⟨net, hret, -⟩ := h.connect in_ out
    exact ⟨_, .connect hret⟩
  | disconnect in_ out =>
    rcases w.oldest in_ out with ⟨hno, -⟩ | ⟨older, d, newer, ho⟩
    · exact ⟨_, .disconnect ((h.disconnect_none hno).trans (if_pos (Nat.le_refl _)))⟩
    · obtain ⟨c, -, -, -, hret⟩ := h.disconnect_oldest ho
      exact ⟨_, .disconnect ((hret _).trans (if_pos (Nat.lt_succ_self _)))⟩

/-- A call that takes out neither the first nor the last connection keeps the lists intact. -/
theorem step (h : w.Inv) (hcall : call.Inner w) (hs : WireStep w call w') : w'.Inv := by
  cases hs with
  | @connect in_ out net hret =>
    obtain ⟨net', hret', hinv⟩ := h.connect in_ out
    cases hret.symm.trans hret'
    exact hinv
  | @disconnect in_ out net fuel hret =>
    rcases w.oldest in_ out with ⟨hno, herase⟩ | ⟨older, d, newer, ho⟩
    · rw [h.disconnect_none hno] at hret
      split at hret
      · cases hret
        rw [herase]
        exact h
      · cases hret
    · obtain ⟨c, -, hprev, hnext, hret'⟩ := h.disconnect_oldest ho
      obtain ⟨hfront, hback⟩ := ho.inner_iff.1 hcall
      rw [hret'] at hret
      split at hret
      · cases hret
        exact h.disconnect_inner ho hfront hback hprev hnext
      · cases hret

/-- A call after which the lists are intact took out neither the first nor the last connection. -/
theorem inner_of_intact (h : w.Inv) (hs : WireStep w call w') (hint : Intact w') :
    call.Inner w := by
  cases hs with
  | connect => trivial
  | @disconnect in_ out net fuel hret =>
    rcases w.oldest in_ out with ⟨hno, -⟩ | ⟨older, d, newer, ho⟩
    · have hmem : out ∉ (into in_ w.conns).map (·.producer) := by
        intro hmem
        obtain ⟨b, hb, hbout⟩ := List.mem_map.1 hmem
        exact hno b hb hbout
      exact ⟨fun hhead => hmem (List.mem_of_head? hhead), fun hin => absurd hin hmem⟩
    · obtain ⟨c, -, -, -, hret'⟩ := h.disconnect_oldest ho
      rw [hret'] at hret
      split at hret
      · cases hret
        refine ho.inner_iff.2 (h.disconnect_edge ho ?_ hint)
        exact fun i => Network.ends_setStream fun _ => ⟨rfl, rfl⟩
      · cases hret

end Inv

end Wiring

open Wiring

/-- **When the lists of producers stay whole.** In a run of calls every state has intact lists
exactly when no `stream_disconnect` takes out the first or the last connection of a list; and as
long as this is so every call returns. -/
theorem producer_list_intact_iff (h : WiringRun buffer tr w) :
    ((Intact w ∧ ∀ x ∈ tr, Intact x.pre ∧ Intact x.post) ↔ ∀ x ∈ tr, x.label.Inner x.pre) ∧
    ((∀ x ∈ tr, x.label.Inner x.pre) → ∀ call, ∃ w', WireStep w call w') := by
  refine ⟨?_, ?_⟩
  · refine h.forall_iff (I := Wiring.Inv) (C := fun w call => call.Inner w) Inv.init ?_ ?_ ?_
    · exact fun w hw => hw.intact
    · exact fun w call w' hw hcall hs => hw.step hcall hs
    · exact fun w call w' hw hs hint => hw.inner_of_intact hs hint
  · intro hinner
    have hinv : w.Inv := (h.inv_where Inv.init (C := fun w call => call.Inner w)
      (fun w call w' hw hcall hs => hw.step hcall hs) hinner).1
    exact hinv.returns

/-- Three connections of one consumer, the second of which is taken out again. -/
theorem producer_list_intact_iff_middle : ∃ tr, ∃ w : Wiring (Fin 4) Nat,
    WiringRun (fun _ _ => 0) tr w ∧ tr.map (·.label) =
      [.connect 0 1, .connect 0 2, .connect 0 3, .disconnect 0 2] ∧ Intact w := by
  have hrun : @WiringRun (Fin 4) Nat _ (fun _ _ => 0) _ _ :=
    (((Run.nil.snoc (@WireStep.connect _ _ _ _ 0 1 _ rfl)).snoc
      (@WireStep.connect _ _ _ _ 0 2 _ rfl)).snoc (@WireStep.connect _ _ _ _ 0 3 _ rfl)).snoc
      (@WireStep.disconnect _ _ _ _ 0 2 _ 2 rfl)
  refine ⟨_, _, hrun, rfl, ((producer_list_intact_iff hrun).1.2 ?_).1⟩
  simp only [List.nil_append, List.cons_append, List.forall_mem_cons]
  exact ⟨trivial, trivial, trivial, by decide, nofun⟩

/-- After the only connection of a stream was taken out again `prod_head` points to its block. -/
theorem sole_disconnected : ¬ ∀ (tr : List (Step (Wiring (Fin 2) Nat) (WireCall (Fin 2))))
    (w : Wiring (Fin 2) Nat), WiringRun (fun _ _ => 0) tr w → Intact w := by
  intro h
  have hrun : @WiringRun (Fin 2) Nat _ (fun _ _ => 0) _ _ :=
    (Run.nil.snoc (@WireStep.connect _ _ _ _ 0 1 _ rfl)).snoc
      (@WireStep.disconnect _ _ _ _ 0 1 _ 1 rfl)
  have hhead := ((h _ _ hrun).list 0).head
  exact absurd hhead (by decide)

end Eece4029
