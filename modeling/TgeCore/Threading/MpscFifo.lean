import TgeCore.Threading.MpscQueue

namespace TgeCore.Threading
open Library

variable {A T V : Type} {s s' : CMpscQueue A T V} {front : A} {chain chain' hand : List (Queued A T V)}

/-- Dequeue stays where it is while the nodes it has read stay as they are. -/
theorem CMpscQueue.Consuming.frame (hc : s.Consuming front chain hand)
    (hconsumer : s'.consumer = s.consumer) (htail : s'.tail = s.tail)
    (hnext : ∀ next, s.nextOf front = some (some next) → s'.nextOf front = some (some next))
    (hretired : ∀ node, s.Retired front chain node → s'.Retired front chain' node) :
    s'.Consuming front chain' hand := by
  unfold CMpscQueue.Consuming at hc ⊢
  rw [hconsumer, htail]
  cases hpc : s.consumer with
  | out => simpa [hpc] using hc
  | called => simpa [hpc] using hc
  | loadedTail tail => simpa [hpc] using hc
  | loadedNext tail next =>
    rw [hpc] at hc
    exact ⟨hc.1, hc.2.1, hc.2.2.1, hnext next hc.2.2.2⟩
  | moved tail next output =>
    rw [hpc] at hc
    exact ⟨hc.1, hc.2.1, hretired tail hc.2.2⟩
  | stored tail output =>
    rw [hpc] at hc
    exact ⟨hc.1, hc.2.1, hretired tail hc.2.2⟩

/-- What an exchange, a Dequeue and a step that shows nothing do to what is queued.
Dequeue finds nothing only if nothing is there or the oldest entry is not linked yet. -/
def Effect (s : CMpscQueue A T V) (chain hand chain' hand' : List (Queued A T V)) :
    QueueSeen T V → Prop
  | .nothing => hand' ++ chain' = hand ++ chain
  | .exchanged thread input => ∃ node, hand' = hand ∧ chain' = chain ++ [⟨node, thread, input⟩]
  | .dequeued output => ∃ e, hand = [e] ∧ output = some e.input ∧ hand' = [] ∧ chain' = chain
  | .empty => hand = [] ∧ hand' = [] ∧ chain' = chain ∧ (chain = [] ∨ ∃ e rest a, chain = e :: rest ∧
      s.producer e.thread = .exchanged a e.node ∧ ∀ f ∈ rest, f.thread ≠ e.thread)

/-- The load of a null successor: nothing is there, or the oldest entry is not linked yet. -/
theorem CMpscQueue.Chained.unlinked (h : s.Chained front chain) (hnext : s.nextOf front = some none) :
    chain = [] ∨ ∃ e rest a, chain = e :: rest ∧ s.producer e.thread = .exchanged a e.node ∧
      ∀ f ∈ rest, f.thread ≠ e.thread := by
  cases hchain : chain with
  | nil => exact .inl rfl
  | cons e rest =>
    subst hchain
    cases h.joined front e List.mem_cons_self with
    | inl hlinked =>
      rw [hnext] at hlinked
      cases hlinked
    | inr hopen =>
      exact .inr ⟨e, rest, front, rfl, hopen.2,
        h.latest e.thread front e.node hopen.2 [] e rest rfl rfl⟩

/-- A node that a linked pointer leads to holds the oldest value. -/
theorem CMpscQueue.Chained.linked {next : A} (h : s.Chained front chain)
    (hnext : s.nextOf front = some (some next)) :
    ∃ e rest n, chain = e :: rest ∧ e.node = next ∧ s.nodes next = some n ∧ n.data = some e.input := by
  cases hchain : chain with
  | nil =>
    subst hchain
    have hended := h.ended
    rw [h.head] at hended
    exact absurd (hnext.symm.trans hended) (by simp)
  | cons e rest =>
    subst hchain
    have hnode : e.node = next := by
      cases h.joined front e List.mem_cons_self with
      | inl hlinked => simpa [hnext] using hlinked.symm
      | inr hopen => exact absurd (hnext.symm.trans hopen.1) (by simp)
    obtain ⟨n, hn, hdata⟩ := Option.map_eq_some_iff.mp (h.values e List.mem_cons_self)
    exact ⟨e, rest, n, rfl, hnode, hnode ▸ hn, hdata⟩

variable [DecidableEq A] [DecidableEq T] {m : QueueMove A T V} {out : QueueSeen T V}

theorem step_enqueue (h : s.Chained front chain) (hc : s.Consuming front chain hand) {thread : T}
    {input : V} {node : A} (hst : s.step (.enqueue thread input node) = some (s', out)) :
    s'.Chained front chain ∧ s'.Consuming front chain hand ∧ out = .nothing := by
  simp only [CMpscQueue.step] at hst
  split at hst
  · rename_i hout hfresh
    cases hst
    have hlist : node ∉ front :: chain.map Queued.node := by
      intro hmem
      obtain ⟨n, hn⟩ := h.exists_node hmem
      rw [hfresh] at hn
      cases hn
    refine ⟨h.keep (by simp [hout]) rfl hlist fun u v _ hown => ?_, ?_, rfl⟩
    · have hn := (h.made u node v hown).1
      rw [hfresh] at hn
      cases hn
    · have hfront : front ≠ node := fun he => hlist (he ▸ List.mem_cons_self)
      refine hc.frame rfl rfl (fun next hnext => ?_) fun retired hr => ?_
      · exact (CMpscQueue.nextOf_write_of_ne _ _ hfront).trans hnext
      · obtain ⟨n, hn⟩ := hr.allocated
        have hne : retired ≠ node := by
          rintro rfl
          rw [hfresh] at hn
          cases hn
        refine ⟨⟨n, (Function.update_of_ne hne _ _).trans hn⟩, hr.out, fun t v ht => ?_⟩
        by_cases hself : t = thread
        · subst hself
          simp only [CMpscQueue.write, CMpscQueue.at, Function.update_self] at ht
          cases ht
          exact hne rfl
        · exact hr.shared t v (by simpa [CMpscQueue.write, CMpscQueue.at, hself] using ht)
  · cases hst

omit [DecidableEq T] in
/-- A node that Dequeue has not deleted yet survives what is written elsewhere or into it. -/
theorem CMpscQueue.Retired.written {node : A} (hr : s.Retired front chain node) (a : A)
    (content : SBufferNode A V) : ∃ n, (s.write a (some content)).nodes node = some n := by
  by_cases ha : node = a
  · subst ha
    exact ⟨content, Function.update_self ..⟩
  · obtain ⟨n, hn⟩ := hr.allocated
    exact ⟨n, (Function.update_of_ne ha _ _).trans hn⟩

theorem step_made (h : s.Chained front chain) (hc : s.Consuming front chain hand) {thread : T}
    {node : A} {input : V} (hpc : s.producer thread = .made node input)
    (hst : s.produce thread = some (s', out)) :
    s'.Chained front chain ∧ s'.Consuming front chain hand ∧ out = .nothing := by
  have hown : (s.producer thread).privateNode = some (node, input) := by rw [hpc]; rfl
  obtain ⟨hnode, hlist⟩ := h.made thread node input hown
  simp only [CMpscQueue.produce, hpc, hnode, Option.map_some, Option.some.injEq, Prod.mk.injEq] at hst
  obtain ⟨rfl, rfl⟩ := hst
  have hfront : front ≠ node := fun he => hlist (he ▸ List.mem_cons_self)
  refine ⟨h.keep (by simp [hpc]) rfl hlist fun u v hu hv => ?_, ?_, rfl⟩
  · exact hu (h.alone u thread node v input hv hown)
  · refine hc.frame rfl rfl (fun next hnext => ?_) fun retired hr => ?_
    · exact (CMpscQueue.nextOf_write_of_ne _ _ hfront).trans hnext
    · refine ⟨hr.written node _, hr.out, fun t v ht => ?_⟩
      by_cases hself : t = thread
      · subst hself
        simp only [CMpscQueue.write, CMpscQueue.at, Function.update_self] at ht
        cases ht
        exact hr.shared t input hown
      · exact hr.shared t v (by simpa [CMpscQueue.write, CMpscQueue.at, hself] using ht)

theorem step_cleared (h : s.Chained front chain) (hc : s.Consuming front chain hand) {thread : T}
    {node : A} {input : V} (hpc : s.producer thread = .cleared node input)
    (hst : s.produce thread = some (s', out)) :
    s'.Chained front (chain ++ [⟨node, thread, input⟩]) ∧
      s'.Consuming front (chain ++ [⟨node, thread, input⟩]) hand ∧ out = .exchanged thread input := by
  simp only [CMpscQueue.produce, hpc, Option.some.injEq, Prod.mk.injEq] at hst
  obtain ⟨rfl, rfl⟩ := hst
  refine ⟨h.exchange hpc, ?_, rfl⟩
  refine hc.frame rfl rfl (fun next hnext => hnext) fun retired hr => ⟨hr.allocated, ?_, fun t v ht => ?_⟩
  · rw [List.map_append, ← List.cons_append, List.mem_append, not_or]
    refine ⟨hr.out, fun hsame => ?_⟩
    obtain rfl := List.mem_singleton.mp hsame
    exact hr.shared thread input (by rw [hpc]; rfl)
  · exact hr.shared t v (private_update rfl ht).2

theorem step_exchanged (h : s.Chained front chain) (hc : s.Consuming front chain hand) {thread : T}
    {prevHead node : A} (hpc : s.producer thread = .exchanged prevHead node)
    (hst : s.produce thread = some (s', out)) :
    s'.Chained front chain ∧ s'.Consuming front chain hand ∧ out = .nothing := by
  obtain ⟨hopen, -⟩ := h.linking thread prevHead node hpc
  obtain ⟨n, hn, -⟩ := Option.map_eq_some_iff.mp hopen
  simp only [CMpscQueue.produce, hpc, hn, Option.map_some, Option.some.injEq, Prod.mk.injEq] at hst
  obtain ⟨rfl, rfl⟩ := hst
  refine ⟨h.link hpc hn, ?_, rfl⟩
  refine hc.frame rfl rfl (fun next hnext => ?_) fun retired hr => ?_
  · have hfront : front ≠ prevHead := by
      rintro rfl
      rw [hopen] at hnext
      cases hnext
    exact (CMpscQueue.nextOf_write_of_ne _ _ hfront).trans hnext
  · exact ⟨hr.written prevHead _, hr.out, fun t v ht => hr.shared t v (private_update rfl ht).2⟩

/-- One step of a thread's Enqueue. -/
theorem step_produce (h : s.Chained front chain) (hc : s.Consuming front chain hand) {thread : T}
    (hst : s.produce thread = some (s', out)) :
    ∃ chain', s'.Chained front chain' ∧ s'.Consuming front chain' hand ∧
      Effect s chain hand chain' hand out := by
  cases hpc : s.producer thread with
  | out =>
    simp only [CMpscQueue.produce, hpc] at hst
    cases hst
  | made node input =>
    obtain ⟨h', hc', rfl⟩ := step_made h hc hpc hst
    exact ⟨chain, h', hc', rfl⟩
  | cleared node input =>
    obtain ⟨h', hc', rfl⟩ := step_cleared h hc hpc hst
    exact ⟨_, h', hc', node, rfl, rfl⟩
  | exchanged prevHead node =>
    obtain ⟨h', hc', rfl⟩ := step_exchanged h hc hpc hst
    exact ⟨chain, h', hc', rfl⟩

omit [DecidableEq T] in
/-- The load of the front's successor in Dequeue. -/
theorem step_loadedTail (h : s.Chained front chain) (hc : s.Consuming front chain hand) {tail : A}
    (hpc : s.consumer = .loadedTail tail) (hst : s.consume = some (s', out)) :
    s'.Chained front chain ∧ s'.Consuming front chain hand ∧ Effect s chain hand chain hand out := by
  simp only [CMpscQueue.Consuming, hpc] at hc
  obtain ⟨htail, rfl, rfl⟩ := hc
  obtain ⟨n, hn⟩ := h.exists_node List.mem_cons_self
  have hnext : s.nextOf tail = some n.next := by simp [CMpscQueue.nextOf, hn]
  simp only [CMpscQueue.consume, hpc, hn, Option.map_some, Option.some.injEq] at hst
  cases hcase : n.next with
  | none =>
    rw [hcase] at hst hnext
    obtain ⟨rfl, rfl⟩ := Prod.mk.inj hst
    exact ⟨h.consumer s.tail .out, ⟨htail, rfl⟩, rfl, rfl, rfl, h.unlinked hnext⟩
  | some next =>
    rw [hcase] at hst hnext
    obtain ⟨rfl, rfl⟩ := Prod.mk.inj hst
    exact ⟨h.consumer s.tail (.loadedNext tail next), ⟨htail, rfl, rfl, hnext⟩, rfl⟩

omit [DecidableEq T] in
/-- Taking the value behind the front. The front before is left to be deleted. -/
theorem step_loadedNext (h : s.Chained front chain) (hc : s.Consuming front chain hand) {tail next : A}
    (hpc : s.consumer = .loadedNext tail next) (hst : s.consume = some (s', out)) :
    ∃ e rest, chain = e :: rest ∧ hand = [] ∧ s'.Chained e.node rest ∧
      s'.Consuming e.node rest [e] ∧ out = .nothing := by
  simp only [CMpscQueue.Consuming, hpc] at hc
  obtain ⟨htail, rfl, rfl, hnext⟩ := hc
  obtain ⟨e, rest, n, rfl, rfl, hn, hdata⟩ := h.linked hnext
  simp only [CMpscQueue.consume, hpc, hn, Option.map_some, Option.some.injEq, Prod.mk.injEq] at hst
  obtain ⟨rfl, rfl⟩ := hst
  refine ⟨e, rest, rfl, rfl, ?_, ⟨rfl, ⟨e, rfl, hdata⟩, ?_⟩, rfl⟩
  · exact (h.take hnext hn).consumer s.tail (.moved tail e.node n.data)
  · obtain ⟨hfront, -⟩ := List.nodup_cons.mp h.nodup
    obtain ⟨k, hk⟩ := h.exists_node (a := tail) List.mem_cons_self
    have hne : tail ≠ e.node := fun he => hfront (he ▸ List.mem_cons_self)
    refine ⟨⟨k, (Function.update_of_ne hne _ _).trans hk⟩, hfront, fun t v ht => ?_⟩
    exact (h.made t tail v ht).2 List.mem_cons_self

omit [DecidableEq T] in
/-- One step of Dequeue. -/
theorem step_consume (h : s.Chained front chain) (hc : s.Consuming front chain hand)
    (hst : s.consume = some (s', out)) :
    ∃ front' chain' hand', s'.Chained front' chain' ∧ s'.Consuming front' chain' hand' ∧
      Effect s chain hand chain' hand' out := by
  cases hpc : s.consumer with
  | out =>
    simp only [CMpscQueue.consume, hpc] at hst
    cases hst
  | called =>
    simp only [CMpscQueue.consume, hpc, Option.some.injEq, Prod.mk.injEq] at hst
    simp only [CMpscQueue.Consuming, hpc] at hc
    obtain ⟨rfl, rfl⟩ := hst
    exact ⟨front, chain, hand, h.consumer _ _, ⟨hc.1, hc.2, hc.1⟩, rfl⟩
  | loadedTail tail =>
    obtain ⟨h', hc', heffect⟩ := step_loadedTail h hc hpc hst
    exact ⟨front, chain, hand, h', hc', heffect⟩
  | loadedNext tail next =>
    obtain ⟨e, rest, rfl, rfl, h', hc', rfl⟩ := step_loadedNext h hc hpc hst
    exact ⟨e.node, rest, [e], h', hc', rfl⟩
  | moved tail next output =>
    simp only [CMpscQueue.consume, hpc, Option.some.injEq, Prod.mk.injEq] at hst
    simp only [CMpscQueue.Consuming, hpc] at hc
    obtain ⟨rfl, rfl⟩ := hst
    obtain ⟨hnext, hhand, hr⟩ := hc
    exact ⟨front, chain, hand, h.consumer _ _, ⟨hnext, hhand, hr.allocated, hr.out, hr.shared⟩, rfl⟩
  | stored tail output =>
    simp only [CMpscQueue.Consuming, hpc] at hc
    obtain ⟨htail, ⟨e, rfl, houtput⟩, hr⟩ := hc
    obtain ⟨n, hn⟩ := hr.allocated
    simp only [CMpscQueue.consume, hpc, hn, Option.map_some, Option.some.injEq, Prod.mk.injEq] at hst
    obtain ⟨rfl, rfl⟩ := hst
    exact ⟨front, chain, [], (h.delete hr).consumer _ _, ⟨htail, rfl⟩, e, rfl, houtput, rfl, rfl⟩

/-- One step of any thread. -/
theorem step_queue (h : s.Chained front chain) (hc : s.Consuming front chain hand)
    (hst : s.step m = some (s', out)) :
    ∃ front' chain' hand', s'.Chained front' chain' ∧ s'.Consuming front' chain' hand' ∧
      Effect s chain hand chain' hand' out := by
  cases m with
  | enqueue thread input node =>
    obtain ⟨h', hc', rfl⟩ := step_enqueue h hc hst
    exact ⟨front, chain, hand, h', hc', rfl⟩
  | produce thread =>
    obtain ⟨chain', h', hc', heffect⟩ := step_produce h hc hst
    exact ⟨front, chain', hand, h', hc', heffect⟩
  | dequeue =>
    simp only [CMpscQueue.step] at hst
    split at hst
    · rename_i hpc
      cases hst
      simp only [CMpscQueue.Consuming, hpc] at hc
      exact ⟨front, chain, hand, h.consumer _ _, hc, rfl⟩
    · cases hst
  | consume => exact step_consume h hc hst

omit [DecidableEq T] in
theorem chained_create (front : A) :
    (CMpscQueue.create front : CMpscQueue A T V).Chained front [] ∧
      (CMpscQueue.create front : CMpscQueue A T V).Consuming front [] [] := by
  refine ⟨⟨List.nodup_singleton _, rfl, ?_, by simp [pairs], by simp [CMpscQueue.create], by simp,
    by simp, ?_, ?_⟩, rfl, rfl⟩
  · simp [CMpscQueue.create, CMpscQueue.nextOf]
  · simp [CMpscQueue.create, EnqueueAt.privateNode]
  · simp [CMpscQueue.create, EnqueueAt.privateNode]

/-- A call in progress can always go on: it touches no node that is deleted. -/
theorem queue_goesOn (h : s.Chained front chain) (hc : s.Consuming front chain hand) :
    (∀ t, s.producer t ≠ .out → (s.produce t).isSome = true) ∧
      (s.consumer ≠ .out → s.consume.isSome = true) := by
  refine ⟨fun t hin => ?_, fun hin => ?_⟩
  · cases hpc : s.producer t with
    | out => exact absurd hpc hin
    | made node input =>
      have hn := (h.made t node input (by rw [hpc]; rfl)).1
      simp [CMpscQueue.produce, hpc, hn]
    | cleared node input => simp [CMpscQueue.produce, hpc]
    | exchanged prevHead node =>
      obtain ⟨n, hn, -⟩ := Option.map_eq_some_iff.mp (h.linking t prevHead node hpc).1
      simp [CMpscQueue.produce, hpc, hn]
  · cases hpc : s.consumer with
    | out => exact absurd hpc hin
    | called => simp [CMpscQueue.consume, hpc]
    | loadedTail tail =>
      simp only [CMpscQueue.Consuming, hpc] at hc
      obtain ⟨n, hn⟩ := h.exists_node (a := tail) (hc.2.2 ▸ List.mem_cons_self)
      simp [CMpscQueue.consume, hpc, hn]
    | loadedNext tail next =>
      simp only [CMpscQueue.Consuming, hpc] at hc
      obtain ⟨e, rest, n, -, -, hn, -⟩ := h.linked hc.2.2.2
      simp [CMpscQueue.consume, hpc, hn]
    | moved tail next output => simp [CMpscQueue.consume, hpc]
    | stored tail output =>
      simp only [CMpscQueue.Consuming, hpc] at hc
      obtain ⟨n, hn⟩ := hc.2.2.allocated
      simp [CMpscQueue.consume, hpc, hn]

section History

def exchanges (os : List (QueueSeen T V)) : List (T × V) :=
  os.filterMap fun
    | .exchanged thread input => some (thread, input)
    | _ => none

def dequeues (os : List (QueueSeen T V)) : List (Option V) :=
  os.filterMap fun
    | .dequeued output => some output
    | _ => none

/-- The values of a thread's calls of Enqueue. -/
def enqueuedBy (thread : T) (ms : List (QueueMove A T V)) : List V :=
  ms.filterMap fun
    | .enqueue t input _ => if t = thread then some input else none
    | _ => none

def exchangedBy (thread : T) (os : List (QueueSeen T V)) : List V :=
  (exchanges os).filterMap fun p => if p.1 = thread then some p.2 else none

/-- The value of an Enqueue that is before its exchange. -/
def EnqueueAt.waiting : EnqueueAt A V → List V
  | .made _ input => [input]
  | .cleared _ input => [input]
  | _ => []

def CMpscQueue.Linking (s : CMpscQueue A T V) (thread : T) : Prop :=
  ∃ a b, s.producer thread = .exchanged a b

/-- A Dequeue that finds a value, from its call to its return. -/
def dequeueCall : List (QueueMove A T V) :=
  [.dequeue, .consume, .consume, .consume, .consume, .consume]

/-- Dequeue calls, as many as find values and one that does not. -/
def drainCalls (count : Nat) : List (QueueMove A T V) :=
  (List.replicate count dequeueCall).flatten ++ [.dequeue, .consume, .consume]

/-- What the queue has taken in and given out up to a state of a run. -/
structure Fifo (ms : List (QueueMove A T V)) (os : List (QueueSeen T V)) (s : CMpscQueue A T V) :
    Prop where
  order : dequeues os <+: (exchanges os).map fun p => some p.2
  own : ∀ t, enqueuedBy t ms = exchangedBy t os ++ (s.producer t).waiting
  empty : ∀ m s', s.step m = some (s', .empty) → (dequeues os).length = (exchanges os).length ∨
    ∃ t v, (exchanges os)[(dequeues os).length]? = some (t, v) ∧ s.Linking t ∧
      ∀ p ∈ (exchanges os).drop ((dequeues os).length + 1), p.1 ≠ t
  drains : (∀ t, ¬ s.Linking t) → s.consumer = .out → ∃ s' os',
    (mpscQueue A T V).run s (drainCalls ((exchanges os).length - (dequeues os).length)) =
      some (s', os') ∧
    dequeues os' = ((exchanges os).drop (dequeues os).length).map (fun p => some p.2) ∧
    os'.getLast? = some .empty
  goesOn : (∀ t, s.producer t ≠ .out → (s.produce t).isSome = true) ∧
    (s.consumer ≠ .out → s.consume.isSome = true)

/-- Where the exchanged values are: given out, in the hands of Dequeue, or in the list. -/
def Traced (os : List (QueueSeen T V)) (s : CMpscQueue A T V) : Prop :=
  ∃ front chain hand given, s.Chained front chain ∧ s.Consuming front chain hand ∧
    exchanges os = given ++ (hand ++ chain).map (fun e => (e.thread, e.input)) ∧
    dequeues os = given.map fun p => some p.2

theorem Traced.step {os : List (QueueSeen T V)} (h : Traced os s) (hst : s.step m = some (s', out)) :
    Traced (os ++ [out]) s' := by
  obtain ⟨front, chain, hand, given, hchain, hc, hin, hout⟩ := h
  obtain ⟨front', chain', hand', hchain', hc', heffect⟩ := step_queue hchain hc hst
  simp only [Traced, exchanges, dequeues, List.filterMap_append] at hin hout ⊢
  rw [hin, hout]
  cases out with
  | nothing =>
    refine ⟨front', chain', hand', given, hchain', hc', ?_, by simp⟩
    have hsame : hand' ++ chain' = hand ++ chain := heffect
    simp [hsame]
  | exchanged thread input =>
    obtain ⟨node, rfl, rfl⟩ := heffect
    exact ⟨front', _, hand', given, hchain', hc', by simp, by simp⟩
  | dequeued output =>
    obtain ⟨e, rfl, rfl, rfl, rfl⟩ := heffect
    exact ⟨front', chain', [], given ++ [(e.thread, e.input)], hchain', hc', by simp, by simp⟩
  | empty =>
    obtain ⟨rfl, rfl, rfl, -⟩ := heffect
    exact ⟨front', chain', [], given, hchain', hc', by simp, by simp⟩

omit [DecidableEq T] in
theorem consume_frame (hst : s.consume = some (s', out)) :
    s'.producer = s.producer ∧ exchanges [out] = [] := by
  cases hpc : s.consumer with
  | out =>
    simp only [CMpscQueue.consume, hpc] at hst
    cases hst
  | called =>
    simp only [CMpscQueue.consume, hpc] at hst
    cases hst
    exact ⟨rfl, rfl⟩
  | loadedTail tail =>
    simp only [CMpscQueue.consume, hpc, Option.map_eq_some_iff] at hst
    obtain ⟨n, -, hst⟩ := hst
    split at hst
    · cases hst
      exact ⟨rfl, rfl⟩
    · cases hst
      exact ⟨rfl, rfl⟩
  | loadedNext tail next =>
    simp only [CMpscQueue.consume, hpc, Option.map_eq_some_iff] at hst
    obtain ⟨n, -, hst⟩ := hst
    cases hst
    exact ⟨rfl, rfl⟩
  | moved tail next output =>
    simp only [CMpscQueue.consume, hpc] at hst
    cases hst
    exact ⟨rfl, rfl⟩
  | stored tail output =>
    simp only [CMpscQueue.consume, hpc, Option.map_eq_some_iff] at hst
    obtain ⟨n, -, hst⟩ := hst
    cases hst
    exact ⟨rfl, rfl⟩

/-- An Enqueue moves its own thread only, and leaves Dequeue where it is. -/
theorem produce_frame {thread : T} (hst : s.produce thread = some (s', out)) :
    s'.consumer = s.consumer ∧ ∀ t, t ≠ thread → s'.producer t = s.producer t ∧ exchangedBy t [out] = [] := by
  cases hpc : s.producer thread with
  | out =>
    simp only [CMpscQueue.produce, hpc] at hst
    cases hst
  | made node input =>
    simp only [CMpscQueue.produce, hpc, Option.map_eq_some_iff] at hst
    obtain ⟨n, -, hst⟩ := hst
    cases hst
    exact ⟨rfl, fun t ht => ⟨Function.update_of_ne ht _ _, rfl⟩⟩
  | cleared node input =>
    simp only [CMpscQueue.produce, hpc] at hst
    cases hst
    refine ⟨rfl, fun t ht => ⟨Function.update_of_ne ht _ _, ?_⟩⟩
    simp [exchangedBy, exchanges, Ne.symm ht]
  | exchanged prevHead node =>
    simp only [CMpscQueue.produce, hpc, Option.map_eq_some_iff] at hst
    obtain ⟨n, -, hst⟩ := hst
    cases hst
    exact ⟨rfl, fun t ht => ⟨Function.update_of_ne ht _ _, rfl⟩⟩

omit [DecidableEq A] in
theorem exchangedBy_append (t : T) (os : List (QueueSeen T V)) (out : QueueSeen T V) :
    exchangedBy t (os ++ [out]) = exchangedBy t os ++ exchangedBy t [out] := by
  simp [exchangedBy, exchanges]

/-- What an Enqueue has not exchanged yet, and what a step of it exchanges. -/
theorem produce_waiting {thread : T} (hst : s.produce thread = some (s', out)) (t : T) :
    (s.producer t).waiting = exchangedBy t [out] ++ (s'.producer t).waiting := by
  by_cases ht : t = thread
  · subst ht
    cases hpc : s.producer t with
    | out =>
      simp only [CMpscQueue.produce, hpc] at hst
      cases hst
    | made node input =>
      simp only [CMpscQueue.produce, hpc, Option.map_eq_some_iff] at hst
      obtain ⟨n, -, hst⟩ := hst
      cases hst
      simp [CMpscQueue.write, CMpscQueue.at, EnqueueAt.waiting, exchangedBy, exchanges]
    | cleared node input =>
      simp only [CMpscQueue.produce, hpc] at hst
      cases hst
      simp [CMpscQueue.at, EnqueueAt.waiting, exchangedBy, exchanges]
    | exchanged prevHead node =>
      simp only [CMpscQueue.produce, hpc, Option.map_eq_some_iff] at hst
      obtain ⟨n, -, hst⟩ := hst
      cases hst
      simp [CMpscQueue.write, CMpscQueue.at, EnqueueAt.waiting, exchangedBy, exchanges]
  · have hframe := (produce_frame hst).2 t ht
    rw [hframe.1, hframe.2, List.nil_append]

/-- A thread's own values come in the order of its calls. -/
theorem own_step {ms : List (QueueMove A T V)} {os : List (QueueSeen T V)}
    (h : ∀ t, enqueuedBy t ms = exchangedBy t os ++ (s.producer t).waiting)
    (hst : s.step m = some (s', out)) (t : T) :
    enqueuedBy t (ms ++ [m]) = exchangedBy t (os ++ [out]) ++ (s'.producer t).waiting := by
  have hcalls : enqueuedBy t (ms ++ [m]) = enqueuedBy t ms ++ enqueuedBy t [m] := by
    simp [enqueuedBy]
  rw [hcalls, h t, exchangedBy_append, List.append_assoc, List.append_assoc]
  congr 1
  cases m with
  | enqueue thread input node =>
    simp only [CMpscQueue.step] at hst
    split at hst
    · rename_i hout _
      cases hst
      by_cases ht : t = thread
      · subst ht
        simp [CMpscQueue.write, CMpscQueue.at, hout, EnqueueAt.waiting, enqueuedBy, exchangedBy, exchanges]
      · simp [CMpscQueue.write, CMpscQueue.at, ht, Ne.symm ht, enqueuedBy, exchangedBy, exchanges]
    · cases hst
  | produce thread =>
    rw [produce_waiting hst t]
    exact List.append_nil _
  | dequeue =>
    simp only [CMpscQueue.step] at hst
    split at hst
    · cases hst
      simp [enqueuedBy, exchangedBy, exchanges]
    · cases hst
  | consume =>
    obtain ⟨hproducer, hnone⟩ := consume_frame hst
    simp [hproducer, exchangedBy, hnone, enqueuedBy]

/-- One whole Dequeue call on a linked list. -/
theorem dequeue_call {e : Queued A T V} (h : s.Chained front (e :: chain)) (htail : s.tail = front)
    (hpc : s.consumer = .out) (hlinked : s.nextOf front = some (some e.node)) :
    ∃ s', (mpscQueue A T V).run s dequeueCall = some (s', [.nothing, .nothing, .nothing, .nothing,
        .nothing, .dequeued (some e.input)]) ∧
      s'.Chained e.node chain ∧ s'.tail = e.node ∧ s'.consumer = .out ∧ s'.producer = s.producer := by
  obtain ⟨e', rest, n, hchain, -, hn, hdata⟩ := h.linked hlinked
  cases hchain
  obtain ⟨n₀, hn₀, hnext⟩ := Option.map_eq_some_iff.mp hlinked
  obtain ⟨hfront, -⟩ := List.nodup_cons.mp h.nodup
  have hne : front ≠ e.node := fun he => hfront (he ▸ List.mem_cons_self)
  have hkept : (s.write e.node (some { n with data := none })).nodes front = some n₀ :=
    (Function.update_of_ne hne _ _).trans hn₀
  have htaken := h.take hlinked hn
  have hretired : (s.write e.node (some { n with data := none })).Retired e.node chain front :=
    ⟨⟨n₀, hkept⟩, hfront, fun t v ht => (h.made t front v ht).2 List.mem_cons_self⟩
  refine ⟨_, ?_, (htaken.delete hretired).consumer e.node .out, rfl, rfl, rfl⟩
  simp only [CMpscQueue.write] at hkept
  simp [Machine.run, mpscQueue, dequeueCall, CMpscQueue.step, CMpscQueue.consume, CMpscQueue.write, hpc,
    htail, hn₀, hnext, hn, hdata, hkept]

/-- A Dequeue call on an empty list. -/
theorem dequeue_none (h : s.Chained front []) (htail : s.tail = front) (hpc : s.consumer = .out) :
    ∃ s', (mpscQueue A T V).run s [.dequeue, .consume, .consume] =
      some (s', [.nothing, .nothing, .empty]) := by
  have hended := h.ended
  rw [h.head] at hended
  obtain ⟨n, hn, hnext⟩ := Option.map_eq_some_iff.mp hended
  have hnode : s.nodes front = some n := hn
  refine ⟨{ s with consumer := .out }, ?_⟩
  simp [Machine.run, mpscQueue, CMpscQueue.step, CMpscQueue.consume, hpc, htail, hnode, hnext]

/-- While no Enqueue is between its exchange and its link store, Dequeue calls give
out all the list holds, in its order. -/
theorem drain_all (h : s.Chained front chain) (htail : s.tail = front) (hpc : s.consumer = .out)
    (hlinked : ∀ t, ¬ s.Linking t) : ∃ s' os, (mpscQueue A T V).run s (drainCalls chain.length) =
      some (s', os) ∧ dequeues os = chain.map (fun e => some e.input) ∧ os.getLast? = some .empty := by
  induction chain generalizing s front with
  | nil =>
    obtain ⟨s', hrun⟩ := dequeue_none h htail hpc
    exact ⟨s', _, hrun, rfl, rfl⟩
  | cons e rest ih =>
    have hnext : s.nextOf front = some (some e.node) := by
      cases h.joined front e List.mem_cons_self with
      | inl hjoined => exact hjoined
      | inr hopen => exact absurd ⟨front, e.node, hopen.2⟩ (hlinked e.thread)
    obtain ⟨s₁, hrun, hchained, htail₁, hpc₁, hproducer⟩ := dequeue_call h htail hpc hnext
    have hlinked₁ : ∀ t, ¬ s₁.Linking t := by
      intro t ht
      rw [CMpscQueue.Linking, hproducer] at ht
      exact hlinked t ht
    obtain ⟨s', os, hrest, hos, hlast⟩ := ih hchained htail₁ hpc₁ hlinked₁
    have hcalls : (drainCalls (rest.length + 1) : List (QueueMove A T V)) =
        dequeueCall ++ drainCalls rest.length := by
      simp [drainCalls, List.replicate_succ]
    have hboth := Machine.run_append hrun hrest
    rw [← hcalls] at hboth
    refine ⟨s', _, hboth, ?_, ?_⟩
    · simpa [dequeues] using hos
    · rw [List.getLast?_append, hlast]
      rfl

theorem traced_fifo {ms : List (QueueMove A T V)} {os : List (QueueSeen T V)} (h : Traced os s)
    (hown : ∀ t, enqueuedBy t ms = exchangedBy t os ++ (s.producer t).waiting) : Fifo ms os s := by
  obtain ⟨front, chain, hand, given, hchain, hc, hin, hout⟩ := h
  have hlength : (dequeues os).length = given.length := by rw [hout, List.length_map]
  refine ⟨?_, hown, fun m s' hst => ?_, fun hlinked hpc => ?_, queue_goesOn hchain hc⟩
  · rw [hout, hin, List.map_append]
    exact List.prefix_append _ _
  · obtain ⟨front', chain', hand', -, -, heffect⟩ := step_queue hchain hc hst
    obtain ⟨rfl, -, -, hnone⟩ := heffect
    rw [hlength, hin]
    cases hnone with
    | inl hnil =>
      subst hnil
      exact .inl (by simp)
    | inr hopen =>
      obtain ⟨e, rest, a, rfl, hpc, hlater⟩ := hopen
      refine .inr ⟨e.thread, e.input, by simp, ⟨a, e.node, hpc⟩, fun p hp => ?_⟩
      simp only [List.nil_append, List.map_cons, List.drop_append, Nat.add_sub_cancel_left,
        List.drop_succ_cons, List.drop_zero] at hp
      rw [List.drop_eq_nil_of_le (by omega), List.nil_append] at hp
      obtain ⟨f, hf, rfl⟩ := List.mem_map.mp hp
      exact hlater f hf
  · simp only [CMpscQueue.Consuming, hpc] at hc
    obtain ⟨htail, rfl⟩ := hc
    obtain ⟨s', os', hrun, hgiven, hlast⟩ := drain_all hchain htail hpc hlinked
    refine ⟨s', os', ?_, ?_, hlast⟩
    · rw [hlength, hin]
      simpa using hrun
    · rw [hgiven, hlength, hin, List.drop_left]
      simp

/-- Any run of any number of producers and one consumer, from the constructor on. -/
theorem mpscQueue_fifo {front : A} {ms : List (QueueMove A T V)} {os : List (QueueSeen T V)}
    (hr : (mpscQueue A T V).run (.create front) ms = some (s, os)) : Fifo ms os s := by
  have hstart : Traced [] (.create front : CMpscQueue A T V) :=
    ⟨front, [], [], [], (chained_create front).1, (chained_create front).2, rfl, rfl⟩
  have hkept := Machine.run_invariant
    (fun ms os s => Traced os s ∧ ∀ t, enqueuedBy t ms = exchangedBy t os ++ (s.producer t).waiting)
    [] [] (fun ms os s m t o h hst => ⟨h.1.step hst, own_step h.2 hst⟩) ⟨hstart, fun _ => rfl⟩ hr
  exact traced_fifo hkept.1 hkept.2

/-- Two producers whose exchanges come in one order and whose link stores in the other. -/
def crossed : List (QueueMove Nat Bool Nat) :=
  [.enqueue true 7 1, .enqueue false 8 2, .produce true, .produce false, .produce true, .produce false,
    .produce false, .dequeue, .consume, .consume, .produce true, .dequeue, .consume, .consume, .consume,
    .consume, .consume]

theorem mpscQueue_fifo_crossed : ∃ s os, (mpscQueue Nat Bool Nat).run (.create 0) crossed = some (s, os) ∧
    os.filter (· ≠ .nothing) = [.exchanged true 7, .exchanged false 8, .empty, .dequeued (some 7)] ∧
    Fifo crossed os s := by
  have hrun : ((mpscQueue Nat Bool Nat).run (.create 0) crossed).map
      (fun r => r.2.filter (· ≠ .nothing)) =
      some [.exchanged true 7, .exchanged false 8, .empty, .dequeued (some 7)] := by decide +kernel
  obtain ⟨⟨s, os⟩, hr, hos⟩ := Option.map_eq_some_iff.mp hrun
  exact ⟨s, os, hr, hos, mpscQueue_fifo hr⟩

end History

end TgeCore.Threading
