import Mathlib.Data.List.Nodup
import TgeCore.Library.Machine
import Mathlib.Logic.Function.Basic

namespace TgeCore.Threading
open Library

/-- SBufferNode. A value that has been moved out is `none`, a null pointer too. -/
structure SBufferNode (A V : Type) where
  data : Option V
  next : Option A
deriving DecidableEq

/-- How far a thread is in Enqueue, and in the Push it ends with. -/
inductive EnqueueAt (A V : Type) where
  | out
  | made (node : A) (input : V)
  | cleared (node : A) (input : V)
  | exchanged (prevHead node : A)
deriving DecidableEq

/-- How far the consuming thread is in Dequeue. -/
inductive DequeueAt (A V : Type) where
  | out
  | called
  | loadedTail (tail : A)
  | loadedNext (tail next : A)
  | moved (tail next : A) (output : Option V)
  | stored (tail : A) (output : Option V)
deriving DecidableEq

/-- CMpscQueue with its threads. `nodes` are those that new has given out and delete
has not taken back: to touch any other one is no step at all. -/
structure CMpscQueue (A T V : Type) where
  nodes : A → Option (SBufferNode A V)
  head : A
  tail : A
  producer : T → EnqueueAt A V := fun _ => .out
  consumer : DequeueAt A V := .out

/-- A thread calls Enqueue, with a node new finds for it, or goes on in it; the
consuming thread calls Dequeue or goes on in it. -/
inductive QueueMove (A T V : Type) where
  | enqueue (thread : T) (input : V) (node : A)
  | produce (thread : T)
  | dequeue
  | consume
deriving DecidableEq

/-- What a step does that callers can tell. -/
inductive QueueSeen (T V : Type) where
  | nothing
  | exchanged (thread : T) (input : V)
  | dequeued (output : Option V)
  | empty
deriving DecidableEq

variable {A T V : Type}

section Model
variable [DecidableEq A] [DecidableEq T]

/-- The constructor, with the front node it makes. -/
def CMpscQueue.create (front : A) : CMpscQueue A T V :=
  { nodes := Function.update (fun _ => none) front (some ⟨none, none⟩), head := front, tail := front }

def CMpscQueue.nextOf (s : CMpscQueue A T V) (node : A) : Option (Option A) :=
  (s.nodes node).map SBufferNode.next

def CMpscQueue.dataOf (s : CMpscQueue A T V) (node : A) : Option (Option V) :=
  (s.nodes node).map SBufferNode.data

def CMpscQueue.at (s : CMpscQueue A T V) (thread : T) (pc : EnqueueAt A V) : CMpscQueue A T V :=
  { s with producer := Function.update s.producer thread pc }

def CMpscQueue.write (s : CMpscQueue A T V) (node : A) (content : Option (SBufferNode A V)) :
    CMpscQueue A T V :=
  { s with nodes := Function.update s.nodes node content }

/-- The next step of a thread's Enqueue. -/
def CMpscQueue.produce (s : CMpscQueue A T V) (thread : T) :
    Option (CMpscQueue A T V × QueueSeen T V) :=
  match s.producer thread with
  | .out => none
  | .made node input =>
    (s.nodes node).map fun n =>
      ((s.at thread (.cleared node input)).write node (some { n with next := none }), .nothing)
  | .cleared node input =>
    some ({ s.at thread (.exchanged s.head node) with head := node }, .exchanged thread input)
  | .exchanged prevHead node =>
    (s.nodes prevHead).map fun n =>
      ((s.at thread .out).write prevHead (some { n with next := some node }), .nothing)

/-- The next step of Dequeue. -/
def CMpscQueue.consume (s : CMpscQueue A T V) : Option (CMpscQueue A T V × QueueSeen T V) :=
  match s.consumer with
  | .out => none
  | .called => some ({ s with consumer := .loadedTail s.tail }, .nothing)
  | .loadedTail tail =>
    (s.nodes tail).map fun n =>
      match n.next with
      | none => ({ s with consumer := .out }, .empty)
      | some next => ({ s with consumer := .loadedNext tail next }, .nothing)
  | .loadedNext tail next =>
    (s.nodes next).map fun n =>
      ({ s.write next (some { n with data := none }) with consumer := .moved tail next n.data },
        .nothing)
  | .moved tail next output => some ({ s with tail := next, consumer := .stored tail output }, .nothing)
  | .stored tail output =>
    (s.nodes tail).map fun _ => ({ s.write tail none with consumer := .out }, .dequeued output)

def CMpscQueue.step (s : CMpscQueue A T V) :
    QueueMove A T V → Option (CMpscQueue A T V × QueueSeen T V)
  | .enqueue thread input node =>
    match s.producer thread, s.nodes node with
    | .out, none => some ((s.at thread (.made node input)).write node (some ⟨some input, none⟩), .nothing)
    | _, _ => none
  | .produce thread => s.produce thread
  | .dequeue =>
    match s.consumer with
    | .out => some ({ s with consumer := .called }, .nothing)
    | _ => none
  | .consume => s.consume

def mpscQueue (A T V : Type) [DecidableEq A] [DecidableEq T] :
    Machine (CMpscQueue A T V) (QueueMove A T V) (QueueSeen T V) := ⟨CMpscQueue.step⟩

end Model

/-- A value whose node is in the list, and the thread that put it there. -/
structure Queued (A T V : Type) where
  node : A
  thread : T
  input : V

/-- The nodes of the list, each with the entry that comes after it. -/
def pairs (front : A) : List (Queued A T V) → List (A × Queued A T V)
  | [] => []
  | e :: rest => (front, e) :: pairs e.node rest

def lastNode (front : A) : List (Queued A T V) → A
  | [] => front
  | e :: rest => lastNode e.node rest

section Pairs
variable {front a : A} {chain rest : List (Queued A T V)} {e f : Queued A T V}

theorem pairs_concat (front : A) (chain : List (Queued A T V)) (e : Queued A T V) :
    pairs front (chain ++ [e]) = pairs front chain ++ [(lastNode front chain, e)] := by
  induction chain generalizing front with
  | nil => rfl
  | cons f rest ih => rw [List.cons_append, pairs, ih]; rfl

theorem lastNode_concat (front : A) (chain : List (Queued A T V)) (e : Queued A T V) :
    lastNode front (chain ++ [e]) = e.node := by
  induction chain generalizing front with
  | nil => rfl
  | cons f rest ih => exact ih f.node

theorem lastNode_mem (front : A) (chain : List (Queued A T V)) :
    lastNode front chain ∈ front :: chain.map Queued.node := by
  induction chain generalizing front with
  | nil => exact List.mem_singleton.mpr rfl
  | cons f rest ih => exact List.mem_cons_of_mem _ (ih f.node)

theorem mem_of_pairs (h : (a, e) ∈ pairs front chain) :
    a ∈ front :: chain.map Queued.node ∧ e ∈ chain := by
  induction chain generalizing front with
  | nil => cases h
  | cons f rest ih =>
    cases List.mem_cons.mp h with
    | inl heq =>
      cases heq
      exact ⟨List.mem_cons_self, List.mem_cons_self⟩
    | inr hrest =>
      obtain ⟨ha, he⟩ := ih hrest
      exact ⟨List.mem_cons_of_mem _ ha, List.mem_cons_of_mem _ he⟩

theorem pairs_unique (hd : (front :: chain.map Queued.node).Nodup) (he : (a, e) ∈ pairs front chain)
    (hf : (a, f) ∈ pairs front chain) : e = f := by
  induction chain generalizing front with
  | nil => cases he
  | cons g rest ih =>
    obtain ⟨hout, hrest⟩ := List.nodup_cons.mp hd
    cases List.mem_cons.mp he with
    | inl heq =>
      cases heq
      cases List.mem_cons.mp hf with
      | inl heq => exact (Prod.mk.inj heq).2.symm
      | inr hlater => exact (hout (mem_of_pairs hlater).1).elim
    | inr hlater =>
      cases List.mem_cons.mp hf with
      | inl heq =>
        cases heq
        exact (hout (mem_of_pairs hlater).1).elim
      | inr hlater' => exact ih hrest hlater hlater'

/-- Nothing comes after the last node. -/
theorem pairs_last (hd : (front :: chain.map Queued.node).Nodup) :
    (lastNode front chain, e) ∉ pairs front chain := by
  induction chain generalizing front with
  | nil => exact List.not_mem_nil
  | cons g rest ih =>
    obtain ⟨hout, hrest⟩ := List.nodup_cons.mp hd
    intro he
    cases List.mem_cons.mp he with
    | inl heq =>
      have hlast : lastNode g.node rest = front := congrArg Prod.fst heq
      exact hout (hlast ▸ lastNode_mem g.node rest)
    | inr he => exact ih hrest he

end Pairs

section Invariant

/-- The node a thread has not put into the list yet. -/
def EnqueueAt.privateNode : EnqueueAt A V → Option (A × V)
  | .made node input => some (node, input)
  | .cleared node input => some (node, input)
  | _ => none

/-- The entry is linked, or its thread is about to link it. -/
def CMpscQueue.Joined (s : CMpscQueue A T V) (a : A) (e : Queued A T V) : Prop :=
  s.nextOf a = some (some e.node) ∨
    (s.nextOf a = some none ∧ s.producer e.thread = .exchanged a e.node)

/-- The list from its front node on. Each entry is linked or about to be, and each
thread past its exchange is about to link the last entry it has put there. -/
structure CMpscQueue.Chained (s : CMpscQueue A T V) (front : A) (chain : List (Queued A T V)) :
    Prop where
  nodup : (front :: chain.map Queued.node).Nodup
  head : s.head = lastNode front chain
  ended : s.nextOf s.head = some none
  joined : ∀ a e, (a, e) ∈ pairs front chain → s.Joined a e
  linking : ∀ t a b, s.producer t = .exchanged a b → s.nextOf a = some none ∧
    ∃ e, (a, e) ∈ pairs front chain ∧ e.node = b ∧ e.thread = t
  latest : ∀ t a b, s.producer t = .exchanged a b → ∀ pre e post, chain = pre ++ e :: post →
    e.node = b → ∀ f ∈ post, f.thread ≠ t
  values : ∀ e ∈ chain, s.dataOf e.node = some (some e.input)
  made : ∀ t n v, (s.producer t).privateNode = some (n, v) →
    s.nodes n = some ⟨some v, none⟩ ∧ n ∉ front :: chain.map Queued.node
  alone : ∀ t u n v w, (s.producer t).privateNode = some (n, v) →
    (s.producer u).privateNode = some (n, w) → t = u

/-- A node whose successor's value is taken, before it is deleted. -/
structure CMpscQueue.Retired (s : CMpscQueue A T V) (front : A) (chain : List (Queued A T V))
    (node : A) : Prop where
  allocated : ∃ n, s.nodes node = some n
  out : node ∉ front :: chain.map Queued.node
  shared : ∀ t v, (s.producer t).privateNode ≠ some (node, v)

/-- Where Dequeue is, and what it has in hand. -/
def CMpscQueue.Consuming (s : CMpscQueue A T V) (front : A) (chain hand : List (Queued A T V)) : Prop :=
  match s.consumer with
  | .out => s.tail = front ∧ hand = []
  | .called => s.tail = front ∧ hand = []
  | .loadedTail tail => s.tail = front ∧ hand = [] ∧ tail = front
  | .loadedNext tail next =>
    s.tail = front ∧ hand = [] ∧ tail = front ∧ s.nextOf front = some (some next)
  | .moved tail next output =>
    next = front ∧ (∃ e, hand = [e] ∧ output = some e.input) ∧ s.Retired front chain tail
  | .stored tail output =>
    s.tail = front ∧ (∃ e, hand = [e] ∧ output = some e.input) ∧ s.Retired front chain tail

variable {s s' : CMpscQueue A T V} {front : A} {chain hand : List (Queued A T V)}

/-- Every node of the list exists. -/
theorem CMpscQueue.Chained.nextOf_some (h : s.Chained front chain) {a : A}
    (ha : a ∈ front :: chain.map Queued.node) : ∃ next, s.nextOf a = some next := by
  have hlast := h.ended
  rw [h.head] at hlast
  have hjoined := h.joined
  clear h
  induction chain generalizing front with
  | nil =>
    obtain rfl := List.mem_singleton.mp ha
    exact ⟨none, hlast⟩
  | cons e rest ih =>
    cases List.mem_cons.mp ha with
    | inl heq =>
      subst heq
      cases hjoined a e List.mem_cons_self with
      | inl hlinked => exact ⟨_, hlinked⟩
      | inr hopen => exact ⟨_, hopen.1⟩
    | inr hrest => exact ih hrest hlast fun b f hf => hjoined b f (List.mem_cons_of_mem _ hf)

/-- The list does not depend on where Dequeue is. -/
theorem CMpscQueue.Chained.consumer (h : s.Chained front chain) (tail : A) (consumer : DequeueAt A V) :
    ({ s with tail, consumer } : CMpscQueue A T V).Chained front chain :=
  ⟨h.nodup, h.head, h.ended, h.joined, h.linking, h.latest, h.values, h.made, h.alone⟩

theorem CMpscQueue.Chained.exists_node (h : s.Chained front chain) {a : A}
    (ha : a ∈ front :: chain.map Queued.node) : ∃ n, s.nodes a = some n := by
  obtain ⟨next, hnext⟩ := h.nextOf_some ha
  obtain ⟨n, hn, -⟩ := Option.map_eq_some_iff.mp hnext
  exact ⟨n, hn⟩

section Moves
variable [DecidableEq A]

@[simp] theorem CMpscQueue.nextOf_write_self (s : CMpscQueue A T V) (a : A)
    (c : Option (SBufferNode A V)) : (s.write a c).nextOf a = c.map SBufferNode.next := by
  simp [nextOf, write]

theorem CMpscQueue.nextOf_write_of_ne (s : CMpscQueue A T V) {a b : A}
    (c : Option (SBufferNode A V)) (hne : b ≠ a) : (s.write a c).nextOf b = s.nextOf b := by
  simp [nextOf, write, hne]

theorem CMpscQueue.dataOf_write_of_ne (s : CMpscQueue A T V) {a b : A}
    (c : Option (SBufferNode A V)) (hne : b ≠ a) : (s.write a c).dataOf b = s.dataOf b := by
  simp [dataOf, write, hne]

variable [DecidableEq T]

/-- What a thread does with its own node does not touch the list. -/
theorem CMpscQueue.Chained.keep (h : s.Chained front chain) {thread : T} {pc : EnqueueAt A V}
    {node : A} {input : V} (hbefore : ∀ a b, s.producer thread ≠ .exchanged a b)
    (hafter : pc.privateNode = some (node, input))
    (hout : node ∉ front :: chain.map Queued.node)
    (hothers : ∀ u v, u ≠ thread → (s.producer u).privateNode ≠ some (node, v)) :
    ((s.at thread pc).write node (some ⟨some input, none⟩)).Chained front chain := by
  have hne : ∀ a ∈ front :: chain.map Queued.node, a ≠ node := fun a ha he => hout (he ▸ ha)
  have hexchanged : ∀ u a b, Function.update s.producer thread pc u = .exchanged a b →
      s.producer u = .exchanged a b := by
    intro u a b hu
    by_cases ht : u = thread
    · subst ht
      rw [Function.update_self] at hu
      rw [hu] at hafter
      cases hafter
    · rwa [Function.update_of_ne ht] at hu
  have hheld : ∀ u n v, (Function.update s.producer thread pc u).privateNode = some (n, v) →
      (u = thread ∧ n = node ∧ v = input) ∨
        (u ≠ thread ∧ n ≠ node ∧ (s.producer u).privateNode = some (n, v)) := by
    intro u n v hu
    by_cases ht : u = thread
    · subst ht
      rw [Function.update_self, hafter] at hu
      cases hu
      exact .inl ⟨rfl, rfl, rfl⟩
    · rw [Function.update_of_ne ht] at hu
      refine .inr ⟨ht, fun hn => ?_, hu⟩
      subst hn
      exact hothers u v ht hu
  refine ⟨h.nodup, h.head, ?_, fun a e he => ?_, fun t a b hu => ?_, fun t a b hu => ?_, fun e he => ?_,
    fun t n v hu => ?_, fun t u n v w ht hu => ?_⟩
  · refine (nextOf_write_of_ne _ _ (hne _ ?_)).trans h.ended
    exact h.head ▸ lastNode_mem front chain
  · have hnext := nextOf_write_of_ne (s.at thread pc) (some ⟨some input, none⟩) (hne a (mem_of_pairs he).1)
    cases h.joined a e he with
    | inl hlinked => exact .inl (hnext.trans hlinked)
    | inr hopen =>
      refine .inr ⟨hnext.trans hopen.1, ?_⟩
      have ht : e.thread ≠ thread := fun ht => hbefore a e.node (ht ▸ hopen.2)
      exact (Function.update_of_ne ht _ _).trans hopen.2
  · obtain ⟨hnext, e, he, hrest⟩ := h.linking t a b (hexchanged t a b hu)
    exact ⟨(nextOf_write_of_ne _ _ (hne a (mem_of_pairs he).1)).trans hnext, e, he, hrest⟩
  · exact h.latest t a b (hexchanged t a b hu)
  · exact (dataOf_write_of_ne _ _ (hne _ (List.mem_cons_of_mem _ (List.mem_map_of_mem he)))).trans
      (h.values e he)
  · cases hheld t n v hu with
    | inl hself =>
      obtain ⟨-, rfl, rfl⟩ := hself
      exact ⟨Function.update_self .., hout⟩
    | inr hother =>
      obtain ⟨-, hn, hu⟩ := hother
      obtain ⟨hnode, hn'⟩ := h.made t n v hu
      exact ⟨(Function.update_of_ne hn _ _).trans hnode, hn'⟩
  · cases hheld t n v ht with
    | inl hself =>
      cases hheld u n w hu with
      | inl hself' => exact hself.1.trans hself'.1.symm
      | inr hother => exact absurd hself.2.1 hother.2.1
    | inr hother =>
      cases hheld u n w hu with
      | inl hself => exact absurd hself.2.1 hother.2.1
      | inr hother' => exact h.alone t u n v w hother.2.2 hother'.2.2

omit [DecidableEq A] in
/-- Who was past its exchange still is, and one more thread may be. -/
theorem exchanged_update {thread : T} {pc : EnqueueAt A V} {t : T} {a b : A}
    (ht : Function.update s.producer thread pc t = .exchanged a b) :
    (t = thread ∧ pc = .exchanged a b) ∨ (t ≠ thread ∧ s.producer t = .exchanged a b) := by
  by_cases hself : t = thread
  · subst hself
    rw [Function.update_self] at ht
    exact .inl ⟨rfl, ht⟩
  · rw [Function.update_of_ne hself] at ht
    exact .inr ⟨hself, ht⟩

omit [DecidableEq A] in
/-- A thread that has given up its node owns none. -/
theorem private_update {thread : T} {pc : EnqueueAt A V} (hpc : pc.privateNode = none) {t : T} {n : A}
    {v : V} (ht : (Function.update s.producer thread pc t).privateNode = some (n, v)) :
    t ≠ thread ∧ (s.producer t).privateNode = some (n, v) := by
  by_cases hself : t = thread
  · subst hself
    rw [Function.update_self, hpc] at ht
    cases ht
  · rw [Function.update_of_ne hself] at ht
    exact ⟨hself, ht⟩

omit [DecidableEq A] in
/-- The exchange puts the thread's node behind the last one, not yet linked to it. -/
theorem CMpscQueue.Chained.exchange (h : s.Chained front chain) {thread : T} {node : A} {input : V}
    (hpc : s.producer thread = .cleared node input) :
    ({ s.at thread (.exchanged s.head node) with head := node } : CMpscQueue A T V).Chained front
      (chain ++ [⟨node, thread, input⟩]) := by
  have hown : (s.producer thread).privateNode = some (node, input) := by rw [hpc]; rfl
  obtain ⟨hnode, hout⟩ := h.made thread node input hown
  have hnodes : (chain ++ [(⟨node, thread, input⟩ : Queued A T V)]).map Queued.node =
      chain.map Queued.node ++ [node] := by simp
  refine ⟨?_, (lastNode_concat front chain ⟨node, thread, input⟩).symm, ?_, fun a e he => ?_, fun t a b ht => ?_,
    fun t a b ht pre e post hchain hb f hf => ?_, fun e he => ?_, fun t n v ht => ?_,
    fun t u n v w ht hu => ?_⟩
  · rw [hnodes, ← List.cons_append]
    refine List.nodup_append.mpr ⟨h.nodup, List.nodup_singleton _, fun a ha b hb => ?_⟩
    obtain rfl := List.mem_singleton.mp hb
    exact fun hab => hout (hab ▸ ha)
  · exact congrArg (Option.map SBufferNode.next) hnode
  · rw [pairs_concat] at he
    cases List.mem_append.mp he with
    | inl hold =>
      cases h.joined a e hold with
      | inl hlinked => exact .inl hlinked
      | inr hopen =>
        have hne : e.thread ≠ thread := by
          intro ht
          rw [ht, hpc] at hopen
          cases hopen.2
        exact .inr ⟨hopen.1, (Function.update_of_ne hne _ _).trans hopen.2⟩
    | inr hnew =>
      obtain ⟨rfl, rfl⟩ := Prod.mk.inj (List.mem_singleton.mp hnew)
      rw [← h.head]
      exact .inr ⟨h.ended, Function.update_self ..⟩
  · cases exchanged_update ht with
    | inl hself =>
      obtain ⟨rfl, hpair⟩ := hself
      cases hpair
      refine ⟨h.ended, ⟨node, t, input⟩, ?_, rfl, rfl⟩
      rw [pairs_concat, ← h.head]
      exact List.mem_append_right _ (List.mem_singleton.mpr rfl)
    | inr hother =>
      obtain ⟨hnext, e, he, hrest⟩ := h.linking t a b hother.2
      refine ⟨hnext, e, ?_, hrest⟩
      rw [pairs_concat]
      exact List.mem_append_left _ he
  · -- The last entry is the new one, so that what comes after another one ends with it.
    cases List.eq_nil_or_concat post with
    | inl hnil =>
      rw [hnil] at hf
      cases hf
    | inr hlast =>
      obtain ⟨post', g, rfl⟩ := hlast
      rw [List.concat_eq_append, ← List.cons_append, ← List.append_assoc] at hchain
      obtain ⟨hfirst, hg⟩ := List.append_inj' hchain rfl
      obtain rfl := List.head_eq_of_cons_eq hg
      cases exchanged_update ht with
      | inl hself =>
        obtain ⟨-, hpair⟩ := hself
        cases hpair
        refine absurd (List.mem_cons_of_mem front (List.mem_map.mpr ⟨e, ?_, hb⟩)) hout
        rw [hfirst]
        exact List.mem_append_right _ List.mem_cons_self
      | inr hother =>
        rw [List.concat_eq_append] at hf
        cases List.mem_append.mp hf with
        | inl hold => exact h.latest t a b hother.2 pre e post' hfirst hb f hold
        | inr hnew =>
          obtain rfl := List.mem_singleton.mp hnew
          exact hother.1.symm
  · cases List.mem_append.mp he with
    | inl hold => exact h.values e hold
    | inr hnew =>
      obtain rfl := List.mem_singleton.mp hnew
      exact congrArg (Option.map SBufferNode.data) hnode
  · obtain ⟨hne, hheld⟩ := private_update rfl ht
    obtain ⟨hn, hn'⟩ := h.made t n v hheld
    refine ⟨hn, ?_⟩
    rw [hnodes, ← List.cons_append, List.mem_append, not_or]
    refine ⟨hn', fun hsame => hne ?_⟩
    obtain rfl := List.mem_singleton.mp hsame
    exact h.alone t thread n v input hheld hown
  · exact h.alone t u n v w (private_update rfl ht).2 (private_update rfl hu).2

/-- The link store completes the list between two nodes that were broken apart. -/
theorem CMpscQueue.Chained.link (h : s.Chained front chain) {thread : T} {prevHead node : A}
    (hpc : s.producer thread = .exchanged prevHead node) {n : SBufferNode A V}
    (hn : s.nodes prevHead = some n) :
    ((s.at thread .out).write prevHead (some { n with next := some node })).Chained front chain := by
  obtain ⟨hopen, e, he, rfl, rfl⟩ := h.linking thread prevHead node hpc
  have hprev := (mem_of_pairs he).1
  have hdata : ∀ a, ((s.at e.thread .out).write prevHead (some { n with next := some e.node })).dataOf a =
      s.dataOf a := by
    intro a
    by_cases ha : a = prevHead
    · subst ha
      simp [CMpscQueue.dataOf, CMpscQueue.write, hn]
    · exact CMpscQueue.dataOf_write_of_ne _ _ ha
  refine ⟨h.nodup, h.head, ?_, fun a f hf => ?_, fun t a b ht => ?_, fun t a b ht => ?_, fun f hf => ?_,
    fun t m v ht => ?_, fun t u m v w ht hu => ?_⟩
  · have hne : s.head ≠ prevHead := by
      rintro rfl
      exact pairs_last h.nodup (h.head ▸ he)
    exact (CMpscQueue.nextOf_write_of_ne _ _ hne).trans h.ended
  · by_cases ha : a = prevHead
    · subst ha
      obtain rfl := pairs_unique h.nodup he hf
      exact .inl (CMpscQueue.nextOf_write_self ..)
    · have hnext := CMpscQueue.nextOf_write_of_ne (s.at e.thread .out)
        (some { n with next := some e.node }) ha
      cases h.joined a f hf with
      | inl hlinked => exact .inl (hnext.trans hlinked)
      | inr hopen' =>
        have hne : f.thread ≠ e.thread := by
          intro ht
          rw [ht, hpc] at hopen'
          exact ha (EnqueueAt.exchanged.inj hopen'.2).1.symm
        exact .inr ⟨hnext.trans hopen'.1, (Function.update_of_ne hne _ _).trans hopen'.2⟩
  · cases exchanged_update ht with
    | inl hself => cases hself.2
    | inr hother =>
      obtain ⟨hnext, f, hf, hrest⟩ := h.linking t a b hother.2
      have ha : a ≠ prevHead := by
        rintro rfl
        obtain rfl := pairs_unique h.nodup he hf
        exact hother.1 hrest.2.symm
      exact ⟨(CMpscQueue.nextOf_write_of_ne _ _ ha).trans hnext, f, hf, hrest⟩
  · cases exchanged_update ht with
    | inl hself => cases hself.2
    | inr hother => exact h.latest t a b hother.2
  · exact (hdata f.node).trans (h.values f hf)
  · obtain ⟨-, hheld⟩ := private_update rfl ht
    obtain ⟨hm, hout⟩ := h.made t m v hheld
    have hne : m ≠ prevHead := fun hm => hout (hm ▸ hprev)
    exact ⟨(Function.update_of_ne hne _ _).trans hm, hout⟩
  · exact h.alone t u m v w (private_update rfl ht).2 (private_update rfl hu).2

omit [DecidableEq T] in
/-- Taking the value behind the front node makes that value's node the front. -/
theorem CMpscQueue.Chained.take {e : Queued A T V} (h : s.Chained front (e :: chain))
    (hnext : s.nextOf front = some (some e.node)) {n : SBufferNode A V}
    (hn : s.nodes e.node = some n) :
    (s.write e.node (some { n with data := none })).Chained e.node chain := by
  obtain ⟨hfront, hnodup⟩ := List.nodup_cons.mp h.nodup
  have hsame : ∀ a, (s.write e.node (some { n with data := none })).nextOf a = s.nextOf a := by
    intro a
    by_cases ha : a = e.node
    · subst ha
      simp [CMpscQueue.nextOf, CMpscQueue.write, hn]
    · exact CMpscQueue.nextOf_write_of_ne _ _ ha
  refine ⟨hnodup, h.head, (hsame _).trans h.ended, fun a f hf => ?_, fun t a b ht => ?_,
    fun t a b ht pre f post hchain => ?_, fun f hf => ?_, fun t m v ht => ?_, h.alone⟩
  · unfold CMpscQueue.Joined
    rw [hsame]
    exact h.joined a f (List.mem_cons_of_mem _ hf)
  · obtain ⟨hopen, f, hf, hrest⟩ := h.linking t a b ht
    refine ⟨(hsame a).trans hopen, f, ?_, hrest⟩
    cases List.mem_cons.mp hf with
    | inl hfirst =>
      cases hfirst
      rw [hopen] at hnext
      cases hnext
    | inr hlater => exact hlater
  · exact h.latest t a b ht (e :: pre) f post (by rw [hchain]; rfl)
  · have hne : f.node ≠ e.node := by
      intro hf'
      exact (List.nodup_cons.mp hnodup).1 (hf' ▸ List.mem_map_of_mem hf)
    exact (CMpscQueue.dataOf_write_of_ne _ _ hne).trans (h.values f (List.mem_cons_of_mem _ hf))
  · obtain ⟨hm, hout⟩ := h.made t m v ht
    have hlist : m ∉ e.node :: chain.map Queued.node := fun hm => hout (List.mem_cons_of_mem _ hm)
    have hne : m ≠ e.node := fun hm => hlist (hm ▸ List.mem_cons_self)
    exact ⟨(Function.update_of_ne hne _ _).trans hm, hlist⟩

omit [DecidableEq T] in
/-- Deleting a node that is in nobody's hands. -/
theorem CMpscQueue.Chained.delete (h : s.Chained front chain) {node : A}
    (hr : s.Retired front chain node) : (s.write node none).Chained front chain := by
  have hne : ∀ a ∈ front :: chain.map Queued.node, a ≠ node := fun a ha he => hr.out (he ▸ ha)
  have hsame : ∀ a ∈ front :: chain.map Queued.node, (s.write node none).nextOf a = s.nextOf a :=
    fun a ha => CMpscQueue.nextOf_write_of_ne _ _ (hne a ha)
  refine ⟨h.nodup, h.head, ?_, fun a e he => ?_, fun t a b ht => ?_, h.latest, fun e he => ?_,
    fun t n v ht => ?_, h.alone⟩
  · exact (hsame _ (h.head ▸ lastNode_mem front chain)).trans h.ended
  · unfold CMpscQueue.Joined
    rw [hsame a (mem_of_pairs he).1]
    exact h.joined a e he
  · obtain ⟨hopen, e, he, hrest⟩ := h.linking t a b ht
    exact ⟨(hsame a (mem_of_pairs he).1).trans hopen, e, he, hrest⟩
  · exact (CMpscQueue.dataOf_write_of_ne _ _
      (hne _ (List.mem_cons_of_mem _ (List.mem_map_of_mem he)))).trans (h.values e he)
  · obtain ⟨hn, hout⟩ := h.made t n v ht
    have hother : n ≠ node := fun he => hr.shared t v (he ▸ ht)
    exact ⟨(Function.update_of_ne hother _ _).trans hn, hout⟩

end Moves

end Invariant

end TgeCore.Threading
