import TgeCore.Events.Queue
import TgeCore.Library.Calls

namespace TgeCore.Events
open Library

variable {T E : Type} [DecidableEq T] {main : T} {s s' : Queues T E} {out : Seen T E}
  {outs : List (Seen T E)}

/-- The events queued so far, in the order in which they entered `m_queue`. -/
def queuedIn (outs : List (Seen T E)) : List E :=
  outs.filterMap fun out => match out with
    | .queued _ dispatch => some dispatch
    | _ => none

def dispatchedIn (outs : List (Seen T E)) : List E :=
  outs.filterMap fun out => match out with
    | .dispatched dispatch => some dispatch
    | _ => none

/-- What a step does to the events, by what it shows. -/
def Effect (s s' : Queues T E) : Seen T E → Prop
  | .nothing => s'.undispatched = s.undispatched ∧ s'.queue = s.queue ∧
      s'.dispatcher.hasBatch = s.dispatcher.hasBatch
  | .queued _ dispatch => s'.undispatched = s.undispatched ∧ s'.queue = s.queue ++ [dispatch] ∧
      s'.dispatcher.hasBatch = s.dispatcher.hasBatch
  | .swapped => s.undispatched = [] ∧ s'.undispatched = s.queue ∧ s'.queue = []
  | .dispatched dispatch => s.undispatched = dispatch :: s'.undispatched ∧ s'.queue = s.queue ∧
      s.dispatcher.hasBatch = true ∧ s'.dispatcher.hasBatch = true
  | .drained => s.undispatched = [] ∧ s'.undispatched = [] ∧ s'.queue = s.queue ∧
      s'.dispatcher.hasBatch = false

theorem produce_effect (h : Guarded main s) {thread : T} (hp : s.produce thread = some (s', out)) :
    Effect s s' out := by
  unfold Queues.produce at hp
  cases hpc : s.producer thread with
  | out => simp [hpc] at hp
  | locking dispatch =>
    cases hh : s.holder with
    | some holder => simp [hpc, hh] at hp
    | none =>
      simp only [hpc, hh, Option.some.injEq, Prod.mk.injEq] at hp
      obtain ⟨rfl, rfl⟩ := hp
      exact ⟨rfl, rfl, rfl⟩
  | locked dispatch =>
    simp only [hpc, Option.some.injEq, Prod.mk.injEq] at hp
    obtain ⟨rfl, rfl⟩ := hp
    exact ⟨rfl, rfl, rfl⟩
  | loaded dispatch queue =>
    simp only [hpc, Option.some.injEq, Prod.mk.injEq] at hp
    obtain ⟨rfl, rfl⟩ := hp
    -- What the holder read is still what is there.
    rw [h.producerRead thread dispatch queue hpc]
    exact ⟨rfl, rfl, rfl⟩
  | stored =>
    simp only [hpc, Option.some.injEq, Prod.mk.injEq] at hp
    obtain ⟨rfl, rfl⟩ := hp
    exact ⟨rfl, rfl, rfl⟩

omit [DecidableEq T] in
theorem drain_effect (h : Guarded main s) (hd : s.drain = some (s', out)) : Effect s s' out := by
  unfold Queues.drain at hd
  cases hpc : s.dispatcher with
  | out => simp [hpc] at hd
  | locking =>
    cases hh : s.holder with
    | some holder => simp [hpc, hh] at hd
    | none =>
      simp only [hpc, hh, Option.some.injEq, Prod.mk.injEq] at hd
      obtain ⟨rfl, rfl⟩ := hd
      simp [Effect, Queues.undispatched, hpc, DispatchQueuedAt.hasBatch]
  | locked =>
    simp only [hpc, Option.some.injEq, Prod.mk.injEq] at hd
    obtain ⟨rfl, rfl⟩ := hd
    simp [Effect, Queues.undispatched, hpc, DispatchQueuedAt.hasBatch]
  | loaded queue draining =>
    simp only [hpc, Option.some.injEq, Prod.mk.injEq] at hd
    obtain ⟨rfl, rfl⟩ := hd
    obtain ⟨rfl, rfl⟩ := h.dispatcherRead queue draining hpc
    have hempty := h.drained (by rw [hpc]; rfl)
    simp [Effect, Queues.undispatched, hpc, hempty]
  | swapped =>
    simp only [hpc, Option.some.injEq, Prod.mk.injEq] at hd
    obtain ⟨rfl, rfl⟩ := hd
    simp [Effect, Queues.undispatched, hpc, DispatchQueuedAt.hasBatch]
  | loop index =>
    cases he : s.draining[index]? with
    | some dispatch =>
      simp only [hpc, he, Option.some.injEq, Prod.mk.injEq] at hd
      obtain ⟨rfl, rfl⟩ := hd
      obtain ⟨hlt, hget⟩ := List.getElem?_eq_some_iff.mp he
      simp [Effect, Queues.undispatched, hpc, DispatchQueuedAt.hasBatch,
        List.drop_eq_getElem_cons hlt, hget]
    | none =>
      simp only [hpc, he, Option.some.injEq, Prod.mk.injEq] at hd
      obtain ⟨rfl, rfl⟩ := hd
      have hend : s.draining.length ≤ index := List.getElem?_eq_none_iff.mp he
      simp [Effect, Queues.undispatched, hpc, DispatchQueuedAt.hasBatch, hend]
  | handler index =>
    simp only [hpc, Option.some.injEq, Prod.mk.injEq] at hd
    obtain ⟨rfl, rfl⟩ := hd
    simp [Effect, Queues.undispatched, hpc, DispatchQueuedAt.hasBatch]

theorem step_effect (h : Guarded main s) {move : Move T E}
    (hs : s.step main move = some (s', out)) : Effect s s' out := by
  cases move with
  | queueErased thread dispatch =>
    simp only [Queues.step] at hs
    split at hs
    · split at hs
      · cases hs
      · obtain ⟨rfl, rfl⟩ := Prod.mk.inj (Option.some.inj hs)
        exact ⟨rfl, rfl, rfl⟩
    · cases hs
  | produce thread => exact produce_effect h hs
  | dispatchQueued =>
    simp only [Queues.step] at hs
    split at hs
    · rename_i hpc
      obtain ⟨rfl, rfl⟩ := Prod.mk.inj (Option.some.inj hs)
      simp [Effect, Queues.undispatched, hpc, DispatchQueuedAt.hasBatch]
    · cases hs
  | drain =>
    simp only [Queues.step] at hs
    split at hs
    · exact drain_effect h hs
    · cases hs

/-- Where every queued event is: dispatched, in the batch of the drain, or in `m_queue`. -/
def Placed (outs : List (Seen T E)) (s : Queues T E) : Prop :=
  dispatchedIn outs ++ s.undispatched ++ s.queue = queuedIn outs

section Calls
variable {thread : T}

/-- The event that the thread puts into `m_queue`. -/
def queuedBy (thread : T) : Seen T E → List E
  | .queued t dispatch => if t = thread then [dispatch] else []
  | _ => []

/-- The event of a QueueErased that has not put it into `m_queue` yet. -/
def QueueErasedAt.waiting : QueueErasedAt E → List E
  | .locking dispatch => [dispatch]
  | .locked dispatch => [dispatch]
  | .loaded dispatch _ => [dispatch]
  | _ => []

/-- A step that moves one thread, and queues no event but that thread's. -/
theorem waiting_at {other : T} {pc : QueueErasedAt E} (hpc : s'.producer = Function.update s.producer other pc)
    (hown : (s.producer other).waiting = queuedBy other out ++ pc.waiting)
    (hout : thread ≠ other → queuedBy thread out = []) :
    (s.producer thread).waiting = queuedBy thread out ++ (s'.producer thread).waiting := by
  rw [hpc]
  by_cases ho : thread = other
  · subst ho
    rw [Function.update_self]
    exact hown
  · rw [Function.update_of_ne ho, hout ho, List.nil_append]

theorem produce_waiting {other : T} (hp : s.produce other = some (s', out)) :
    (s.producer thread).waiting = queuedBy thread out ++ (s'.producer thread).waiting := by
  unfold Queues.produce at hp
  cases hpc : s.producer other with
  | out => simp [hpc] at hp
  | locking dispatch =>
    cases hh : s.holder with
    | some holder => simp [hpc, hh] at hp
    | none =>
      simp only [hpc, hh, Option.some.injEq, Prod.mk.injEq] at hp
      obtain ⟨rfl, rfl⟩ := hp
      exact waiting_at rfl (by rw [hpc]; rfl) fun _ => rfl
  | locked dispatch =>
    simp only [hpc, Option.some.injEq, Prod.mk.injEq] at hp
    obtain ⟨rfl, rfl⟩ := hp
    exact waiting_at rfl (by rw [hpc]; rfl) fun _ => rfl
  | loaded dispatch queue =>
    simp only [hpc, Option.some.injEq, Prod.mk.injEq] at hp
    obtain ⟨rfl, rfl⟩ := hp
    refine waiting_at rfl ?_ fun ho => if_neg ho.symm
    rw [hpc, queuedBy, if_pos rfl]
    rfl
  | stored =>
    simp only [hpc, Option.some.injEq, Prod.mk.injEq] at hp
    obtain ⟨rfl, rfl⟩ := hp
    exact waiting_at rfl (by rw [hpc]; rfl) fun _ => rfl

end Calls

end TgeCore.Events
