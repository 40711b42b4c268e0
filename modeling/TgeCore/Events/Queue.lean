import TgeCore.Library.Machine
import Mathlib.Logic.Function.Basic

namespace TgeCore.Events
open Library

/-- How far a thread is in QueueErased. Appending reads `m_queue` and writes it
back, so that only the mutex keeps two threads from losing an event. -/
inductive QueueErasedAt (E : Type) where
  | out
  | locking (dispatch : E)
  | locked (dispatch : E)
  | loaded (dispatch : E) (queue : List E)
  | stored
deriving DecidableEq

/-- How far the dispatching thread is in DispatchQueued. -/
inductive DispatchQueuedAt (E : Type) where
  | out
  | locking
  | locked
  | loaded (queue draining : List E)
  | swapped
  | loop (index : Nat)
  | handler (index : Nat)
deriving DecidableEq

/-- The call that holds `m_queueMutex`. -/
inductive Holder (T : Type) where
  | producer (thread : T)
  | dispatcher
deriving DecidableEq

structure Queues (T E : Type) where
  queue : List E := []
  draining : List E := []
  holder : Option (Holder T) := none
  producer : T → QueueErasedAt E := fun _ => .out
  dispatcher : DispatchQueuedAt E := .out

/-- A thread calls QueueErased or goes on in it; the dispatching thread calls
DispatchQueued or goes on in it. -/
inductive Move (T E : Type) where
  | queueErased (thread : T) (dispatch : E)
  | produce (thread : T)
  | dispatchQueued
  | drain
deriving DecidableEq

/-- What a step does that an event can tell. -/
inductive Seen (T E : Type) where
  | nothing
  | queued (thread : T) (dispatch : E)
  | swapped
  | dispatched (dispatch : E)
  | drained
deriving DecidableEq

/-- The dispatching thread can be in QueueErased only outside of DispatchQueued
or from a handler DispatchQueued runs. -/
def DispatchQueuedAt.mayQueue {E : Type} : DispatchQueuedAt E → Bool
  | .out => true
  | .handler _ => true
  | _ => false

variable {T E : Type} [DecidableEq T]

def Queues.at (s : Queues T E) (thread : T) (pc : QueueErasedAt E) : Queues T E :=
  { s with producer := Function.update s.producer thread pc }

/-- The next step of a thread's QueueErased. -/
def Queues.produce (s : Queues T E) (thread : T) : Option (Queues T E × Seen T E) :=
  match s.producer thread with
  | .out => none
  | .locking dispatch =>
    match s.holder with
    | some _ => none
    | none => some ({ s.at thread (.locked dispatch) with holder := some (.producer thread) }, .nothing)
  | .locked dispatch => some (s.at thread (.loaded dispatch s.queue), .nothing)
  | .loaded dispatch queue =>
    some ({ s.at thread .stored with queue := queue ++ [dispatch] }, .queued thread dispatch)
  | .stored => some ({ s.at thread .out with holder := none }, .nothing)

/-- The next step of DispatchQueued. -/
def Queues.drain (s : Queues T E) : Option (Queues T E × Seen T E) :=
  match s.dispatcher with
  | .out => none
  | .locking =>
    match s.holder with
    | some _ => none
    | none => some ({ s with dispatcher := .locked, holder := some .dispatcher }, .nothing)
  | .locked => some ({ s with dispatcher := .loaded s.queue s.draining }, .nothing)
  | .loaded queue draining =>
    some ({ s with dispatcher := .swapped, queue := draining, draining := queue }, .swapped)
  | .swapped => some ({ s with dispatcher := .loop 0, holder := none }, .nothing)
  | .loop index =>
    match s.draining[index]? with
    | some dispatch => some ({ s with dispatcher := .handler index }, .dispatched dispatch)
    | none => some ({ s with dispatcher := .out, draining := [] }, .drained)
  | .handler index => some ({ s with dispatcher := .loop (index + 1) }, .nothing)

/-- `main` is the dispatching thread. It does one thing at a time. -/
def Queues.step (main : T) (s : Queues T E) : Move T E → Option (Queues T E × Seen T E)
  | .queueErased thread dispatch =>
    match s.producer thread with
    | .out =>
      if thread = main ∧ s.dispatcher.mayQueue = false then none
      else some (s.at thread (.locking dispatch), .nothing)
    | _ => none
  | .produce thread => s.produce thread
  | .dispatchQueued =>
    match s.producer main, s.dispatcher with
    | .out, .out => some ({ s with dispatcher := .locking }, .nothing)
    | _, _ => none
  | .drain =>
    match s.producer main with
    | .out => s.drain
    | _ => none

def queues (E : Type) (main : T) : Machine (Queues T E) (Move T E) (Seen T E) := ⟨Queues.step main⟩

section Invariant

def QueueErasedAt.inSection : QueueErasedAt E → Bool
  | .locked _ => true
  | .loaded _ _ => true
  | .stored => true
  | _ => false

def DispatchQueuedAt.inSection : DispatchQueuedAt E → Bool
  | .locked => true
  | .loaded _ _ => true
  | .swapped => true
  | _ => false

/-- The events of a drain that has its batch and has not dispatched them yet. -/
def Queues.undispatched (s : Queues T E) : List E :=
  match s.dispatcher with
  | .swapped => s.draining
  | .loop index => s.draining.drop index
  | .handler index => s.draining.drop (index + 1)
  | _ => []

def DispatchQueuedAt.hasBatch : DispatchQueuedAt E → Bool
  | .swapped => true
  | .loop _ => true
  | .handler _ => true
  | _ => false

/-- The lock is held by whoever is between locking and unlocking, so what a
holder has read is still there, and `m_draining` is empty between drains. -/
structure Guarded (main : T) (s : Queues T E) : Prop where
  producerHolds : ∀ thread, (s.producer thread).inSection = true ↔ s.holder = some (.producer thread)
  dispatcherHolds : s.dispatcher.inSection = true ↔ s.holder = some .dispatcher
  producerRead : ∀ thread dispatch queue, s.producer thread = .loaded dispatch queue → queue = s.queue
  dispatcherRead : ∀ queue draining, s.dispatcher = .loaded queue draining →
    queue = s.queue ∧ draining = s.draining
  drained : s.dispatcher.hasBatch = false → s.draining = []
  oneThing : s.producer main ≠ .out → s.dispatcher.mayQueue = true

variable {main : T} {s s' : Queues T E} {out : Seen T E}

omit [DecidableEq T] in
/-- Only the holder of the lock is past locking it. -/
theorem Guarded.other_out (h : Guarded main s) {thread other : T}
    (hs : (s.producer thread).inSection = true) (hne : other ≠ thread) :
    (s.producer other).inSection = false := by
  rw [← Bool.not_eq_true, h.producerHolds, (h.producerHolds thread).mp hs]
  simpa using hne.symm

omit [DecidableEq T] in
theorem Guarded.dispatcher_out (h : Guarded main s) {thread : T}
    (hs : (s.producer thread).inSection = true) : s.dispatcher.inSection = false := by
  rw [← Bool.not_eq_true, h.dispatcherHolds, (h.producerHolds thread).mp hs]
  simp

omit [DecidableEq T] in
theorem Guarded.producers_out (h : Guarded main s) (hs : s.dispatcher.inSection = true) (thread : T) :
    (s.producer thread).inSection = false := by
  rw [← Bool.not_eq_true, h.producerHolds, h.dispatcherHolds.mp hs]
  simp

/-- A step of one thread's QueueErased. It may write `m_queue` only while it holds the lock. -/
theorem Guarded.moveProducer (h : Guarded main s) {thread : T} {pc : QueueErasedAt E}
    (queue : List E) (holder : Option (Holder T))
    (hown : pc.inSection = true ↔ holder = some (.producer thread))
    (hrest : ∀ other, other ≠ .producer thread → (s.holder = some other ↔ holder = some other))
    (hread : ∀ dispatch found, pc = .loaded dispatch found → found = queue)
    (hwrite : queue = s.queue ∨ s.holder = some (.producer thread))
    (hmain : thread = main → pc ≠ .out → s.dispatcher.mayQueue = true) :
    Guarded main { s.at thread pc with queue, holder } where
  producerHolds := by
    intro other
    by_cases ho : other = thread
    · subst ho
      simpa [Queues.at] using hown
    · simp only [Queues.at, Function.update_of_ne ho]
      rw [h.producerHolds, hrest _ (by simpa using ho)]
  dispatcherHolds := by
    rw [← hrest .dispatcher (by simp)]
    exact h.dispatcherHolds
  producerRead := by
    intro other dispatch found hl
    by_cases ho : other = thread
    · subst ho
      exact hread dispatch found (by simpa [Queues.at] using hl)
    · simp only [Queues.at, Function.update_of_ne ho] at hl
      rcases hwrite with rfl | hheld
      · exact h.producerRead other dispatch found hl
      · have hout := h.other_out ((h.producerHolds thread).mpr hheld) ho
        rw [hl] at hout
        cases hout
  dispatcherRead := by
    intro found draining hl
    rcases hwrite with rfl | hheld
    · exact h.dispatcherRead found draining hl
    · have hout := h.dispatcher_out ((h.producerHolds thread).mpr hheld)
      change s.dispatcher = _ at hl
      rw [hl] at hout
      cases hout
  drained := h.drained
  oneThing := by
    intro hbusy
    by_cases ho : main = thread
    · subst ho
      exact hmain rfl (by simpa [Queues.at] using hbusy)
    · exact h.oneThing (by simpa [Queues.at, Function.update_of_ne ho] using hbusy)

theorem Guarded.produce (h : Guarded main s) {thread : T} (hp : s.produce thread = some (s', out)) :
    Guarded main s' := by
  have hbusy : s.producer thread ≠ .out := by
    intro hout
    simp [Queues.produce, hout] at hp
  have hmain : thread = main → s.dispatcher.mayQueue = true := by
    rintro rfl
    exact h.oneThing hbusy
  have hown := h.producerHolds thread
  have hread := h.producerRead thread
  unfold Queues.produce at hp
  cases hpc : s.producer thread with
  | out => exact absurd hpc hbusy
  | locking dispatch =>
    cases hh : s.holder with
    | some holder => simp [hpc, hh] at hp
    | none =>
      simp only [hpc, hh, Option.some.injEq, Prod.mk.injEq] at hp
      obtain ⟨rfl, rfl⟩ := hp
      exact h.moveProducer s.queue _ (by simp [QueueErasedAt.inSection])
        (by intro other ho; simp [hh, ho.symm]) (by simp) (.inl rfl) (fun hm _ => hmain hm)
  | locked dispatch =>
    simp only [hpc, Option.some.injEq, Prod.mk.injEq] at hp
    obtain ⟨rfl, rfl⟩ := hp
    rw [hpc] at hown
    exact h.moveProducer s.queue s.holder hown (fun _ _ => Iff.rfl)
      (by simp) (.inl rfl) (fun hm _ => hmain hm)
  | loaded dispatch queue =>
    simp only [hpc, Option.some.injEq, Prod.mk.injEq] at hp
    obtain ⟨rfl, rfl⟩ := hp
    rw [hpc] at hown
    exact h.moveProducer _ s.holder hown (fun _ _ => Iff.rfl) (by simp)
      (.inr (hown.mp rfl)) (fun hm _ => hmain hm)
  | stored =>
    simp only [hpc, Option.some.injEq, Prod.mk.injEq] at hp
    obtain ⟨rfl, rfl⟩ := hp
    rw [hpc] at hown
    have hheld := hown.mp rfl
    exact h.moveProducer s.queue _ (by simp [QueueErasedAt.inSection])
      (by intro other ho; simp [hheld, ho.symm]) (by simp) (.inl rfl) (fun hm _ => hmain hm)

omit [DecidableEq T] in
/-- A step of DispatchQueued. It may write `m_queue` only while it holds the lock. -/
theorem Guarded.moveDispatcher (h : Guarded main s) (hm : s.producer main = .out)
    {pc : DispatchQueuedAt E} (queue draining : List E) (holder : Option (Holder T))
    (hown : pc.inSection = true ↔ holder = some .dispatcher)
    (hrest : ∀ thread, s.holder = some (.producer thread) ↔ holder = some (.producer thread))
    (hread : ∀ found batch, pc = .loaded found batch → found = queue ∧ batch = draining)
    (hwrite : queue = s.queue ∨ s.holder = some .dispatcher)
    (hdrained : pc.hasBatch = false → draining = []) :
    Guarded main { s with dispatcher := pc, queue, draining, holder } where
  producerHolds := by
    intro thread
    rw [← hrest]
    exact h.producerHolds thread
  dispatcherHolds := hown
  producerRead := by
    intro thread dispatch found hl
    rcases hwrite with rfl | hheld
    · exact h.producerRead thread dispatch found hl
    · have hout := h.producers_out (h.dispatcherHolds.mpr hheld) thread
      change s.producer thread = _ at hl
      rw [hl] at hout
      cases hout
  dispatcherRead := hread
  drained := hdrained
  oneThing := fun hbusy => absurd hm hbusy

omit [DecidableEq T] in
theorem Guarded.drain (h : Guarded main s) (hm : s.producer main = .out)
    (hd : s.drain = some (s', out)) : Guarded main s' := by
  have hown := h.dispatcherHolds
  have hread := h.dispatcherRead
  have hdrained := h.drained
  unfold Queues.drain at hd
  cases hpc : s.dispatcher with
  | out => simp [hpc] at hd
  | locking =>
    cases hh : s.holder with
    | some holder => simp [hpc, hh] at hd
    | none =>
      simp only [hpc, hh, Option.some.injEq, Prod.mk.injEq] at hd
      obtain ⟨rfl, rfl⟩ := hd
      rw [hpc] at hdrained
      exact h.moveDispatcher hm s.queue s.draining _
        (by simp [DispatchQueuedAt.inSection]) (by simp [hh]) (by simp) (.inl rfl) hdrained
  | locked =>
    simp only [hpc, Option.some.injEq, Prod.mk.injEq] at hd
    obtain ⟨rfl, rfl⟩ := hd
    rw [hpc] at hown hdrained
    exact h.moveDispatcher hm _ _ s.holder hown (fun _ => Iff.rfl)
      (by rintro _ _ ⟨⟩; exact ⟨rfl, rfl⟩) (.inl rfl) hdrained
  | loaded queue draining =>
    simp only [hpc, Option.some.injEq, Prod.mk.injEq] at hd
    obtain ⟨rfl, rfl⟩ := hd
    rw [hpc] at hown
    exact h.moveDispatcher hm _ _ s.holder hown (fun _ => Iff.rfl) (by simp)
      (.inr (hown.mp rfl)) (by simp [DispatchQueuedAt.hasBatch])
  | swapped =>
    simp only [hpc, Option.some.injEq, Prod.mk.injEq] at hd
    obtain ⟨rfl, rfl⟩ := hd
    rw [hpc] at hown
    have hheld := hown.mp rfl
    exact h.moveDispatcher hm s.queue s.draining _
      (by simp [DispatchQueuedAt.inSection]) (by simp [hheld]) (by simp) (.inl rfl)
      (by simp [DispatchQueuedAt.hasBatch])
  | loop index =>
    rw [hpc] at hown
    cases he : s.draining[index]? with
    | some dispatch =>
      simp only [hpc, he, Option.some.injEq, Prod.mk.injEq] at hd
      obtain ⟨rfl, rfl⟩ := hd
      exact h.moveDispatcher hm s.queue s.draining s.holder
        hown (fun _ => Iff.rfl) (by simp) (.inl rfl) (by simp [DispatchQueuedAt.hasBatch])
    | none =>
      simp only [hpc, he, Option.some.injEq, Prod.mk.injEq] at hd
      obtain ⟨rfl, rfl⟩ := hd
      exact h.moveDispatcher hm s.queue [] s.holder
        hown (fun _ => Iff.rfl) (by simp) (.inl rfl) (fun _ => rfl)
  | handler index =>
    simp only [hpc, Option.some.injEq, Prod.mk.injEq] at hd
    obtain ⟨rfl, rfl⟩ := hd
    rw [hpc] at hown
    exact h.moveDispatcher hm s.queue s.draining s.holder
      hown (fun _ => Iff.rfl) (by simp) (.inl rfl) (by simp [DispatchQueuedAt.hasBatch])

theorem Guarded.step (h : Guarded main s) {move : Move T E}
    (hs : s.step main move = some (s', out)) : Guarded main s' := by
  cases move with
  | queueErased thread dispatch =>
    simp only [Queues.step] at hs
    split at hs
    · rename_i hpc
      split at hs
      · cases hs
      · rename_i hmay
        obtain ⟨rfl, rfl⟩ := Prod.mk.inj (Option.some.inj hs)
        have hown := h.producerHolds thread
        rw [hpc] at hown
        refine h.moveProducer s.queue s.holder hown (fun _ _ => Iff.rfl)
          (by simp) (.inl rfl) ?_
        intro hm _
        simpa [hm] using hmay
    · cases hs
  | produce thread => exact h.produce hs
  | dispatchQueued =>
    simp only [Queues.step] at hs
    split at hs
    · rename_i hm hpc
      obtain ⟨rfl, rfl⟩ := Prod.mk.inj (Option.some.inj hs)
      have hown := h.dispatcherHolds
      have hdrained := h.drained
      rw [hpc] at hown hdrained
      exact h.moveDispatcher hm s.queue s.draining s.holder
        hown (fun _ => Iff.rfl) (by simp) (.inl rfl) hdrained
    · cases hs
  | drain =>
    simp only [Queues.step] at hs
    split at hs
    · rename_i hm
      exact h.drain hm hs
    · cases hs

end Invariant

end TgeCore.Events
