import TgeCore.Events.System
import Mathlib.Algebra.Group.Nat.Defs
import Mathlib.Data.List.Nodup

namespace TgeCore.Events
open Library

variable {H P : Type}

/-- One subscription, as its owner sees it. -/
structure Subscription (H : Type) where
  handle : EventHandle
  type : EventTypeId
  handler : H
deriving DecidableEq

/-- An emit in progress: the subscriptions it found when it began and has not reached yet. -/
structure Visit (H P : Type) where
  pending : List (Subscription H)
  payload : P

/-- What the event system is for: an ordered list of live subscriptions. It also
remembers every subscription made, which is what makes the next handle new. -/
structure Registry (H P : Type) where
  made : List (Subscription H) := []
  live : List (Subscription H) := []
  visits : List (Visit H P) := []

def Registry.isLive (t : Registry H P) (sub : Subscription H) : Bool :=
  t.live.any (fun other => other.handle == sub.handle)

/-- A new subscription, with the next number for a handle. -/
def Registry.newest (t : Registry H P) (type : EventTypeId) (handler : H) : Subscription H :=
  ⟨UInt64.ofNat (t.made.length + 1), type, handler⟩

def Registry.add (t : Registry H P) (sub : Subscription H) : Registry H P :=
  { t with made := t.made ++ [sub], live := t.live ++ [sub] }

def Registry.remove (t : Registry H P) (handle : EventHandle) : Registry H P :=
  { t with live := t.live.filter (·.handle ≠ handle) }

def Registry.step (t : Registry H P) : Op H P → Option (Registry H P × Out H P)
  | .subscribe type handler =>
    let sub := t.newest type handler
    some (t.add sub, .subscribed sub.handle)
  | .unsubscribe handle => some (t.remove handle, .unsubscribed)
  | .emit type payload =>
    some ({ t with visits := ⟨t.live.filter (·.type = type), payload⟩ :: t.visits }, .emitting)
  | .next =>
    match t.visits with
    | [] => none
    | visit :: outer =>
      match visit.pending.dropWhile (fun sub => !t.isLive sub) with
      | [] => some ({ t with visits := outer }, .emitted)
      | sub :: pending =>
        some ({ t with visits := { visit with pending } :: outer }, .ran sub.handler visit.payload)

def registries (H P : Type) : Machine (Registry H P) (Op H P) (Out H P) := ⟨Registry.step⟩

/-- The subscriptions a list of shared entries stands for. -/
def Registry.view (t : Registry H P) (handlers : SHandlerList) : List (Subscription H) :=
  handlers.filterMap (t.made[·]?)

/-- The entries exist, and those still subscribed are the given ones, in order. -/
def Registry.Shows (t : Registry H P) (handlers : SHandlerList) (subs : List (Subscription H)) :
    Prop :=
  (∀ entry ∈ handlers, entry < t.made.length) ∧ (t.view handlers).filter t.isLive = subs

/-- The slot of an event type. Past the end of `m_events` it is as good as empty. -/
def CSystem.slot (s : CSystem H) (type : EventTypeId) : SEventSlot :=
  s.events[type.toNat]?.getD {}

/-- How the system's members hold the registry. Nothing is said of `numDead`: it
only decides when to compact, and compacting changes nothing a dispatch can see. -/
structure Refines (s : Session H P) (t : Registry H P) : Prop where
  nextHandle : s.system.nextHandle = UInt64.ofNat (t.made.length + 1)
  entries : s.system.entries =
    t.made.map (fun sub => { handle := sub.handle, handler := sub.handler, alive := t.isLive sub })
  numbered : t.made.map Subscription.handle =
    (List.range t.made.length).map (fun index => UInt64.ofNat (index + 1))
  distinct : (t.made.map Subscription.handle).Nodup
  made : ∀ sub ∈ t.live, sub ∈ t.made
  inRange : ∀ sub ∈ t.made, sub.type.toNat < s.system.events.length
  subscriptions : ∀ handle,
    match s.system.subscriptions handle with
    | none => ∀ sub ∈ t.live, sub.handle ≠ handle
    | some found => ∃ sub ∈ t.live, sub.handle = handle ∧ sub.type = found.type ∧
        t.made[found.entry]? = some sub
  handlers : ∀ type, t.Shows (s.system.slot type).handlers (t.live.filter (·.type = type))
  snapshot : ∀ type, (s.system.slot type).dirty = false →
    t.Shows ((s.system.slot type).snapshot.getD []) (t.live.filter (·.type = type))
  visits : List.Forall₂ (fun (dispatch : Dispatch P) (visit : Visit H P) =>
    dispatch.payload = visit.payload ∧ (∀ sub ∈ visit.pending, sub ∈ t.made) ∧
      t.Shows dispatch.rest (visit.pending.filter t.isLive)) s.dispatches t.visits

theorem refines_initial : Refines ({} : Session H P) {} where
  nextHandle := rfl
  entries := rfl
  numbered := rfl
  distinct := List.nodup_nil
  made := by simp
  inRange := by simp
  subscriptions := by simp
  handlers := by simp [CSystem.slot, Registry.Shows, Registry.view]
  snapshot := by simp [CSystem.slot, Registry.Shows, Registry.view]
  visits := .nil

section Shows
variable {t : Registry H P} {handlers : SHandlerList} {subs : List (Subscription H)}

theorem mem_isLive {sub : Subscription H} (h : sub ∈ t.live) : t.isLive sub = true :=
  List.any_eq_true.mpr ⟨sub, h, by simp⟩

/-- With distinct handles, being live is being in the list. -/
theorem isLive_iff (hd : (t.made.map Subscription.handle).Nodup) (hl : ∀ sub ∈ t.live, sub ∈ t.made)
    {sub : Subscription H} (hs : sub ∈ t.made) : t.isLive sub = true ↔ sub ∈ t.live := by
  constructor
  · intro h
    obtain ⟨other, ho, he⟩ := List.any_eq_true.mp h
    have := List.inj_on_of_nodup_map hd (hl other ho) hs (by simpa using he)
    exact this ▸ ho
  · exact mem_isLive

theorem view_mem {sub : Subscription H} (h : sub ∈ t.view handlers) : sub ∈ t.made := by
  obtain ⟨entry, _, he⟩ := List.mem_filterMap.mp h
  exact List.mem_of_getElem? he

theorem filter_isLive (p : Subscription H → Bool) :
    (t.live.filter p).filter t.isLive = t.live.filter p := by
  rw [List.filter_eq_self]
  exact fun sub hs => mem_isLive (List.mem_of_mem_filter hs)

/-- Dropping dead entries drops nothing that shows. -/
theorem Registry.Shows.eraseDead {s : CSystem H} (he : s.entries = t.made.map (fun sub =>
      { handle := sub.handle, handler := sub.handler, alive := t.isLive sub }))
    (h : t.Shows handlers subs) : t.Shows (s.eraseDead handlers) subs := by
  obtain ⟨hin, hsubs⟩ := h
  refine ⟨fun entry h => hin entry (List.mem_of_mem_filter h), ?_⟩
  rw [← hsubs]
  have halive : ∀ entry sub, t.made[entry]? = some sub → s.alive entry = t.isLive sub := by
    intro entry sub hm
    simp [CSystem.alive, he, hm]
  clear hin hsubs
  induction handlers with
  | nil => rfl
  | cons entry rest ih =>
    cases hm : t.made[entry]? with
    | none =>
      have : s.alive entry = false := by simp [CSystem.alive, he, hm]
      simp only [CSystem.eraseDead, Registry.view] at ih ⊢
      simp [this, hm, ih]
    | some sub =>
      have := halive entry sub hm
      simp only [CSystem.eraseDead, Registry.view] at ih ⊢
      by_cases hl : t.isLive sub = true
      · simp [this, hm, ih, hl]
      · simp [this, hm, ih, hl]

theorem isLive_remove (handle : EventHandle) (sub : Subscription H) :
    (t.remove handle).isLive sub = (t.isLive sub && decide (sub.handle ≠ handle)) := by
  simp only [Registry.isLive, Registry.remove, List.any_filter]
  rw [Bool.eq_iff_iff]
  simp only [List.any_eq_true, Bool.and_eq_true, decide_eq_true_eq, beq_iff_eq]
  constructor
  · rintro ⟨other, ho, hne, he⟩
    exact ⟨⟨other, ho, he⟩, he ▸ hne⟩
  · rintro ⟨⟨other, ho, he⟩, hne⟩
    exact ⟨other, ho, he ▸ hne, he⟩

theorem Registry.Shows.remove (h : t.Shows handlers subs) (handle : EventHandle) :
    (t.remove handle).Shows handlers (subs.filter (·.handle ≠ handle)) := by
  obtain ⟨hin, rfl⟩ := h
  refine ⟨hin, ?_⟩
  rw [List.filter_filter]
  apply List.filter_congr
  intro sub _
  rw [isLive_remove, Bool.and_comm]

section Add
variable {new : Subscription H} (hfresh : ∀ sub ∈ t.made, sub.handle ≠ new.handle)

theorem isLive_add_self (t : Registry H P) (new : Subscription H) : (t.add new).isLive new = true := by
  simp [Registry.isLive, Registry.add]

include hfresh in
theorem isLive_add {sub : Subscription H} (hs : sub ∈ t.made) :
    (t.add new).isLive sub = t.isLive sub := by
  simp [Registry.isLive, Registry.add, (hfresh sub hs).symm]

theorem view_add (hin : ∀ entry ∈ handlers, entry < t.made.length) :
    (t.add new).view handlers = t.view handlers := by
  apply List.filterMap_congr
  intro entry hentry
  rw [Registry.add, List.getElem?_append_left (hin entry hentry)]

include hfresh in
theorem Registry.Shows.add (h : t.Shows handlers subs) : (t.add new).Shows handlers subs := by
  obtain ⟨hin, rfl⟩ := h
  refine ⟨fun entry hentry => ?_, ?_⟩
  · have := hin entry hentry
    simp only [Registry.add, List.length_append, List.length_singleton]
    omega
  · rw [view_add hin]
    exact List.filter_congr fun sub hs => isLive_add hfresh (view_mem hs)

include hfresh in
/-- The new entry shows as the new subscription, after all the others. -/
theorem Registry.Shows.add_newest (h : t.Shows handlers subs) :
    (t.add new).Shows (handlers ++ [t.made.length]) (subs ++ [new]) := by
  obtain ⟨hin, hsubs⟩ := h.add hfresh
  refine ⟨?_, ?_⟩
  · intro entry hentry
    rcases List.mem_append.mp hentry with he | he
    · exact hin entry he
    · simp [Registry.add, List.mem_singleton.mp he]
  · have hone : (t.add new).view [t.made.length] = [new] := by simp [Registry.view, Registry.add]
    have happ : (t.add new).view (handlers ++ [t.made.length]) =
        (t.add new).view handlers ++ (t.add new).view [t.made.length] := List.filterMap_append
    rw [happ, List.filter_append, hsubs, hone]
    simp [isLive_add_self]

end Add

/-- The dispatch loop stops at the first entry that still shows. -/
theorem nextAlive_spec {s : CSystem H} (he : s.entries = t.made.map (fun sub =>
      { handle := sub.handle, handler := sub.handler, alive := t.isLive sub }))
    (h : t.Shows handlers subs) :
    (s.nextAlive handlers = none ∧ subs = []) ∨
      ∃ sub rest later, s.nextAlive handlers = some (sub.handler, rest) ∧ subs = sub :: later ∧
        t.Shows rest later := by
  obtain ⟨hin, rfl⟩ := h
  induction handlers with
  | nil => exact .inl ⟨rfl, rfl⟩
  | cons entry rest ih =>
    obtain ⟨hentry, hrest⟩ := List.forall_mem_cons.mp hin
    have hm : t.made[entry]? = some t.made[entry] := List.getElem?_eq_getElem hentry
    have hview : t.view (entry :: rest) = t.made[entry] :: t.view rest := by
      simp [Registry.view, hm]
    rw [hview, List.filter_cons]
    cases hl : t.isLive t.made[entry] with
    | true =>
      refine .inr ⟨t.made[entry], rest, (t.view rest).filter t.isLive, ?_, by simp, hrest, rfl⟩
      simp [CSystem.nextAlive, he, hm, hl]
    | false =>
      have : s.nextAlive (entry :: rest) = s.nextAlive rest := by
        simp [CSystem.nextAlive, he, hm, hl]
      rw [this]
      exact ih hrest

theorem dropWhile_filter (p : α → Bool) (xs : List α) :
    (xs.dropWhile (fun x => !p x) = [] ∧ xs.filter p = []) ∨
      ∃ x rest, xs.dropWhile (fun x => !p x) = x :: rest ∧ xs.filter p = x :: rest.filter p ∧
        ∀ y ∈ rest, y ∈ xs := by
  induction xs with
  | nil => exact .inl ⟨rfl, rfl⟩
  | cons x xs ih =>
    cases hp : p x with
    | true => exact .inr ⟨x, xs, by simp [hp], by simp [hp], by simp_all⟩
    | false =>
      rcases ih with ⟨hd, hf⟩ | ⟨y, rest, hd, hf, hm⟩
      · exact .inl ⟨by simp [hp, hd], by simp [hp, hf]⟩
      · exact .inr ⟨y, rest, by simp [hp, hd], by simp [hp, hf], fun z hz => .tail _ (hm z hz)⟩

end Shows

section Slots
variable (s : CSystem H) (type other : EventTypeId)

theorem length_resized :
    s.events.length ≤ (s.resized type).length ∧ type.toNat < (s.resized type).length := by
  unfold CSystem.resized
  split
  · simp only [List.length_append, List.length_replicate]
    omega
  · omega

theorem slot_subscribeErased (handler : H) :
    (s.subscribeErased type handler).1.slot other =
      if other = type then
        { s.slot type with handlers := (s.slot type).handlers ++ [s.entries.length], dirty := true }
      else s.slot other := by
  have hsize := (length_resized s type).2
  have hold : ∀ index : Nat, (s.resized type)[index]?.getD {} = s.events[index]?.getD {} := by
    intro index
    unfold CSystem.resized
    split
    · by_cases hi : index < s.events.length
      · rw [List.getElem?_append_left hi]
      · rw [List.getElem?_append_right (by omega), List.getElem?_eq_none (by omega : _ ≤ index),
          List.getElem?_replicate]
        split <;> rfl
    · rfl
  simp only [CSystem.slot, CSystem.subscribeErased, List.getElem?_modify]
  by_cases h : other = type
  · subst h
    have := hold other.toNat
    rw [List.getElem?_eq_getElem hsize] at this ⊢
    simp only [Option.getD_some] at this
    simp [this]
  · have hne : type.toNat ≠ other.toNat := fun he => h (UInt32.toNat_inj.mp he.symm)
    simp [h, hne, hold]

/-- Unsubscribing leaves a slot alone or marks it, keeping its handlers but for the dead. -/
theorem slot_unsubscribe (handle : EventHandle) :
    (s.unsubscribe handle).slot other = s.slot other ∨
      ((s.unsubscribe handle).slot other).dirty = true ∧
        (((s.unsubscribe handle).slot other).handlers = (s.slot other).handlers ∨
          ((s.unsubscribe handle).slot other).handlers =
            (s.unsubscribe handle).eraseDead (s.slot other).handlers) := by
  unfold CSystem.unsubscribe
  cases s.subscriptions handle with
  | none => exact .inl rfl
  | some found =>
    simp only [CSystem.slot, List.getElem?_modify]
    by_cases h : found.type.toNat = other.toNat
    · cases s.events[other.toNat]? with
      | none => exact .inl (by simp)
      | some slot =>
        right
        simp only [h, if_true, Option.map_eq_map, Option.map_some, Option.getD_some]
        split
        · exact ⟨rfl, .inr rfl⟩
        · exact ⟨rfl, .inl rfl⟩
    · exact .inl (by simp [h])

theorem getSnapshot_of_dirty (h : (s.slot type).dirty = true) :
    (s.getSnapshot type).2 = some (s.eraseDead (s.slot type).handlers) ∧
      (s.getSnapshot type).1.slot other =
        if other = type then
          { handlers := s.eraseDead (s.slot type).handlers
            snapshot := some (s.eraseDead (s.slot type).handlers) }
        else s.slot other := by
  unfold CSystem.getSnapshot
  cases hs : s.events[type.toNat]? with
  | none => simp [CSystem.slot, hs] at h
  | some slot =>
    simp only [CSystem.slot, hs, Option.getD_some] at h ⊢
    simp only [h, if_true, true_and, List.getElem?_set]
    by_cases ho : other = type
    · subst ho
      have := (List.getElem?_eq_some_iff.mp hs).1
      simp [this]
    · have hne : type.toNat ≠ other.toNat := fun he => ho (UInt32.toNat_inj.mp he.symm)
      simp [ho, hne]

theorem getSnapshot_of_clean (h : (s.slot type).dirty = false) :
    s.getSnapshot type = (s, (s.slot type).snapshot) := by
  unfold CSystem.getSnapshot
  cases hs : s.events[type.toNat]? with
  | none => simp [CSystem.slot, hs]
  | some slot =>
    simp only [CSystem.slot, hs, Option.getD_some] at h ⊢
    simp [h]

/-- Nothing but the slots changes when a snapshot is taken. -/
theorem getSnapshot_frame : (s.getSnapshot type).1.entries = s.entries ∧
    (s.getSnapshot type).1.events.length = s.events.length ∧
    (s.getSnapshot type).1.subscriptions = s.subscriptions ∧
    (s.getSnapshot type).1.nextHandle = s.nextHandle := by
  unfold CSystem.getSnapshot
  cases s.events[type.toNat]? with
  | none => simp
  | some slot =>
    simp only
    split <;> simp

/-- What unsubscribing does besides the slots. -/
theorem unsubscribe_frame (handle : EventHandle) :
    (s.unsubscribe handle).events.length = s.events.length ∧
      (s.unsubscribe handle).subscriptions = Function.update s.subscriptions handle none ∧
      (s.unsubscribe handle).nextHandle = s.nextHandle := by
  unfold CSystem.unsubscribe
  cases hf : s.subscriptions handle with
  | none =>
    have hsame : Function.update s.subscriptions handle none = s.subscriptions := by
      rw [← hf, Function.update_eq_self]
    exact ⟨rfl, hsame.symm, rfl⟩
  | some found => exact ⟨by simp, rfl, rfl⟩

end Slots

/-- Unsubscribing kills the one entry that carries the handle. -/
theorem entries_unsubscribe {s : Session H P} {t : Registry H P} (h : Refines s t)
    (handle : EventHandle) :
    (s.system.unsubscribe handle).entries = t.made.map (fun sub =>
      { handle := sub.handle, handler := sub.handler
        alive := t.isLive sub && decide (sub.handle ≠ handle) }) := by
  have hsub := h.subscriptions handle
  unfold CSystem.unsubscribe
  cases hf : s.system.subscriptions handle with
  | none =>
    rw [hf] at hsub
    simp only [h.entries]
    apply List.map_congr_left
    intro sub hm
    have : t.isLive sub = true → sub.handle ≠ handle :=
      fun hl => hsub sub ((isLive_iff h.distinct h.made hm).mp hl)
    cases hl : t.isLive sub with
    | false => rfl
    | true => simp [this hl]
  | some found =>
    rw [hf] at hsub
    obtain ⟨sub, hlive, rfl, _, hentry⟩ := hsub
    simp only [h.entries]
    apply List.ext_getElem?
    intro index
    rw [List.getElem?_modify, List.getElem?_map, List.getElem?_map]
    cases hi : t.made[index]? with
    | none => split <;> rfl
    | some other =>
      by_cases he : found.entry = index
      · subst he
        obtain rfl := Option.some.inj (hentry.symm.trans hi)
        simp
      · have hne : other.handle ≠ sub.handle := by
          intro hh
          apply he
          obtain ⟨hlt, _⟩ := List.getElem?_eq_some_iff.mp hentry
          apply (List.getElem?_inj (by simpa using hlt) h.distinct).mp
          rw [List.getElem?_map, List.getElem?_map, hi, hentry, Option.map_some, Option.map_some, hh]
        simp [he, hne]

section Step
variable {s : Session H P} {t : Registry H P} (h : Refines s t)
include h

theorem Refines.emit (type : EventTypeId) (payload : P) :
    Refines
      ⟨(s.system.getSnapshot type).1,
        ⟨(s.system.getSnapshot type).2.getD [], payload⟩ :: s.dispatches⟩
      { t with visits := ⟨t.live.filter (·.type = type), payload⟩ :: t.visits } := by
  obtain ⟨hent, hlen, hsub, hnext⟩ := getSnapshot_frame s.system type
  have hmade : ∀ sub ∈ t.live.filter (·.type = type), sub ∈ t.made :=
    fun sub hs => h.made sub (List.mem_of_mem_filter hs)
  have hdead := (h.handlers type).eraseDead h.entries
  refine ⟨hnext ▸ h.nextHandle, hent ▸ h.entries, h.numbered, h.distinct, h.made, hlen ▸ h.inRange,
    hsub ▸ h.subscriptions, ?_, ?_, .cons ⟨rfl, hmade, ?_⟩ h.visits⟩
  · intro other
    cases hd : (s.system.slot type).dirty with
    | false =>
      rw [getSnapshot_of_clean _ _ hd]
      exact h.handlers other
    | true =>
      rw [(getSnapshot_of_dirty _ _ other hd).2]
      split
      · rename_i he
        exact he ▸ hdead
      · exact h.handlers other
  · intro other
    cases hd : (s.system.slot type).dirty with
    | false =>
      rw [getSnapshot_of_clean _ _ hd]
      exact h.snapshot other
    | true =>
      rw [(getSnapshot_of_dirty _ _ other hd).2]
      split
      · rename_i he
        exact fun _ => he ▸ hdead
      · exact h.snapshot other
  · change t.Shows _ ((t.live.filter (·.type = type)).filter t.isLive)
    rw [filter_isLive]
    cases hd : (s.system.slot type).dirty with
    | false =>
      rw [getSnapshot_of_clean _ _ hd]
      exact h.snapshot type hd
    | true =>
      rw [(getSnapshot_of_dirty _ _ type hd).1]
      exact hdead

theorem Refines.next :
    (s.step .next = none ∧ t.step .next = none) ∨
      ∃ s' t' out, s.step .next = some (s', out) ∧ t.step .next = some (t', out) ∧ Refines s' t' := by
  have hvisits := h.visits
  obtain ⟨system, dispatches⟩ := s
  obtain ⟨made, live, visits⟩ := t
  cases hvisits with
  | nil => exact .inl ⟨rfl, rfl⟩
  | cons hfirst houter =>
    rename_i dispatch visit outerDispatches outerVisits
    obtain ⟨hpayload, hmade, hshows⟩ := hfirst
    right
    simp only [Session.step, Registry.step]
    rcases nextAlive_spec h.entries hshows with ⟨hs, ht⟩ | ⟨sub, rest, later, hs, ht, hrest⟩
    · rcases dropWhile_filter (Registry.isLive ⟨made, live, visit :: outerVisits⟩) visit.pending with
        ⟨hd, _⟩ | ⟨x, pending, _, hf, _⟩
      · rw [hs, hd]
        exact ⟨_, _, _, rfl, rfl, { h with visits := houter }⟩
      · rw [hf] at ht
        cases ht
    · rcases dropWhile_filter (Registry.isLive ⟨made, live, visit :: outerVisits⟩) visit.pending with
        ⟨_, hf⟩ | ⟨x, pending, hd, hf, hmem⟩
      · rw [hf] at ht
        cases ht
      · rw [hf] at ht
        obtain ⟨rfl, rfl⟩ := List.cons_eq_cons.mp ht
        rw [hs, hd, hpayload]
        refine ⟨_, _, _, rfl, rfl, { h with visits := .cons ⟨rfl, ?_, hrest⟩ houter }⟩
        exact fun sub hsub => hmade sub (hmem sub hsub)

theorem subscriptions_unsubscribe (handle other : EventHandle) :
    match (s.system.unsubscribe handle).subscriptions other with
    | none => ∀ sub ∈ (t.remove handle).live, sub.handle ≠ other
    | some found => ∃ sub ∈ (t.remove handle).live, sub.handle = other ∧ sub.type = found.type ∧
        t.made[found.entry]? = some sub := by
  rw [(unsubscribe_frame s.system handle).2.1]
  by_cases ho : other = handle
  · subst ho
    rw [Function.update_self]
    exact fun sub hs => by simpa using (List.mem_filter.mp hs).2
  · rw [Function.update_of_ne ho]
    have hother := h.subscriptions other
    cases hf : s.system.subscriptions other with
    | none =>
      rw [hf] at hother
      exact fun sub hs => hother sub (List.mem_of_mem_filter hs)
    | some found =>
      rw [hf] at hother
      obtain ⟨sub, hl, rfl, htype, hentry⟩ := hother
      exact ⟨sub, List.mem_filter.mpr ⟨hl, by simpa using ho⟩, rfl, htype, hentry⟩

theorem Refines.unsubscribe (handle : EventHandle) :
    Refines { s with system := s.system.unsubscribe handle } (t.remove handle) := by
  have hcomm : ∀ type, (t.remove handle).live.filter (·.type = type) =
      (t.live.filter (·.type = type)).filter (·.handle ≠ handle) := by
    intro type
    rw [Registry.remove, List.filter_filter, List.filter_filter]
    simp only [Bool.and_comm]
  have hentries : (s.system.unsubscribe handle).entries = (t.remove handle).made.map (fun sub =>
      { handle := sub.handle, handler := sub.handler, alive := (t.remove handle).isLive sub }) := by
    rw [entries_unsubscribe h]
    simp only [isLive_remove]
    rfl
  obtain ⟨hlen, _, hnext⟩ := unsubscribe_frame s.system handle
  refine ⟨hnext ▸ h.nextHandle, hentries, h.numbered, h.distinct, ?_, hlen ▸ h.inRange,
    subscriptions_unsubscribe h handle, ?_, ?_, ?_⟩
  · exact fun sub hs => h.made sub (List.mem_of_mem_filter hs)
  · intro type
    rw [hcomm]
    have hkept := (h.handlers type).remove handle
    rcases slot_unsubscribe s.system type handle with he | ⟨_, he | he⟩
    · rw [he]
      exact hkept
    · rw [he]
      exact hkept
    · rw [he]
      exact hkept.eraseDead hentries
  · intro type hclean
    rw [hcomm]
    rcases slot_unsubscribe s.system type handle with he | ⟨hd, _⟩
    · rw [he] at hclean ⊢
      exact (h.snapshot type hclean).remove handle
    · rw [hd] at hclean
      cases hclean
  · refine h.visits.imp fun dispatch visit ⟨hp, hm, hv⟩ => ⟨hp, hm, ?_⟩
    have := hv.remove handle
    rw [List.filter_filter] at this
    convert this using 2
    funext sub
    rw [isLive_remove, Bool.and_comm]

omit h in
theorem handle_fresh (hn : t.made.map Subscription.handle =
      (List.range t.made.length).map (fun index => UInt64.ofNat (index + 1)))
    (hbound : t.made.length < 2 ^ 64) {sub : Subscription H} (hs : sub ∈ t.made) :
    sub.handle ≠ UInt64.ofNat (t.made.length + 1) := by
  intro he
  have hin : sub.handle ∈ t.made.map Subscription.handle := List.mem_map_of_mem hs
  rw [hn, he] at hin
  obtain ⟨index, hi, heq⟩ := List.mem_map.mp hin
  have hlt := List.mem_range.mp hi
  have hnat := congrArg UInt64.toNat heq
  simp only [UInt64.toNat_ofNat'] at hnat
  omega

section Subscribe
variable (type : EventTypeId) (handler : H)
variable (hfresh : ∀ sub ∈ t.made, sub.handle ≠ (t.newest type handler).handle)

include hfresh in
theorem entries_subscribe : (s.system.subscribeErased type handler).1.entries =
    (t.add (t.newest type handler)).made.map (fun sub =>
      { handle := sub.handle, handler := sub.handler
        alive := (t.add (t.newest type handler)).isLive sub }) := by
  have hold : t.made.map (fun sub => ({ handle := sub.handle, handler := sub.handler
                                        alive := t.isLive sub } : SHandler H)) =
      t.made.map (fun sub => { handle := sub.handle, handler := sub.handler
                               alive := (t.add (t.newest type handler)).isLive sub }) :=
    List.map_congr_left fun sub hs => by rw [isLive_add hfresh hs]
  have hlast := isLive_add_self t (t.newest type handler)
  simp only [CSystem.subscribeErased, h.entries, hold, h.nextHandle]
  simp only [Registry.add] at hlast ⊢
  rw [List.map_append, List.map_singleton, hlast]
  rfl

theorem subscriptions_subscribe (handle : EventHandle) :
    match (s.system.subscribeErased type handler).1.subscriptions handle with
    | none => ∀ sub ∈ (t.add (t.newest type handler)).live, sub.handle ≠ handle
    | some found => ∃ sub ∈ (t.add (t.newest type handler)).live, sub.handle = handle ∧
        sub.type = found.type ∧ (t.add (t.newest type handler)).made[found.entry]? = some sub := by
  have hcount : s.system.entries.length = t.made.length := by rw [h.entries, List.length_map]
  simp only [CSystem.subscribeErased]
  by_cases he : handle = s.system.nextHandle
  · subst he
    rw [Function.update_self]
    exact ⟨t.newest type handler, by simp [Registry.add], h.nextHandle.symm, rfl,
      by simp [Registry.add, hcount]⟩
  · rw [Function.update_of_ne he]
    have hold := h.subscriptions handle
    cases hf : s.system.subscriptions handle with
    | none =>
      rw [hf] at hold
      intro sub hs
      rcases List.mem_append.mp hs with hs | hs
      · exact hold sub hs
      · rw [List.mem_singleton.mp hs]
        exact fun hh => he (hh.symm.trans h.nextHandle.symm)
    | some found =>
      rw [hf] at hold
      obtain ⟨sub, hs, hh, ht, hentry⟩ := hold
      obtain ⟨hlt, _⟩ := List.getElem?_eq_some_iff.mp hentry
      refine ⟨sub, List.mem_append_left _ hs, hh, ht, ?_⟩
      rw [Registry.add, List.getElem?_append_left hlt, hentry]

include hfresh in
theorem distinct_subscribe : ((t.add (t.newest type handler)).made.map Subscription.handle).Nodup := by
  simp only [Registry.add, List.map_append, List.map_singleton]
  rw [← List.concat_eq_append]
  refine List.Nodup.concat ?_ h.distinct
  intro hin
  obtain ⟨sub, hs, he⟩ := List.mem_map.mp hin
  exact hfresh sub hs he

end Subscribe

theorem Refines.subscribe (hbound : t.made.length < 2 ^ 64) (type : EventTypeId) (handler : H) :
    Refines { s with system := (s.system.subscribeErased type handler).1 }
      (t.add (t.newest type handler)) := by
  have hfresh : ∀ sub ∈ t.made, sub.handle ≠ (t.newest type handler).handle :=
    fun sub hs => handle_fresh h.numbered hbound hs
  have hcount : s.system.entries.length = t.made.length := by rw [h.entries, List.length_map]
  have hsize := length_resized s.system type
  have hlength : (s.system.subscribeErased type handler).1.events.length =
      (s.system.resized type).length := List.length_modify ..
  have hfilter : ∀ other, (t.add (t.newest type handler)).live.filter (·.type = other) =
      t.live.filter (·.type = other) ++ if other = type then [t.newest type handler] else [] := by
    intro other
    by_cases ho : type = other
    · simp [Registry.add, Registry.newest, List.filter_append, ho]
    · simp [Registry.add, Registry.newest, List.filter_append, ho, Ne.symm ho]
  refine ⟨?_, entries_subscribe h type handler hfresh, ?_, distinct_subscribe h type handler hfresh, ?_,
    ?_, subscriptions_subscribe h type handler, ?_, ?_, ?_⟩
  · simp [CSystem.subscribeErased, Registry.add, h.nextHandle, UInt64.ofNat_add]
  · simp only [Registry.add, List.map_append, h.numbered, List.length_append, List.length_singleton,
      List.range_succ]
    rfl
  · intro sub hs
    rcases List.mem_append.mp hs with hs | hs
    · exact List.mem_append_left _ (h.made sub hs)
    · exact List.mem_append_right _ hs
  · intro sub hs
    rw [hlength]
    rcases List.mem_append.mp hs with hs | hs
    · exact Nat.lt_of_lt_of_le (h.inRange sub hs) hsize.1
    · rw [List.mem_singleton.mp hs]
      exact hsize.2
  · intro other
    rw [slot_subscribeErased, hfilter, hcount]
    split
    · rename_i ho
      subst ho
      exact (h.handlers other).add_newest hfresh
    · rw [List.append_nil]
      exact (h.handlers other).add hfresh
  · intro other
    rw [slot_subscribeErased, hfilter]
    split
    · intro hclean
      cases hclean
    · rw [List.append_nil]
      exact fun hclean => (h.snapshot other hclean).add hfresh
  · refine h.visits.imp fun dispatch visit ⟨hp, hm, hv⟩ => ⟨hp, ?_, ?_⟩
    · exact fun sub hs => List.mem_append_left _ (hm sub hs)
    · have hsame : visit.pending.filter (t.add (t.newest type handler)).isLive =
          visit.pending.filter t.isLive :=
        List.filter_congr fun sub hs => isLive_add hfresh (hm sub hs)
      rw [hsame]
      exact hv.add hfresh

end Step

end TgeCore.Events
