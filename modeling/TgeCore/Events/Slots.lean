import TgeCore.Events.Refinement

namespace TgeCore.Events
open Library

variable {H P : Type}

/-- The event type of each subscription ever made. A subscription's entry has
the same position as its type has here. -/
def subscribedTypes (ops : List (Op H P)) : List EventTypeId :=
  ops.filterMap fun op => match op with
    | .subscribe type _ => some type
    | _ => none

/-- The entries of one type's subscriptions, in the order they were made. -/
def ownEntries (types : List EventTypeId) (type : EventTypeId) : SHandlerList :=
  (List.range types.length).filter (types[·]? = some type)

/-- What a slot's members say of the entries, of which some are dead by now.
No subscription, no snapshot: such a slot is there because a higher type has one. -/
structure SlotKept (alive : Nat → Bool) (types : List EventTypeId) (type : EventTypeId)
    (slot : SEventSlot) : Prop where
  made : ∀ entry ∈ slot.handlers, entry < types.length
  counted : slot.numDead = slot.handlers.countP (fun entry => !alive entry)
  own : slot.handlers.filter alive = (ownEntries types type).filter alive
  bounded : slot.handlers.length ≤ 2 * slot.handlers.countP alive
  clean : slot.dirty = false → (∀ entry ∈ slot.handlers, alive entry = true) ∧
    slot.snapshot = if type ∈ types then some slot.handlers else none
  untouched : type ∉ types → slot.handlers = [] ∧ slot.dirty = false

/-- What holds between any two calls, inside handlers too: `types` are those of
the Subscribe calls so far. -/
structure SlotsKept (types : List EventTypeId) (s : CSystem H) : Prop where
  slots : ∀ index slot, s.events[index]? = some slot →
    ∃ type : EventTypeId, type.toNat = index ∧ SlotKept s.alive types type slot
  once : ∀ handle found, s.subscriptions handle = some found →
    s.alive found.entry = true ∧ types[found.entry]? = some found.type ∧
      found.type.toNat < s.events.length ∧ ∀ index slot, s.events[index]? = some slot →
        slot.handlers.count found.entry = if index = found.type.toNat then 1 else 0

theorem mem_ownEntries {types : List EventTypeId} {type : EventTypeId} {entry : Nat} :
    entry ∈ ownEntries types type ↔ types[entry]? = some type := by
  rw [ownEntries, List.mem_filter, List.mem_range, decide_eq_true_eq]
  exact ⟨fun h => h.2, fun h => ⟨(List.getElem?_eq_some_iff.mp h).1, h⟩⟩

theorem nodup_ownEntries (types : List EventTypeId) (type : EventTypeId) :
    (ownEntries types type).Nodup :=
  List.nodup_range.filter _

theorem ownEntries_append (types : List EventTypeId) (new type : EventTypeId) :
    ownEntries (types ++ [new]) type =
      ownEntries types type ++ if type = new then [types.length] else [] := by
  have hold : (List.range types.length).filter ((types ++ [new])[·]? = some type) =
      ownEntries types type := by
    apply List.filter_congr
    intro entry hentry
    rw [List.getElem?_append_left (List.mem_range.mp hentry)]
  rw [ownEntries, List.length_append, List.length_singleton, List.range_succ, List.filter_append, hold]
  by_cases h : type = new
  · simp [h]
  · simp [h, Ne.symm h]

section SlotKept
variable {alive : Nat → Bool} {types : List EventTypeId} {type : EventTypeId} {slot : SEventSlot}

theorem slotKept_default (alive : Nat → Bool) (h : type ∉ types) : SlotKept alive types type {} where
  made := by simp
  counted := rfl
  own := by
    have hnone : ownEntries types type = [] := by
      apply List.eq_nil_iff_forall_not_mem.mpr
      exact fun entry hentry => h (List.mem_of_getElem? (mem_ownEntries.mp hentry))
    rw [hnone]
  bounded := by simp
  clean := by simp [h]
  untouched _ := ⟨rfl, rfl⟩

/-- A living entry is in the list of its own type, once, and in no other list. -/
theorem SlotKept.count (h : SlotKept alive types type slot) {entry : Nat} (ha : alive entry = true) :
    slot.handlers.count entry = if types[entry]? = some type then 1 else 0 := by
  have hown : slot.handlers.count entry = (ownEntries types type).count entry := by
    rw [← List.count_filter ha, h.own, List.count_filter ha]
  rw [hown]
  split
  · rename_i hin
    exact List.count_eq_one_of_mem (nodup_ownEntries types type) (mem_ownEntries.mpr hin)
  · rename_i hout
    exact List.count_eq_zero.mpr fun hin => hout (mem_ownEntries.mp hin)

theorem SlotKept.dead_add_alive (h : SlotKept alive types type slot) :
    slot.numDead + slot.handlers.countP alive = slot.handlers.length := by
  rw [h.counted, Nat.add_comm, List.length_eq_countP_add_countP alive]
  simp

/-- What dies outside a slot's own entries is nothing to the slot. -/
theorem SlotKept.congr {alive' : Nat → Bool} (h : SlotKept alive types type slot)
    (hsame : ∀ entry, entry ∈ slot.handlers ∨ entry ∈ ownEntries types type →
      alive' entry = alive entry) : SlotKept alive' types type slot where
  made := h.made
  counted := by
    rw [h.counted]
    exact List.countP_congr fun entry hentry => by rw [hsame entry (.inl hentry)]
  own := by
    rw [List.filter_congr fun entry hentry => hsame entry (.inl hentry), h.own]
    exact List.filter_congr fun entry hentry => (hsame entry (.inr hentry)).symm
  bounded := by
    rw [List.countP_congr fun entry hentry => by rw [hsame entry (.inl hentry)]]
    exact h.bounded
  clean hclean := by
    refine ⟨fun entry hentry => ?_, (h.clean hclean).2⟩
    rw [hsame entry (.inl hentry)]
    exact (h.clean hclean).1 entry hentry
  untouched := h.untouched

/-- A subscription to another type leaves the slot alone. -/
theorem SlotKept.later (h : SlotKept alive types type slot) {new : EventTypeId} (hne : type ≠ new) :
    SlotKept alive (types ++ [new]) type slot where
  made entry hentry := by
    have := h.made entry hentry
    rw [List.length_append]
    omega
  counted := h.counted
  own := by rw [h.own, ownEntries_append, if_neg hne, List.append_nil]
  bounded := h.bounded
  clean hclean := by simpa [hne] using h.clean hclean
  untouched hout := h.untouched fun hin => hout (List.mem_append_left _ hin)

theorem SlotKept.subscribe (h : SlotKept alive types type slot) (hnew : alive types.length = true) :
    SlotKept alive (types ++ [type]) type
      { slot with handlers := slot.handlers ++ [types.length], dirty := true } where
  made entry hentry := by
    rw [List.length_append, List.length_singleton]
    rcases List.mem_append.mp hentry with hin | hin
    · have := h.made entry hin
      omega
    · rw [List.mem_singleton.mp hin]
      omega
  counted := by simp [h.counted, hnew]
  own := by rw [List.filter_append, h.own, ownEntries_append, if_pos rfl, List.filter_append]
  bounded := by
    have := h.bounded
    simp only [List.length_append, List.countP_append, List.countP_singleton, hnew, if_true,
      List.length_singleton]
    omega
  clean hclean := by cases hclean
  untouched hout := absurd (List.mem_append_right _ (List.mem_singleton.mpr rfl)) hout

/-- What std::erase_if leaves: the living, and nothing to count. -/
theorem slotKept_erased {handlers : SHandlerList} (hmade : ∀ entry ∈ handlers, entry < types.length)
    (hown : handlers.filter alive = (ownEntries types type).filter alive) (hin : type ∈ types)
    {snapshot : Option SHandlerList} {dirty : Bool}
    (hclean : dirty = false → snapshot = some (handlers.filter alive)) :
    SlotKept alive types type
      { handlers := handlers.filter alive, snapshot, numDead := 0, dirty } where
  made entry hentry := hmade entry (List.mem_of_mem_filter hentry)
  counted := by
    symm
    rw [List.countP_eq_zero]
    intro entry hentry
    simp [(List.mem_filter.mp hentry).2]
  own := by
    rw [List.filter_filter]
    simpa using hown
  bounded := by
    have hall : (handlers.filter alive).countP alive = (handlers.filter alive).length :=
      List.countP_eq_length.mpr fun entry hentry => (List.mem_filter.mp hentry).2
    simp only [hall]
    omega
  clean hd := by
    refine ⟨fun entry hentry => (List.mem_filter.mp hentry).2, ?_⟩
    rw [if_pos hin]
    exact hclean hd
  untouched hout := absurd hin hout

/-- The slot when one more of its entries is dead, before it is compacted. All of
it holds but the bound on its length. -/
theorem SlotKept.buried (h : SlotKept alive types type slot) {entry : Nat} (ha : alive entry = true)
    (hin : types[entry]? = some type) {alive' : Nat → Bool}
    (hdead : ∀ other, alive' other = (alive other && decide (other ≠ entry))) :
    slot.numDead + 1 = slot.handlers.countP (fun other => !alive' other) ∧
      slot.handlers.filter alive' = (ownEntries types type).filter alive' ∧
      slot.numDead + 1 + slot.handlers.countP alive' = slot.handlers.length := by
  have hfun : alive' = fun other => decide (other ≠ entry) && alive other := by
    funext other
    rw [hdead, Bool.and_comm]
  have hlength : slot.handlers.countP alive' + slot.handlers.countP (fun other => !alive' other) =
      slot.handlers.length := by
    rw [List.length_eq_countP_add_countP alive']
    simp
  have hone : slot.handlers.countP alive' + 1 = slot.handlers.countP alive := by
    have hcount : (slot.handlers.filter alive).count entry = 1 := by
      rw [List.count_filter ha, h.count ha, if_pos hin]
    have hsplit := List.length_eq_countP_add_countP (· == entry) (l := slot.handlers.filter alive)
    rw [← List.countP_eq_length_filter, ← List.count, hcount, List.countP_filter] at hsplit
    rw [hsplit, Nat.add_comm, hfun]
    simp
  have hall := h.dead_add_alive
  refine ⟨by omega, ?_, by omega⟩
  rw [hfun, ← List.filter_filter, ← List.filter_filter, h.own]

end SlotKept

section System
variable (s : CSystem H)

theorem alive_subscribeErased (type : EventTypeId) (handler : H) (entry : Nat) :
    (s.subscribeErased type handler).1.alive entry =
      if entry = s.entries.length then true else s.alive entry := by
  simp only [CSystem.alive, CSystem.subscribeErased]
  split
  · rename_i he
    subst he
    simp
  · rename_i hne
    by_cases hlt : entry < s.entries.length
    · rw [List.getElem?_append_left hlt]
    · rw [List.getElem?_eq_none (by simp; omega), List.getElem?_eq_none (by omega)]

theorem alive_unsubscribe {handle : EventHandle} {found : SSubscription}
    (hf : s.subscriptions handle = some found) (entry : Nat) :
    (s.unsubscribe handle).alive entry = (s.alive entry && decide (entry ≠ found.entry)) := by
  simp only [CSystem.alive, CSystem.unsubscribe, hf, List.getElem?_modify]
  by_cases he : found.entry = entry
  · subst he
    cases s.entries[found.entry]? <;> simp
  · simp [he, Ne.symm he]

/-- Exactly what Unsubscribe makes of the slots of a system that has the type's. -/
theorem slot_unsubscribed {handle : EventHandle} {found : SSubscription}
    (hf : s.subscriptions handle = some found) (hsized : found.type.toNat < s.events.length)
    (type : EventTypeId) :
    (s.unsubscribe handle).slot type =
      if type = found.type then
        if ((s.slot type).numDead + 1) * 2 > (s.slot type).handlers.length then
          { s.slot type with
            handlers := (s.slot type).handlers.filter (s.unsubscribe handle).alive
            numDead := 0
            dirty := true }
        else { s.slot type with numDead := (s.slot type).numDead + 1, dirty := true }
      else s.slot type := by
  have halive : (s.unsubscribe handle).alive = CSystem.alive { s with
      entries := s.entries.modify found.entry (fun entry => { entry with alive := false }) } := by
    funext entry
    simp only [CSystem.alive, CSystem.unsubscribe, hf]
  rw [halive]
  simp only [CSystem.slot, CSystem.unsubscribe, hf, List.getElem?_modify]
  by_cases h : type = found.type
  · subst h
    simp only [if_true, List.getElem?_eq_getElem hsized, Option.map_eq_map, Option.map_some,
      Option.getD_some]
    split <;> rfl
  · have hne : found.type.toNat ≠ type.toNat := fun he => h (UInt32.toNat_inj.mp he.symm)
    simp [h, hne]

/-- The members agree with the subscriptions made so far. -/
structure Kept (types : List EventTypeId) (s : CSystem H) : Prop where
  entries : s.entries.length = types.length
  sized : ∀ type ∈ types, type.toNat < s.events.length
  indexed : s.events.length ≤ 2 ^ 32
  slots : ∀ type, SlotKept s.alive types type (s.slot type)
  subscribed : ∀ handle found, s.subscriptions handle = some found →
    types[found.entry]? = some found.type ∧ s.alive found.entry = true ∧
      s.entries[found.entry]?.map SHandler.handle = some handle

variable {s} {types : List EventTypeId}

theorem kept_initial : Kept [] ({} : CSystem H) where
  entries := rfl
  sized := by simp
  indexed := by simp
  slots type := slotKept_default _ (by simp)
  subscribed handle found hf := by cases hf

theorem Kept.subscribe (h : Kept types s) (type : EventTypeId) (handler : H) :
    Kept (types ++ [type]) (s.subscribeErased type handler).1 where
  entries := by simp [CSystem.subscribeErased, h.entries]
  sized other hother := by
    have hlength : (s.subscribeErased type handler).1.events.length = (s.resized type).length :=
      List.length_modify ..
    obtain ⟨hgrown, hnew⟩ := length_resized s type
    rw [hlength]
    rcases List.mem_append.mp hother with hin | hin
    · exact Nat.lt_of_lt_of_le (h.sized other hin) hgrown
    · rw [List.mem_singleton.mp hin]
      exact hnew
  indexed := by
    have hlength : (s.subscribeErased type handler).1.events.length = (s.resized type).length :=
      List.length_modify ..
    have := h.indexed
    have := type.toNat_lt
    rw [hlength, CSystem.resized]
    split
    · rw [List.length_append, List.length_replicate]
      omega
    · exact h.indexed
  slots other := by
    have hsame : SlotKept (s.subscribeErased type handler).1.alive types other (s.slot other) := by
      apply (h.slots other).congr
      intro entry hentry
      have hlt : entry < types.length := by
        rcases hentry with hin | hin
        · exact (h.slots other).made entry hin
        · exact (List.getElem?_eq_some_iff.mp (mem_ownEntries.mp hin)).1
      rw [alive_subscribeErased, if_neg]
      have := h.entries
      omega
    rw [slot_subscribeErased]
    split
    · rename_i he
      subst he
      rw [h.entries]
      apply hsame.subscribe
      rw [alive_subscribeErased, if_pos h.entries.symm]
    · rename_i hne
      exact hsame.later hne
  subscribed handle found hf := by
    by_cases he : handle = s.nextHandle
    · subst he
      simp only [CSystem.subscribeErased, Function.update_self] at hf
      obtain rfl := Option.some.inj hf
      refine ⟨by simp [h.entries], ?_, by simp [CSystem.subscribeErased]⟩
      rw [alive_subscribeErased, if_pos rfl]
    · simp only [CSystem.subscribeErased, Function.update_of_ne he] at hf
      obtain ⟨htype, halive, hhandle⟩ := h.subscribed handle found hf
      have hlt := (List.getElem?_eq_some_iff.mp htype).1
      have hentries := h.entries
      refine ⟨by rw [List.getElem?_append_left hlt, htype], ?_, ?_⟩
      · rw [alive_subscribeErased, if_neg (by omega), halive]
      · simp only [CSystem.subscribeErased]
        rw [List.getElem?_append_left (by omega), hhandle]

/-- The list is compacted as soon as more than half of it is dead. -/
theorem SlotKept.unsubscribe {alive alive' : Nat → Bool} {type : EventTypeId} {slot : SEventSlot}
    (h : SlotKept alive types type slot) {entry : Nat} (ha : alive entry = true)
    (hin : types[entry]? = some type)
    (hdead : ∀ other, alive' other = (alive other && decide (other ≠ entry))) :
    SlotKept alive' types type
      (if (slot.numDead + 1) * 2 > slot.handlers.length then
        { slot with handlers := slot.handlers.filter alive', numDead := 0, dirty := true }
      else { slot with numDead := slot.numDead + 1, dirty := true }) := by
  obtain ⟨hcounted, hown, hlength⟩ := h.buried ha hin hdead
  have htype : type ∈ types := List.mem_of_getElem? hin
  split
  · apply slotKept_erased h.made hown htype
    intro hclean
    cases hclean
  · rename_i hfew
    constructor
    case made => exact h.made
    case counted => exact hcounted
    case own => exact hown
    case bounded =>
      simp only
      omega
    case clean =>
      intro hclean
      cases hclean
    case untouched => exact fun hout => absurd htype hout

theorem Kept.unsubscribe (h : Kept types s) (handle : EventHandle) :
    Kept types (s.unsubscribe handle) := by
  cases hf : s.subscriptions handle with
  | none =>
    have hsame : s.unsubscribe handle = s := by simp only [CSystem.unsubscribe, hf]
    rw [hsame]
    exact h
  | some found =>
    obtain ⟨htype, halive, hhandle⟩ := h.subscribed handle found hf
    have hsized := h.sized found.type (List.mem_of_getElem? htype)
    have hdead := alive_unsubscribe s hf
    obtain ⟨hlength, hsubscriptions, _⟩ := unsubscribe_frame s handle
    constructor
    case entries => simp [CSystem.unsubscribe, hf, h.entries]
    case sized => exact hlength ▸ h.sized
    case indexed => exact hlength ▸ h.indexed
    case slots =>
      intro type
      rw [slot_unsubscribed s hf hsized]
      split
      · rename_i he
        subst he
        exact (h.slots found.type).unsubscribe halive htype hdead
      · rename_i hne
        have hout : found.entry ∉ ownEntries types type := fun hin =>
          hne (Option.some.inj ((mem_ownEntries.mp hin).symm.trans htype))
        have habsent : found.entry ∉ (s.slot type).handlers := by
          apply List.count_eq_zero.mp
          rw [(h.slots type).count halive, if_neg fun hin => hout (mem_ownEntries.mpr hin)]
        apply (h.slots type).congr
        intro entry hentry
        have hother : entry ≠ found.entry := by
          rintro rfl
          rcases hentry with hin | hin
          · exact habsent hin
          · exact hout hin
        rw [hdead, decide_eq_true hother, Bool.and_true]
    case subscribed =>
      intro other rest hrest
      rw [hsubscriptions] at hrest
      have hne : other ≠ handle := by
        rintro rfl
        simp at hrest
      rw [Function.update_of_ne hne] at hrest
      obtain ⟨htype', halive', hhandle'⟩ := h.subscribed other rest hrest
      have hentry : rest.entry ≠ found.entry := by
        intro he
        rw [he, hhandle] at hhandle'
        exact hne (Option.some.inj hhandle').symm
      refine ⟨htype', ?_, ?_⟩
      · rw [hdead, halive', decide_eq_true hentry]
        rfl
      · simp only [CSystem.unsubscribe, hf]
        rw [List.getElem?_modify]
        simpa [hentry.symm] using hhandle'

theorem Kept.getSnapshot (h : Kept types s) (type : EventTypeId) :
    Kept types (s.getSnapshot type).1 := by
  cases hd : (s.slot type).dirty with
  | false =>
    rw [getSnapshot_of_clean _ _ hd]
    exact h
  | true =>
    obtain ⟨hentries, hlength, hsubscriptions, _⟩ := getSnapshot_frame s type
    have halive : (s.getSnapshot type).1.alive = s.alive := by
      funext entry
      rw [CSystem.alive, CSystem.alive, hentries]
    constructor
    case entries => exact hentries ▸ h.entries
    case sized => exact hlength ▸ h.sized
    case indexed => exact hlength ▸ h.indexed
    case slots =>
      intro other
      rw [halive, (getSnapshot_of_dirty _ _ other hd).2]
      split
      · rename_i he
        subst he
        have hkept := h.slots other
        have hin : other ∈ types := by
          by_contra hout
          rw [(hkept.untouched hout).2] at hd
          cases hd
        exact slotKept_erased hkept.made hkept.own hin fun _ => rfl
      · exact h.slots other
    case subscribed =>
      intro handle found hf
      rw [hsubscriptions] at hf
      rw [halive, hentries]
      exact h.subscribed handle found hf

theorem Kept.slotsKept (h : Kept types s) : SlotsKept types s := by
  have hslots : ∀ index slot, s.events[index]? = some slot →
      ∃ type : EventTypeId, type.toNat = index ∧ SlotKept s.alive types type slot := by
    intro index slot hslot
    have hlt := (List.getElem?_eq_some_iff.mp hslot).1
    have hindexed := h.indexed
    have hindex : (UInt32.ofNat index).toNat = index :=
      UInt32.toNat_ofNat_of_lt' (Nat.lt_of_lt_of_le hlt hindexed)
    have hkept := h.slots (UInt32.ofNat index)
    rw [CSystem.slot, hindex, hslot] at hkept
    exact ⟨UInt32.ofNat index, hindex, hkept⟩
  refine ⟨hslots, ?_⟩
  intro handle found hf
  obtain ⟨htype, halive, _⟩ := h.subscribed handle found hf
  refine ⟨halive, htype, h.sized _ (List.mem_of_getElem? htype), ?_⟩
  intro index slot hslot
  obtain ⟨type, rfl, hkept⟩ := hslots index slot hslot
  rw [hkept.count halive, htype]
  simp only [Option.some.injEq, UInt32.toNat_inj, eq_comm]

end System

/-- The event system's slots never go wrong, however many subscriptions come and
go and whatever handlers do while an emit is in progress. -/
theorem sessions_keep_slots {ops : List (Op H P)} {outs : List (Out H P)} {s : Session H P}
    (hr : (sessions H P).run {} ops = some (s, outs)) : SlotsKept (subscribedTypes ops) s.system := by
  have hfirst : Kept (subscribedTypes ([] : List (Op H P))) ({} : Session H P).system := kept_initial
  have hkept := Machine.run_invariant (M := sessions H P)
    (fun ops _ s => Kept (subscribedTypes ops) s.system) [] [] ?_ hfirst hr
  · exact hkept.slotsKept
  · intro ops outs s op s' out h hstep
    have htypes : subscribedTypes (ops ++ [op]) = subscribedTypes ops ++ subscribedTypes [op] :=
      List.filterMap_append
    rw [htypes]
    cases op with
    | subscribe type handler =>
      obtain ⟨rfl, rfl⟩ := Prod.mk.inj (Option.some.inj hstep)
      exact h.subscribe type handler
    | unsubscribe handle =>
      obtain ⟨rfl, rfl⟩ := Prod.mk.inj (Option.some.inj hstep)
      have hnone : subscribedTypes [(.unsubscribe handle : Op H P)] = [] := rfl
      rw [hnone, List.append_nil]
      exact h.unsubscribe handle
    | emit type payload =>
      obtain ⟨rfl, rfl⟩ := Prod.mk.inj (Option.some.inj hstep)
      have hnone : subscribedTypes [(.emit type payload : Op H P)] = [] := rfl
      rw [hnone, List.append_nil]
      exact h.getSnapshot type
    | next =>
      have hnone : subscribedTypes [(.next : Op H P)] = [] := rfl
      rw [hnone, List.append_nil, (step_next hstep).1]
      exact h

/-- A handler drops itself and the one after it in the middle of an emit. -/
theorem sessions_keep_slots_nested : ∃ s outs,
    (sessions Nat Unit).run {} [.subscribe 1 10, .subscribe 1 20, .subscribe 0 30, .emit 1 (), .next,
      .unsubscribe 1, .unsubscribe 2, .emit 1 ()] = some (s, outs) ∧ SlotsKept [1, 1, 0] s.system := by
  have hruns : ((sessions Nat Unit).run {} [.subscribe 1 10, .subscribe 1 20, .subscribe 0 30,
      .emit 1 (), .next, .unsubscribe 1, .unsubscribe 2, .emit 1 ()]).isSome := by decide
  obtain ⟨⟨s, outs⟩, hr⟩ := Option.isSome_iff_exists.mp hruns
  exact ⟨s, outs, hr, sessions_keep_slots hr⟩

/-- The slot of a lower type is there, clean and empty, without a snapshot. -/
theorem clean_slot_without_snapshot : ∃ s outs slot,
    (sessions Unit Unit).run {} [.subscribe 1 ()] = some (s, outs) ∧ s.system.events[0]? = some slot ∧
      slot.dirty = false ∧ slot.snapshot ≠ some slot.handlers :=
  ⟨_, _, _, rfl, rfl, rfl, by simp⟩

end TgeCore.Events
