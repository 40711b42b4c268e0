import Mathlib.Algebra.Group.Nat.Defs
import TgeCore.Library.Calls
import TgeCore.Threading.ReadyWatches

namespace TgeCore.Threading
open Library

namespace CWatchLoop
variable {W C Time : Type}

def Seen.issuedId : Seen W C → Option UInt64
  | .watched id _ _ => some id
  | .scheduled id => some id
  | _ => none

/-- The ids that watches and timers were given, in order. -/
def issued (os : List (Seen W C)) : List UInt64 := os.filterMap Seen.issuedId

def Seen.turnKey : Seen W C → Option UInt64
  | .ran key _ => some key
  | .skipped key => some key
  | _ => none

/-- The keys whose turn has come, in order. -/
def turns (os : List (Seen W C)) : List UInt64 := os.filterMap Seen.turnKey

/-- All of it is part of one pass and what the loop does until the next. -/
def OnePass (os : List (Seen W C)) : Prop := ∀ keys, .began keys ∉ os

/-- The ids count up from zero, modulo 2^64. -/
structure Counted (os : List (Seen W C)) (s : CWatchLoop W C Time) : Prop where
  next : s.nextId = UInt64.ofNat (issued os).length
  ids : issued os = (List.range (issued os).length).map UInt64.ofNat

/-- What a step may answer to what is asked for. -/
inductive Answers : Move W C Time → Seen W C → Prop
  | began (readyKeys : List UInt64) : Answers (.wait readyKeys) (.began readyKeys)
  | ran (key : UInt64) (callback : C) : Answers .turn (.ran key callback)
  | skipped (key : UInt64) : Answers .turn (.skipped key)
  | ended : Answers .turn .ended
  | back : Answers .back .nothing
  | watched (id : UInt64) (waitable : W) (onReadable : C) :
      Answers (.watch waitable onReadable true) (.watched id waitable onReadable)
  | refused (waitable : W) (onReadable : C) : Answers (.watch waitable onReadable false) .nothing
  | unwatched (watch : UInt64) : Answers (.unwatch watch) (.unwatched watch)
  | unknown (watch : UInt64) : Answers (.unwatch watch) .nothing
  | scheduled (id : UInt64) (when : Time) (callback : C) : Answers (.scheduleAt when callback) (.scheduled id)
  | cancelled (timer : UInt64) : Answers (.cancelTimer timer) .nothing

/-- Unwatch was called for the key, after Watch had returned it. -/
def Unwatches (key : UInt64) (is : List (Move W C Time)) (os : List (Seen W C)) : Prop :=
  ∃ n waitable callback, is[n]? = some (.unwatch key) ∧ .watched key waitable callback ∈ os.take n

/-- The registered watches are those that were added and not unwatched. -/
structure Registered (os : List (Seen W C)) (s : CWatchLoop W C Time) : Prop where
  registered : ∀ w ∈ s.watches, .watched w.id w.waitable w.onReadable ∈ os ∧ .unwatched w.id ∉ os
  kept : ∀ id waitable callback, .watched id waitable callback ∈ os → .unwatched id ∉ os →
    ⟨id, waitable, callback⟩ ∈ s.watches
  distinct : (s.watches.map SEventLoopWatch.id).Nodup
  added : ∀ key ∈ s.added, key ∈ issued os
  gone : ∀ id, .unwatched id ∈ os → id ∈ issued os

section Counted
variable {s t : CWatchLoop W C Time} {os : List (Seen W C)} {out : Seen W C} {m : Move W C Time}

theorem issued_concat (os : List (Seen W C)) (out : Seen W C) :
    issued (os ++ [out]) = issued os ++ out.issuedId.toList := by
  cases h : out.issuedId with
  | none => simp [issued, h]
  | some id => simp [issued, h]

theorem turns_concat (os : List (Seen W C)) (out : Seen W C) :
    turns (os ++ [out]) = turns os ++ out.turnKey.toList := by
  cases h : out.turnKey with
  | none => simp [turns, h]
  | some key => simp [turns, h]

theorem issued_length_le (os : List (Seen W C)) (out : Seen W C) :
    (issued os).length ≤ (issued (os ++ [out])).length := by
  rw [issued_concat, List.length_append]
  exact Nat.le_add_right _ _

theorem whileCalling_eq {next : CWatchLoop W C Time × Seen W C} (h : s.whileCalling next = some (t, out)) :
    next = (t, out) ∧ ∀ rest, s.at' ≠ .turning rest := by
  unfold whileCalling at h
  split at h
  · cases h
  · rename_i hat
    exact ⟨Option.some.inj h, hat⟩

/-- What a step does to the ids, the watches and the poller's keys. -/
inductive Effect (s : CWatchLoop W C Time) : CWatchLoop W C Time → Seen W C → Prop
  | quiet {t : CWatchLoop W C Time} {out : Seen W C} (hwatches : t.watches = s.watches) (hnext : t.nextId = s.nextId)
      (hadded : t.added = s.added) (hissued : out.issuedId = none) (hout : ∀ id, out ≠ .unwatched id) : Effect s t out
  | watched (waitable : W) (callback : C) : Effect s
      { s with
        nextId := s.nextId + 1
        watches := s.watches ++ [⟨s.nextId, waitable, callback⟩]
        added := s.added ++ [s.nextId] } (.watched s.nextId waitable callback)
  | unwatched (id : UInt64) (found : SEventLoopWatch W C) (hfound : s.findWatch id = some found) : Effect s
      { s with watches := s.watches.eraseP fun entry => entry.id = id } (.unwatched id)
  | scheduled (when : Time) (callback : C) : Effect s
      { s with nextId := s.nextId + 1, timers := s.timers ++ [⟨s.nextId, when, callback⟩] } (.scheduled s.nextId)

theorem step_effect (hst : s.step m = some (t, out)) : Effect s t out := by
  cases m with
  | wait readyKeys =>
    simp only [step] at hst
    split at hst
    · split at hst
      · cases hst
        exact .quiet rfl rfl rfl rfl (by simp)
      · cases hst
    · cases hst
  | turn =>
    simp only [step] at hst
    split at hst
    · rename_i rest _
      cases rest with
      | nil =>
        cases hst
        exact .quiet rfl rfl rfl rfl (by simp)
      | cons key rest =>
        simp only [turn] at hst
        split at hst
        · cases hst
          exact .quiet rfl rfl rfl rfl (by simp)
        · cases hst
          exact .quiet rfl rfl rfl rfl (by simp)
    · cases hst
  | back =>
    simp only [step] at hst
    split at hst
    · cases hst
      exact .quiet rfl rfl rfl rfl (by simp)
    · cases hst
  | watch waitable onReadable isAdded =>
    obtain ⟨hnext, _⟩ := whileCalling_eq hst
    cases isAdded with
    | true =>
      cases hnext
      exact .watched waitable onReadable
    | false =>
      cases hnext
      exact .quiet rfl rfl rfl rfl (by simp)
  | unwatch watch =>
    obtain ⟨hnext, _⟩ := whileCalling_eq hst
    unfold unwatch at hnext
    split at hnext
    · rename_i found hfound
      cases hnext
      exact .unwatched watch found hfound
    · cases hnext
      exact .quiet rfl rfl rfl rfl (by simp)
  | scheduleAt when callback =>
    obtain ⟨hnext, _⟩ := whileCalling_eq hst
    cases hnext
    exact .scheduled when callback
  | cancelTimer timer =>
    obtain ⟨hnext, _⟩ := whileCalling_eq hst
    cases hnext
    exact .quiet rfl rfl rfl rfl (by simp)

theorem step_answers (hst : s.step m = some (t, out)) : Answers m out := by
  cases m with
  | wait readyKeys =>
    simp only [step] at hst
    split at hst
    · split at hst
      · cases hst
        exact .began readyKeys
      · cases hst
    · cases hst
  | turn =>
    simp only [step] at hst
    split at hst
    · rename_i rest _
      cases rest with
      | nil =>
        cases hst
        exact .ended
      | cons key rest =>
        simp only [turn] at hst
        split at hst
        · cases hst
          exact .ran key _
        · cases hst
          exact .skipped key
    · cases hst
  | back =>
    simp only [step] at hst
    split at hst
    · cases hst
      exact .back
    · cases hst
  | watch waitable onReadable isAdded =>
    obtain ⟨hnext, _⟩ := whileCalling_eq hst
    cases isAdded with
    | true =>
      cases hnext
      exact .watched _ waitable onReadable
    | false =>
      cases hnext
      exact .refused waitable onReadable
  | unwatch watch =>
    obtain ⟨hnext, _⟩ := whileCalling_eq hst
    unfold unwatch at hnext
    split at hnext
    · cases hnext
      exact .unwatched watch
    · cases hnext
      exact .unknown watch
  | scheduleAt when callback =>
    obtain ⟨hnext, _⟩ := whileCalling_eq hst
    cases hnext
    exact .scheduled _ when callback
  | cancelTimer timer =>
    obtain ⟨hnext, _⟩ := whileCalling_eq hst
    cases hnext
    exact .cancelled timer

/-- Unwatch of a registered watch unwatches it, and any other does nothing. -/
theorem step_unwatch {key : UInt64} (hst : s.step (.unwatch key) = some (t, out)) :
    out = .unwatched key ∧ (s.findWatch key).isSome ∨ out = .nothing ∧ s.findWatch key = none := by
  obtain ⟨hnext, _⟩ := whileCalling_eq hst
  unfold unwatch at hnext
  split at hnext
  · rename_i found hfound
    cases hnext
    exact .inl ⟨rfl, by rw [hfound]; rfl⟩
  · rename_i hfound
    cases hnext
    exact .inr ⟨rfl, hfound⟩

theorem Counted.issue (h : s.Counted os) (hissued : out.issuedId = some s.nextId)
    (hnext : t.nextId = s.nextId + 1) : t.Counted (os ++ [out]) where
  next := by
    rw [issued_concat, hissued, hnext, h.next]
    simp [UInt64.ofNat_add]
  ids := by
    have hids := h.ids
    rw [issued_concat, hissued]
    simp only [Option.toList_some, List.length_append, List.length_singleton, List.range_succ, List.map_append]
    rw [← hids, h.next]
    rfl

theorem Counted.step (h : s.Counted os) (hst : s.step m = some (t, out)) : t.Counted (os ++ [out]) := by
  cases step_effect hst with
  | quiet _ hnext _ hissued _ =>
    have hsame : issued (os ++ [out]) = issued os := by
      rw [issued_concat, hissued]
      exact List.append_nil _
    refine ⟨?_, ?_⟩
    · rw [hsame, hnext]
      exact h.next
    · rw [hsame]
      exact h.ids
  | watched waitable callback => exact h.issue rfl rfl
  | unwatched id found _ =>
    have hsame : issued (os ++ [Seen.unwatched id]) = issued os := by
      rw [issued_concat]
      exact List.append_nil _
    refine ⟨?_, ?_⟩
    · rw [hsame]
      exact h.next
    · rw [hsame]
      exact h.ids
  | scheduled when callback => exact h.issue rfl rfl

theorem Counted.nodup (h : s.Counted os) (hbound : (issued os).length ≤ 2 ^ 64) : (issued os).Nodup := by
  rw [h.ids]
  apply List.Nodup.map_on _ List.nodup_range
  intro a ha b hb hab
  have hnat := congrArg UInt64.toNat hab
  simp only [UInt64.toNat_ofNat'] at hnat
  have := List.mem_range.mp ha
  have := List.mem_range.mp hb
  omega

/-- The next id is new as long as fewer than 2^64 have been given. -/
theorem Counted.fresh (h : s.Counted os) (hbound : (issued os).length < 2 ^ 64) : s.nextId ∉ issued os := by
  rw [h.ids, h.next]
  intro hmem
  obtain ⟨k, hk, heq⟩ := List.mem_map.mp hmem
  have hnat := congrArg UInt64.toNat heq
  simp only [UInt64.toNat_ofNat'] at hnat
  have := List.mem_range.mp hk
  omega

end Counted

section Registered
variable {s t : CWatchLoop W C Time} {os : List (Seen W C)} {out : Seen W C} {m : Move W C Time}

theorem mem_issued {id : UInt64} : id ∈ issued os ↔ ∃ o ∈ os, o.issuedId = some id := List.mem_filterMap

theorem issued_subset {id : UInt64} (h : id ∈ issued os) : id ∈ issued (os ++ [out]) := by
  rw [issued_concat]
  exact List.mem_append_left _ h

/-- A step that gives no id and unwatches nothing leaves the registrations as they are. -/
theorem Registered.quiet (h : s.Registered os) (hwatches : t.watches = s.watches) (hadded : t.added = s.added)
    (hwatched : ∀ id waitable callback, out ≠ .watched id waitable callback) (hout : ∀ id, out ≠ .unwatched id) :
    t.Registered (os ++ [out]) where
  registered w hw := by
    rw [hwatches] at hw
    obtain ⟨hin, hnot⟩ := h.registered w hw
    refine ⟨List.mem_append_left _ hin, fun hmem => ?_⟩
    rcases List.mem_append.mp hmem with hold | hnew
    · exact hnot hold
    · exact hout _ (List.mem_singleton.mp hnew).symm
  kept id waitable callback hin hnot := by
    rw [hwatches]
    rcases List.mem_append.mp hin with hold | hnew
    · exact h.kept id waitable callback hold fun hmem => hnot (List.mem_append_left _ hmem)
    · exact absurd (List.mem_singleton.mp hnew).symm (hwatched id waitable callback)
  distinct := by
    rw [hwatches]
    exact h.distinct
  added key hkey := by
    rw [hadded] at hkey
    exact issued_subset (h.added key hkey)
  gone id hmem := by
    rcases List.mem_append.mp hmem with hold | hnew
    · exact issued_subset (h.gone id hold)
    · exact absurd (List.mem_singleton.mp hnew).symm (hout id)

theorem Registered.watched (h : s.Registered os) (hfresh : s.nextId ∉ issued os) (waitable : W) (callback : C) :
    Registered (os ++ [.watched s.nextId waitable callback])
      { s with
        nextId := s.nextId + 1
        watches := s.watches ++ [⟨s.nextId, waitable, callback⟩]
        added := s.added ++ [s.nextId] } where
  registered w hw := by
    rcases List.mem_append.mp hw with hold | hnew
    · obtain ⟨hin, hnot⟩ := h.registered w hold
      exact ⟨List.mem_append_left _ hin, by simpa using hnot⟩
    · obtain rfl := List.mem_singleton.mp hnew
      refine ⟨List.mem_append_right _ List.mem_cons_self, fun hmem => hfresh (h.gone _ ?_)⟩
      simpa using hmem
  kept id waitable' callback' hin hnot := by
    rcases List.mem_append.mp hin with hold | hnew
    · exact List.mem_append_left _ (h.kept _ _ _ hold fun hmem => hnot (List.mem_append_left _ hmem))
    · obtain ⟨rfl, rfl, rfl⟩ := Seen.watched.inj (List.mem_singleton.mp hnew)
      exact List.mem_append_right _ List.mem_cons_self
  distinct := by
    rw [List.map_append]
    refine List.nodup_append.mpr ⟨h.distinct, List.nodup_singleton _, fun a ha b hb => ?_⟩
    obtain ⟨w, hw, rfl⟩ := List.mem_map.mp ha
    obtain rfl := List.mem_singleton.mp hb
    intro heq
    have hin : w.id ∈ issued os := mem_issued.mpr ⟨_, (h.registered w hw).1, rfl⟩
    rw [heq] at hin
    exact hfresh hin
  added key hkey := by
    rcases List.mem_append.mp hkey with hold | hnew
    · exact issued_subset (h.added key hold)
    · obtain rfl := List.mem_singleton.mp hnew
      exact mem_issued.mpr ⟨_, List.mem_append_right _ List.mem_cons_self, rfl⟩
  gone id hmem := issued_subset (h.gone id (by simpa using hmem))

theorem findWatch_some {id : UInt64} {found : SEventLoopWatch W C} (h : s.findWatch id = some found) :
    found ∈ s.watches ∧ found.id = id :=
  ⟨List.mem_of_find?_eq_some h, by simpa using List.find?_some h⟩

/-- The one watch of the id goes, and every other one stays. -/
theorem mem_erased {watches : List (SEventLoopWatch W C)} (hdistinct : (watches.map SEventLoopWatch.id).Nodup)
    {id : UInt64} {w : SEventLoopWatch W C} :
    w ∈ watches.eraseP (fun entry => entry.id = id) ↔ w ∈ watches ∧ w.id ≠ id := by
  induction watches with
  | nil => simp
  | cons first rest ih =>
    rw [List.map_cons, List.nodup_cons] at hdistinct
    obtain ⟨hfirst, hrest⟩ := hdistinct
    by_cases hid : first.id = id
    · rw [List.eraseP_cons_of_pos (by simpa using hid), List.mem_cons]
      constructor
      · intro hw
        refine ⟨.inr hw, fun heq => hfirst ?_⟩
        rw [hid, ← heq]
        exact List.mem_map_of_mem hw
      · rintro ⟨rfl | hw, hne⟩
        · exact absurd hid hne
        · exact hw
    · rw [List.eraseP_cons_of_neg (by simpa using hid), List.mem_cons, List.mem_cons, ih hrest]
      constructor
      · rintro (rfl | ⟨hw, hne⟩)
        · exact ⟨.inl rfl, hid⟩
        · exact ⟨.inr hw, hne⟩
      · rintro ⟨rfl | hw, hne⟩
        · exact .inl rfl
        · exact .inr ⟨hw, hne⟩

theorem Registered.unwatched (h : s.Registered os) {id : UInt64} {found : SEventLoopWatch W C}
    (hfound : s.findWatch id = some found) :
    Registered (os ++ [.unwatched id]) { s with watches := s.watches.eraseP fun entry => entry.id = id } where
  registered w hw := by
    obtain ⟨hold, hne⟩ := (mem_erased h.distinct).mp hw
    obtain ⟨hin, hnot⟩ := h.registered w hold
    exact ⟨List.mem_append_left _ hin, by simp [hnot, hne]⟩
  kept id' waitable callback hin hnot := by
    simp only [List.mem_append, List.mem_singleton, Seen.unwatched.injEq, not_or] at hnot
    exact (mem_erased h.distinct).mpr ⟨h.kept id' waitable callback (by simpa using hin) hnot.1, hnot.2⟩
  distinct := h.distinct.sublist (List.eraseP_sublist.map _)
  added key hkey := issued_subset (h.added key hkey)
  gone id' hmem := by
    rcases List.mem_append.mp hmem with hold | hnew
    · exact issued_subset (h.gone id' hold)
    · obtain rfl := Seen.unwatched.inj (List.mem_singleton.mp hnew)
      obtain ⟨hin, heq⟩ := findWatch_some hfound
      exact issued_subset (mem_issued.mpr ⟨_, (h.registered found hin).1, congrArg some heq⟩)

theorem Registered.step (h : s.Registered os) (hfresh : (issued (os ++ [out])).length ≤ 2 ^ 64)
    (hcounted : s.Counted os) (hst : s.step m = some (t, out)) : t.Registered (os ++ [out]) := by
  cases step_effect hst with
  | quiet hwatches _ hadded hissued hout =>
    exact h.quiet hwatches hadded (fun _ _ _ heq => by rw [heq] at hissued; cases hissued) hout
  | watched waitable callback =>
    rw [issued_concat, List.length_append] at hfresh
    exact h.watched (hcounted.fresh hfresh) waitable callback
  | unwatched id found hfound => exact h.unwatched hfound
  | scheduled when callback => exact h.quiet rfl rfl (by simp) (by simp)

theorem unwatches_concat {is : List (Move W C Time)} {key : UInt64} (hlength : os.length = is.length) :
    Unwatches key (is ++ [m]) (os ++ [out]) ↔
      Unwatches key is os ∨ m = .unwatch key ∧ ∃ waitable callback, .watched key waitable callback ∈ os := by
  constructor
  · rintro ⟨n, waitable, callback, hcall, hin⟩
    rcases Nat.lt_or_ge n is.length with hold | hnew
    · rw [List.getElem?_append_left hold] at hcall
      rw [List.take_append_of_le_length (hlength ▸ Nat.le_of_lt hold)] at hin
      exact .inl ⟨n, waitable, callback, hcall, hin⟩
    · rw [List.getElem?_append_right hnew] at hcall
      obtain ⟨hlast, hm⟩ := List.getElem?_eq_some_iff.mp hcall
      obtain rfl : n = os.length := by
        rw [List.length_singleton] at hlast
        omega
      rw [List.take_left] at hin
      exact .inr ⟨by simpa using hm, waitable, callback, hin⟩
  · rintro (⟨n, waitable, callback, hcall, hin⟩ | ⟨rfl, waitable, callback, hin⟩)
    · have hold : n < is.length := (List.getElem?_eq_some_iff.mp hcall).1
      refine ⟨n, waitable, callback, ?_, ?_⟩
      · rw [List.getElem?_append_left hold]
        exact hcall
      · rw [List.take_append_of_le_length (hlength ▸ Nat.le_of_lt hold)]
        exact hin
    · refine ⟨os.length, waitable, callback, ?_, ?_⟩
      · rw [hlength, List.getElem?_append_right (Nat.le_refl _), Nat.sub_self]
        rfl
      · rw [List.take_left]
        exact hin

/-- An Unwatch call of a watch takes it away at the call or finds it gone. -/
theorem Registered.unwatches (h : s.Registered os) {is : List (Move W C Time)} (hlength : os.length = is.length)
    (hall : ∀ key, Unwatches key is os ↔ .unwatched key ∈ os) (hst : s.step m = some (t, out)) (key : UInt64) :
    Unwatches key (is ++ [m]) (os ++ [out]) ↔ .unwatched key ∈ os ++ [out] := by
  rw [unwatches_concat hlength, List.mem_append, List.mem_singleton, hall key]
  constructor
  · rintro (hold | ⟨rfl, waitable, callback, hin⟩)
    · exact .inl hold
    · rcases step_unwatch hst with ⟨rfl, _⟩ | ⟨_, hfound⟩
      · exact .inr rfl
      · by_contra hnot
        have hkept := h.kept key waitable callback hin fun hmem => hnot (.inl hmem)
        have hne := List.find?_eq_none.mp hfound _ hkept
        simp at hne
  · rintro (hold | rfl)
    · exact .inl hold
    · cases step_answers hst with
      | unwatched watch =>
        rcases step_unwatch hst with ⟨_, hfound⟩ | ⟨hout, _⟩
        · obtain ⟨found, hfound⟩ := Option.isSome_iff_exists.mp hfound
          obtain ⟨hin, rfl⟩ := findWatch_some hfound
          exact .inr ⟨rfl, _, _, (h.registered found hin).1⟩
        · cases hout

end Registered

section Passes
variable {s t : CWatchLoop W C Time} {os : List (Seen W C)} {out : Seen W C} {m : Move W C Time}
  {keys : List UInt64}

/-- Where a step takes the loop. -/
inductive Goes (s : CWatchLoop W C Time) : CWatchLoop W C Time → Seen W C → Prop
  | began (keys : List UInt64) (hat : s.at' = .elsewhere) (hkeys : ∀ key ∈ keys, key ∈ s.added) :
      Goes s { s with at' := .turning keys } (.began keys)
  | ended (hat : s.at' = .turning []) : Goes s { s with at' := .elsewhere } .ended
  | ran (key : UInt64) (rest : List UInt64) (found : SEventLoopWatch W C) (hat : s.at' = .turning (key :: rest))
      (hfound : s.findWatch key = some found) : Goes s { s with at' := .calling rest } (.ran key found.onReadable)
  | skipped (key : UInt64) (rest : List UInt64) (hat : s.at' = .turning (key :: rest))
      (hfound : s.findWatch key = none) : Goes s { s with at' := .turning rest } (.skipped key)
  | back (rest : List UInt64) (hat : s.at' = .calling rest) : Goes s { s with at' := .turning rest } .nothing
  | call {t : CWatchLoop W C Time} {out : Seen W C} (hat : t.at' = s.at') (hturn : out.turnKey = none)
      (hbegan : ∀ keys, out ≠ .began keys) (hended : out ≠ .ended) : Goes s t out

theorem step_goes (hst : s.step m = some (t, out)) : Goes s t out := by
  cases m with
  | wait readyKeys =>
    simp only [step] at hst
    split at hst
    · rename_i hat
      split at hst
      · rename_i hkeys
        cases hst
        exact .began readyKeys hat hkeys
      · cases hst
    · cases hst
  | turn =>
    simp only [step] at hst
    split at hst
    · rename_i rest hat
      cases rest with
      | nil =>
        cases hst
        exact .ended hat
      | cons key rest =>
        simp only [turn] at hst
        split at hst
        · rename_i found hfound
          cases hst
          exact .ran key rest found hat hfound
        · rename_i hfound
          cases hst
          exact .skipped key rest hat hfound
    · cases hst
  | back =>
    simp only [step] at hst
    split at hst
    · rename_i rest hat
      cases hst
      exact .back rest hat
    · cases hst
  | watch waitable onReadable isAdded =>
    obtain ⟨hnext, _⟩ := whileCalling_eq hst
    cases isAdded with
    | true =>
      cases hnext
      exact .call rfl rfl (by simp) (by simp)
    | false =>
      cases hnext
      exact .call rfl rfl (by simp) (by simp)
  | unwatch watch =>
    obtain ⟨hnext, _⟩ := whileCalling_eq hst
    unfold unwatch at hnext
    split at hnext
    · cases hnext
      exact .call rfl rfl (by simp) (by simp)
    · cases hnext
      exact .call rfl rfl (by simp) (by simp)
  | scheduleAt when callback =>
    obtain ⟨hnext, _⟩ := whileCalling_eq hst
    cases hnext
    exact .call rfl rfl (by simp) (by simp)
  | cancelTimer timer =>
    obtain ⟨hnext, _⟩ := whileCalling_eq hst
    cases hnext
    exact .call rfl rfl (by simp) (by simp)

/-- The keys of a pass whose turn has come, with those that are left. -/
def Follows (keys : List UInt64) (os : List (Seen W C)) : ReadyAt → Prop
  | .elsewhere => turns os = keys
  | .turning rest => turns os ++ rest = keys ∧ .ended ∉ os
  | .calling rest => turns os ++ rest = keys ∧ .ended ∉ os

theorem Follows.same {at' : ReadyAt} (h : Follows keys os at') (hturn : out.turnKey = none)
    (hended : out ≠ .ended) : Follows keys (os ++ [out]) at' := by
  have hsame : turns (os ++ [out]) = turns os := by
    rw [turns_concat, hturn]
    exact List.append_nil _
  have hnot (hold : .ended ∉ os) : .ended ∉ os ++ [out] := fun hmem => by
    rcases List.mem_append.mp hmem with hin | hnew
    · exact hold hin
    · exact hended (List.mem_singleton.mp hnew).symm
  cases at' with
  | elsewhere => exact hsame.trans h
  | turning rest => exact ⟨by rw [hsame, h.1], hnot h.2⟩
  | calling rest => exact ⟨by rw [hsame, h.1], hnot h.2⟩

theorem follows_step (h : Follows keys os s.at') (hbegan : ∀ keys', out ≠ .began keys')
    (hst : s.step m = some (t, out)) : Follows keys (os ++ [out]) t.at' := by
  cases step_goes hst with
  | began keys' _ _ => exact absurd rfl (hbegan keys')
  | ended hat =>
    rw [hat] at h
    change turns (os ++ [Seen.ended]) = keys
    rw [turns_concat, ← h.1]
    rfl
  | ran key rest found hat _ =>
    rw [hat] at h
    refine ⟨?_, by simp [h.2]⟩
    rw [turns_concat, ← h.1]
    simp [Seen.turnKey]
  | skipped key rest hat _ =>
    rw [hat] at h
    refine ⟨?_, by simp [h.2]⟩
    rw [turns_concat, ← h.1]
    simp [Seen.turnKey]
  | back rest hat =>
    rw [hat] at h
    exact Follows.same h rfl (by simp)
  | call hat hturn _ hended =>
    rw [hat]
    exact h.same hturn hended

theorem Follows.upTo {at' : ReadyAt} (h : Follows keys os at') :
    turns os <+: keys ∧ (.ended ∈ os → turns os = keys) := by
  cases at' with
  | elsewhere => exact ⟨h ▸ List.prefix_refl _, fun _ => h⟩
  | turning rest => exact ⟨h.1 ▸ List.prefix_append _ _, fun hended => absurd hended h.2⟩
  | calling rest => exact ⟨h.1 ▸ List.prefix_append _ _, fun hended => absurd hended h.2⟩

/-- The keys that are left in a pass. -/
def left : ReadyAt → List UInt64
  | .elsewhere => []
  | .turning rest => rest
  | .calling rest => rest

/-- The keys that are left were given before the pass began. -/
def Begun (os : List (Seen W C)) (s : CWatchLoop W C Time) : Prop :=
  left s.at' = [] ∨ ∃ before keys since, os = before ++ .began keys :: since ∧ OnePass since ∧
    (∀ key ∈ left s.at', key ∈ keys) ∧ ∀ key ∈ keys, key ∈ issued before

theorem Begun.step (h : Begun os s) (hregistered : s.Registered os) (hst : s.step m = some (t, out)) :
    Begun (os ++ [out]) t := by
  have hkeeps (hbegan : ∀ keys, out ≠ .began keys) (hleft : ∀ key ∈ left t.at', key ∈ left s.at') :
      Begun (os ++ [out]) t := by
    rcases h with hnone | ⟨before, keys, since, rfl, hpass, hin, hissued⟩
    · rw [hnone] at hleft
      exact .inl (List.eq_nil_iff_forall_not_mem.mpr fun key hkey => List.not_mem_nil (hleft key hkey))
    · refine .inr ⟨before, keys, since ++ [out], by simp, fun keys' hmem => ?_, fun key hkey => hin key (hleft key hkey),
        hissued⟩
      rcases List.mem_append.mp hmem with hold | hnew
      · exact hpass keys' hold
      · exact hbegan keys' (List.mem_singleton.mp hnew).symm
  cases step_goes hst with
  | began keys _ hkeys =>
    exact .inr ⟨os, keys, [], rfl, fun _ => List.not_mem_nil, fun _ => id,
      fun key hkey => hregistered.added key (hkeys key hkey)⟩
  | ended _ => exact hkeeps (by simp) (fun key hkey => absurd hkey List.not_mem_nil)
  | ran key rest found hat _ => exact hkeeps (by simp) (fun _ hkey => hat ▸ List.mem_cons_of_mem _ hkey)
  | skipped key rest hat _ => exact hkeeps (by simp) (fun _ hkey => hat ▸ List.mem_cons_of_mem _ hkey)
  | back rest hat => exact hkeeps (by simp) (fun _ hkey => hat ▸ hkey)
  | call hat _ hbegan _ => exact hkeeps hbegan (fun _ hkey => hat ▸ hkey)

end Passes

section Runs
variable {s t : CWatchLoop W C Time} {os os' : List (Seen W C)} {is : List (Move W C Time)} {keys : List UInt64}

theorem Counted.run (hr : (watchLoop W C Time).run {} is = some (s, os)) : s.Counted os :=
  Machine.run_invariant (M := watchLoop W C Time) (fun _ os s => s.Counted os) [] []
    (fun _ _ _ _ _ _ h hst => h.step hst) ⟨rfl, rfl⟩ hr

/-- What a run keeps that has given at most 2^64 ids. -/
structure Kept (is : List (Move W C Time)) (os : List (Seen W C)) (s : CWatchLoop W C Time) : Prop where
  registered : s.Registered os
  begun : Begun os s
  unwatches : ∀ key, Unwatches key is os ↔ .unwatched key ∈ os

/-- The run lemma, for runs that give at most 2^64 ids. -/
theorem run_kept (hr : (watchLoop W C Time).run {} is = some (s, os)) (hbound : (issued os).length ≤ 2 ^ 64) :
    Kept is os s := by
  have hstep : ∀ (is : List (Move W C Time)) os s m t out,
      (os.length = is.length ∧ s.Counted os ∧ ((issued os).length ≤ 2 ^ 64 → Kept is os s)) →
      (watchLoop W C Time).step s m = some (t, out) →
      (os ++ [out]).length = (is ++ [m]).length ∧ t.Counted (os ++ [out]) ∧
        ((issued (os ++ [out])).length ≤ 2 ^ 64 → Kept (is ++ [m]) (os ++ [out]) t) := by
    rintro is os s m t out ⟨hsame, hcounted, hkeeps⟩ hst
    refine ⟨by simp [hsame], hcounted.step hst, fun hlength => ?_⟩
    obtain ⟨hregistered, hbegun, hunwatches⟩ := hkeeps (Nat.le_trans (issued_length_le os out) hlength)
    exact ⟨hregistered.step hlength hcounted hst, hbegun.step hregistered hst,
      hregistered.unwatches hsame hunwatches hst⟩
  have hstart : Kept [] [] ({} : CWatchLoop W C Time) :=
    ⟨⟨by simp, by simp, List.nodup_nil, by simp, by simp⟩, .inl rfl, by simp [Unwatches]⟩
  exact (Machine.run_invariant (M := watchLoop W C Time)
    (fun is os s => os.length = is.length ∧ s.Counted os ∧ ((issued os).length ≤ 2 ^ 64 → Kept is os s)) [] [] hstep
    ⟨rfl, ⟨rfl, rfl⟩, fun _ => hstart⟩ hr).2.2 hbound

/-- From the state in which a pass begins, up to the next one. -/
theorem run_follows (hat : s.at' = .turning keys) (hr : (watchLoop W C Time).run s is = some (t, os))
    (hpass : OnePass os) : Follows keys os t.at' := by
  have hstep : ∀ (is : List (Move W C Time)) os s m t out, (OnePass os → Follows keys os s.at') →
      (watchLoop W C Time).step s m = some (t, out) → OnePass (os ++ [out]) → Follows keys (os ++ [out]) t.at' := by
    intro _ os s m t out hkeeps hst hone
    refine follows_step (hkeeps fun keys' hmem => hone keys' (List.mem_append_left _ hmem)) ?_ hst
    exact fun keys' heq => hone keys' (List.mem_append_right _ (heq ▸ List.mem_cons_self))
  refine Machine.run_invariant (M := watchLoop W C Time) (fun _ os s => OnePass os → Follows keys os s.at') [] []
    hstep (fun _ => ?_) hr hpass
  rw [hat]
  exact ⟨rfl, List.not_mem_nil⟩

/-- What the calls of a run and its log tell of the passes: they take their keys in order and to
the end, run the callback of a watch that was added before the pass began and that no call has
unwatched, and skip a key only when a call had its watch unwatched. -/
structure PassesSound (is : List (Move W C Time)) (os : List (Seen W C)) : Prop where
  answers : List.Forall₂ Answers is os
  ids : (issued os).Nodup
  order : ∀ before keys since after, os = before ++ .began keys :: since ++ after → OnePass since →
    turns since <+: keys ∧ (.ended ∈ since → turns since = keys)
  ran : ∀ before key callback after, os = before ++ .ran key callback :: after →
    ¬Unwatches key (is.take before.length) before ∧
    ∃ earlier keys since waitable, before = earlier ++ .began keys :: since ∧ OnePass since ∧ key ∈ keys ∧
      .watched key waitable callback ∈ earlier
  skipped : ∀ before key after, os = before ++ .skipped key :: after → ∀ waitable callback,
    .watched key waitable callback ∈ before → Unwatches key (is.take before.length) before

theorem issued_append (os os' : List (Seen W C)) : issued (os ++ os') = issued os ++ issued os' :=
  List.filterMap_append

theorem issued_before_le (before after : List (Seen W C)) :
    (issued before).length ≤ (issued (before ++ after)).length := by
  rw [issued_append, List.length_append]
  exact Nat.le_add_right _ _

/-- A key that was given before a pass began names a watch of that time. -/
theorem watched_earlier {earlier since : List (Seen W C)} {key : UInt64} {waitable : W} {callback : C}
    (hnodup : (issued (earlier ++ .began keys :: since)).Nodup) (hkey : key ∈ issued earlier)
    (hin : .watched key waitable callback ∈ earlier ++ .began keys :: since) :
    .watched key waitable callback ∈ earlier := by
  rcases List.mem_append.mp hin with hearlier | hlater
  · exact hearlier
  · have hsince : key ∈ issued (.began keys :: since) := mem_issued.mpr ⟨_, hlater, rfl⟩
    rw [issued_append] at hnodup
    exact absurd rfl ((List.nodup_append.mp hnodup).2.2 key hkey key hsince)

/-- Whatever the callbacks do, every pass of a run is sound until 2^64 ids have been given. -/
theorem passes_sound (hr : (watchLoop W C Time).run {} is = some (s, os)) (hbound : (issued os).length ≤ 2 ^ 64) :
    PassesSound is os where
  answers := Machine.run_forall₂ (M := watchLoop W C Time) (fun _ _ _ _ => step_answers) hr
  ids := (Counted.run hr).nodup hbound
  order before keys since after heq hpass := by
    rw [heq, List.append_assoc, List.cons_append] at hr
    obtain ⟨_, _, _, t, t', _, hst, hrest⟩ := Machine.run_output_eq_some hr
    obtain ⟨_, _, u, hsince, _⟩ := Machine.run_outputs_eq_some hrest
    have hat : t'.at' = .turning keys := by
      cases step_goes hst with
      | began _ _ _ => rfl
      | call _ _ hbegan _ => exact absurd rfl (hbegan keys)
    exact (run_follows hat hsince hpass).upTo
  ran before key callback after heq := by
    rw [heq] at hr hbound
    obtain ⟨_, t, _, hbefore, hst⟩ := Machine.run_at hr
    have hlength := Nat.le_trans (issued_before_le before _) hbound
    obtain ⟨hregistered, hbegun, hunwatches⟩ := run_kept hbefore hlength
    cases step_goes hst with
    | ran _ rest found hat hfound =>
      obtain ⟨hin, rfl⟩ := findWatch_some hfound
      obtain ⟨hwatched, hnot⟩ := hregistered.registered found hin
      rcases hbegun with hnone | ⟨earlier, keys, since, rfl, hpass, hleft, hissued⟩
      · rw [hat] at hnone
        cases hnone
      · have hkey : found.id ∈ keys := hleft _ (hat ▸ List.mem_cons_self)
        have hnodup := (Counted.run hbefore).nodup hlength
        exact ⟨(hunwatches _).not.mpr hnot, earlier, keys, since, _, rfl, hpass, hkey,
          watched_earlier hnodup (hissued _ hkey) hwatched⟩
    | call _ hturn _ _ => cases hturn
  skipped before key after heq waitable callback hwatched := by
    rw [heq] at hr hbound
    obtain ⟨_, t, _, hbefore, hst⟩ := Machine.run_at hr
    obtain ⟨hregistered, _, hunwatches⟩ := run_kept hbefore (Nat.le_trans (issued_before_le before _) hbound)
    refine (hunwatches key).mpr ?_
    by_contra hnot
    have hkept := hregistered.kept key waitable callback hwatched hnot
    cases step_goes hst with
    | skipped _ rest _ hfound =>
      have hall := List.find?_eq_none.mp hfound _ hkept
      simp at hall
    | call _ hturn _ _ => cases hturn

/-- The first callback unwatches the second's watch and watches its waitable again. -/
def rewatched : List (Move Nat Nat Nat) :=
  [.watch 5 50 true, .watch 6 60 true, .wait [0, 1], .turn, .unwatch 1, .watch 6 61 true, .back, .turn, .turn]

theorem passes_sound_rewatched : ∃ s os, (watchLoop Nat Nat Nat).run {} rewatched = some (s, os) ∧
    PassesSound rewatched os := by
  have hrun : ((watchLoop Nat Nat Nat).run {} rewatched).map (fun r => issued r.2) = some [0, 1, 2] := by
    decide +kernel
  obtain ⟨⟨s, os⟩, hr, hissued⟩ := Option.map_eq_some_iff.mp hrun
  have hbound : (issued os).length ≤ 2 ^ 64 := by
    rw [show issued os = [0, 1, 2] from hissued]
    decide
  exact ⟨s, os, hr, passes_sound hr hbound⟩

theorem run_scheduled (count : Nat) : ∃ is os, ∃ s : CWatchLoop Unit Unit Unit,
    (watchLoop Unit Unit Unit).run {} is = some (s, os) ∧ s.at' = .elsewhere ∧ (issued os).length = count := by
  induction count with
  | zero => exact ⟨[], [], {}, rfl, rfl, rfl⟩
  | succ count ih =>
    obtain ⟨is, os, s, hr, hat, hlength⟩ := ih
    have hst : (watchLoop Unit Unit Unit).step s (.scheduleAt () ()) =
        some ((s.scheduleAt () ()).1, .scheduled s.nextId) := by
      change s.whileCalling (s.scheduleAt () ()) = _
      rw [whileCalling, hat]
      rfl
    refine ⟨_, _, _, Machine.run_concat hr hst, hat, ?_⟩
    rw [issued_concat, List.length_append, hlength]
    rfl

/-- The timer after the 2^64-th gets the first one's id. -/
theorem ids_repeat : ¬∀ is os s, (watchLoop Unit Unit Unit).run {} is = some (s, os) → (issued os).Nodup := by
  intro h
  obtain ⟨is, os, s, hr, _, hlength⟩ := run_scheduled (2 ^ 64 + 1)
  have hnodup := h is os s hr
  rw [(Counted.run hr).ids, hlength] at hnodup
  have hsame : 0 = 2 ^ 64 := List.inj_on_of_nodup_map hnodup (List.mem_range.mpr (by decide))
    (List.mem_range.mpr (by decide)) (by decide)
  omega

end Runs

end CWatchLoop

end TgeCore.Threading
