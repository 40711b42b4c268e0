import TgeCore.Net.WindowsLookup

namespace TgeCore.Net.OnWindows
open Library

namespace CAddressLookup
variable {s t : CAddressLookup} {seen : List LookupSeen} {out : LookupSeen} {i j : Nat} {lookup other : SNativeLookup}

def holdsList (o : Option SNativeLookup) : Option Nat := o.bind SNativeLookup.pResult

def holdsEvent (o : Option SNativeLookup) : Option Nat := o.map SNativeLookup.hEvent

/-- A lookup's list has the entries that the system answered with. -/
def FitsList (o : Option SNativeLookup) (entries : List addrinfo) : Prop := ∀ lookup ∈ o, lookup.entries = entries

def FitsEvent (_ : Option SNativeLookup) (_ : Unit) : Prop := True

/-- The lists and the events are those of the lookups, and the system works on lookups that are there and have none. -/
structure Safe (s : CAddressLookup) : Prop where
  lists : HeldOnce holdsList FitsList s.lists s.lookups
  events : HeldOnce holdsEvent FitsEvent s.events s.lookups
  owner : ∀ i, s.pLookup = some i → ∃ lookup, s.lookups[i]? = some (some lookup)
  pending : ∀ i, s.pending i = true → ∃ lookup, s.lookups[i]? = some (some lookup) ∧
    lookup.status = none ∧ lookup.pResult = none

/-- What was seen of the lookups that are there, and of those that were. -/
structure Told (s : CAddressLookup) (seen : List LookupSeen) : Prop where
  noFault : .fault ∉ seen
  kept : ∀ (i : Nat) (lookup : SNativeLookup), s.lookups[i]? = some (some lookup) →
    s.pLookup = some i ∨ .abandoned i ∈ seen
  early : ∀ i status entries, .answered i status entries ∈ seen → i < s.lookups.length
  answered : ∀ (i : Nat) (lookup : SNativeLookup) (status : Int), s.lookups[i]? = some (some lookup) →
    lookup.status = some status → .answered i status lookup.entries ∈ seen ∧ (status = 0 → lookup.pResult ≠ none)
  unanswered : ∀ i status entries, .answered i status entries ∈ seen →
    ∀ lookup : SNativeLookup, s.lookups[i]? = some (some lookup) → lookup.status ≠ none
  gone : ∀ i result, .polled i result ∈ seen → s.lookups[i]? = some none
  left : ∀ before i after, seen = before ++ .abandoned i :: after →
    ∀ status entries, .answered i status entries ∉ before
  told : ∀ i result, .polled i result ∈ seen → ∃ status entries,
    .answered i status entries ∈ seen ∧ result = resultOf status entries
  toldOnce : ∀ before i result after, seen = before ++ .polled i result :: after → ∀ other, .polled i other ∉ before

section Release
variable (h : Safe s) (hi : s.lookups[i]? = some (some lookup))
include h hi

theorem Safe.list_there {list : Nat} (hlist : lookup.pResult = some list) : s.lists list = some lookup.entries := by
  obtain ⟨entries, hentries, hfits⟩ := h.lists.fit (some lookup) (List.mem_of_getElem? hi) list hlist
  rw [hentries, hfits lookup rfl]

theorem Safe.event_there : s.events lookup.hEvent = some () := by
  obtain ⟨_, hevent, _⟩ := h.events.fit (some lookup) (List.mem_of_getElem? hi) lookup.hEvent rfl
  exact hevent

/-- A lookup that is there is released without a fault. -/
theorem Safe.release_eq (out : LookupSeen) : s.release i lookup out = ({ s with
    pLookup := none
    lookups := s.lookups.set i none
    lists := fun list => if lookup.pResult = some list then none else s.lists list
    events := Function.update s.events lookup.hEvent none }, out) := by
  have hlist : (s.entriesOf lookup.pResult).isSome = true := by
    cases hresult : lookup.pResult with
    | none => rfl
    | some list =>
      rw [entriesOf, h.list_there hi hresult]
      rfl
  have hevent : (s.events lookup.hEvent).isSome = true := by
    rw [h.event_there hi]
    rfl
  exact if_pos ⟨hlist, hevent⟩

theorem Safe.release (hdone : lookup.status ≠ none) (out : LookupSeen) : Safe (s.release i lookup out).1 := by
  rw [h.release_eq hi]
  refine ⟨?_, ?_, fun j hj => (by cases hj), fun j hj => ?_⟩
  · cases hresult : lookup.pResult with
    | none =>
      have hsame : (fun list => if (none : Option Nat) = some list then none else s.lists list) = s.lists := by
        funext list
        exact if_neg fun hnone => by cases hnone
      simp only [hsame]
      exact h.lists.idle hi hresult rfl
    | some list =>
      refine h.lists.release hi (r := list) hresult rfl (fun other hne => ?_) (if_pos rfl)
      exact if_neg fun hsame => hne (Option.some.inj hsame).symm
  · exact h.events.release hi (r := lookup.hEvent) rfl rfl (fun other hne => Function.update_of_ne hne ..)
      (Function.update_self ..)
  · obtain ⟨known, hknown, hstatus, hresult⟩ := h.pending j hj
    have hne : i ≠ j := by
      intro hsame
      rw [← hsame, hi] at hknown
      cases hknown
      exact hdone hstatus
    exact ⟨known, by rwa [List.getElem?_set_ne hne], hstatus, hresult⟩

/-- What TakeFirstAddress makes of a lookup is what it makes of the answer. -/
theorem Safe.takeFirstAddress {status : Int} (hlist : status = 0 → lookup.pResult ≠ none) :
    s.takeFirstAddress lookup status = some (resultOf status lookup.entries) := by
  unfold CAddressLookup.takeFirstAddress resultOf
  split
  · rename_i hzero
    cases hresult : lookup.pResult with
    | none => exact absurd hresult (hlist hzero)
    | some list =>
      rw [entriesOf, h.list_there hi hresult, Option.map_some, firstAddress_eq]
  · rfl

omit h in
/-- The system's answer goes into a lookup that is there. -/
theorem answer_eq {status : Int} {list : Nat} {entries : List addrinfo} : s.answer i status list entries =
    ({ s with
      lookups := s.lookups.set i (some { lookup with
        overlapped := some status, pResult := if status = 0 then some list else none, entries })
      lists := fun known => if (if status = 0 then some list else none) = some known then some entries
        else s.lists known
      pending := Function.update s.pending i false }, .answered i status entries) := by
  simp only [CAddressLookup.answer, hi]

theorem Safe.answer {status : Int} {list : Nat} {entries : List addrinfo} (hnone : lookup.pResult = none)
    (hfresh : status = 0 → s.lists list = none) : Safe (s.answer i status list entries).1 := by
  rw [answer_eq hi]
  have hother : ∀ {j : Nat} {known : SNativeLookup} (next : Option SNativeLookup), i ≠ j →
      s.lookups[j]? = some (some known) → (s.lookups.set i next)[j]? = some (some known) := by
    intro j known next hne hj
    rwa [List.getElem?_set_ne hne]
  refine ⟨?_, ?_, fun j hj => ?_, fun j hj => ?_⟩
  · by_cases hzero : status = 0
    · simp only [if_pos hzero]
      refine h.lists.take hi (r := list) (v := entries) hnone rfl (hfresh hzero) (fun known hne => ?_) (if_pos rfl) ?_
      · exact if_neg fun hsame => hne (Option.some.inj hsame).symm
      · intro known hknown
        cases hknown
        rfl
    · simp only [if_neg hzero]
      have hsame : (fun known => if (none : Option Nat) = some known then some entries else s.lists known) =
          s.lists := by
        funext known
        exact if_neg fun hnone => by cases hnone
      simp only [hsame]
      exact h.lists.idle hi hnone rfl
  · exact h.events.keep hi (r := lookup.hEvent) (v := ()) rfl rfl (fun _ _ => rfl) (h.event_there hi) trivial
  · obtain ⟨known, hknown⟩ := h.owner j hj
    by_cases hsame : i = j
    · subst hsame
      obtain ⟨hlt, -⟩ := List.getElem?_eq_some_iff.mp hi
      exact ⟨_, by rw [List.getElem?_set_self hlt]⟩
    · exact ⟨known, hother _ hsame hknown⟩
  · have hwas : Function.update s.pending i false j = true := hj
    by_cases hsame : i = j
    · rw [hsame, Function.update_self] at hwas
      cases hwas
    · rw [Function.update_of_ne (Ne.symm hsame)] at hwas
      obtain ⟨known, hknown, hstatus, hresult⟩ := h.pending j hwas
      exact ⟨known, hother _ hsame hknown, hstatus, hresult⟩

end Release

/-- A lookup that is new, with an event that is. -/
theorem Safe.append {event : Nat} (h : Safe s) (hevent : s.events event = none) (hnew : lookup.hEvent = event)
    {lists' : Nat → Option (List addrinfo)} {pending' : Nat → Bool}
    (hlists : HeldOnce holdsList FitsList lists' (s.lookups ++ [some lookup]))
    (hpending : ∀ j, pending' j = true → s.pending j = true ∨
      j = s.lookups.length ∧ lookup.status = none ∧ lookup.pResult = none) :
    Safe { s with
      pLookup := some s.lookups.length, lookups := s.lookups ++ [some lookup], lists := lists'
      events := Function.update s.events event (some ()), pending := pending' } := by
  have hset : (s.lookups ++ [none]).set s.lookups.length (some lookup) = s.lookups ++ [some lookup] := by simp
  have hlast : (s.lookups ++ [none])[s.lookups.length]? = some none := by simp
  have hnext : (s.lookups ++ [some lookup])[s.lookups.length]? = some (some lookup) := by simp
  refine ⟨hlists, ?_, fun j hj => ?_, fun j hj => ?_⟩
  · have hgrown : HeldOnce holdsEvent FitsEvent s.events (s.lookups ++ [none]) := h.events.append rfl
    rw [← hset]
    exact hgrown.take hlast (r := event) rfl (congrArg some hnew) hevent
      (fun other hne => Function.update_of_ne hne ..) (Function.update_self ..) trivial
  · obtain rfl : s.lookups.length = j := Option.some.inj hj
    exact ⟨lookup, hnext⟩
  · rcases hpending j hj with hold | ⟨rfl, hstatus, hresult⟩
    · obtain ⟨known, hknown, hstatus, hresult⟩ := h.pending j hold
      have hlt := (List.getElem?_eq_some_iff.mp hknown).1
      exact ⟨known, by rwa [List.getElem?_append_left hlt], hstatus, hresult⟩
    · exact ⟨lookup, hnext, hstatus, hresult⟩

theorem Safe.start (h : Safe s) {started : Started} (hfresh : s.isFresh started = true) :
    Safe (s.start started).1 := by
  have hlast : (s.lookups ++ [none])[s.lookups.length]? = some none := by simp
  have hset : ∀ lookup, (s.lookups ++ [none]).set s.lookups.length (some lookup) = s.lookups ++ [some lookup] :=
    fun lookup => by simp
  have hgrown : HeldOnce holdsList FitsList s.lists (s.lookups ++ [none]) := h.lists.append rfl
  cases started with
  | noEvent | failed => exact h
  | complete event list entries =>
    simp only [isFresh, Bool.and_eq_true, Option.isNone_iff_eq_none] at hfresh
    refine h.append hfresh.1 rfl ?_ fun j hj => .inl hj
    rw [← hset]
    refine hgrown.take hlast (r := list) (v := entries) rfl rfl hfresh.2
      (fun other hne => Function.update_of_ne hne ..) (Function.update_self ..) ?_
    intro known hknown
    cases hknown
    rfl
  | pending event =>
    simp only [isFresh, Option.isNone_iff_eq_none] at hfresh
    refine h.append hfresh rfl ?_ fun j hj => ?_
    · rw [← hset]
      exact hgrown.idle hlast rfl rfl
    · by_cases hnew : j = s.lookups.length
      · exact .inr ⟨hnew, rfl, rfl⟩
      · rw [Function.update_of_ne hnew] at hj
        exact .inl hj

theorem Safe.step (h : Safe s) {m : LookupMove} (hst : s.step m = some (t, out)) : Safe t := by
  cases m with
  | start started =>
    simp only [CAddressLookup.step] at hst
    split at hst
    · rename_i hasked
      have hstarted := h.start hasked.2
      rw [Option.some.inj hst] at hstarted
      exact hstarted
    · cases hst
  | poll =>
    obtain ⟨i, hown, hst⟩ := Option.map_eq_some_iff.mp hst
    obtain ⟨lookup, hi⟩ := h.owner i hown
    simp only [CAddressLookup.poll, hi] at hst
    split at hst
    · cases hst
      exact h
    · rename_i status hstatus
      split at hst
      · cases hst
        exact h
      · rename_i result _
        have hdone : lookup.status ≠ none := by simp [hstatus]
        have hreleased := h.release hi hdone (.polled i result)
        rw [hst] at hreleased
        exact hreleased
  | terminate =>
    simp only [CAddressLookup.step] at hst
    split at hst
    · rename_i i hown
      obtain ⟨lookup, hi⟩ := h.owner i hown
      simp only [CAddressLookup.terminate, hi] at hst
      split at hst
      · cases hst
        exact ⟨h.lists, h.events, fun j hj => (by cases hj), h.pending⟩
      · rename_i status hstatus
        have hdone : lookup.status ≠ none := by simp [hstatus]
        have hreleased := h.release hi hdone .nothing
        rw [Option.some.inj hst] at hreleased
        exact hreleased
    · cases hst
      exact h
  | answer i status list entries =>
    simp only [CAddressLookup.step] at hst
    split at hst
    · rename_i hasked
      obtain ⟨hpending, -, hfresh⟩ := hasked
      obtain ⟨lookup, hi, -, hnone⟩ := h.pending i hpending
      have hanswered : Safe (s.answer i status list entries).1 := h.answer hi hnone hfresh
      rw [Option.some.inj hst] at hanswered
      exact hanswered
    · cases hst

/-- The last of what was seen, or something before it. -/
theorem concat_split {before after : List LookupSeen} {what : LookupSeen}
    (h : seen ++ [out] = before ++ what :: after) :
    before = seen ∧ what = out ∨ ∃ rest, seen = before ++ what :: rest := by
  rcases after.eq_nil_or_concat with rfl | ⟨rest, last, rfl⟩
  · obtain ⟨rfl, hlast⟩ := List.append_inj' h rfl
    exact .inl ⟨rfl, (List.cons.inj hlast).1.symm⟩
  · rw [List.concat_eq_append, ← List.cons_append, ← List.append_assoc] at h
    exact .inr ⟨rest, (List.append_inj' h rfl).1⟩

/-- What a step has to show for what was seen to stay right. -/
theorem Told.next (h : Told s seen) (hfault : out ≠ .fault) (hlength : s.lookups.length ≤ t.lookups.length)
    (hkept : ∀ (i : Nat) (lookup : SNativeLookup), t.lookups[i]? = some (some lookup) →
      t.pLookup = some i ∨ .abandoned i ∈ seen ++ [out])
    (hanswered : ∀ (i : Nat) (lookup : SNativeLookup) (status : Int), t.lookups[i]? = some (some lookup) →
      lookup.status = some status →
        .answered i status lookup.entries ∈ seen ++ [out] ∧ (status = 0 → lookup.pResult ≠ none))
    (hunanswered : ∀ (i : Nat) (lookup : SNativeLookup), t.lookups[i]? = some (some lookup) → lookup.status = none →
      (∀ status entries, out ≠ .answered i status entries) ∧
        (s.lookups[i]? = some (some lookup) ∨ s.lookups.length ≤ i))
    (hgone : ∀ i : Nat, s.lookups[i]? = some none → t.lookups[i]? = some none)
    (hpolled : ∀ i result, out = .polled i result → t.lookups[i]? = some none ∧ s.lookups[i]? ≠ some none ∧
      ∃ status entries, .answered i status entries ∈ seen ∧ result = resultOf status entries)
    (habandoned : ∀ i, out = .abandoned i → ∃ lookup : SNativeLookup,
      s.lookups[i]? = some (some lookup) ∧ lookup.status = none)
    (hearly : ∀ i status entries, out = .answered i status entries → i < t.lookups.length) :
    Told t (seen ++ [out]) := by
  have hseen : ∀ {what : LookupSeen}, what ∈ seen ++ [out] → what ∈ seen ∨ out = what := by
    intro what hmem
    exact (List.mem_append.mp hmem).imp_right fun hlast => (List.mem_singleton.mp hlast).symm
  refine ⟨fun hmem => ?_, hkept, fun i status entries hmem => ?_, hanswered,
    fun i status entries hmem lookup hi hnone => ?_, fun i result hmem => ?_, fun before i after heq => ?_,
    fun i result hmem => ?_, fun before i result after heq => ?_⟩
  · rcases hseen hmem with hmem | hsame
    · exact h.noFault hmem
    · exact hfault hsame
  · rcases hseen hmem with hmem | hsame
    · exact Nat.lt_of_lt_of_le (h.early i status entries hmem) hlength
    · exact hearly i status entries hsame
  · obtain ⟨hout, hold⟩ := hunanswered i lookup hi hnone
    rcases hseen hmem with hmem | hsame
    · rcases hold with hold | hnew
      · exact h.unanswered i status entries hmem lookup hold hnone
      · exact Nat.not_lt.mpr hnew (h.early i status entries hmem)
    · exact hout status entries hsame
  · rcases hseen hmem with hmem | hsame
    · exact hgone i (h.gone i result hmem)
    · exact (hpolled i result hsame).1
  · intro status entries hmem
    rcases concat_split heq with ⟨rfl, hsame⟩ | ⟨rest, heq⟩
    · obtain ⟨lookup, hi, hnone⟩ := habandoned i hsame.symm
      exact h.unanswered i status entries hmem lookup hi hnone
    · exact h.left before i rest heq status entries hmem
  · rcases hseen hmem with hmem | hsame
    · obtain ⟨status, entries, hmem, hresult⟩ := h.told i result hmem
      exact ⟨status, entries, List.mem_append_left _ hmem, hresult⟩
    · obtain ⟨-, -, status, entries, hmem, hresult⟩ := hpolled i result hsame
      exact ⟨status, entries, List.mem_append_left _ hmem, hresult⟩
  · intro other hmem
    rcases concat_split heq with ⟨rfl, hsame⟩ | ⟨rest, heq⟩
    · exact (hpolled i result hsame.symm).2.1 (h.gone i other hmem)
    · exact h.toldOnce before i result rest heq other hmem

/-- A step that leaves the lookups alone and tells nothing of them. -/
theorem Told.quiet (h : Told s seen) (hout : out = .nothing ∨ ∃ status, out = .failed status) :
    Told s (seen ++ [out]) := by
  have hnot : ∀ {what : LookupSeen}, out = what → what = .nothing ∨ ∃ status, what = .failed status :=
    fun hsame => hsame ▸ hout
  refine h.next ?_ (Nat.le_refl _) (fun i lookup hi => ?_) (fun i lookup status hi hstatus => ?_)
    (fun i lookup hi _ => ⟨fun status entries hsame => ?_, .inl hi⟩) (fun _ hi => hi) (fun i result hsame => ?_)
    (fun i hsame => ?_) (fun i status entries hsame => ?_)
  · intro hsame
    simpa using hnot hsame
  · exact (h.kept i lookup hi).imp_right fun hmem => List.mem_append_left _ hmem
  · obtain ⟨hmem, hresult⟩ := h.answered i lookup status hi hstatus
    exact ⟨List.mem_append_left _ hmem, hresult⟩
  · simpa using hnot hsame
  · simpa using hnot hsame
  · simpa using hnot hsame
  · simpa using hnot hsame

/-- A lookup that is complete is released, and may be reported. -/
theorem Told.release (h : Told s seen) (hsafe : Safe s) (hi : s.lookups[i]? = some (some lookup)) {status : Int}
    (hown : s.pLookup = some i) (hstatus : lookup.status = some status)
    (hout : out = .nothing ∨ out = .polled i (resultOf status lookup.entries)) :
    Told (s.release i lookup out).1 (seen ++ [(s.release i lookup out).2]) := by
  obtain ⟨hlt, -⟩ := List.getElem?_eq_some_iff.mp hi
  have hold : ∀ {j : Nat} {known : SNativeLookup}, (s.lookups.set i none)[j]? = some (some known) →
      i ≠ j ∧ s.lookups[j]? = some (some known) := by
    intro j known hj
    have hne : i ≠ j := by
      intro hsame
      rw [← hsame, List.getElem?_set_self hlt] at hj
      cases hj
    rw [List.getElem?_set_ne hne] at hj
    exact ⟨hne, hj⟩
  rw [hsafe.release_eq hi]
  refine h.next ?_ (by simp) (fun j known hj => ?_) (fun j known status hj hknown => ?_)
    (fun j known hj _ => ⟨fun status entries hsame => ?_, .inl (hold hj).2⟩) (fun j hj => ?_)
    (fun j result hsame => ?_) (fun j hsame => ?_) (fun j status entries hsame => ?_)
  · rcases hout with rfl | rfl <;> exact fun hsame => by cases hsame
  · obtain ⟨hne, hj⟩ := hold hj
    rcases h.kept j known hj with howned | hmem
    · exact absurd (Option.some.inj (hown.symm.trans howned)) hne
    · exact .inr (List.mem_append_left _ hmem)
  · obtain ⟨hmem, hresult⟩ := h.answered j known status (hold hj).2 hknown
    exact ⟨List.mem_append_left _ hmem, hresult⟩
  · rcases hout with rfl | rfl <;> cases hsame
  · by_cases hsame : i = j
    · rw [← hsame]
      exact List.getElem?_set_self hlt
    · exact (List.getElem?_set_ne hsame).trans hj
  · rcases hout with rfl | rfl
    · cases hsame
    · cases hsame
      refine ⟨List.getElem?_set_self hlt, ?_, status, lookup.entries, (h.answered i lookup status hi hstatus).1, rfl⟩
      rw [hi]
      exact fun hnone => by cases hnone
  · rcases hout with rfl | rfl <;> cases hsame
  · rcases hout with rfl | rfl <;> cases hsame

/-- A lookup that is pending is left to the system. -/
theorem Told.abandon (h : Told s seen) (hi : s.lookups[i]? = some (some lookup)) (hown : s.pLookup = some i)
    (hnone : lookup.status = none) : Told { s with pLookup := none } (seen ++ [.abandoned i]) := by
  refine h.next (fun hsame => by cases hsame) (Nat.le_refl _) (fun j known hj => .inr ?_)
    (fun j known status hj hknown => ?_) (fun j known hj _ => ⟨fun _ _ hsame => (by cases hsame), .inl hj⟩)
    (fun _ hj => hj) (fun _ _ hsame => by cases hsame) (fun j hsame => ?_) (fun _ _ _ hsame => by cases hsame)
  · rcases h.kept j known hj with howned | hmem
    · obtain rfl : i = j := Option.some.inj (hown.symm.trans howned)
      exact List.mem_append_right _ (List.mem_singleton_self _)
    · exact List.mem_append_left _ hmem
  · obtain ⟨hmem, hresult⟩ := h.answered j known status hj hknown
    exact ⟨List.mem_append_left _ hmem, hresult⟩
  · cases hsame
    exact ⟨lookup, hi, hnone⟩

theorem Told.answer (h : Told s seen) (hi : s.lookups[i]? = some (some lookup)) (hnone : lookup.status = none)
    {status : Int} {list : Nat} {entries : List addrinfo} :
    Told (s.answer i status list entries).1 (seen ++ [(s.answer i status list entries).2]) := by
  obtain ⟨hlt, -⟩ := List.getElem?_eq_some_iff.mp hi
  have hincomplete : lookup.isComplete = false := by
    cases hcomplete : lookup.isComplete with
    | false => rfl
    | true => simp [SNativeLookup.status, hcomplete] at hnone
  generalize hnext : ({ lookup with
    overlapped := some status, pResult := if status = 0 then some list else none, entries } : SNativeLookup) = next
  have hstatus : next.status = some status := by simp [← hnext, SNativeLookup.status, hincomplete]
  have hentries : next.entries = entries := by rw [← hnext]
  have hresult : status = 0 → next.pResult ≠ none := by
    intro hzero
    simp [← hnext, hzero]
  have hold : ∀ {j : Nat} {known : SNativeLookup}, (s.lookups.set i (some next))[j]? = some (some known) →
      (i = j ∧ known = next) ∨ (i ≠ j ∧ s.lookups[j]? = some (some known)) := by
    intro j known hj
    by_cases hsame : i = j
    · subst hsame
      rw [List.getElem?_set_self hlt] at hj
      exact .inl ⟨rfl, (Option.some.inj (Option.some.inj hj)).symm⟩
    · rw [List.getElem?_set_ne hsame] at hj
      exact .inr ⟨hsame, hj⟩
  rw [answer_eq hi, hnext]
  refine h.next (fun hsame => by cases hsame) (by simp) (fun j known hj => ?_) (fun j known other hj hknown => ?_)
    (fun j known hj hother => ?_) (fun j hj => ?_) (fun _ _ hsame => by cases hsame) (fun _ hsame => by cases hsame)
    (fun j other others hsame => ?_)
  · rcases hold hj with ⟨rfl, -⟩ | ⟨-, hj⟩
    · exact (h.kept i lookup hi).imp_right fun hmem => List.mem_append_left _ hmem
    · exact (h.kept j known hj).imp_right fun hmem => List.mem_append_left _ hmem
  · rcases hold hj with ⟨rfl, rfl⟩ | ⟨-, hj⟩
    · obtain rfl : status = other := Option.some.inj (hstatus.symm.trans hknown)
      rw [hentries]
      exact ⟨List.mem_append_right _ (List.mem_singleton_self _), hresult⟩
    · obtain ⟨hmem, hsome⟩ := h.answered j known other hj hknown
      exact ⟨List.mem_append_left _ hmem, hsome⟩
  · rcases hold hj with ⟨rfl, rfl⟩ | ⟨hne, hj⟩
    · rw [hstatus] at hother
      cases hother
    · refine ⟨fun other others hsame => ?_, .inl hj⟩
      cases hsame
      exact hne rfl
  · have hne : i ≠ j := by
      intro hsame
      rw [← hsame, hi] at hj
      cases hj
    exact (List.getElem?_set_ne hne).trans hj
  · cases hsame
    exact Nat.lt_of_lt_of_eq hlt List.length_set.symm

/-- A lookup that is new is the running one, and what is known of it is what was just seen. -/
theorem Told.append (h : Told s seen) (hfree : s.pLookup = none)
    (hout : ∀ status, lookup.status = some status →
      out = .answered s.lookups.length status lookup.entries ∧ (status = 0 → lookup.pResult ≠ none))
    (hnone : lookup.status = none → out = .nothing)
    (hnew : t.lookups = s.lookups ++ [some lookup]) (hown : t.pLookup = some s.lookups.length) :
    Told t (seen ++ [out]) := by
  have hcases : out = .nothing ∨ ∃ status, out = .answered s.lookups.length status lookup.entries := by
    cases hstatus : lookup.status with
    | none => exact .inl (hnone hstatus)
    | some status => exact .inr ⟨status, (hout status hstatus).1⟩
  have hold : ∀ {j : Nat} {known : SNativeLookup}, t.lookups[j]? = some (some known) →
      s.lookups[j]? = some (some known) ∨ j = s.lookups.length ∧ known = lookup := by
    intro j known hj
    rw [hnew, List.getElem?_append] at hj
    split at hj
    · exact .inl hj
    · have hlast := List.mem_singleton.mp (List.mem_of_getElem? hj)
      have hlt := (List.getElem?_eq_some_iff.mp hj).1
      rw [List.length_singleton] at hlt
      exact .inr ⟨by omega, Option.some.inj hlast⟩
  refine h.next ?_ (by simp [hnew]) (fun j known hj => ?_) (fun j known status hj hknown => ?_)
    (fun j known hj hunknown => ?_) (fun j hj => ?_) (fun j result hsame => ?_) (fun j hsame => ?_)
    (fun j status entries hsame => ?_)
  · rcases hcases with rfl | ⟨status, rfl⟩ <;> exact fun hsame => by cases hsame
  · rcases hold hj with hj | ⟨rfl, -⟩
    · rcases h.kept j known hj with howned | hmem
      · rw [hfree] at howned
        cases howned
      · exact .inr (List.mem_append_left _ hmem)
    · exact .inl hown
  · rcases hold hj with hj | ⟨rfl, rfl⟩
    · obtain ⟨hmem, hsome⟩ := h.answered j known status hj hknown
      exact ⟨List.mem_append_left _ hmem, hsome⟩
    · obtain ⟨hsame, hsome⟩ := hout status hknown
      exact ⟨List.mem_append_right _ (List.mem_singleton.mpr hsame.symm), hsome⟩
  · rcases hold hj with hj | ⟨rfl, rfl⟩
    · have hlt := (List.getElem?_eq_some_iff.mp hj).1
      refine ⟨fun status entries hsame => ?_, .inl hj⟩
      rcases hcases with rfl | ⟨status, rfl⟩
      · cases hsame
      · cases hsame
        exact Nat.lt_irrefl _ hlt
    · rw [hnone hunknown]
      exact ⟨fun _ _ hsame => (by cases hsame), .inr (Nat.le_refl _)⟩
  · have hlt := (List.getElem?_eq_some_iff.mp hj).1
    rw [hnew, List.getElem?_append_left hlt]
    exact hj
  · rcases hcases with rfl | ⟨status, rfl⟩ <;> cases hsame
  · rcases hcases with rfl | ⟨status, rfl⟩ <;> cases hsame
  · rcases hcases with rfl | ⟨status, rfl⟩
    · cases hsame
    · cases hsame
      simp [hnew]

theorem Told.step (h : Told s seen) (hsafe : Safe s) {m : LookupMove} (hst : s.step m = some (t, out)) :
    Told t (seen ++ [out]) := by
  cases m with
  | start started =>
    simp only [CAddressLookup.step] at hst
    split at hst
    · rename_i hasked
      cases started with
      | noEvent error | failed error =>
        cases hst
        exact h.quiet (.inr ⟨_, rfl⟩)
      | complete event list entries =>
        cases hst
        refine h.append hasked.1 (fun status hstatus => ?_) (fun hnone => by cases hnone) rfl rfl
        cases hstatus
        exact ⟨rfl, fun _ hnone => by cases hnone⟩
      | pending event =>
        cases hst
        exact h.append hasked.1 (fun status hstatus => by cases hstatus) (fun _ => rfl) rfl rfl
    · cases hst
  | poll =>
    obtain ⟨i, hown, hst⟩ := Option.map_eq_some_iff.mp hst
    obtain ⟨lookup, hi⟩ := hsafe.owner i hown
    simp only [CAddressLookup.poll, hi] at hst
    split at hst
    · cases hst
      exact h.quiet (.inl rfl)
    · rename_i status hstatus
      rw [hsafe.takeFirstAddress hi (h.answered i lookup status hi hstatus).2] at hst
      dsimp only at hst
      have hreleased := h.release hsafe hi hown hstatus (.inr rfl)
      rw [hst] at hreleased
      exact hreleased
  | terminate =>
    simp only [CAddressLookup.step] at hst
    split at hst
    · rename_i i hown
      obtain ⟨lookup, hi⟩ := hsafe.owner i hown
      simp only [CAddressLookup.terminate, hi] at hst
      split at hst
      · rename_i hnone
        cases hst
        exact h.abandon hi hown hnone
      · rename_i status hstatus
        have hreleased := h.release hsafe hi hown hstatus (.inl rfl)
        rw [Option.some.inj hst] at hreleased
        exact hreleased
    · cases hst
      exact h.quiet (.inl rfl)
  | answer i status list entries =>
    simp only [CAddressLookup.step] at hst
    split at hst
    · rename_i hasked
      obtain ⟨lookup, hi, hnone, -⟩ := hsafe.pending i hasked.1
      have hanswered := @Told.answer s seen i lookup h hi hnone status list entries
      rw [Option.some.inj hst] at hanswered
      exact hanswered
    · cases hst

theorem lookupsKept (hsafe : Safe s) (h : Told s seen) : LookupsKept s seen where
  noFault := h.noFault
  kept := h.kept
  lists list := by
    constructor
    · intro hsome
      obtain ⟨entries, hentries⟩ := Option.isSome_iff_exists.mp hsome
      obtain ⟨o, ho, hheld⟩ := hsafe.lists.owned list entries hentries
      obtain ⟨i, hi⟩ := List.mem_iff_getElem?.mp ho
      obtain ⟨lookup, rfl, hresult⟩ := Option.bind_eq_some_iff.mp hheld
      exact ⟨i, lookup, hi, hresult⟩
    · intro hheld
      obtain ⟨i, lookup, hi, hresult⟩ := hheld
      rw [hsafe.list_there hi hresult]
      rfl
  events event := by
    constructor
    · intro hsome
      obtain ⟨_, hevent⟩ := Option.isSome_iff_exists.mp hsome
      obtain ⟨o, ho, hheld⟩ := hsafe.events.owned event _ hevent
      obtain ⟨i, hi⟩ := List.mem_iff_getElem?.mp ho
      obtain ⟨lookup, rfl, hsame⟩ := Option.map_eq_some_iff.mp hheld
      exact ⟨i, lookup, hi, hsame⟩
    · intro hheld
      obtain ⟨i, lookup, hi, rfl⟩ := hheld
      rw [hsafe.event_there hi]
      rfl
  once i j lookup other hi hj hshared := by
    rcases hshared with hevent | ⟨hlist, hsome⟩
    · exact hsafe.events.sole i j _ _ lookup.hEvent hi hj rfl (congrArg some hevent.symm)
    · obtain ⟨list, hresult⟩ := Option.ne_none_iff_exists'.mp hsome
      exact hsafe.lists.sole i j _ _ list hi hj hresult (hlist.symm.trans hresult)
  left := h.left
  told := h.told
  toldOnce := h.toldOnce

/-- However lookups are started, polled and given up while the system completes them, at once, later or after a cancel,
nothing is used that is not there and only what is still the system's stays behind. -/
theorem lookups_are_kept {ms : List LookupMove} (hr : windowsLookups.run {} ms = some (s, seen)) :
    LookupsKept s seen := by
  have hsafe : Safe {} := ⟨.nil, .nil, fun _ hi => (by cases hi), fun _ hi => (by cases hi)⟩
  have htold : Told {} [] := by
    refine ⟨?_, ?_, ?_, ?_, ?_, ?_, ?_, ?_, ?_⟩ <;> simp
  obtain ⟨hsafe, htold⟩ := Machine.run_invariant (fun _ seen s => Safe s ∧ Told s seen) [] []
    (fun _ _ _ _ _ _ hinv hst => ⟨hinv.1.step hst, hinv.2.step hinv.1 hst⟩) ⟨hsafe, htold⟩ hr
  exact lookupsKept hsafe htold

/-- One lookup is given up while it is pending, another is complete at once and polled; then the system answers the
first. -/
theorem lookups_are_kept_abandoned : ∃ s seen, windowsLookups.run {}
    [.start (.pending 4), .poll, .terminate, .start (.complete 5 1 [⟨23, 9⟩, ⟨AF_INET, 0x0100007F⟩]), .poll,
      .answer 0 0 1 [⟨AF_INET, 0⟩]] = some (s, seen) ∧ LookupsKept s seen := by
  have hsome : (windowsLookups.run {}
    [.start (.pending 4), .poll, .terminate, .start (.complete 5 1 [⟨23, 9⟩, ⟨AF_INET, 0x0100007F⟩]), .poll,
      .answer 0 0 1 [⟨AF_INET, 0⟩]]).isSome = true := by decide +kernel
  obtain ⟨⟨s, seen⟩, hr⟩ := Option.isSome_iff_exists.mp hsome
  exact ⟨s, seen, hr, lookups_are_kept hr⟩

end CAddressLookup

end TgeCore.Net.OnWindows
