import TgeCore.Net.AddressLookup

namespace TgeCore.Net
open Library

namespace LookupSeen

def request? : LookupSeen → Option Nat
  | .started request | .polled request _ | .abandoned request | .answered request _ _ => some request
  | .nothing | .failed _ => none

/-- What happened to one request. -/
def historyOf (request : Nat) (seen : List LookupSeen) : List LookupSeen :=
  seen.filter fun out => out.request? = some request

variable {seen : List LookupSeen} {out : LookupSeen} {request : Nat}

theorem historyOf_append (request : Nat) (seen more : List LookupSeen) :
    historyOf request (seen ++ more) = historyOf request seen ++ historyOf request more := List.filter_append ..

theorem historyOf_about (h : out.request? = some request) :
    historyOf request (seen ++ [out]) = historyOf request seen ++ [out] := by
  rw [historyOf_append]
  exact congrArg _ (by simp [historyOf, h])

theorem historyOf_other (h : out.request? ≠ some request) :
    historyOf request (seen ++ [out]) = historyOf request seen := by
  rw [historyOf_append]
  simp [historyOf, h]

end LookupSeen

/-- What a Poll makes of the resolver's answer. -/
def resultOf (status : Int) (entries : List addrinfo) : Looked :=
  if status = 0 then
    (entries.find? (·.ai_family = AF_INET)).elim (.error EAI_NONAME) fun entry => .ok (ntohl entry.s_addr)
  else .error status

namespace CAddressLookup
open LookupSeen
variable {s t : CAddressLookup} {seen : List LookupSeen} {out : LookupSeen} {request : Nat}

/-- The owner's request was started and has its answer once the resolver is through with it. -/
structure Told (seen : List LookupSeen) (s : CAddressLookup) : Prop where
  unborn : ∀ request, s.lookups.next ≤ request → historyOf request seen = []
  pending : ∀ request at', s.pLookup = some request → s.resolving request = some at' →
    historyOf request seen = [.started request]
  answered : ∀ request lookup, s.pLookup = some request → s.lookups.cell request = some lookup →
    s.resolving request = none → ∃ entries,
      historyOf request seen = [.started request, .answered request lookup.status entries] ∧
        (lookup.status = 0 → s.entriesOf lookup.ar_result = some entries)

theorem Told.silent (h : Told seen s) (hout : out.request? = none) : Told (seen ++ [out]) s := by
  have hsame (request : Nat) : historyOf request (seen ++ [out]) = historyOf request seen :=
    historyOf_other (by simp [hout])
  constructor
  · intro request hrequest
    rw [hsame, h.unborn request hrequest]
  · intro request at' hown hat
    rw [hsame, h.pending request at' hown hat]
  · intro request lookup hown hlookup hidle
    rw [hsame]
    exact h.answered request lookup hown hlookup hidle

/-- The owner's request is over. -/
theorem Told.over (h : Told seen s) (hnext : t.lookups.next = s.lookups.next) (hnone : t.pLookup = none)
    (hout : ∀ request, out.request? = some request → request < s.lookups.next) : Told (seen ++ [out]) t := by
  constructor
  · intro request hrequest
    rw [hnext] at hrequest
    rw [historyOf_other fun hmine => Nat.not_le_of_lt (hout request hmine) hrequest, h.unborn request hrequest]
  · intro request at' hown
    rw [hnone] at hown
    cases hown
  · intro request lookup hown
    rw [hnone] at hown
    cases hown

theorem Told.start (h : Told seen s) (host : String) (status : Int) :
    Told (seen ++ [(s.start host status).2]) (s.start host status).1 := by
  unfold CAddressLookup.start
  split
  · constructor
    · intro request hrequest
      have hlater : s.lookups.next < request := hrequest
      rw [historyOf_other (by simpa [request?] using Nat.ne_of_lt hlater), h.unborn request (Nat.le_of_lt hlater)]
    · intro request at' hown _
      obtain rfl := Option.some.inj hown
      rw [historyOf_about rfl, h.unborn _ (Nat.le_refl _)]
      rfl
    · intro request lookup hown _ hidle
      obtain rfl := Option.some.inj hown
      dsimp only at hidle
      rw [Function.update_self] at hidle
      cases hidle
  · exact h.silent rfl

theorem Told.poll (h : Told seen s) (hsafe : Safe seen s) (hown : s.pLookup = some request) :
    Told (seen ++ [(s.poll request).2]) (s.poll request).1 := by
  obtain ⟨lookup, hlookup⟩ := hsafe.owned request hown
  unfold CAddressLookup.poll
  rw [hlookup]
  dsimp only
  split
  · exact h.silent rfl
  · refine h.over (s.takeFirstAddress_frame request lookup).1 rfl fun other hother => ?_
    obtain rfl := Option.some.inj hother
    exact Cells.lt_next hlookup

theorem Told.terminate (h : Told seen s) (hsafe : Safe seen s) (hown : s.pLookup = some request) :
    Told (seen ++ [(s.terminate request).2]) (s.terminate request).1 := by
  obtain ⟨lookup, hlookup⟩ := hsafe.owned request hown
  have hnext (u : CAddressLookup) (list : Option Nat) : (u.freeaddrinfo list).lookups.next = u.lookups.next :=
    congrArg Cells.next (u.freeaddrinfo_frame list).2.1
  unfold CAddressLookup.terminate
  rw [hlookup]
  dsimp only
  split
  · refine h.over rfl rfl fun other hother => ?_
    obtain rfl := Option.some.inj hother
    exact Cells.lt_next hlookup
  · exact h.over (hnext ..) rfl (by simp [request?])
  · exact h.over (hnext ..) rfl (by simp [request?])

theorem Told.takeUp (h : Told seen s) (hqueued : s.resolving request = some .queued) :
    Told (seen ++ [.nothing]) { s with resolving := Function.update s.resolving request (some .running) } := by
  have htold : Told (seen ++ [.nothing]) s := h.silent rfl
  refine { htold with pending := fun other at' hown hat => ?_, answered := fun other lookup hown hlookup hidle => ?_ }
  · by_cases hsame : other = request
    · exact htold.pending other .queued hown (hsame ▸ hqueued)
    · dsimp only at hat
      rw [Function.update_of_ne hsame] at hat
      exact htold.pending other at' hown hat
  · by_cases hsame : other = request
    · dsimp only at hidle
      rw [hsame, Function.update_self] at hidle
      cases hidle
    · dsimp only at hidle
      rw [Function.update_of_ne hsame] at hidle
      exact htold.answered other lookup hown hlookup hidle

theorem Told.answer (h : Told seen s) (hsafe : Safe seen s) (hrunning : s.resolving request = some .running)
    (status : Int) (entries : List addrinfo) :
    Told (seen ++ [.answered request status entries]) (s.answer request status entries) := by
  obtain ⟨lookup, hlookup, -, hnoList⟩ := hsafe.resolving request .running hrunning
  have hold (other : Nat) (hother : other ≠ request) :
      historyOf other (seen ++ [.answered request status entries]) = historyOf other seen :=
    historyOf_other (by simpa [request?] using Ne.symm hother)
  obtain ⟨howner, hresolving, list, hlookups, hmade⟩ := answer_frame hlookup status entries
  have hlists (list : Option Nat) (entries' : List addrinfo) (hentries : s.entriesOf list = some entries') :
      (s.answer request status entries).entriesOf list = some entries' := by
    unfold CAddressLookup.answer
    rw [hlookup]
    dsimp only
    split
    · cases list with
      | none => exact hentries
      | some list => exact Cells.alloc_eq_some.mpr (.inr ⟨Nat.ne_of_lt (Cells.lt_next hentries), hentries⟩)
    · exact hentries
  have hnext := Cells.lt_next hlookup
  constructor
  · intro other hother
    rw [hlookups] at hother
    rw [hold other (Nat.ne_of_gt (Nat.lt_of_lt_of_le hnext hother)), h.unborn other hother]
  · intro other at' hown hat
    rw [hresolving] at hat
    have hother : other ≠ request := by
      rintro rfl
      rw [Function.update_self] at hat
      cases hat
    rw [Function.update_of_ne hother] at hat
    rw [hold other hother, h.pending other at' (howner ▸ hown) hat]
  · intro other lookup' hown hother hidle
    rw [howner] at hown
    rw [hlookups] at hother
    rcases (Cells.write_eq_some hnext).mp hother with ⟨rfl, rfl⟩ | ⟨hne, hbefore⟩
    · exact ⟨entries, by rw [historyOf_about rfl, h.pending other .running hown hrunning]; rfl, hmade⟩
    · rw [hresolving, Function.update_of_ne hne] at hidle
      obtain ⟨entries', hhistory, hkept⟩ := h.answered other lookup' hown hbefore hidle
      exact ⟨entries', by rw [hold other hne, hhistory], fun hdone => hlists _ _ (hkept hdone)⟩

theorem Told.step (h : Told seen s) (hsafe : Safe seen s) {m : LookupMove} (hst : s.step m = some (t, out)) :
    Told (seen ++ [out]) t := by
  cases m with
  | start host status =>
    simp only [CAddressLookup.step] at hst
    split at hst
    · have hnext := h.start host status
      rw [Option.some.inj hst] at hnext
      exact hnext
    · cases hst
  | poll =>
    obtain ⟨request, hown, hst⟩ := Option.map_eq_some_iff.mp hst
    have hnext := h.poll hsafe hown
    rw [hst] at hnext
    exact hnext
  | terminate =>
    simp only [CAddressLookup.step] at hst
    split at hst
    · rename_i request hown
      have hnext := h.terminate hsafe hown
      rw [Option.some.inj hst] at hnext
      exact hnext
    · cases hst
      exact h.silent rfl
  | takeUp request =>
    simp only [CAddressLookup.step] at hst
    split at hst
    · rename_i hqueued
      cases hst
      exact h.takeUp hqueued
    · cases hst
  | answer request status entries =>
    simp only [CAddressLookup.step] at hst
    split at hst
    · rename_i hrunning
      cases hst
      exact h.answer hsafe hrunning.1 status entries
    · cases hst

theorem told_run {ms : List LookupMove} (hr : lookupMachine.run init ms = some (s, seen)) : Told seen s := by
  have hkept := Machine.run_invariant (M := lookupMachine) (fun _ seen s => Safe seen s ∧ Told seen s) [] [] ?_ ?_ hr
  · exact hkept.2
  · exact fun _ _ _ _ _ _ h hst => ⟨h.1.step hst, h.2.step h.1 hst⟩
  · refine ⟨@safe_run init [] [] rfl, fun _ _ => rfl, ?_, ?_⟩
    · simp [init]
    · simp [init]

/-- Neither the owner nor the resolver has anything to do with the request. -/
def Ended (request : Nat) (s : CAddressLookup) : Prop :=
  request < s.lookups.next ∧ s.pLookup ≠ some request ∧ s.resolving request = none

theorem step_polled {m : LookupMove} {result : Looked} (hsafe : Safe seen s)
    (hst : s.step m = some (t, .polled request result)) : ∃ lookup, s.pLookup = some request ∧
      s.lookups.cell request = some lookup ∧ s.resolving request = none ∧
      result = (s.takeFirstAddress request lookup).2 ∧ Ended request t := by
  cases m with
  | start host status =>
    simp only [CAddressLookup.step, CAddressLookup.start] at hst
    repeat' split at hst
    all_goals cases hst
  | poll =>
    obtain ⟨polled, hown, hst⟩ := Option.map_eq_some_iff.mp hst
    obtain ⟨lookup, hlookup⟩ := hsafe.owned polled hown
    simp only [CAddressLookup.poll, hlookup] at hst
    split at hst
    · cases hst
    · rename_i hdone
      cases hst
      obtain ⟨hnext, hresolving⟩ := s.takeFirstAddress_frame request lookup
      have hidle : s.resolving request = none := by
        refine Option.eq_none_iff_forall_ne_some.mpr fun at' hat => hdone ?_
        obtain ⟨lookup', hlookup', hstatus, -⟩ := hsafe.resolving request at' hat
        rw [hlookup, Option.some_inj] at hlookup'
        rw [hlookup', hstatus]
      refine ⟨lookup, hown, hlookup, hidle, rfl, ?_, by simp [reset], (congrFun hresolving request).trans hidle⟩
      exact Nat.lt_of_lt_of_eq (Cells.lt_next hlookup) hnext.symm
  | terminate =>
    simp only [CAddressLookup.step] at hst
    split at hst
    · simp only [CAddressLookup.terminate] at hst
      repeat' split at hst
      all_goals cases hst
    · cases hst
  | takeUp other =>
    simp only [CAddressLookup.step] at hst
    split at hst <;> cases hst
  | answer other status entries =>
    simp only [CAddressLookup.step] at hst
    split at hst <;> cases hst

/-- A request that is over stays so, and nothing more is heard of it. -/
theorem Ended.step (h : Ended request s) (hsafe : Safe seen s) {m : LookupMove} (hst : s.step m = some (t, out)) :
    Ended request t ∧ out.request? ≠ some request := by
  obtain ⟨hnext, howner, hidle⟩ := h
  cases m with
  | start host status =>
    simp only [CAddressLookup.step, CAddressLookup.start] at hst
    have hne : s.lookups.next ≠ request := Nat.ne_of_gt hnext
    split at hst
    · split at hst
      · cases hst
        refine ⟨⟨Nat.lt_succ_of_lt hnext, by simpa using hne, ?_⟩, by simpa [request?] using hne⟩
        exact (Function.update_of_ne hne.symm ..).trans hidle
      · cases hst
        exact ⟨⟨hnext, howner, hidle⟩, by simp [request?]⟩
    · cases hst
  | poll =>
    obtain ⟨polled, hown, hst⟩ := Option.map_eq_some_iff.mp hst
    obtain ⟨lookup, hlookup⟩ := hsafe.owned polled hown
    have hne : polled ≠ request := fun hsame => howner (hsame ▸ hown)
    simp only [CAddressLookup.poll, hlookup] at hst
    split at hst
    · cases hst
      exact ⟨⟨hnext, howner, hidle⟩, by simp [request?]⟩
    · cases hst
      obtain ⟨hnext', hresolving⟩ := s.takeFirstAddress_frame polled lookup
      refine ⟨⟨Nat.lt_of_lt_of_eq hnext hnext'.symm, by simp [reset], ?_⟩, by simpa [request?] using hne⟩
      exact (congrFun hresolving request).trans hidle
  | terminate =>
    simp only [CAddressLookup.step] at hst
    split at hst
    · rename_i ended hown
      obtain ⟨lookup, hlookup⟩ := hsafe.owned ended hown
      have hne : ended ≠ request := fun hsame => howner (hsame ▸ hown)
      simp only [CAddressLookup.terminate, hlookup] at hst
      split at hst
      · cases hst
        exact ⟨⟨hnext, by simp, hidle⟩, by simpa [request?] using hne⟩
      · cases hst
        obtain ⟨-, hlookups, hresolving⟩ := (s.cancel ended lookup).freeaddrinfo_frame lookup.ar_result
        refine ⟨⟨Nat.lt_of_lt_of_eq hnext (congrArg Cells.next hlookups).symm, by simp [reset], ?_⟩, by simp [request?]⟩
        exact (congrFun hresolving request).trans ((Function.update_of_ne hne.symm ..).trans hidle)
      · cases hst
        obtain ⟨-, hlookups, hresolving⟩ := s.freeaddrinfo_frame lookup.ar_result
        refine ⟨⟨Nat.lt_of_lt_of_eq hnext (congrArg Cells.next hlookups).symm, by simp [reset], ?_⟩, by simp [request?]⟩
        exact (congrFun hresolving request).trans hidle
    · cases hst
      exact ⟨⟨hnext, howner, hidle⟩, by simp [request?]⟩
  | takeUp other =>
    simp only [CAddressLookup.step] at hst
    split at hst
    · rename_i hqueued
      cases hst
      have hne : request ≠ other := by
        rintro rfl
        rw [hidle] at hqueued
        cases hqueued
      exact ⟨⟨hnext, howner, (Function.update_of_ne hne ..).trans hidle⟩, by simp [request?]⟩
    · cases hst
  | answer other status entries =>
    simp only [CAddressLookup.step] at hst
    split at hst
    · rename_i hrunning
      have hne : request ≠ other := by
        rintro rfl
        rw [hidle] at hrunning
        cases hrunning.1
      cases hst
      obtain ⟨lookup, hlookup, -⟩ := hsafe.resolving other .running hrunning.1
      obtain ⟨howner', hresolving, list, hlookups, -⟩ := answer_frame hlookup status entries
      refine ⟨⟨?_, howner' ▸ howner, ?_⟩, by simpa [request?] using hne.symm⟩
      · rw [hlookups]
        exact hnext
      · rw [hresolving, Function.update_of_ne hne, hidle]
    · cases hst

/-- What Poll reports of a lookup is what the resolver answered, reported once: its history is the Start, the one answer and
this Poll. -/
theorem poll_reports_answer {ms : List LookupMove} {before after : List LookupSeen} {result : Looked}
    (hr : lookupMachine.run init ms = some (s, before ++ .polled request result :: after)) :
    ∃ status entries, result = resultOf status entries ∧ historyOf request (before ++ .polled request result :: after) =
      [.started request, .answered request status entries, .polled request result] := by
  obtain ⟨ms₁, m, ms₂, t, t', hbefore, hst, hafter⟩ := Machine.run_output_eq_some hr
  have hsafe := safe_run hbefore
  obtain ⟨lookup, hown, hlookup, hidle, rfl, hended⟩ := step_polled hsafe hst
  obtain ⟨entries, hhistory, hkept⟩ := (told_run hbefore).answered request lookup hown hlookup hidle
  have hrest := Machine.run_invariant (M := lookupMachine)
    (fun _ more u => Safe (before ++ .polled request (t.takeFirstAddress request lookup).2 :: more) u ∧
      Ended request u ∧ historyOf request more = []) [] [] ?_ ⟨hsafe.step hst, hended, rfl⟩ hafter
  · refine ⟨lookup.status, entries, ?_, ?_⟩
    · unfold takeFirstAddress resultOf
      split
      · rename_i hdone
        rw [hkept hdone]
        exact firstAddress_eq entries _
      · rfl
    · have hsilent : historyOf request after = [] := hrest.2.2
      rw [List.append_cons, historyOf_append, hsilent, historyOf_about rfl, hhistory]
      rfl
  · intro _ more u i v out h hstep
    obtain ⟨hended', hsilent⟩ := h.2.1.step h.1 hstep
    exact ⟨by simpa using h.1.step hstep, hended', by rw [historyOf_other hsilent, h.2.2]⟩

/-- Of two entries only the second is of an IPv4 address. -/
theorem poll_reports_answer_second : resultOf 0 [⟨10, 0⟩, ⟨AF_INET, 0x0100007F⟩] = .ok 0x7F000001 ∧
    ∃ status entries, .ok 0x7F000001 = resultOf status entries ∧
      historyOf 0 [.started 0, .nothing, .nothing, .answered 0 0 [⟨10, 0⟩, ⟨AF_INET, 0x0100007F⟩],
        .polled 0 (.ok 0x7F000001)] = [.started 0, .answered 0 status entries, .polled 0 (.ok 0x7F000001)] := by
  refine ⟨rfl, ?_⟩
  exact @poll_reports_answer _ _ [.start "host" 0, .poll, .takeUp 0, .answer 0 0 [⟨10, 0⟩, ⟨AF_INET, 0x0100007F⟩], .poll]
    [.started 0, .nothing, .nothing, .answered 0 0 [⟨10, 0⟩, ⟨AF_INET, 0x0100007F⟩]] [] (.ok 0x7F000001) rfl

end CAddressLookup

end TgeCore.Net
