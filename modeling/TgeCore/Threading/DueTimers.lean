import TgeCore.Threading.Timers

namespace TgeCore.Threading
open Library

section Statement
variable {Time C : Type} [LinearOrder Time]

/-- A callback that ran for a sooner timer has cancelled this one. -/
def CancelledBefore (log : List (SEventLoopTimer Time C × List (TimerCall Time C)))
    (t : SEventLoopTimer Time C) : Prop :=
  ∃ e ∈ log, e.1.key < t.key ∧ .cancelTimer t.id ∈ e.2

/-- A pass runs, soonest first and once each, the due timers that were registered before
it and that no earlier callback cancelled, and nothing else. All other timers are what
the callbacks make of them. -/
structure RunsDue (s : SEventLoopState Time C) (now : Time)
    (log : List (SEventLoopTimer Time C × List (TimerCall Time C))) (s' : SEventLoopState Time C) :
    Prop where
  ordered : (log.map fun e => e.1.key).Pairwise (· < ·)
  registered : ∀ e ∈ log, e.1 ∈ s.timers ∧ e.1.when ≤ now
  due : ∀ t ∈ s.timers, t.when ≤ now → (t ∈ log.map Prod.fst ↔ ¬ CancelledBefore log t)
  others : s'.timers = (s.makes (log.flatMap Prod.snd)).timers.filter fun u =>
    u.id ∉ log.map fun e => e.1.id

/-- The timers with the running one erased and what its callback makes of them. -/
def SEventLoopState.afterRun (does : SEventLoopTimer Time C → SEventLoopState Time C → List (TimerCall Time C))
    (s : SEventLoopState Time C) (t : SEventLoopTimer Time C) : SEventLoopState Time C :=
  (s.erase t).makes (does t (s.erase t))

/-- The timers have their turns one after the other, unless they are cancelled. When
one's turn comes, no timer that was scheduled in the pass has an earlier deadline. -/
def Undisturbed (does : SEventLoopTimer Time C → SEventLoopState Time C → List (TimerCall Time C))
    (passEnd : UInt64) : List (SEventLoopTimer Time C) → SEventLoopState Time C → Prop
  | [], _ => True
  | t :: rest, s =>
    if t.id ∈ s.timers.map SEventLoopTimer.id then
      (∀ n ∈ s.timers, passEnd ≤ n.id → t.when ≤ n.when) ∧
        Undisturbed does passEnd rest (s.afterRun does t)
    else Undisturbed does passEnd rest s

/-- The calls that the timers' callbacks make in their turns take no more ids than 64 bits tell
apart, with those that were given before. -/
def HasIds (does : SEventLoopTimer Time C → SEventLoopState Time C → List (TimerCall Time C)) :
    Nat → List (SEventLoopTimer Time C) → SEventLoopState Time C → Prop
  | _, [], _ => True
  | given, t :: rest, s =>
    if t.id ∈ s.timers.map SEventLoopTimer.id then
      given + tally TimerCall.ids (does t (s.erase t)) ≤ 2 ^ 64 ∧
        HasIds does (given + tally TimerCall.ids (does t (s.erase t))) rest (s.afterRun does t)
    else HasIds does given rest s

instance Undisturbed.decidable (does : SEventLoopTimer Time C → SEventLoopState Time C → List (TimerCall Time C))
    (passEnd : UInt64) : ∀ rest (s : SEventLoopState Time C), Decidable (Undisturbed does passEnd rest s)
  | [], _ => isTrue trivial
  | t :: rest, s =>
    have := Undisturbed.decidable does passEnd rest (s.afterRun does t)
    have := Undisturbed.decidable does passEnd rest s
    inferInstanceAs (Decidable (if t.id ∈ s.timers.map SEventLoopTimer.id then _ ∧ _ else _))

instance HasIds.decidable (does : SEventLoopTimer Time C → SEventLoopState Time C → List (TimerCall Time C)) :
    ∀ given rest (s : SEventLoopState Time C), Decidable (HasIds does given rest s)
  | _, [], _ => isTrue trivial
  | given, t :: rest, s =>
    have := HasIds.decidable does (given + tally TimerCall.ids (does t (s.erase t))) rest (s.afterRun does t)
    have := HasIds.decidable does given rest s
    inferInstanceAs (Decidable (if t.id ∈ s.timers.map SEventLoopTimer.id then _ ∧ _ else _))

/-- The timers that are due, soonest first. -/
def SEventLoopState.dueTimers (s : SEventLoopState Time C) (now : Time) : List (SEventLoopTimer Time C) :=
  (s.timers.filter fun t => t.when ≤ now).insertionSort fun t u => t.key ≤ u.key

end Statement

variable {Time C : Type} [LinearOrder Time] {s s' : SEventLoopState Time C}
  {does : SEventLoopTimer Time C → SEventLoopState Time C → List (TimerCall Time C)}
  {now : Time} {passEnd : UInt64} {given : Nat} {rest : List (SEventLoopTimer Time C)} {t u : SEventLoopTimer Time C}
  {log : List (SEventLoopTimer Time C × List (TimerCall Time C))} {calls : List (TimerCall Time C)}

/-- The timers whose turn is still to come, of which some may be cancelled by now. -/
structure Turns (now : Time) (passEnd : UInt64) (given : Nat) (rest : List (SEventLoopTimer Time C))
    (s : SEventLoopState Time C) : Prop where
  ids : s.Given given
  sorted : rest.Pairwise fun t u => t.key < u.key
  due : ∀ t ∈ rest, t.when ≤ now ∧ t.id < passEnd
  all : ∀ u ∈ s.timers, u.when ≤ now → u.id < passEnd → u ∈ rest
  same : ∀ t ∈ rest, ∀ u ∈ s.timers, u.id = t.id → u = t
  old : passEnd.toNat ≤ given

theorem SEventLoopTimer.key_le (h : t.key ≤ u.key) : t.when ≤ u.when := by
  cases Prod.Lex.le_iff.mp h with
  | inl hlt => exact le_of_lt hlt
  | inr heq => exact heq.1.le

theorem SEventLoopTimer.key_lt (h : t.when < u.when) : t.key < u.key := Prod.Lex.lt_iff.mpr (.inl h)

/-- Of two timers, the one with the larger id is sooner only by its deadline. -/
theorem SEventLoopTimer.when_lt (h : t.key ≤ u.key) (hid : u.id < t.id) : t.when < u.when := by
  cases Prod.Lex.le_iff.mp h with
  | inl hlt => exact hlt
  | inr heq => exact absurd heq.2 (UInt64.lt_iff_toNat_lt.mp hid).not_ge

theorem SEventLoopState.nextDue_eq_some (h : s.nextDue now passEnd = some t) :
    t ∈ s.timers ∧ (∀ u ∈ s.timers, t.key ≤ u.key) ∧ t.when ≤ now ∧ t.id < passEnd := by
  obtain ⟨hmin, hdue⟩ := Option.filter_eq_some_iff.mp h
  obtain ⟨hwhen, hid⟩ := of_decide_eq_true hdue
  exact ⟨List.argmin_mem hmin, fun u hu => List.le_of_mem_argmin hu hmin, hwhen, hid⟩

theorem SEventLoopState.nextDue_eq_none (h : s.nextDue now passEnd = none) (ht : t ∈ s.timers) :
    ∃ m ∈ s.timers, m.key ≤ t.key ∧ (now < m.when ∨ passEnd ≤ m.id) := by
  unfold nextDue at h
  cases hmin : s.timers.argmin SEventLoopTimer.key with
  | none =>
    rw [List.argmin_eq_none.mp hmin] at ht
    cases ht
  | some m =>
    rw [hmin] at h
    refine ⟨m, List.argmin_mem hmin, List.le_of_mem_argmin ht hmin, ?_⟩
    by_contra hdue
    simp only [not_or, not_lt, UInt64.not_le] at hdue
    simp [Option.filter, hdue] at h

/-- While a due timer waits and no timer of the pass has an earlier deadline, it is
the first of the turns that is next. -/
theorem Turns.next (h : Turns now passEnd given (t :: rest) s) (ht : t ∈ s.timers)
    (hnew : ∀ n ∈ s.timers, passEnd ≤ n.id → t.when ≤ n.when) : s.nextDue now passEnd = some t := by
  obtain ⟨hwhen, hid⟩ := h.due t List.mem_cons_self
  have hold : ∀ m ∈ s.timers, m.key ≤ t.key → m = t := by
    intro m hm hle
    have hbefore : m.id < passEnd := by
      by_contra hafter
      have hlt := SEventLoopTimer.when_lt hle (UInt64.lt_of_lt_of_le hid (UInt64.not_lt.mp hafter))
      exact absurd (hnew m hm (UInt64.not_lt.mp hafter)) (not_le.mpr hlt)
    cases List.mem_cons.mp (h.all m hm ((SEventLoopTimer.key_le hle).trans hwhen) hbefore) with
    | inl heq => exact heq
    | inr hlater => exact absurd hle (not_le.mpr ((List.pairwise_cons.mp h.sorted).1 m hlater))
  cases hnext : s.nextDue now passEnd with
  | none =>
    obtain ⟨m, hm, hle, hundue⟩ := SEventLoopState.nextDue_eq_none hnext ht
    obtain rfl := hold m hm hle
    cases hundue with
    | inl hlater => exact absurd hwhen (not_le.mpr hlater)
    | inr hnewer => exact absurd hid (UInt64.not_lt.mpr hnewer)
  | some m =>
    obtain ⟨hm, hmin, -, -⟩ := SEventLoopState.nextDue_eq_some hnext
    rw [hold m hm (hmin t ht)]

/-- A timer of the pass with an earlier deadline ends it. -/
theorem Turns.stops (h : Turns now passEnd given (t :: rest) s) {n : SEventLoopTimer Time C}
    (hn : n ∈ s.timers) (hsooner : n.when < t.when) :
    s.nextDue now passEnd = none := by
  cases hnext : s.nextDue now passEnd with
  | none => rfl
  | some m =>
    obtain ⟨hm, hmin, hwhen, hbefore⟩ := SEventLoopState.nextDue_eq_some hnext
    have hlt : m.key < t.key := (hmin n hn).trans_lt (SEventLoopTimer.key_lt hsooner)
    cases List.mem_cons.mp (h.all m hm hwhen hbefore) with
    | inl heq => exact absurd (heq ▸ hlt) (lt_irrefl _)
    | inr hlater => exact absurd hlt (not_lt_of_gt ((List.pairwise_cons.mp h.sorted).1 m hlater))

theorem Turns.skip (h : Turns now passEnd given (t :: rest) s) (ht : t ∉ s.timers) : Turns now passEnd given rest s := by
  refine ⟨h.ids, (List.pairwise_cons.mp h.sorted).2, fun u hu => h.due u (List.mem_cons_of_mem _ hu),
    fun u hu hwhen hid => ?_, fun u hu => h.same u (List.mem_cons_of_mem _ hu), h.old⟩
  cases List.mem_cons.mp (h.all u hu hwhen hid) with
  | inl heq => exact absurd (heq ▸ hu) ht
  | inr hrest => exact hrest

/-- A timer that was there when the pass began has its id. -/
theorem Turns.below (h : Turns now passEnd given rest s) (hid : u.id < passEnd) : u.id.toNat < given :=
  (UInt64.lt_iff_toNat_lt.mp hid).trans_le h.old

/-- A callback leaves the turns of the other timers. -/
theorem Turns.run (h : Turns now passEnd given (t :: rest) s) (hroom : given + tally TimerCall.ids calls ≤ 2 ^ 64) :
    Turns now passEnd (given + tally TimerCall.ids calls) rest ((s.cancelTimer t.id).makes calls) := by
  have hkept : ∀ u ∈ ((s.cancelTimer t.id).makes calls).timers, u.id < passEnd →
      u ∈ s.timers ∧ u.id ≠ t.id := by
    intro u hu hid
    exact SEventLoopState.mem_cancelTimer.mp (((h.ids.cancelTimer t.id).mem_makes hroom (h.below hid)).mp hu).1
  refine ⟨(h.ids.cancelTimer t.id).makes hroom, (List.pairwise_cons.mp h.sorted).2,
    fun u hu => h.due u (List.mem_cons_of_mem _ hu), fun u hu hwhen hid => ?_, fun v hv u hu hid => ?_,
    h.old.trans (Nat.le_add_right _ _)⟩
  · obtain ⟨hmem, hne⟩ := hkept u hu hid
    cases List.mem_cons.mp (h.all u hmem hwhen hid) with
    | inl heq => exact absurd (congrArg _ heq) hne
    | inr hrest => exact hrest
  · have hv' := (h.due v (List.mem_cons_of_mem _ hv)).2
    exact h.same v (List.mem_cons_of_mem _ hv) u (hkept u hu (hid ▸ hv')).1 hid

/-- What the loop does with the turns that are left. -/
structure Rounds (does : SEventLoopTimer Time C → SEventLoopState Time C → List (TimerCall Time C))
    (passEnd : UInt64) (given : Nat) (rest : List (SEventLoopTimer Time C)) (s : SEventLoopState Time C)
    (log : List (SEventLoopTimer Time C × List (TimerCall Time C))) (s' : SEventLoopState Time C) :
    Prop where
  turns : (log.map Prod.fst).Sublist rest
  registered : ∀ e ∈ log, e.1 ∈ s.timers
  room : given + tally TimerCall.ids (log.flatMap Prod.snd) ≤ 2 ^ 64
  others : s'.timers = (s.makes (log.flatMap Prod.snd)).timers.filter fun u =>
    u.id ∉ log.map fun e => e.1.id
  turn : ∀ u ∈ rest, u ∈ s.timers → u ∉ s'.timers → (u ∈ log.map Prod.fst ↔ ¬ CancelledBefore log u)
  done : (∀ u ∈ rest, u ∉ s'.timers) ↔ Undisturbed does passEnd rest s

theorem Turns.gone (h : Turns now passEnd given (t :: rest) s) (ht : t ∉ s.timers) :
    t.id ∉ s.timers.map SEventLoopTimer.id := by
  intro hmem
  obtain ⟨u, hu, he⟩ := List.mem_map.mp hmem
  exact ht (h.same t List.mem_cons_self u hu he ▸ hu)

theorem Rounds.skip (h : Turns now passEnd given (t :: rest) s) (ht : t ∉ s.timers)
    (hr : Rounds does passEnd given rest s log s') : Rounds does passEnd given (t :: rest) s log s' := by
  have hgone : t ∉ s'.timers := by
    intro hmem
    rw [hr.others] at hmem
    have hold := h.below (h.due t List.mem_cons_self).2
    exact ht ((h.ids.mem_makes hr.room hold).mp (List.mem_of_mem_filter hmem)).1
  refine ⟨hr.turns.cons t, hr.registered, hr.room, hr.others, fun u hu hmem hout => ?_, ?_⟩
  · cases List.mem_cons.mp hu with
    | inl heq => exact absurd (heq ▸ hmem) ht
    | inr hrest => exact hr.turn u hrest hmem hout
  · rw [Undisturbed, if_neg (h.gone ht), ← hr.done]
    exact ⟨fun hall u hu => hall u (List.mem_cons_of_mem _ hu), fun hall u hu => by
      cases List.mem_cons.mp hu with
      | inl heq => exact heq ▸ hgone
      | inr hrest => exact hall u hrest⟩

/-- A pass that a sooner timer of its own ends leaves the due timers registered. -/
theorem Rounds.stop (hgiven : s.Given given) (ht : t ∈ s.timers)
    {n : SEventLoopTimer Time C} (hn : n ∈ s.timers) (hid : passEnd ≤ n.id) (hsooner : n.when < t.when) :
    Rounds does passEnd given (t :: rest) s [] s := by
  refine ⟨List.nil_sublist _, by simp, hgiven.room, by simp [SEventLoopState.makes], fun u _ hu hout => absurd hu hout,
    iff_of_false (fun hall => hall t List.mem_cons_self ht) ?_⟩
  rw [Undisturbed, if_pos (List.mem_map_of_mem ht)]
  intro hquiet
  exact absurd (hquiet.1 n hn hid) (not_le.mpr hsooner)

theorem Rounds.run (h : Turns now passEnd given (t :: rest) s) (ht : t ∈ s.timers)
    (hnew : ∀ n ∈ s.timers, passEnd ≤ n.id → t.when ≤ n.when)
    (hcalls : does t (s.erase t) = calls) (hroom : given + tally TimerCall.ids calls ≤ 2 ^ 64)
    (hr : Rounds does passEnd (given + tally TimerCall.ids calls) rest ((s.cancelTimer t.id).makes calls) log s') :
    Rounds does passEnd given (t :: rest) s ((t, calls) :: log) s' := by
  obtain ⟨hfirst, -⟩ := List.pairwise_cons.mp h.sorted
  have hlater : ∀ e ∈ log, t.key < e.1.key := fun e he =>
    hfirst e.1 (hr.turns.subset (List.mem_map_of_mem he))
  have hold : ∀ u ∈ t :: rest, u.id.toNat < given := fun u hu => h.below (h.due u hu).2
  have hall : given + tally TimerCall.ids (calls ++ log.flatMap Prod.snd) ≤ 2 ^ 64 := by
    rw [tally_append, ← Nat.add_assoc]
    exact hr.room
  have hmem : ∀ u ∈ t :: rest, u ∈ ((s.cancelTimer t.id).makes calls).timers ↔
      (u ∈ s.timers ∧ u.id ≠ t.id) ∧ .cancelTimer u.id ∉ calls := fun u hu =>
    ((h.ids.cancelTimer t.id).mem_makes hroom (hold u hu)).trans
      (and_congr_left' SEventLoopState.mem_cancelTimer)
  have hothers : s'.timers = (s.makes (calls ++ log.flatMap Prod.snd)).timers.filter fun u =>
      u.id ∉ t.id :: log.map fun e => e.1.id := by
    have ht' := hold t List.mem_cons_self
    rw [hr.others, ← SEventLoopState.makes_append, h.ids.cancelTimer_makes hall ht']
    simp only [SEventLoopState.cancelTimer, List.filter_filter]
    refine List.filter_congr fun u _ => ?_
    simp only [List.mem_cons, not_or, Bool.decide_and]
    exact Bool.and_comm _ _
  refine ⟨hr.turns.cons_cons t, fun e he => ?_, hall, hothers, fun u hu hin hout => ?_, ?_⟩
  · cases List.mem_cons.mp he with
    | inl heq => exact heq ▸ ht
    | inr hlog =>
      have hrest := List.mem_cons_of_mem t (hr.turns.subset (List.mem_map_of_mem hlog))
      exact ((hmem e.1 hrest).mp (hr.registered e hlog)).1.1
  · cases List.mem_cons.mp hu with
    | inl heq =>
      subst heq
      refine iff_of_true List.mem_cons_self fun hbefore => ?_
      obtain ⟨e, he, hlt, -⟩ := hbefore
      cases List.mem_cons.mp he with
      | inl heq => exact absurd (heq ▸ hlt) (lt_irrefl _)
      | inr hlog => exact absurd hlt (not_lt_of_gt (hlater e hlog))
    | inr hrest =>
      have hne : u ≠ t := by
        intro heq
        exact lt_irrefl _ (heq ▸ hfirst u hrest)
      have hid : u.id ≠ t.id := fun hid => hne (h.ids.same_of_id hin ht hid)
      by_cases hcancel : .cancelTimer u.id ∈ calls
      · -- The callback of t cancels u before its turn.
        refine iff_of_false (fun hran => ?_) (not_not.mpr ⟨(t, calls), List.mem_cons_self,
          hfirst u hrest, hcancel⟩)
        cases List.mem_cons.mp hran with
        | inl heq => exact hne heq
        | inr hlog =>
          obtain ⟨e, he, rfl⟩ := List.mem_map.mp hlog
          exact ((hmem e.1 hu).mp (hr.registered e he)).2 hcancel
      · have hstill := (hmem u hu).mpr ⟨⟨hin, hid⟩, hcancel⟩
        have hturn := hr.turn u hrest hstill hout
        have hbefore : CancelledBefore ((t, calls) :: log) u ↔ CancelledBefore log u := by
          simp [CancelledBefore, hcancel]
        rw [hbefore, ← hturn]
        simp [hne]
  · rw [Undisturbed, if_pos (List.mem_map_of_mem ht), and_iff_right hnew, SEventLoopState.afterRun, hcalls,
      h.ids.erase_eq ht, ← hr.done]
    refine ⟨fun hall u hu => hall u (List.mem_cons_of_mem _ hu), fun hall u hu => ?_⟩
    cases List.mem_cons.mp hu with
    | inl heq =>
      subst heq
      rw [hothers]
      simp
    | inr hrest => exact hall u hrest

/-- The loop ends within one round for each turn and one more. -/
theorem Turns.rounds (h : Turns now passEnd given rest s)
    (does : SEventLoopTimer Time C → SEventLoopState Time C → List (TimerCall Time C)) (hids : HasIds does given rest s)
    {fuel : Nat} (hfuel : rest.length < fuel) :
    ∃ log s', s.dueRounds does now passEnd fuel = some (log, s') ∧ Rounds does passEnd given rest s log s' := by
  induction rest generalizing s given fuel with
  | nil =>
    obtain ⟨fuel, rfl⟩ := Nat.exists_eq_add_one_of_ne_zero (Nat.ne_zero_of_lt hfuel)
    have hnone : s.nextDue now passEnd = none := by
      cases hnext : s.nextDue now passEnd with
      | none => rfl
      | some m =>
        obtain ⟨hm, -, hwhen, hid⟩ := SEventLoopState.nextDue_eq_some hnext
        cases h.all m hm hwhen hid
    refine ⟨[], s, by simp [SEventLoopState.dueRounds, hnone], ?_⟩
    exact ⟨List.nil_sublist _, by simp, h.ids.room, by simp [SEventLoopState.makes], by simp, by simp [Undisturbed]⟩
  | cons t rest ih =>
    obtain ⟨fuel, rfl⟩ := Nat.exists_eq_add_one_of_ne_zero (Nat.ne_zero_of_lt hfuel)
    by_cases ht : t ∈ s.timers
    · rw [HasIds, if_pos (List.mem_map_of_mem ht), SEventLoopState.afterRun, h.ids.erase_eq ht] at hids
      obtain ⟨hroom, hids⟩ := hids
      by_cases hnew : ∀ n ∈ s.timers, passEnd ≤ n.id → t.when ≤ n.when
      · obtain ⟨log, s', hrun, hr⟩ := ih (h.run hroom) hids (Nat.lt_of_succ_lt_succ hfuel)
        refine ⟨_, s', ?_, Rounds.run h ht hnew (by rw [h.ids.erase_eq ht]) hroom hr⟩
        simp [SEventLoopState.dueRounds, h.next ht hnew, h.ids.erase_eq ht, hrun]
      · simp only [not_forall, not_le] at hnew
        obtain ⟨n, hn, hid, hsooner⟩ := hnew
        refine ⟨[], s, by simp [SEventLoopState.dueRounds, h.stops hn hsooner], ?_⟩
        exact Rounds.stop h.ids ht hn hid hsooner
    · rw [HasIds, if_neg (h.gone ht)] at hids
      obtain ⟨log, s', hrun, hr⟩ := ih (h.skip ht) hids (Nat.lt_of_succ_lt hfuel)
      exact ⟨log, s', hrun, hr.skip h ht⟩

theorem SEventLoopState.mem_dueTimers : t ∈ s.dueTimers now ↔ t ∈ s.timers ∧ t.when ≤ now := by
  simp [dueTimers]

theorem Turns.start (hgiven : s.Given given) (hfewer : given < 2 ^ 64) (now : Time) :
    Turns now s.nextId given (s.dueTimers now) s := by
  have hnext := hgiven.next_toNat hfewer
  refine ⟨hgiven, ?_, fun t ht => ?_, fun u hu hwhen _ => SEventLoopState.mem_dueTimers.mpr ⟨hu, hwhen⟩,
    fun t ht u hu hid => ?_, Nat.le_of_eq hnext⟩
  · have hsorted : (s.dueTimers now).Pairwise fun t u => t.key ≤ u.key :=
      List.pairwise_insertionSort (fun t u : SEventLoopTimer Time C => t.key ≤ u.key) _
    have hdistinct : ((s.dueTimers now).map SEventLoopTimer.id).Nodup := by
      refine (List.Perm.nodup_iff ((List.perm_insertionSort _ _).map _)).mpr ?_
      exact hgiven.distinct.sublist (List.filter_sublist.map _)
    refine hsorted.imp₂ (fun t u hle hne => ?_) (List.pairwise_map.mp hdistinct)
    refine lt_of_le_of_ne hle fun hkey => hne ?_
    exact UInt64.toNat_inj.mp (congrArg (fun k => (ofLex k).2) hkey)
  · obtain ⟨hmem, hwhen⟩ := SEventLoopState.mem_dueTimers.mp ht
    exact ⟨hwhen, UInt64.lt_iff_toNat_lt.mpr (hnext ▸ hgiven.below t hmem)⟩
  · exact hgiven.same_of_id hu (SEventLoopState.mem_dueTimers.mp ht).1 hid

/-- What a pass leaves registered has had no turn, and nobody has cancelled it. -/
theorem Rounds.left (hr : Rounds does passEnd given rest s log s') (hgiven : s.Given given) (ht : t ∈ s'.timers)
    (hold : t.id.toNat < given) : t ∉ log.map Prod.fst ∧ ¬ CancelledBefore log t := by
  rw [hr.others] at ht
  obtain ⟨hmem, hid⟩ := List.mem_filter.mp ht
  refine ⟨fun hran => ?_, fun hbefore => ?_⟩
  · obtain ⟨e, he, rfl⟩ := List.mem_map.mp hran
    exact of_decide_eq_true hid (List.mem_map_of_mem he)
  · obtain ⟨e, he, -, hcancel⟩ := hbefore
    exact ((hgiven.mem_makes hr.room hold).mp hmem).2 (List.mem_flatMap.mpr ⟨e, he, hcancel⟩)

/-- While 64 bits tell the ids apart, a pass ends, and it runs what is due exactly if no timer
that was scheduled in it ever comes before a due one. -/
theorem runDueTimers_iff (s : SEventLoopState Time C) (hgiven : s.Given given) (hfewer : given < 2 ^ 64)
    (does : SEventLoopTimer Time C → SEventLoopState Time C → List (TimerCall Time C)) (now : Time)
    (hids : HasIds does given (s.dueTimers now) s) :
    ∃ log s', s.runDueTimers does now = some (log, s') ∧
      (RunsDue s now log s' ↔ Undisturbed does s.nextId (s.dueTimers now) s) := by
  have hstart := Turns.start hgiven hfewer now
  have hlength : (s.dueTimers now).length < s.timers.length + 1 := by
    have hle := List.length_filter_le (fun t : SEventLoopTimer Time C => decide (t.when ≤ now)) s.timers
    simp only [SEventLoopState.dueTimers, List.length_insertionSort]
    omega
  obtain ⟨log, s', hrun, hr⟩ := hstart.rounds does hids hlength
  refine ⟨log, s', hrun, ?_⟩
  rw [← hr.done]
  refine ⟨fun hright t ht hleft => ?_, fun hdone => ⟨?_, fun e he => ?_, fun t ht hwhen => ?_, hr.others⟩⟩
  · obtain ⟨hmem, hwhen⟩ := SEventLoopState.mem_dueTimers.mp ht
    obtain ⟨hran, hbefore⟩ := hr.left hgiven hleft (hgiven.below t hmem)
    exact hran ((hright.due t hmem hwhen).mpr hbefore)
  · have hsorted := hstart.sorted.sublist hr.turns
    rwa [List.pairwise_map] at hsorted ⊢
  · have hdue := hr.turns.subset (List.mem_map_of_mem he)
    exact SEventLoopState.mem_dueTimers.mp hdue
  · have hdue := SEventLoopState.mem_dueTimers.mpr ⟨ht, hwhen⟩
    exact hr.turn t hdue ht (hdone t hdue)

/-- Two timers that are due at 5. The first one's callback schedules a third at 0. -/
def twoDue : SEventLoopState Nat Nat where
  timers := [⟨0, 1, 0⟩, ⟨1, 2, 0⟩]
  nextId := 2

def schedulesPast (t : SEventLoopTimer Nat Nat) (_ : SEventLoopState Nat Nat) : List (TimerCall Nat Nat) :=
  if t.id = 0 then [.scheduleAt 0 0] else []

theorem twoDue_given : twoDue.Given 2 where
  room := by decide
  next := rfl
  below := by decide
  distinct := by decide

/-- The same with a deadline that is past the second one's. -/
def schedulesLater (t : SEventLoopTimer Nat Nat) (_ : SEventLoopState Nat Nat) : List (TimerCall Nat Nat) :=
  if t.id = 0 then [.scheduleAt 3 0] else []

theorem runDueTimers_schedulesLater : ∃ log s', twoDue.runDueTimers schedulesLater 5 = some (log, s') ∧
    RunsDue twoDue 5 log s' := by
  obtain ⟨log, s', hrun, hiff⟩ := runDueTimers_iff twoDue twoDue_given (by decide) schedulesLater 5 (by decide +kernel)
  exact ⟨log, s', hrun, hiff.mpr (by decide +kernel)⟩

theorem runDueTimers_stops_early : ∃ log s', twoDue.runDueTimers schedulesPast 5 = some (log, s') ∧
    log.map (fun e => e.1.id) = [0] ∧ s'.timers = [⟨1, 2, 0⟩, ⟨2, 0, 0⟩] ∧ ¬ RunsDue twoDue 5 log s' := by
  have hrun : (twoDue.runDueTimers schedulesPast 5).map (fun r => (r.1, r.2.timers)) =
      some ([(⟨0, 1, 0⟩, [.scheduleAt 0 0])], [⟨1, 2, 0⟩, ⟨2, 0, 0⟩]) := by decide +kernel
  obtain ⟨⟨log, s'⟩, hr, hout⟩ := Option.map_eq_some_iff.mp hrun
  obtain ⟨rfl, htimers⟩ := Prod.mk.inj hout
  refine ⟨_, s', hr, rfl, htimers, fun hright => ?_⟩
  have hdue := hright.due ⟨1, 2, 0⟩ (by simp [twoDue]) (by simp)
  simp [CancelledBefore] at hdue

end TgeCore.Threading
