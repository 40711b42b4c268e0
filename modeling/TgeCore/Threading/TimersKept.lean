import TgeCore.Threading.TimerRuns

namespace TgeCore.Threading
open Library

section Soonest
variable {Time C : Type} [LinearOrder Time] {s : SEventLoopState Time C} {t m : SEventLoopTimer Time C}

theorem SEventLoopState.soonest_eq_some (h : s.soonest = some m) : m ∈ s.timers ∧ ∀ u ∈ s.timers, m.key ≤ u.key :=
  ⟨List.argmin_mem h, fun _ hu => List.le_of_mem_argmin hu h⟩

theorem SEventLoopState.soonest_isSome (ht : t ∈ s.timers) : ∃ m, s.soonest = some m := by
  cases hmin : s.soonest with
  | none =>
    rw [List.argmin_eq_none.mp hmin] at ht
    cases ht
  | some m => exact ⟨m, rfl⟩

end Soonest

section Waits
variable {C : Type} {s : SEventLoopState Int C} {now : Int} {t : SEventLoopTimer Int C} {platform : Platform}

theorem difference_eq {first second : Int} (hlow : -2 ^ 63 ≤ first - second) (hhigh : first - second < 2 ^ 63) :
    difference first second = first - second := by
  rw [difference, Int.bmod_eq_of_le]
  · omega
  · omega

theorem ceilMs_bounds (ticks : Int) : ticks ≤ ceilMs ticks * ticksPerMs ∧ ceilMs ticks * ticksPerMs < ticks + ticksPerMs := by
  simp only [ceilMs, ticksPerMs]
  omega

theorem Platform.endsAfter_none (platform : Platform) : platform.endsAfter none = none := by
  cases platform <;> decide

theorem Platform.endsAfter_some (platform : Platform) (count : Nat) :
    platform.endsAfter (some count) = some (min count platform.longest) := by
  cases platform with
  | linux =>
    have hms : toEpollTimeoutMs (some count) = ((min count INT_MAX : Nat) : Int) := by
      simp only [toEpollTimeoutMs]
      omega
    simp only [endsAfter, hms, longest]
    rw [if_pos (Int.natCast_nonneg _), Int.toNat_natCast]
  | windows =>
    have hms : toTimeoutMs (some count) < INFINITE := by
      simp only [toTimeoutMs, INFINITE]
      omega
    simp only [endsAfter, hms, if_true]
    rfl

/-- The time-out asked for is that of the soonest timer. -/
theorem SEventLoopState.getTimeUntilNextTimer_eq_some {count : Nat} (h : s.getTimeUntilNextTimer now = some count) :
    ∃ m ∈ s.timers, (∀ u ∈ s.timers, m.key ≤ u.key) ∧ count = (max (ceilMs (difference m.when now)) 0).toNat := by
  obtain ⟨m, hm, rfl⟩ := Option.map_eq_some_iff.mp h
  obtain ⟨hmem, hleast⟩ := SEventLoopState.soonest_eq_some hm
  exact ⟨m, hmem, hleast, rfl⟩

theorem SEventLoopState.getTimeUntilNextTimer_isSome (ht : t ∈ s.timers) :
    ∃ count, s.getTimeUntilNextTimer now = some count := by
  obtain ⟨m, hm⟩ := SEventLoopState.soonest_isSome ht
  exact ⟨_, by rw [getTimeUntilNextTimer, hm]; rfl⟩

/-- With a timer there, a wait ends within a millisecond past its deadline. -/
theorem endsAfter_lt (hfits : ∀ m ∈ s.timers, difference m.when now = m.when - now) (ht : t ∈ s.timers) : ∃ ms : Nat,
    platform.endsAfter (s.getTimeUntilNextTimer now) = some ms ∧ now + ms * ticksPerMs < max t.when now + ticksPerMs := by
  obtain ⟨count, hcount⟩ : ∃ count, s.getTimeUntilNextTimer now = some count := s.getTimeUntilNextTimer_isSome ht
  obtain ⟨m, hm, hleast, hms⟩ := s.getTimeUntilNextTimer_eq_some hcount
  rw [hfits m hm] at hms
  refine ⟨min count platform.longest, by rw [hcount, platform.endsAfter_some], ?_⟩
  have hwhen : m.when ≤ t.when := SEventLoopTimer.key_le (hleast t ht)
  have hbounds := ceilMs_bounds (m.when - now)
  have hmin : min count platform.longest ≤ count := min_le_left _ _
  simp only [ticksPerMs] at hbounds ⊢
  omega

/-- When its time is over, a timer is due, or it could not have been longer. -/
theorem endsAfter_le {ms : Nat} (hfits : ∀ m ∈ s.timers, difference m.when now = m.when - now)
    (h : platform.endsAfter (s.getTimeUntilNextTimer now) = some ms) :
    ms = platform.longest ∨ ∃ m ∈ s.timers, m.when ≤ now + ms * ticksPerMs := by
  cases hcount : s.getTimeUntilNextTimer now with
  | none =>
    rw [hcount, platform.endsAfter_none] at h
    cases h
  | some count =>
    obtain ⟨m, hm, -, hms⟩ := s.getTimeUntilNextTimer_eq_some hcount
    rw [hfits m hm] at hms
    rw [hcount, platform.endsAfter_some] at h
    obtain rfl := Option.some.inj h
    rcases Nat.le_total count platform.longest with hle | hle
    · refine .inr ⟨m, hm, ?_⟩
      have hbounds := ceilMs_bounds (m.when - now)
      rw [min_eq_left hle]
      simp only [ticksPerMs] at hbounds ⊢
      omega
    · exact .inl (min_eq_right hle)

end Waits

namespace TimerLoop
variable {C : Type} {platform : Platform} {s s' : TimerLoop C} {move : TimerMove C} {o : TimerSeen C}
  {t : SEventLoopTimer Int C} {seen : List (TimerSeen C)} {now : Int} {passEnd : UInt64} {given given' : Nat}

/-- What a step that callers can tell says of the state before and after it. -/
def Shows (platform : Platform) (s s' : TimerLoop C) : TimerSeen C → Prop
  | .nothing => True
  | .waits now lasts => lasts = platform.endsAfter (s.state.getTimeUntilNextTimer now)
  | .woke now isExpired => ∃ began lasts, s.place = .waiting began lasts ∧
      (isExpired = true → lasts.any (fun ms => began + ms * ticksPerMs ≤ now) = true)
  | .began now => s'.place = .rounds now s.state.nextId ∧ s'.state = s.state
  | .ran t => ∃ now passEnd, s.place = .rounds now passEnd ∧ s.state.nextDue now passEnd = some t
  | .passed => ∃ now passEnd, s.place = .rounds now passEnd ∧ s.state.nextDue now passEnd = none
  | .scheduled t => t.id = s.state.nextId ∧ s.place.runsCallback = true
  | .cancelled _ => True

/-- What a step makes of the timers, of their ids and of where the thread is. -/
structure Stepped (platform : Platform) (given given' : Nat) (s s' : TimerLoop C) (o : TimerSeen C) : Prop where
  shows : Shows platform s s' o
  timers : ∀ t, t ∈ s'.state.timers ↔ o = .scheduled t ∨ t ∈ s.state.timers ∧ ¬ o.ends t
  ids : s'.state.Given given'
  more : given ≤ given'
  scheduled : ∀ t, o = .scheduled t → t.id.toNat = given ∧ given < given'
  waiting : ∀ began lasts, s'.place = .waiting began lasts → s'.state = s.state ∧
    (o = .waits began lasts ∨ s.place = .waiting began lasts ∧ ¬ o.isWoke)
  pass : ∀ now passEnd, s'.place = .rounds now passEnd ∨ s'.place = .inTimer now passEnd →
    o = .began now ∨ (s.place = .rounds now passEnd ∨ s.place = .inTimer now passEnd) ∧ ¬ o.isPassed
  inTimer : ∀ now passEnd, s'.place = .inTimer now passEnd → s.place = .inTimer now passEnd ∨ ∃ t, o = .ran t
  rounds : ∀ now passEnd, s.place = .rounds now passEnd ∨ s.place = .inTimer now passEnd →
    ¬ o.isPassed → s'.place = .rounds now passEnd ∨ s'.place = .inTimer now passEnd

/-- A step that leaves the timers, seen as neither their beginning nor their end. -/
theorem stepped_of_same (hids : s.state.Given given) (hstate : s'.state = s.state) (hshows : Shows platform s s' o)
    (hbegins : ∀ t, o ≠ .scheduled t) (hends : ∀ t, ¬ o.ends t)
    (hwaiting : ∀ began lasts, s'.place = .waiting began lasts →
      o = .waits began lasts ∨ s.place = .waiting began lasts ∧ ¬ o.isWoke)
    (hpass : ∀ now passEnd, s'.place = .rounds now passEnd ∨ s'.place = .inTimer now passEnd →
      o = .began now ∨ (s.place = .rounds now passEnd ∨ s.place = .inTimer now passEnd) ∧ ¬ o.isPassed)
    (hinTimer : ∀ now passEnd, s'.place = .inTimer now passEnd → s.place = .inTimer now passEnd)
    (hrounds : ∀ now passEnd, s.place = .rounds now passEnd ∨ s.place = .inTimer now passEnd →
      ¬ o.isPassed → s'.place = .rounds now passEnd ∨ s'.place = .inTimer now passEnd) :
    Stepped platform given given s s' o where
  shows := hshows
  timers t := by simp [hstate, hbegins t, hends t]
  ids := by rwa [hstate]
  more := Nat.le_refl _
  scheduled t ht := absurd ht (hbegins t)
  waiting began lasts h := ⟨hstate, hwaiting began lasts h⟩
  pass := hpass
  inTimer now passEnd h := .inl (hinTimer now passEnd h)
  rounds := hrounds

theorem stepped_of_round (hids : s.state.Given given) (hplace : s.place = .rounds now passEnd) :
    Stepped platform given given s (s.round now passEnd).1 (s.round now passEnd).2 := by
  cases hdue : s.state.nextDue now passEnd with
  | none =>
    simp only [TimerLoop.round, hdue]
    exact stepped_of_same hids rfl ⟨now, passEnd, hplace, hdue⟩ (by simp) (by simp [TimerSeen.ends]) (by simp) (by simp)
      (by simp) (by simp [TimerSeen.isPassed])
  | some next =>
    have herase := hids.erase_eq (SEventLoopState.nextDue_eq_some hdue).1
    simp only [TimerLoop.round, hdue, herase]
    refine ⟨⟨now, passEnd, hplace, hdue⟩, fun t => ?_, hids.cancelTimer next.id, Nat.le_refl _, by simp, by simp, ?_,
      by simp, ?_⟩
    · simp only [SEventLoopState.mem_cancelTimer, reduceCtorEq, TimerSeen.ends, false_or]
      exact and_congr_right fun _ => not_congr eq_comm
    · simp only [reduceCtorEq, LoopAt.inTimer.injEq, false_or, TimerSeen.isPassed, not_false_eq_true, and_true]
      rintro now' passEnd' ⟨rfl, rfl⟩
      exact .inl hplace
    · simp [hplace, TimerSeen.isPassed]

theorem stepped_of_call (hids : s.state.Given given) (call : TimerCall Int C) (hroom : given + call.ids ≤ 2 ^ 64)
    (hruns : s.place.runsCallback = true) :
    Stepped platform given (given + call.ids) s { s with state := s.state.takes call } (s.state.seen call) := by
  have hwaiting : ∀ began lasts, s.place ≠ .waiting began lasts := by
    intro began lasts h
    simp [h, LoopAt.runsCallback] at hruns
  cases call with
  | scheduleAt when callback =>
    refine ⟨⟨rfl, hruns⟩, fun t => ?_, hids.takes hroom, Nat.le_add_right _ _, fun t ht => ?_,
      fun began lasts h => absurd h (hwaiting began lasts),
      fun now passEnd h => .inr ⟨h, by simp [SEventLoopState.seen, TimerSeen.isPassed]⟩, fun now passEnd h => .inl h,
      fun now passEnd h _ => h⟩
    · simp [SEventLoopState.takes, SEventLoopState.scheduleAt, SEventLoopState.seen, TimerSeen.ends, or_comm, eq_comm]
    · obtain rfl := TimerSeen.scheduled.inj ht
      exact ⟨hids.next_toNat hroom, Nat.lt_succ_self _⟩
  | cancelTimer timer =>
    refine ⟨trivial, fun t => ?_, hids.takes hroom, Nat.le_refl _, by simp [SEventLoopState.seen],
      fun began lasts h => absurd h (hwaiting began lasts),
      fun now passEnd h => .inr ⟨h, by simp [SEventLoopState.seen, TimerSeen.isPassed]⟩, fun now passEnd h => .inl h,
      fun now passEnd h _ => h⟩
    simp only [SEventLoopState.takes, SEventLoopState.mem_cancelTimer, SEventLoopState.seen, reduceCtorEq,
      TimerSeen.ends, false_or]
    exact and_congr_right fun _ => not_congr eq_comm
  | watch =>
    refine ⟨trivial, fun t => ?_, hids.takes hroom, Nat.le_succ _, by simp [SEventLoopState.seen],
      fun began lasts h => absurd h (hwaiting began lasts),
      fun now passEnd h => .inr ⟨h, by simp [SEventLoopState.seen, TimerSeen.isPassed]⟩, fun now passEnd h => .inl h,
      fun now passEnd h _ => h⟩
    simp [SEventLoopState.takes, SEventLoopState.watch, SEventLoopState.seen, TimerSeen.ends]

theorem stepped (hids : s.state.Given given) (hroom : given + move.ids ≤ 2 ^ 64)
    (h : s.step platform move = some (s', o)) : Stepped platform given (given + move.ids) s s' o := by
  cases move with
  | tick ticks =>
    obtain ⟨rfl, rfl⟩ : { s with clock := s.clock + ticks } = s' ∧ TimerSeen.nothing = o := by simpa [step] using h
    exact stepped_of_same hids rfl trivial (by simp) (by simp [TimerSeen.ends]) (by simp [TimerSeen.isWoke])
      (by simp [TimerSeen.isPassed]) (by simp) fun now passEnd h _ => h
  | wait =>
    simp only [step] at h
    split at h
    · rename_i hplace
      obtain ⟨rfl, rfl⟩ := Prod.mk.inj (Option.some.inj h)
      exact stepped_of_same hids rfl rfl (by simp) (by simp [TimerSeen.ends]) (by simp +contextual) (by simp) (by simp)
        (by simp [hplace])
    · cases h
  | wake isExpired =>
    simp only [step] at h
    split at h
    · rename_i began lasts hplace
      split at h
      · rename_i hends
        obtain ⟨rfl, rfl⟩ := Prod.mk.inj (Option.some.inj h)
        refine stepped_of_same hids rfl ⟨began, lasts, hplace, fun htrue => ?_⟩ (by simp) (by simp [TimerSeen.ends])
          (by simp) (by simp) (by simp) (by simp [hplace])
        exact hends.resolve_left (by simp [htrue])
      · cases h
    · cases h
  | runDueTimers =>
    simp only [step] at h
    split at h
    · rename_i hplace
      obtain ⟨rfl, rfl⟩ := Prod.mk.inj (Option.some.inj h)
      exact stepped_of_same hids rfl ⟨rfl, rfl⟩ (by simp) (by simp [TimerSeen.ends]) (by simp) (by simp +contextual)
        (by simp) (by simp [hplace])
    · cases h
  | round =>
    simp only [step] at h
    split at h
    · rename_i now passEnd hplace
      have hround := Option.some.inj h
      obtain rfl : (s.round now passEnd).1 = s' := by rw [hround]
      obtain rfl : (s.round now passEnd).2 = o := by rw [hround]
      exact stepped_of_round hids hplace
    · cases h
  | leaveCallback =>
    simp only [step] at h
    split at h
    · rename_i now passEnd hplace
      obtain ⟨rfl, rfl⟩ := Prod.mk.inj (Option.some.inj h)
      exact stepped_of_same hids rfl trivial (by simp) (by simp [TimerSeen.ends]) (by simp)
        (by simp +contextual [hplace, TimerSeen.isPassed]) (by simp) (by simp +contextual [hplace])
    · cases h
  | call call =>
    simp only [step] at h
    split at h
    · rename_i hruns
      obtain ⟨rfl, rfl⟩ := Prod.mk.inj (Option.some.inj h)
      exact stepped_of_call hids call hroom hruns
    · cases h
  | stop =>
    simp only [step] at h
    split at h
    · rename_i hplace
      obtain ⟨rfl, rfl⟩ := Prod.mk.inj (Option.some.inj h)
      exact stepped_of_same hids rfl trivial (by simp) (by simp [TimerSeen.ends]) (by simp) (by simp) (by simp)
        (by simp [hplace])
    · rename_i hplace
      obtain ⟨rfl, rfl⟩ := Prod.mk.inj (Option.some.inj h)
      exact stepped_of_same hids rfl trivial (by simp) (by simp [TimerSeen.ends]) (by simp) (by simp) (by simp)
        (by simp [hplace])
    · cases h

theorem shows (h : s.step platform move = some (s', o)) : move.Shows o := by
  cases move with
  | tick ticks =>
    cases h
    rfl
  | wait =>
    simp only [step] at h
    split at h
    · cases h
      exact ⟨_, _, rfl⟩
    · cases h
  | wake isExpired =>
    simp only [step] at h
    split at h
    · split at h
      · cases h
        exact ⟨_, rfl⟩
      · cases h
    · cases h
  | runDueTimers =>
    simp only [step] at h
    split at h
    · cases h
      exact ⟨_, rfl⟩
    · cases h
  | round =>
    simp only [step] at h
    split at h
    · rename_i now passEnd _
      have hround := Option.some.inj h
      unfold TimerLoop.round at hround
      split at hround
      · cases hround
        exact .inr ⟨_, rfl⟩
      · cases hround
        exact .inl rfl
    · cases h
  | leaveCallback =>
    simp only [step] at h
    split at h
    · cases h
      rfl
    · cases h
  | call made =>
    simp only [step] at h
    split at h
    · cases h
      cases made with
      | scheduleAt when callback => exact ⟨_, rfl⟩
      | cancelTimer timer => rfl
      | watch => rfl
    · cases h
  | stop =>
    simp only [step] at h
    split at h
    · cases h
      rfl
    · cases h
      rfl
    · cases h

/-- The timers are those that are pending in the history, and where the thread is agrees with it. -/
structure Sound (platform : Platform) (given : Nat) (seen : List (TimerSeen C)) (s : TimerLoop C) : Prop where
  ids : s.state.Given given
  pending : ∀ t, t ∈ s.state.timers ↔ Pending seen t
  numbered : (seen.filterMap TimerSeen.scheduledId).Nodup
  below : ∀ id ∈ seen.filterMap TimerSeen.scheduledId, id.toNat < given
  waiting : ∀ began lasts, s.place = .waiting began lasts →
    lasts = platform.endsAfter (s.state.getTimeUntilNextTimer began) ∧
      Since (fun o => o = .waits began lasts) TimerSeen.isWoke seen
  pass : ∀ now passEnd, s.place = .rounds now passEnd ∨ s.place = .inTimer now passEnd →
    Since (fun o => o = .began now) TimerSeen.isPassed seen

theorem sound_start (clock : Int) : Sound (C := C) platform 0 [] (TimerLoop.start clock) where
  ids := ⟨Nat.zero_le _, rfl, by simp [TimerLoop.start, SEventLoopState.empty], List.nodup_nil⟩
  pending t := by simp [TimerLoop.start, SEventLoopState.empty, Pending, not_since_nil]
  numbered := by simp
  below := by simp
  waiting := by simp [TimerLoop.start]
  pass := by simp [TimerLoop.start]

theorem Sound.numbered_concat (h : Sound platform given seen s) (hs : Stepped platform given given' s s' o) :
    ((seen ++ [o]).filterMap TimerSeen.scheduledId).Nodup ∧
      ∀ id ∈ (seen ++ [o]).filterMap TimerSeen.scheduledId, id.toNat < given' := by
  have hbelow : ∀ id ∈ seen.filterMap TimerSeen.scheduledId, id.toNat < given' := fun id hid =>
    (h.below id hid).trans_le hs.more
  rw [List.filterMap_append]
  cases ho : o.scheduledId with
  | none =>
    have hnone : [o].filterMap TimerSeen.scheduledId = [] := by simp [ho]
    rw [hnone, List.append_nil]
    exact ⟨h.numbered, hbelow⟩
  | some id =>
    cases o with
    | scheduled t =>
      obtain rfl := Option.some.inj ho
      obtain ⟨hid, hless⟩ := hs.scheduled t rfl
      have hone : [TimerSeen.scheduled t].filterMap TimerSeen.scheduledId = [t.id] := rfl
      rw [hone]
      refine ⟨List.nodup_append.mpr ⟨h.numbered, List.nodup_singleton _, fun a ha b hb => ?_⟩, fun a ha => ?_⟩
      · obtain rfl := List.mem_singleton.mp hb
        rintro rfl
        exact (h.below _ ha).ne hid
      · rcases List.mem_append.mp ha with ha | ha
        · exact hbelow a ha
        · obtain rfl := List.mem_singleton.mp ha
          rw [hid]
          exact hless
    | _ => cases ho

theorem Sound.next (h : Sound platform given seen s) (hs : Stepped platform given given' s s' o) :
    Sound platform given' (seen ++ [o]) s' := by
  obtain ⟨hnumbered, hbelow⟩ := h.numbered_concat hs
  refine ⟨hs.ids, fun t => ?_, hnumbered, hbelow, fun began lasts hplace => ?_, fun now passEnd hplace => ?_⟩
  · rw [hs.timers t, h.pending t]
    simp only [Pending, since_concat]
  · obtain ⟨hstate, rfl | ⟨hbefore, hwoke⟩⟩ := hs.waiting began lasts hplace
    · rw [hstate]
      exact ⟨hs.shows, since_concat.mpr (.inl rfl)⟩
    · obtain ⟨hlasts, hsince⟩ := h.waiting began lasts hbefore
      rw [hstate]
      exact ⟨hlasts, since_concat.mpr (.inr ⟨hsince, hwoke⟩)⟩
  · rcases hs.pass now passEnd hplace with rfl | ⟨hbefore, hpassed⟩
    · exact since_concat.mpr (.inl rfl)
    · exact since_concat.mpr (.inr ⟨h.pass now passEnd hbefore, hpassed⟩)

/-- The run lemma, for as long as 64 bits tell the ids apart. -/
theorem sound_run {moves : List (TimerMove C)} {clock : Int}
    (h : (timerMachine platform).run (TimerLoop.start clock) moves = some (s, seen))
    (hroom : tally TimerMove.ids moves ≤ 2 ^ 64) : Sound platform (tally TimerMove.ids moves) seen s := by
  have hstep : ∀ (moves : List (TimerMove C)) seen s move s' o,
      (tally TimerMove.ids moves ≤ 2 ^ 64 → Sound platform (tally TimerMove.ids moves) seen s) →
      (timerMachine platform).step s move = some (s', o) → tally TimerMove.ids (moves ++ [move]) ≤ 2 ^ 64 →
      Sound platform (tally TimerMove.ids (moves ++ [move])) (seen ++ [o]) s' := by
    intro moves seen s move s' o hs hmove hroom
    rw [tally_append, tally_cons, tally_nil, Nat.add_zero] at hroom ⊢
    have hbefore := hs (Nat.le_trans (Nat.le_add_right _ _) hroom)
    exact hbefore.next (stepped hbefore.ids hroom hmove)
  exact Machine.run_invariant (M := timerMachine platform)
    (fun moves seen s => tally TimerMove.ids moves ≤ 2 ^ 64 → Sound platform (tally TimerMove.ids moves) seen s) [] []
    hstep (fun _ => sound_start clock) h hroom

/-- A run up to a step of it, with how many ids were given by then. -/
theorem sound_split {moves : List (TimerMove C)} {clock : Int} {before after : List (TimerSeen C)}
    (h : (timerMachine platform).run (TimerLoop.start clock) moves = some (s, before ++ o :: after))
    (hroom : tally TimerMove.ids moves ≤ 2 ^ 64) : ∃ given given' u u',
      Sound platform given before u ∧ Stepped platform given given' u u' o := by
  obtain ⟨is₁, move, is₂, u, u', rfl, hbefore, hst, -⟩ := Machine.run_splits h
  rw [tally_append, tally_cons, ← Nat.add_assoc] at hroom
  have hstep := Nat.le_trans (Nat.le_add_right _ _) hroom
  have hsound := sound_run hbefore (Nat.le_trans (Nat.le_add_right _ _) hstep)
  exact ⟨_, _, u, u', hsound, stepped hsound.ids hstep hst⟩

theorem Pending.scheduled (h : Pending seen t) : .scheduled t ∈ seen := by
  obtain ⟨before, o, after, rfl, rfl, -⟩ := h
  simp

/-- A pass that began at `now`, with what it has shown so far. -/
structure InPass (now : Int) (passEnd : UInt64) (given : Nat) (pass : List (TimerSeen C)) (s : TimerLoop C) : Prop where
  ids : s.state.Given given
  place : s.place = .rounds now passEnd ∨ s.place = .inTimer now passEnd
  old : passEnd.toNat ≤ given
  running : (∃ n, .scheduled n ∈ pass) ∨ s.place = .inTimer now passEnd → ∃ u, .ran u ∈ pass
  ahead : ∀ t ∈ s.state.timers, t.id < passEnd → ∀ u, .ran u ∈ pass → u.key < t.key
  fresh : ∀ n ∈ s.state.timers, passEnd ≤ n.id → .scheduled n ∈ pass

/-- The timers of an unwrapped loop have ids below the next one. -/
theorem id_lt_nextId (hids : s.state.Given given) (hfewer : given < 2 ^ 64) (ht : t ∈ s.state.timers) :
    t.id < s.state.nextId := by
  rw [UInt64.lt_iff_toNat_lt, hids.next_toNat hfewer]
  exact hids.below t ht

theorem inPass_start (hids : s.state.Given given) (hfewer : given < 2 ^ 64)
    (hplace : s.place = .rounds now s.state.nextId) : InPass now s.state.nextId given [] s where
  ids := hids
  place := .inl hplace
  old := (hids.next_toNat hfewer).le
  running := by simp [hplace]
  ahead := by simp
  fresh n hn hid := absurd (id_lt_nextId hids hfewer hn) (UInt64.not_lt.mpr hid)

/-- A timer that runs leaves before all that stay. -/
theorem key_lt_of_nextDue {state : SEventLoopState Int C} {now : Int} {passEnd : UInt64} {t u : SEventLoopTimer Int C}
    (h : state.nextDue now passEnd = some u) (ht : t ∈ state.timers) (hid : u.id ≠ t.id) : u.key < t.key := by
  obtain ⟨-, hleast, -, -⟩ := SEventLoopState.nextDue_eq_some h
  refine lt_of_le_of_ne (hleast t ht) fun hkey => hid ?_
  exact UInt64.toNat_inj.mp (congrArg (fun k => (ofLex k).2) hkey)

theorem InPass.next {pass : List (TimerSeen C)} (h : InPass now passEnd given pass s)
    (hs : Stepped platform given given' s s' o) (ho : ¬ o.isPassed) :
    InPass now passEnd given' (pass ++ [o]) s' := by
  have hran : (∃ u, .ran u ∈ pass) → ∃ u, .ran u ∈ pass ++ [o] := fun ⟨u, hu⟩ => ⟨u, List.mem_append_left _ hu⟩
  refine ⟨hs.ids, hs.rounds now passEnd h.place ho, h.old.trans hs.more, fun hor => ?_, fun t ht hid u hu => ?_,
    fun n hn hid => ?_⟩
  · rcases hor with ⟨n, hn⟩ | hplace
    · rcases List.mem_append.mp hn with hn | hn
      · exact hran (h.running (.inl ⟨n, hn⟩))
      · obtain rfl := List.mem_singleton.mp hn
        -- Between two rounds no callback runs.
        have hcallback : s.place.runsCallback = true := hs.shows.2
        refine hran (h.running (.inr (h.place.resolve_left fun hplace => ?_)))
        simp [hplace, LoopAt.runsCallback] at hcallback
    · rcases hs.inTimer now passEnd hplace with hbefore | ⟨u, rfl⟩
      · exact hran (h.running (.inr hbefore))
      · exact ⟨u, by simp⟩
  · rcases (hs.timers t).mp ht with rfl | ⟨hmem, hends⟩
    · have hnew := (hs.scheduled t rfl).1
      rw [UInt64.lt_iff_toNat_lt, hnew] at hid
      exact absurd hid (Nat.not_lt.mpr h.old)
    · rcases List.mem_append.mp hu with hu | hu
      · exact h.ahead t hmem hid u hu
      · obtain rfl := List.mem_singleton.mp hu
        obtain ⟨now', passEnd', -, hdue⟩ : ∃ now passEnd, s.place = .rounds now passEnd ∧
          s.state.nextDue now passEnd = some u := hs.shows
        exact key_lt_of_nextDue hdue hmem hends
  · rcases (hs.timers n).mp hn with rfl | ⟨hmem, -⟩
    · simp
    · exact List.mem_append_left _ (h.fresh n hmem hid)

theorem inPass_run {moves : List (TimerMove C)} {pass : List (TimerSeen C)}
    (hstart : InPass now passEnd given [] s) (h : (timerMachine platform).run s moves = some (s', pass))
    (hroom : given + tally TimerMove.ids moves ≤ 2 ^ 64) (hpass : ∀ o ∈ pass, ¬ o.isPassed) :
    InPass now passEnd (given + tally TimerMove.ids moves) pass s' := by
  have hstep : ∀ (moves : List (TimerMove C)) pass (u : TimerLoop C) move u' o,
      (given + tally TimerMove.ids moves ≤ 2 ^ 64 → (∀ o ∈ pass, ¬ o.isPassed) →
        InPass now passEnd (given + tally TimerMove.ids moves) pass u) →
      (timerMachine platform).step u move = some (u', o) → given + tally TimerMove.ids (moves ++ [move]) ≤ 2 ^ 64 →
      (∀ p ∈ pass ++ [o], ¬ p.isPassed) →
      InPass now passEnd (given + tally TimerMove.ids (moves ++ [move])) (pass ++ [o]) u' := by
    intro moves pass u move u' o hu hmove hroom hall
    rw [tally_append, tally_cons, tally_nil, Nat.add_zero, ← Nat.add_assoc] at hroom ⊢
    have hbefore := hu (Nat.le_trans (Nat.le_add_right _ _) hroom) fun p hp => hall p (List.mem_append_left _ hp)
    exact hbefore.next (stepped hbefore.ids hroom hmove) (hall o (by simp))
  exact Machine.run_invariant (M := timerMachine platform)
    (fun moves pass u => given + tally TimerMove.ids moves ≤ 2 ^ 64 → (∀ o ∈ pass, ¬ o.isPassed) →
      InPass now passEnd (given + tally TimerMove.ids moves) pass u) [] [] hstep (fun _ _ => hstart) h hroom hpass

/-- What a pass leaves though it was due stands behind a timer the pass has scheduled. -/
theorem InPass.leaves {pass : List (TimerSeen C)} (h : InPass now passEnd given pass s)
    (hnone : s.state.nextDue now passEnd = none) (ht : t ∈ s.state.timers) (hid : t.id < passEnd) (hdue : t.when ≤ now) :
    ∃ u n, .ran u ∈ pass ∧ u.key < t.key ∧ .scheduled n ∈ pass ∧ n.when < t.when := by
  obtain ⟨n, hn, hkey, hlater⟩ := SEventLoopState.nextDue_eq_none hnone ht
  have hwhen : n.when ≤ t.when := SEventLoopTimer.key_le hkey
  have hnew : passEnd ≤ n.id := hlater.resolve_left fun hlt => absurd (hwhen.trans hdue) (not_le.mpr hlt)
  have hscheduled := h.fresh n hn hnew
  obtain ⟨u, hu⟩ := h.running (.inl ⟨n, hscheduled⟩)
  exact ⟨u, n, hu, h.ahead t ht hid u hu, hscheduled, SEventLoopTimer.when_lt hkey (UInt64.lt_of_lt_of_le hid hnew)⟩

section Runs
variable {moves : List (TimerMove C)} {clock : Int} {before after : List (TimerSeen C)}

theorem inTurn_run (hroom : tally TimerMove.ids moves ≤ 2 ^ 64)
    (h : (timerMachine platform).run (TimerLoop.start clock) moves = some (s, before ++ .ran t :: after)) :
    Pending before t ∧ (∀ u, Pending before u → t.key ≤ u.key) ∧
      ∃ now, t.when ≤ now ∧ Since (fun o => o = .began now) TimerSeen.isPassed before := by
  obtain ⟨given, given', u, u', hsound, hstep⟩ := sound_split h hroom
  obtain ⟨now, passEnd, hplace, hdue⟩ : ∃ now passEnd, u.place = .rounds now passEnd ∧
    u.state.nextDue now passEnd = some t := hstep.shows
  obtain ⟨hmem, hleast, hwhen, -⟩ := SEventLoopState.nextDue_eq_some hdue
  exact ⟨(hsound.pending t).mp hmem, fun v hv => hleast v ((hsound.pending v).mpr hv), now, hwhen,
    hsound.pass now passEnd (.inl hplace)⟩

/-- When a wait begins, 64 bits hold how far each deadline is. -/
theorem difference_pending {lasts : Option Nat} (htimely : Timely seen) (hwaits : .waits now lasts ∈ seen)
    (hscheduled : .scheduled t ∈ seen) : difference t.when now = t.when - now := by
  obtain ⟨hlow, hhigh⟩ := htimely now (List.mem_filterMap.mpr ⟨_, hwaits, rfl⟩) t.when
    (List.mem_filterMap.mpr ⟨_, hscheduled, rfl⟩)
  exact difference_eq hlow hhigh

theorem inTime_run {lasts : Option Nat} (hroom : tally TimerMove.ids moves ≤ 2 ^ 64)
    (h : (timerMachine platform).run (TimerLoop.start clock) moves = some (s, before ++ .waits now lasts :: after))
    (htimely : Timely (before ++ .waits now lasts :: after)) (ht : Pending before t) :
    ∃ ms : Nat, lasts = some ms ∧ now + ms * ticksPerMs < max t.when now + ticksPerMs := by
  obtain ⟨given, given', u, u', hsound, hstep⟩ := sound_split h hroom
  have hlasts : lasts = platform.endsAfter (u.state.getTimeUntilNextTimer now) := hstep.shows
  have hfits : ∀ m ∈ u.state.timers, difference m.when now = m.when - now := fun m hm =>
    difference_pending htimely (List.mem_append_right _ List.mem_cons_self)
      (List.mem_append_left _ (Pending.scheduled ((hsound.pending m).mp hm)))
  rw [hlasts]
  exact endsAfter_lt hfits ((hsound.pending t).mpr ht)

theorem notEarly_run (hroom : tally TimerMove.ids moves ≤ 2 ^ 64)
    (h : (timerMachine platform).run (TimerLoop.start clock) moves = some (s, before ++ .woke now true :: after))
    (htimely : Timely (before ++ .woke now true :: after)) :
    (∃ t, Pending before t ∧ t.when ≤ now) ∨
      ∃ began, Since (fun o => o = .waits began (some platform.longest)) TimerSeen.isWoke before := by
  obtain ⟨given, given', u, u', hsound, hstep⟩ := sound_split h hroom
  obtain ⟨began, lasts, hplace, hover⟩ : ∃ began lasts, u.place = .waiting began lasts ∧
    (true = true → lasts.any (fun ms => began + ms * ticksPerMs ≤ now) = true) := hstep.shows
  obtain ⟨hlasts, hwaits⟩ := hsound.waiting began lasts hplace
  have hfits : ∀ m ∈ u.state.timers, difference m.when began = m.when - began := by
    obtain ⟨earlier, o, later, heq, rfl, -⟩ := hwaits
    intro m hm
    refine @difference_pending _ _ _ _ lasts htimely (List.mem_append_left _ ?_)
      (List.mem_append_left _ (Pending.scheduled ((hsound.pending m).mp hm)))
    rw [heq]
    simp
  cases lasts with
  | none => exact absurd (hover rfl) (by simp)
  | some ms =>
    have hnow : began + ms * ticksPerMs ≤ now := by simpa using hover rfl
    rcases endsAfter_le hfits hlasts.symm with rfl | ⟨m, hm, hwhen⟩
    · exact .inr ⟨began, hwaits⟩
    · exact .inl ⟨m, (hsound.pending m).mp hm, hwhen.trans hnow⟩

theorem noneLeft_run {pass : List (TimerSeen C)} (hroom : tally TimerMove.ids moves < 2 ^ 64)
    (h : (timerMachine platform).run (TimerLoop.start clock) moves =
      some (s, before ++ .began now :: (pass ++ .passed :: after)))
    (hpass : ∀ o ∈ pass, ¬ o.isPassed) (ht : Pending before t) (hdue : t.when ≤ now)
    (hleft : Pending (before ++ .began now :: pass) t) :
    ∃ u n, .ran u ∈ pass ∧ u.key < t.key ∧ .scheduled n ∈ pass ∧ n.when < t.when := by
  obtain ⟨is₁, move, is₂, u, u', rfl, hbefore, hstep, hafter⟩ := Machine.run_splits h
  obtain ⟨is₃, move', is₄, v, v', rfl, hmid, hend, -⟩ := Machine.run_splits hafter
  simp only [tally_append, tally_cons] at hroom
  have hsound := sound_run hbefore (by omega)
  have hbegan := stepped hsound.ids (by omega) hstep
  obtain ⟨hplace, hstate⟩ : u'.place = .rounds now u.state.nextId ∧ u'.state = u.state := hbegan.shows
  rw [← hstate] at hplace
  have hin := inPass_run (inPass_start hbegan.ids (by omega) hplace) hmid (by omega) hpass
  obtain ⟨now', passEnd, hrounds, hnone⟩ : ∃ now passEnd, v.place = .rounds now passEnd ∧
    v.state.nextDue now passEnd = none := (stepped hin.ids (by omega) hend).shows
  -- The pass that ends is the one that began.
  have hsame : LoopAt.rounds now' passEnd = .rounds now u'.state.nextId := by
    rw [← hrounds]
    exact hin.place.resolve_right (by simp [hrounds])
  obtain ⟨rfl, rfl⟩ := LoopAt.rounds.inj hsame
  have hid : t.id < u'.state.nextId := by
    rw [hstate]
    exact id_lt_nextId hsound.ids (by omega) ((hsound.pending t).mpr ht)
  have hwhole := Machine.run_append (Machine.run_concat hbefore hstep) hmid
  have hkept := sound_run hwhole (by
    simp only [tally_append, tally_cons, tally_nil]
    omega)
  refine hin.leaves hnone ((hkept.pending t).mpr ?_) hid hdue
  simpa using hleft

end Runs

end TimerLoop

/-- Timers over every run of a loop, whatever its callbacks schedule and cancel and whatever the clock reads. -/
theorem timers_kept {C : Type} {platform : Platform} {clock : Int} {moves : List (TimerMove C)} {s : TimerLoop C}
    {seen : List (TimerSeen C)} (h : (timerMachine platform).run (TimerLoop.start clock) moves = some (s, seen))
    (hids : tally TimerMove.ids moves < 2 ^ 64) (htimely : Timely seen) : KeepsTimers platform moves seen where
  shown := Machine.run_forall₂ (M := timerMachine platform) (fun _ _ _ _ => TimerLoop.shows) h
  numbered := (TimerLoop.sound_run h hids.le).numbered
  inTurn _ _ _ heq := TimerLoop.inTurn_run hids.le (heq ▸ h)
  inTime _ _ _ _ heq _ ht := TimerLoop.inTime_run hids.le (heq ▸ h) (heq ▸ htimely) ht
  notEarly _ _ _ heq := TimerLoop.notEarly_run hids.le (heq ▸ h) (heq ▸ htimely)
  noneLeft _ _ _ _ heq hpass _ ht hdue hleft := TimerLoop.noneLeft_run hids (heq ▸ h) hpass ht hdue hleft

/-- Two timers are scheduled, the wait for the first ends in time, and its callback cancels the other. -/
def twoTimers : List (TimerMove Nat) :=
  [.wait, .wake false, .call (.scheduleAt 1500000 0), .call (.scheduleAt 1600000 1), .runDueTimers, .round,
    .wait, .tick 2000000, .wake true, .runDueTimers, .round, .call (.cancelTimer 1), .leaveCallback, .round]

theorem timers_kept_twoTimers : ∃ s seen, (timerMachine .linux).run (TimerLoop.start 0) twoTimers = some (s, seen) ∧
    KeepsTimers .linux twoTimers seen := by
  have hrun : ((timerMachine .linux).run (TimerLoop.start 0) twoTimers).map
      (fun r => (r.2.filterMap TimerSeen.waitsAt, r.2.filterMap TimerSeen.deadline)) =
      some ([0, 0], [1500000, 1600000]) := by decide +kernel
  obtain ⟨⟨s, seen⟩, hrun, htimes⟩ := Option.map_eq_some_iff.mp hrun
  obtain ⟨hwaits, hdeadlines⟩ := Prod.mk.inj htimes
  refine ⟨s, seen, hrun, timers_kept hrun (by decide) ?_⟩
  rw [Timely, hwaits, hdeadlines]
  decide

end TgeCore.Threading
