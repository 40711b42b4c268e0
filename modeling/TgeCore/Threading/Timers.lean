import Mathlib.Algebra.Group.Nat.Defs
import Mathlib.Data.List.MinMax
import Mathlib.Data.List.Sort
import Mathlib.Data.Prod.Lex
import TgeCore.Library.Tally

namespace TgeCore.Threading
open Library

structure SEventLoopTimer (Time C : Type) where
  id : UInt64
  when : Time
  callback : C
deriving DecidableEq

/-- The timers of SEventLoopState and the id it gives out next. -/
@[ext]
structure SEventLoopState (Time C : Type) where
  timers : List (SEventLoopTimer Time C)
  nextId : UInt64

/-- What a callback can do to the timers. A watch takes an id as a timer does. -/
inductive TimerCall (Time C : Type) where
  | scheduleAt (when : Time) (callback : C)
  | cancelTimer (timer : UInt64)
  | watch
deriving DecidableEq

section Model
variable {Time C : Type}

def SEventLoopState.scheduleAt (s : SEventLoopState Time C) (when : Time) (callback : C) :
    SEventLoopState Time C where
  timers := s.timers ++ [⟨s.nextId, when, callback⟩]
  nextId := s.nextId + 1

def SEventLoopState.cancelTimer (s : SEventLoopState Time C) (timer : UInt64) : SEventLoopState Time C where
  timers := s.timers.filter fun t => t.id ≠ timer
  nextId := s.nextId

def SEventLoopState.watch (s : SEventLoopState Time C) : SEventLoopState Time C where
  timers := s.timers
  nextId := s.nextId + 1

def SEventLoopState.takes (s : SEventLoopState Time C) : TimerCall Time C → SEventLoopState Time C
  | .scheduleAt when callback => s.scheduleAt when callback
  | .cancelTimer timer => s.cancelTimer timer
  | .watch => s.watch

/-- The calls a callback makes, one after the other. -/
def SEventLoopState.makes (s : SEventLoopState Time C) (calls : List (TimerCall Time C)) :
    SEventLoopState Time C := calls.foldl takes s

variable [LinearOrder Time]

/-- IsSooner compares deadlines, and ids where they are the same. -/
def SEventLoopTimer.key (t : SEventLoopTimer Time C) : Time ×ₗ Nat := toLex (t.when, t.id.toNat)

/-- The soonest timer, if it is due and was there when the pass began. -/
def SEventLoopState.nextDue (s : SEventLoopState Time C) (now : Time) (passEnd : UInt64) :
    Option (SEventLoopTimer Time C) :=
  (s.timers.argmin SEventLoopTimer.key).filter fun t => decide (t.when ≤ now ∧ t.id < passEnd)

/-- The timers without the one that min_element found, which is the first one of its key. -/
def SEventLoopState.erase (s : SEventLoopState Time C) (t : SEventLoopTimer Time C) : SEventLoopState Time C where
  timers := s.timers.eraseP fun u => u.key = t.key
  nextId := s.nextId

variable (does : SEventLoopTimer Time C → SEventLoopState Time C → List (TimerCall Time C))

/-- The loop of RunDueTimers, with the timers it runs and the calls their callbacks make.
`does` says what a timer's callback does where it runs. -/
def SEventLoopState.dueRounds (now : Time) (passEnd : UInt64) : Nat → SEventLoopState Time C →
    Option (List (SEventLoopTimer Time C × List (TimerCall Time C)) × SEventLoopState Time C)
  | 0, _ => none
  | fuel + 1, s =>
    match s.nextDue now passEnd with
    | none => some ([], s)
    | some next =>
      let erased := s.erase next
      let calls := does next erased
      (dueRounds now passEnd fuel (erased.makes calls)).map fun r => ((next, calls) :: r.1, r.2)

/-- RunDueTimers, with rounds for every timer that is registered. -/
def SEventLoopState.runDueTimers (s : SEventLoopState Time C) (now : Time) :
    Option (List (SEventLoopTimer Time C × List (TimerCall Time C)) × SEventLoopState Time C) :=
  s.dueRounds does now s.nextId (s.timers.length + 1)

end Model

section Calls
variable {Time C : Type} {s : SEventLoopState Time C} {call : TimerCall Time C} {calls : List (TimerCall Time C)}
  {t u : SEventLoopTimer Time C} {given : Nat}

/-- How many ids a call takes. -/
def TimerCall.ids : TimerCall Time C → Nat
  | .scheduleAt _ _ => 1
  | .cancelTimer _ => 0
  | .watch => 1

/-- The loop has given out so many ids, all of them different, and its timers have theirs from among them. -/
structure SEventLoopState.Given (s : SEventLoopState Time C) (given : Nat) : Prop where
  room : given ≤ 2 ^ 64
  next : s.nextId = UInt64.ofNat given
  below : ∀ t ∈ s.timers, t.id.toNat < given
  distinct : (s.timers.map SEventLoopTimer.id).Nodup

theorem SEventLoopState.makes_append (s : SEventLoopState Time C) (calls calls' : List (TimerCall Time C)) :
    s.makes (calls ++ calls') = (s.makes calls).makes calls' := List.foldl_append

theorem SEventLoopState.mem_cancelTimer {timer : UInt64} :
    t ∈ (s.cancelTimer timer).timers ↔ t ∈ s.timers ∧ t.id ≠ timer := by
  simp [cancelTimer]

namespace SEventLoopState.Given

theorem same_of_id (h : s.Given given) (ht : t ∈ s.timers) (hu : u ∈ s.timers) (hid : t.id = u.id) : t = u :=
  List.inj_on_of_nodup_map h.distinct ht hu hid

/-- With room for one more id, the next one is new. -/
theorem next_toNat (h : s.Given given) (hroom : given < 2 ^ 64) : s.nextId.toNat = given := by
  rw [h.next, UInt64.toNat_ofNat']
  omega

theorem cancelTimer (h : s.Given given) (timer : UInt64) : (s.cancelTimer timer).Given given where
  room := h.room
  next := h.next
  below _ ht := h.below _ (List.mem_of_mem_filter ht)
  distinct := h.distinct.sublist (List.filter_sublist.map _)

theorem watch (h : s.Given given) (hroom : given + 1 ≤ 2 ^ 64) : s.watch.Given (given + 1) where
  room := hroom
  next := by
    rw [SEventLoopState.watch, h.next, UInt64.ofNat_add]
    rfl
  below t ht := Nat.lt_succ_of_lt (h.below t ht)
  distinct := h.distinct

theorem scheduleAt (h : s.Given given) (hroom : given + 1 ≤ 2 ^ 64) (when : Time) (callback : C) :
    (s.scheduleAt when callback).Given (given + 1) where
  room := hroom
  next := (h.watch hroom).next
  below t ht := by
    rcases List.mem_append.mp ht with hold | hnew
    · exact Nat.lt_succ_of_lt (h.below t hold)
    · obtain rfl := List.mem_singleton.mp hnew
      exact Nat.lt_succ_of_le (h.next_toNat hroom).le
  distinct := by
    rw [SEventLoopState.scheduleAt, List.map_append]
    refine List.nodup_append.mpr ⟨h.distinct, List.nodup_singleton _, fun a ha b hb => ?_⟩
    obtain ⟨t, ht, rfl⟩ := List.mem_map.mp ha
    obtain rfl := List.mem_singleton.mp hb
    intro hid
    have hbelow := h.below t ht
    rw [hid, h.next_toNat hroom] at hbelow
    exact lt_irrefl _ hbelow

theorem takes (h : s.Given given) (hroom : given + call.ids ≤ 2 ^ 64) : (s.takes call).Given (given + call.ids) := by
  cases call with
  | scheduleAt when callback => exact h.scheduleAt hroom when callback
  | cancelTimer timer => exact h.cancelTimer timer
  | watch => exact h.watch hroom

theorem makes (h : s.Given given) (hroom : given + tally TimerCall.ids calls ≤ 2 ^ 64) :
    (s.makes calls).Given (given + tally TimerCall.ids calls) := by
  induction calls generalizing s given with
  | nil => exact h
  | cons call calls ih =>
    rw [tally_cons, ← Nat.add_assoc] at hroom ⊢
    exact ih (h.takes (Nat.le_trans (Nat.le_add_right _ _) hroom)) hroom

/-- Of the timers that have their ids already, the calls of a callback leave those
that none of them cancels. -/
theorem mem_makes (h : s.Given given) (hroom : given + tally TimerCall.ids calls ≤ 2 ^ 64) (hold : t.id.toNat < given) :
    t ∈ (s.makes calls).timers ↔ t ∈ s.timers ∧ .cancelTimer t.id ∉ calls := by
  induction calls generalizing s given with
  | nil => simp [SEventLoopState.makes]
  | cons call calls ih =>
    rw [tally_cons, ← Nat.add_assoc] at hroom
    have hone : given + call.ids ≤ 2 ^ 64 := Nat.le_trans (Nat.le_add_right _ _) hroom
    refine (ih (h.takes hone) hroom (Nat.lt_add_right _ hold)).trans ?_
    cases call with
    | scheduleAt when callback =>
      have hne : t ≠ ⟨s.nextId, when, callback⟩ := by
        rintro rfl
        rw [h.next_toNat hone] at hold
        exact lt_irrefl _ hold
      simp [SEventLoopState.takes, SEventLoopState.scheduleAt, hne]
    | cancelTimer timer =>
      simp only [SEventLoopState.takes, mem_cancelTimer, List.mem_cons, TimerCall.cancelTimer.injEq, not_or, and_assoc]
    | watch => simp [SEventLoopState.takes, SEventLoopState.watch]

/-- A timer that has its id already can be cancelled before or after what a callback does. -/
theorem cancelTimer_makes {timer : UInt64} (h : s.Given given) (hroom : given + tally TimerCall.ids calls ≤ 2 ^ 64)
    (hold : timer.toNat < given) : (s.cancelTimer timer).makes calls = (s.makes calls).cancelTimer timer := by
  induction calls generalizing s given with
  | nil => rfl
  | cons call calls ih =>
    rw [tally_cons, ← Nat.add_assoc] at hroom
    have hroom' : given + call.ids ≤ 2 ^ 64 := Nat.le_trans (Nat.le_add_right _ _) hroom
    have hone : (s.cancelTimer timer).takes call = (s.takes call).cancelTimer timer := by
      cases call with
      | scheduleAt when callback =>
        have hne : s.nextId ≠ timer := by
          rintro rfl
          rw [h.next_toNat hroom'] at hold
          exact lt_irrefl _ hold
        refine SEventLoopState.ext ?_ rfl
        simp [SEventLoopState.takes, SEventLoopState.scheduleAt, SEventLoopState.cancelTimer, hne]
      | cancelTimer other =>
        refine SEventLoopState.ext ?_ rfl
        simp only [SEventLoopState.takes, SEventLoopState.cancelTimer, List.filter_filter]
        exact List.filter_congr fun t _ => Bool.and_comm _ _
      | watch => rfl
    calc (s.cancelTimer timer).makes (call :: calls)
        = ((s.takes call).cancelTimer timer).makes calls := congrArg (SEventLoopState.makes · calls) hone
      _ = ((s.takes call).makes calls).cancelTimer timer :=
        ih (h.takes hroom') hroom (Nat.lt_add_right _ hold)

/-- No other timer has the id of the one that is erased. -/
theorem erase_eq [LinearOrder Time] (h : s.Given given) (ht : t ∈ s.timers) : s.erase t = s.cancelTimer t.id := by
  refine SEventLoopState.ext ?_ rfl
  obtain ⟨timers, nextId⟩ := s
  change timers.eraseP _ = timers.filter _
  have hdistinct : (timers.map SEventLoopTimer.id).Nodup := h.distinct
  clear h
  induction timers with
  | nil => rfl
  | cons first rest ih =>
    rw [List.map_cons, List.nodup_cons] at hdistinct
    obtain ⟨hfirst, hrest⟩ := hdistinct
    by_cases hid : first.id = t.id
    · obtain rfl : t = first := by
        rcases List.mem_cons.mp ht with heq | hmem
        · exact heq
        · exact absurd (hid ▸ List.mem_map_of_mem hmem) hfirst
      rw [List.eraseP_cons_of_pos (by simp), List.filter_cons_of_neg (by simp), List.filter_eq_self.mpr]
      intro u hu
      have hne : u.id ≠ t.id := fun hsame => hfirst (hsame ▸ List.mem_map_of_mem hu)
      simpa using hne
    · have hkey : first.key ≠ t.key := by
        intro hsame
        exact hid (UInt64.toNat_inj.mp (congrArg (fun k => (ofLex k).2) hsame))
      have hmem : t ∈ rest := (List.mem_cons.mp ht).resolve_left fun heq => hid (heq ▸ rfl)
      rw [List.eraseP_cons_of_neg (by simpa using hkey), List.filter_cons_of_pos (by simpa using hid), ih hmem hrest]

end SEventLoopState.Given

end Calls

end TgeCore.Threading
