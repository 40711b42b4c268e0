import Mathlib.Algebra.Group.Int.Defs
import TgeCore.Library.Calls
import TgeCore.Library.Since
import TgeCore.Threading.DueTimers
import TgeCore.Threading.Poller

namespace TgeCore.Threading
open Library

/-- The clock's ticks in a millisecond. -/
def ticksPerMs : Int := 1000000

/-- The difference of two times in 64 bits. Past them C++ leaves it undefined, and here it wraps. -/
def difference (first second : Int) : Int := (first - second).bmod (2 ^ 64)

/-- std::chrono::ceil to milliseconds. -/
def ceilMs (ticks : Int) : Int := -(-ticks / ticksPerMs)

def SEventLoopState.soonest {Time C : Type} [LinearOrder Time] (s : SEventLoopState Time C) :
    Option (SEventLoopTimer Time C) := s.timers.argmin SEventLoopTimer.key

def SEventLoopState.getTimeUntilNextTimer {C : Type} (s : SEventLoopState Int C) (now : Int) : Option Nat :=
  s.soonest.map fun next => (max (ceilMs (difference next.when now)) 0).toNat

def INT_MAX : Nat := 2147483647

/-- The time-out that CPoller::Wait gives to epoll_wait. -/
def toEpollTimeoutMs (timeout : Option Nat) : Int :=
  match timeout with
  | some count => min count INT_MAX
  | none => -1

inductive Platform where
  | linux
  | windows
deriving DecidableEq

/-- After how many milliseconds a wait with this time-out ends by itself. -/
def Platform.endsAfter : Platform → Option Nat → Option Nat
  | .linux, timeout => if 0 ≤ toEpollTimeoutMs timeout then some (toEpollTimeoutMs timeout).toNat else none
  | .windows, timeout => if toTimeoutMs timeout < INFINITE then some (toTimeoutMs timeout) else none

def Platform.longest : Platform → Nat
  | .linux => INT_MAX
  | .windows => INFINITE - 1

/-- Where the loop's thread is: at the head of Run's loop; in the poller's wait, with the time that was read before it;
in the callbacks of watches and posts; in RunDueTimers between two rounds; in the callback of a round; out of Run. -/
inductive LoopAt where
  | checking
  | waiting (began : Int) (lasts : Option Nat)
  | callbacks
  | rounds (now : Int) (passEnd : UInt64)
  | inTimer (now : Int) (passEnd : UInt64)
  | ended
deriving DecidableEq

/-- The loop's thread with its timers, and what steady_clock reads. -/
structure TimerLoop (C : Type) where
  state : SEventLoopState Int C
  clock : Int
  place : LoopAt := .checking

/-- Time goes on; a wait begins, and ends because its time is over or for another reason; RunDueTimers begins, makes a
round, and a round's callback returns; a callback makes a call; the loop is left. -/
inductive TimerMove (C : Type) where
  | tick (ticks : Nat)
  | wait
  | wake (isExpired : Bool)
  | runDueTimers
  | round
  | leaveCallback
  | call (call : TimerCall Int C)
  | stop

inductive TimerSeen (C : Type) where
  | nothing
  | waits (now : Int) (lasts : Option Nat)
  | woke (now : Int) (isExpired : Bool)
  | began (now : Int)
  | ran (timer : SEventLoopTimer Int C)
  | passed
  | scheduled (timer : SEventLoopTimer Int C)
  | cancelled (timer : UInt64)

section Model
variable {C : Type}

def LoopAt.runsCallback : LoopAt → Bool
  | .callbacks => true
  | .inTimer _ _ => true
  | _ => false

def SEventLoopState.seen (s : SEventLoopState Int C) : TimerCall Int C → TimerSeen C
  | .scheduleAt when callback => .scheduled ⟨s.nextId, when, callback⟩
  | .cancelTimer timer => .cancelled timer
  | .watch => .nothing

/-- The loop of RunDueTimers: the soonest timer that is due leaves the timers and is called. -/
def TimerLoop.round (s : TimerLoop C) (now : Int) (passEnd : UInt64) : TimerLoop C × TimerSeen C :=
  match s.state.nextDue now passEnd with
  | some next => ({ s with state := s.state.erase next, place := .inTimer now passEnd }, .ran next)
  | none => ({ s with place := .checking }, .passed)

def TimerLoop.step (platform : Platform) (s : TimerLoop C) : TimerMove C → Option (TimerLoop C × TimerSeen C)
  | .tick ticks => some ({ s with clock := s.clock + ticks }, .nothing)
  | .wait =>
    match s.place with
    | .checking =>
      let lasts := platform.endsAfter (s.state.getTimeUntilNextTimer s.clock)
      some ({ s with place := .waiting s.clock lasts }, .waits s.clock lasts)
    | _ => none
  | .wake isExpired =>
    match s.place with
    | .waiting began lasts =>
      if isExpired = false ∨ lasts.any (fun ms => began + ms * ticksPerMs ≤ s.clock) = true then
        some ({ s with place := .callbacks }, .woke s.clock isExpired)
      else none
    | _ => none
  | .runDueTimers =>
    match s.place with
    | .callbacks => some ({ s with place := .rounds s.clock s.state.nextId }, .began s.clock)
    | _ => none
  | .round =>
    match s.place with
    | .rounds now passEnd => some (s.round now passEnd)
    | _ => none
  | .leaveCallback =>
    match s.place with
    | .inTimer now passEnd => some ({ s with place := .rounds now passEnd }, .nothing)
    | _ => none
  | .call call =>
    if s.place.runsCallback then some ({ s with state := s.state.takes call }, s.state.seen call) else none
  | .stop =>
    match s.place with
    | .checking => some ({ s with place := .ended }, .nothing)
    | .waiting _ _ => some ({ s with place := .ended }, .nothing)
    | _ => none

def timerMachine (platform : Platform) : Machine (TimerLoop C) (TimerMove C) (TimerSeen C) where
  step := TimerLoop.step platform

/-- The timers as Initialize makes them. -/
def SEventLoopState.empty : SEventLoopState Int C where
  timers := []
  nextId := 0

def TimerLoop.start (clock : Int) : TimerLoop C := { state := .empty, clock }

end Model

section Statement
variable {C : Type}

/-- How many ids a move takes. -/
def TimerMove.ids : TimerMove C → Nat
  | .call made => made.ids
  | _ => 0

/-- What a move may show: a call shows what it asked for. -/
def TimerMove.Shows : TimerMove C → TimerSeen C → Prop
  | .wait, o => ∃ now lasts, o = .waits now lasts
  | .wake isExpired, o => ∃ now, o = .woke now isExpired
  | .runDueTimers, o => ∃ now, o = .began now
  | .round, o => o = .passed ∨ ∃ t, o = .ran t
  | .call (.scheduleAt when callback), o => ∃ id, o = .scheduled ⟨id, when, callback⟩
  | .call (.cancelTimer timer), o => o = .cancelled timer
  | _, o => o = .nothing

def TimerSeen.waitsAt : TimerSeen C → Option Int
  | .waits now _ => some now
  | _ => none

def TimerSeen.deadline : TimerSeen C → Option Int
  | .scheduled t => some t.when
  | _ => none

/-- 64 bits hold how far the deadlines are from the times at which waits begin. -/
def Timely (seen : List (TimerSeen C)) : Prop :=
  ∀ now ∈ seen.filterMap TimerSeen.waitsAt, ∀ when ∈ seen.filterMap TimerSeen.deadline,
    -2 ^ 63 ≤ when - now ∧ when - now < 2 ^ 63

/-- A timer is over once it runs or is cancelled. -/
def TimerSeen.ends (t : SEventLoopTimer Int C) : TimerSeen C → Prop
  | .ran u => u.id = t.id
  | .cancelled timer => timer = t.id
  | _ => False

/-- A timer has been scheduled, and since then it has neither run nor been cancelled. -/
def Pending (seen : List (TimerSeen C)) (t : SEventLoopTimer Int C) : Prop :=
  Since (fun o => o = .scheduled t) (fun o => o.ends t) seen

def TimerSeen.scheduledId : TimerSeen C → Option UInt64
  | .scheduled t => some t.id
  | _ => none

def TimerSeen.isPassed : TimerSeen C → Prop
  | .passed => True
  | _ => False

def TimerSeen.isWoke : TimerSeen C → Prop
  | .woke _ _ => True
  | _ => False

/-- What timers can count on, in a history of what a loop did. -/
structure KeepsTimers (platform : Platform) (moves : List (TimerMove C)) (seen : List (TimerSeen C)) : Prop where
  /-- The history is that of the moves and of the calls that were made. -/
  shown : List.Forall₂ TimerMove.Shows moves seen
  /-- No two timers have one id. -/
  numbered : (seen.filterMap TimerSeen.scheduledId).Nodup
  /-- A timer runs once it is due, before all later ones, and never after it ran or was cancelled. -/
  inTurn : ∀ before t after, seen = before ++ TimerSeen.ran t :: after → Pending before t ∧
    (∀ u, Pending before u → t.key ≤ u.key) ∧
    ∃ now, t.when ≤ now ∧ Since (fun o => o = .began now) TimerSeen.isPassed before
  /-- A wait has an end if a timer is pending, and it ends within a millisecond past each deadline. -/
  inTime : ∀ before now lasts after, seen = before ++ TimerSeen.waits now lasts :: after → ∀ t, Pending before t →
    ∃ ms : Nat, lasts = some ms ∧ now + ms * ticksPerMs < max t.when now + ticksPerMs
  /-- A wait whose time is over finds a timer due, or it was as long as the platform's waits can be. -/
  notEarly : ∀ before now after, seen = before ++ TimerSeen.woke now true :: after →
    (∃ t, Pending before t ∧ t.when ≤ now) ∨
    ∃ began, Since (fun o => o = .waits began (some platform.longest)) TimerSeen.isWoke before
  /-- A pass leaves a due timer only after it ran a sooner one and a callback scheduled one still sooner. -/
  noneLeft : ∀ before now pass after, seen = before ++ TimerSeen.began now :: (pass ++ TimerSeen.passed :: after) →
    (∀ o ∈ pass, ¬ o.isPassed) → ∀ t, Pending before t → t.when ≤ now →
    Pending (before ++ TimerSeen.began now :: pass) t →
    ∃ u n, .ran u ∈ pass ∧ u.key < t.key ∧ .scheduled n ∈ pass ∧ n.when < t.when

end Statement

end TgeCore.Threading
