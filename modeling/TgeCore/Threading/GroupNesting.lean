import TgeCore.Library.Machine
import TgeCore.Library.SharedCells

namespace TgeCore.Threading
open Library

namespace CJobGroups

/-- What cancellation and the lifetime of a group need of its SState. The parent is the cell's. -/
structure SState where
  cancelled : Bool := false
  pending : Nat := 0

/-- The body of a job on a thread, run by a runner or inside of Wait, and what tCurrent was before it. -/
structure Frame where
  thread : Nat
  group : Nat
  isRunner : Bool
  prev : Option Nat
deriving DecidableEq

/-- The calls that are made through a CJobGroup object. Wait runs RunOnePending, here once at a time. -/
inductive Method where
  | submitJob
  | cancel
  | wait
  | isCancellationRequested
deriving DecidableEq

/-- What a call does next. RunOnePending pops a job, asks IsCancelled, starts the body and, past it, settles the count,
and a runner is then destroyed. SubmitJob counts the job, pushes it and queues a runner. Cancel sets the flag and drops
what is pending. IsCancelled is at the state it loads the flag of, the group's own first. -/
inductive Doing where
  | popping (isRunner : Bool)
  | checking (isRunner : Bool) (ancestor : Nat)
  | starting (isRunner : Bool)
  | settling (isRunner : Bool)
  | releasing
  | counting
  | pushing
  | queueing
  | flagging
  | dropping
  | requesting (ancestor : Nat)
  | asking (ancestor : Nat)
deriving DecidableEq

/-- Whether it is a runner that makes the call, with a reference of its own. -/
def Doing.isRunner : Doing → Bool
  | .popping isRunner | .checking isRunner _ | .starting isRunner | .settling isRunner => isRunner
  | .releasing => true
  | _ => false

/-- Whether the call was made through the CJobGroup object. -/
def Doing.usesObject : Doing → Bool
  | .popping isRunner | .checking isRunner _ | .starting isRunner | .settling isRunner => !isRunner
  | .releasing | .asking _ => false
  | _ => true

/-- The state that IsCancelled is at. -/
def Doing.ancestor? : Doing → Option Nat
  | .checking _ ancestor | .requesting ancestor | .asking ancestor => some ancestor
  | _ => none

/-- A call on a thread that is not in a body. -/
structure Call where
  thread : Nat
  group : Nat
  doing : Doing
deriving DecidableEq

/-- The state that a call uses next. -/
def Call.uses (call : Call) : Nat := call.doing.ancestor?.getD call.group

end CJobGroups

/-- The shared states of all groups; the CJobGroup objects and the queued runners, each with a reference to a state;
the bodies that run, on each thread the innermost one first; the calls that threads are in; tCurrent of each thread;
and the runners that the pool went away with, whose job objects nobody destroys. -/
structure CJobGroups where
  states : Cells (Shared CJobGroups.SState) := .empty
  handles : List Nat := []
  runners : List Nat := []
  frames : List CJobGroups.Frame := []
  calls : List CJobGroups.Call := []
  tCurrent : Nat → Option Nat := fun _ => none
  leaked : List Nat := []

/-- A thread constructs a group, calls a method of one or IsCurrentJobCancelled, goes on with its call or leaves the
body that it is in; a worker takes a queued runner, or the pool goes away with it unrun. -/
inductive GroupMove where
  | construct (thread : Nat)
  | destroy (group : Nat)
  | call (thread group : Nat) (method : CJobGroups.Method)
  | ask (thread : Nat)
  | work (thread group : Nat)
  | discard (group : Nat)
  | go (thread : Nat)
  | leave (thread : Nat)
deriving DecidableEq

/-- A fault is the use of a state that is freed. A group is cancelled once its flag is set. -/
inductive GroupSeen where
  | nothing
  | fault
  | constructed (thread group : Nat)
  | called (thread group : Nat) (method : CJobGroups.Method)
  | cancelled (thread group : Nat)
  | popped (thread group : Nat)
  | skipped (thread group : Nat)
  | entered (thread group : Nat)
  | left (thread : Nat)
  | requested (thread group : Nat) (isCancelled : Bool)
  | asking (thread : Nat)
  | asked (thread : Nat) (isCancelled : Bool)
deriving DecidableEq

namespace CJobGroups

/-- IsCancelled at one state: the answer by its flag, or the parent that is asked next. -/
def isCancelled (state : Shared SState) : Bool ⊕ Nat :=
  if state.value.cancelled then .inl true
  else
    match state.parent with
    | none => .inl false
    | some parent => .inr parent

/-- CJobGroup's constructor, which makes the running group the parent. -/
def construct (s : CJobGroups) (thread : Nat) : CJobGroups × GroupSeen :=
  if (s.tCurrent thread).all (fun parent => (s.states.cell parent).isSome) = true then
    ({ s with states := s.states.make {} (s.tCurrent thread), handles := s.states.next :: s.handles },
      .constructed thread s.states.next)
  else (s, .fault)

/-- A call goes on with something else. -/
def goOn (s : CJobGroups) (call : Call) (doing : Doing) : CJobGroups :=
  { s with calls := { call with doing := doing } :: s.calls }

/-- RunOnePending returns, to Wait or to the runner, which then is destroyed with its reference. -/
def finish (s : CJobGroups) (call : Call) (isRunner : Bool) : CJobGroups :=
  if isRunner then s.goOn call .releasing else s

/-- RunOnePending under its lock. -/
def pop (s : CJobGroups) (call : Call) (state : Shared SState) (isRunner : Bool) : CJobGroups × GroupSeen :=
  if state.value.pending = 0 then (s.finish call isRunner, .nothing)
  else
    (goOn { s with states := s.states.change call.group fun v => { v with pending := v.pending - 1 } } call
      (.checking isRunner call.group), .popped call.thread call.group)

/-- What RunOnePending does with the answer of IsCancelled. A cancelled group's job is not executed. -/
def checked (s : CJobGroups) (call : Call) (isRunner : Bool) : Bool → CJobGroups × GroupSeen
  | true => (s.goOn call (.settling isRunner), .skipped call.thread call.group)
  | false => (s.goOn call (.starting isRunner), .nothing)

/-- The body begins, with its group as the running one. -/
def execute (s : CJobGroups) (call : Call) (isRunner : Bool) : CJobGroups × GroupSeen :=
  ({ s with
      frames := ⟨call.thread, call.group, isRunner, s.tCurrent call.thread⟩ :: s.frames
      tCurrent := Function.update s.tCurrent call.thread (some call.group) },
    .entered call.thread call.group)

/-- The next step of a call, with the state that it uses. -/
def advance (s : CJobGroups) (call : Call) (state : Shared SState) : CJobGroups × GroupSeen :=
  match call.doing with
  | .popping isRunner => s.pop call state isRunner
  | .checking isRunner _ =>
    match isCancelled state with
    | .inl result => s.checked call isRunner result
    | .inr parent => (s.goOn call (.checking isRunner parent), .nothing)
  | .starting isRunner => s.execute call isRunner
  | .settling isRunner => (s.finish call isRunner, .nothing)
  | .releasing => ({ s with states := s.states.drop call.group }, .nothing)
  | .counting => (s.goOn call .pushing, .nothing)
  | .pushing =>
    (goOn { s with states := s.states.change call.group fun v => { v with pending := v.pending + 1 } } call
      .queueing, .nothing)
  | .queueing =>
    ({ s with states := s.states.share call.group, runners := call.group :: s.runners }, .nothing)
  | .flagging =>
    (goOn { s with states := s.states.change call.group fun v => { v with cancelled := true } } call
      .dropping, .cancelled call.thread call.group)
  | .dropping =>
    if state.value.pending = 0 then (s, .nothing)
    else
      (goOn { s with states := s.states.change call.group fun v => { v with pending := 0 } } call
        (.settling false), .nothing)
  | .requesting _ =>
    match isCancelled state with
    | .inl result => (s, .requested call.thread call.group result)
    | .inr parent => (s.goOn call (.requesting parent), .nothing)
  | .asking _ =>
    match isCancelled state with
    | .inl result => (s, .asked call.thread result)
    | .inr parent => (s.goOn call (.asking parent), .nothing)

/-- The rest of Execute's frame: tCurrent is what it was before the body. -/
def leave (s : CJobGroups) (frame : Frame) : CJobGroups × GroupSeen :=
  ({ s with
      frames := s.frames.eraseP fun f => f.thread = frame.thread
      calls := ⟨frame.thread, frame.group, .settling frame.isRunner⟩ :: s.calls
      tCurrent := Function.update s.tCurrent frame.thread frame.prev }, .left frame.thread)

/-- What a method of a group begins with. -/
def Method.begins (group : Nat) : Method → Doing
  | .submitJob => .counting
  | .cancel => .flagging
  | .wait => .popping false
  | .isCancellationRequested => .requesting group

/-- A thread is in no call, so in a body or outside of all. -/
def Idle (s : CJobGroups) (thread : Nat) : Prop := ∀ call ∈ s.calls, call.thread ≠ thread

instance (s : CJobGroups) (thread : Nat) : Decidable (s.Idle thread) :=
  inferInstanceAs (Decidable (∀ call ∈ s.calls, call.thread ≠ thread))

/-- No method of a group runs on its object, nor does a body inside of its Wait. -/
def Unused (s : CJobGroups) (group : Nat) : Prop :=
  (∀ frame ∈ s.frames, frame.group = group → frame.isRunner = true) ∧
    ∀ call ∈ s.calls, call.group = group → call.doing.usesObject = false

instance (s : CJobGroups) (group : Nat) : Decidable (s.Unused group) :=
  inferInstanceAs (Decidable ((∀ frame ∈ s.frames, frame.group = group → frame.isRunner = true) ∧
    ∀ call ∈ s.calls, call.group = group → call.doing.usesObject = false))

/-- A group is not used once it is destroyed, nor destroyed while it is used. -/
def step (s : CJobGroups) : GroupMove → Option (CJobGroups × GroupSeen)
  | .construct thread => if s.Idle thread then some (s.construct thread) else none
  | .destroy group =>
    if group ∈ s.handles ∧ s.Unused group then
      some ({ s with states := s.states.drop group, handles := s.handles.erase group }, .nothing)
    else none
  | .call thread group method =>
    if group ∈ s.handles ∧ s.Idle thread then
      some ({ s with calls := ⟨thread, group, method.begins group⟩ :: s.calls }, .called thread group method)
    else none
  | .ask thread =>
    if s.Idle thread then
      match s.tCurrent thread with
      | none => some (s, .asked thread false)
      | some group => some ({ s with calls := ⟨thread, group, .asking group⟩ :: s.calls }, .asking thread)
    else none
  | .work thread group =>
    if group ∈ s.runners ∧ s.Idle thread ∧ ∀ frame ∈ s.frames, frame.thread ≠ thread then
      some ({ s with
        runners := s.runners.erase group
        calls := ⟨thread, group, .popping true⟩ :: s.calls }, .nothing)
    else none
  | .discard group =>
    if group ∈ s.runners then
      some ({ s with runners := s.runners.erase group, leaked := group :: s.leaked }, .nothing)
    else none
  | .go thread =>
    (s.calls.find? fun call => call.thread = thread).map fun call =>
      match s.states.cell call.uses with
      | none => (s, .fault)
      | some state => advance { s with calls := s.calls.erase call } call state
  | .leave thread =>
    if s.Idle thread then (s.frames.find? fun frame => frame.thread = thread).map s.leave else none

/-- The reference that a runner brings along. -/
def ownRef (group : Nat) (isRunner : Bool) : List Nat := if isRunner then [group] else []

/-- The references to states that are not those of child groups. -/
def roots (s : CJobGroups) : List Nat :=
  s.handles ++ (s.runners ++ (s.leaked ++ (s.frames.flatMap (fun frame => ownRef frame.group frame.isRunner) ++
    s.calls.flatMap fun call => ownRef call.group call.doing.isRunner)))

end CJobGroups

def groupMachine : Machine CJobGroups GroupMove GroupSeen where
  step := CJobGroups.step

section Statement

/-- The groups whose jobs' bodies run on a thread, the innermost first, after something more was seen. -/
def bodiesAfter (thread : Nat) (stack : List Nat) : GroupSeen → List Nat
  | .entered t group => if t = thread then group :: stack else stack
  | .left t => if t = thread then stack.tail else stack
  | _ => stack

def bodies (thread : Nat) (seen : List GroupSeen) : List Nat := seen.foldl (bodiesAfter thread) []

/-- A group was constructed inside of a body of the other one's jobs. -/
def Nested (seen : List GroupSeen) (group outer : Nat) : Prop :=
  ∃ before thread after, seen = before ++ .constructed thread group :: after ∧
    (bodies thread before).head? = some outer

/-- Cancel has set the flag of a group. -/
def Flagged (seen : List GroupSeen) (group : Nat) : Prop := ∃ thread, .cancelled thread group ∈ seen

/-- Cancel has set the flag of a group, or of one that it was constructed in, directly or through others in between. -/
def Revoked (seen : List GroupSeen) (group : Nat) : Prop :=
  ∃ outer, Relation.ReflTransGen (Nested seen) group outer ∧ Flagged seen outer

def GroupSeen.thread? : GroupSeen → Option Nat
  | .nothing | .fault => none
  | .constructed thread _ | .called thread _ _ | .cancelled thread _ | .popped thread _ | .skipped thread _
  | .entered thread _ | .left thread | .requested thread _ _ | .asking thread | .asked thread _ => some thread

/-- A thread asks whether a group is cancelled. The answer is true if it was before the question, which is the last
that was seen of the thread, and only if it is before the answer. -/
def Told (thread : Nat) (question : GroupSeen) (before : List GroupSeen) (group : Nat) (result : Bool) : Prop :=
  ∃ earlier since, before = earlier ++ question :: since ∧ (∀ o ∈ since, o.thread? ≠ some thread) ∧
    (Revoked earlier group → result = true) ∧ (result = true → Revoked before group)

/-- What a call that has shown this shows next. -/
def Completes : GroupSeen → GroupSeen → Prop
  | .called thread group .cancel, o => o = .cancelled thread group
  | .called thread group .isCancellationRequested, o => ∃ result, o = .requested thread group result
  | .asking thread, o => ∃ result, o = .asked thread result
  | .popped thread group, o => o = .entered thread group ∨ o = .skipped thread group
  | _, _ => False

/-- Cancelling a group reaches what was nested in it, and nothing else. -/
structure Cascades (s : CJobGroups) (seen : List GroupSeen) : Prop where
  /-- Cancel sets the flag, a question is answered, and a popped job's body begins or is skipped, before the thread is
  through with its call or shows anything else. -/
  completed : ∀ before q after thread, seen = before ++ q :: after → q.thread? = some thread → (∃ o, Completes q o) →
    (s.Idle thread ∨ ∃ o ∈ after, o.thread? = some thread) →
    ∃ since o rest, after = since ++ o :: rest ∧ (∀ p ∈ since, p.thread? ≠ some thread) ∧ Completes q o
  /-- Outside of all bodies there is no group to ask about. -/
  asked : ∀ before thread result after, seen = before ++ .asked thread result :: after →
    ((bodies thread before).head? = none ∧ result = false) ∨
      ∃ group, (bodies thread before).head? = some group ∧ Told thread (.asking thread) before group result
  requested : ∀ before thread group result after, seen = before ++ .requested thread group result :: after →
    Told thread (.called thread group .isCancellationRequested) before group result
  /-- A body begins only if its group was not cancelled when its job was popped. -/
  entered : ∀ before thread group after, seen = before ++ .entered thread group :: after →
    Told thread (.popped thread group) before group false
  /-- Only a job of a cancelled group is popped without its body being run. -/
  skipped : ∀ before thread group after, seen = before ++ .skipped thread group :: after →
    Told thread (.popped thread group) before group true

end Statement

end TgeCore.Threading
