import TgeCore.Events.Batches

namespace TgeCore.Events
open Library

variable {T E : Type} [DecidableEq T] {main : T} {s : Queues T E}

/-- Nothing holds the lock and the dispatching thread is not in QueueErased. -/
structure Free (main : T) (s : Queues T E) : Prop where
  holder : s.holder = none
  main : s.producer main = .out

section Producer
variable {thread : T}

end Producer

section Drain
variable (hm : s.producer main = .out)
include hm

end Drain

end TgeCore.Events
