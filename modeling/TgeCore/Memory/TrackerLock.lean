import TgeCore.Memory.Tracking

namespace TgeCore.Memory
open Logging

variable {α β : Type} {t : Thread}

/-- With the mutex held, the steps lock it again or go on with it held. -/
def Stays (steps : Steps α) : Prop :=
  ∀ t : Thread, t.held = true → steps t = .error .reentered ∨ ∃ a t', steps t = .ok (a, t') ∧ t'.held = true

theorem bind_error {steps : Steps α} {next : α → Steps β} {fault : Fault} (h : steps t = .error fault) :
    (steps >>= next) t = .error fault := by
  change (steps t >>= fun result => next result.1 result.2) = _
  rw [h]
  rfl

theorem bind_ok {steps : Steps α} {next : α → Steps β} {a : α} {t' : Thread} (h : steps t = .ok (a, t')) :
    (steps >>= next) t = next a t' := by
  change (steps t >>= fun result => next result.1 result.2) = _
  rw [h]
  rfl

namespace Stays

theorem pure (a : α) : Stays (Pure.pure a : Steps α) := fun t ht => .inr ⟨a, t, rfl, ht⟩

theorem get : Stays (MonadState.get : Steps Thread) := fun t ht => .inr ⟨t, t, rfl, ht⟩

theorem bind {steps : Steps α} {next : α → Steps β} (h : Stays steps) (hnext : ∀ a, Stays (next a)) :
    Stays (steps >>= next) := by
  intro t ht
  cases h t ht with
  | inl hlocks => exact .inl (bind_error hlocks)
  | inr hgoes =>
    obtain ⟨a, t', hok, ht'⟩ := hgoes
    rw [bind_ok hok]
    exact hnext a t' ht'

theorem ite {p : Prop} [Decidable p] {steps steps' : Steps α} (h : Stays steps) (h' : Stays steps') :
    Stays (if p then steps else steps') := by
  split
  · exact h
  · exact h'

theorem update {f : Thread → Thread} (hf : ∀ t, (f t).held = t.held) : Stays (modify f : Steps Unit) :=
  fun t ht => .inr ⟨(), f t, rfl, (hf t).trans ht⟩

theorem guarded (body : Steps α) : Stays (Memory.guarded body) := by
  intro t ht
  have hlock : lock t = .error .reentered := if_pos ht
  exact .inl (bind_error hlock)

theorem forM {f : α → Steps Unit} (hf : ∀ a, Stays (f a)) (as : List α) : Stays (as.forM f) := by
  induction as with
  | nil => exact .pure ()
  | cons a rest ih => exact .bind (hf a) fun _ => ih

end Stays

section Held
variable (lib : StdLib)

theorem operatorNew_stays (size : UInt64) : Stays (operatorNew size) := .bind .get fun _ => .guarded _

theorem operatorDelete_stays (category : CategoryId) (size : UInt64) : Stays (operatorDelete category size) := .guarded _

theorem call_stays (what : StdCall) : Stays (lib.call what) := by
  refine .forM (fun traffic => ?_) (lib.traffic what)
  cases traffic with
  | new size => exact operatorNew_stays size
  | delete category size => exact operatorDelete_stays category size

theorem makeString_stays (text : String) : Stays (lib.makeString text) := .ite (operatorNew_stays _) (.pure ())

theorem freeString_stays (text : String) : Stays (lib.freeString text) :=
  .ite (.bind .get fun _ => operatorDelete_stays _ _) (.pure ())

theorem writeOut_stays (msg : SLogMessage) : Stays (writeOut lib msg) := by
  have hfile : Stays (if msg.target &&& .File ≠ .None then lib.call (.file msg) else pure ()) :=
    .ite (call_stays lib _) (.pure ())
  exact .ite (.bind (call_stays lib _) fun _ => hfile) hfile

/-- Whatever the log system does with a message, it only allocates and frees. -/
theorem write_stays (level : ELogLevel) (target : ETarget) (message : String) :
    Stays (write lib level target message) := by
  have hfree := freeString_stays lib message
  refine .bind .get fun t => .ite (.ite (.ite ?_ ?_) hfree) (.ite ?_ hfree)
  · refine .bind (makeString_stays lib _) fun _ => .bind (call_stays lib _) fun _ => .bind (writeOut_stays lib _) fun _ =>
      .bind (call_stays lib _) fun _ => .update fun t => rfl
  · refine .bind (makeString_stays lib _) fun _ => .bind (writeOut_stays lib _) fun _ =>
      .bind (freeString_stays lib _) fun _ => hfree
  · exact .bind (call_stays lib _) fun _ => hfree

theorem info_stays (message : String) : Stays (info lib message) :=
  .bind (makeString_stays lib message) fun _ => write_stays lib .Info .All message

/-- A long text cannot even be made. -/
theorem info_reenters {message : String} (hlong : 22 < message.utf8ByteSize) (ht : t.held = true) :
    info lib message t = .error .reentered := by
  refine bind_error ?_
  have hnew : lib.makeString message = operatorNew (UInt64.ofNat (message.utf8ByteSize + 1)) :=
    if_pos (Nat.lt_of_le_of_lt lib.inPlace_le hlong)
  rw [hnew]
  have hget : (MonadState.get : Steps Thread) t = .ok (t, t) := rfl
  refine (bind_ok hget).trans (bind_error ?_)
  exact if_pos ht

end Held

/-- PrintStats never gets past its first lines, wherever the log system sends them. -/
theorem printStats_reenters (lib : StdLib) (t : Thread) : printStats lib { t with held := false } = .error .reentered := by
  have hlock : lock { t with held := false } = .ok ((), { t with held := true }) := rfl
  refine (bind_ok hlock).trans (bind_error ?_)
  have hlong : 22 < "=== TgeCore Unified Memory Statistics ===".utf8ByteSize := by decide
  cases info_stays lib "" { t with held := true } rfl with
  | inl hfirst => exact bind_error hfirst
  | inr hfirst =>
    obtain ⟨_, t', hok, ht'⟩ := hfirst
    exact (bind_ok hok).trans (bind_error (info_reenters lib hlong ht'))

/-- A body that touches nothing but the tracker is done under the lock and leaves it released. -/
theorem guarded_onTracker (f : Tracker → Option (α × Tracker)) (t : Thread) :
    guarded (onTracker f) { t with held := false } = .error .undefined ∨
      ∃ a tracker, guarded (onTracker f) { t with held := false } = .ok (a, { t with tracker, held := false }) := by
  have hlock : lock { t with held := false } = .ok ((), { t with held := true }) := rfl
  cases hf : f t.tracker with
  | none =>
    left
    refine (bind_ok hlock).trans (bind_error ?_)
    unfold onTracker
    rw [hf]
  | some result =>
    right
    have hbody : onTracker f { t with held := true } = .ok (result.1, { t with tracker := result.2, held := true }) := by
      unfold onTracker
      rw [hf]
    exact ⟨result.1, result.2, (bind_ok hlock).trans ((bind_ok hbody).trans rfl)⟩

/-- Steps that end with the mutex released, or in what the caller must not ask for. -/
def Returns (steps : Steps α) : Prop :=
  ∀ t : Thread, steps { t with held := false } = .error .undefined ∨
    ∃ (a : α) (t' : Thread), steps { t with held := false } = .ok (a, { t' with held := false })

theorem returns_guarded (f : Tracker → Option (α × Tracker)) : Returns (guarded (onTracker f)) := by
  intro t
  cases guarded_onTracker f t with
  | inl hundefined => exact .inl hundefined
  | inr hok =>
    obtain ⟨a, tracker, hok⟩ := hok
    exact .inr ⟨a, { t with tracker }, hok⟩

theorem Returns.ignored {steps : Steps α} (h : Returns steps) : Returns (discard steps) := by
  intro t
  have hbind : ∀ t, discard steps t = (steps >>= fun _ => pure ()) t := fun t => rfl
  rw [hbind]
  cases h t with
  | inl hundefined => exact .inl (bind_error hundefined)
  | inr hok =>
    obtain ⟨a, t', hok⟩ := hok
    exact .inr ⟨(), t', bind_ok hok⟩

theorem runCall_returns (lib : StdLib) {call : MemoryCall} (hcall : call ≠ .printStats) : Returns (runCall lib call) := by
  cases call with
  | printStats => exact absurd rfl hcall
  | registerCategory name => exact (returns_guarded _).ignored
  | getNumCategories => exact (returns_guarded _).ignored
  | trackAllocation category bytes => exact returns_guarded _
  | trackDeallocation category bytes => exact returns_guarded _
  | getStats category => exact (returns_guarded _).ignored
  | getTotalAllocated => exact (returns_guarded _).ignored
  | getTotalDeallocated => exact (returns_guarded _).ignored
  | getCurrentUsage => exact (returns_guarded _).ignored
  | getNumAllocations => exact (returns_guarded _).ignored
  | getCategoryName category => exact (returns_guarded _).ignored
  | reset => exact returns_guarded _
  | operatorNew size =>
    intro t
    have hget : (MonadState.get : Steps Thread) { t with held := false } = .ok ({ t with held := false }, { t with held := false }) := rfl
    have hnew : operatorNew size { t with held := false } = trackAllocation t.currentCategory size { t with held := false } :=
      (bind_ok hget).trans rfl
    have hreturns := returns_guarded (fun tracker => tracker.trackAllocation t.currentCategory size) t
    rwa [← trackAllocation, ← hnew] at hreturns
  | operatorDelete category size => exact returns_guarded _

/-- A call from outside the tracker locks its mutex twice exactly if it is PrintStats. -/
theorem enters_once_iff (lib : StdLib) (t : Thread) (call : MemoryCall) :
    runCall lib call { t with held := false } ≠ .error .reentered ↔ call ≠ .printStats := by
  constructor
  · rintro honce rfl
    exact honce (printStats_reenters lib t)
  · intro hcall hreentered
    cases runCall_returns lib hcall t with
    | inl hundefined =>
      rw [hundefined] at hreentered
      cases hreentered
    | inr hok =>
      obtain ⟨_, t', hok⟩ := hok
      rw [hok] at hreentered
      cases hreentered

/-- Nothing need be allocated yet, nor the log system be up. -/
theorem printStats_locks_twice :
    runCall ⟨15, by decide, fun _ => [], fun bytes _ => toString bytes.toNat, ⟨0, "00.000"⟩⟩ .printStats {} =
      .error .reentered := rfl

end TgeCore.Memory
