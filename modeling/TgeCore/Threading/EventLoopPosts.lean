import TgeCore.Library.Calls
import TgeCore.Threading.EventLoop

namespace TgeCore.Threading
open Library

section Statement
variable {A T V : Type}

/-- The posts in the order of their exchanges. -/
def postedOf (os : List (LoopSeen T V)) : List (Posted T V) :=
  os.filterMap fun
    | .posted entry => some entry
    | _ => none

/-- The posts that have run, each with the pass it ran in. -/
def ranOf (os : List (LoopSeen T V)) : List (Option V × Nat) :=
  os.filterMap fun
    | .ran post pass => some (post, pass)
    | _ => none

def CEventLoop.InPost (s : CEventLoop A T V) (thread : T) : Prop :=
  s.call thread = .enqueuing ∨ s.call thread = .waking

/-- The callback of a call of Post that the thread makes. -/
def postBy [DecidableEq T] (thread : T) : LoopMove A T V → List V
  | .post t callback _ => if t = thread then [callback] else []
  | _ => []

/-- The callback that the thread puts into the queue. -/
def postedBy [DecidableEq T] (thread : T) : LoopSeen T V → List V
  | .posted entry => if entry.thread = thread then [entry.post] else []
  | _ => []

/-- A run of the entry: its own callback, in a later pass if a posted callback made it. -/
def RunsLater (entry : Posted T V) (ran : Option V × Nat) : Prop :=
  ran.1 = some entry.post ∧ (entry.fromPost = true → entry.pass < ran.2)

/-- The loop has lost no wakeup and no post up to a state of a run. -/
structure KeepsPosts [DecidableEq A] [DecidableEq T] (main : T) (ms : List (LoopMove A T V))
    (os : List (LoopSeen T V)) (s : CEventLoop A T V) : Prop where
  own : ∀ t, ms.flatMap (postBy t) = os.flatMap (postedBy t) ++ (s.posts.producer t).waiting
  finished : ∀ t, ¬ s.InPost t → ms.flatMap (postBy t) = os.flatMap (postedBy t)
  awake : s.run = .polling → s.wakeCounter = 0 → (∀ t, ¬ s.InPost t) →
    s.posts.head = s.posts.tail ∧ (ranOf os).length = (postedOf os).length
  order : (ranOf os).map Prod.fst <+: (postedOf os).map fun p => some p.post
  later : ∀ (i : Nat) p r, (postedOf os)[i]? = some p → (ranOf os)[i]? = some r → RunsLater p r
  goesOn : (∀ t, s.call t ≠ .out → s.call t ≠ .joining → (s.callStep main t).isSome = true) ∧
    (s.run ≠ .polling → s.run ≠ .ended → s.runStep.isSome = true)

end Statement

variable {A T V : Type} {main : T} {s s' : CEventLoop A T V} {front : A}
  {chain hand : List (Queued A T V)} {done held listed : List (Posted T V)}
  {os os' : List (LoopSeen T V)}

/-- The callbacks of RunPosts that have not run yet. -/
def CEventLoop.unrun (s : CEventLoop A T V) : List (Option V) :=
  match s.run with
  | .running next => s.runningPosts.drop next
  | .callback current => s.runningPosts.drop (current + 1)
  | _ => s.runningPosts

/-- What holds of the queue, the wake counter and the posts between two steps. Once the
posts are drained, whatever is in the queue has a wake behind it or still to come. -/
structure CEventLoop.Tracked (s : CEventLoop A T V) (os : List (LoopSeen T V)) (front : A)
    (chain hand : List (Queued A T V)) (done held listed : List (Posted T V)) : Prop where
  chained : s.posts.Chained front chain
  consuming : s.posts.Consuming front chain hand
  calls : ∀ t, s.posts.producer t ≠ .out ↔ s.call t = .enqueuing
  drains : s.posts.consumer ≠ .out → s.run = .draining
  cleared : s.run.inPosts = false → s.runningPosts = []
  woken : s.run.drained = true → chain ≠ [] → s.wakeCounter ≠ 0 ∨ ∃ t, s.InPost t
  posted : postedOf os = done ++ held ++ listed
  listedAs : listed.map (fun p => (p.thread, p.post)) = (hand ++ chain).map fun e => (e.thread, e.input)
  heldAs : held.map (fun p => some p.post) = s.unrun
  ranAs : List.Forall₂ RunsLater done (ranOf os)
  heldPass : ∀ p ∈ held, p.fromPost = true → p.pass < s.pass
  listedPass : ∀ p ∈ listed, p.fromPost = true →
    p.pass < s.pass ∨ (p.pass = s.pass ∧ s.run.drained = true)

/-- A step that leaves the queue and the callbacks to run alone. -/
theorem CEventLoop.Tracked.frame (h : s.Tracked os front chain hand done held listed)
    (hposts : s'.posts = s.posts) (hcalls : ∀ t, s'.call t = .enqueuing ↔ s.call t = .enqueuing)
    (hdrains : s.posts.consumer ≠ .out → s'.run = .draining)
    (hcleared : s'.run.inPosts = false → s'.runningPosts = [])
    (hwoken : s'.run.drained = true → chain ≠ [] → s'.wakeCounter ≠ 0 ∨ ∃ t, s'.InPost t)
    (hunrun : s'.unrun = s.unrun) (hpass : s.pass < s'.pass ∨
      (s.pass = s'.pass ∧ (s.run.drained = true → s'.run.drained = true))) :
    s'.Tracked (os ++ [.nothing]) front chain hand done held listed := by
  have hposted : postedOf (os ++ [.nothing]) = postedOf os := by simp [postedOf]
  have hran : ranOf (os ++ [.nothing]) = ranOf os := by simp [ranOf]
  refine ⟨hposts ▸ h.chained, hposts ▸ h.consuming, fun t => ?_, ?_, hcleared, hwoken, ?_, h.listedAs,
    hunrun ▸ h.heldAs, ?_, fun p hp hfrom => ?_, fun p hp hfrom => ?_⟩
  · rw [hposts, hcalls]
    exact h.calls t
  · rw [hposts]
    exact hdrains
  · rw [hposted]
    exact h.posted
  · rw [hran]
    exact h.ranAs
  · have hlt := h.heldPass p hp hfrom
    omega
  · cases hpass with
    | inl hnext =>
      cases h.listedPass p hp hfrom with
      | inl hlt => exact .inl (Nat.lt_trans hlt hnext)
      | inr hsame => exact .inl (hsame.1 ▸ hnext)
    | inr hsame =>
      obtain ⟨hpass, hdrained⟩ := hsame
      rw [← hpass]
      cases h.listedPass p hp hfrom with
      | inl hlt => exact .inl hlt
      | inr hlate => exact .inr ⟨hlate.1, hdrained hlate.2⟩

section Steps
variable [DecidableEq A] [DecidableEq T] {out : LoopSeen T V}

omit [DecidableEq A] in
/-- A wake adds to the counter, so that it makes up for the poster that leaves. -/
theorem CEventLoop.Tracked.wake (h : s.Tracked os front chain hand done held listed) {thread : T}
    (at' : CallAt) (hbefore : s.call thread ≠ .enqueuing) (hafter : at' ≠ .enqueuing) :
    ({ s.at thread at' with wakeCounter := s.wakeCounter + 1 } : CEventLoop A T V).Tracked
      (os ++ [.nothing]) front chain hand done held listed := by
  refine h.frame rfl (fun t => ?_) h.drains h.cleared (fun _ _ => .inl (Nat.succ_ne_zero _)) rfl
    (.inr ⟨rfl, id⟩)
  by_cases ht : t = thread
  · subst ht
    simp [CEventLoop.at, hbefore, hafter]
  · simp [CEventLoop.at, ht]

theorem CEventLoop.Tracked.post (h : s.Tracked os front chain hand done held listed) {thread : T}
    {callback : V} {node : A} (hst : s.post main thread callback node = some (s', out)) :
    s'.Tracked (os ++ [out]) front chain hand done held listed := by
  unfold CEventLoop.post at hst
  split at hst
  · rename_i hcall
    obtain ⟨⟨posts, seen⟩, hstep, hnext⟩ := Option.map_eq_some_iff.mp hst
    obtain ⟨hchained, hconsuming, -⟩ := step_enqueue h.chained h.consuming hstep
    obtain ⟨rfl, rfl⟩ := Prod.mk.inj hnext
    simp only [CMpscQueue.step] at hstep
    split at hstep
    · cases hstep
      refine ⟨hchained, hconsuming, fun t => ?_, h.drains, h.cleared, fun _ _ => .inr ⟨thread, .inl ?_⟩,
        ?_, h.listedAs, h.heldAs, ?_, h.heldPass, h.listedPass⟩
      · by_cases ht : t = thread
        · subst ht
          simp [CEventLoop.at, CMpscQueue.write, CMpscQueue.at]
        · simpa [CEventLoop.at, CMpscQueue.write, CMpscQueue.at, ht] using h.calls t
      · exact Function.update_self ..
      · simpa [postedOf] using h.posted
      · simpa [ranOf] using h.ranAs
    · cases hstep
  · cases hst

omit [DecidableEq A] in
theorem CEventLoop.Tracked.terminate (h : s.Tracked os front chain hand done held listed) {thread : T}
    (hst : s.terminate main thread = some (s', out)) :
    s'.Tracked (os ++ [out]) front chain hand done held listed := by
  unfold CEventLoop.terminate at hst
  split at hst
  · rename_i hcall
    cases hst
    refine h.frame rfl (fun t => ?_) h.drains h.cleared (fun hdrained hchain => ?_) rfl (.inr ⟨rfl, id⟩)
    · by_cases ht : t = thread
      · subst ht
        simp [CEventLoop.at, hcall.1]
      · simp [CEventLoop.at, ht]
    · cases h.woken hdrained hchain with
      | inl hcounter => exact .inl hcounter
      | inr hposter =>
        obtain ⟨t, ht⟩ := hposter
        have hne : t ≠ thread := by
          intro he
          rw [CEventLoop.InPost, he, hcall.1] at ht
          simp at ht
        refine .inr ⟨t, ?_⟩
        simpa [CEventLoop.InPost, CEventLoop.at, hne] using ht
  · cases hst

/-- A step of Enqueue inside Post. Its thread goes on to the wake when it is out. -/
theorem CEventLoop.Tracked.enqueuing (h : s.Tracked os front chain hand done held listed) {thread : T}
    (hcall : s.call thread = .enqueuing) (hst : s.callStep main thread = some (s', out)) :
    ∃ chain' listed', s'.Tracked (os ++ [out]) front chain' hand done held listed' := by
  simp only [CEventLoop.callStep, hcall] at hst
  obtain ⟨⟨posts, seen⟩, hstep, hnext⟩ := Option.map_eq_some_iff.mp hst
  obtain ⟨chain', hchained, hconsuming, heffect⟩ := step_produce h.chained h.consuming hstep
  obtain ⟨hconsumer, hothers⟩ := produce_frame hstep
  simp only at hnext
  obtain ⟨rfl, hout⟩ := Prod.mk.inj hnext
  have hcalls : ∀ t, posts.producer t ≠ .out ↔
      Function.update s.call thread (posts.producer thread).postAt t = .enqueuing := by
    intro t
    by_cases ht : t = thread
    · subst ht
      rw [Function.update_self]
      exact (posts.producer t).postAt_eq.1
    · rw [Function.update_of_ne ht, (hothers t ht).1]
      exact h.calls t
  have hinside : (s.at thread (posts.producer thread).postAt).InPost thread := by
    simp only [CEventLoop.InPost, CEventLoop.at, Function.update_self]
    exact (posts.producer thread).postAt_eq.2
  have hdrains : posts.consumer ≠ .out → s.run = .draining := by
    rw [hconsumer]
    exact h.drains
  cases seen with
  | nothing =>
    obtain rfl := hout
    obtain rfl := List.append_cancel_left heffect
    exact ⟨chain', listed, hchained, hconsuming, hcalls, hdrains, h.cleared,
      fun _ _ => .inr ⟨thread, hinside⟩, by simpa [postedOf] using h.posted, h.listedAs, h.heldAs,
      by simpa [ranOf] using h.ranAs, h.heldPass, h.listedPass⟩
  | exchanged t input =>
    obtain rfl := hout
    obtain ⟨node, -, rfl⟩ := heffect
    refine ⟨_, listed ++ [⟨t, input, decide (thread = main) && s.run.inPosted, s.pass⟩], hchained,
      hconsuming, hcalls, hdrains, h.cleared, fun _ _ => .inr ⟨thread, hinside⟩, ?_, ?_, h.heldAs,
      by simpa [ranOf] using h.ranAs, h.heldPass, fun p hp hfrom => ?_⟩
    · have hposted := h.posted
      simp only [postedOf] at hposted
      simp [postedOf, List.filterMap_append, hposted]
    · rw [← List.append_assoc, List.map_append, List.map_append, h.listedAs]
      rfl
    · cases List.mem_append.mp hp with
      | inl hold => exact h.listedPass p hold hfrom
      | inr hnew =>
        obtain rfl := List.mem_singleton.mp hnew
        -- A posted callback runs after the drain of its own pass.
        exact .inr ⟨rfl, RunAt.drained_of_inPosted (Bool.and_eq_true_iff.mp hfrom).2⟩
  | dequeued output =>
    obtain ⟨e, hhand, -, hhand', -⟩ := heffect
    rw [hhand] at hhand'
    cases hhand'
  | empty =>
    obtain rfl := hout
    obtain ⟨-, -, rfl, -⟩ := heffect
    exact ⟨chain', listed, hchained, hconsuming, hcalls, hdrains, h.cleared,
      fun _ _ => .inr ⟨thread, hinside⟩, by simpa [postedOf] using h.posted, h.listedAs, h.heldAs,
      by simpa [ranOf] using h.ranAs, h.heldPass, h.listedPass⟩

omit [DecidableEq A] [DecidableEq T] in
theorem CEventLoop.Tracked.poll (h : s.Tracked os front chain hand done held listed) {result : Polled}
    (hst : s.poll result = some (s', out)) :
    s'.Tracked (os ++ [out]) front chain hand done held listed := by
  unfold CEventLoop.poll at hst
  split at hst
  · rename_i hrun
    have hidle : s.posts.consumer ≠ .out → ∀ run : RunAt, run = .draining := by
      intro hconsumer
      have hdraining := h.drains hconsumer
      rw [hrun] at hdraining
      cases hdraining
    have hnone : s.runningPosts = [] := h.cleared (by rw [hrun]; rfl)
    have hunrun : s.runningPosts = s.unrun := by simp only [CEventLoop.unrun, hrun]
    cases result with
    | woken =>
      dsimp only at hst
      split at hst
      · cases hst
        exact h.frame rfl (fun _ => Iff.rfl) (fun hc => hidle hc _) (fun _ => hnone) (by simp [RunAt.drained]) hunrun
          (.inl (Nat.lt_succ_self _))
      · cases hst
    | unwoken =>
      cases hst
      exact h.frame rfl (fun _ => Iff.rfl) (fun hc => hidle hc _) (fun _ => hnone) (by simp [RunAt.drained]) hunrun
        (.inl (Nat.lt_succ_self _))
    | failed =>
      cases hst
      exact h.frame rfl (fun _ => Iff.rfl) (fun hc => hidle hc _) (fun _ => hnone)
        (fun _ => h.woken (by rw [hrun]; rfl)) hunrun (.inl (Nat.lt_succ_self _))
  · cases hst

/-- A step of the Dequeue calls. What is given out waits for its turn in the list; when
nothing is found, whatever is left is of a thread that is inside Post. -/
theorem CEventLoop.Tracked.drain (h : s.Tracked os front chain hand done held listed)
    (hrun : s.run = .draining) (hst : s.runStep = some (s', out)) :
    ∃ front' chain' hand' held' listed',
      s'.Tracked (os ++ [out]) front' chain' hand' done held' listed' := by
  simp only [CEventLoop.runStep, hrun] at hst
  obtain ⟨⟨posts, seen⟩, hstep, hnext⟩ := Option.map_eq_some_iff.mp hst
  obtain ⟨front', chain', hand', hchained, hconsuming, heffect⟩ := step_drain h.chained h.consuming hstep
  obtain ⟨hproducer, hexchanges, hempty⟩ := drain_frame hstep
  have hcalls : ∀ t, posts.producer t ≠ .out ↔ s.call t = .enqueuing := by
    rw [hproducer]
    exact h.calls
  have hheld := h.heldAs
  simp only [CEventLoop.unrun, hrun] at hheld
  have hearlier : ∀ p ∈ listed, p.fromPost = true → p.pass < s.pass := by
    intro p hp hfrom
    cases h.listedPass p hp hfrom with
    | inl hlt => exact hlt
    | inr hlate =>
      rw [hrun] at hlate
      cases hlate.2
  have hposted := h.posted
  have hran := h.ranAs
  simp only [postedOf, ranOf] at hposted hran
  cases seen with
  | nothing =>
    cases hnext
    refine ⟨front', chain', hand', held, listed, hchained, hconsuming, hcalls, fun _ => rfl,
      by simp [RunAt.inPosts], by simp [RunAt.drained], by simpa [postedOf] using hposted, ?_, ?_,
      by simpa [ranOf] using hran, h.heldPass,
      fun p hp hfrom => .inl (hearlier p hp hfrom)⟩
    · rw [h.listedAs]
      exact congrArg _ (Eq.symm heffect)
    · simpa only [CEventLoop.unrun, hrun] using hheld
  | exchanged t input => cases hexchanges
  | dequeued output =>
    cases hnext
    obtain ⟨e, rfl, rfl, rfl, rfl⟩ := heffect
    obtain ⟨p, rest, rfl, hp, hrest⟩ := List.map_eq_cons_iff.mp h.listedAs
    obtain ⟨-, hpost⟩ := Prod.mk.inj hp
    refine ⟨front', chain', [], held ++ [p], rest, hchained, hconsuming, hcalls, fun _ => rfl,
      by simp [RunAt.inPosts], by simp [RunAt.drained], ?_, hrest, ?_, by simpa [ranOf] using hran,
      fun q hq hfrom => ?_,
      fun q hq hfrom => .inl (hearlier q (List.mem_cons_of_mem _ hq) hfrom)⟩
    · simp [postedOf, hposted]
    · simp only [CEventLoop.unrun, List.map_append, hheld, List.map_cons, hpost, List.map_nil]
    · cases List.mem_append.mp hq with
      | inl hold => exact h.heldPass q hold hfrom
      | inr hnew =>
        obtain rfl := List.mem_singleton.mp hnew
        exact hearlier q List.mem_cons_self hfrom
  | empty =>
    cases hnext
    obtain ⟨rfl, rfl, rfl, hleft⟩ := heffect
    refine ⟨front', chain', [], held, listed, hchained, hconsuming, hcalls,
      fun hc => absurd (hempty rfl) hc, by simp [RunAt.inPosts], fun _ hchain => ?_,
      by simpa [postedOf] using hposted, h.listedAs, ?_, by simpa [ranOf] using hran, h.heldPass,
      fun p hp hfrom => .inl (hearlier p hp hfrom)⟩
    · cases hleft with
      | inl hnil => exact absurd hnil hchain
      | inr hopen =>
        obtain ⟨e, -, a, -, hpc, -⟩ := hopen
        exact .inr ⟨e.thread, .inl ((h.calls e.thread).mp (by simp [hpc]))⟩
    · simpa only [CEventLoop.unrun, List.drop_zero] using hheld

/-- The next callback of RunPosts begins, or the list is cleared after the last one. -/
theorem CEventLoop.Tracked.running (h : s.Tracked os front chain hand done held listed) {next : Nat}
    (hrun : s.run = .running next) (hst : s.runStep = some (s', out)) :
    ∃ done' held', s'.Tracked (os ++ [out]) front chain hand done' held' listed := by
  simp only [CEventLoop.runStep, hrun] at hst
  have hidle : s.posts.consumer ≠ .out → ∀ run : RunAt, run = .draining := by
    intro hconsumer
    have hdraining := h.drains hconsumer
    rw [hrun] at hdraining
    cases hdraining
  have hheld := h.heldAs
  simp only [CEventLoop.unrun, hrun] at hheld
  have hdrained : s.run.drained = true := by
    rw [hrun]
    rfl
  cases hpost : s.runningPosts[next]? with
  | none =>
    simp only [hpost] at hst
    cases hst
    have hlength := List.getElem?_eq_none_iff.mp hpost
    refine ⟨done, held, h.frame rfl (fun _ => Iff.rfl) (fun hc => hidle hc _) (fun _ => rfl)
      (fun _ => h.woken hdrained) ?_ (.inr ⟨rfl, fun _ => rfl⟩)⟩
    simp only [CEventLoop.unrun, hrun]
    exact (List.drop_eq_nil_of_le hlength).symm
  | some post =>
    simp only [hpost] at hst
    cases hst
    obtain ⟨hlt, hget⟩ := List.getElem?_eq_some_iff.mp hpost
    rw [List.drop_eq_getElem_cons hlt, hget] at hheld
    obtain ⟨p, rest, rfl, hp, hrest⟩ := List.map_eq_cons_iff.mp hheld
    have hposted := h.posted
    have hran := h.ranAs
    simp only [postedOf, ranOf] at hposted hran
    refine ⟨done ++ [p], rest, h.chained, h.consuming, h.calls, fun hc => hidle hc _,
      by simp [RunAt.inPosts], fun _ => h.woken hdrained, ?_, h.listedAs, hrest, ?_,
      fun q hq => h.heldPass q (List.mem_cons_of_mem _ hq), fun q hq hfrom => ?_⟩
    · simp [postedOf, hposted]
    · simp only [ranOf, List.filterMap_append]
      exact List.rel_append hran (.cons ⟨hp.symm, h.heldPass p List.mem_cons_self⟩ .nil)
    · cases h.listedPass q hq hfrom with
      | inl hearlier => exact .inl hearlier
      | inr hlate => exact .inr ⟨hlate.1, rfl⟩

/-- A step of Run that leaves the queue and the posts alone. -/
theorem CEventLoop.Tracked.pass (h : s.Tracked os front chain hand done held listed)
    (hrun : s.run = .checking ∨ s.run = .resetting ∨ s.run = .watches ∨ s.run = .timers ∨
      ∃ current, s.run = .callback current) (hst : s.runStep = some (s', out)) :
    s'.Tracked (os ++ [out]) front chain hand done held listed := by
  have hidle : s.posts.consumer ≠ .out → ∀ run : RunAt, run = .draining := by
    intro hconsumer
    have hdraining := h.drains hconsumer
    rw [hdraining] at hrun
    simp at hrun
  rcases hrun with hrun | hrun | hrun | hrun | ⟨current, hrun⟩
  · simp only [CEventLoop.runStep, hrun] at hst
    cases hst
    have hnone : s.runningPosts = [] := h.cleared (by rw [hrun]; rfl)
    refine h.frame rfl (fun _ => Iff.rfl) (fun hc => hidle hc _) (fun _ => hnone)
      (fun _ => h.woken (by rw [hrun]; rfl)) ?_ (.inr ⟨rfl, fun _ => ?_⟩)
    · cases s.isStopping <;> simp [CEventLoop.unrun, hrun]
    · cases s.isStopping <;> rfl
  · simp only [CEventLoop.runStep, hrun] at hst
    cases hst
    have hnone : s.runningPosts = [] := h.cleared (by rw [hrun]; rfl)
    refine h.frame rfl (fun _ => Iff.rfl) (fun hc => hidle hc _) (fun _ => hnone) (by simp [RunAt.drained]) ?_
      (.inr ⟨rfl, ?_⟩)
    · simp only [CEventLoop.unrun, hrun]
    · rw [hrun]
      simp [RunAt.drained]
  · simp only [CEventLoop.runStep, hrun] at hst
    cases hst
    refine h.frame rfl (fun _ => Iff.rfl) (fun _ => rfl) (by simp [RunAt.inPosts])
      (by simp [RunAt.drained]) ?_ (.inr ⟨rfl, ?_⟩)
    · simp only [CEventLoop.unrun, hrun]
    · rw [hrun]
      simp [RunAt.drained]
  · simp only [CEventLoop.runStep, hrun] at hst
    cases hst
    have hnone : s.runningPosts = [] := h.cleared (by rw [hrun]; rfl)
    refine h.frame rfl (fun _ => Iff.rfl) (fun hc => hidle hc _) (fun _ => hnone)
      (fun _ => h.woken (by rw [hrun]; rfl)) ?_ (.inr ⟨rfl, fun _ => rfl⟩)
    simp only [CEventLoop.unrun, hrun]
  · simp only [CEventLoop.runStep, hrun] at hst
    cases hst
    refine h.frame rfl (fun _ => Iff.rfl) (fun hc => hidle hc _) (by simp [RunAt.inPosts])
      (fun _ => h.woken (by rw [hrun]; rfl)) ?_ (.inr ⟨rfl, fun _ => rfl⟩)
    simp only [CEventLoop.unrun, hrun]

theorem CEventLoop.Tracked.runStep (h : s.Tracked os front chain hand done held listed)
    (hst : s.runStep = some (s', out)) :
    ∃ front' chain' hand' done' held' listed',
      s'.Tracked (os ++ [out]) front' chain' hand' done' held' listed' := by
  cases hrun : s.run with
  | checking => exact ⟨_, _, _, _, _, _, h.pass (.inl hrun) hst⟩
  | polling =>
    simp only [CEventLoop.runStep, hrun] at hst
    cases hst
  | resetting => exact ⟨_, _, _, _, _, _, h.pass (.inr (.inl hrun)) hst⟩
  | watches => exact ⟨_, _, _, _, _, _, h.pass (.inr (.inr (.inl hrun))) hst⟩
  | draining =>
    obtain ⟨front', chain', hand', held', listed', h'⟩ := h.drain hrun hst
    exact ⟨_, _, _, _, _, _, h'⟩
  | running next =>
    obtain ⟨done', held', h'⟩ := h.running hrun hst
    exact ⟨_, _, _, _, _, _, h'⟩
  | callback current => exact ⟨_, _, _, _, _, _, h.pass (.inr (.inr (.inr (.inr ⟨current, hrun⟩)))) hst⟩
  | timers => exact ⟨_, _, _, _, _, _, h.pass (.inr (.inr (.inr (.inl hrun)))) hst⟩
  | ended =>
    simp only [CEventLoop.runStep, hrun] at hst
    cases hst

theorem CEventLoop.Tracked.callStep (h : s.Tracked os front chain hand done held listed) {thread : T}
    (hst : s.callStep main thread = some (s', out)) :
    ∃ chain' listed', s'.Tracked (os ++ [out]) front chain' hand done held listed' := by
  cases hcall : s.call thread with
  | out =>
    simp only [CEventLoop.callStep, hcall] at hst
    cases hst
  | enqueuing => exact h.enqueuing hcall hst
  | waking =>
    simp only [CEventLoop.callStep, hcall] at hst
    cases hst
    exact ⟨_, _, h.wake .out (by simp [hcall]) (by simp)⟩
  | stopping =>
    simp only [CEventLoop.callStep, hcall] at hst
    cases hst
    exact ⟨_, _, h.wake .joining (by simp [hcall]) (by simp)⟩
  | joining =>
    simp only [CEventLoop.callStep, hcall] at hst
    cases hst

theorem CEventLoop.Tracked.step (h : s.Tracked os front chain hand done held listed)
    {m : LoopMove A T V} (hst : s.step main m = some (s', out)) :
    ∃ front' chain' hand' done' held' listed',
      s'.Tracked (os ++ [out]) front' chain' hand' done' held' listed' := by
  cases m with
  | post thread callback node => exact ⟨_, _, _, _, _, _, h.post hst⟩
  | terminate thread => exact ⟨_, _, _, _, _, _, h.terminate hst⟩
  | call thread =>
    obtain ⟨chain', listed', h'⟩ := h.callStep hst
    exact ⟨_, _, _, _, _, _, h'⟩
  | poll result => exact ⟨_, _, _, _, _, _, h.poll hst⟩
  | run =>
    simp only [CEventLoop.step] at hst
    split at hst
    · exact h.runStep hst
    · cases hst

/-- No step of the loop or of a call is ever in the way of itself. -/
theorem CEventLoop.Tracked.goesOn (h : s.Tracked os front chain hand done held listed) :
    (∀ t, s.call t ≠ .out → s.call t ≠ .joining → (s.callStep main t).isSome = true) ∧
      (s.run ≠ .polling → s.run ≠ .ended → s.runStep.isSome = true) := by
  refine ⟨fun t hout hjoining => ?_, fun hpolling hended => ?_⟩
  · cases hcall : s.call t with
    | out => exact absurd hcall hout
    | enqueuing =>
      simp only [CEventLoop.callStep, hcall, Option.isSome_map]
      exact (queue_goesOn h.chained h.consuming).1 t ((h.calls t).mpr hcall)
    | waking => simp [CEventLoop.callStep, hcall]
    | stopping => simp [CEventLoop.callStep, hcall]
    | joining => exact absurd hcall hjoining
  · cases hrun : s.run with
    | polling => exact absurd hrun hpolling
    | draining =>
      simp only [CEventLoop.runStep, hrun, Option.isSome_map]
      exact drain_goesOn h.chained h.consuming
    | running next =>
      cases hpost : s.runningPosts[next]? with
      | none => simp [CEventLoop.runStep, hrun, hpost]
      | some post => simp [CEventLoop.runStep, hrun, hpost]
    | ended => exact absurd hrun hended
    | _ => simp [CEventLoop.runStep, hrun]

omit [DecidableEq A] in
/-- The poll wait leaves the queue alone. -/
theorem poll_posts {result : Polled} (hst : s.poll result = some (s', out)) (t : T) :
    s'.posts = s.posts ∧ postedBy t out = [] := by
  unfold CEventLoop.poll at hst
  split at hst
  · cases result with
    | woken =>
      dsimp only at hst
      split at hst
      · cases hst
        exact ⟨rfl, rfl⟩
      · cases hst
    | unwoken =>
      cases hst
      exact ⟨rfl, rfl⟩
    | failed =>
      cases hst
      exact ⟨rfl, rfl⟩
  · cases hst

/-- The loop's thread moves no poster in Run, and puts nothing in. -/
theorem runStep_posts (hst : s.runStep = some (s', out)) (t : T) :
    s'.posts.producer = s.posts.producer ∧ postedBy t out = [] := by
  cases hrun : s.run with
  | draining =>
    simp only [CEventLoop.runStep, hrun] at hst
    obtain ⟨next, hnext, heq⟩ := Option.map_eq_some_iff.mp hst
    obtain ⟨hproducer, -, -⟩ := drain_frame hnext
    split at heq
    all_goals
      cases heq
      exact ⟨hproducer, rfl⟩
  | running next =>
    cases hpost : s.runningPosts[next]? with
    | none =>
      simp only [CEventLoop.runStep, hrun, hpost] at hst
      cases hst
      exact ⟨rfl, rfl⟩
    | some post =>
      simp only [CEventLoop.runStep, hrun, hpost] at hst
      cases hst
      exact ⟨rfl, rfl⟩
  | polling => simp [CEventLoop.runStep, hrun] at hst
  | ended => simp [CEventLoop.runStep, hrun] at hst
  | _ =>
    simp only [CEventLoop.runStep, hrun] at hst
    cases hst
    exact ⟨rfl, rfl⟩

/-- A step puts in a callback only as that of a call of Post, and it loses none. -/
theorem post_waiting {m : LoopMove A T V} (hst : s.step main m = some (s', out)) (t : T) :
    (s.posts.producer t).waiting ++ postBy t m = postedBy t out ++ (s'.posts.producer t).waiting := by
  cases m with
  | post thread callback node =>
    simp only [CEventLoop.step, CEventLoop.post] at hst
    split at hst
    · obtain ⟨next, hnext, heq⟩ := Option.map_eq_some_iff.mp hst
      cases heq
      simp only [CMpscQueue.step] at hnext
      split at hnext
      · rename_i hout _
        cases hnext
        by_cases ht : t = thread
        · subst ht
          simp [CMpscQueue.write, CMpscQueue.at, hout, EnqueueAt.waiting, postBy, postedBy]
        · simp [CMpscQueue.write, CMpscQueue.at, ht, Ne.symm ht, postBy, postedBy]
      · cases hnext
    · cases hst
  | terminate thread =>
    simp only [CEventLoop.step, CEventLoop.terminate] at hst
    split at hst
    · cases hst
      exact List.append_nil _
    · cases hst
  | call thread =>
    have hnone : postBy t (.call thread : LoopMove A T V) = [] := rfl
    rw [hnone, List.append_nil]
    cases hcall : s.call thread with
    | enqueuing =>
      simp only [CEventLoop.step, CEventLoop.callStep, hcall] at hst
      obtain ⟨next, hnext, heq⟩ := Option.map_eq_some_iff.mp hst
      cases heq
      rw [produce_waiting hnext t]
      congr 1
      cases hseen : next.2 with
      | exchanged thread' input => by_cases ht : thread' = t <;> simp [exchangedBy, exchanges, postedBy, ht]
      | _ => rfl
    | waking =>
      simp only [CEventLoop.step, CEventLoop.callStep, hcall] at hst
      cases hst
      rfl
    | stopping =>
      simp only [CEventLoop.step, CEventLoop.callStep, hcall] at hst
      cases hst
      rfl
    | _ => simp [CEventLoop.step, CEventLoop.callStep, hcall] at hst
  | poll result =>
    obtain ⟨hposts, hnone⟩ := poll_posts hst t
    rw [hposts, hnone]
    exact List.append_nil _
  | run =>
    simp only [CEventLoop.step] at hst
    split at hst
    · obtain ⟨hproducer, hnone⟩ := runStep_posts hst t
      rw [hproducer, hnone]
      exact List.append_nil _
    · cases hst

theorem CEventLoop.Tracked.keepsPosts {ms : List (LoopMove A T V)}
    (h : s.Tracked os front chain hand done held listed)
    (hown : ∀ t, ms.flatMap (postBy t) = os.flatMap (postedBy t) ++ (s.posts.producer t).waiting) :
    KeepsPosts main ms os s := by
  have hlength : (ranOf os).length = done.length := h.ranAs.length_eq.symm
  have hvalues : (ranOf os).map Prod.fst = done.map fun p => some p.post := by
    refine List.ext_getElem (by simp [hlength]) fun i hi hi' => ?_
    rw [List.getElem_map, List.getElem_map]
    exact (List.forall₂_iff_get.mp h.ranAs).2 i (by simpa using hi') (by simpa using hi) |>.1
  refine ⟨hown, fun t ht => ?_, fun hrun hcounter hnobody => ?_, ?_, fun i p r hp hr => ?_, h.goesOn⟩
  · have hout : s.posts.producer t = .out := by
      by_contra hbusy
      exact ht (.inl ((h.calls t).mp hbusy))
    rw [hown t, hout]
    exact List.append_nil _
  · have hchain : chain = [] := by
      by_contra hchain
      cases h.woken (by rw [hrun]; rfl) hchain with
      | inl hwoken => exact hwoken hcounter
      | inr hposter =>
        obtain ⟨t, ht⟩ := hposter
        exact hnobody t ht
    have hconsumer : s.posts.consumer = .out := by
      by_contra hconsumer
      have hdraining := h.drains hconsumer
      rw [hrun] at hdraining
      cases hdraining
    have hconsuming := h.consuming
    simp only [CMpscQueue.Consuming, hconsumer] at hconsuming
    obtain ⟨htail, rfl⟩ := hconsuming
    subst hchain
    have hlisted : listed = [] := List.map_eq_nil_iff.mp h.listedAs
    have hheld : held = [] := by
      have hunrun := h.heldAs
      simp only [CEventLoop.unrun, hrun, h.cleared (by rw [hrun]; rfl)] at hunrun
      exact List.map_eq_nil_iff.mp hunrun
    refine ⟨h.chained.head.trans htail.symm, ?_⟩
    rw [hlength, h.posted, hlisted, hheld, List.append_nil, List.append_nil]
  · rw [hvalues, h.posted, List.map_append, List.map_append, List.append_assoc]
    exact List.prefix_append _ _
  · obtain ⟨hi, hget⟩ := List.getElem?_eq_some_iff.mp hr
    have hdone : done[i]? = some p := by
      rw [h.posted, List.append_assoc, List.getElem?_append_left (hlength ▸ hi)] at hp
      exact hp
    obtain ⟨hi', hget'⟩ := List.getElem?_eq_some_iff.mp hdone
    rw [← hget, ← hget']
    exact (List.forall₂_iff_get.mp h.ranAs).2 i hi' hi

/-- Any run of any number of threads posting and of the loop, from Initialize on. -/
theorem eventLoop_keepsPosts {front : A} {ms : List (LoopMove A T V)} {os : List (LoopSeen T V)}
    (hr : (eventLoop A V main).run { posts := .create front } ms = some (s, os)) :
    KeepsPosts main ms os s := by
  have hstart : ({ posts := .create front } : CEventLoop A T V).Tracked [] front [] [] [] [] [] := by
    obtain ⟨hchained, hconsuming⟩ := chained_create (T := T) (V := V) front
    exact ⟨hchained, hconsuming, by simp [CMpscQueue.create], by simp [CMpscQueue.create], fun _ => rfl,
      by simp, rfl, rfl, rfl, .nil, by simp, by simp⟩
  have hkept := Machine.run_invariant
    (fun _ os s => ∃ front chain hand done held listed,
      s.Tracked os front chain hand done held listed) [] []
    (fun _ os s m t o h hst => by
      obtain ⟨front, chain, hand, done, held, listed, h⟩ := h
      exact h.step hst) ⟨front, [], [], [], [], [], hstart⟩ hr
  obtain ⟨front, chain, hand, done, held, listed, h⟩ := hkept
  exact h.keepsPosts fun t => Machine.run_owes (fun s => (s.posts.producer t).waiting)
    (fun _ _ _ _ hst => post_waiting hst t) hr

/-- A post that is exchanged and not linked when the loop drains. Its wake comes after
the reset, and the post it makes itself runs a pass later. -/
def lateLink : List (LoopMove Nat Bool Nat) :=
  [LoopMove.run, LoopMove.post false 7 1, LoopMove.call false, LoopMove.call false,
      LoopMove.poll .unwoken] ++
    List.replicate 4 LoopMove.run ++ [LoopMove.call false] ++ List.replicate 3 LoopMove.run ++
    [LoopMove.call false, LoopMove.poll .woken] ++ List.replicate 12 LoopMove.run ++
    [LoopMove.post true 8 2] ++ List.replicate 4 (LoopMove.call true) ++ List.replicate 4 LoopMove.run ++
    [LoopMove.poll .woken] ++ List.replicate 16 LoopMove.run

theorem eventLoop_keepsPosts_lateLink : ∃ s os,
    (eventLoop Nat Nat true).run { posts := .create 0 } lateLink = some (s, os) ∧
    os.filter (· ≠ .nothing) = [.posted ⟨false, 7, false, 0⟩, .ran (some 7) 2,
      .posted ⟨true, 8, true, 2⟩, .ran (some 8) 3] ∧ s.run = .polling ∧ s.wakeCounter = 0 ∧
    KeepsPosts true lateLink os s := by
  have hrun : ((eventLoop Nat Nat true).run { posts := .create 0 } lateLink).map
      (fun r => (r.2.filter (· ≠ .nothing), r.1.run, r.1.wakeCounter)) =
      some ([.posted ⟨false, 7, false, 0⟩, .ran (some 7) 2, .posted ⟨true, 8, true, 2⟩,
        .ran (some 8) 3], .polling, 0) := by decide +kernel
  obtain ⟨⟨s, os⟩, hr, hos⟩ := Option.map_eq_some_iff.mp hrun
  simp only [Prod.mk.injEq] at hos
  exact ⟨s, os, hr, hos.1, hos.2.1, hos.2.2, eventLoop_keepsPosts hr⟩

end Steps

end TgeCore.Threading
