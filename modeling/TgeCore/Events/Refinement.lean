import TgeCore.Events.Registry

namespace TgeCore.Events
open Library

variable {H P : Type}

def Op.isSubscribe : Op H P → Bool
  | .subscribe _ _ => true
  | _ => false

def subscribes (ops : List (Op H P)) : Nat := ops.countP Op.isSubscribe

/-- The handles a run hands out, in order. -/
def issued (outs : List (Out H P)) : List EventHandle :=
  outs.filterMap fun out => match out with
    | .subscribed handle => some handle
    | _ => none

/-- As long as the handle counter is not exhausted, the system does step by step
what the list of live subscriptions does. -/
theorem sessions_simulate : Machine.Simulates (sessions H P) (registries H P)
    (fun ops s t => Refines s t ∧ t.made.length + subscribes ops ≤ 2 ^ 64) where
  step := by
    rintro op ops s t ⟨h, hbound⟩
    cases op with
    | subscribe type handler =>
      have hone : subscribes (.subscribe type handler :: ops : List (Op H P)) = subscribes ops + 1 :=
        List.countP_cons_of_pos rfl
      rw [hone] at hbound
      have hout : (s.system.subscribeErased type handler).2 = (t.newest type handler).handle :=
        h.nextHandle
      refine .inr ⟨_, _, .subscribed (t.newest type handler).handle, ?_, rfl,
        h.subscribe (by omega) type handler, ?_⟩
      · rw [← hout]
        rfl
      · simp only [Registry.add, List.length_append, List.length_singleton]
        omega
    | unsubscribe handle => exact .inr ⟨_, _, _, rfl, rfl, h.unsubscribe handle, hbound⟩
    | emit type payload => exact .inr ⟨_, _, _, rfl, rfl, h.emit type payload, hbound⟩
    | next =>
      rcases h.next with ⟨hs, ht⟩ | ⟨s', t', out, hs, ht, hnext⟩
      · exact .inl ⟨hs, ht⟩
      · refine .inr ⟨s', t', out, hs, ht, hnext, ?_⟩
        have : t'.made = t.made := by
          simp only [Registry.step] at ht
          split at ht
          · cases ht
          · split at ht <;>
            · cases ht
              rfl
        rw [this]
        exact hbound

/-- Going on with a dispatch changes nothing of the system itself. -/
theorem step_next {s s' : Session H P} {out : Out H P} (h : (sessions H P).step s .next = some (s', out)) :
    s'.system = s.system ∧ issued [out] = [] := by
  simp only [sessions, Session.step] at h
  split at h
  · cases h
  · split at h <;>
    · cases h
      exact ⟨rfl, rfl⟩

/-- The n-th subscription of a run gets the n-th handle, modulo 2^64. -/
theorem issued_eq {ops : List (Op H P)} {outs : List (Out H P)} {s : Session H P}
    (hr : (sessions H P).run {} ops = some (s, outs)) :
    issued outs = (List.range (subscribes ops)).map (fun index => UInt64.ofNat (index + 1)) := by
  have hinv := Machine.run_invariant (M := sessions H P) (fun ops outs s => issued outs =
        (List.range (subscribes ops)).map (fun index => UInt64.ofNat (index + 1)) ∧
      s.system.nextHandle = UInt64.ofNat (subscribes ops + 1)) [] [] ?_ ⟨rfl, rfl⟩ hr
  · simpa using hinv.1
  · rintro ops outs s op s' out ⟨hissued, hnext⟩ hstep
    have hcount : subscribes (ops ++ [op]) = subscribes ops + subscribes [op] := List.countP_append
    have hout : issued (outs ++ [out]) = issued outs ++ issued [out] := List.filterMap_append
    rw [hcount, hout, hissued]
    cases op with
    | subscribe type handler =>
      obtain ⟨rfl, rfl⟩ := Prod.mk.inj (Option.some.inj hstep)
      have hone : subscribes [(.subscribe type handler : Op H P)] = 1 := rfl
      simp only [hone, List.range_succ, List.map_append, List.map_singleton]
      exact ⟨by rw [← hnext]; rfl, by simp [CSystem.subscribeErased, hnext, UInt64.ofNat_add]⟩
    | unsubscribe handle =>
      obtain ⟨rfl, rfl⟩ := Prod.mk.inj (Option.some.inj hstep)
      have hsame := (unsubscribe_frame s.system handle).2.2
      exact ⟨List.append_nil _, hsame.trans hnext⟩
    | emit type payload =>
      obtain ⟨rfl, rfl⟩ := Prod.mk.inj (Option.some.inj hstep)
      have hsame := (getSnapshot_frame s.system type).2.2.2
      exact ⟨List.append_nil _, hsame.trans hnext⟩
    | next =>
      obtain ⟨hsystem, hnone⟩ := step_next hstep
      rw [hnone, hsystem]
      exact ⟨List.append_nil _, hnext⟩

/-- The event system is the ordered list of live subscriptions, to everyone who
calls it in whatever nesting, and its handles are all different. -/
def ActsAsRegistry (ops : List (Op H P)) : Prop :=
  ((sessions H P).run {} ops).map Prod.snd = ((registries H P).run {} ops).map Prod.snd ∧
    ∀ s outs, (sessions H P).run {} ops = some (s, outs) → (issued outs).Nodup

theorem nodup_handles {n : Nat} (h : n ≤ 2 ^ 64) :
    ((List.range n).map (fun index => UInt64.ofNat (index + 1))).Nodup := by
  apply List.Nodup.map_on _ List.nodup_range
  intro a ha b hb hab
  have hnat := congrArg UInt64.toNat hab
  simp only [UInt64.toNat_ofNat'] at hnat
  have := List.mem_range.mp ha
  have := List.mem_range.mp hb
  omega

theorem sessions_actAsRegistry {ops : List (Op H P)} (h : subscribes ops ≤ 2 ^ 64) :
    ActsAsRegistry ops := by
  constructor
  · exact sessions_simulate.outputs ⟨refines_initial, by simpa using h⟩
  · intro s outs hr
    rw [issued_eq hr]
    exact nodup_handles h

/-- A handler that drops the other one and subscribes a third while it runs. -/
theorem sessions_actAsRegistry_nested : ActsAsRegistry (H := Nat) (P := Unit)
    [.subscribe 0 10, .subscribe 0 20, .emit 0 (), .next, .unsubscribe 2, .subscribe 0 30,
      .emit 0 (), .next, .next, .next, .next] :=
  sessions_actAsRegistry (by decide)

/-- The subscription after the 2^64-th gets the first one's handle. -/
theorem sessions_reissue_handle :
    ¬ ActsAsRegistry (List.replicate (2 ^ 64 + 1) (.subscribe 0 () : Op Unit Unit)) := by
  rintro ⟨_, hnodup⟩
  obtain ⟨s, outs, hr⟩ := Machine.run_exists (M := sessions Unit Unit)
    (List.replicate (2 ^ 64 + 1) (.subscribe 0 () : Op Unit Unit)) (by
      intro op hop s
      rw [List.eq_of_mem_replicate hop]
      exact ⟨_, _, rfl⟩) {}
  have hsub : subscribes (List.replicate (2 ^ 64 + 1) (.subscribe 0 () : Op Unit Unit)) =
      2 ^ 64 + 1 := by
    rw [subscribes, List.countP_replicate]
    rfl
  have hd := hnodup s outs hr
  rw [issued_eq hr, hsub] at hd
  have : 0 = 2 ^ 64 := List.inj_on_of_nodup_map hd (List.mem_range.mpr (by decide))
    (List.mem_range.mpr (by decide)) (by decide)
  omega

end TgeCore.Events
