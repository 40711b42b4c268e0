import Mathlib.Data.List.Nodup
import TgeCore.Command.Registry

namespace TgeCore.Command
open Library

variable {Callback : Type*}

section History
variable {history : List (RegistryCall Callback)} {call : RegistryCall Callback} {i pGroup : Nat} {name : List Char}
  {callback : Callback}

theorem getElem?_append_iff {j : Nat} {other : RegistryCall Callback} : (history ++ [call])[j]? = some other ↔
    history[j]? = some other ∨ (j = history.length ∧ call = other) := by
  rw [List.getElem?_append]
  split
  · rename_i hj
    exact ⟨.inl, fun h => h.resolve_right fun hend => absurd hend.1 (Nat.ne_of_lt hj)⟩
  · rename_i hj
    rw [List.getElem?_eq_none (Nat.not_lt.mp hj), List.getElem?_singleton]
    by_cases hend : j = history.length
    · rw [if_pos (by omega)]
      simp only [Option.some.injEq, reduceCtorEq, false_or, hend, true_and]
    · rw [if_neg (by omega)]
      simp only [reduceCtorEq, false_or, hend, false_and]

theorem lt_of_getElem? {j : Nat} {other : RegistryCall Callback} (h : history[j]? = some other) : j < history.length :=
  (List.getElem?_eq_some_iff.mp h).1

/-- A call creates one group and ends at most one. -/
theorem living_append : Living (history ++ [call]) i pGroup ↔
    (Living history i pGroup ∧ call ≠ .destroyGroup pGroup) ∨ (i = history.length ∧ call = .createGroup pGroup) := by
  constructor
  · rintro ⟨hcreate, hkept⟩
    cases getElem?_append_iff.mp hcreate with
    | inl hbefore =>
      refine .inl ⟨⟨hbefore, fun j hj hdestroy => hkept j hj (getElem?_append_iff.mpr (.inl hdestroy))⟩, fun hcall => ?_⟩
      exact hkept history.length (lt_of_getElem? hbefore) (getElem?_append_iff.mpr (.inr ⟨rfl, hcall⟩))
    | inr hnow => exact .inr hnow
  · rintro (⟨⟨hcreate, hkept⟩, hcall⟩ | ⟨rfl, rfl⟩)
    · refine ⟨getElem?_append_iff.mpr (.inl hcreate), fun j hj hdestroy => ?_⟩
      cases getElem?_append_iff.mp hdestroy with
      | inl hbefore => exact hkept j hj hbefore
      | inr hnow => exact hcall hnow.2
    · refine ⟨getElem?_append_iff.mpr (.inr ⟨rfl, rfl⟩), fun j hj hdestroy => ?_⟩
      cases getElem?_append_iff.mp hdestroy with
      | inl hbefore => exact absurd (lt_of_getElem? hbefore) (Nat.not_lt_of_lt hj)
      | inr hnow => exact absurd hnow.1 (Nat.ne_of_gt hj)

theorem registered_append (hi : i < history.length) : Registered (history ++ [call]) i pGroup name callback ↔
    call = .registerCommand pGroup name callback ∨
      (Registered history i pGroup name callback ∧ ∀ later, call ≠ .registerCommand pGroup name later) := by
  constructor
  · rintro ⟨j, hj, hregister, hlast⟩
    cases getElem?_append_iff.mp hregister with
    | inl hbefore =>
      refine .inr ⟨⟨j, hj, hbefore, fun k hk later hlater => ?_⟩, fun later hcall => ?_⟩
      · exact hlast k hk later (getElem?_append_iff.mpr (.inl hlater))
      · exact hlast history.length (lt_of_getElem? hbefore) later (getElem?_append_iff.mpr (.inr ⟨rfl, hcall⟩))
    | inr hnow => exact .inl hnow.2
  · rintro (rfl | ⟨⟨j, hj, hregister, hlast⟩, hcall⟩)
    · refine ⟨history.length, hi, getElem?_append_iff.mpr (.inr ⟨rfl, rfl⟩), fun k hk later hlater => ?_⟩
      cases getElem?_append_iff.mp hlater with
      | inl hbefore => exact absurd (lt_of_getElem? hbefore) (Nat.not_lt_of_lt hk)
      | inr hnow => exact absurd hnow.1 (Nat.ne_of_gt hk)
    · refine ⟨j, hj, getElem?_append_iff.mpr (.inl hregister), fun k hk later hlater => ?_⟩
      cases getElem?_append_iff.mp hlater with
      | inl hbefore => exact hlast k hk later hbefore
      | inr hnow => exact hcall later hnow.2

theorem not_registered_now : ¬Registered (history ++ [call]) history.length pGroup name callback := by
  rintro ⟨j, hj, hregister, -⟩
  cases getElem?_append_iff.mp hregister with
  | inl hbefore => exact absurd (lt_of_getElem? hbefore) (Nat.not_lt_of_lt hj)
  | inr hnow => exact absurd hnow.1 (Nat.ne_of_gt hj)

theorem Living.lt (h : Living history i pGroup) : i < history.length := lt_of_getElem? h.1

/-- A history has one callback for a verb at most. -/
theorem Claims.unique {verb : List Char} {callback' : Callback} (h : Claims history verb callback)
    (h' : Claims history verb callback') : callback = callback' := by
  obtain ⟨i, pGroup, hliving, hregistered, hfirst⟩ := h
  obtain ⟨i', pGroup', hliving', hregistered', hfirst'⟩ := h'
  rcases Nat.lt_trichotomy i i' with hlt | rfl | hlt
  · exact absurd hregistered (hfirst' i hlt pGroup callback hliving)
  · cases hliving.1.symm.trans hliving'.1
    obtain ⟨j, hj, hregister, hlast⟩ := hregistered
    obtain ⟨j', hj', hregister', hlast'⟩ := hregistered'
    rcases Nat.lt_trichotomy j j' with hlt | rfl | hlt
    · exact absurd hregister' (hlast j' hlt callback')
    · cases hregister.symm.trans hregister'
      rfl
    · exact absurd hregister (hlast' j hlt callback)
  · exact absurd hregistered' (hfirst i' hlt pGroup' callback' hliving')

/-- A call that registers nothing there changes nothing of what was registered. -/
theorem registered_kept (h : Living history i pGroup) (hcall : ∀ later, call ≠ .registerCommand pGroup name later) :
    Registered (history ++ [call]) i pGroup name callback ↔ Registered history i pGroup name callback := by
  rw [registered_append h.lt]
  exact ⟨fun h => (h.resolve_left (hcall callback)).1, fun h => .inr ⟨h, hcall⟩⟩

end History

namespace CRegistry
variable {r r' : CRegistry Callback} {pGroup : Nat} {name : List Char} {callback : Callback}

theorem createGroup_eq_some (h : r.createGroup pGroup = some r') : r.objects pGroup = none ∧
    r'.groups = r.groups ++ [pGroup] ∧ r'.objects pGroup = some .new ∧ ∀ p ≠ pGroup, r'.objects p = r.objects p := by
  unfold createGroup at h
  split at h
  · cases h
  · rename_i hfree
    cases h
    exact ⟨hfree, rfl, Function.update_self .., fun p hp => Function.update_of_ne hp ..⟩

theorem destroyGroup_of_mem (h : pGroup ∈ r.groups) : (r.destroyGroup pGroup).groups = r.groups.erase pGroup ∧
    (r.destroyGroup pGroup).objects pGroup = none ∧ ∀ p ≠ pGroup, (r.destroyGroup pGroup).objects p = r.objects p := by
  unfold destroyGroup
  rw [if_pos h]
  exact ⟨rfl, Function.update_self .., fun p hp => Function.update_of_ne hp ..⟩

theorem registerCommand_eq_some (h : r.registerCommand pGroup name callback = some r') : ∃ group,
    r.objects pGroup = some group ∧ r'.groups = r.groups ∧
      r'.objects pGroup = some (group.registerCommand name callback) ∧ ∀ p ≠ pGroup, r'.objects p = r.objects p := by
  obtain ⟨group, hgroup, rfl⟩ := Option.map_eq_some_iff.mp h
  exact ⟨group, hgroup, rfl, Function.update_self .., fun p hp => Function.update_of_ne hp ..⟩

end CRegistry

/-- The registry is what its history says: its groups are the living ones in the order in which they
were created, each with the commands that were registered last. -/
structure CRegistry.Follows (history : List (RegistryCall Callback)) (r : CRegistry Callback) : Prop where
  nodup : r.groups.Nodup
  exists_iff : ∀ pGroup, pGroup ∈ r.groups ↔ r.objects pGroup ≠ none
  living : ∀ pGroup ∈ r.groups, ∃ i, Living history i pGroup
  listed : ∀ i pGroup, Living history i pGroup → pGroup ∈ r.groups
  unique : ∀ i j pGroup, Living history i pGroup → Living history j pGroup → i = j
  ordered : r.groups.Pairwise fun pGroup later => ∀ i j, Living history i pGroup → Living history j later → i < j
  commands : ∀ i pGroup group name callback, Living history i pGroup → r.objects pGroup = some group →
    (group.commands name = some callback ↔ Registered history i pGroup name callback)

namespace CRegistry.Follows
variable {history : List (RegistryCall Callback)} {r r' : CRegistry Callback} {pGroup : Nat} {name : List Char}
  {callback : Callback}

theorem start : Follows ([] : List (RegistryCall Callback)) {} where
  nodup := .nil
  exists_iff := fun _ => ⟨fun h => absurd h List.not_mem_nil, fun h => absurd rfl h⟩
  living := fun _ h => absurd h List.not_mem_nil
  listed := fun _ _ h => nomatch h.1
  unique := fun _ _ _ h => nomatch h.1
  ordered := .nil
  commands := fun _ _ _ _ _ h => nomatch h.1

theorem createGroup (h : r.Follows history) (hcall : r.createGroup pGroup = some r') :
    r'.Follows (history ++ [.createGroup pGroup]) := by
  obtain ⟨hfree, hgroups, hself, hother⟩ := createGroup_eq_some hcall
  have hnew : pGroup ∉ r.groups := fun hmem => (h.exists_iff pGroup).mp hmem hfree
  have hold : ∀ i, ¬Living history i pGroup := fun i hi => hnew (h.listed i pGroup hi)
  have hliving : ∀ i p, Living (history ++ [(.createGroup pGroup : RegistryCall Callback)]) i p ↔
      Living history i p ∨ (i = history.length ∧ pGroup = p) := by
    intro i p
    rw [living_append]
    simp only [ne_eq, reduceCtorEq, not_false_eq_true, and_true, RegistryCall.createGroup.injEq]
  have hmem : ∀ p, p ∈ r'.groups ↔ p ∈ r.groups ∨ p = pGroup := by
    intro p
    rw [hgroups, List.mem_append, List.mem_singleton]
  refine ⟨?_, fun p => ?_, fun p hp => ?_, fun i p hi => ?_, fun i j p hi hj => ?_, ?_, fun i p group name callback hi hp => ?_⟩
  · rw [hgroups, ← List.concat_eq_append]
    exact h.nodup.concat hnew
  · rw [hmem]
    by_cases hp : p = pGroup
    · rw [hp, hself]
      exact iff_of_true (.inr rfl) (Option.some_ne_none _)
    · rw [hother p hp, ← h.exists_iff]
      exact or_iff_left hp
  · cases (hmem p).mp hp with
    | inl hbefore =>
      obtain ⟨i, hi⟩ := h.living p hbefore
      exact ⟨i, (hliving i p).mpr (.inl hi)⟩
    | inr hnow => exact ⟨history.length, (hliving _ p).mpr (.inr ⟨rfl, hnow.symm⟩)⟩
  · rw [hmem]
    exact ((hliving i p).mp hi).imp (h.listed i p) fun hnow => hnow.2.symm
  · rcases (hliving i p).mp hi with hi | ⟨rfl, rfl⟩
    · rcases (hliving j p).mp hj with hj | ⟨rfl, rfl⟩
      · exact h.unique i j p hi hj
      · exact absurd hi (hold i)
    · rcases (hliving j _).mp hj with hj | ⟨rfl, -⟩
      · exact absurd hj (hold j)
      · rfl
  · rw [hgroups]
    refine List.pairwise_append.mpr ⟨?_, List.pairwise_singleton _ _, fun p hp later hlater i j hi hj => ?_⟩
    · refine h.ordered.imp_of_mem fun hp hlater hbefore i j hi hj => hbefore i j ?_ ?_
      · exact ((hliving i _).mp hi).resolve_right fun hnow => hnew (hnow.2 ▸ hp)
      · exact ((hliving j _).mp hj).resolve_right fun hnow => hnew (hnow.2 ▸ hlater)
    · have hi := ((hliving i p).mp hi).resolve_right fun hnow => hnew (hnow.2 ▸ hp)
      rw [List.mem_singleton.mp hlater] at hj
      have hj := ((hliving j pGroup).mp hj).resolve_left (hold j)
      rw [hj.1]
      exact hi.lt
  · rcases (hliving i p).mp hi with hi | ⟨rfl, rfl⟩
    · have hne : p ≠ pGroup := fun heq => hold i (heq ▸ hi)
      rw [hother p hne] at hp
      rw [registered_kept hi fun _ => by simp]
      exact h.commands i p group name callback hi hp
    · cases hself.symm.trans hp
      exact iff_of_false (fun hnone => nomatch hnone) not_registered_now

/-- A call that creates and ends no group needs to give the commands that it says. -/
theorem of_living {call : RegistryCall Callback} (h : r.Follows history) (hgroups : r'.groups = r.groups)
    (hobjects : ∀ p, r'.objects p = none ↔ r.objects p = none)
    (hliving : ∀ i p, Living (history ++ [call]) i p ↔ Living history i p)
    (hcommands : ∀ i p group name callback, Living history i p → r'.objects p = some group →
      (group.commands name = some callback ↔ Registered (history ++ [call]) i p name callback)) :
    r'.Follows (history ++ [call]) where
  nodup := hgroups ▸ h.nodup
  exists_iff := fun p => by
    rw [hgroups, h.exists_iff]
    exact not_congr (hobjects p).symm
  living := by
    intro p hp
    rw [hgroups] at hp
    obtain ⟨i, hi⟩ := h.living p hp
    exact ⟨i, (hliving i p).mpr hi⟩
  listed := fun i p hi => hgroups ▸ h.listed i p ((hliving i p).mp hi)
  unique := fun i j p hi hj => h.unique i j p ((hliving i p).mp hi) ((hliving j p).mp hj)
  ordered := by
    rw [hgroups]
    exact h.ordered.imp fun hbefore i j hi hj => hbefore i j ((hliving i _).mp hi) ((hliving j _).mp hj)
  commands := fun i p group name callback hi hp => hcommands i p group name callback ((hliving i p).mp hi) hp

theorem destroyGroup (h : r.Follows history) : (r.destroyGroup pGroup).Follows (history ++ [.destroyGroup pGroup]) := by
  have hliving : ∀ i p, Living (history ++ [(.destroyGroup pGroup : RegistryCall Callback)]) i p ↔
      Living history i p ∧ p ≠ pGroup := by
    intro i p
    rw [living_append]
    simp only [ne_eq, RegistryCall.destroyGroup.injEq, reduceCtorEq, and_false, or_false, eq_comm]
  by_cases hmem : pGroup ∈ r.groups
  · obtain ⟨hgroups, hself, hother⟩ := destroyGroup_of_mem hmem
    have hleft : ∀ p, p ∈ (r.destroyGroup pGroup).groups ↔ p ≠ pGroup ∧ p ∈ r.groups := by
      intro p
      rw [hgroups]
      exact h.nodup.mem_erase_iff
    refine ⟨?_, fun p => ?_, fun p hp => ?_, fun i p hi => ?_, fun i j p hi hj => ?_, ?_, fun i p group name callback hi hp => ?_⟩
    · rw [hgroups]
      exact h.nodup.erase pGroup
    · rw [hleft]
      by_cases hp : p = pGroup
      · rw [hp, hself]
        exact iff_of_false (fun hne => hne.1 rfl) fun hne => hne rfl
      · rw [hother p hp, ← h.exists_iff]
        exact and_iff_right hp
    · obtain ⟨hne, hp⟩ := (hleft p).mp hp
      obtain ⟨i, hi⟩ := h.living p hp
      exact ⟨i, (hliving i p).mpr ⟨hi, hne⟩⟩
    · obtain ⟨hi, hne⟩ := (hliving i p).mp hi
      exact (hleft p).mpr ⟨hne, h.listed i p hi⟩
    · exact h.unique i j p ((hliving i p).mp hi).1 ((hliving j p).mp hj).1
    · rw [hgroups]
      refine (h.ordered.sublist (List.erase_sublist ..)).imp fun hbefore i j hi hj => ?_
      exact hbefore i j ((hliving i _).mp hi).1 ((hliving j _).mp hj).1
    · obtain ⟨hi, hne⟩ := (hliving i p).mp hi
      rw [hother p hne] at hp
      rw [registered_kept hi fun _ => by simp]
      exact h.commands i p group name callback hi hp
  · have hsame : r.destroyGroup pGroup = r := if_neg hmem
    rw [hsame]
    refine h.of_living rfl (fun _ => Iff.rfl) (fun i p => ?_) fun i p group name callback hi hp => ?_
    · rw [hliving]
      exact and_iff_left_of_imp fun hi heq => hmem (heq ▸ h.listed i p hi)
    · rw [registered_kept hi fun _ => by simp]
      exact h.commands i p group name callback hi hp

theorem registerCommand (h : r.Follows history) (hcall : r.registerCommand pGroup name callback = some r') :
    r'.Follows (history ++ [.registerCommand pGroup name callback]) := by
  obtain ⟨group, hgroup, hgroups, hself, hother⟩ := registerCommand_eq_some hcall
  have hliving : ∀ i p, Living (history ++ [RegistryCall.registerCommand pGroup name callback]) i p ↔ Living history i p := by
    intro i p
    rw [living_append]
    simp only [ne_eq, reduceCtorEq, not_false_eq_true, and_true, and_false, or_false]
  refine h.of_living hgroups (fun p => ?_) hliving fun i p other verb later hi hp => ?_
  · by_cases hp : p = pGroup
    · rw [hp, hself, hgroup]
      exact iff_of_false (Option.some_ne_none _) (Option.some_ne_none _)
    · rw [hother p hp]
  · by_cases hne : p = pGroup
    · subst hne
      cases hself.symm.trans hp
      unfold CGroup.registerCommand
      by_cases hverb : verb = name
      · subst hverb
        rw [registered_append hi.lt]
        simp only [Function.update_self, Option.some.injEq, RegistryCall.registerCommand.injEq, true_and]
        exact ⟨.inl, fun h => h.resolve_right fun hlast => hlast.2 callback rfl⟩
      · simp only [Function.update_of_ne hverb]
        rw [registered_kept hi fun _ heq => hverb (by cases heq; rfl)]
        exact h.commands i p group verb later hi hgroup
    · rw [hother p hne] at hp
      rw [registered_kept hi fun _ heq => hne (by cases heq; rfl)]
      exact h.commands i p other verb later hi hp

theorem step {call : RegistryCall Callback} {out : Unit} (h : r.Follows history) (hstep : r.step call = some (r', out)) :
    r'.Follows (history ++ [call]) := by
  cases call with
  | createGroup pGroup =>
    obtain ⟨r'', hcall, heq⟩ := Option.map_eq_some_iff.mp hstep
    cases heq
    exact h.createGroup hcall
  | destroyGroup pGroup =>
    cases hstep
    exact h.destroyGroup
  | registerCommand pGroup name callback =>
    obtain ⟨r'', hcall, heq⟩ := Option.map_eq_some_iff.mp hstep
    cases heq
    exact h.registerCommand hcall

theorem run {outs : List Unit} (hrun : (registry Callback).run {} history = some (r, outs)) : r.Follows history :=
  Machine.run_invariant (fun history _ r => Follows history r) [] [] (fun _ _ _ _ _ _ hr hstep => hr.step hstep) start hrun

end CRegistry.Follows

namespace CRegistry
variable {objects : Nat → Option (CGroup Callback)} {verb : List Char} {tokens : List (List Char)}

/-- Once a callback has run, the rest of the groups are passed over. -/
theorem executeFrom_true (groups : List Nat) (ran : List (Callback × List (List Char))) :
    executeFrom objects verb tokens groups true ran = some (true, ran) := by
  induction groups with
  | nil => rfl
  | cons pGroup rest ih => exact ih

/-- The loop finds the first group that has the verb. -/
theorem executeFrom_spec (verb : List Char) (tokens : List (List Char)) (groups : List Nat)
    (hexist : ∀ pGroup ∈ groups, objects pGroup ≠ none) :
    (executeFrom objects verb tokens groups false [] = some (false, []) ∧
      ∀ pGroup ∈ groups, ∀ group, objects pGroup = some group → group.commands verb = none) ∨
    ∃ before pGroup after group callback, groups = before ++ pGroup :: after ∧ objects pGroup = some group ∧
      group.commands verb = some callback ∧
      executeFrom objects verb tokens groups false [] = some (true, [(callback, tokens)]) ∧
      ∀ earlier ∈ before, ∀ group, objects earlier = some group → group.commands verb = none := by
  induction groups with
  | nil => exact .inl ⟨rfl, fun _ h => absurd h List.not_mem_nil⟩
  | cons pGroup rest ih =>
    obtain ⟨group, hgroup⟩ := Option.ne_none_iff_exists'.mp (hexist pGroup List.mem_cons_self)
    cases hverb : group.commands verb with
    | some callback =>
      have hstep : executeFrom objects verb tokens (pGroup :: rest) false [] =
          executeFrom objects verb tokens rest true [(callback, tokens)] := by
        simp [executeFrom, hgroup, hverb]
      rw [hstep]
      refine .inr ⟨[], pGroup, rest, group, callback, rfl, hgroup, hverb, executeFrom_true .., ?_⟩
      exact fun _ h => absurd h List.not_mem_nil
    | none =>
      have hstep : executeFrom objects verb tokens (pGroup :: rest) false [] =
          executeFrom objects verb tokens rest false [] := by
        simp [executeFrom, hgroup, hverb]
      have hhere : ∀ other, objects pGroup = some other → other.commands verb = none := by
        intro other hother
        cases hgroup.symm.trans hother
        exact hverb
      rw [hstep]
      rcases ih fun p hp => hexist p (List.mem_cons_of_mem _ hp) with ⟨hrun, hnone⟩ | hfound
      · refine .inl ⟨hrun, fun p hp => ?_⟩
        cases List.mem_cons.mp hp with
        | inl hfirst =>
          rw [hfirst]
          exact hhere
        | inr hrest => exact hnone p hrest
      · obtain ⟨before, found, after, group', callback, rfl, hgroup', hverb', hrun, hbefore⟩ := hfound
        refine .inr ⟨pGroup :: before, found, after, group', callback, rfl, hgroup', hverb', hrun, fun p hp => ?_⟩
        cases List.mem_cons.mp hp with
        | inl hfirst =>
          rw [hfirst]
          exact hhere
        | inr hrest => exact hbefore p hrest

end CRegistry

/-- The registry dispatches by its history. -/
theorem CRegistry.Follows.execute {history : List (RegistryCall Callback)} {r : CRegistry Callback} (h : r.Follows history)
    (commandLine : List Char) : ∃ executed ran, r.execute commandLine = some (executed, ran) ∧
      Dispatches history commandLine executed ran := by
  have hruns := tokenize_runs commandLine
  unfold CRegistry.execute
  cases htokens : tokenize commandLine with
  | nil =>
    rw [htokens] at hruns
    exact ⟨false, [], rfl, .empty hruns⟩
  | cons verb arguments =>
    rw [htokens] at hruns
    have hexist : ∀ pGroup ∈ r.groups, r.objects pGroup ≠ none := fun p hp => (h.exists_iff p).mp hp
    rcases CRegistry.executeFrom_spec verb (verb :: arguments) r.groups hexist with ⟨hrun, hnone⟩ | hfound
    · refine ⟨false, [], hrun, .unknown hruns fun callback hclaims => ?_⟩
      obtain ⟨i, pGroup, hliving, hregistered, -⟩ := hclaims
      have hmem := h.listed i pGroup hliving
      obtain ⟨group, hgroup⟩ := Option.ne_none_iff_exists'.mp (hexist pGroup hmem)
      have hcommand := (h.commands i pGroup group verb callback hliving hgroup).mpr hregistered
      rw [hnone pGroup hmem group hgroup] at hcommand
      cases hcommand
    · obtain ⟨before, pGroup, after, group, callback, hsplit, hgroup, hverb, hrun, hbefore⟩ := hfound
      have hmem : pGroup ∈ r.groups := hsplit ▸ List.mem_append_right before List.mem_cons_self
      obtain ⟨i, hliving⟩ := h.living pGroup hmem
      refine ⟨true, _, hrun, .found hruns ⟨i, pGroup, hliving,
        (h.commands i pGroup group verb callback hliving hgroup).mp hverb, fun i' hi' p' callback' hliving' hregistered => ?_⟩⟩
      have hmem' := h.listed i' p' hliving'
      obtain ⟨group', hgroup'⟩ := Option.ne_none_iff_exists'.mp (hexist p' hmem')
      have hcommand := (h.commands i' p' group' verb callback' hliving' hgroup').mpr hregistered
      have hordered := h.ordered
      rw [hsplit] at hmem' hordered
      cases List.mem_append.mp hmem' with
      | inl hearlier =>
        rw [hbefore p' hearlier group' hgroup'] at hcommand
        cases hcommand
      | inr hnotEarlier =>
        cases List.mem_cons.mp hnotEarlier with
        | inl hsame =>
          subst hsame
          exact absurd (h.unique i' i p' hliving' hliving) (Nat.ne_of_lt hi')
        | inr hlater =>
          have hpairs := List.pairwise_cons.mp (List.pairwise_append.mp hordered).2.1
          exact absurd (hpairs.1 p' hlater i i' hliving hliving') (Nat.not_lt_of_lt hi')

/-- For every history of groups and commands and every command line; and tokens that are joined by
blanks are split into the same tokens again. -/
theorem execute_dispatches (history : List (RegistryCall Callback)) (r : CRegistry Callback) (outs : List Unit)
    (hrun : (registry Callback).run {} history = some (r, outs)) :
    (∀ commandLine, ∃ executed ran, r.execute commandLine = some (executed, ran) ∧
      Dispatches history commandLine executed ran) ∧
    ∀ lead pieces, (∀ c ∈ lead, isBlank c = true) →
      (∀ piece ∈ pieces, piece.1 ≠ [] ∧ ∀ c ∈ piece.1, isBlank c = false) →
      (∀ piece ∈ pieces, ∀ c ∈ piece.2, isBlank c = true) → (pieces.IsChain fun piece _ => piece.2 ≠ []) →
      tokenize (joined lead pieces) = pieces.map Prod.fst :=
  ⟨(CRegistry.Follows.run hrun).execute, fun _ _ hlead hpieces hgaps hapart =>
    (tokenize_runs _).unique (.of_joined hlead hpieces hgaps hapart)⟩

/-- Two groups that both have a verb, for an example. The first has replaced its callback. -/
def sharedVerb : List (RegistryCall Nat) :=
  [.createGroup 1, .createGroup 2, .registerCommand 2 ['v'] 20, .registerCommand 1 ['v'] 10, .registerCommand 1 ['v'] 11]

theorem execute_dispatches_shared : ∃ r outs, (registry Nat).run {} sharedVerb = some (r, outs) ∧
    r.execute [' ', 'v', '\t', ' ', 'x'] = some (true, [(11, [['v'], ['x']])]) ∧
    (∃ executed ran, r.execute [' ', 'v', '\t', ' ', 'x'] = some (executed, ran) ∧
      Dispatches sharedVerb [' ', 'v', '\t', ' ', 'x'] executed ran) ∧
    tokenize (joined [' '] [(['v'], ['\t', ' ']), (['x'], [])]) = [['v'], ['x']] := by
  obtain ⟨⟨r, outs⟩, hrun, hran⟩ := Option.map_eq_some_iff.mp (show ((registry Nat).run {} sharedVerb).map
    (fun last => last.1.execute [' ', 'v', '\t', ' ', 'x']) = some (some (true, [(11, [['v'], ['x']])])) from rfl)
  obtain ⟨hdispatches, hjoined⟩ := execute_dispatches sharedVerb r outs hrun
  exact ⟨r, outs, hrun, hran, hdispatches _, hjoined _ _ (by simp [isBlank]) (by simp [isBlank]) (by simp [isBlank]) (by decide)⟩

end TgeCore.Command
