import Mathlib.Data.Option.Basic

namespace TgeCore.Library

/-- A machine driven by inputs. An input the machine cannot take where it stands has no step. -/
structure Machine (σ ι ω : Type*) where
  step : σ → ι → Option (σ × ω)

namespace Machine
variable {σ τ ι ω : Type*} (M : Machine σ ι ω)

/-- The state after a list of inputs and what each of them gave. -/
def run : σ → List ι → Option (σ × List ω)
  | s, [] => some (s, [])
  | s, i :: is => (M.step s i).bind fun next => (run next.1 is).map fun rest =>
      (rest.1, next.2 :: rest.2)

variable {M}

theorem run_cons_eq_some {s t : σ} {i : ι} {is : List ι} {os : List ω} :
    M.run s (i :: is) = some (t, os) ↔
      ∃ s' o os', M.step s i = some (s', o) ∧ M.run s' is = some (t, os') ∧ os = o :: os' := by
  simp only [run, Option.bind_eq_some_iff, Option.map_eq_some_iff, Prod.mk.injEq, Prod.exists]
  constructor
  · rintro ⟨s', o, hs, t', os', hr, rfl, rfl⟩
    exact ⟨s', o, os', hs, hr, rfl⟩
  · rintro ⟨s', o, os', hs, hr, rfl⟩
    exact ⟨s', o, hs, t, os', hr, rfl, rfl⟩

/-- What holds at the start and is kept by every step, given what was put in and
what came out so far, holds after every run. -/
theorem run_invariant (Inv : List ι → List ω → σ → Prop) (pre : List ι) (got : List ω)
    (hstep : ∀ is os s i t o, Inv is os s → M.step s i = some (t, o) → Inv (is ++ [i]) (os ++ [o]) t)
    {s t : σ} {is : List ι} {os : List ω}
    (hs : Inv pre got s) (hr : M.run s is = some (t, os)) : Inv (pre ++ is) (got ++ os) t := by
  induction is generalizing pre got s os with
  | nil =>
    obtain ⟨rfl, rfl⟩ : s = t ∧ [] = os := by simpa [run] using hr
    simpa using hs
  | cons i is ih =>
    obtain ⟨s', o, os', hone, hrest, rfl⟩ := run_cons_eq_some.mp hr
    simpa using ih _ _ (hstep _ _ _ _ _ _ hs hone) hrest

theorem run_keeps (Inv : σ → Prop) (hstep : ∀ s i t o, Inv s → M.step s i = some (t, o) → Inv t)
    {s t : σ} {is : List ι} {os : List ω} (hs : Inv s) (hr : M.run s is = some (t, os)) : Inv t :=
  run_invariant (fun _ _ s => Inv s) [] [] (fun _ _ s i t o => hstep s i t o) hs hr

/-- Every step of a run meets a condition on the state it starts in and its input. -/
def Along (M : Machine σ ι ω) (P : σ → ι → Prop) : σ → List ι → Prop
  | _, [] => True
  | s, i :: is => P s i ∧ ∀ next ∈ M.step s i, Along M P next.1 is

instance Along.decidable (P : σ → ι → Prop) [∀ s i, Decidable (P s i)] :
    ∀ (s : σ) (is : List ι), Decidable (M.Along P s is)
  | _, [] => isTrue trivial
  | s, i :: is =>
    have := fun next : σ × ω => Along.decidable P next.1 is
    inferInstanceAs (Decidable (P s i ∧ ∀ next ∈ M.step s i, Along M P next.1 is))

/-- What is kept by every step that meets a condition holds after a run whose
steps all meet it. -/
theorem Along.keeps {P : σ → ι → Prop} (Inv : σ → Prop)
    (hstep : ∀ s i t o, Inv s → P s i → M.step s i = some (t, o) → Inv t)
    {s t : σ} {is : List ι} {os : List ω} (hp : M.Along P s is) (hs : Inv s)
    (hr : M.run s is = some (t, os)) : Inv t := by
  induction is generalizing s os with
  | nil =>
    obtain ⟨rfl, rfl⟩ : s = t ∧ [] = os := by simpa [run] using hr
    exact hs
  | cons i is ih =>
    obtain ⟨s', o, os', hone, hrest, rfl⟩ := run_cons_eq_some.mp hr
    exact ih (hp.2 (s', o) hone) (hstep s i s' o hs hp.1 hone) hrest

/-- A condition that each step meets, from states that another one keeps, is met
along every run the other one is met along. -/
theorem Along.imp {P Q : σ → ι → Prop} (Inv : σ → Prop)
    (hstep : ∀ s i t o, Inv s → M.step s i = some (t, o) → P s i → Q s i ∧ Inv t)
    {s t : σ} {is : List ι} {os : List ω} (hs : Inv s) (hr : M.run s is = some (t, os))
    (hp : M.Along P s is) : M.Along Q s is := by
  induction is generalizing s os with
  | nil => trivial
  | cons i is ih =>
    obtain ⟨s', o, os', hone, hrest, rfl⟩ := run_cons_eq_some.mp hr
    obtain ⟨hp, hps⟩ := hp
    obtain ⟨hq, hkept⟩ := hstep s i s' o hs hone hp
    simp only [Along, hone, Option.mem_some_iff, forall_eq'] at hps ⊢
    exact ⟨hq, ih hkept hrest hps⟩

/-- Two conditions agree along a run if they agree at each step taken from states
that meeting one of them keeps. -/
theorem Along.congr {P Q : σ → ι → Prop} (Inv : σ → Prop)
    (hstep : ∀ s i t o, Inv s → M.step s i = some (t, o) → (P s i ↔ Q s i) ∧ (Q s i → Inv t))
    {s t : σ} {is : List ι} {os : List ω} (hs : Inv s) (hr : M.run s is = some (t, os)) :
    M.Along P s is ↔ M.Along Q s is := by
  induction is generalizing s os with
  | nil => exact Iff.rfl
  | cons i is ih =>
    obtain ⟨s', o, os', hone, hrest, rfl⟩ := run_cons_eq_some.mp hr
    obtain ⟨hiff, hkeep⟩ := hstep s i s' o hs hone
    simp only [Along, hone, Option.mem_some_iff, forall_eq']
    rw [hiff]
    exact and_congr_right fun hq => ih (hkeep hq) hrest

/-- The same of every run, also of one that ends where the machine has no step. -/
theorem Along.iff {P Q : σ → ι → Prop} (Inv : σ → Prop) (hiff : ∀ s i, Inv s → (P s i ↔ Q s i))
    (hstep : ∀ s i t o, Inv s → M.step s i = some (t, o) → Inv t) {s : σ} (hs : Inv s) (is : List ι) :
    M.Along P s is ↔ M.Along Q s is := by
  induction is generalizing s with
  | nil => exact Iff.rfl
  | cons i is ih =>
    simp only [Along]
    rw [hiff s i hs]
    exact and_congr_right fun _ => forall₂_congr fun next hnext => ih (hstep s i next.1 next.2 hs hnext)

theorem run_append {s t u : σ} {is js : List ι} {os os' : List ω} (h : M.run s is = some (t, os))
    (h' : M.run t js = some (u, os')) : M.run s (is ++ js) = some (u, os ++ os') := by
  induction is generalizing s os with
  | nil =>
    obtain ⟨rfl, rfl⟩ : s = t ∧ [] = os := by simpa [run] using h
    exact h'
  | cons i is ih =>
    obtain ⟨s', o, os₁, hone, hrest, rfl⟩ := run_cons_eq_some.mp h
    exact run_cons_eq_some.mpr ⟨s', o, os₁ ++ os', hone, ih hrest, rfl⟩

/-- A run over two lists of inputs goes through the state after the first. -/
theorem run_append_eq_some {s u : σ} {is js : List ι} {os : List ω} :
    M.run s (is ++ js) = some (u, os) ↔
      ∃ t os₁ os₂, M.run s is = some (t, os₁) ∧ M.run t js = some (u, os₂) ∧ os = os₁ ++ os₂ := by
  constructor
  · intro h
    induction is generalizing s os with
    | nil => exact ⟨s, [], os, rfl, h, rfl⟩
    | cons i is ih =>
      obtain ⟨s', o, os', hone, hrest, rfl⟩ := run_cons_eq_some.mp h
      obtain ⟨t, os₁, os₂, h₁, h₂, rfl⟩ := ih hrest
      exact ⟨t, o :: os₁, os₂, run_cons_eq_some.mpr ⟨s', o, os₁, hone, h₁, rfl⟩, h₂, rfl⟩
  · rintro ⟨t, os₁, os₂, h₁, h₂, rfl⟩
    exact run_append h₁ h₂

/-- A run goes through the step that gave the last of its outputs. -/
theorem run_last {s u : σ} {is : List ι} {os : List ω} {o : ω} (h : M.run s is = some (u, os ++ [o])) :
    ∃ before i t, is = before ++ [i] ∧ M.run s before = some (t, os) ∧ M.step t i = some (u, o) := by
  rcases is.eq_nil_or_concat with rfl | ⟨before, i, rfl⟩
  · simp [run] at h
  · rw [List.concat_eq_append] at h ⊢
    obtain ⟨t, os₁, os₂, h₁, h₂, hos⟩ := run_append_eq_some.mp h
    obtain ⟨t', o', os', hstep, hend, rfl⟩ := run_cons_eq_some.mp h₂
    obtain ⟨rfl, rfl⟩ : t' = u ∧ [] = os' := by simpa [run] using hend
    obtain ⟨rfl, hlast⟩ := List.append_inj' hos rfl
    obtain rfl := (List.cons.inj hlast).1
    exact ⟨before, i, t, rfl, h₁, hstep⟩

/-- A run goes through the step that gave an output of it, with the inputs of its parts. -/
theorem run_splits {s t : σ} {is : List ι} {before after : List ω} {o : ω}
    (hr : M.run s is = some (t, before ++ o :: after)) :
    ∃ is₁ i is₂ u u', is = is₁ ++ i :: is₂ ∧ M.run s is₁ = some (u, before) ∧ M.step u i = some (u', o) ∧
      M.run u' is₂ = some (t, after) := by
  induction before generalizing s is with
  | nil =>
    cases is with
    | nil => cases hr
    | cons i is =>
      obtain ⟨u', o', os, hone, hrest, heq⟩ := run_cons_eq_some.mp hr
      obtain ⟨rfl, rfl⟩ := List.cons.inj heq
      exact ⟨[], i, is, s, u', rfl, rfl, hone, hrest⟩
  | cons p before ih =>
    cases is with
    | nil => cases hr
    | cons j is =>
      obtain ⟨s', o', os, hone, hrest, heq⟩ := run_cons_eq_some.mp hr
      obtain ⟨rfl, rfl⟩ := List.cons.inj heq
      obtain ⟨is₁, i, is₂, u, u', rfl, hbefore, hst, hafter⟩ := ih hrest
      exact ⟨j :: is₁, i, is₂, u, u', rfl, run_cons_eq_some.mpr ⟨s', p, before, hone, hbefore, rfl⟩, hst, hafter⟩

theorem run_output_eq_some {s u : σ} {is : List ι} {before after : List ω} {o : ω}
    (h : M.run s is = some (u, before ++ o :: after)) :
    ∃ is₁ i is₂ t t', M.run s is₁ = some (t, before) ∧ M.step t i = some (t', o) ∧
      M.run t' is₂ = some (u, after) := by
  obtain ⟨is₁, i, is₂, t, t', -, hsplit⟩ := run_splits h
  exact ⟨is₁, i, is₂, t, t', hsplit⟩

/-- A run goes through the state after each part of its outputs. -/
theorem run_outputs_eq_some {s u : σ} {is : List ι} {before after : List ω}
    (h : M.run s is = some (u, before ++ after)) :
    ∃ is₁ is₂ t, M.run s is₁ = some (t, before) ∧ M.run t is₂ = some (u, after) := by
  cases after with
  | nil => exact ⟨is, [], u, by rwa [List.append_nil] at h, rfl⟩
  | cons o after =>
    obtain ⟨is₁, i, is₂, t, t', h₁, hst, h₂⟩ := run_output_eq_some h
    exact ⟨is₁, i :: is₂, t, h₁, run_cons_eq_some.mpr ⟨t', o, after, hst, h₂, rfl⟩⟩

theorem run_concat {s t u : σ} {is : List ι} {os : List ω} {i : ι} {o : ω}
    (h : M.run s is = some (t, os)) (hstep : M.step t i = some (u, o)) :
    M.run s (is ++ [i]) = some (u, os ++ [o]) :=
  run_append h (run_cons_eq_some.mpr ⟨u, o, [], hstep, rfl, rfl⟩)

/-- Some inputs lead from one state to the other. -/
def Leads (M : Machine σ ι ω) (s t : σ) : Prop := ∃ is os, M.run s is = some (t, os)

theorem Leads.refl (s : σ) : M.Leads s s := ⟨[], [], rfl⟩

theorem Leads.trans {s t u : σ} (h : M.Leads s t) (h' : M.Leads t u) : M.Leads s u := by
  obtain ⟨is, os, hr⟩ := h
  obtain ⟨js, os', hr'⟩ := h'
  exact ⟨is ++ js, os ++ os', run_append hr hr'⟩

theorem Leads.head {s t u : σ} {i : ι} {o : ω} (h : M.step s i = some (t, o)) (h' : M.Leads t u) :
    M.Leads s u := by
  obtain ⟨is, os, hr⟩ := h'
  exact ⟨i :: is, o :: os, run_cons_eq_some.mpr ⟨t, o, os, h, hr, rfl⟩⟩

/-- Some inputs make the machine give an output. -/
def MayGive (M : Machine σ ι ω) (s : σ) (o : ω) : Prop := ∃ is os t, M.run s is = some (t, os) ∧ o ∈ os

theorem MayGive.after {s t : σ} {is : List ι} {os : List ω} {o : ω} (h : M.run s is = some (t, os))
    (h' : M.MayGive t o) : M.MayGive s o := by
  obtain ⟨js, os', u, hr, ho⟩ := h'
  exact ⟨is ++ js, os ++ os', u, run_append h hr, List.mem_append_right os ho⟩

theorem MayGive.later {s t : σ} {i : ι} {o o' : ω} (h : M.step s i = some (t, o'))
    (h' : M.MayGive t o) : M.MayGive s o := by
  obtain ⟨is, os, u, hr, ho⟩ := h'
  exact ⟨i :: is, o' :: os, u, run_cons_eq_some.mpr ⟨t, o', os, h, hr, rfl⟩, List.mem_cons_of_mem o' ho⟩

/-- Inputs that are possible in every state make a run. -/
theorem run_exists (is : List ι) (h : ∀ i ∈ is, ∀ s, ∃ t o, M.step s i = some (t, o)) (s : σ) :
    ∃ t os, M.run s is = some (t, os) := by
  induction is generalizing s with
  | nil => exact ⟨s, [], rfl⟩
  | cons i is ih =>
    obtain ⟨t, o, ht⟩ := h i (by simp) s
    obtain ⟨u, os, hu⟩ := ih (fun j hj => h j (by simp [hj])) t
    exact ⟨u, o :: os, run_cons_eq_some.mpr ⟨t, o, os, ht, hu, rfl⟩⟩

/-- Two machines take the same inputs with the same results. The relation that
shows it may look at the inputs still to come. -/
structure Simulates (M : Machine σ ι ω) (N : Machine τ ι ω) (R : List ι → σ → τ → Prop) : Prop where
  step : ∀ i is s t, R (i :: is) s t →
    (M.step s i = none ∧ N.step t i = none) ∨
      ∃ s' t' o, M.step s i = some (s', o) ∧ N.step t i = some (t', o) ∧ R is s' t'

variable {N : Machine τ ι ω} {R : List ι → σ → τ → Prop}

/-- Related machines answer every list of inputs alike and stay related. -/
theorem Simulates.run (h : Simulates M N R) {is : List ι} {s : σ} {t : τ} (hR : R is s t) :
    (M.run s is = none ∧ N.run t is = none) ∨
      ∃ s' t' os, M.run s is = some (s', os) ∧ N.run t is = some (t', os) ∧ R [] s' t' := by
  induction is generalizing s t with
  | nil => exact .inr ⟨s, t, [], rfl, rfl, hR⟩
  | cons i is ih =>
    rcases h.step i is s t hR with ⟨hs, ht⟩ | ⟨s', t', o, hs, ht, hnext⟩
    · exact .inl ⟨by simp [Machine.run, hs], by simp [Machine.run, ht]⟩
    · rcases ih hnext with ⟨hs', ht'⟩ | ⟨s'', t'', os, hs', ht', hend⟩
      · exact .inl ⟨by simp [Machine.run, hs, hs'], by simp [Machine.run, ht, ht']⟩
      · exact .inr ⟨s'', t'', o :: os, by simp [Machine.run, hs, hs'],
          by simp [Machine.run, ht, ht'], hend⟩

theorem Simulates.outputs (h : Simulates M N R) {is : List ι} {s : σ} {t : τ} (hR : R is s t) :
    (M.run s is).map Prod.snd = (N.run t is).map Prod.snd := by
  rcases h.run hR with ⟨hs, ht⟩ | ⟨s', t', os, hs, ht, _⟩
  · rw [hs, ht]
    rfl
  · rw [hs, ht]
    rfl

end Machine

end TgeCore.Library
