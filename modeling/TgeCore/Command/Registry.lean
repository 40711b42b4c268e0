import TgeCore.Library.Machine
import TgeCore.Library.Runs

namespace TgeCore.Command
open Library

def isBlank (character : Char) : Bool := character == ' ' || character == '\t'

/-- Tokenize's loop, with the tokens so far and the one that is being read. -/
def tokenizeFrom : List Char → List (List Char) → List Char → List (List Char)
  | [], tokens, token => if token ≠ [] then tokens ++ [token] else tokens
  | character :: rest, tokens, token =>
    if isBlank character then
      if token ≠ [] then tokenizeFrom rest (tokens ++ [token]) [] else tokenizeFrom rest tokens token
    else tokenizeFrom rest tokens (token ++ [character])

def tokenize (commandLine : List Char) : List (List Char) := tokenizeFrom commandLine [] []

/-- A group's commands. -/
structure CGroup (Callback : Type*) where
  commands : List Char → Option Callback

variable {Callback : Type*}

def CGroup.new : CGroup Callback := ⟨fun _ => none⟩

/-- The callback takes the place of one that has the name already. -/
def CGroup.registerCommand (group : CGroup Callback) (name : List Char) (callback : Callback) : CGroup Callback :=
  ⟨Function.update group.commands name (some callback)⟩

/-- The registry, which points to groups, and the groups that exist. -/
structure CRegistry (Callback : Type*) where
  groups : List Nat := []
  objects : Nat → Option (CGroup Callback) := fun _ => none

inductive RegistryCall (Callback : Type*) where
  | createGroup (pGroup : Nat)
  | destroyGroup (pGroup : Nat)
  | registerCommand (pGroup : Nat) (name : List Char) (callback : Callback)

namespace CRegistry

/-- Where the new group is, is for the allocator to say. It is where no other group is. -/
def createGroup (r : CRegistry Callback) (pGroup : Nat) : Option (CRegistry Callback) :=
  match r.objects pGroup with
  | some _ => none
  | none => some { groups := r.groups ++ [pGroup], objects := Function.update r.objects pGroup (some .new) }

def destroyGroup (r : CRegistry Callback) (pGroup : Nat) : CRegistry Callback :=
  if pGroup ∈ r.groups then { groups := r.groups.erase pGroup, objects := Function.update r.objects pGroup none } else r

/-- A group that does not exist has no member functions. -/
def registerCommand (r : CRegistry Callback) (pGroup : Nat) (name : List Char) (callback : Callback) :
    Option (CRegistry Callback) :=
  (r.objects pGroup).map fun group =>
    { r with objects := Function.update r.objects pGroup (some (group.registerCommand name callback)) }

/-- Execute's loop over the groups: whether a callback has run, and those that have, with their arguments. -/
def executeFrom (objects : Nat → Option (CGroup Callback)) (verb : List Char) (tokens : List (List Char)) :
    List Nat → Bool → List (Callback × List (List Char)) → Option (Bool × List (Callback × List (List Char)))
  | [], executed, ran => some (executed, ran)
  | pGroup :: rest, executed, ran =>
    if !executed then
      (objects pGroup).bind fun group =>
        match group.commands verb with
        | some callback => executeFrom objects verb tokens rest true (ran ++ [(callback, tokens)])
        | none => executeFrom objects verb tokens rest executed ran
    else executeFrom objects verb tokens rest executed ran

/-- What Execute returns and the callbacks it runs. -/
def execute (r : CRegistry Callback) (commandLine : List Char) :
    Option (Bool × List (Callback × List (List Char))) :=
  match tokenize commandLine with
  | [] => some (false, [])
  | verb :: arguments => executeFrom r.objects verb (verb :: arguments) r.groups false []

def step (r : CRegistry Callback) : RegistryCall Callback → Option (CRegistry Callback × Unit)
  | .createGroup pGroup => (r.createGroup pGroup).map (·, ())
  | .destroyGroup pGroup => some (r.destroyGroup pGroup, ())
  | .registerCommand pGroup name callback => (r.registerCommand pGroup name callback).map (·, ())

end CRegistry

def registry (Callback : Type*) : Machine (CRegistry Callback) (RegistryCall Callback) Unit := ⟨CRegistry.step⟩

section History
variable (history : List (RegistryCall Callback))

/-- The group that the call with this number has created is where it was put. -/
def Living (i pGroup : Nat) : Prop :=
  history[i]? = some (.createGroup pGroup) ∧ ∀ j > i, history[j]? ≠ some (.destroyGroup pGroup)

/-- Since then the callback is the last that was registered there under the name. -/
def Registered (i pGroup : Nat) (name : List Char) (callback : Callback) : Prop :=
  ∃ j > i, history[j]? = some (.registerCommand pGroup name callback) ∧
    ∀ k > j, ∀ later, history[k]? ≠ some (.registerCommand pGroup name later)

/-- The callback is that of the earliest living group that has one for the verb. -/
def Claims (verb : List Char) (callback : Callback) : Prop :=
  ∃ i pGroup, Living history i pGroup ∧ Registered history i pGroup verb callback ∧
    ∀ i' < i, ∀ pGroup' callback', Living history i' pGroup' → ¬Registered history i' pGroup' verb callback'

end History

/-- What comes of a command line: nothing runs, or the one callback that its first token is for, which
gets all the tokens. -/
inductive Dispatches (history : List (RegistryCall Callback)) (commandLine : List Char) :
    Bool → List (Callback × List (List Char)) → Prop where
  | empty (htokens : Runs isBlank commandLine []) : Dispatches history commandLine false []
  | found {verb : List Char} {arguments : List (List Char)} {callback : Callback}
      (htokens : Runs isBlank commandLine (verb :: arguments)) (hclaims : Claims history verb callback) :
      Dispatches history commandLine true [(callback, verb :: arguments)]
  | unknown {verb : List Char} {arguments : List (List Char)} (htokens : Runs isBlank commandLine (verb :: arguments))
      (hnone : ∀ callback, ¬Claims history verb callback) : Dispatches history commandLine false []

section Tokenize

/-- The token that is being read goes on with the rest of the line. -/
theorem tokenizeFrom_runs (line : List Char) (tokens : List (List Char)) (token : List Char)
    (htoken : ∀ c ∈ token, isBlank c = false) :
    ∃ found, tokenizeFrom line tokens token = tokens ++ found ∧ Runs isBlank (token ++ line) found := by
  induction line generalizing tokens token with
  | nil =>
    rw [tokenizeFrom]
    split
    · rename_i hne
      exact ⟨[token], rfl, .cons_run hne htoken (fun _ hc => nomatch hc) (.gap fun _ hc => absurd hc List.not_mem_nil)⟩
    · rename_i hempty
      rw [not_not.mp hempty]
      exact ⟨[], (List.append_nil _).symm, .gap fun _ hc => absurd hc List.not_mem_nil⟩
  | cons character rest ih =>
    rw [tokenizeFrom]
    cases hblank : isBlank character with
    | true =>
      rw [if_pos rfl]
      split
      · rename_i hne
        obtain ⟨found, hfound, hruns⟩ := ih (tokens ++ [token]) [] fun _ hc => absurd hc List.not_mem_nil
        refine ⟨token :: found, ?_, .cons_run hne htoken (fun c hc => ?_) (hruns.cons_blank hblank)⟩
        · rw [hfound, List.append_assoc, List.singleton_append]
        · cases hc
          exact hblank
      · rename_i hempty
        rw [not_not.mp hempty]
        obtain ⟨found, hfound, hruns⟩ := ih tokens [] fun _ hc => absurd hc List.not_mem_nil
        exact ⟨found, hfound, hruns.cons_blank hblank⟩
    | false =>
      rw [if_neg Bool.false_ne_true]
      obtain ⟨found, hfound, hruns⟩ := ih tokens (token ++ [character]) fun c hc => by
        cases List.mem_append.mp hc with
        | inl hbefore => exact htoken c hbefore
        | inr hnew => rwa [List.mem_singleton.mp hnew]
      rw [List.append_assoc, List.singleton_append] at hruns
      exact ⟨found, hfound, hruns⟩

theorem tokenize_runs (commandLine : List Char) : Runs isBlank commandLine (tokenize commandLine) := by
  obtain ⟨found, hfound, hruns⟩ := tokenizeFrom_runs commandLine [] [] fun _ hc => absurd hc List.not_mem_nil
  unfold tokenize
  rw [hfound]
  exact hruns

end Tokenize

end TgeCore.Command
