import Mathlib.Data.List.Induction

namespace TgeCore.Library

/-- A path as it is written: names, from the top or from where one is. -/
structure LinkPath where
  isAbsolute : Bool
  names : List String
deriving DecidableEq

/-- The folder in which the first name stands. -/
def LinkPath.start (path : LinkPath) (folder : List String) : List String := if path.isAbsolute then [] else folder

inductive LinkEntry where
  | folder
  | file (id : Nat)
  | link (target : LinkPath)
deriving DecidableEq

/-- Folders, files and symbolic links, each under its names from the top on. What has a name
stands in a folder, and no name is empty or that of a folder itself or of the one above it. -/
structure LinkTree where
  entries : List String → Option LinkEntry
  top : entries [] = some .folder
  placed : ∀ folder name, entries (folder ++ [name]) ≠ none →
    entries folder = some .folder ∧ name ≠ "" ∧ name ≠ "." ∧ name ≠ ".."

/-- Where a path leads: to a folder or a file, to a name that a folder does not have, or nowhere. -/
inductive Walked where
  | folder (location : List String)
  | file (location : List String) (id : Nat)
  | absent (location : List String)
  | failed
deriving DecidableEq

/-- Another file at the end of the way, where it is this one. -/
def Walked.replaced (location : List String) (id : Nat) : Walked → Walked
  | .file place old => .file place (if place = location then id else old)
  | walked => walked

namespace LinkTree

/-- From a folder on. Where a link stands, `follow` goes on with what it says. -/
def walkNames (entries : List String → Option LinkEntry) (follow : List String → List String → Walked) :
    List String → List String → Walked
  | folder, [] => .folder folder
  | folder, name :: rest =>
    if name = "." then walkNames entries follow folder rest
    else if name = ".." then walkNames entries follow folder.dropLast rest
    else
      match entries (folder ++ [name]) with
      | none => if rest = [] then .absent (folder ++ [name]) else .failed
      | some .folder => walkNames entries follow (folder ++ [name]) rest
      | some (.file id) => if rest = [] then .file (folder ++ [name]) id else .failed
      | some (.link target) => follow (target.start folder) (target.names ++ rest)

/-- The same, over so many links at most. -/
def walk (entries : List String → Option LinkEntry) : Nat → List String → List String → Walked
  | 0 => walkNames entries fun _ _ => .failed
  | budget + 1 => walkNames entries (walk entries budget)

/-- A file in the place of what has the name. -/
def putFile (entries : List String → Option LinkEntry) (location : List String) (id : Nat) :
    List String → Option LinkEntry := Function.update entries location (some (.file id))

variable {entries : List String → Option LinkEntry} {folder names rest location : List String}
  {name : String} {budget : Nat}

theorem walk_nil (entries : List String → Option LinkEntry) (budget : Nat) (folder : List String) :
    walk entries budget folder [] = .folder folder := by
  cases budget with
  | zero => rfl
  | succ budget => rfl

theorem walk_here (entries : List String → Option LinkEntry) (budget : Nat) (folder rest : List String) :
    walk entries budget folder ("." :: rest) = walk entries budget folder rest := by
  cases budget with
  | zero => rfl
  | succ budget => rfl

theorem walk_up (entries : List String → Option LinkEntry) (budget : Nat) (folder rest : List String) :
    walk entries budget folder (".." :: rest) = walk entries budget folder.dropLast rest := by
  cases budget with
  | zero => rfl
  | succ budget => rfl

/-- What a walk does at a name. -/
theorem walk_name (entries : List String → Option LinkEntry) (budget : Nat) (folder rest : List String)
    (hhere : name ≠ ".") (hup : name ≠ "..") : walk entries budget folder (name :: rest) =
      match entries (folder ++ [name]) with
      | none => if rest = [] then .absent (folder ++ [name]) else .failed
      | some .folder => walk entries budget (folder ++ [name]) rest
      | some (.file id) => if rest = [] then .file (folder ++ [name]) id else .failed
      | some (.link target) =>
        match budget with
        | 0 => .failed
        | budget + 1 => walk entries budget (target.start folder) (target.names ++ rest) := by
  cases budget with
  | zero =>
    simp only [walk]
    rw [walkNames, if_neg hhere, if_neg hup]
  | succ budget =>
    simp only [walk]
    rw [walkNames, if_neg hhere, if_neg hup]

section Name
variable (hhere : name ≠ ".") (hup : name ≠ "..")
include hhere hup

theorem walk_none (hentry : entries (folder ++ [name]) = none) :
    walk entries budget folder (name :: rest) = if rest = [] then .absent (folder ++ [name]) else .failed := by
  rw [walk_name _ _ _ _ hhere hup, hentry]

theorem walk_folder (hentry : entries (folder ++ [name]) = some .folder) :
    walk entries budget folder (name :: rest) = walk entries budget (folder ++ [name]) rest := by
  rw [walk_name _ _ _ _ hhere hup, hentry]

theorem walk_file {id : Nat} (hentry : entries (folder ++ [name]) = some (.file id)) :
    walk entries budget folder (name :: rest) = if rest = [] then .file (folder ++ [name]) id else .failed := by
  rw [walk_name _ _ _ _ hhere hup, hentry]

theorem walk_link {target : LinkPath} (hentry : entries (folder ++ [name]) = some (.link target)) :
    walk entries (budget + 1) folder (name :: rest) =
      walk entries budget (target.start folder) (target.names ++ rest) := by
  rw [walk_name _ _ _ _ hhere hup, hentry]

theorem walk_link_zero {target : LinkPath} (hentry : entries (folder ++ [name]) = some (.link target)) :
    walk entries 0 folder (name :: rest) = .failed := by
  rw [walk_name _ _ _ _ hhere hup, hentry]

end Name

/-- A proof about walks goes by the links, and between two links by the names. -/
theorem walk_induction {motive : Nat → List String → List String → Prop} (nil : ∀ budget folder, motive budget folder [])
    (here : ∀ budget folder rest, motive budget folder rest → motive budget folder ("." :: rest))
    (up : ∀ budget folder rest, motive budget folder.dropLast rest → motive budget folder (".." :: rest))
    (into : ∀ budget folder name rest, name ≠ "." → name ≠ ".." → motive budget (folder ++ [name]) rest →
      (∀ less < budget, ∀ start names, motive less start names) → motive budget folder (name :: rest))
    (budget : Nat) (folder names : List String) : motive budget folder names := by
  induction budget using Nat.strongRecOn generalizing folder names with
  | ind budget ih =>
    induction names generalizing folder with
    | nil => exact nil budget folder
    | cons name rest ihrest =>
      by_cases hhere : name = "."
      · rw [hhere]
        exact here budget folder rest (ihrest folder)
      · by_cases hup : name = ".."
        · rw [hup]
          exact up budget folder rest (ihrest folder.dropLast)
        · exact into budget folder name rest hhere hup (ihrest (folder ++ [name])) fun less hless => ih less hless

/-- More links than needed do no harm. -/
theorem walk_succ (budget : Nat) (folder names : List String) (h : walk entries budget folder names ≠ .failed) :
    walk entries (budget + 1) folder names = walk entries budget folder names := by
  induction budget, folder, names using walk_induction with
  | nil budget folder => rw [walk_nil, walk_nil]
  | here budget folder rest ih =>
    rw [walk_here] at h
    rw [walk_here, walk_here, ih h]
  | up budget folder rest ih =>
    rw [walk_up] at h
    rw [walk_up, walk_up, ih h]
  | into budget folder name rest hhere hup ih ihless =>
    cases hentry : entries (folder ++ [name]) with
    | none => rw [walk_none hhere hup hentry, walk_none hhere hup hentry]
    | some entry =>
      cases entry with
      | folder =>
        rw [walk_folder hhere hup hentry] at h
        rw [walk_folder hhere hup hentry, walk_folder hhere hup hentry, ih h]
      | file id => rw [walk_file hhere hup hentry, walk_file hhere hup hentry]
      | link target =>
        cases budget with
        | zero => exact absurd (walk_link_zero hhere hup hentry) h
        | succ budget =>
          rw [walk_link hhere hup hentry] at h
          rw [walk_link hhere hup hentry, walk_link hhere hup hentry, ihless budget (Nat.lt_succ_self budget) _ _ h]

theorem walk_mono {more : Nat} (hmore : budget ≤ more) (h : walk entries budget folder names ≠ .failed) :
    walk entries more folder names = walk entries budget folder names := by
  induction hmore with
  | refl => rfl
  | step hmore ih =>
    rw [walk_succ _ folder names, ih]
    rw [ih]
    exact h

/-- A path leads to one place only, over however many links one may go. -/
theorem walk_unique {budget' : Nat} (h : walk entries budget folder names ≠ .failed)
    (h' : walk entries budget' folder names ≠ .failed) :
    walk entries budget folder names = walk entries budget' folder names := by
  cases Nat.le_total budget budget' with
  | inl hle => exact (walk_mono hle h).symm
  | inr hle => exact walk_mono hle h'

/-- A path to a folder goes through a folder at each of its names. -/
theorem walk_append (budget : Nat) (folder names : List String) {rest location : List String}
    (h : walk entries budget folder (names ++ rest) = .folder location) :
    ∃ middle budget', walk entries budget folder names = .folder middle ∧
      walk entries budget' middle rest = .folder location := by
  induction budget, folder, names using walk_induction generalizing rest with
  | nil budget folder => exact ⟨folder, budget, walk_nil .., h⟩
  | here budget folder names ih =>
    rw [List.cons_append, walk_here] at h
    rw [walk_here]
    exact ih h
  | up budget folder names ih =>
    rw [List.cons_append, walk_up] at h
    rw [walk_up]
    exact ih h
  | into budget folder name names hhere hup ih ihless =>
    rw [List.cons_append] at h
    cases hentry : entries (folder ++ [name]) with
    | none =>
      rw [walk_none hhere hup hentry] at h
      split at h
      · cases h
      · cases h
    | some entry =>
      cases entry with
      | folder =>
        rw [walk_folder hhere hup hentry] at h
        rw [walk_folder hhere hup hentry]
        exact ih h
      | file id =>
        rw [walk_file hhere hup hentry] at h
        split at h
        · cases h
        · cases h
      | link target =>
        cases budget with
        | zero =>
          rw [walk_link_zero hhere hup hentry] at h
          cases h
        | succ budget =>
          rw [walk_link hhere hup hentry, ← List.append_assoc] at h
          rw [walk_link hhere hup hentry]
          exact ihless budget (Nat.lt_succ_self budget) _ _ h

/-- Another file in a file's place changes no path but those that lead to it. -/
theorem walk_putFile {old : Nat} (hold : entries location = some (.file old)) (id budget : Nat)
    (folder names : List String) :
    walk (putFile entries location id) budget folder names = (walk entries budget folder names).replaced location id := by
  induction budget, folder, names using walk_induction with
  | nil budget folder =>
    rw [walk_nil, walk_nil]
    rfl
  | here budget folder rest ih => rw [walk_here, walk_here, ih]
  | up budget folder rest ih => rw [walk_up, walk_up, ih]
  | into budget folder name rest hhere hup ih ihless =>
    by_cases hplace : folder ++ [name] = location
    · have hnew : putFile entries location id (folder ++ [name]) = some (.file id) := by
        rw [hplace]
        exact Function.update_self ..
      rw [← hplace] at hold
      rw [walk_file hhere hup hnew, walk_file hhere hup hold]
      split
      · simp only [Walked.replaced, if_pos hplace]
      · rfl
    · have hsame : putFile entries location id (folder ++ [name]) = entries (folder ++ [name]) :=
        Function.update_of_ne hplace ..
      cases hentry : entries (folder ++ [name]) with
      | none =>
        rw [walk_none hhere hup (hsame.trans hentry), walk_none hhere hup hentry]
        split
        · rfl
        · rfl
      | some entry =>
        cases entry with
        | folder => rw [walk_folder hhere hup (hsame.trans hentry), walk_folder hhere hup hentry, ih]
        | file other =>
          rw [walk_file hhere hup (hsame.trans hentry), walk_file hhere hup hentry]
          split
          · simp only [Walked.replaced, if_neg hplace]
          · rfl
        | link target =>
          cases budget with
          | zero =>
            rw [walk_link_zero hhere hup (hsame.trans hentry), walk_link_zero hhere hup hentry]
            rfl
          | succ budget =>
            rw [walk_link hhere hup (hsame.trans hentry), walk_link hhere hup hentry,
              ihless budget (Nat.lt_succ_self budget)]

/-- A file in the place of a link that leads to no folder leaves the paths to folders alone. -/
theorem walk_putFile_link {place : List String} {link : String}
    (hnofolder : ∀ budget middle, walk entries budget place [link] ≠ .folder middle) (id budget : Nat)
    (folder names : List String) {location : List String} (h : walk entries budget folder names = .folder location) :
    walk (putFile entries (place ++ [link]) id) budget folder names = .folder location := by
  induction budget, folder, names using walk_induction with
  | nil budget folder => rwa [walk_nil] at h ⊢
  | here budget folder rest ih =>
    rw [walk_here] at h ⊢
    exact ih h
  | up budget folder rest ih =>
    rw [walk_up] at h ⊢
    exact ih h
  | into budget folder name rest hhere hup ih ihless =>
    by_cases hplace : folder ++ [name] = place ++ [link]
    · obtain ⟨rfl, hname⟩ := List.append_inj' hplace rfl
      obtain rfl := List.singleton_inj.mp hname
      have hsplit : walk entries budget folder ([name] ++ rest) = .folder location := h
      obtain ⟨middle, -, hmiddle, -⟩ := walk_append budget folder [name] hsplit
      exact absurd hmiddle (hnofolder budget middle)
    · have hsame : putFile entries (place ++ [link]) id (folder ++ [name]) = entries (folder ++ [name]) :=
        Function.update_of_ne hplace ..
      cases hentry : entries (folder ++ [name]) with
      | none =>
        rw [walk_none hhere hup hentry] at h
        split at h
        · cases h
        · cases h
      | some entry =>
        cases entry with
        | folder =>
          rw [walk_folder hhere hup hentry] at h
          rw [walk_folder hhere hup (hsame.trans hentry)]
          exact ih h
        | file other =>
          rw [walk_file hhere hup hentry] at h
          split at h
          · cases h
          · cases h
        | link target =>
          cases budget with
          | zero =>
            rw [walk_link_zero hhere hup hentry] at h
            cases h
          | succ budget =>
            rw [walk_link hhere hup hentry] at h
            rw [walk_link hhere hup (hsame.trans hentry)]
            exact ihless budget (Nat.lt_succ_self budget) _ _ h

/-- Where a walk ends at a file, the file is. -/
theorem walk_ends (budget : Nat) (folder names : List String) {id : Nat}
    (h : walk entries budget folder names = .file location id) : entries location = some (.file id) := by
  induction budget, folder, names using walk_induction with
  | nil budget folder =>
    rw [walk_nil] at h
    cases h
  | here budget folder rest ih =>
    rw [walk_here] at h
    exact ih h
  | up budget folder rest ih =>
    rw [walk_up] at h
    exact ih h
  | into budget folder name rest hhere hup ih ihless =>
    cases hentry : entries (folder ++ [name]) with
    | none =>
      rw [walk_none hhere hup hentry] at h
      split at h
      · cases h
      · cases h
    | some entry =>
      cases entry with
      | folder =>
        rw [walk_folder hhere hup hentry] at h
        exact ih h
      | file other =>
        rw [walk_file hhere hup hentry] at h
        split at h
        · cases h
          exact hentry
        · cases h
      | link target =>
        cases budget with
        | zero =>
          rw [walk_link_zero hhere hup hentry] at h
          cases h
        | succ budget =>
          rw [walk_link hhere hup hentry] at h
          exact ihless budget (Nat.lt_succ_self budget) _ _ h

section Tree
variable (tree : LinkTree)

theorem above_folder (folder below : List String) (h : tree.entries (folder ++ below) = some .folder) :
    tree.entries folder = some .folder := by
  induction below using List.reverseRecOn with
  | nil => rwa [List.append_nil] at h
  | append_singleton below name ih =>
    rw [← List.append_assoc] at h
    have hplaced := tree.placed (folder ++ below) name (by rw [h]; exact Option.some_ne_none _)
    exact ih hplaced.1

/-- The names of a folder from the top on lead to it. -/
theorem walk_down (budget : Nat) (folder below : List String) (h : tree.entries (folder ++ below) = some .folder) :
    walk tree.entries budget folder below = .folder (folder ++ below) := by
  induction below generalizing folder with
  | nil => rw [walk_nil, List.append_nil]
  | cons name below ih =>
    rw [← List.singleton_append, ← List.append_assoc] at h ⊢
    have hentry := tree.above_folder (folder ++ [name]) below h
    obtain ⟨-, -, hhere, hup⟩ := tree.placed folder name (by rw [hentry]; exact Option.some_ne_none _)
    rw [List.singleton_append, walk_folder hhere hup hentry, ih (folder ++ [name]) h]

end Tree

end LinkTree

end TgeCore.Library
