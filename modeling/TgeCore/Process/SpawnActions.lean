import TgeCore.Library.Descriptors

namespace TgeCore.Process
open Library

def DevNull : String := "/dev/null"

def STDIN_FILENO : Nat := 0

def STDOUT_FILENO : Nat := 1

def STDERR_FILENO : Nat := 2

def FirstUnusedDescriptor : Nat := STDERR_FILENO + 1

/-- The first action, for an output descriptor that is negative if there is none. -/
def outputAction (output : Int) : FileAction :=
  if 0 ≤ output then .dup2 output.toNat STDOUT_FILENO else .open STDOUT_FILENO DevNull .writeOnly

/-- Spawn's file actions. -/
def spawnActions (workingDir : String) (output : Int) : List FileAction :=
  outputAction output :: .dup2 STDOUT_FILENO STDERR_FILENO :: .open STDIN_FILENO DevNull .readOnly ::
    ((if workingDir ≠ "" then [.chdir workingDir] else []) ++ [.closeFrom FirstUnusedDescriptor])

section Spawn
variable {F : Type*} (fs : FileSystem F) (parent : Descriptors F) (workingDir : String) (output : Int)

/-- The descriptors that the program starts with. -/
def spawnDescriptors : Option (Descriptors F) :=
  (parent.performAll fs (spawnActions workingDir output)).map Descriptors.exec

/-- The file that the child is to write to. -/
def outputFile : Option F :=
  if 0 ≤ output then (parent output.toNat).map Descriptor.file else fs.file? DevNull .writeOnly

/-- The child reads from nothing, writes to its output and has no other descriptor. -/
structure ChildDescriptors (child : Descriptors F) : Prop where
  input : ∃ null, fs.file? DevNull .readOnly = some null ∧ child STDIN_FILENO = some { file := null }
  output : ∃ file, outputFile fs parent output = some file ∧ child STDOUT_FILENO = some { file } ∧
    child STDERR_FILENO = some { file }
  others : ∀ fd, fd ≠ STDIN_FILENO → fd ≠ STDOUT_FILENO → fd ≠ STDERR_FILENO → child fd = none

/-- The child's descriptors, for what it reads and what it writes. -/
def childTable (null file : F) : Descriptors F := fun fd =>
  if fd = STDIN_FILENO then some { file := null }
  else if fd = STDOUT_FILENO ∨ fd = STDERR_FILENO then some { file }
  else none

variable {fs parent workingDir output}

/-- Whatever the descriptors are, the first action brings the output to its place. -/
theorem perform_outputAction : parent.perform fs (outputAction output) =
    (outputFile fs parent output).map fun file => parent.set STDOUT_FILENO file := by
  unfold outputFile outputAction
  split
  · rw [Option.map_map]
    rfl
  · simp only [Descriptors.perform, Descriptors.openAt_eq]
    exact Option.map_eq_bind.symm

/-- What the last actions leave of a table in which the output is where it belongs. -/
theorem finish_eq (t : Descriptors F) (null file : F) :
    ((((t.set STDOUT_FILENO file).set STDERR_FILENO file).set STDIN_FILENO null).closeFrom FirstUnusedDescriptor).exec =
      childTable null file := by
  funext fd
  match fd with
  | 0 => exact Descriptors.exec_closeFrom_of_lt (by decide) (Descriptors.set_self ..)
  | 1 =>
    apply Descriptors.exec_closeFrom_of_lt (by decide)
    rw [Descriptors.set_of_ne _ (by decide), Descriptors.set_of_ne _ (by decide)]
    exact Descriptors.set_self ..
  | 2 =>
    apply Descriptors.exec_closeFrom_of_lt (by decide)
    rw [Descriptors.set_of_ne _ (by decide)]
    exact Descriptors.set_self ..
  | fd + 3 =>
    have hnone : childTable null file (fd + 3) = none := by
      simp [childTable, STDIN_FILENO, STDOUT_FILENO, STDERR_FILENO]
    rw [hnone]
    exact Descriptors.exec_closeFrom_of_le _ (Nat.le_add_left 3 fd)

/-- The working directory can keep the child from starting, and changes no descriptor. -/
theorem performAll_chdir (t : Descriptors F) (actions : List FileAction) :
    t.performAll fs ((if workingDir ≠ "" then [.chdir workingDir] else []) ++ actions) =
      if workingDir ≠ "" ∧ fs.canEnter workingDir = false then none else t.performAll fs actions := by
  by_cases hdir : workingDir = ""
  · rw [if_neg (not_not_intro hdir), if_neg (fun h => h.1 hdir)]
    rfl
  · rw [if_pos hdir, List.singleton_append, Descriptors.performAll, Descriptors.perform]
    cases fs.canEnter workingDir with
    | true => simp
    | false => simp [hdir]

/-- What becomes of the descriptors, wherever the parent's output is and whatever else it has open. -/
theorem spawnDescriptors_eq : spawnDescriptors fs parent workingDir output =
    (outputFile fs parent output).bind fun file => (fs.file? DevNull .readOnly).bind fun null =>
      if workingDir ≠ "" ∧ fs.canEnter workingDir = false then none else some (childTable null file) := by
  unfold spawnDescriptors spawnActions
  simp only [Descriptors.performAll, perform_outputAction]
  cases outputFile fs parent output with
  | none => rfl
  | some file =>
    have hcopied := Descriptors.dup2_eq (parent.set_self STDOUT_FILENO file) STDERR_FILENO
    simp only [Option.map_some, Option.bind_some, Descriptors.perform, hcopied]
    cases fs.file? DevNull .readOnly with
    | none => rfl
    | some null =>
      simp only [Option.bind_some, Descriptors.openAt_eq, performAll_chdir]
      split
      · rfl
      · exact congrArg some (finish_eq parent null file)

theorem childTable_descriptors {null file : F} (hnull : fs.file? DevNull .readOnly = some null)
    (hout : outputFile fs parent output = some file) : ChildDescriptors fs parent output (childTable null file) := by
  refine ⟨⟨null, hnull, rfl⟩, ⟨file, hout, rfl, rfl⟩, fun fd hin hnotOut hnotErr => ?_⟩
  exact (if_neg hin).trans (if_neg (not_or.mpr ⟨hnotOut, hnotErr⟩))

/-- Whatever the parent's descriptors are, a child that starts has the right ones, and only
opening /dev/null or entering its working directory can keep it from starting. -/
theorem child_descriptors (hopen : 0 ≤ output → (parent output.toNat).isSome) :
    (∀ child, spawnDescriptors fs parent workingDir output = some child → ChildDescriptors fs parent output child) ∧
      ((spawnDescriptors fs parent workingDir output).isSome ↔ (fs.file? DevNull .readOnly).isSome ∧
        (output < 0 → (fs.file? DevNull .writeOnly).isSome) ∧ (workingDir ≠ "" → fs.canEnter workingDir = true)) := by
  have hout : (outputFile fs parent output).isSome ↔ (output < 0 → (fs.file? DevNull .writeOnly).isSome) := by
    unfold outputFile
    by_cases houtput : 0 ≤ output
    · rw [if_pos houtput, Option.isSome_map]
      exact iff_of_true (hopen houtput) fun hneg => absurd houtput (Int.not_le.mpr hneg)
    · rw [if_neg houtput]
      exact ⟨fun h _ => h, fun h => h (Int.not_le.mp houtput)⟩
  rw [spawnDescriptors_eq, ← hout]
  constructor
  · intro child hchild
    obtain ⟨file, hfile, hchild⟩ := Option.bind_eq_some_iff.mp hchild
    obtain ⟨null, hnull, hchild⟩ := Option.bind_eq_some_iff.mp hchild
    split at hchild
    · cases hchild
    · cases hchild
      exact childTable_descriptors hnull hfile
  · cases outputFile fs parent output with
    | none => simp
    | some file =>
      cases fs.file? DevNull .readOnly with
      | none => simp
      | some null => simp

end Spawn

/-- Every path can be opened, and names what it gives. -/
def everyFile : FileSystem String := { file? := fun path _ => some path, canEnter := fun _ => true }

/-- A parent whose stdin is closed, so that its output file got descriptor 0, with close-on-exec,
and which has a socket open. -/
def closedStdin : Descriptors String := fun fd =>
  if fd = 0 then some ⟨"output.log", true⟩ else if fd = 5 then some ⟨"socket", false⟩ else none

theorem child_descriptors_closed_stdin :
    ∃ child, spawnDescriptors everyFile closedStdin "" 0 = some child ∧ child 0 = some ⟨"/dev/null", false⟩ ∧
      child 1 = some ⟨"output.log", false⟩ ∧ child 5 = none ∧ ChildDescriptors everyFile closedStdin 0 child := by
  have hstart : spawnDescriptors everyFile closedStdin "" 0 = some (childTable "/dev/null" "output.log") :=
    spawnDescriptors_eq.trans rfl
  exact ⟨_, hstart, rfl, rfl, rfl, (child_descriptors fun _ => rfl).1 _ hstart⟩

end TgeCore.Process
