import TgeCore.Library.Machine
import Mathlib.Logic.Function.Basic

namespace TgeCore.Process
open Library

def ECHILD : Int := 10

/-- How a process ends. -/
inductive Ending where
  | exited (code : UInt8)
  | killed (signal : Nat) (isSignal : 0 < signal ∧ signal ≤ 64) (isDumped : Bool)

/-- The status that the kernel makes of it. -/
def Ending.status : Ending → Nat
  | .exited code => code.toNat * 256
  | .killed signal _ isDumped => signal + if isDumped then 128 else 0

def WTERMSIG (status : Nat) : Nat := status % 128

def WEXITSTATUS (status : Nat) : Nat := status / 256 % 256

def WIFEXITED (status : Nat) : Bool := WTERMSIG status = 0

/-- A stopped process has the greatest number where a signal stands. -/
def WIFSIGNALED (status : Nat) : Bool := 0 < WTERMSIG status ∧ WTERMSIG status < 127

def abbreviations : List String :=
  ["HUP", "INT", "QUIT", "ILL", "TRAP", "ABRT", "BUS", "FPE", "KILL", "USR1", "SEGV", "USR2", "PIPE", "ALRM", "TERM",
    "STKFLT", "CHLD", "CONT", "STOP", "TSTP", "TTIN", "TTOU", "URG", "XCPU", "XFSZ", "VTALRM", "PROF", "WINCH", "POLL",
    "PWR", "SYS"]

def sigabbrev_np : Nat → Option String
  | 0 => none
  | signal + 1 => abbreviations[signal]?

def getSignalName (signal : Nat) : String :=
  match sigabbrev_np signal with
  | some name => "SIG" ++ name
  | none => "signal " ++ toString signal

structure SExitStatus where
  code : UInt32 := 0
  signal : String := ""
deriving DecidableEq

/-- What TryGetExit makes of a status. -/
def exitStatus (status : Nat) : SExitStatus :=
  if WIFEXITED status then { code := (WEXITSTATUS status).toUInt32 }
  else if WIFSIGNALED status then { signal := getSignalName (WTERMSIG status) }
  else {}

structure SNativeChildProcess where
  pid : Nat
  hasEnded : Bool := false
deriving DecidableEq

/-- A child of this program, as the kernel keeps it until somebody waits for it (SIGCHLD is not ignored). The births
number the children. -/
structure ProcessEntry where
  birth : Nat
  isOther : Bool
  ending : Option Ending

/-- The objects of CChildProcess on Linux, and the kernel's children of the program by their pids. -/
structure ChildProcesses where
  objects : Nat → Option SNativeChildProcess := fun _ => none
  processes : Nat → Option ProcessEntry := fun _ => none
  births : Nat := 0

/-- The objects' calls, with what posix_spawn gives and how often a signal interrupts waitpid (the destructor is a
terminate too); a child's end; and other code of the program that starts a child or takes back one of its own. -/
inductive ProcessMove where
  | start (object : Nat) (spawned : Except Int Nat)
  | terminate (object : Nat)
  | tryGetExit (object : Nat) (interrupts : Nat)
  | finish (pid : Nat) (ending : Ending)
  | startOther (pid : Nat)
  | waitOther (pid : Nat)

inductive ProcessSeen where
  | nothing
  | started (object pid birth : Nat)
  | failed (object : Nat) (error : Int)
  | terminated (object : Nat)
  | asked (object : Nat) (result : Option (Except Int SExitStatus))
  | ended (birth : Nat) (ending : Ending)

/-- What waitpid gives of one pid if it does not hang. -/
inductive Waited where
  | running
  | reaped (status : Nat)
  | failed (error : Int)

namespace ChildProcesses

def spawn (s : ChildProcesses) (pid : Nat) (isOther : Bool) : ChildProcesses :=
  { s with processes := Function.update s.processes pid (some ⟨s.births, isOther, none⟩), births := s.births + 1 }

def start (s : ChildProcesses) (object : Nat) : Except Int Nat → ChildProcesses × ProcessSeen
  | .ok pid =>
    ({ s.spawn pid false with objects := Function.update s.objects object (some { pid }) }, .started object pid s.births)
  | .error error => (s, .failed object error)

def terminate (s : ChildProcesses) (object : Nat) : ChildProcesses :=
  { s with objects := Function.update s.objects object none }

def waitpid (s : ChildProcesses) (pid : Nat) : ChildProcesses × Waited :=
  match s.processes pid with
  | none => (s, .failed ECHILD)
  | some process =>
    match process.ending with
    | none => (s, .running)
    | some ending => ({ s with processes := Function.update s.processes pid none }, .reaped ending.status)

/-- The loop over waitpid: a call that is interrupted is made again. -/
def waitFor (s : ChildProcesses) (pid : Nat) : Nat → ChildProcesses × Waited
  | 0 => s.waitpid pid
  | interrupts + 1 => s.waitFor pid interrupts

def toResult : Waited → Option (Except Int SExitStatus)
  | .running => none
  | .reaped status => some (.ok (exitStatus status))
  | .failed error => some (.error error)

def tryGetExit (s : ChildProcesses) (object : Nat) (native : SNativeChildProcess) (interrupts : Nat) :
    ChildProcesses × ProcessSeen :=
  let waited := s.waitFor native.pid interrupts
  let result := toResult waited.2
  ({ waited.1 with objects := Function.update s.objects object (some { native with hasEnded := result.isSome }) },
    .asked object result)

def getId (s : ChildProcesses) (object : Nat) : Nat :=
  match s.objects object with
  | some native => native.pid
  | none => 0

def finish (s : ChildProcesses) (pid : Nat) (process : ProcessEntry) (ending : Ending) : ChildProcesses :=
  { s with processes := Function.update s.processes pid (some { process with ending := some ending }) }

/-- The kernel gives a new child a pid that no other one has, also none that nobody has waited for. -/
def isFree (s : ChildProcesses) : Except Int Nat → Bool
  | .ok pid => (s.processes pid).isNone
  | .error _ => true

/-- Start and TryGetExit are called as their assertions ask, and other code waits for its own children. -/
def step (s : ChildProcesses) : ProcessMove → Option (ChildProcesses × ProcessSeen)
  | .start object spawned =>
    if s.objects object = none ∧ s.isFree spawned then some (s.start object spawned) else none
  | .terminate object => some (s.terminate object, .terminated object)
  | .tryGetExit object interrupts =>
    match s.objects object with
    | some native => if native.hasEnded then none else some (s.tryGetExit object native interrupts)
    | none => none
  | .finish pid ending =>
    match s.processes pid with
    | some process => if process.ending.isNone then some (s.finish pid process ending, .ended process.birth ending) else none
    | none => none
  | .startOther pid => if (s.processes pid).isNone then some (s.spawn pid true, .nothing) else none
  | .waitOther pid =>
    match s.processes pid with
    | some process => if process.isOther then some ((s.waitpid pid).1, .nothing) else none
    | none => none

def init : ChildProcesses := {}

end ChildProcesses

def processMachine : Machine ChildProcesses ProcessMove ProcessSeen := ⟨ChildProcesses.step⟩

section Decode

theorem exitStatus_exited (code : UInt8) : exitStatus (Ending.exited code).status = { code := code.toUInt32 } := by
  have hlow : WTERMSIG (Ending.exited code).status = 0 := by
    simp only [WTERMSIG, Ending.status]
    omega
  have hcode : WEXITSTATUS (Ending.exited code).status = code.toNat := by
    have hlt := code.toNat_lt
    simp only [WEXITSTATUS, Ending.status]
    omega
  rw [exitStatus, if_pos (by simpa [WIFEXITED] using hlow), hcode]
  exact congrArg (SExitStatus.mk · "") (UInt32.toNat.inj (by simp))

theorem exitStatus_killed {signal : Nat} (isSignal : 0 < signal ∧ signal ≤ 64) (isDumped : Bool) :
    exitStatus (Ending.killed signal isSignal isDumped).status = { signal := getSignalName signal } := by
  have hlow : WTERMSIG (Ending.killed signal isSignal isDumped).status = signal := by
    simp only [WTERMSIG, Ending.status]
    split <;> omega
  have hnot : ¬ WIFEXITED (Ending.killed signal isSignal isDumped).status := by
    simp only [WIFEXITED, hlow, decide_eq_true_eq]
    omega
  have hsignal : WIFSIGNALED (Ending.killed signal isSignal isDumped).status := by
    simp only [WIFSIGNALED, hlow, decide_eq_true_eq]
    omega
  rw [exitStatus, if_neg hnot, if_pos hsignal, hlow]

/-- What a caller is told of an ending. -/
def Ending.told : Ending → SExitStatus
  | .exited code => { code := code.toUInt32 }
  | .killed signal _ _ => { signal := getSignalName signal }

theorem exitStatus_status (ending : Ending) : exitStatus ending.status = ending.told := by
  cases ending with
  | exited code => exact exitStatus_exited code
  | killed signal isSignal isDumped => exact exitStatus_killed isSignal isDumped

end Decode

end TgeCore.Process
