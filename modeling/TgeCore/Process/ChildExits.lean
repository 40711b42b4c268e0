import TgeCore.Process.ChildProcess

namespace TgeCore.Process
open Library

def ProcessSeen.object? : ProcessSeen → Option Nat
  | .started object _ _ | .failed object _ | .terminated object | .asked object _ => some object
  | .nothing | .ended _ _ => none

/-- How the child of that birth ended, if it has. -/
def endingOf (birth : Nat) (seen : List ProcessSeen) : Option Ending :=
  seen.findSome? fun
    | .ended other ending => if other = birth then some ending else none
    | _ => none

/-- The object started the child last, and has not been told yet how it ended. -/
def Untold (object pid birth : Nat) (seen : List ProcessSeen) (ending : Option Ending) : Prop :=
  ∃ before after, seen = before ++ .started object pid birth :: after ∧
    (∀ out ∈ after, out.object? = some object → out = .asked object none) ∧ endingOf birth after = ending

section History
variable {seen : List ProcessSeen} {out : ProcessSeen} {object pid birth : Nat} {ending : Option Ending}

theorem endingOf_append (birth : Nat) (seen more : List ProcessSeen) :
    endingOf birth (seen ++ more) = (endingOf birth seen).or (endingOf birth more) := List.findSome?_append

theorem endingOf_silent (h : ∀ ending, out ≠ .ended birth ending) (seen : List ProcessSeen) :
    endingOf birth (seen ++ [out]) = endingOf birth seen := by
  rw [endingOf_append]
  have hnone : endingOf birth [out] = none := by
    cases out with
    | ended other ending =>
      have hne : other ≠ birth := fun hsame => h ending (by rw [hsame])
      simp [endingOf, hne]
    | _ => rfl
  rw [hnone, Option.or_none]

/-- What is heard of other objects and other children leaves it so. -/
theorem Untold.keeps (h : Untold object pid birth seen ending)
    (hobject : out.object? = some object → out = .asked object none) (hending : ∀ ending, out ≠ .ended birth ending) :
    Untold object pid birth (seen ++ [out]) ending := by
  obtain ⟨before, after, rfl, hafter, hended⟩ := h
  refine ⟨before, after ++ [out], by simp, fun other hother => ?_, by rw [endingOf_silent hending, hended]⟩
  rcases List.mem_append.mp hother with hold | hnew
  · exact hafter other hold
  · rw [List.mem_singleton.mp hnew]
    exact hobject

theorem Untold.ends (h : Untold object pid birth seen none) (ending : Ending) :
    Untold object pid birth (seen ++ [.ended birth ending]) (some ending) := by
  obtain ⟨before, after, rfl, hafter, hended⟩ := h
  refine ⟨before, after ++ [.ended birth ending], by simp, fun other hother => ?_, ?_⟩
  · rcases List.mem_append.mp hother with hold | hnew
    · exact hafter other hold
    · rw [List.mem_singleton.mp hnew]
      simp [ProcessSeen.object?]
  · rw [endingOf_append, hended]
    simp [endingOf]

end History

namespace ChildProcesses
variable {s t : ChildProcesses} {seen : List ProcessSeen} {out : ProcessSeen} {object pid birth : Nat}
  {native : SNativeChildProcess} {process : ProcessEntry}

theorem waitFor_eq (s : ChildProcesses) (pid interrupts : Nat) : s.waitFor pid interrupts = s.waitpid pid := by
  induction interrupts with
  | zero => rfl
  | succ interrupts ih => exact ih

/-- The numbers of the children tell them apart. -/
structure Numbered (seen : List ProcessSeen) (s : ChildProcesses) : Prop where
  born : ∀ pid process, s.processes pid = some process → process.birth < s.births
  apart : ∀ pid other process process', s.processes pid = some process → s.processes other = some process' →
    process.birth = process'.birth → pid = other
  ended : ∀ birth ending, .ended birth ending ∈ seen → birth < s.births

/-- A step takes children away, or lets them be, or adds the next one. -/
theorem Numbered.next (h : Numbered seen s) (hbirths : s.births ≤ t.births)
    (hprocesses : ∀ pid process, t.processes pid = some process →
      (∃ before, s.processes pid = some before ∧ before.birth = process.birth) ∨
        (process.birth = s.births ∧ s.births < t.births ∧ ∀ other process', t.processes other = some process' →
          process'.birth = s.births → other = pid))
    (hout : ∀ birth ending, out = .ended birth ending → birth < s.births) : Numbered (seen ++ [out]) t := by
  constructor
  · intro pid process hprocess
    rcases hprocesses pid process hprocess with ⟨before, hbefore, hsame⟩ | ⟨hnew, hlt, -⟩
    · rw [← hsame]
      exact Nat.lt_of_lt_of_le (h.born pid before hbefore) hbirths
    · rw [hnew]
      exact hlt
  · intro pid other process process' hprocess hother hsame
    rcases hprocesses pid process hprocess with ⟨before, hbefore, hbirth⟩ | ⟨hnew, -, honly⟩
    · rcases hprocesses other process' hother with ⟨before', hbefore', hbirth'⟩ | ⟨hnew, -, honly⟩
      · exact h.apart pid other before before' hbefore hbefore' (hbirth.trans (hsame.trans hbirth'.symm))
      · exact honly pid process hprocess (hsame.trans hnew)
    · exact (honly other process' hother (hsame.symm.trans hnew)).symm
  · intro birth ending hmem
    rcases List.mem_append.mp hmem with hold | hlast
    · exact Nat.lt_of_lt_of_le (h.ended birth ending hold) hbirths
    · exact Nat.lt_of_lt_of_le (hout birth ending (List.mem_singleton.mp hlast).symm) hbirths

/-- A child that somebody waits for is gone, the others stay. -/
theorem waitpid_processes {other : Nat} : (s.waitpid pid).1.processes other = some process →
    s.processes other = some process := by
  unfold waitpid
  split
  · exact id
  · split
    · exact id
    · intro hprocess
      by_cases hsame : other = pid
      · dsimp only at hprocess
        rw [hsame, Function.update_self] at hprocess
        cases hprocess
      · dsimp only at hprocess
        rwa [Function.update_of_ne hsame] at hprocess

theorem waitpid_frame (s : ChildProcesses) (pid : Nat) :
    (s.waitpid pid).1.births = s.births ∧ (s.waitpid pid).1.objects = s.objects := by
  unfold waitpid
  split
  · exact ⟨rfl, rfl⟩
  · split
    · exact ⟨rfl, rfl⟩
    · exact ⟨rfl, rfl⟩

theorem Numbered.spawn (h : Numbered seen s) {isOther : Bool} {objects}
    (hout : ∀ birth ending, out ≠ .ended birth ending) :
    Numbered (seen ++ [out]) { s.spawn pid isOther with objects } := by
  apply h.next (Nat.le_succ _) _ fun birth ending hended => absurd hended (hout birth ending)
  intro other process hprocess
  change Function.update s.processes pid (some ⟨s.births, isOther, none⟩) other = some process at hprocess
  by_cases hsame : other = pid
  · rw [hsame, Function.update_self, Option.some_inj] at hprocess
    refine .inr ⟨by rw [← hprocess], Nat.lt_succ_self _, fun third process' hthird hbirth => ?_⟩
    by_contra hne
    rw [hsame] at hne
    have hold : s.processes third = some process' := (Function.update_of_ne hne ..).symm.trans hthird
    exact Nat.ne_of_lt (h.born third process' hold) hbirth
  · rw [Function.update_of_ne hsame] at hprocess
    exact .inl ⟨process, hprocess, rfl⟩

theorem Numbered.step (h : Numbered seen s) {m : ProcessMove} (hst : s.step m = some (t, out)) :
    Numbered (seen ++ [out]) t := by
  cases m with
  | start object spawned =>
    simp only [ChildProcesses.step] at hst
    split at hst
    · cases spawned with
      | error error =>
        cases hst
        exact h.next (Nat.le_refl _) (fun pid process hprocess => .inl ⟨process, hprocess, rfl⟩) (by simp)
      | ok pid =>
        cases hst
        exact h.spawn (by simp)
    · cases hst
  | terminate object =>
    cases hst
    exact h.next (Nat.le_refl _) (fun pid process hprocess => .inl ⟨process, hprocess, rfl⟩) (by simp)
  | tryGetExit object interrupts =>
    simp only [ChildProcesses.step] at hst
    split at hst
    · rename_i native _
      split at hst
      · cases hst
      · cases hst
        refine h.next ?_ (fun pid process hprocess => .inl ⟨process, ?_, rfl⟩) (by simp)
        · exact Nat.le_of_eq (by rw [waitFor_eq, (s.waitpid_frame native.pid).1])
        · rw [waitFor_eq] at hprocess
          exact waitpid_processes hprocess
    · cases hst
  | finish pid ending =>
    simp only [ChildProcesses.step] at hst
    split at hst
    · rename_i process hprocess
      split at hst
      · cases hst
        refine h.next (Nat.le_refl _) (fun other process' hother => .inl ?_) fun birth ending' hended => ?_
        · by_cases hsame : other = pid
          · have hnow := (congrFun (f := Function.update s.processes pid (some { process with ending := some ending }))
              rfl other).symm.trans hother
            rw [hsame, Function.update_self, Option.some_inj] at hnow
            exact ⟨process, hsame ▸ hprocess, by rw [← hnow]⟩
          · exact ⟨process', (Function.update_of_ne hsame ..).symm.trans hother, rfl⟩
        · cases hended
          exact h.born pid process hprocess
      · cases hst
    · cases hst
  | startOther pid =>
    simp only [ChildProcesses.step] at hst
    split at hst
    · cases hst
      exact h.spawn (by simp)
    · cases hst
  | waitOther pid =>
    simp only [ChildProcesses.step] at hst
    split at hst
    · split at hst
      · cases hst
        exact h.next (Nat.le_of_eq (s.waitpid_frame pid).1.symm)
          (fun other process hprocess => .inl ⟨process, waitpid_processes hprocess, rfl⟩) (by simp)
      · cases hst
    · cases hst

/-- Each object that has not been told of an end has a child of its own, and each child of an object is one of these or
was given up. -/
structure Owned (seen : List ProcessSeen) (s : ChildProcesses) : Prop where
  untold : ∀ object native, s.objects object = some native → native.hasEnded = false → ∃ process,
    s.processes native.pid = some process ∧ process.isOther = false ∧
      Untold object native.pid process.birth seen process.ending
  sole : ∀ object other native native', s.objects object = some native → s.objects other = some native' →
    native.hasEnded = false → native'.hasEnded = false → native.pid = native'.pid → object = other
  left : ∀ pid process, s.processes pid = some process → process.isOther = false →
    (∃ object native, s.objects object = some native ∧ native.pid = pid ∧ native.hasEnded = false) ∨
      ∃ object before after ending, seen = before ++ .terminated object :: after ∧
        Untold object pid process.birth before ending

theorem Owned.silent (h : Owned seen s) (hobject : ∀ object native, s.objects object = some native →
      out.object? = some object → out = .asked object none)
    (hending : ∀ birth ending, out ≠ .ended birth ending) : Owned (seen ++ [out]) s := by
  refine ⟨fun object native hnative hopen => ?_, h.sole, fun pid process hprocess hour => ?_⟩
  · obtain ⟨process, hprocess, hour, htold⟩ := h.untold object native hnative hopen
    exact ⟨process, hprocess, hour, htold.keeps (hobject object native hnative) (hending process.birth)⟩
  · refine (h.left pid process hprocess hour).imp_right ?_
    rintro ⟨object, before, after, ending, rfl, htold⟩
    exact ⟨object, before, after ++ [out], ending, by simp, htold⟩

theorem Owned.spawn (h : Owned seen s) (hfree : s.processes pid = none) : Owned (seen ++ [.nothing]) (s.spawn pid true) := by
  have hsilent : Owned (seen ++ [.nothing]) s := h.silent (by simp [ProcessSeen.object?]) (by simp)
  refine { hsilent with untold := fun object native hnative hopen => ?_, left := fun other process hprocess hour => ?_ }
  · obtain ⟨process, hprocess, hrest⟩ := hsilent.untold object native hnative hopen
    have hne : native.pid ≠ pid := by
      intro hsame
      rw [hsame, hfree] at hprocess
      cases hprocess
    exact ⟨process, (Function.update_of_ne hne ..).trans hprocess, hrest⟩
  · change Function.update s.processes pid _ other = some process at hprocess
    by_cases hsame : other = pid
    · rw [hsame, Function.update_self, Option.some_inj] at hprocess
      rw [← hprocess] at hour
      cases hour
    · rw [Function.update_of_ne hsame] at hprocess
      exact hsilent.left other process hprocess hour

theorem Owned.start (h : Owned seen s) (hnone : s.objects object = none) (hfree : s.processes pid = none) :
    Owned (seen ++ [.started object pid s.births]) (s.start object (.ok pid)).1 := by
  have hsilent : Owned (seen ++ [.started object pid s.births]) s := by
    refine h.silent (fun other native hnative hsame => ?_) (by simp)
    obtain rfl := Option.some.inj hsame
    rw [hnone] at hnative
    cases hnative
  have hobjects {other : Nat} {native : SNativeChildProcess} :
      (s.start object (.ok pid)).1.objects other = some native →
        (other = object ∧ native = { pid }) ∨ (other ≠ object ∧ s.objects other = some native) := by
    intro hnative
    change Function.update s.objects object (some { pid }) other = some native at hnative
    by_cases hsame : other = object
    · rw [hsame, Function.update_self, Option.some_inj] at hnative
      exact .inl ⟨hsame, hnative.symm⟩
    · rw [Function.update_of_ne hsame] at hnative
      exact .inr ⟨hsame, hnative⟩
  have hother {other : Nat} {native : SNativeChildProcess} (hnative : s.objects other = some native)
      (hopen : native.hasEnded = false) : native.pid ≠ pid := by
    obtain ⟨process, hprocess, -⟩ := h.untold other native hnative hopen
    intro hsame
    rw [hsame, hfree] at hprocess
    cases hprocess
  constructor
  case untold =>
    intro other native hnative hopen
    rcases hobjects hnative with ⟨rfl, rfl⟩ | ⟨-, hold⟩
    · exact ⟨⟨s.births, false, none⟩, Function.update_self .., rfl, seen, [], rfl, by simp, rfl⟩
    · obtain ⟨process, hprocess, hrest⟩ := hsilent.untold other native hold hopen
      exact ⟨process, (Function.update_of_ne (hother hold hopen) ..).trans hprocess, hrest⟩
  case sole =>
    intro first second native native' hfirst hsecond hopen hopen' hpid
    rcases hobjects hfirst with ⟨rfl, rfl⟩ | ⟨-, hold⟩
    · rcases hobjects hsecond with ⟨rfl, -⟩ | ⟨-, hold'⟩
      · rfl
      · exact absurd hpid.symm (hother hold' hopen')
    · rcases hobjects hsecond with ⟨rfl, rfl⟩ | ⟨-, hold'⟩
      · exact absurd hpid (hother hold hopen)
      · exact h.sole first second native native' hold hold' hopen hopen' hpid
  case left =>
    intro other process hprocess hour
    change Function.update s.processes pid _ other = some process at hprocess
    by_cases hsame : other = pid
    · exact .inl ⟨object, { pid }, Function.update_self .., hsame.symm, rfl⟩
    · rw [Function.update_of_ne hsame] at hprocess
      refine (hsilent.left other process hprocess hour).imp_left ?_
      rintro ⟨holder, native, hnative, hrest⟩
      have hne : holder ≠ object := by
        rintro rfl
        rw [hnone] at hnative
        cases hnative
      exact ⟨holder, native, (Function.update_of_ne hne ..).trans hnative, hrest⟩

theorem Owned.terminate (h : Owned seen s) (object : Nat) : Owned (seen ++ [.terminated object]) (s.terminate object) := by
  have hobjects {other : Nat} {native : SNativeChildProcess} :
      (s.terminate object).objects other = some native → other ≠ object ∧ s.objects other = some native := by
    intro hnative
    change Function.update s.objects object none other = some native at hnative
    by_cases hsame : other = object
    · rw [hsame, Function.update_self] at hnative
      cases hnative
    · rw [Function.update_of_ne hsame] at hnative
      exact ⟨hsame, hnative⟩
  constructor
  case untold =>
    intro other native hnative hopen
    obtain ⟨hne, hold⟩ := hobjects hnative
    obtain ⟨process, hprocess, hour, htold⟩ := h.untold other native hold hopen
    exact ⟨process, hprocess, hour, htold.keeps (fun hsame => absurd (Option.some.inj hsame).symm hne) (by simp)⟩
  case sole =>
    intro first second native native' hfirst hsecond
    exact h.sole first second native native' (hobjects hfirst).2 (hobjects hsecond).2
  case left =>
    intro pid process hprocess hour
    rcases h.left pid process hprocess hour with ⟨holder, native, hnative, hpid, hopen⟩ | hgiven
    · by_cases hsame : holder = object
      · obtain ⟨process', hprocess', -, htold⟩ := h.untold holder native hnative hopen
        rw [hpid] at hprocess' htold
        obtain rfl := Option.some.inj (hprocess'.symm.trans hprocess)
        exact .inr ⟨object, seen, [], process'.ending, rfl, hsame ▸ htold⟩
      · exact .inl ⟨holder, native, (Function.update_of_ne hsame ..).trans hnative, hpid, hopen⟩
    · obtain ⟨holder, before, after, ending, rfl, htold⟩ := hgiven
      exact .inr ⟨holder, before, after ++ [.terminated object], ending, by simp, htold⟩

/-- The child that the object waited for is gone. -/
theorem Owned.reaped (h : Owned seen s) (hnative : s.objects object = some native) (hopen : native.hasEnded = false)
    (result : Except Int SExitStatus) :
    Owned (seen ++ [.asked object (some result)])
      { s with
        objects := Function.update s.objects object (some { native with hasEnded := true })
        processes := Function.update s.processes native.pid none } := by
  have hobjects {other : Nat} {native' : SNativeChildProcess}
      (hother : Function.update s.objects object (some { native with hasEnded := true }) other = some native')
      (hopen' : native'.hasEnded = false) : other ≠ object ∧ s.objects other = some native' ∧ native'.pid ≠ native.pid := by
    by_cases hsame : other = object
    · rw [hsame, Function.update_self, Option.some_inj] at hother
      rw [← hother] at hopen'
      cases hopen'
    · rw [Function.update_of_ne hsame] at hother
      exact ⟨hsame, hother, fun hpid => hsame (h.sole other object native' native hother hnative hopen' hopen hpid)⟩
  constructor
  case untold =>
    intro other native' hother hopen'
    obtain ⟨hne, hold, hpid⟩ := hobjects hother hopen'
    obtain ⟨process, hprocess, hour, htold⟩ := h.untold other native' hold hopen'
    refine ⟨process, (Function.update_of_ne hpid ..).trans hprocess, hour, ?_⟩
    exact htold.keeps (fun hsame => absurd (Option.some.inj hsame).symm hne) (by simp)
  case sole =>
    intro first second native' native'' hfirst hsecond hopen' hopen'' hpid
    obtain ⟨-, hfirst, -⟩ := hobjects hfirst hopen'
    obtain ⟨-, hsecond, -⟩ := hobjects hsecond hopen''
    exact h.sole first second native' native'' hfirst hsecond hopen' hopen'' hpid
  case left =>
    intro pid process hprocess hour
    change Function.update s.processes native.pid none pid = some process at hprocess
    have hpid : pid ≠ native.pid := by
      rintro rfl
      rw [Function.update_self] at hprocess
      cases hprocess
    rw [Function.update_of_ne hpid] at hprocess
    rcases h.left pid process hprocess hour with ⟨holder, native', hholder, hholds, hopen'⟩ | hgiven
    · have hne : holder ≠ object := by
        rintro rfl
        rw [hnative, Option.some_inj] at hholder
        exact hpid (by rw [← hholds, hholder])
      exact .inl ⟨holder, native', (Function.update_of_ne hne ..).trans hholder, hholds, hopen'⟩
    · obtain ⟨holder, before, after, ending, rfl, htold⟩ := hgiven
      exact .inr ⟨holder, before, after ++ [.asked object (some result)], ending, by simp, htold⟩

theorem Owned.finish (h : Owned seen s) (hnumbered : Numbered seen s) (hprocess : s.processes pid = some process)
    (hrunning : process.ending = none) (ending : Ending) :
    Owned (seen ++ [.ended process.birth ending]) (s.finish pid process ending) := by
  constructor
  case untold =>
    intro object native hnative hopen
    obtain ⟨process', hprocess', hour, htold⟩ := h.untold object native hnative hopen
    by_cases hsame : native.pid = pid
    · obtain rfl := Option.some.inj ((hsame ▸ hprocess').symm.trans hprocess)
      rw [hrunning] at htold
      refine ⟨{ process' with ending := some ending }, ?_, hour, htold.ends ending⟩
      rw [hsame]
      exact Function.update_self ..
    · refine ⟨process', (Function.update_of_ne hsame ..).trans hprocess', hour, htold.keeps (by simp [ProcessSeen.object?]) ?_⟩
      intro ending' hended
      obtain ⟨hbirth, -⟩ := ProcessSeen.ended.inj hended
      exact hsame (hnumbered.apart native.pid pid process' process hprocess' hprocess hbirth.symm)
  case sole => exact h.sole
  case left =>
    intro other process' hother hour
    change Function.update s.processes pid (some { process with ending := some ending }) other = some process' at hother
    have hold : ∃ before, s.processes other = some before ∧ before.birth = process'.birth ∧ before.isOther = false := by
      by_cases hsame : other = pid
      · rw [hsame, Function.update_self, Option.some_inj] at hother
        rw [← hother] at hour
        exact ⟨process, hsame ▸ hprocess, by rw [← hother], hour⟩
      · rw [Function.update_of_ne hsame] at hother
        exact ⟨process', hother, rfl, hour⟩
    obtain ⟨before, hbefore, hbirth, hour'⟩ := hold
    refine (h.left other before hbefore hour').imp_right ?_
    rintro ⟨object, start, after, ending', rfl, htold⟩
    exact ⟨object, start, after ++ [.ended process.birth ending], ending', by simp, hbirth ▸ htold⟩

/-- Other code takes one of its own children. -/
theorem Owned.waitOther (h : Owned seen s) (hprocess : s.processes pid = some process) (hother : process.isOther = true) :
    Owned (seen ++ [.nothing]) (s.waitpid pid).1 := by
  have hsilent : Owned (seen ++ [.nothing]) s := h.silent (by simp [ProcessSeen.object?]) (by simp)
  unfold waitpid
  rw [hprocess]
  dsimp only
  split
  · exact hsilent
  · refine { hsilent with untold := fun object native hnative hopen => ?_, left := fun other process' hprocess' hour => ?_ }
    · obtain ⟨process', hprocess', hour, htold⟩ := hsilent.untold object native hnative hopen
      refine ⟨process', (Function.update_of_ne (fun hsame => ?_) ..).trans hprocess', hour, htold⟩
      obtain rfl := Option.some.inj ((hsame ▸ hprocess').symm.trans hprocess)
      rw [hour] at hother
      cases hother
    · apply hsilent.left other process' _ hour
      change Function.update s.processes pid none other = some process' at hprocess'
      by_cases hsame : other = pid
      · rw [hsame, Function.update_self] at hprocess'
        cases hprocess'
      · rwa [Function.update_of_ne hsame] at hprocess'

/-- What TryGetExit does: nothing while the child runs, else it takes the child. -/
theorem tryGetExit_eq (hnative : s.objects object = some native) (hopen : native.hasEnded = false)
    (hprocess : s.processes native.pid = some process) (interrupts : Nat) :
    s.tryGetExit object native interrupts =
      match process.ending with
      | none => (s, .asked object none)
      | some ending =>
        ({ s with
          objects := Function.update s.objects object (some { native with hasEnded := true })
          processes := Function.update s.processes native.pid none },
          .asked object (some (.ok (exitStatus ending.status)))) := by
  unfold tryGetExit
  rw [waitFor_eq, waitpid, hprocess]
  dsimp only
  cases process.ending with
  | none =>
    have hsame : Function.update s.objects object (some { native with hasEnded := false }) = s.objects := by
      rw [Function.update_eq_self_iff, hnative, ← hopen]
    simp only [toResult, Option.isSome_none, hsame]
  | some ending => rfl

theorem Owned.step (h : Owned seen s) (hnumbered : Numbered seen s) {m : ProcessMove} (hst : s.step m = some (t, out)) :
    Owned (seen ++ [out]) t := by
  cases m with
  | start object spawned =>
    simp only [ChildProcesses.step] at hst
    split at hst
    · rename_i hmay
      cases spawned with
      | error error =>
        cases hst
        refine h.silent (fun other native hnative hsame => ?_) (by simp)
        obtain rfl := Option.some.inj hsame
        rw [hmay.1] at hnative
        cases hnative
      | ok pid =>
        cases hst
        exact h.start hmay.1 (Option.isNone_iff_eq_none.mp hmay.2)
    · cases hst
  | terminate object =>
    cases hst
    exact h.terminate object
  | tryGetExit object interrupts =>
    simp only [ChildProcesses.step] at hst
    split at hst
    · rename_i native hnative
      split at hst
      · cases hst
      · rename_i hopen
        have hopen : native.hasEnded = false := Bool.eq_false_iff.mpr hopen
        obtain ⟨process, hprocess, -⟩ := h.untold object native hnative hopen
        rw [tryGetExit_eq hnative hopen hprocess] at hst
        cases hended : process.ending with
        | none =>
          rw [hended] at hst
          cases hst
          refine h.silent (fun other _ _ hsame => ?_) (by simp)
          rw [Option.some.inj hsame]
        | some ending =>
          rw [hended] at hst
          cases hst
          exact h.reaped hnative hopen _
    · cases hst
  | finish pid ending =>
    simp only [ChildProcesses.step] at hst
    split at hst
    · rename_i process hprocess
      split at hst
      · rename_i hrunning
        cases hst
        exact h.finish hnumbered hprocess (Option.isNone_iff_eq_none.mp hrunning) ending
      · cases hst
    · cases hst
  | startOther pid =>
    simp only [ChildProcesses.step] at hst
    split at hst
    · rename_i hfree
      cases hst
      exact h.spawn (Option.isNone_iff_eq_none.mp hfree)
    · cases hst
  | waitOther pid =>
    simp only [ChildProcesses.step] at hst
    split at hst
    · rename_i process hprocess
      split at hst
      · rename_i hother
        cases hst
        exact h.waitOther hprocess hother
      · cases hst
    · cases hst

theorem owned_run {ms : List ProcessMove} (hr : processMachine.run init ms = some (s, seen)) : Owned seen s := by
  have hkept := Machine.run_invariant (M := processMachine) (fun _ seen s => Owned seen s ∧ Numbered seen s) [] [] ?_ ?_ hr
  · exact hkept.1
  · exact fun _ _ _ _ _ _ h hst => ⟨h.1.step h.2 hst, h.2.step hst⟩
  · refine ⟨⟨?_, ?_, ?_⟩, ⟨?_, ?_, ?_⟩⟩
    all_goals simp [init]

theorem step_asked {m : ProcessMove} {result : Option (Except Int SExitStatus)}
    (hst : s.step m = some (t, .asked object result)) : ∃ native interrupts, s.objects object = some native ∧
      native.hasEnded = false ∧ (s.tryGetExit object native interrupts).2 = .asked object result := by
  cases m with
  | start other spawned =>
    simp only [ChildProcesses.step] at hst
    split at hst
    · cases spawned <;> cases hst
    · cases hst
  | terminate other => cases hst
  | tryGetExit other interrupts =>
    simp only [ChildProcesses.step] at hst
    split at hst
    · rename_i native hnative
      split at hst
      · cases hst
      · rename_i hopen
        cases hst
        exact ⟨native, interrupts, hnative, Bool.eq_false_iff.mpr hopen, rfl⟩
    · cases hst
  | finish pid ending =>
    simp only [ChildProcesses.step] at hst
    repeat' split at hst
    all_goals cases hst
  | startOther pid =>
    simp only [ChildProcesses.step] at hst
    split at hst <;> cases hst
  | waitOther pid =>
    simp only [ChildProcesses.step] at hst
    repeat' split at hst
    all_goals cases hst

/-- What TryGetExit says is of the child that this object started last, whatever pids were given out again since: nothing
as long as it runs, and how it ended after that, told once and never an error. -/
theorem tryGetExit_tells {ms : List ProcessMove} {before after : List ProcessSeen}
    {result : Option (Except Int SExitStatus)}
    (hr : processMachine.run init ms = some (s, before ++ .asked object result :: after)) :
    ∃ pid birth ending, Untold object pid birth before ending ∧ result = ending.map fun ending => .ok ending.told := by
  obtain ⟨ms₁, m, ms₂, u, u', hbefore, hst, -⟩ := Machine.run_output_eq_some hr
  obtain ⟨native, interrupts, hnative, hopen, hasked⟩ := step_asked hst
  obtain ⟨process, hprocess, -, htold⟩ := (owned_run hbefore).untold object native hnative hopen
  refine ⟨native.pid, process.birth, process.ending, htold, ?_⟩
  rw [tryGetExit_eq hnative hopen hprocess] at hasked
  cases hended : process.ending with
  | none =>
    rw [hended] at hasked
    exact (ProcessSeen.asked.inj hasked).2.symm
  | some ending =>
    rw [hended] at hasked
    rw [← (ProcessSeen.asked.inj hasked).2, exitStatus_status]
    rfl

/-- The pid of a child that was waited for is given to the child of another object. -/
theorem tryGetExit_tells_reused : ∃ pid birth ending,
    Untold 1 pid birth [.started 0 5 0, .ended 0 (.exited 3), .asked 0 (some (.ok { code := 3 })), .started 1 5 1,
      .asked 1 none, .ended 1 (.exited 4)] ending ∧
        some (Except.ok { code := 4 }) = ending.map fun ending => (Except.ok ending.told : Except Int _) := by
  have hthree : exitStatus (Ending.exited 3).status = { code := 3 } := by decide
  have hfour : exitStatus (Ending.exited 4).status = { code := 4 } := by decide
  rw [← hthree, ← hfour]
  exact @tryGetExit_tells _ 1
    [.start 0 (.ok 5), .finish 5 (.exited 3), .tryGetExit 0 2, .start 1 (.ok 5), .tryGetExit 1 0,
      .finish 5 (.exited 4), .tryGetExit 1 0]
    [.started 0 5 0, .ended 0 (.exited 3), .asked 0 (some (.ok (exitStatus (Ending.exited 3).status))),
      .started 1 5 1, .asked 1 none, .ended 1 (.exited 4)] [] _ rfl

/-- A child of an object stays in the kernel only as long as the object has not been told of its end or after the object
gave it up, and no other object has its pid meanwhile. -/
theorem children_accounted {ms : List ProcessMove} (hr : processMachine.run init ms = some (s, seen)) :
    (∀ object native, s.objects object = some native → native.hasEnded = false →
      (∃ process, s.processes native.pid = some process ∧ process.isOther = false) ∧
        ∀ other native', s.objects other = some native' → native'.hasEnded = false →
          s.getId other = s.getId object → other = object) ∧
      ∀ pid process, s.processes pid = some process → process.isOther = false →
        (∃ object native, s.objects object = some native ∧ native.pid = pid ∧ native.hasEnded = false) ∨
          ∃ object before after ending, seen = before ++ .terminated object :: after ∧
            Untold object pid process.birth before ending := by
  have h := owned_run hr
  refine ⟨fun object native hnative hopen => ⟨?_, fun other native' hother hopen' hid => ?_⟩, h.left⟩
  · obtain ⟨process, hprocess, hour, -⟩ := h.untold object native hnative hopen
    exact ⟨process, hprocess, hour⟩
  · simp only [getId, hnative, hother] at hid
    exact h.sole other object native' native hother hnative hopen' hopen hid

/-- The child of the first object is given up and left, and the second object's child runs. -/
theorem children_accounted_left : ∃ s seen, processMachine.run init
    [.start 0 (.ok 5), .terminate 0, .finish 5 (.exited 0), .start 1 (.ok 6)] = some (s, seen) ∧
      ∃ object before after ending, seen = before ++ .terminated object :: after ∧ Untold object 5 0 before ending := by
  refine ⟨_, _, rfl, ?_⟩
  have h := (@children_accounted _ _
    [.start 0 (.ok 5), .terminate 0, .finish 5 (.exited 0), .start 1 (.ok 6)] rfl).2 5 _ rfl rfl
  rcases h with ⟨object, native, hnative, hpid, -⟩ | hgiven
  · match object with
    | 0 => cases hnative
    | 1 =>
      obtain rfl := Option.some.inj hnative
      cases hpid
    | object + 2 => cases hnative
  · exact hgiven

end ChildProcesses

end TgeCore.Process
