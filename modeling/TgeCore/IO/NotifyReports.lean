import TgeCore.IO.NotifyWatch
import TgeCore.Library.Calls

namespace TgeCore.IO.Windows
open Library

namespace WatchSeen

/-- The owner knows that it has to look for itself: the watch begins, or there were too many changes. -/
def isFresh : WatchSeen → Bool
  | .initialized => true
  | .returned _ _ (.ok changes) => changes.hasOverflowed
  | _ => false

/-- The owner knows that the watch is over. -/
def isEnd : WatchSeen → Bool
  | .terminated => true
  | .returned _ _ (.error _) => true
  | _ => false

def changed? : WatchSeen → Option NotifyRecord
  | .changed record => some record
  | _ => none

/-- What CollectPaths has found, of which it reports all but the folders' own writes. -/
def found : WatchSeen → List NotifyRecord
  | .returned _ records (.ok _) => records
  | _ => []

def changes (seen : List WatchSeen) : List NotifyRecord := seen.filterMap changed?

def reads (seen : List WatchSeen) : List NotifyRecord := seen.flatMap found

theorem changes_append (seen more : List WatchSeen) : changes (seen ++ more) = changes seen ++ changes more :=
  List.filterMap_append

theorem reads_append (seen more : List WatchSeen) : reads (seen ++ more) = reads seen ++ reads more :=
  List.flatMap_append

end WatchSeen

namespace CDirectoryWatch
open WatchSeen
variable {s t : CDirectoryWatch} {watch : SNativeDirectoryWatch} {out : WatchSeen} {seen : List WatchSeen}

/-- The changes that a read has brought and ReadChanges has not taken. -/
def inBuffer (s : CDirectoryWatch) : List NotifyRecord :=
  match s.pWatch, s.reading with
  | some watch, some (.ended (.bytes (_ + 1))) => (readEntries watch.buffer watch.buffer.length 0).getD []
  | _, _ => []

def inCall (s : CDirectoryWatch) : List NotifyRecord :=
  match s.call with
  | .reissuing _ records _ => records
  | _ => []

def onTheWay (s : CDirectoryWatch) : List NotifyRecord := s.inCall ++ (s.inBuffer ++ s.queued)

/-- The read ended with something else than changes. -/
def ReadNotice : Reading → Prop
  | .ended (.bytes 0) | .ended .tooMany | .ended (.failed _) => True
  | _ => False

/-- That there were too many changes, or that the read failed, is on its way to the owner. -/
def WillTell (s : CDirectoryWatch) : Prop :=
  s.isFull = true ∨ (∃ reading, s.reading = some reading ∧ ReadNotice reading) ∨
    ∃ isDirectory records result, s.call = .reissuing isDirectory records result ∧ result.hasOverflowed = true

/-- There is a watch, and it reads on. -/
def Live (s : CDirectoryWatch) : Prop := ∃ watch, s.pWatch = some watch ∧ (s.call = .none → watch.isReadPending = true)

/-- What a step leaves of what is on the way. -/
structure Passes (s t : CDirectoryWatch) (out : WatchSeen) : Prop where
  live : Live t
  tells : WillTell s → WillTell t
  accounts : WillTell t ∨ found out ++ t.onTheWay = s.onTheWay ++ changes [out]

theorem Passes.readChanges (h : Sound s) (hlive : Live s) (hcall : s.call = .none) (hwatch : s.pWatch = some watch)
    {isDirectory : List UInt16 → Bool} (hst : s.readChanges watch isDirectory = (t, out))
    (hend : out.isEnd = false) : Passes s t out := by
  obtain ⟨watch', hwatch', hpending⟩ := hlive
  obtain rfl := Option.some.inj (hwatch.symm.trans hwatch')
  have hpending := hpending hcall
  unfold CDirectoryWatch.readChanges at hst
  rw [hpending] at hst
  dsimp only at hst
  rw [if_neg (by decide)] at hst
  split at hst
  · rename_i hreading
    obtain ⟨-, hcount⟩ := placed_of_some hcall hwatch h.placed
    rw [hreading, hpending] at hcount
    cases hcount
  · cases hst
    exact ⟨⟨watch, hwatch, fun _ => hpending⟩, id, .inr (by simp [found, changes, changed?])⟩
  · cases hst
    have htells : WillTell { s with
        reading := none, pWatch := some { watch with isReadPending := false },
        call := .reissuing isDirectory [] { hasOverflowed := true } } := .inr (.inr ⟨_, _, _, rfl, rfl⟩)
    exact ⟨⟨_, rfl, fun h => by cases h⟩, fun _ => htells, .inl htells⟩
  · rename_i numBytes hreading
    obtain ⟨records, hrecords⟩ := h.filled watch _ hwatch hreading
    rw [hrecords] at hst
    cases hst
    refine ⟨⟨_, rfl, fun h => by cases h⟩, ?_, .inr ?_⟩
    · rintro (hfull | ⟨reading, hsome, hnotice⟩ | ⟨_, _, _, hother, -⟩)
      · exact .inl hfull
      · rw [hreading, Option.some_inj] at hsome
        rw [← hsome] at hnotice
        exact hnotice.elim
      · rw [hcall] at hother
        cases hother
    · simp [found, changes, changed?, onTheWay, inCall, inBuffer, hcall, hwatch, hreading, hrecords]
  · cases hst
    have htells : WillTell { s with
        reading := none, pWatch := some { watch with isReadPending := false },
        call := .reissuing isDirectory [] { hasOverflowed := true } } := .inr (.inr ⟨_, _, _, rfl, rfl⟩)
    exact ⟨⟨_, rfl, fun h => by cases h⟩, fun _ => htells, .inl htells⟩
  · cases hst
    cases hend

theorem Passes.issue (h : Sound s) (hlive : Live s) {error : Option Int} (hst : s.issue error = some (t, out))
    (hfresh : out.isFresh = false) (hend : out.isEnd = false) : Passes s t out := by
  obtain ⟨watch, hwatch, -⟩ := hlive
  have hplaced := h.placed
  unfold CDirectoryWatch.issue at hst
  split at hst
  · rename_i hcall
    simp [Placed, hcall, hwatch] at hplaced
  · rename_i isDirectory records result watch' hcall hwatch'
    simp only [Placed, hcall, hwatch'] at hplaced
    obtain ⟨hheld, hpending, hreading, -⟩ := hplaced
    cases error with
    | none =>
      cases hst
      refine ⟨⟨_, rfl, fun _ => rfl⟩, ?_, .inr ?_⟩
      · rintro (hfull | ⟨reading, hsome, -⟩ | ⟨_, _, _, hother, hoverflowed⟩)
        · exact .inl hfull
        · rw [hreading] at hsome
          cases hsome
        · rw [hcall] at hother
          cases hother
          exact absurd hoverflowed (Bool.eq_false_iff.mp hfresh)
      · simp [found, changes, changed?, onTheWay, inCall, inBuffer, hcall, hwatch', hreading, issueRead]
    | some code =>
      cases hst
      cases hend
  · cases hst

/-- A read that ends brings what the system kept, or a notice. -/
theorem Passes.endRead (h : Sound s) (hreading : s.reading = some .waiting) (readEnd : ReadEnd)
    (hnotice : ReadNotice (.ended readEnd)) (bytes : List UInt8) (isFull : Bool) :
    Passes s { s.endRead readEnd bytes with isFull } .nothing := by
  obtain ⟨watch, hwatch, -, hpending, -⟩ := h.reading_watch hreading
  have htells : WillTell { s.endRead readEnd bytes with isFull } := by
    refine .inr (.inl ⟨.ended readEnd, ?_, hnotice⟩)
    simp [CDirectoryWatch.endRead, hwatch]
  refine ⟨⟨{ watch with buffer := bytes ++ watch.buffer.drop bytes.length }, ?_, fun _ => hpending⟩, fun _ => htells,
    .inl htells⟩
  simp [CDirectoryWatch.endRead, hwatch]

theorem Passes.complete (h : Sound s) (hreading : s.reading = some .waiting) {gaps : List (List UInt8)} {isError : Bool}
    (hst : s.complete gaps isError = some t) : Passes s t .nothing := by
  unfold CDirectoryWatch.complete at hst
  dsimp only at hst
  split at hst
  · obtain rfl := Option.some.inj hst
    cases isError with
    | true => exact Passes.endRead h hreading .tooMany trivial [] false
    | false => exact Passes.endRead h hreading (.bytes 0) trivial [] false
  · rename_i hroom
    split at hst
    · rename_i hfits
      obtain ⟨hsome, hgaps, hsize⟩ := hfits
      obtain rfl := Option.some.inj hst
      obtain ⟨watch, hwatch, -, hpending, hcall⟩ := h.reading_watch hreading
      have hread := readEntries_written hsome hgaps hsize
      have hbytes : ∃ numBytes, (encode (s.queued.zip gaps)).length = numBytes + 1 := by
        apply Nat.exists_eq_add_one.mpr
        apply Nat.lt_of_lt_of_le _ (length_entries_le (s.queued.zip gaps))
        rw [List.length_zip, hgaps, Nat.min_self]
        exact List.length_pos_of_ne_nil hsome
      obtain ⟨numBytes, hbytes⟩ := hbytes
      let filled := { watch with
        buffer := encode (s.queued.zip gaps) ++ watch.buffer.drop (encode (s.queued.zip gaps)).length }
      refine ⟨⟨filled, by simp [CDirectoryWatch.endRead, hwatch, filled], fun _ => hpending⟩, ?_, .inr ?_⟩
      · rintro (hfull | ⟨reading, hother, hnotice⟩ | ⟨_, _, _, hother, -⟩)
        · exact absurd hfull hroom
        · rw [hreading, Option.some_inj] at hother
          rw [← hother] at hnotice
          exact hnotice.elim
        · rcases hcall with hcall | hcall
          · rw [hcall] at hother
            cases hother
          · rw [hcall] at hother
            cases hother
      · have hempty : s.inCall = [] := by
          rcases hcall with hcall | hcall <;> simp only [inCall, hcall]
        have hbuffer : s.inBuffer = [] := by simp only [inBuffer, hwatch, hreading]
        simp only [onTheWay, hempty, hbuffer]
        simp only [CDirectoryWatch.endRead, hwatch, inCall, inBuffer, hbytes, hread]
        rcases hcall with hcall | hcall <;> simp [hcall, found, changes, changed?]
    · cases hst

/-- What one step leaves, unless it ends the watch or tells the owner to look for itself. -/
theorem Passes.step (h : Sound s) (hlive : Live s) {m : WatchMove} (hst : s.step m = some (t, out))
    (hfresh : out.isFresh = false) (hend : out.isEnd = false) : Passes s t out := by
  have hlive' := hlive
  obtain ⟨watch, hwatch, hpending⟩ := hlive'
  cases m with
  | initializeWith opening =>
    simp only [CDirectoryWatch.step, hwatch] at hst
    split at hst
    · rename_i hnone
      cases hnone
    · cases hst
  | readChanges isDirectory =>
    simp only [CDirectoryWatch.step] at hst
    split at hst
    · rename_i watch' hcall hwatch'
      exact Passes.readChanges h hlive hcall hwatch' (Option.some.inj hst) hend
    · cases hst
  | issue error => exact Passes.issue h hlive hst hfresh hend
  | terminate =>
    simp only [CDirectoryWatch.step, hwatch] at hst
    split at hst
    · rename_i watch' hcall hwatch'
      obtain rfl := Option.some.inj hwatch'
      rw [CDirectoryWatch.terminate, if_pos (hpending hcall)] at hst
      cases hst
      refine ⟨⟨watch, hwatch, fun h => by cases h⟩, ?_, .inr ?_⟩
      · rintro (hfull | hreading | ⟨_, _, _, hother, -⟩)
        · exact .inl hfull
        · exact .inr (.inl hreading)
        · rw [hcall] at hother
          cases hother
      · simp [found, changes, changed?, onTheWay, inCall, inBuffer, hcall]
    · rename_i hnone
      cases hnone
    · cases hst
  | release =>
    simp only [CDirectoryWatch.step] at hst
    split at hst
    · cases hst
      cases hend
    · cases hst
  | change record =>
    simp only [CDirectoryWatch.step] at hst
    split at hst
    · cases hst
      refine ⟨⟨watch, hwatch, hpending⟩, id, ?_⟩
      cases hfull : s.isFull with
      | true => exact .inl (.inl rfl)
      | false => exact .inr (by simp [found, changes, changed?, onTheWay, inCall, inBuffer])
    · cases hst
  | overflow =>
    simp only [CDirectoryWatch.step] at hst
    split at hst
    · cases hst
      exact ⟨⟨watch, hwatch, hpending⟩, fun _ => .inl rfl, .inl (.inl rfl)⟩
    · cases hst
  | complete gaps isError =>
    simp only [CDirectoryWatch.step] at hst
    split at hst
    · rename_i hreading
      obtain ⟨t', hcomplete, hst⟩ := Option.map_eq_some_iff.mp hst
      cases hst
      exact Passes.complete h hreading hcomplete
    · cases hst
  | fail code =>
    simp only [CDirectoryWatch.step] at hst
    split at hst
    · rename_i hreading
      cases hst
      exact Passes.endRead h hreading (.failed code) trivial [] _
    · cases hst

/-- A watch that is live afterwards, and after its start with nothing on the way. -/
theorem step_fresh (h : Sound s) {m : WatchMove} (hst : s.step m = some (t, out)) (hfresh : out.isFresh = true) :
    Live t ∧ (out = .initialized → t.onTheWay = []) := by
  have hplaced := h.placed
  cases m with
  | initializeWith opening =>
    simp only [CDirectoryWatch.step] at hst
    split at hst
    · cases opening <;> cases hst <;> cases hfresh
    · cases hst
  | readChanges isDirectory =>
    simp only [CDirectoryWatch.step, CDirectoryWatch.readChanges] at hst
    repeat' split at hst
    all_goals cases hst
    all_goals cases hfresh
  | issue error =>
    simp only [CDirectoryWatch.step, CDirectoryWatch.issue] at hst
    split at hst
    · rename_i _ watch hcall
      cases error with
      | none =>
        cases hst
        have hwatch : s.pWatch = none := by
          cases hwatch : s.pWatch with
          | none => rfl
          | some other => simp [Placed, hcall, hwatch] at hplaced
        simp only [Placed, hcall, hwatch] at hplaced
        refine ⟨⟨_, rfl, fun _ => rfl⟩, fun _ => ?_⟩
        simp [onTheWay, inCall, inBuffer, issueRead, h.quiet hplaced.2.2]
      | some code =>
        cases hst
        cases hfresh
    · cases error with
      | none =>
        cases hst
        exact ⟨⟨_, rfl, fun _ => rfl⟩, fun h => by cases h⟩
      | some code =>
        cases hst
        cases hfresh
    · cases hst
  | terminate =>
    simp only [CDirectoryWatch.step, CDirectoryWatch.terminate] at hst
    repeat' split at hst
    all_goals cases hst
    all_goals cases hfresh
  | release =>
    simp only [CDirectoryWatch.step] at hst
    split at hst
    · cases hst
      cases hfresh
    · cases hst
  | change record =>
    simp only [CDirectoryWatch.step] at hst
    split at hst
    · cases hst
      cases hfresh
    · cases hst
  | overflow =>
    simp only [CDirectoryWatch.step] at hst
    split at hst
    · cases hst
      cases hfresh
    · cases hst
  | complete gaps isError =>
    simp only [CDirectoryWatch.step] at hst
    split at hst
    · obtain ⟨_, -, hst⟩ := Option.map_eq_some_iff.mp hst
      cases hst
      cases hfresh
    · cases hst
  | fail code =>
    simp only [CDirectoryWatch.step] at hst
    split at hst
    · cases hst
      cases hfresh
    · cases hst

/-- The owner was not told to look for itself, and the watch goes on. -/
def Calm (seen : List WatchSeen) : Prop := ∀ out ∈ seen, out.isFresh = false ∧ out.isEnd = false

/-- What the owner is told from a live watch on, and what is on the way then, is what was on the way before and what
changes, unless a notice is on its way. -/
theorem passes_run (hsound : Sound s) (hlive : Live s) {ms : List WatchMove} (hr : watchMachine.run s ms = some (t, seen))
    (hcalm : Calm seen) : Live t ∧ (WillTell t ∨ s.onTheWay ++ changes seen = reads seen ++ t.onTheWay) := by
  have hkept := Machine.run_invariant (M := watchMachine) (fun _ seen t => Sound t ∧ (Calm seen → Live t ∧
    (WillTell t ∨ s.onTheWay ++ changes seen = reads seen ++ t.onTheWay))) [] [] ?_ ?_ hr
  · exact hkept.2 hcalm
  · rintro _ seen u m v out ⟨hsound, hkept⟩ hst
    refine ⟨hsound.step hst, fun hcalm => ?_⟩
    obtain ⟨hlive, hkept⟩ := hkept fun other hother => hcalm other (List.mem_append_left _ hother)
    obtain ⟨hnot, hgoes⟩ := hcalm out (List.mem_append_right _ (List.mem_singleton_self _))
    have hpasses := Passes.step hsound hlive hst hnot hgoes
    refine ⟨hpasses.live, ?_⟩
    rcases hkept with htells | hsame
    · exact .inl (hpasses.tells htells)
    · refine hpasses.accounts.imp_right fun haccounts => ?_
      rw [changes_append, ← List.append_assoc, hsame, reads_append, List.append_assoc, List.append_assoc, ← haccounts]
      simp [reads]
  · exact ⟨hsound, fun _ => ⟨hlive, .inr (List.append_nil _)⟩⟩

/-- ReadChanges reports what it found. -/
theorem step_paths (h : Sound s) {m : WatchMove} {isDirectory : List UInt16 → Bool} {records : List NotifyRecord}
    {result : SDirectoryChanges} (hst : s.step m = some (t, .returned isDirectory records (.ok result))) :
    result.paths = reportedPaths isDirectory records := by
  have hplaced := h.placed
  cases m with
  | initializeWith opening =>
    simp only [CDirectoryWatch.step] at hst
    split at hst
    · cases opening <;> cases hst
    · cases hst
  | readChanges isDirectory =>
    simp only [CDirectoryWatch.step, CDirectoryWatch.readChanges] at hst
    repeat' split at hst
    all_goals cases hst
    rfl
  | issue error =>
    simp only [CDirectoryWatch.step, CDirectoryWatch.issue] at hst
    split at hst
    · cases error <;> cases hst
    · rename_i watch hcall hwatch
      cases error with
      | none =>
        cases hst
        simp only [Placed, hcall, hwatch] at hplaced
        exact hplaced.2.2.2
      | some code => cases hst
    · cases hst
  | terminate =>
    simp only [CDirectoryWatch.step, CDirectoryWatch.terminate] at hst
    repeat' split at hst
    all_goals cases hst
  | release =>
    simp only [CDirectoryWatch.step] at hst
    split at hst <;> cases hst
  | change record =>
    simp only [CDirectoryWatch.step] at hst
    split at hst <;> cases hst
  | overflow =>
    simp only [CDirectoryWatch.step] at hst
    split at hst <;> cases hst
  | complete gaps isError =>
    simp only [CDirectoryWatch.step] at hst
    split at hst
    · obtain ⟨_, -, hst⟩ := Option.map_eq_some_iff.mp hst
      cases hst
    · cases hst
  | fail code =>
    simp only [CDirectoryWatch.step] at hst
    split at hst <;> cases hst

/-- A live watch whose event is not set has a read that waits. -/
theorem Sound.reading_waits (h : Sound s) (hlive : Live s) (hcall : s.call = .none) (hsignalled : s.isSignalled = false) :
    s.reading = some .waiting := by
  obtain ⟨watch, hwatch, hpending⟩ := hlive
  obtain ⟨-, hcount⟩ := placed_of_some hcall hwatch h.placed
  rw [hpending hcall] at hcount
  cases hreading : s.reading with
  | none =>
    rw [hreading] at hcount
    cases hcount
  | some reading =>
    cases reading with
    | waiting => rfl
    | ended readEnd =>
      rw [h.signalled readEnd hreading] at hsignalled
      cases hsignalled

/-- Nothing that changes in a watched folder is lost without a word: since the watch began, or since the owner was last
told that there were too many changes, what ReadChanges found and what is on its way are what was on its way then and the
changes since, in their order, unless such a notice or an error is on its way. Once the event is not set and the system
keeps nothing back, all is found. -/
theorem changes_are_reported {ms : List WatchMove} {before after : List WatchSeen} {fresh : WatchSeen}
    (hr : watchMachine.run init ms = some (s, before ++ fresh :: after)) (hfresh : fresh.isFresh = true)
    (hcalm : Calm after) :
    ∃ told, watchMachine.run init (ms.take (before.length + 1)) = some (told, before ++ [fresh]) ∧
      (fresh = .initialized → told.onTheWay = []) ∧
      (WillTell s ∨ told.onTheWay ++ changes after = reads after ++ s.onTheWay) ∧
      (s.call = .none → s.isSignalled = false → s.queued = [] → s.isFull = false →
        told.onTheWay ++ changes after = reads after) ∧
      ∀ isDirectory records result, .returned isDirectory records (.ok result) ∈ after →
        result.paths = reportedPaths isDirectory records := by
  obtain ⟨ms₁, m, ms₂, u, told, rfl, hbefore, hst, hafter⟩ := Machine.run_splits hr
  have hbegan := Machine.run_concat hbefore hst
  obtain ⟨hlive', hnothing⟩ := step_fresh (sound_run hbefore) hst hfresh
  obtain ⟨hlive, hkept⟩ := passes_run (sound_run hbegan) hlive' hafter hcalm
  refine ⟨told, ?_, hnothing, hkept, fun hcall hsignalled hqueued hfull => ?_, fun isDirectory records result hmem => ?_⟩
  · rw [Machine.run_length hbefore, List.take_length_add_append]
    exact hbegan
  · have hreading := (sound_run hr).reading_waits hlive hcall hsignalled
    rcases hkept with (htells | ⟨reading, hother, hnotice⟩ | ⟨_, _, _, hother, -⟩) | hsame
    · rw [hfull] at htells
      cases htells
    · rw [hreading, Option.some_inj] at hother
      rw [← hother] at hnotice
      exact hnotice.elim
    · rw [hcall] at hother
      cases hother
    · have hempty : s.onTheWay = [] := by
        obtain ⟨watch, hwatch, -⟩ := hlive
        simp only [onTheWay, inCall, hcall, inBuffer, hwatch, hreading, hqueued, List.append_nil]
      rw [hempty, List.append_nil] at hsame
      exact hsame
  · obtain ⟨left, right, rfl⟩ := List.append_of_mem hmem
    obtain ⟨_, _, _, v, v', hmid, hst', -⟩ := Machine.run_output_eq_some hafter
    exact step_paths (sound_run (Machine.run_append hbegan hmid)) hst'

/-- A file is made, and a read is about to bring it. -/
theorem changes_are_reported_one : ∃ s, watchMachine.run init
    [.initializeWith .opened, .issue none, .readChanges (fun _ => false), .change ⟨1, [0x61]⟩] =
      some (s, [.nothing, .initialized, .returned (fun _ => false) [] (.ok {}), .changed ⟨1, [0x61]⟩]) ∧
      (WillTell s ∨ [⟨1, [0x61]⟩] = s.onTheWay) := by
  refine ⟨_, rfl, ?_⟩
  have hcalm : Calm [.returned (fun _ => false) [] (.ok {}), .changed ⟨1, [0x61]⟩] := by
    simp [Calm, isFresh, isEnd]
  obtain ⟨told, -, hnone, hkept, -⟩ := @changes_are_reported _
    [.initializeWith .opened, .issue none, .readChanges (fun _ => false), .change ⟨1, [0x61]⟩] [.nothing]
    [.returned (fun _ => false) [] (.ok {}), .changed ⟨1, [0x61]⟩] .initialized rfl rfl hcalm
  refine hkept.imp_right fun hsame => ?_
  rw [hnone rfl] at hsame
  exact hsame

end CDirectoryWatch

end TgeCore.IO.Windows
