import TgeCore.IO.WriteFileAtomically
import TgeCore.Library.Buffer
import Mathlib.Data.List.Induction

namespace TgeCore.IO
open Library

/-- What an open file is, as fstat tells. -/
inductive FileKind where
  | folder
  | regular
  | other
deriving DecidableEq

structure FileStatus where
  kind : FileKind
  size : Nat

inductive ReadError where
  | system (errno : Errno)
  | isADirectory
  | invalidArgument
  | fileTooLarge
deriving DecidableEq

/-- How the reads of a file end, each given how many bytes it asks for: the file may shrink or grow
meanwhile. No bytes mean the end of the file. -/
abbrev FileReads := Nat → (wanted : Nat) → Except Errno { bytes : List UInt8 // bytes.length ≤ wanted }

/-- A read that was made, with what it asked for and what it got. -/
structure ReadCall where
  wanted : Nat
  answer : Except Errno (List UInt8)
deriving DecidableEq

/-- The loop of ReadOpenFile, with the reads made so far. -/
structure FileReading where
  text : List UInt8
  readError : Option ReadError := none
  numRead : Nat := 0
  isDone : Bool
  reads : List ReadCall := []

namespace FileReading

def start (size : Nat) : FileReading := { text := Buffer.resize [] size 0, isDone := size == 0 }

/-- Once around the loop. There is no next state when a byte would land outside of the text. -/
def step (kernel : FileReads) (s : FileReading) : Option FileReading :=
  if s.isDone then some s
  else
    match kernel s.reads.length (s.text.length - s.numRead) with
    | .ok ⟨bytes, _⟩ =>
      let reads := s.reads ++ [⟨s.text.length - s.numRead, .ok bytes⟩]
      if 0 < bytes.length then
        (Buffer.store s.text s.numRead bytes).map fun text =>
          { s with text, numRead := s.numRead + bytes.length, isDone := s.numRead + bytes.length == text.length, reads }
      else some { s with text := Buffer.resize s.text s.numRead 0, isDone := true, reads }
    | .error errno =>
      let reads := s.reads ++ [⟨s.text.length - s.numRead, .error errno⟩]
      if errno ≠ EINTR then some { s with readError := some (.system errno), isDone := true, reads }
      else some { s with reads }

/-- So often around the loop. -/
def run (kernel : FileReads) (s : FileReading) : Nat → Option FileReading
  | 0 => some s
  | rounds + 1 => (run kernel s rounds).bind (step kernel)

def result (s : FileReading) : Option (Except ReadError (List UInt8)) :=
  if s.isDone then
    match s.readError with
    | none => some (.ok s.text)
    | some error => some (.error error)
  else none

end FileReading

/-- What ReadOpenFile has returned after so many rounds of its loop, if it has, and the reads it has made. -/
def readOpenFile (fstat : Except Errno FileStatus) (maxSize : Nat) (kernel : FileReads) (rounds : Nat) :
    Option (Option (Except ReadError (List UInt8)) × List ReadCall) :=
  match fstat with
  | .error errno => some (some (.error (.system errno)), [])
  | .ok status =>
    if status.kind = .folder then some (some (.error .isADirectory), [])
    else if status.kind ≠ .regular then some (some (.error .invalidArgument), [])
    else if status.size > maxSize then some (some (.error .fileTooLarge), [])
    else (FileReading.run kernel (FileReading.start status.size) rounds).map fun s => (s.result, s.reads)

/-- The bytes that reads have delivered. -/
def delivered (reads : List ReadCall) : List UInt8 := reads.flatMap fun read => read.answer.toOption.getD []

/-- The file has more to give after this read. -/
def ReadCall.GoesOn (read : ReadCall) : Prop :=
  read.answer = .error EINTR ∨ ∃ bytes, bytes ≠ [] ∧ read.answer = .ok bytes

/-- What reads of a file of a size amount to: the bytes up to that size, those up to an end of
the file that came first, or the error of a read that failed. -/
inductive ReadResult (size : Nat) : List ReadCall → Except ReadError (List UInt8) → Prop where
  | whole {reads : List ReadCall} (hreads : ∀ read ∈ reads, read.GoesOn) (hsize : (delivered reads).length = size) :
      ReadResult size reads (.ok (delivered reads))
  | endOfFile {reads : List ReadCall} {last : ReadCall} (hreads : ∀ read ∈ reads, read.GoesOn)
      (hsize : (delivered reads).length < size) (hlast : last.answer = .ok []) :
      ReadResult size (reads ++ [last]) (.ok (delivered reads))
  | failed {reads : List ReadCall} {last : ReadCall} {errno : Errno} (hreads : ∀ read ∈ reads, read.GoesOn)
      (hsize : (delivered reads).length < size) (hlast : last.answer = .error errno) (herrno : errno ≠ EINTR) :
      ReadResult size (reads ++ [last]) (.error (.system errno))

/-- From some read on none is interrupted. -/
def FileReads.FinitelyInterrupted (kernel : FileReads) : Prop :=
  ∃ last, ∀ i ≥ last, ∀ wanted, kernel i wanted ≠ .error EINTR

namespace FileReading

/-- The reads that a loop has made, and what it has by them. -/
structure Sound (size : Nat) (kernel : FileReads) (s : FileReading) : Prop where
  bounded : ∀ before read after, s.reads = before ++ read :: after →
    0 < read.wanted ∧ (delivered before).length + read.wanted = size
  answered : ∀ i read, s.reads[i]? = some read → read.answer = (kernel i read.wanted).map Subtype.val
  goesOn : s.isDone = false → s.readError = none ∧ (∀ read ∈ s.reads, read.GoesOn) ∧ s.text.length = size ∧
    s.text.take s.numRead = delivered s.reads ∧ s.numRead < size
  ends : s.isDone = true → ∃ result, s.result = some result ∧ ReadResult size s.reads result

variable {size : Nat} {kernel : FileReads} {s : FileReading}

theorem delivered_append (reads : List ReadCall) (read : ReadCall) :
    delivered (reads ++ [read]) = delivered reads ++ read.answer.toOption.getD [] := by
  unfold delivered
  rw [List.flatMap_append, List.flatMap_singleton]

/-- One more read, of what is left. -/
theorem bounded_append {reads : List ReadCall} {last : ReadCall}
    (h : ∀ before read after, reads = before ++ read :: after →
      0 < read.wanted ∧ (delivered before).length + read.wanted = size)
    (hlast : 0 < last.wanted ∧ (delivered reads).length + last.wanted = size) :
    ∀ before read after, reads ++ [last] = before ++ read :: after →
      0 < read.wanted ∧ (delivered before).length + read.wanted = size := by
  intro before read after heq
  cases after using List.reverseRecOn with
  | nil =>
    obtain ⟨rfl, hread⟩ := List.append_inj' heq rfl
    rw [← List.singleton_inj.mp hread]
    exact hlast
  | append_singleton after end' =>
    rw [← List.cons_append, ← List.append_assoc] at heq
    exact h before read after (List.append_inj' heq rfl).1

theorem answered_append {reads : List ReadCall} {last : ReadCall}
    (h : ∀ i read, reads[i]? = some read → read.answer = (kernel i read.wanted).map Subtype.val)
    (hlast : last.answer = (kernel reads.length last.wanted).map Subtype.val) :
    ∀ i read, (reads ++ [last])[i]? = some read → read.answer = (kernel i read.wanted).map Subtype.val := by
  intro i read hread
  cases Nat.lt_or_ge i reads.length with
  | inl hi =>
    rw [List.getElem?_append_left hi] at hread
    exact h i read hread
  | inr hi =>
    have hlt := (List.getElem?_eq_some_iff.mp hread).1
    rw [List.length_append, List.length_singleton] at hlt
    obtain rfl : i = reads.length := by omega
    rw [List.getElem?_concat_length] at hread
    cases hread
    exact hlast

theorem goesOn_append {reads : List ReadCall} {last : ReadCall} (h : ∀ read ∈ reads, read.GoesOn) (hlast : last.GoesOn) :
    ∀ read ∈ reads ++ [last], read.GoesOn := by
  intro read hread
  cases List.mem_append.mp hread with
  | inl hbefore => exact h read hbefore
  | inr hlast' =>
    rw [List.mem_singleton.mp hlast']
    exact hlast

theorem Sound.numRead_eq (h : Sound size kernel s) (hdone : s.isDone = false) :
    (delivered s.reads).length = s.numRead := by
  obtain ⟨-, -, hlength, htext, hsize⟩ := h.goesOn hdone
  rw [← htext, List.length_take]
  omega

theorem Sound.start (size : Nat) (kernel : FileReads) : Sound size kernel (.start size) where
  bounded := by
    intro before read after heq
    cases before with
    | nil => cases heq
    | cons first before => cases heq
  answered := by
    intro i read hread
    cases hread
  goesOn := by
    intro hdone
    have hsize : size ≠ 0 := beq_eq_false_iff_ne.mp hdone
    refine ⟨rfl, fun read hread => absurd hread List.not_mem_nil, Buffer.length_resize .., rfl, ?_⟩
    exact Nat.pos_of_ne_zero hsize
  ends := by
    intro hdone
    have hsize : size = 0 := beq_iff_eq.mp hdone
    subst hsize
    exact ⟨.ok [], rfl, .whole (fun read hread => absurd hread List.not_mem_nil) rfl⟩

/-- Every round finds room for what it reads, and keeps what holds. -/
theorem Sound.step (h : Sound size kernel s) : ∃ t, s.step kernel = some t ∧ Sound size kernel t := by
  cases hdone : s.isDone with
  | true =>
    refine ⟨s, ?_, h⟩
    unfold FileReading.step
    rw [if_pos hdone]
  | false =>
    obtain ⟨herror, hreads, hlength, htext, hsize⟩ := h.goesOn hdone
    have hnum := h.numRead_eq hdone
    have hwanted : 0 < s.text.length - s.numRead ∧ (delivered s.reads).length + (s.text.length - s.numRead) = size := by
      omega
    unfold FileReading.step
    rw [if_neg (by rw [hdone]; exact Bool.false_ne_true)]
    cases hanswer : kernel s.reads.length (s.text.length - s.numRead) with
    | ok answer =>
      obtain ⟨bytes, hbytes⟩ := answer
      have hcall : (⟨s.text.length - s.numRead, .ok bytes⟩ : ReadCall).answer =
          (kernel s.reads.length (s.text.length - s.numRead)).map Subtype.val := by
        rw [hanswer]
        rfl
      simp only
      split
      · rename_i hpos
        have hroom : s.numRead + bytes.length ≤ s.text.length := by omega
        obtain ⟨text, hstore⟩ : ∃ text, Buffer.store s.text s.numRead bytes = some text := ⟨_, Buffer.store_of_le hroom⟩
        have hgoes : ∀ read ∈ s.reads ++ [⟨s.text.length - s.numRead, .ok bytes⟩], read.GoesOn :=
          goesOn_append hreads (.inr ⟨bytes, List.ne_nil_of_length_pos hpos, rfl⟩)
        have hnow : text.take (s.numRead + bytes.length) =
            delivered (s.reads ++ [⟨s.text.length - s.numRead, .ok bytes⟩]) := by
          rw [Buffer.take_store hstore, htext, delivered_append]
          rfl
        have htotal : text.length = size := (Buffer.length_store hstore).trans hlength
        rw [hstore]
        refine ⟨_, rfl, bounded_append h.bounded hwanted, answered_append h.answered hcall, fun hend => ?_, fun hend => ?_⟩
        · have hmore : s.numRead + bytes.length ≠ text.length := beq_eq_false_iff_ne.mp hend
          exact ⟨herror, hgoes, htotal, hnow, show s.numRead + bytes.length < size by omega⟩
        · have hall := beq_iff_eq.mp hend
          rw [hall, List.take_length] at hnow
          refine ⟨.ok text, ?_, ?_⟩
          · unfold FileReading.result
            rw [if_pos hend, herror]
          · rw [hnow]
            exact .whole hgoes (by rw [← hnow, htotal])
      · rename_i hempty
        obtain rfl := List.length_eq_zero_iff.mp (Nat.eq_zero_of_not_pos hempty)
        refine ⟨_, rfl, bounded_append h.bounded hwanted, answered_append h.answered hcall, fun hend => ?_, fun _ => ?_⟩
        · cases hend
        · refine ⟨.ok (delivered s.reads), ?_, .endOfFile hreads (hnum ▸ hsize) rfl⟩
          unfold FileReading.result
          rw [if_pos rfl]
          simp only [herror]
          rw [Buffer.resize_of_le (by omega), htext]
    | error errno =>
      have hcall : (⟨s.text.length - s.numRead, .error errno⟩ : ReadCall).answer =
          (kernel s.reads.length (s.text.length - s.numRead)).map Subtype.val := by
        rw [hanswer]
        rfl
      simp only
      split
      · rename_i herrno
        refine ⟨_, rfl, bounded_append h.bounded hwanted, answered_append h.answered hcall, fun hend => ?_, fun _ => ?_⟩
        · cases hend
        · exact ⟨.error (.system errno), rfl, .failed hreads (hnum ▸ hsize) rfl herrno⟩
      · rename_i herrno
        obtain rfl := not_not.mp herrno
        refine ⟨_, rfl, bounded_append h.bounded hwanted, answered_append h.answered hcall, fun hend => ?_, fun hend => ?_⟩
        · refine ⟨herror, goesOn_append hreads (.inl rfl), hlength, ?_, hsize⟩
          rw [delivered_append]
          exact htext.trans (List.append_nil _).symm
        · rw [hdone] at hend
          cases hend

theorem Sound.run (h : Sound size kernel s) (rounds : Nat) :
    ∃ t, FileReading.run kernel s rounds = some t ∧ Sound size kernel t := by
  induction rounds with
  | zero => exact ⟨s, rfl, h⟩
  | succ rounds ih =>
    obtain ⟨t, ht, hsound⟩ := ih
    obtain ⟨u, hu, hsound'⟩ := hsound.step
    refine ⟨u, ?_, hsound'⟩
    rw [FileReading.run, ht, Option.bind_some, hu]

/-- A round ends the loop, or it made a read, which gave a byte unless it was interrupted. -/
theorem step_progress {t : FileReading} (h : s.step kernel = some t) (hdone : t.isDone = false) :
    t.reads.length = s.reads.length + 1 ∧ s.numRead ≤ t.numRead ∧
      ((∀ wanted, kernel s.reads.length wanted ≠ .error EINTR) → s.numRead < t.numRead) := by
  unfold FileReading.step at h
  split at h
  · rename_i hs
    cases h
    rw [hs] at hdone
    cases hdone
  · split at h
    · simp only at h
      split at h
      · rename_i hpos
        obtain ⟨text, -, rfl⟩ := Option.map_eq_some_iff.mp h
        exact ⟨List.length_append, Nat.le_add_right .., fun _ => Nat.lt_add_of_pos_right hpos⟩
      · cases h
        cases hdone
    · rename_i errno hanswer
      simp only at h
      split at h
      · cases h
        cases hdone
      · rename_i herrno
        cases h
        obtain rfl := not_not.mp herrno
        exact ⟨List.length_append, Nat.le_refl _, fun hnever => absurd hanswer (hnever _)⟩

/-- While the loop goes on, the rounds are no more than those that could be interrupted and the bytes read. -/
theorem run_progress {size last : Nat} {kernel : FileReads} {s : FileReading} {rounds : Nat}
    (hlast : ∀ i ≥ last, ∀ wanted, kernel i wanted ≠ .error EINTR)
    (h : FileReading.run kernel (.start size) rounds = some s) (hdone : s.isDone = false) :
    s.reads.length = rounds ∧ rounds ≤ last + s.numRead := by
  induction rounds generalizing s with
  | zero =>
    cases h
    exact ⟨rfl, Nat.zero_le _⟩
  | succ rounds ih =>
    obtain ⟨before, hbefore, hstep⟩ := Option.bind_eq_some_iff.mp h
    cases hbeforedone : before.isDone with
    | true =>
      unfold FileReading.step at hstep
      rw [if_pos hbeforedone] at hstep
      cases hstep
      rw [hbeforedone] at hdone
      cases hdone
    | false =>
      obtain ⟨hreads, hrounds⟩ := ih hbefore hbeforedone
      obtain ⟨hlength, hle, hmore⟩ := step_progress hstep hdone
      refine ⟨by rw [hlength, hreads], ?_⟩
      cases Nat.lt_or_ge rounds last with
      | inl hearly => omega
      | inr hlate =>
        have hgrown := hmore fun wanted => hlast _ (by omega) wanted
        omega

theorem run_ends (size : Nat) {kernel : FileReads} (h : kernel.FinitelyInterrupted) :
    ∃ rounds s, FileReading.run kernel (.start size) rounds = some s ∧ s.isDone = true := by
  obtain ⟨last, hlast⟩ := h
  obtain ⟨s, hrun, hsound⟩ := (Sound.start size kernel).run (last + size)
  refine ⟨last + size, s, hrun, ?_⟩
  cases hdone : s.isDone with
  | true => rfl
  | false =>
    obtain ⟨-, hrounds⟩ := run_progress hlast hrun hdone
    obtain ⟨-, -, -, -, hsize⟩ := hsound.goesOn hdone
    omega

end FileReading

/-- What a caller of ReadOpenFile on a regular file relies on, however the reads end. -/
structure ExactRead (size maxSize : Nat) (kernel : FileReads) : Prop where
  inBounds : ∀ rounds, ∃ result reads, readOpenFile (.ok ⟨.regular, size⟩) maxSize kernel rounds = some (result, reads) ∧
    (∀ before read after, reads = before ++ read :: after →
      0 < read.wanted ∧ (delivered before).length + read.wanted = size) ∧
    ∀ i read, reads[i]? = some read → read.answer = (kernel i read.wanted).map Subtype.val
  refused : maxSize < size → ∀ rounds,
    readOpenFile (.ok ⟨.regular, size⟩) maxSize kernel rounds = some (some (.error .fileTooLarge), [])
  exact : size ≤ maxSize → ∀ rounds result reads,
    readOpenFile (.ok ⟨.regular, size⟩) maxSize kernel rounds = some (some result, reads) → ReadResult size reads result
  ends : kernel.FinitelyInterrupted → ∃ rounds result reads,
    readOpenFile (.ok ⟨.regular, size⟩) maxSize kernel rounds = some (some result, reads)

theorem readOpenFile_regular {size maxSize : Nat} (h : size ≤ maxSize) (kernel : FileReads) (rounds : Nat) :
    readOpenFile (.ok ⟨.regular, size⟩) maxSize kernel rounds =
      (FileReading.run kernel (.start size) rounds).map fun s => (s.result, s.reads) := by
  simp only [readOpenFile, reduceCtorEq, if_false, ne_eq, not_true, if_neg (Nat.not_lt.mpr h)]

theorem readOpenFile_refused {size maxSize : Nat} (h : maxSize < size) (kernel : FileReads) (rounds : Nat) :
    readOpenFile (.ok ⟨.regular, size⟩) maxSize kernel rounds = some (some (.error .fileTooLarge), []) := by
  simp only [readOpenFile, reduceCtorEq, if_false, ne_eq, not_true, if_pos h]

/-- For any cap, any size and any way the reads end. -/
theorem readOpenFile_exact (size maxSize : Nat) (kernel : FileReads) : ExactRead size maxSize kernel where
  inBounds := by
    intro rounds
    cases Nat.lt_or_ge maxSize size with
    | inl hlarge =>
      refine ⟨_, [], readOpenFile_refused hlarge kernel rounds, fun before read after heq => ?_, fun i read hread => ?_⟩
      · cases before with
        | nil => cases heq
        | cons first before => cases heq
      · cases hread
    | inr hfits =>
      obtain ⟨s, hrun, hsound⟩ := (FileReading.Sound.start size kernel).run rounds
      refine ⟨s.result, s.reads, ?_, hsound.bounded, hsound.answered⟩
      rw [readOpenFile_regular hfits, hrun, Option.map_some]
  refused := fun hlarge => readOpenFile_refused hlarge kernel
  exact := by
    intro hfits rounds result reads hread
    obtain ⟨s, hrun, hsound⟩ := (FileReading.Sound.start size kernel).run rounds
    rw [readOpenFile_regular hfits, hrun] at hread
    obtain ⟨hresult, rfl⟩ := Prod.mk.inj (Option.some.inj hread)
    cases hdone : s.isDone with
    | true =>
      obtain ⟨result', hresult', hexact⟩ := hsound.ends hdone
      cases hresult.symm.trans hresult'
      exact hexact
    | false =>
      unfold FileReading.result at hresult
      rw [if_neg (by rw [hdone]; exact Bool.false_ne_true)] at hresult
      cases hresult
  ends := by
    intro hfinite
    cases Nat.lt_or_ge maxSize size with
    | inl hlarge => exact ⟨0, _, [], readOpenFile_refused hlarge kernel 0⟩
    | inr hfits =>
      obtain ⟨rounds, s, hrun, hdone⟩ := FileReading.run_ends size hfinite
      obtain ⟨t, ht, hsound⟩ := (FileReading.Sound.start size kernel).run rounds
      cases hrun.symm.trans ht
      obtain ⟨result, hresult, -⟩ := hsound.ends hdone
      refine ⟨rounds, result, s.reads, ?_⟩
      rw [readOpenFile_regular hfits, hrun, Option.map_some, hresult]

/-- A file of four bytes that shrinks to three: two bytes, an interruption, one byte and the end. -/
example : readOpenFile (.ok ⟨.regular, 4⟩) 16 (fun i wanted =>
    match i, wanted with
    | 0, _ + 2 => .ok ⟨[7, 8], Nat.le_add_left ..⟩
    | 1, _ => .error EINTR
    | 2, _ + 1 => .ok ⟨[9], Nat.le_add_left ..⟩
    | _, _ => .ok ⟨[], Nat.zero_le _⟩) 4 =
    some (some (.ok [7, 8, 9]), [⟨4, .ok [7, 8]⟩, ⟨2, .error EINTR⟩, ⟨2, .ok [9]⟩, ⟨1, .ok []⟩]) := by decide +kernel

end TgeCore.IO
