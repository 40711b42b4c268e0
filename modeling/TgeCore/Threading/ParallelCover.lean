import Mathlib.Data.List.Flatten
import TgeCore.Threading.ParallelFor
import TgeCore.Threading.Uncancelled

namespace TgeCore.Threading
open Library

section Calls
variable {G : Type} [DecidableEq G] {parent : G → Option G} {c : ParallelForCall G} {p p' : ParallelForState G}
  {js : List (JobSeen G)} {os : List (List UInt32)}

/-- The indices of the chunk that a job has captured. -/
def ParallelForCall.jobIndices (c : ParallelForCall G) (job : Nat) : List UInt32 :=
  indices (c.chunkBounds (UInt32.ofNat job)).1 (c.chunkBounds (UInt32.ofNat job)).2

/-- What the calling thread's place says about its chunks and its Wait. -/
def ParallelForState.Placed (c : ParallelForCall G) (p : ParallelForState G) : Prop :=
  match p.caller with
  | .called => p.captured = []
  | .submitting chunk => 1 < c.numChunks ∧ p.captured.length = chunk.toNat ∧ chunk ≤ c.numChunks
  | .submitted chunk call => 1 < c.numChunks ∧ p.captured.length = chunk.toNat + 1 ∧ chunk < c.numChunks ∧
      ∃ a, p.jobs.calls[call]? = some a ∧ a.inSubmit
  | .waiting call => 1 < c.numChunks ∧ p.captured.length = c.numChunks.toNat ∧
      ∃ a, p.jobs.calls[call]? = some a ∧
        (a.waits c.group ∨ a = .done ∧ (p.jobs.groups c.group).activeJobs = 0)
  | .returned => p.captured = [] ∧ ¬ 1 < c.numChunks ∨
      1 < c.numChunks ∧ p.captured.length = c.numChunks.toNat ∧ (p.jobs.groups c.group).activeJobs = 0

/-- What the calling thread's own loop has called the function with. -/
def ParallelForState.inline (c : ParallelForCall G) (p : ParallelForState G) : List UInt32 :=
  if p.caller = .returned ∧ ¬ 1 < c.numChunks then indices c.begin c.stop else []

/-- A call of ParallelFor between two steps. -/
structure ParallelForState.Sound (parent : G → Option G) (c : ParallelForCall G) (js : List (JobSeen G))
    (os : List (List UInt32)) (p : ParallelForState G) : Prop where
  books : Books js p.jobs c.group
  uncancelled : Uncancelled parent c.group p.jobs
  skipped : jobsOf c.group .skipped js = []
  dropped : jobsOf c.group .dropped js = []
  counted : (p.jobs.groups c.group).submitted + p.jobs.asked c.group = p.captured.length
  submits : ∀ i a, p.jobs.calls[i]? = some a → a.submits c.group → ∃ chunk, p.caller = .submitted chunk i
  captured : p.captured = (List.range p.captured.length).map fun chunk => c.chunkBounds (UInt32.ofNat chunk)
  called : os.flatten = p.inline c ++ (jobsOf c.group .started js).flatMap c.jobIndices
  placed : p.Placed c

theorem ParallelForCall.start_sound (parent : G → Option G) (c : ParallelForCall G) :
    c.start.Sound parent c [] [] := by
  have hruns : (CJobSystem.create c.numThreads : CJobSystem G).runs = [] := by
    simp [CJobSystem.runs, CJobSystem.create]
  have hrun : (jobSystem parent).run (.create c.numThreads) [] = some (.create c.numThreads, []) := rfl
  refine ⟨books_run hrun c.group, ⟨fun a _ => rfl, fun a _ call hcall => absurd hcall List.not_mem_nil,
    fun job b hb => ?_⟩, rfl, rfl, rfl, fun i a ha => ?_, rfl, rfl, rfl⟩
  · change _ ∈ (CJobSystem.create c.numThreads : CJobSystem G).runs at hb
    rw [hruns] at hb
    cases hb
  · cases ha

/-- Where no SubmitJob of the calling thread is going on, every captured chunk is counted. -/
theorem ParallelForState.Sound.all_counted (h : p.Sound parent c js os)
    (hcaller : ∀ chunk call, p.caller ≠ .submitted chunk call) :
    p.jobs.asked c.group = 0 ∧ (p.jobs.groups c.group).submitted = p.captured.length := by
  have hasked : p.jobs.asked c.group = 0 := by
    refine tally_eq_zero.mpr fun a ha => ?_
    obtain ⟨i, hi⟩ := List.mem_iff_getElem?.mp ha
    by_contra hasks
    obtain ⟨chunk, hchunk⟩ := h.submits i a hi (JobCallAt.submits_of_asks hasks)
    exact hcaller chunk i hchunk
  have hcounted := h.counted
  exact ⟨hasked, by omega⟩

/-- The started job calls the function with its own chunk. -/
theorem ParallelForState.Sound.calls_eq (h : p.Sound parent c js os) {s' : CJobSystem G} {out : JobSeen G}
    (hbooks : Books (js ++ [out]) s' c.group) (hle : (s'.groups c.group).submitted ≤ p.captured.length) :
    p.calls c.group out = (out.jobs c.group .started).flatMap c.jobIndices := by
  refine List.flatMap_congr fun job hjob => ?_
  have hlt : job < p.captured.length := by
    refine (hbooks.started_lt ?_).trans_le hle
    rw [jobsOf_concat]
    exact List.mem_append_right _ hjob
  have hget : p.captured[job]? = some (c.chunkBounds (UInt32.ofNat job)) := by
    rw [h.captured, List.getElem?_map, List.getElem?_range (by simpa using hlt)]
    rfl
  rw [hget]
  rfl

theorem ParallelForState.Sound.thread (h : p.Sound parent c js os) {move : JobMove G} {s' : CJobSystem G}
    {out : JobSeen G} (hmove : move.group ≠ some c.group)
    (hcancel : ∀ a, Ancestor parent c.group a → move ≠ .cancel a) (hst : p.jobs.step parent move = some (s', out)) :
    { p with jobs := s' }.Sound parent c (js ++ [out]) (os ++ [p.calls c.group out]) := by
  have hsubmit : ∀ priority, move ≠ .submit c.group priority := by
    rintro priority rfl
    exact hmove rfl
  have hbooks := h.books.step (step_entry hst c.group)
  obtain ⟨huncancelled, hskipped, hdropped⟩ := h.uncancelled.step hcancel hst
  have hcounted := step_counted hsubmit hst
  have hsubmits : ∀ i a, s'.calls[i]? = some a → a.submits c.group → ∃ chunk, p.caller = .submitted chunk i := by
    intro i a ha hsubmits
    obtain ⟨b, hb, hsubmits⟩ := step_submits hsubmit hst ha hsubmits
    exact h.submits i b hb hsubmits
  have hle := h.counted
  refine ⟨hbooks, huncancelled, ?_, ?_, ?_, hsubmits, h.captured, ?_, ?_⟩
  · rw [jobsOf_concat, h.skipped, hskipped]
    rfl
  · rw [jobsOf_concat, h.dropped, hdropped]
    rfl
  · exact hcounted.trans h.counted
  · rw [List.flatten_append, h.called, List.flatten_singleton, jobsOf_concat, List.flatMap_append,
      List.append_assoc, h.calls_eq hbooks (by omega)]
    rfl
  · -- A group whose jobs are all counted gets no more of them.
    have hidle : (∀ chunk call, p.caller ≠ .submitted chunk call) → (p.jobs.groups c.group).activeJobs = 0 →
        (s'.groups c.group).activeJobs = 0 := by
      intro hcaller hnone
      have hasked := (h.all_counted hcaller).1
      have hentry := (step_entry hst c.group).submitted
      exact step_idle hst hnone (by omega)
    have hplaced := h.placed
    unfold Placed at hplaced ⊢
    cases hat : p.caller with
    | called => rwa [hat] at hplaced
    | submitting chunk => rwa [hat] at hplaced
    | submitted chunk call =>
      rw [hat] at hplaced
      obtain ⟨hmany, hlength, hlt, a, ha, hin⟩ := hplaced
      refine ⟨hmany, hlength, hlt, ?_⟩
      cases step_call hst c.group ha with
      | inl hsame => exact ⟨a, hsame, hin⟩
      | inr hgone =>
        obtain ⟨b, hb, hcalled⟩ := hgone
        exact ⟨b, hb, hcalled.inSubmit hin⟩
    | waiting call =>
      rw [hat] at hplaced
      obtain ⟨hmany, hlength, a, ha, hwait⟩ := hplaced
      have hidle := hidle (by simp [hat])
      refine ⟨hmany, hlength, ?_⟩
      cases step_call hst c.group ha with
      | inl hsame => exact ⟨a, hsame, hwait.imp_right fun hdone => ⟨hdone.1, hidle hdone.2⟩⟩
      | inr hgone =>
        obtain ⟨b, hb, hcalled⟩ := hgone
        have hwaits := hwait.resolve_right fun hdone => hcalled.live hdone.1
        exact ⟨b, hb, (hcalled.waits hwaits).imp_right fun hdone => ⟨hdone.1, hidle hdone.2⟩⟩
    | returned =>
      rw [hat] at hplaced
      refine hplaced.imp_right fun hdone => ?_
      exact ⟨hdone.1, hdone.2.1, hidle (by simp [hat]) hdone.2.2⟩

/-- The calling thread goes on without a step of the job system. -/
theorem ParallelForState.Sound.move (h : p.Sound parent c js os) (hcaller : ∀ chunk call, p.caller ≠ .submitted chunk call ∨
      p.jobs.calls[call]? = some .done) {next : ParallelForAt} {out : List UInt32}
    (hinline : ({ p with caller := next } : ParallelForState G).inline c = p.inline c ++ out)
    (hstarted : out ≠ [] → jobsOf c.group .started js = [])
    (hplaced : ({ p with caller := next } : ParallelForState G).Placed c) :
    { p with caller := next }.Sound parent c js (os ++ [out]) := by
  refine ⟨h.books, h.uncancelled, h.skipped, h.dropped, h.counted, fun i a ha hsubmits => ?_, h.captured, ?_, hplaced⟩
  · obtain ⟨chunk, hchunk⟩ := h.submits i a ha hsubmits
    cases hcaller chunk i with
    | inl hne => exact absurd hchunk hne
    | inr hdone =>
      obtain rfl : a = .done := Option.some.inj (ha.symm.trans hdone)
      exact hsubmits.elim
  · rw [List.flatten_append, List.flatten_singleton, h.called, hinline]
    by_cases hout : out = []
    · simp [hout]
    · simp [hstarted hout]

/-- The calling thread makes its next call on the group. -/
theorem ParallelForState.Sound.begin (h : p.Sound parent c js os) {call : JobCallAt G} {s' : CJobSystem G}
    {out : JobSeen G} (hbegin : p.jobs.begin call = some (s', out)) {next : ParallelForAt}
    {captured : List (UInt32 × UInt32)} {m : JobMove G} (hm : p.jobs.step parent m = p.jobs.begin call)
    (hmove : ∀ a, m ≠ .cancel a)
    (hcaller : ∀ chunk call, p.caller ≠ .submitted chunk call)
    (hsubmits : call.submits c.group → ∃ chunk, next = .submitted chunk p.jobs.calls.length)
    (hlength : captured.length = p.captured.length + call.asks c.group)
    (hcaptured : captured = (List.range captured.length).map fun chunk => c.chunkBounds (UInt32.ofNat chunk))
    (hinline : ({ jobs := s', caller := next, captured } : ParallelForState G).inline c = p.inline c)
    (hplaced : ({ jobs := s', caller := next, captured } : ParallelForState G).Placed c) :
    { jobs := s', caller := next, captured : ParallelForState G }.Sound parent c (js ++ [out]) (os ++ [[]]) := by
  have hst := hm.trans hbegin
  obtain ⟨hcalls, hgroups, rfl⟩ := begin_calls hbegin
  obtain ⟨huncancelled, -, -⟩ := h.uncancelled.step (fun a _ => hmove a) hst
  refine ⟨h.books.step (step_entry hst c.group), huncancelled, ?_, ?_, ?_, fun i a ha hsubmits' => ?_, hcaptured, ?_, hplaced⟩
  · rw [jobsOf_concat, h.skipped]
    rfl
  · rw [jobsOf_concat, h.dropped]
    rfl
  · have hcounted := h.counted
    simp only [CJobSystem.asked, hcalls, hgroups, tally_append, tally_cons, tally_nil]
    unfold CJobSystem.asked at hcounted
    omega
  · change s'.calls[i]? = some a at ha
    rw [hcalls, List.getElem?_append] at ha
    split at ha
    · obtain ⟨chunk, hchunk⟩ := h.submits i a ha hsubmits'
      exact absurd hchunk (hcaller chunk i)
    · rename_i hge
      have hlast : i - p.jobs.calls.length = 0 := by
        have hlt := (List.getElem?_eq_some_iff.mp ha).1
        simp only [List.length_singleton] at hlt
        omega
      rw [hlast] at ha
      obtain rfl : call = a := Option.some.inj ha
      obtain ⟨chunk, hchunk⟩ := hsubmits hsubmits'
      have hi : i = p.jobs.calls.length := by omega
      exact ⟨chunk, hi ▸ hchunk⟩
  · rw [List.flatten_append, List.flatten_singleton, List.append_nil, h.called, hinline, jobsOf_concat]
    simp [JobSeen.jobs]

theorem ParallelForState.Sound.caller (h : p.Sound parent c js os) {out : List UInt32}
    (hst : c.step parent p .caller = some (p', out)) : ∃ js', p'.Sound parent c js' (os ++ [out]) := by
  have hplaced := h.placed
  unfold Placed at hplaced
  have hone : (1 : UInt32).toNat = 1 := rfl
  simp only [ParallelForCall.step] at hst
  cases hat : p.caller with
  | called =>
    rw [hat] at hplaced hst
    simp only at hst
    split at hst
    · rename_i hmany
      cases hst
      refine ⟨js, h.move (by simp [hat]) ?_ (by simp) ⟨hmany, ?_, ?_⟩⟩
      · simp [inline, hat]
      · rw [hplaced]
        rfl
      · exact UInt32.le_iff_toNat_le.mpr (Nat.zero_le _)
    · rename_i hfew
      cases hst
      refine ⟨js, h.move (by simp [hat]) ?_ (fun _ => ?_) (.inl ⟨hplaced, hfew⟩)⟩
      · simp [inline, hat, hfew]
      · have hcounted := (h.all_counted (by simp [hat])).2
        rw [hplaced] at hcounted
        refine List.eq_nil_iff_forall_not_mem.mpr fun job hjob => ?_
        have hlt := h.books.started_lt hjob
        simp only [List.length_nil] at hcounted
        omega
  | submitting chunk =>
    rw [hat] at hplaced hst
    obtain ⟨hmany, hlength, hle⟩ := hplaced
    simp only at hst
    split at hst
    · rename_i hlt
      obtain ⟨⟨s', seen⟩, hbegin, hnext⟩ := Option.map_eq_some_iff.mp hst
      cases hnext
      refine ⟨_, h.begin (m := .submit c.group .normal) hbegin rfl (by simp) (by simp [hat]) (fun _ => ⟨chunk, rfl⟩) ?_ ?_ ?_
        ⟨hmany, ?_, hlt, .submitting c.group .normal, ?_, trivial⟩⟩
      · simp [JobCallAt.asks]
      · have hchunk : UInt32.ofNat p.captured.length = chunk := by rw [hlength, UInt32.ofNat_toNat]
        rw [List.length_append, List.length_singleton, List.range_succ, List.map_append, ← h.captured,
          List.map_singleton, hchunk]
      · simp [inline, hat]
      · rw [List.length_append, hlength]
        rfl
      · rw [(begin_calls hbegin).1, List.getElem?_concat_length]
    · rename_i hge
      obtain ⟨⟨s', seen⟩, hbegin, hnext⟩ := Option.map_eq_some_iff.mp hst
      cases hnext
      have heq : chunk.toNat = c.numChunks.toNat := by
        rw [UInt32.lt_iff_toNat_lt] at hge
        rw [UInt32.le_iff_toNat_le] at hle
        omega
      refine ⟨_, h.begin (m := .wait c.group) hbegin rfl (by simp) (by simp [hat]) False.elim rfl
        h.captured ?_ ⟨hmany, hlength.trans heq, .waiting c.group, ?_, .inl rfl⟩⟩
      · simp [inline, hat]
      · rw [(begin_calls hbegin).1, List.getElem?_concat_length]
  | submitted chunk call =>
    rw [hat] at hplaced hst
    obtain ⟨hmany, hlength, hlt, -⟩ := hplaced
    simp only at hst
    split at hst
    · rename_i hdone
      cases hst
      have hlt := UInt32.lt_iff_toNat_lt.mp hlt
      have hnext : (chunk + 1).toNat = chunk.toNat + 1 := by
        have hchunks := c.numChunks.toNat_lt
        rw [UInt32.toNat_add, hone, Nat.mod_eq_of_lt (by omega)]
      refine ⟨js, h.move (fun k i => ?_) ?_ (by simp) ⟨hmany, ?_, ?_⟩⟩
      · by_cases hi : i = call
        · exact .inr (hi ▸ hdone)
        · refine .inl fun hk => ?_
          rw [hat] at hk
          cases hk
          exact hi rfl
      · simp [inline, hat]
      · exact hlength.trans hnext.symm
      · exact UInt32.le_iff_toNat_le.mpr (hnext ▸ hlt)
    · cases hst
  | waiting call =>
    rw [hat] at hplaced hst
    obtain ⟨hmany, hlength, a, ha, hwait⟩ := hplaced
    simp only at hst
    split at hst
    · rename_i hdone
      cases hst
      refine ⟨js, h.move (by simp [hat]) ?_ (by simp) (.inr ⟨hmany, hlength, ?_⟩)⟩
      · simp [inline, hat, hmany]
      · obtain rfl : a = .done := Option.some.inj (ha.symm.trans hdone)
        exact (hwait.resolve_left id).2
    · cases hst
  | returned =>
    rw [hat] at hst
    cases hst

theorem ParallelForState.Sound.step (h : p.Sound parent c js os) {move : ParallelForMove G} {out : List UInt32}
    (hcancel : ∀ a, Ancestor parent c.group a → move ≠ .thread (.cancel a))
    (hst : c.step parent p move = some (p', out)) : ∃ js', p'.Sound parent c js' (os ++ [out]) := by
  cases move with
  | caller => exact h.caller hst
  | thread m =>
    simp only [ParallelForCall.step] at hst
    split at hst
    · cases hst
    · rename_i hgroup
      obtain ⟨⟨s', seen⟩, hone, hnext⟩ := Option.map_eq_some_iff.mp hst
      cases hnext
      exact ⟨_, h.thread hgroup (fun a ha hm => hcancel a ha (hm ▸ rfl)) hone⟩

theorem ParallelForState.Sound.run (h : p.Sound parent c js os) {moves : List (ParallelForMove G)}
    {os' : List (List UInt32)} (hcancel : ∀ a, Ancestor parent c.group a → .thread (.cancel a) ∉ moves)
    (hrun : (parallelFor parent c).run p moves = some (p', os')) : ∃ js', p'.Sound parent c js' (os ++ os') := by
  have hsound := Machine.run_invariant (fun moves os p =>
    (∀ a, Ancestor parent c.group a → .thread (.cancel a) ∉ moves) → ∃ js, p.Sound parent c js os) [] os
    (fun moves os p move p' out hinv hst hnone => ?_) (fun _ => ⟨js, h⟩) hrun
  · exact hsound hcancel
  · obtain ⟨js, hsound⟩ := hinv fun a ha hmem => hnone a ha (List.mem_append_left _ hmem)
    refine hsound.step (fun a ha hm => ?_) hst
    exact hnone a ha (List.mem_append_right _ (hm ▸ List.mem_singleton.mpr rfl))

/-- The chunks captured so far are the first of all chunks. -/
theorem ParallelForState.Sound.captured_le (h : p.Sound parent c js os) (hmany : 1 < c.numChunks) :
    p.captured.length ≤ c.numChunks.toNat := by
  have hplaced := h.placed
  unfold Placed at hplaced
  cases hat : p.caller with
  | called =>
    rw [hat] at hplaced
    rw [hplaced]
    exact Nat.zero_le _
  | submitting chunk =>
    rw [hat] at hplaced
    exact hplaced.2.1.trans_le (UInt32.le_iff_toNat_le.mp hplaced.2.2)
  | submitted chunk call =>
    rw [hat] at hplaced
    exact hplaced.2.1.trans_le (UInt32.lt_iff_toNat_lt.mp hplaced.2.2.1)
  | waiting call =>
    rw [hat] at hplaced
    exact hplaced.2.1.le
  | returned =>
    rw [hat] at hplaced
    cases hplaced with
    | inl hfew => exact absurd hmany hfew.2
    | inr hdone => exact hdone.2.1.le

/-- Nothing is captured where the calling thread runs its own loop. -/
theorem ParallelForState.Sound.captured_none (h : p.Sound parent c js os) (hfew : ¬ 1 < c.numChunks) :
    p.captured = [] := by
  have hplaced := h.placed
  unfold Placed at hplaced
  cases hat : p.caller with
  | called =>
    rw [hat] at hplaced
    exact hplaced
  | submitting chunk =>
    rw [hat] at hplaced
    exact absurd hplaced.1 hfew
  | submitted chunk call =>
    rw [hat] at hplaced
    exact absurd hplaced.1 hfew
  | waiting call =>
    rw [hat] at hplaced
    exact absurd hplaced.1 hfew
  | returned =>
    rw [hat] at hplaced
    exact (hplaced.resolve_right fun hdone => hfew hdone.1).1

theorem ParallelForState.Sound.started_none (h : p.Sound parent c js os) (hnone : p.captured = []) :
    jobsOf c.group .started js = [] := by
  have hcounted := h.counted
  refine List.eq_nil_iff_forall_not_mem.mpr fun job hjob => ?_
  have hlt := h.books.started_lt hjob
  rw [hnone, List.length_nil] at hcounted
  omega

omit [DecidableEq G] in
theorem ParallelForCall.range_jobIndices (hordered : c.begin ≤ c.stop) (hmany : 1 < c.numChunks) :
    (List.range c.numChunks.toNat).flatMap c.jobIndices = indices c.begin c.stop := by
  rw [← c.chunks_indices hordered hmany, chunks, List.flatMap_map]
  rfl

/-- No index is given to the function twice, and none from outside of the range. -/
theorem ParallelForState.Sound.count_le (h : p.Sound parent c js os) (hordered : c.begin ≤ c.stop) (i : UInt32) :
    os.flatten.count i ≤ (indices c.begin c.stop).count i := by
  rw [h.called]
  by_cases hmany : 1 < c.numChunks
  · have hinline : p.inline c = [] := if_neg fun hand => hand.2 hmany
    have hsub : (jobsOf c.group .started js).Subperm (List.range c.numChunks.toNat) := by
      have honce := h.books.once
      rw [h.books.numbers] at honce
      have hstarted : (jobsOf c.group .started js).Subperm (List.range (p.jobs.groups c.group).submitted) := by
        refine List.Subperm.trans ?_ honce.subperm
        refine List.Sublist.subperm ?_
        rw [List.append_assoc, List.append_assoc]
        exact (List.sublist_append_left _ _).trans (List.sublist_append_right _ _)
      have hcounted := h.counted
      have hle := h.captured_le hmany
      exact hstarted.trans (List.range_sublist.mpr (by omega)).subperm
    rw [hinline, List.nil_append, ← c.range_jobIndices hordered hmany]
    obtain ⟨jobs, hperm, hjobs⟩ := hsub
    exact ((hperm.flatMap_right c.jobIndices).count_eq i).symm.trans_le ((hjobs.flatMap c.jobIndices).count_le i)
  · rw [h.started_none (h.captured_none hmany), List.flatMap_nil, List.append_nil]
    unfold inline
    split
    · exact Nat.le_refl _
    · exact Nat.zero_le _

/-- A group whose jobs are all settled, with none skipped or dropped, has started each of them. -/
theorem ParallelForState.Sound.all_started (h : p.Sound parent c js os)
    (hidle : (p.jobs.groups c.group).activeJobs = 0) :
    (jobsOf c.group .started js).Perm (List.range (p.jobs.groups c.group).submitted) := by
  have hactive := h.books.activeJobs
  rw [hidle] at hactive
  have hpending : (p.jobs.groups c.group).pending = [] := List.eq_nil_of_length_eq_zero (by omega)
  have hcounted : p.jobs.jobsAt c.group .counted = [] := List.eq_nil_of_length_eq_zero (by omega)
  have hunchecked : p.jobs.jobsAt c.group .unchecked = [] := List.eq_nil_of_length_eq_zero (by omega)
  have honce := h.books.once
  rwa [hpending, hcounted, hunchecked, h.skipped, h.dropped, h.books.numbers, List.append_nil, List.append_nil] at honce

/-- When the call is back, every index of the range was given to the function once,
and no body of its jobs runs any more. -/
theorem ParallelForState.Sound.returned (h : p.Sound parent c js os) (hordered : c.begin ≤ c.stop)
    (hreturned : p.caller = .returned) :
    os.flatten.Perm (indices c.begin c.stop) ∧ ∀ job, .running c.group job ∉ p.jobs.runs := by
  have hplaced := h.placed
  unfold Placed at hplaced
  rw [hreturned] at hplaced
  have hidle : (p.jobs.groups c.group).activeJobs = 0 := by
    cases hplaced with
    | inl hfew =>
      have hactive := h.books.active
      have hcounted := h.counted
      rw [hfew.1, List.length_nil] at hcounted
      omega
    | inr hdone => exact hdone.2.2
  refine ⟨?_, fun job hrun => ?_⟩
  · rw [h.called]
    cases hplaced with
    | inl hfew =>
      rw [h.started_none hfew.1, List.flatMap_nil, List.append_nil, inline, if_pos ⟨hreturned, hfew.2⟩]
    | inr hdone =>
      obtain ⟨hmany, hlength, -⟩ := hdone
      have hinline : p.inline c = [] := if_neg fun hand => hand.2 hmany
      have hsubmitted := (h.all_counted (by simp [hreturned])).2.trans hlength
      rw [hinline, List.nil_append, ← c.range_jobIndices hordered hmany, ← hsubmitted]
      exact (h.all_started hidle).flatMap_right _
  · have hactive := h.books.activeJobs
    have hdecided : p.jobs.jobsAt c.group .decided = [] := List.eq_nil_of_length_eq_zero (by omega)
    have hjob := CJobSystem.mem_jobsAt hrun (List.mem_singleton.mpr rfl)
    rw [hdecided] at hjob
    cases hjob

end Calls

end TgeCore.Threading
