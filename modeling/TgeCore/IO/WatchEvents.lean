import TgeCore.IO.DirectoryWatch

namespace TgeCore.IO
open Library

theorem mem_enqueueOne {queue : List InotifyEvent} {isFull : Bool} {event e : InotifyEvent}
    (h : e ∈ enqueueOne queue isFull event) : e ∈ queue ∨ e = event ∨ e = overflowEvent := by
  unfold enqueueOne at h
  split at h
  · split at h
    · exact .inl h
    · rcases List.mem_append.mp h with h | h
      · exact .inl h
      · exact .inr (.inr (List.mem_singleton.mp h))
  · rcases List.mem_append.mp h with h | h
    · exact .inl h
    · exact .inr (.inl (List.mem_singleton.mp h))

theorem enqueueOne_keeps {queue : List InotifyEvent} {isFull : Bool} {event e : InotifyEvent} (h : e ∈ queue) :
    e ∈ enqueueOne queue isFull event := by
  unfold enqueueOne
  split
  · split
    · exact h
    · exact List.mem_append_left _ h
  · exact List.mem_append_left _ h

theorem enqueueOne_complete {queue : List InotifyEvent} {isFull : Bool} {event : InotifyEvent}
    (h : overflowEvent ∉ enqueueOne queue isFull event) : enqueueOne queue isFull event = queue ++ [event] := by
  unfold enqueueOne at h ⊢
  split
  · rename_i hfull
    rw [if_pos hfull] at h
    split at h
    · exact absurd ‹_› h
    · exact absurd (List.mem_append_right _ List.mem_cons_self) h
  · rfl

theorem mem_enqueue {queue events : List InotifyEvent} {full : List Bool} {e : InotifyEvent}
    (h : e ∈ enqueue queue full events) : e ∈ queue ∨ e ∈ events ∨ e = overflowEvent := by
  induction events generalizing queue full with
  | nil => exact .inl h
  | cons event events ih =>
    rcases ih h with h | h | h
    · rcases mem_enqueueOne h with h | rfl | h
      · exact .inl h
      · exact .inr (.inl List.mem_cons_self)
      · exact .inr (.inr h)
    · exact .inr (.inl (List.mem_cons_of_mem _ h))
    · exact .inr (.inr h)

theorem enqueue_keeps {queue events : List InotifyEvent} {full : List Bool} {e : InotifyEvent} (h : e ∈ queue) :
    e ∈ enqueue queue full events := by
  induction events generalizing queue full with
  | nil => exact h
  | cons event events ih => exact ih (enqueueOne_keeps h)

/-- What is queued is told in full unless the queue says that it overflowed. -/
theorem enqueue_complete {queue events : List InotifyEvent} {full : List Bool}
    (h : overflowEvent ∉ enqueue queue full events) : enqueue queue full events = queue ++ events := by
  induction events generalizing queue full with
  | nil => exact (List.append_nil queue).symm
  | cons event events ih =>
    have hone : enqueueOne queue (full.headD false) event = queue ++ [event] := by
      refine enqueueOne_complete fun hin => h ?_
      change overflowEvent ∈ enqueue (enqueueOne queue (full.headD false) event) full.tail events
      exact enqueue_keeps hin
    change enqueue (enqueueOne queue (full.headD false) event) full.tail events = _
    rw [ih h, hone, List.append_assoc, List.singleton_append]

namespace Inotify
variable {k : Inotify} {folder wd : Nat} {path : FolderPath}

/-- No folder has two watches. -/
def OneWatch (k : Inotify) : Prop :=
  ∀ folder wd wd', (folder, wd) ∈ k.watches → (folder, wd') ∈ k.watches → wd = wd'

theorem watchOf_eq_some (h : k.OneWatch) : k.watchOf folder = some wd ↔ (folder, wd) ∈ k.watches :=
  find_first_eq_some h

theorem watchOf_eq_none : k.watchOf folder = none ↔ ∀ wd, (folder, wd) ∉ k.watches := find_first_eq_none

theorem watchAt_eq_some (h : k.OneWatch) :
    k.watchAt path = some wd ↔ ∃ folder, (path, folder) ∈ k.tree.nodes ∧ (folder, wd) ∈ k.watches := by
  simp only [watchAt, Option.bind_eq_some_iff, PathTree.find_eq_some, watchOf_eq_some h]

theorem mem_watchesWithout : (folder, wd) ∈ k.watchesWithout path ↔
    (folder, wd) ∈ k.watches ∧ (path, folder) ∉ k.tree.nodes := by
  simp [watchesWithout, PathTree.find_eq_some]

theorem mem_eventsAt {kind : EventKind} {isDirectory : Bool} {name : Option String} {e : InotifyEvent} :
    e ∈ k.eventsAt path kind isDirectory name ↔
      ∃ wd, k.watchAt path = some wd ∧ { wd := wd, kind := kind, isDirectory := isDirectory, name := name } = e := by
  simp [eventsAt]

end Inotify

namespace Reading
variable {r r' : Reading} {e : InotifyEvent} {es es' : List InotifyEvent} {wd : Nat} {path : FolderPath}
  {entry : Nat × FolderPath}

/-- The map has one path for a descriptor. -/
def OneEntry (r : Reading) : Prop := ∀ wd p q, (wd, p) ∈ r.folders → (wd, q) ∈ r.folders → p = q

theorem folder_eq_some (h : r.OneEntry) : r.folder wd = some path ↔ (wd, path) ∈ r.folders :=
  find_first_eq_some h

theorem folder_eq_none : r.folder wd = none ↔ ∀ path, (wd, path) ∉ r.folders := find_first_eq_none

theorem mem_forgetBelow : entry ∈ (r.forgetBelow path).folders ↔
    entry ∈ r.folders ∧ ¬ (entry.1 ≠ r.rootWatch ∧ path <+: entry.2) := by
  simp only [forgetBelow, List.mem_filter, decide_eq_true_eq]

/-- The event takes the entry out of the map. -/
def Forgets (r : Reading) (event : InotifyEvent) (entry : Nat × FolderPath) : Prop :=
  entry.1 ≠ r.rootWatch ∧
    ((event.kind = .ignored ∧ entry.1 = event.wd) ∨
      (event.kind = .movedFrom ∧ event.isDirectory ∧
        ∃ relative, (event.wd, relative) ∈ r.folders ∧ relative ++ event.name.toList <+: entry.2))

/-- The event tells of a new folder. -/
def Tells (r : Reading) (event : InotifyEvent) (path : FolderPath) : Prop :=
  event.isDirectory ∧ event.kind.isArrival ∧
    ∃ relative, (event.wd, relative) ∈ r.folders ∧ path = relative ++ event.name.toList

/-- What an event does besides what it adds to the changes. -/
structure Read (r : Reading) (e : InotifyEvent) (r' : Reading) : Prop where
  rootWatch : r'.rootWatch = r.rootWatch
  shouldWalkAgain : r'.shouldWalkAgain = true ↔ r.shouldWalkAgain = true ∨ e.kind = .overflow
  folders : ∀ entry, entry ∈ r'.folders ↔ entry ∈ r.folders ∧ ¬ r.Forgets e entry
  newFolders : ∀ path, path ∈ r'.newFolders ↔ path ∈ r.newFolders ∨ r.Tells e path

/-- An event that neither takes nor tells. -/
theorem Read.idle (hkind : e.kind ≠ .overflow) (hforgets : ∀ entry ∈ r.folders, ¬ r.Forgets e entry)
    (htells : ∀ path, ¬ r.Tells e path) : r.Read e r where
  rootWatch := rfl
  shouldWalkAgain := by simp [hkind]
  folders := fun entry => ⟨fun h => ⟨h, hforgets entry h⟩, fun h => h.1⟩
  newFolders := fun path => ⟨fun h => .inl h, fun h => h.resolve_right (htells path)⟩

/-- What ReadEvent does to the folders for an event of a watched folder. -/
theorem Read.of_known {relative : FolderPath} (hone : r.OneEntry) (hkind : e.kind ≠ .overflow)
    (hroot : ¬ (e.wd = r.rootWatch ∧ e.kind.isRootGone)) (hmem : (e.wd, relative) ∈ r.folders) :
    r.Read e (if e.kind = .ignored then { r with folders := r.folders.filter (·.1 ≠ e.wd) }
      else if e.isDirectory ∧ e.kind.isArrival then
        { r with newFolders := r.newFolders ++ [relative ++ e.name.toList] }
      else if e.isDirectory ∧ e.kind = .movedFrom then r.forgetBelow (relative ++ e.name.toList)
      else r) := by
  have honly : ∀ q, (e.wd, q) ∈ r.folders ↔ q = relative :=
    fun q => ⟨fun h => hone _ _ _ h hmem, fun h => h ▸ hmem⟩
  split
  · rename_i hignored
    have hne : e.wd ≠ r.rootWatch := fun h => hroot ⟨h, by rw [hignored]; rfl⟩
    refine ⟨rfl, by simp [hkind], fun entry => ?_, fun path => ?_⟩
    · simp only [Forgets, hignored, List.mem_filter, decide_eq_true_eq, true_and, reduceCtorEq, false_and, or_false]
      refine and_congr_right fun _ => not_congr ⟨fun h => ⟨h ▸ hne, h⟩, fun h => h.2⟩
    · simp [Tells, hignored, EventKind.isArrival]
  · rename_i hignored
    split
    · rename_i harrival
      have hmoved : e.kind ≠ .movedFrom := fun h => absurd harrival.2 (by rw [h]; exact Bool.false_ne_true)
      refine ⟨rfl, by simp [hkind], fun entry => by simp [Forgets, hignored, hmoved], fun path => ?_⟩
      simp [Tells, harrival, honly]
    · rename_i harrival
      split
      · rename_i hmoved
        refine ⟨rfl, by simp [forgetBelow, hkind], fun entry => ?_, fun path => ?_⟩
        · simp [mem_forgetBelow, Forgets, hmoved, honly]
        · simp [Tells, hmoved, EventKind.isArrival, forgetBelow]
      · rename_i hmoved
        refine Read.idle hkind (fun entry _ hforgets => ?_) (fun path htells => harrival ⟨htells.1, htells.2.1⟩)
        rcases hforgets.2 with h | h
        · exact hignored h.1
        · exact hmoved ⟨h.2.1, h.1⟩

theorem readEvent_read (hone : r.OneEntry) (e : InotifyEvent) : r.Read e (r.readEvent e) := by
  unfold readEvent
  split
  · rename_i hkind
    refine ⟨rfl, by simp [hkind], fun entry => by simp [Forgets, hkind], fun path => ?_⟩
    simp [Tells, hkind, EventKind.isArrival]
  · rename_i hkind
    split
    · rename_i hroot
      refine ⟨rfl, by simp [hkind], fun entry => ?_, fun path => ?_⟩
      · refine (and_iff_left fun hforgets => ?_).symm
        rcases hforgets.2 with h | h
        · exact hforgets.1 (h.2.trans hroot.1)
        · exact absurd hroot.2 (by simp [h.1, EventKind.isRootGone])
      · refine (or_iff_left fun htells => ?_).symm
        have harrival := htells.2.1
        have hgone := hroot.2
        cases hk : e.kind <;> simp [hk, EventKind.isArrival, EventKind.isRootGone] at harrival hgone
    · rename_i hroot
      cases hfolder : r.folder e.wd with
      | none =>
        have hnone := folder_eq_none.mp hfolder
        refine Read.idle hkind (fun entry hmem hforgets => ?_) (fun path htells => ?_)
        · rcases hforgets.2 with h | ⟨-, -, relative, h, -⟩
          · exact hnone entry.2 (h.2 ▸ hmem)
          · exact hnone relative h
        · obtain ⟨-, -, relative, h, -⟩ := htells
          exact hnone relative h
      | some relative =>
        have hread := Read.of_known hone hkind hroot ((folder_eq_some hone).mp hfolder)
        dsimp only
        by_cases hignored : e.kind = .ignored
        · rwa [if_pos hignored] at hread ⊢
        · rw [if_neg hignored] at hread ⊢
          by_cases hpath : relative ++ e.name.toList = []
          · rwa [if_neg (not_not_intro hpath)]
          · rw [if_pos hpath]
            exact ⟨hread.rootWatch, hread.shouldWalkAgain, hread.folders, hread.newFolders⟩

theorem mem_of_readEvent (hone : r.OneEntry) (h : entry ∈ (r.readEvent e).folders) : entry ∈ r.folders :=
  (((readEvent_read hone e).folders entry).mp h).1

theorem OneEntry.readEvent (hone : r.OneEntry) (e : InotifyEvent) : (r.readEvent e).OneEntry :=
  fun wd p q hp hq => hone wd p q (mem_of_readEvent hone hp) (mem_of_readEvent hone hq)

def readEvents (r : Reading) (events : List InotifyEvent) : Reading := events.foldl Reading.readEvent r

theorem readEvents_append : r.readEvents (es ++ es') = (r.readEvents es).readEvents es' := List.foldl_append

theorem OneEntry.readEvents (hone : r.OneEntry) : (r.readEvents es).OneEntry := by
  induction es generalizing r with
  | nil => exact hone
  | cons e es ih => exact ih (hone.readEvent e)

theorem mem_of_readEvents (hone : r.OneEntry) (h : entry ∈ (r.readEvents es).folders) : entry ∈ r.folders := by
  induction es generalizing r with
  | nil => exact h
  | cons e es ih => exact mem_of_readEvent hone (ih (hone.readEvent e) h)

theorem readEvents_rootWatch (hone : r.OneEntry) : (r.readEvents es).rootWatch = r.rootWatch := by
  induction es generalizing r with
  | nil => rfl
  | cons e es ih => exact (ih (hone.readEvent e)).trans (readEvent_read hone e).rootWatch

theorem readEvents_shouldWalkAgain (hone : r.OneEntry) :
    (r.readEvents es).shouldWalkAgain = true ↔ r.shouldWalkAgain = true ∨ ∃ e ∈ es, e.kind = .overflow := by
  induction es generalizing r with
  | nil => simp [readEvents]
  | cons e es ih =>
    refine (ih (hone.readEvent e)).trans ?_
    rw [(readEvent_read hone e).shouldWalkAgain]
    simp [or_assoc]

/-- The root's entry is never taken out. -/
theorem root_mem_readEvent (hone : r.OneEntry) (h : (r.rootWatch, path) ∈ r.folders) :
    (r.rootWatch, path) ∈ (r.readEvent e).folders :=
  ((readEvent_read hone e).folders _).mpr ⟨h, fun hforgets => hforgets.1 rfl⟩

theorem root_mem_readEvents (hone : r.OneEntry) (h : (r.rootWatch, path) ∈ r.folders) :
    (r.rootWatch, path) ∈ (r.readEvents es).folders := by
  induction es generalizing r with
  | nil => exact h
  | cons e es ih =>
    have hroot := (readEvent_read hone e).rootWatch
    have hmem := root_mem_readEvent (e := e) hone h
    rw [← hroot] at hmem ⊢
    exact ih (hone.readEvent e) hmem

/-- The same folders and the same new ones. -/
structure Alike (r r' : Reading) : Prop where
  folders : ∀ entry, entry ∈ r'.folders ↔ entry ∈ r.folders
  newFolders : ∀ path, path ∈ r'.newFolders ↔ path ∈ r.newFolders

theorem Alike.refl (r : Reading) : r.Alike r := ⟨fun _ => Iff.rfl, fun _ => Iff.rfl⟩

/-- An event of a watch that the map does not know changes neither. -/
theorem Alike.of_unknown (hone : r.OneEntry) (h : ∀ path, (e.wd, path) ∉ r.folders) : r.Alike (r.readEvent e) where
  folders := fun entry => by
    refine ((readEvent_read hone e).folders entry).trans ⟨fun hmem => hmem.1, fun hmem => ⟨hmem, fun hforgets => ?_⟩⟩
    rcases hforgets.2 with hignored | ⟨-, -, relative, hrelative, -⟩
    · exact h entry.2 (hignored.2 ▸ hmem)
    · exact h relative hrelative
  newFolders := fun path => by
    refine ((readEvent_read hone e).newFolders path).trans (or_iff_left fun htells => ?_)
    obtain ⟨-, -, relative, hrelative, -⟩ := htells
    exact h relative hrelative

/-- The second reading differs in what it holds for one descriptor and lacks some new folders. -/
structure Beside (wd : Nat) (taken : List FolderPath) (r r' : Reading) : Prop where
  one : r.OneEntry
  one' : r'.OneEntry
  rootWatch : r'.rootWatch = r.rootWatch
  shouldWalkAgain : r'.shouldWalkAgain = true ↔ r.shouldWalkAgain = true
  folders : ∀ entry, entry.1 ≠ wd → (entry ∈ r'.folders ↔ entry ∈ r.folders)
  newFolders : ∀ path, path ∈ r.newFolders ↔ path ∈ taken ∨ path ∈ r'.newFolders

variable {taken : List FolderPath}

/-- Events of other watches do to both the same. -/
theorem Beside.readEvent (h : Beside wd taken r r') (he : e.wd ≠ wd) :
    Beside wd taken (r.readEvent e) (r'.readEvent e) := by
  have hread := readEvent_read h.one e
  have hread' := readEvent_read h.one' e
  have hknown : ∀ relative, (e.wd, relative) ∈ r'.folders ↔ (e.wd, relative) ∈ r.folders :=
    fun relative => h.folders _ he
  refine ⟨h.one.readEvent e, h.one'.readEvent e, ?_, ?_, fun entry hentry => ?_, fun path => ?_⟩
  · rw [hread.rootWatch, hread'.rootWatch, h.rootWatch]
  · rw [hread.shouldWalkAgain, hread'.shouldWalkAgain, h.shouldWalkAgain]
  · rw [hread.folders, hread'.folders, h.folders entry hentry]
    simp only [Forgets, hknown, h.rootWatch]
  · rw [hread.newFolders, hread'.newFolders, h.newFolders, or_assoc]
    simp only [Tells, hknown]

theorem Beside.readEvents (h : Beside wd taken r r') (hes : ∀ e ∈ es, e.wd ≠ wd) :
    Beside wd taken (r.readEvents es) (r'.readEvents es) := by
  induction es generalizing r r' with
  | nil => exact h
  | cons e es ih =>
    exact ih (h.readEvent (hes e List.mem_cons_self)) fun e' he' => hes e' (List.mem_cons_of_mem e he')

variable {k : Inotify} {name : Option String} {kind : EventKind} {isDirectory : Bool}

/-- A watch says one thing at most, so reading it is reading that. -/
theorem readEvents_eventsAt (hone : r.OneEntry) :
    (∀ entry, entry ∈ (r.readEvents (k.eventsAt path kind isDirectory name)).folders ↔
      entry ∈ r.folders ∧ ∀ e ∈ k.eventsAt path kind isDirectory name, ¬ r.Forgets e entry) ∧
    ∀ p, p ∈ (r.readEvents (k.eventsAt path kind isDirectory name)).newFolders ↔
      p ∈ r.newFolders ∨ ∃ e ∈ k.eventsAt path kind isDirectory name, r.Tells e p := by
  unfold Inotify.eventsAt
  cases k.watchAt path with
  | none => simp [readEvents]
  | some wd =>
    have hread := readEvent_read hone { wd := wd, kind := kind, isDirectory := isDirectory, name := name }
    constructor
    · intro entry
      simpa [readEvents] using hread.folders entry
    · intro p
      simpa [readEvents] using hread.newFolders p

theorem Alike.of_silent (hone : r.OneEntry) (hignored : kind ≠ .ignored)
    (hsilent : isDirectory = true → kind ≠ .movedFrom ∧ kind.isArrival = false) :
    r.Alike (r.readEvents (k.eventsAt path kind isDirectory name)) := by
  constructor
  · intro entry
    refine ((readEvents_eventsAt hone).1 entry).trans (and_iff_left ?_)
    intro e he hforgets
    obtain ⟨wd, -, rfl⟩ := Inotify.mem_eventsAt.mp he
    rcases hforgets.2 with h | h
    · exact hignored h.1
    · exact (hsilent h.2.1).1 h.1
  · intro p
    refine ((readEvents_eventsAt hone).2 p).trans (or_iff_left ?_)
    rintro ⟨e, he, htells⟩
    obtain ⟨wd, -, rfl⟩ := Inotify.mem_eventsAt.mp he
    exact absurd htells.2.1 (by simp [(hsilent htells.1).2])

theorem readEvents_arrival {child : String} (hone : r.OneEntry) (hkind : kind.isArrival) :
    (∀ entry, entry ∈ (r.readEvents (k.eventsAt path kind true (some child))).folders ↔ entry ∈ r.folders) ∧
    ∀ p, p ∈ (r.readEvents (k.eventsAt path kind true (some child))).newFolders ↔
      p ∈ r.newFolders ∨
        ∃ wd relative, k.watchAt path = some wd ∧ (wd, relative) ∈ r.folders ∧ p = relative ++ [child] := by
  constructor
  · intro entry
    refine ((readEvents_eventsAt hone).1 entry).trans (and_iff_left ?_)
    intro e he hforgets
    obtain ⟨wd, -, rfl⟩ := Inotify.mem_eventsAt.mp he
    rcases hforgets.2 with ⟨rfl, -⟩ | ⟨rfl, -⟩
    · exact absurd hkind Bool.false_ne_true
    · exact absurd hkind Bool.false_ne_true
  · intro p
    refine ((readEvents_eventsAt hone).2 p).trans (or_congr_right ?_)
    constructor
    · rintro ⟨e, he, -, -, relative, hrelative, rfl⟩
      obtain ⟨wd, hwd, rfl⟩ := Inotify.mem_eventsAt.mp he
      exact ⟨wd, relative, hwd, hrelative, rfl⟩
    · rintro ⟨wd, relative, hwd, hrelative, rfl⟩
      exact ⟨_, Inotify.mem_eventsAt.mpr ⟨wd, hwd, rfl⟩, rfl, hkind, relative, hrelative, rfl⟩

theorem readEvents_movedFrom {child : String} (hone : r.OneEntry) :
    (∀ entry, entry ∈ (r.readEvents (k.eventsAt path .movedFrom true (some child))).folders ↔
      entry ∈ r.folders ∧ ¬ (entry.1 ≠ r.rootWatch ∧
        ∃ wd relative, k.watchAt path = some wd ∧ (wd, relative) ∈ r.folders ∧ relative ++ [child] <+: entry.2)) ∧
    ∀ p, p ∈ (r.readEvents (k.eventsAt path .movedFrom true (some child))).newFolders ↔ p ∈ r.newFolders := by
  constructor
  · intro entry
    refine ((readEvents_eventsAt hone).1 entry).trans (and_congr_right fun _ => ?_)
    constructor
    · rintro hno ⟨hne, wd, relative, hwd, hrelative, hbelow⟩
      refine hno _ (Inotify.mem_eventsAt.mpr ⟨wd, hwd, rfl⟩) ⟨hne, .inr ⟨rfl, rfl, relative, hrelative, hbelow⟩⟩
    · intro hno e he hforgets
      obtain ⟨wd, hwd, rfl⟩ := Inotify.mem_eventsAt.mp he
      rcases hforgets.2 with ⟨hignored, -⟩ | ⟨-, -, relative, hrelative, hbelow⟩
      · cases hignored
      · exact hno ⟨hforgets.1, wd, relative, hwd, hrelative, hbelow⟩
  · intro p
    refine ((readEvents_eventsAt hone).2 p).trans (or_iff_left ?_)
    rintro ⟨e, he, -, harrival, -⟩
    obtain ⟨wd, -, rfl⟩ := Inotify.mem_eventsAt.mp he
    cases harrival

/-- The map loses the entry of a removed folder's watch. -/
theorem readEvents_gone (hone : r.OneEntry) :
    (∀ entry, entry ∈ (r.readEvents (k.eventsOfGone path)).folders ↔
      entry ∈ r.folders ∧ ¬ (entry.1 ≠ r.rootWatch ∧ k.watchAt path = some entry.1)) ∧
    ∀ p, p ∈ (r.readEvents (k.eventsOfGone path)).newFolders ↔ p ∈ r.newFolders := by
  have hsilent : r.Alike (r.readEvents (k.eventsAt path .deleteSelf false none)) :=
    Alike.of_silent hone (by simp) (by simp)
  have hroot : (r.readEvents (k.eventsAt path .deleteSelf false none)).rootWatch = r.rootWatch :=
    readEvents_rootWatch hone
  rw [Inotify.eventsOfGone, readEvents_append]
  constructor
  · intro entry
    rw [(readEvents_eventsAt hone.readEvents).1 entry, hsilent.folders]
    refine and_congr_right fun _ => ?_
    constructor
    · rintro hno ⟨hne, hwd⟩
      exact hno _ (Inotify.mem_eventsAt.mpr ⟨entry.1, hwd, rfl⟩) ⟨hroot.symm ▸ hne, .inl ⟨rfl, rfl⟩⟩
    · intro hno e he hforgets
      obtain ⟨wd, hwd, rfl⟩ := Inotify.mem_eventsAt.mp he
      rcases hforgets.2 with ⟨-, heq⟩ | ⟨hmoved, -⟩
      · exact hno ⟨hroot ▸ hforgets.1, heq ▸ hwd⟩
      · cases hmoved
  · intro p
    rw [(readEvents_eventsAt hone.readEvents).2 p, hsilent.newFolders]
    refine or_iff_left ?_
    rintro ⟨e, he, htells⟩
    obtain ⟨wd, -, rfl⟩ := Inotify.mem_eventsAt.mp he
    cases htells.1

end Reading

end TgeCore.IO
