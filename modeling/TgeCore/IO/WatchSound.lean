import TgeCore.IO.WatchEvents

namespace TgeCore.IO
open Library

/-- The events that were read from the queue and not yet looked at. -/
def Phase.batch : Phase → List InotifyEvent
  | .reading batch => batch
  | _ => []

def Listing.gave (listing : Listing) (name : String) : Listing :=
  { listing with unseen := listing.unseen.filter (· ≠ name) }

namespace WatchState

def unread (s : WatchState) : List InotifyEvent := s.phase.batch ++ s.inotify.queue

/-- What holds in every run, whatever got lost: descriptors and folders are told
apart, no watch is left without an entry, and the root stays watched. -/
structure Sound (s : WatchState) : Prop where
  oneWatch : s.inotify.OneWatch
  oneFolder : ∀ folder folder' wd, (folder, wd) ∈ s.inotify.watches → (folder', wd) ∈ s.inotify.watches →
    folder = folder'
  watchBound : ∀ folder wd, (folder, wd) ∈ s.inotify.watches →
    folder < s.inotify.tree.next ∧ wd < s.inotify.nextWatch
  eventBound : ∀ e ∈ s.unread, e.wd < s.inotify.nextWatch
  oneEntry : s.reading.OneEntry
  entryBound : ∀ wd path, (wd, path) ∈ s.reading.folders → wd < s.inotify.nextWatch
  hasEntry : ∀ folder wd, (folder, wd) ∈ s.inotify.watches →
    (∃ path, (wd, path) ∈ s.reading.folders) ∨ wd ∈ s.reading.removing
  removingGone : ∀ wd ∈ s.reading.removing, ∀ path, (wd, path) ∉ s.reading.folders
  ignoredGone : ∀ e ∈ s.unread, e.kind = .ignored → ∀ folder, (folder, e.wd) ∉ s.inotify.watches
  rootEntry : (s.reading.rootWatch, []) ∈ s.reading.folders
  rootWatched : ∃ folder, (s.root, folder) ∈ s.inotify.tree.nodes ∧ (folder, s.reading.rootWatch) ∈ s.inotify.watches
  idle : s.phase = .idle → s.reading.newFolders = [] ∧ s.reading.shouldWalkAgain = false

variable {s t : WatchState} {c : FolderChange} {full : List Bool} {inotify : Inotify}

theorem Sound.nextWatch_pos (h : s.Sound) : 0 < s.inotify.nextWatch :=
  Nat.zero_lt_of_lt (h.entryBound _ _ h.rootEntry)

theorem opened_sound {tree : PathTree String} {root : FolderPath} (h : opened tree root = some s) : s.Sound := by
  simp only [opened, Inotify.addWatch, Option.map_map, Option.map_eq_some_iff, Function.comp_apply] at h
  obtain ⟨folder, hfolder, rfl⟩ := h
  have hnode := PathTree.find_eq_some.mp hfolder
  simp only [Inotify.watchOf, List.find?_nil, Option.map_none, List.nil_append]
  constructor
  case rootWatched => exact ⟨folder, hnode, List.mem_singleton_self _⟩
  case watchBound =>
    intro f wd hmem
    obtain ⟨rfl, rfl⟩ := Prod.mk.inj (List.mem_singleton.mp hmem)
    exact ⟨tree.fresh _ _ hnode, Nat.lt_succ_self 1⟩
  case oneWatch =>
    intro f wd wd' hmem hmem'
    rw [(Prod.mk.inj (List.mem_singleton.mp hmem)).2, (Prod.mk.inj (List.mem_singleton.mp hmem')).2]
  case oneFolder =>
    intro f f' wd hmem hmem'
    rw [(Prod.mk.inj (List.mem_singleton.mp hmem)).1, (Prod.mk.inj (List.mem_singleton.mp hmem')).1]
  case oneEntry =>
    intro wd p q hmem hmem'
    rw [(Prod.mk.inj (List.mem_singleton.mp hmem)).2, (Prod.mk.inj (List.mem_singleton.mp hmem')).2]
  all_goals simp [unread, Phase.batch]

/-- The change makes no watch, and its events are of watches there are. -/
structure Weakens (k k' : Inotify) : Prop where
  nextWatch : k'.nextWatch = k.nextWatch
  next : k.tree.next ≤ k'.tree.next
  watches : ∀ watch ∈ k'.watches, watch ∈ k.watches
  events : ∀ e ∈ k'.queue, e ∈ k.queue ∨
    e.wd < k.nextWatch ∧ (e.kind = .ignored → ∀ folder, (folder, e.wd) ∉ k'.watches)

theorem Sound.weaken {reading : Reading} {phase : Phase} (h : s.Sound) (hweak : Weakens s.inotify inotify)
    (hfolders : reading.folders = s.reading.folders) (hroot : reading.rootWatch = s.reading.rootWatch)
    (hbatch : ∀ e ∈ phase.batch, e ∈ s.phase.batch)
    (hremoving : ∀ wd ∈ reading.removing, wd ∈ s.reading.removing)
    (hentry : ∀ folder, ∀ wd ∈ s.reading.removing, (folder, wd) ∈ inotify.watches → wd ∈ reading.removing)
    (hidle : phase = .idle → reading.newFolders = [] ∧ reading.shouldWalkAgain = false)
    (hwatched : ∃ folder, (s.root, folder) ∈ inotify.tree.nodes ∧ (folder, s.reading.rootWatch) ∈ inotify.watches) :
    Sound { s with inotify := inotify, reading := reading, phase := phase } := by
  have hunread : ∀ e ∈ phase.batch ++ inotify.queue, e ∈ s.unread ∨
      e.wd < s.inotify.nextWatch ∧ (e.kind = .ignored → ∀ folder, (folder, e.wd) ∉ inotify.watches) := by
    intro e he
    rcases List.mem_append.mp he with he | he
    · exact .inl (List.mem_append_left _ (hbatch e he))
    · rcases hweak.events e he with he | he
      · exact .inl (List.mem_append_right _ he)
      · exact .inr he
  constructor
  · exact fun folder wd wd' hwd hwd' => h.oneWatch folder wd wd' (hweak.watches _ hwd) (hweak.watches _ hwd')
  · exact fun folder folder' wd hf hf' => h.oneFolder folder folder' wd (hweak.watches _ hf) (hweak.watches _ hf')
  · intro folder wd hmem
    obtain ⟨hfolder, hwd⟩ := h.watchBound folder wd (hweak.watches _ hmem)
    exact ⟨Nat.lt_of_lt_of_le hfolder hweak.next, hweak.nextWatch.symm ▸ hwd⟩
  · intro e he
    rw [show WatchState.inotify _ = inotify from rfl, hweak.nextWatch]
    rcases hunread e he with he | he
    · exact h.eventBound e he
    · exact he.1
  · simpa only [Reading.OneEntry, hfolders] using h.oneEntry
  · simpa only [hfolders, hweak.nextWatch] using h.entryBound
  · intro folder wd hmem
    rcases h.hasEntry folder wd (hweak.watches _ hmem) with hpath | hwd
    · exact .inl (by simpa only [hfolders] using hpath)
    · exact .inr (hentry folder wd hwd hmem)
  · intro wd hwd
    simpa only [hfolders] using h.removingGone wd (hremoving wd hwd)
  · intro e he hkind folder hmem
    rcases hunread e he with he | he
    · exact h.ignoredGone e he hkind folder (hweak.watches _ hmem)
    · exact he.2 hkind folder hmem
  · simpa only [hfolders, hroot] using h.rootEntry
  · simpa only [hroot] using hwatched
  · exact hidle

theorem Sound.event_of_watch (h : s.Sound) {path : FolderPath} {kind : EventKind} {isDirectory : Bool}
    {name : Option String} {e : InotifyEvent} (he : e ∈ s.inotify.eventsAt path kind isDirectory name) :
    e.wd < s.inotify.nextWatch ∧ e.kind = kind := by
  obtain ⟨wd, hwd, rfl⟩ := Inotify.mem_eventsAt.mp he
  obtain ⟨folder, -, hmem⟩ := (Inotify.watchAt_eq_some h.oneWatch).mp hwd
  exact ⟨(h.watchBound folder wd hmem).2, rfl⟩

theorem Sound.event_of_gone (h : s.Sound) {path : FolderPath} {e : InotifyEvent}
    (he : e ∈ s.inotify.eventsOfGone path) :
    e.wd < s.inotify.nextWatch ∧ ∀ folder, (folder, e.wd) ∉ s.inotify.watchesWithout path := by
  obtain ⟨wd, hwd, hwatch⟩ : ∃ wd, s.inotify.watchAt path = some wd ∧ e.wd = wd := by
    rcases List.mem_append.mp he with he | he
    · obtain ⟨wd, hwd, rfl⟩ := Inotify.mem_eventsAt.mp he
      exact ⟨wd, hwd, rfl⟩
    · obtain ⟨wd, hwd, rfl⟩ := Inotify.mem_eventsAt.mp he
      exact ⟨wd, hwd, rfl⟩
  obtain ⟨gone, hgone, hmem⟩ := (Inotify.watchAt_eq_some h.oneWatch).mp hwd
  rw [hwatch]
  refine ⟨(h.watchBound gone wd hmem).2, fun folder hfolder => ?_⟩
  obtain ⟨hfolder, hnot⟩ := Inotify.mem_watchesWithout.mp hfolder
  exact hnot (h.oneFolder gone folder wd hmem hfolder ▸ hgone)

theorem Weakens.of_enqueue {k k' : Inotify} {events : List InotifyEvent} (hnextWatch : k'.nextWatch = k.nextWatch)
    (hnext : k.tree.next ≤ k'.tree.next) (hwatches : ∀ watch ∈ k'.watches, watch ∈ k.watches)
    (hqueue : k'.queue = enqueue k.queue full events) (hpos : 0 < k.nextWatch)
    (hevents : ∀ e ∈ events, e.wd < k.nextWatch ∧ (e.kind = .ignored → ∀ folder, (folder, e.wd) ∉ k'.watches)) :
    Weakens k k' := by
  refine ⟨hnextWatch, hnext, hwatches, fun e he => ?_⟩
  rw [hqueue] at he
  rcases mem_enqueue he with he | he | rfl
  · exact .inl he
  · exact .inr (hevents e he)
  · exact .inr ⟨hpos, fun hkind => by cases hkind⟩

/-- The root's watch is not of a folder elsewhere. -/
theorem Sound.rootWatched_without (h : s.Sound) {path : FolderPath} {nodes : List (FolderPath × Nat)}
    (hpath : ¬ path <+: s.root) (hnodes : ∀ folder, (s.root, folder) ∈ s.inotify.tree.nodes → (s.root, folder) ∈ nodes) :
    ∃ folder, (s.root, folder) ∈ nodes ∧ (folder, s.reading.rootWatch) ∈ s.inotify.watchesWithout path := by
  obtain ⟨folder, hroot, hmem⟩ := h.rootWatched
  refine ⟨folder, hnodes folder hroot, Inotify.mem_watchesWithout.mpr ⟨hmem, fun hfolder => hpath ?_⟩⟩
  rw [s.inotify.tree.placed _ _ _ hfolder hroot]

theorem Sound.change_weakens (h : s.Sound) (hchange : s.inotify.change s.root full c = some inotify) :
    Weakens s.inotify inotify ∧
      ∃ folder, (s.root, folder) ∈ inotify.tree.nodes ∧ (folder, s.reading.rootWatch) ∈ inotify.watches := by
  have hkept : ∀ watch ∈ s.inotify.watches, watch ∈ s.inotify.watches := fun _ hwatch => hwatch
  have hwithout : ∀ path, ∀ watch ∈ s.inotify.watchesWithout path, watch ∈ s.inotify.watches :=
    fun path watch hwatch => (List.mem_filter.mp hwatch).1
  have hsilent : ∀ {kind : EventKind} {watches : List (Nat × Nat)} {path isDirectory name}, kind ≠ .ignored →
      ∀ e ∈ s.inotify.eventsAt path kind isDirectory name, e.wd < s.inotify.nextWatch ∧
        (e.kind = .ignored → ∀ folder, (folder, e.wd) ∉ watches) := by
    intro kind watches path isDirectory name hkind e he
    obtain ⟨hwd, rfl⟩ := h.event_of_watch he
    exact ⟨hwd, fun hignored => absurd hignored hkind⟩
  cases c with
  | create parent name =>
    obtain ⟨tree, htree, rfl⟩ := Option.map_eq_some_iff.mp hchange
    obtain ⟨-, -, hnodes, hnext⟩ := PathTree.create_eq_some htree
    obtain ⟨folder, hroot, hmem⟩ := h.rootWatched
    refine ⟨Weakens.of_enqueue rfl (hnext ▸ Nat.le_succ _) hkept rfl h.nextWatch_pos (hsilent (by decide)),
      folder, ?_, hmem⟩
    rw [show PathTree.nodes _ = tree.nodes from rfl, hnodes]
    exact List.mem_append_left _ hroot
  | remove parent name =>
    simp only [Inotify.change] at hchange
    split at hchange
    · cases hchange
    · rename_i hpath
      obtain ⟨tree, htree, rfl⟩ := Option.map_eq_some_iff.mp hchange
      obtain ⟨-, -, hnodes, hnext⟩ := PathTree.remove_eq_some htree
      refine ⟨Weakens.of_enqueue rfl (Nat.le_of_eq hnext.symm) (hwithout _) rfl h.nextWatch_pos fun e he => ?_,
        h.rootWatched_without hpath fun folder hroot => ?_⟩
      · rcases List.mem_append.mp he with he | he
        · exact hsilent (by decide) e he
        · exact ⟨(h.event_of_gone he).1, fun _ => (h.event_of_gone he).2⟩
      · rw [hnodes]
        refine List.mem_filter.mpr ⟨hroot, decide_eq_true fun heq => hpath ?_⟩
        exact heq ▸ List.prefix_refl _
  | rename oldParent oldName newParent newName =>
    simp only [Inotify.change] at hchange
    split at hchange
    · cases hchange
    · rename_i hpath
      obtain ⟨hold, hnew⟩ := not_or.mp hpath
      obtain ⟨tree, htree, rfl⟩ := Option.map_eq_some_iff.mp hchange
      obtain ⟨hmove, hnodes, hnext⟩ := PathTree.move_eq_some htree
      refine ⟨Weakens.of_enqueue rfl (Nat.le_of_eq hnext.symm) (hwithout _) rfl h.nextWatch_pos fun e he => ?_,
        h.rootWatched_without hnew fun folder hroot => ?_⟩
      · simp only [List.mem_append] at he
        rcases he with ((he | he) | he) | he
        · exact hsilent (by decide) e he
        · exact hsilent (by decide) e he
        · exact hsilent (by decide) e he
        · exact ⟨(h.event_of_gone he).1, fun _ => (h.event_of_gone he).2⟩
      · rw [hnodes]
        refine (PathTree.mem_movedNodes hmove.apart).mpr (.inr ⟨hold, fun heq => hnew ?_, hroot⟩)
        exact heq ▸ List.prefix_refl _
  | file parent kind name =>
    simp only [Inotify.change] at hchange
    split at hchange
    · rename_i hfile
      obtain rfl := Option.some.inj hchange
      have hkind : kind ≠ .ignored := fun hkind => absurd hfile.2 (by rw [hkind]; exact Bool.false_ne_true)
      exact ⟨Weakens.of_enqueue rfl (Nat.le_refl _) hkept rfl h.nextWatch_pos (hsilent hkind), h.rootWatched⟩
    · cases hchange

theorem batch_after (tree : PathTree String) (c : FolderChange) (phase : Phase) :
    (phase.after tree c).batch = phase.batch := by
  unfold Phase.after
  split <;> rfl

theorem after_idle {tree : PathTree String} {phase : Phase} (h : phase.after tree c = .idle) : phase = .idle := by
  unfold Phase.after at h
  split at h
  · cases h
  · exact h

theorem Sound.change (h : s.Sound) (hchange : s.inotify.change s.root full c = some inotify) :
    Sound { s with inotify := inotify, phase := s.phase.after s.inotify.tree c } := by
  obtain ⟨hweak, hwatched⟩ := h.change_weakens hchange
  refine h.weaken hweak rfl rfl (fun e he => ?_) (fun wd hwd => hwd) (fun _ wd hwd _ => hwd) (fun hidle => ?_) hwatched
  · exact batch_after s.inotify.tree c s.phase ▸ he
  · exact h.idle (after_idle hidle)

theorem rmWatch_weakens {k : Inotify} {wd : Nat} (hbound : ∀ folder, (folder, wd) ∈ k.watches → wd < k.nextWatch) :
    Weakens k (k.rmWatch wd full) ∧ ∀ watch, watch ∈ (k.rmWatch wd full).watches ↔ watch ∈ k.watches ∧ watch.2 ≠ wd := by
  unfold Inotify.rmWatch
  split
  · rename_i hlive
    obtain ⟨watch, hwatch, rfl⟩ := hlive
    have hwd := hbound watch.1 hwatch
    refine ⟨Weakens.of_enqueue rfl (Nat.le_refl _) (fun watch hwatch => (List.mem_filter.mp hwatch).1) rfl
      (Nat.zero_lt_of_lt hwd) fun e he => ?_, fun watch => by simp⟩
    obtain rfl := List.mem_singleton.mp he
    exact ⟨hwd, fun _ folder hmem => by simp at hmem⟩
  · rename_i hnone
    refine ⟨⟨rfl, Nat.le_refl _, fun _ hwatch => hwatch, fun e he => .inl he⟩, fun watch => ?_⟩
    exact (and_iff_left_of_imp fun hwatch heq => hnone ⟨watch, hwatch, heq⟩).symm

theorem Sound.rmWatch {wd : Nat} {removing : List Nat} (h : s.Sound) (hremoving : s.reading.removing = wd :: removing) :
    Sound { s with inotify := s.inotify.rmWatch wd full, reading := { s.reading with removing := removing } } := by
  obtain ⟨hweak, hwatches⟩ : Weakens s.inotify (s.inotify.rmWatch wd full) ∧ _ :=
    rmWatch_weakens fun folder hwatch => (h.watchBound folder wd hwatch).2
  have hmem : wd ∈ s.reading.removing := by simp [hremoving]
  refine h.weaken hweak rfl rfl (fun e he => he) (fun w hw => ?_) (fun folder w hw hwatch => ?_) h.idle ?_
  · rw [hremoving]
    exact List.mem_cons_of_mem _ hw
  · rw [hremoving] at hw
    exact (List.mem_cons.mp hw).resolve_left ((hwatches _).mp hwatch).2
  · obtain ⟨folder, hroot, hwatched⟩ := h.rootWatched
    refine ⟨folder, ?_, (hwatches _).mpr ⟨hwatched, fun heq => ?_⟩⟩
    · unfold Inotify.rmWatch
      split <;> exact hroot
    · exact h.removingGone wd hmem [] (heq ▸ h.rootEntry)

/-- A step that neither touches the map nor looks at an event. -/
theorem Sound.same {reading : Reading} {queue : List InotifyEvent} {phase : Phase} (h : s.Sound)
    (hfolders : reading.folders = s.reading.folders) (hroot : reading.rootWatch = s.reading.rootWatch)
    (hremoving : reading.removing = s.reading.removing) (hunread : ∀ e ∈ phase.batch ++ queue, e ∈ s.unread)
    (hidle : phase = .idle → reading.newFolders = [] ∧ reading.shouldWalkAgain = false) :
    Sound { s with inotify := { s.inotify with queue := queue }, reading := reading, phase := phase } where
  oneWatch := h.oneWatch
  oneFolder := h.oneFolder
  watchBound := h.watchBound
  eventBound := fun e he => h.eventBound e (hunread e he)
  oneEntry := by simpa only [Reading.OneEntry, hfolders] using h.oneEntry
  entryBound := by simpa only [hfolders] using h.entryBound
  hasEntry := by simpa only [hfolders, hremoving] using h.hasEntry
  removingGone := by simpa only [hfolders, hremoving] using h.removingGone
  ignoredGone := fun e he => h.ignoredGone e (hunread e he)
  rootEntry := by simpa only [hfolders, hroot] using h.rootEntry
  rootWatched := by simpa only [hroot] using h.rootWatched
  idle := hidle

/-- An entry that an event takes out is of a watch that went, or is to go. -/
theorem readEvent_removing {r : Reading} (hone : r.OneEntry) (e : InotifyEvent) :
    (∀ wd ∈ r.removing, wd ∈ (r.readEvent e).removing) ∧
    (∀ wd ∈ (r.readEvent e).removing, wd ∈ r.removing ∨ ∀ path, (wd, path) ∉ (r.readEvent e).folders) ∧
    ∀ entry ∈ r.folders, entry ∉ (r.readEvent e).folders →
      (e.kind = .ignored ∧ entry.1 = e.wd) ∨ entry.1 ∈ (r.readEvent e).removing := by
  have hsame : ∀ r' : Reading, r'.folders = r.folders → r'.removing = r.removing →
      (∀ wd ∈ r.removing, wd ∈ r'.removing) ∧
      (∀ wd ∈ r'.removing, wd ∈ r.removing ∨ ∀ path, (wd, path) ∉ r'.folders) ∧
      ∀ entry ∈ r.folders, entry ∉ r'.folders → (e.kind = .ignored ∧ entry.1 = e.wd) ∨ entry.1 ∈ r'.removing := by
    intro r' hfolders hremoving
    rw [hfolders, hremoving]
    exact ⟨fun _ hwd => hwd, fun _ hwd => .inl hwd, fun entry hmem hnot => absurd hmem hnot⟩
  have hforget : ∀ path, (∀ wd ∈ r.removing, wd ∈ (r.forgetBelow path).removing) ∧
      (∀ wd ∈ (r.forgetBelow path).removing, wd ∈ r.removing ∨ ∀ p, (wd, p) ∉ (r.forgetBelow path).folders) ∧
      ∀ entry ∈ r.folders, entry ∉ (r.forgetBelow path).folders → entry.1 ∈ (r.forgetBelow path).removing := by
    intro path
    refine ⟨fun wd hwd => List.mem_append_left _ hwd, fun wd hwd => ?_, fun entry hmem hnot => ?_⟩
    · refine (List.mem_append.mp hwd).imp id fun hwd p hp => ?_
      obtain ⟨entry, hentry, rfl⟩ := List.mem_map.mp hwd
      obtain ⟨hentry, hforgotten⟩ := List.mem_filter.mp hentry
      obtain ⟨hp, hkept⟩ := Reading.mem_forgetBelow.mp hp
      have heq : p = entry.2 := hone entry.1 p entry.2 hp hentry
      exact hkept (heq ▸ of_decide_eq_true hforgotten)
    · refine List.mem_append_right _ (List.mem_map.mpr ⟨entry, List.mem_filter.mpr ⟨hmem, ?_⟩, rfl⟩)
      exact decide_eq_true (not_not.mp fun hkept => hnot (Reading.mem_forgetBelow.mpr ⟨hmem, hkept⟩))
  unfold Reading.readEvent
  split
  · exact hsame _ rfl rfl
  · split
    · exact hsame _ rfl rfl
    · split
      · exact hsame _ rfl rfl
      · rename_i relative hfolder
        split
        · rename_i hkind
          refine ⟨fun _ hwd => hwd, fun _ hwd => .inl hwd, fun entry hmem hnot => .inl ⟨hkind, ?_⟩⟩
          exact not_not.mp fun hne => hnot (List.mem_filter.mpr ⟨hmem, decide_eq_true hne⟩)
        · obtain ⟨hkeep, hgone, hin⟩ := hforget (relative ++ e.name.toList)
          dsimp only
          split_ifs
          all_goals first
            | exact hsame _ rfl rfl
            | exact ⟨hkeep, hgone, fun entry hmem hnot => .inr (hin entry hmem hnot)⟩

theorem Sound.event {e : InotifyEvent} {batch : List InotifyEvent} (h : s.Sound) (hphase : s.phase = .reading (e :: batch)) :
    Sound { s with reading := s.reading.readEvent e, phase := .reading batch } := by
  obtain ⟨hkeep, hgone, hin⟩ := readEvent_removing h.oneEntry e
  have he : e ∈ s.unread := by simp [unread, Phase.batch, hphase]
  have hunread : ∀ e' ∈ batch ++ s.inotify.queue, e' ∈ s.unread := by
    intro e' he'
    simp only [unread, Phase.batch, hphase]
    exact List.mem_cons_of_mem e he'
  have hroot := (Reading.readEvent_read h.oneEntry e).rootWatch
  constructor
  case hasEntry =>
    intro folder wd hmem
    rcases h.hasEntry folder wd hmem with ⟨path, hpath⟩ | hwd
    · by_cases hstays : (wd, path) ∈ (s.reading.readEvent e).folders
      · exact .inl ⟨path, hstays⟩
      · rcases hin (wd, path) hpath hstays with ⟨hkind, rfl⟩ | hwd
        · exact absurd hmem (h.ignoredGone e he hkind folder)
        · exact .inr hwd
    · exact .inr (hkeep wd hwd)
  case removingGone =>
    intro wd hwd path hpath
    rcases hgone wd hwd with hwd | hno
    · exact h.removingGone wd hwd path (Reading.mem_of_readEvent h.oneEntry hpath)
    · exact hno path hpath
  case oneWatch => exact h.oneWatch
  case oneFolder => exact h.oneFolder
  case watchBound => exact h.watchBound
  case eventBound => exact fun e' he' => h.eventBound e' (hunread e' he')
  case oneEntry => exact h.oneEntry.readEvent e
  case entryBound => exact fun wd path hpath => h.entryBound wd path (Reading.mem_of_readEvent h.oneEntry hpath)
  case ignoredGone => exact fun e' he' => h.ignoredGone e' (hunread e' he')
  case rootEntry => exact hroot ▸ Reading.root_mem_readEvent h.oneEntry h.rootEntry
  case rootWatched => exact hroot ▸ h.rootWatched
  case idle => exact fun hidle => absurd hidle (by simp)

/-- The state after a call of AddWatch that met a folder not watched before. -/
def watching (s : WatchState) (folder : Nat) (relative : FolderPath) : WatchState :=
  { s with
    inotify := { s.inotify with
      watches := s.inotify.watches ++ [(folder, s.inotify.nextWatch)], nextWatch := s.inotify.nextWatch + 1 }
    reading := { s.reading with folders := s.reading.folders ++ [(s.inotify.nextWatch, relative)] } }

/-- What AddWatch meets: no folder, one that is watched and in the map, or a new one. -/
theorem Sound.addWatch_cases (h : s.Sound) (hremoving : s.reading.removing = []) (relative : FolderPath) :
    ((∀ folder, (s.root ++ relative, folder) ∉ s.inotify.tree.nodes) ∧ s.addWatch relative = (s, false)) ∨
    (∃ folder wd path, (s.root ++ relative, folder) ∈ s.inotify.tree.nodes ∧ (folder, wd) ∈ s.inotify.watches ∧
      (wd, path) ∈ s.reading.folders ∧ s.addWatch relative = (s, false)) ∨
    ∃ folder, (s.root ++ relative, folder) ∈ s.inotify.tree.nodes ∧ (∀ wd, (folder, wd) ∉ s.inotify.watches) ∧
      s.addWatch relative = (s.watching folder relative, true) := by
  unfold addWatch Inotify.addWatch
  cases hfind : s.inotify.tree.find (s.root ++ relative) with
  | none => exact .inl ⟨PathTree.find_eq_none.mp hfind, rfl⟩
  | some folder =>
    have hnode := PathTree.find_eq_some.mp hfind
    cases hwatch : s.inotify.watchOf folder with
    | some wd =>
      have hmem := (Inotify.watchOf_eq_some h.oneWatch).mp hwatch
      obtain ⟨path, hpath⟩ := (h.hasEntry folder wd hmem).resolve_right (by simp [hremoving])
      refine .inr (.inl ⟨folder, wd, path, hnode, hmem, hpath, ?_⟩)
      simp only [Option.map_some, hwatch, (Reading.folder_eq_some h.oneEntry).mpr hpath]
    | none =>
      refine .inr (.inr ⟨folder, hnode, Inotify.watchOf_eq_none.mp hwatch, ?_⟩)
      have hnone : s.reading.folder s.inotify.nextWatch = none :=
        Reading.folder_eq_none.mpr fun path hpath => absurd (h.entryBound _ path hpath) (Nat.lt_irrefl _)
      simp only [Option.map_some, hwatch, hnone, watching]

theorem Sound.watching {folder : Nat} {relative : FolderPath} (h : s.Sound)
    (hnode : (s.root ++ relative, folder) ∈ s.inotify.tree.nodes) (hnew : ∀ wd, (folder, wd) ∉ s.inotify.watches)
    (hremoving : s.reading.removing = []) (hphase : s.phase ≠ .idle) : (s.watching folder relative).Sound := by
  have hlast : ∀ {α : Type} {l : List α} {a b : α}, b ∈ l ++ [a] → b ∈ l ∨ b = a :=
    fun hmem => (List.mem_append.mp hmem).imp id List.mem_singleton.mp
  constructor
  case oneWatch =>
    intro f wd wd' hwd hwd'
    rcases hlast hwd with hwd | heq <;> rcases hlast hwd' with hwd' | heq'
    · exact h.oneWatch f wd wd' hwd hwd'
    · exact absurd ((Prod.mk.inj heq').1 ▸ hwd) (hnew wd)
    · exact absurd ((Prod.mk.inj heq).1 ▸ hwd') (hnew wd')
    · rw [(Prod.mk.inj heq).2, (Prod.mk.inj heq').2]
  case oneFolder =>
    intro f f' wd hf hf'
    rcases hlast hf with hf | heq <;> rcases hlast hf' with hf' | heq'
    · exact h.oneFolder f f' wd hf hf'
    · exact absurd (h.watchBound f wd hf).2 (by simp [(Prod.mk.inj heq').2])
    · exact absurd (h.watchBound f' wd hf').2 (by simp [(Prod.mk.inj heq).2])
    · rw [(Prod.mk.inj heq).1, (Prod.mk.inj heq').1]
  case watchBound =>
    intro f wd hmem
    rcases hlast hmem with hmem | heq
    · exact ⟨(h.watchBound f wd hmem).1, Nat.lt_succ_of_lt (h.watchBound f wd hmem).2⟩
    · obtain ⟨rfl, rfl⟩ := Prod.mk.inj heq
      exact ⟨s.inotify.tree.fresh _ _ hnode, Nat.lt_succ_self _⟩
  case eventBound => exact fun e he => Nat.lt_succ_of_lt (h.eventBound e he)
  case oneEntry =>
    intro wd p q hp hq
    rcases hlast hp with hp | heq <;> rcases hlast hq with hq | heq'
    · exact h.oneEntry wd p q hp hq
    · exact absurd (h.entryBound wd p hp) (by simp [(Prod.mk.inj heq').1])
    · exact absurd (h.entryBound wd q hq) (by simp [(Prod.mk.inj heq).1])
    · rw [(Prod.mk.inj heq).2, (Prod.mk.inj heq').2]
  case entryBound =>
    intro wd path hmem
    rcases hlast hmem with hmem | heq
    · exact Nat.lt_succ_of_lt (h.entryBound wd path hmem)
    · exact (Prod.mk.inj heq).1 ▸ Nat.lt_succ_self _
  case hasEntry =>
    intro f wd hmem
    rcases hlast hmem with hmem | heq
    · obtain ⟨path, hpath⟩ := (h.hasEntry f wd hmem).resolve_right (by simp [hremoving])
      exact .inl ⟨path, List.mem_append_left _ hpath⟩
    · exact .inl ⟨relative, (Prod.mk.inj heq).2 ▸ List.mem_append_right _ (List.mem_singleton_self _)⟩
  case removingGone =>
    intro wd hwd
    exact absurd hwd (by simp [WatchState.watching, hremoving])
  case ignoredGone =>
    intro e he hkind f hmem
    rcases hlast hmem with hmem | heq
    · exact h.ignoredGone e he hkind f hmem
    · exact absurd (h.eventBound e he) (by simp [(Prod.mk.inj heq).2])
  case rootEntry => exact List.mem_append_left _ h.rootEntry
  case rootWatched =>
    obtain ⟨f, hroot, hmem⟩ := h.rootWatched
    exact ⟨f, hroot, List.mem_append_left _ hmem⟩
  case idle => exact fun hidle => absurd hidle hphase

/-- ForgetBelow of the root leaves the root alone, as the map has no second entry for its watch. -/
theorem Sound.forgetBelow_root (h : s.Sound) {entry : Nat × FolderPath} :
    entry ∈ (s.reading.forgetBelow []).folders ↔ entry = (s.reading.rootWatch, []) := by
  rw [Reading.mem_forgetBelow]
  constructor
  · rintro ⟨hmem, hkept⟩
    have hwd : entry.1 = s.reading.rootWatch := not_not.mp fun hne => hkept ⟨hne, List.nil_prefix⟩
    have hpath : entry.2 = [] := h.oneEntry entry.1 _ _ hmem (hwd ▸ h.rootEntry)
    exact Prod.ext hwd hpath
  · rintro rfl
    exact ⟨h.rootEntry, fun hgone => hgone.1 rfl⟩

theorem Sound.walkAgain {pending : List FolderPath} (h : s.Sound) :
    Sound { s with
      reading := { s.reading.forgetBelow [] with shouldWalkAgain := false }
      phase := .walking pending none } := by
  have honly : ∀ {entry}, entry ∈ (s.reading.forgetBelow []).folders → entry ∈ s.reading.folders :=
    fun hmem => (Reading.mem_forgetBelow.mp hmem).1
  have hunread : ∀ e ∈ s.inotify.queue, e ∈ s.unread := fun e he => List.mem_append_right _ he
  constructor
  case oneWatch => exact h.oneWatch
  case oneFolder => exact h.oneFolder
  case watchBound => exact h.watchBound
  case eventBound => exact fun e he => h.eventBound e (hunread e he)
  case oneEntry => exact fun wd p q hp hq => h.oneEntry wd p q (honly hp) (honly hq)
  case entryBound => exact fun wd path hmem => h.entryBound wd path (honly hmem)
  case hasEntry =>
    intro folder wd hmem
    rcases h.hasEntry folder wd hmem with ⟨path, hpath⟩ | hwd
    · by_cases hroot : wd = s.reading.rootWatch
      · subst wd
        exact .inl ⟨[], h.forgetBelow_root.mpr rfl⟩
      · refine .inr (List.mem_append_right _ (List.mem_map.mpr ⟨(wd, path), List.mem_filter.mpr ⟨hpath, ?_⟩, rfl⟩))
        exact decide_eq_true ⟨hroot, List.nil_prefix⟩
    · exact .inr (List.mem_append_left _ hwd)
  case removingGone =>
    intro wd hwd path hpath
    have hroot : wd = s.reading.rootWatch := (Prod.mk.inj (h.forgetBelow_root.mp hpath)).1
    rcases List.mem_append.mp hwd with hwd | hwd
    · exact h.removingGone wd hwd path (honly hpath)
    · obtain ⟨entry, hentry, rfl⟩ := List.mem_map.mp hwd
      exact (of_decide_eq_true (List.mem_filter.mp hentry).2).1 hroot
  case ignoredGone => exact fun e he => h.ignoredGone e (hunread e he)
  case rootEntry => exact h.forgetBelow_root.mpr rfl
  case rootWatched => exact h.rootWatched
  case idle => exact fun hidle => absurd hidle (by simp)

/-- Asking for the root again gives the watch it has. -/
theorem Sound.addWatch_root (h : s.Sound) : s.inotify.addWatch s.root = some (s.reading.rootWatch, s.inotify) := by
  obtain ⟨folder, hroot, hmem⟩ := h.rootWatched
  simp only [Inotify.addWatch, PathTree.find_eq_some.mpr hroot, Option.map_some,
    (Inotify.watchOf_eq_some h.oneWatch).mpr hmem]

/-- AddWatch makes no new watch for the path: no folder is there or it has an entry already. -/
def Met (s : WatchState) (relative : FolderPath) : Prop :=
  ∀ folder, (s.root ++ relative, folder) ∈ s.inotify.tree.nodes →
    ∃ wd path, (folder, wd) ∈ s.inotify.watches ∧ (wd, path) ∈ s.reading.folders

/-- AddWatch makes a watch for the folder. -/
def Unmet (s : WatchState) (relative : FolderPath) (folder : Nat) : Prop :=
  (s.root ++ relative, folder) ∈ s.inotify.tree.nodes ∧ (∀ wd, (folder, wd) ∉ s.inotify.watches) ∧
    s.reading.removing = []

/-- All that a step can do. -/
inductive Stepped (s : WatchState) : WatchInput → WatchState → Prop
  | changed (c : FolderChange) (full : List Bool) (inotify : Inotify)
      (hchange : s.inotify.change s.root full c = some inotify) :
      Stepped s (.change c full) { s with inotify := inotify, phase := s.phase.after s.inotify.tree c }
  | removed (wd : Nat) (removing : List Nat) (full : List Bool) (hremoving : s.reading.removing = wd :: removing) :
      Stepped s (.rmWatch full)
        { s with inotify := s.inotify.rmWatch wd full, reading := { s.reading with removing := removing } }
  | began (hphase : s.phase = .idle) :
      Stepped s (.act .begin) { s with
        reading := { s.reading with newFolders := [], isRootGone := false, shouldWalkAgain := false, changes := {} }
        phase := .reading [] }
  | read (count : Nat) (hphase : s.phase = .reading []) :
      Stepped s (.act (.read count)) { s with
        inotify := { s.inotify with queue := s.inotify.queue.drop count }
        phase := .reading (s.inotify.queue.take count) }
  | event (e : InotifyEvent) (batch : List InotifyEvent) (hphase : s.phase = .reading (e :: batch)) :
      Stepped s (.act .event) { s with reading := s.reading.readEvent e, phase := .reading batch }
  | readEnded (isInterrupted : Bool) (phase : Phase) (hphase : s.phase = .reading [])
      (hnext : phase = .failed ∨ phase = .adding) :
      Stepped s (.act (.readEnds isInterrupted)) { s with phase := phase }
  | met (relative : FolderPath) (newFolders : List FolderPath) (hphase : s.phase = .adding)
      (hnew : s.reading.newFolders = relative :: newFolders) (hmet : s.Met relative) :
      Stepped s (.act .add) { s with reading := { s.reading with newFolders := newFolders } }
  | added (relative : FolderPath) (newFolders : List FolderPath) (folder : Nat) (hphase : s.phase = .adding)
      (hnew : s.reading.newFolders = relative :: newFolders) (hunmet : s.Unmet relative folder) :
      Stepped s (.act .add)
        { ({ s with reading := { s.reading with newFolders := newFolders } } : WatchState).watching folder relative with
          phase := .walking [relative] none }
  | openedFolder (relative : FolderPath) (pending : List FolderPath) (hphase : s.phase = .walking (relative :: pending) none) :
      Stepped s (.act .openFolder) { s with
        phase := .walking pending ((s.inotify.tree.find (s.root ++ relative)).map fun folder =>
          { relative := relative, folder := folder, unseen := s.inotify.tree.children (s.root ++ relative) }) }
  | gaveMet (name : String) (pending : List FolderPath) (listing : Listing)
      (hphase : s.phase = .walking pending (some listing)) (hmet : s.Met (listing.relative ++ [name])) :
      Stepped s (.act (.entry name)) { s with phase := .walking pending (some (listing.gave name)) }
  | gaveNew (name : String) (pending : List FolderPath) (listing : Listing) (folder : Nat)
      (hphase : s.phase = .walking pending (some listing)) (hunmet : s.Unmet (listing.relative ++ [name]) folder) :
      Stepped s (.act (.entry name))
        { s.watching folder (listing.relative ++ [name]) with
          phase := .walking (pending ++ [listing.relative ++ [name]]) (some (listing.gave name)) }
  | listed (pending : List FolderPath) (listing : Listing) (hphase : s.phase = .walking pending (some listing))
      (hunseen : listing.unseen = []) :
      Stepped s (.act .endListing) { s with phase := .walking pending none }
  | walked (hphase : s.phase = .walking [] none) : Stepped s (.act .endWalk) { s with phase := .adding }
  | again (hphase : s.phase = .adding) (hnew : s.reading.newFolders = []) :
      Stepped s (.act .walkAgain) { s with
        reading := { s.reading.forgetBelow [] with shouldWalkAgain := false }
        phase := .walking [[]] none }
  | finished (hphase : s.phase = .adding) (hnew : s.reading.newFolders = []) (hwalk : s.reading.shouldWalkAgain = false) :
      Stepped s (.act .finish) { s with phase := .idle }
  | failed : Stepped s (.act .fail) { s with phase := .failed }

variable {i : WatchInput} {o : Option DirectoryChanges}

/-- Taking a new folder from the list leaves all else as it was. -/
theorem Sound.taken {newFolders : List FolderPath} (h : s.Sound) (hphase : s.phase ≠ .idle) :
    Sound { s with reading := { s.reading with newFolders := newFolders } } :=
  h.same rfl rfl rfl (fun _ he => he) fun hidle => absurd hidle hphase

theorem Sound.stepped_add (h : s.Sound) (hremoving : s.reading.removing = []) (hstep : s.act .add = some (t, o)) :
    Stepped s (.act .add) t := by
  simp only [act] at hstep
  split at hstep
  · rename_i relative newFolders hphase hnew
    have htaken : Sound { s with reading := { s.reading with newFolders := newFolders } } := h.taken (by simp [hphase])
    rcases htaken.addWatch_cases hremoving relative with ⟨hno, heq⟩ | ⟨folder, wd, path, hnode, hwd, hpath, heq⟩ |
      ⟨folder, hnode, hno, heq⟩
    · rw [heq] at hstep
      obtain ⟨rfl, -⟩ := Prod.mk.inj (Option.some.inj hstep)
      exact .met relative newFolders hphase hnew fun folder hfolder => absurd hfolder (hno folder)
    · rw [heq] at hstep
      obtain ⟨rfl, -⟩ := Prod.mk.inj (Option.some.inj hstep)
      refine .met relative newFolders hphase hnew fun folder' hfolder => ⟨wd, path, ?_, hpath⟩
      exact s.inotify.tree.single _ _ _ hnode hfolder ▸ hwd
    · rw [heq] at hstep
      obtain ⟨rfl, -⟩ := Prod.mk.inj (Option.some.inj hstep)
      exact .added relative newFolders folder hphase hnew ⟨hnode, hno, hremoving⟩
  · cases hstep

theorem Sound.stepped_entry {name : String} (h : s.Sound) (hremoving : s.reading.removing = [])
    (hstep : s.act (.entry name) = some (t, o)) : Stepped s (.act (.entry name)) t := by
  simp only [act] at hstep
  split at hstep
  · rename_i pending listing hphase
    rcases h.addWatch_cases hremoving (listing.relative ++ [name]) with ⟨hno, heq⟩ |
      ⟨folder, wd, path, hnode, hwd, hpath, heq⟩ | ⟨folder, hnode, hno, heq⟩
    · rw [heq] at hstep
      obtain ⟨rfl, -⟩ := Prod.mk.inj (Option.some.inj hstep)
      exact .gaveMet name pending listing hphase fun folder hfolder => absurd hfolder (hno folder)
    · rw [heq] at hstep
      obtain ⟨rfl, -⟩ := Prod.mk.inj (Option.some.inj hstep)
      refine .gaveMet name pending listing hphase fun folder' hfolder => ⟨wd, path, ?_, hpath⟩
      exact s.inotify.tree.single _ _ _ hnode hfolder ▸ hwd
    · rw [heq] at hstep
      obtain ⟨rfl, -⟩ := Prod.mk.inj (Option.some.inj hstep)
      exact .gaveNew name pending listing folder hphase ⟨hnode, hno, hremoving⟩
  · cases hstep

theorem Sound.stepped_walkAgain (h : s.Sound) (hstep : s.act .walkAgain = some (t, o)) :
    Stepped s (.act .walkAgain) t := by
  simp only [act] at hstep
  split at hstep
  · rename_i hphase hnew _
    rw [h.addWatch_root] at hstep
    simp only [Option.map_some, ne_eq, not_true_eq_false, if_false] at hstep
    obtain ⟨rfl, -⟩ := Prod.mk.inj (Option.some.inj hstep)
    exact .again hphase hnew
  · cases hstep

theorem Sound.stepped (h : s.Sound) (hstep : s.step i = some (t, o)) : Stepped s i t := by
  cases i with
  | change c full =>
    obtain ⟨inotify, hchange, heq⟩ := Option.map_eq_some_iff.mp hstep
    obtain ⟨rfl, -⟩ := Prod.mk.inj heq
    exact .changed c full inotify hchange
  | rmWatch full =>
    simp only [step] at hstep
    split at hstep
    · cases hstep
    · rename_i wd removing hremoving
      obtain ⟨rfl, -⟩ := Prod.mk.inj (Option.some.inj hstep)
      exact .removed wd removing full hremoving
  | act a =>
    simp only [step] at hstep
    split at hstep
    · rename_i hremoving
      cases a with
      | add => exact h.stepped_add hremoving hstep
      | entry name => exact h.stepped_entry hremoving hstep
      | walkAgain => exact h.stepped_walkAgain hstep
      | begin =>
        simp only [act] at hstep
        split at hstep
        · obtain ⟨rfl, -⟩ := Prod.mk.inj (Option.some.inj hstep)
          exact .began ‹_›
        · cases hstep
      | read count =>
        simp only [act] at hstep
        split at hstep
        · split at hstep
          · obtain ⟨rfl, -⟩ := Prod.mk.inj (Option.some.inj hstep)
            exact .read count ‹_›
          · cases hstep
        · cases hstep
      | event =>
        simp only [act] at hstep
        split at hstep
        · rename_i e batch hphase
          obtain ⟨rfl, -⟩ := Prod.mk.inj (Option.some.inj hstep)
          exact .event e batch hphase
        · cases hstep
      | readEnds isInterrupted =>
        simp only [act] at hstep
        split at hstep
        · split at hstep
          · obtain ⟨rfl, -⟩ := Prod.mk.inj (Option.some.inj hstep)
            refine .readEnded isInterrupted _ ‹_› ?_
            split
            · exact .inl rfl
            · exact .inr rfl
          · cases hstep
        · cases hstep
      | openFolder =>
        simp only [act] at hstep
        split at hstep
        · rename_i relative pending hphase
          obtain ⟨rfl, -⟩ := Prod.mk.inj (Option.some.inj hstep)
          exact .openedFolder relative pending hphase
        · cases hstep
      | endListing =>
        simp only [act] at hstep
        split at hstep
        · rename_i pending listing hphase
          split at hstep
          · obtain ⟨rfl, -⟩ := Prod.mk.inj (Option.some.inj hstep)
            exact .listed pending listing hphase ‹_›
          · cases hstep
        · cases hstep
      | endWalk =>
        simp only [act] at hstep
        split at hstep
        · obtain ⟨rfl, -⟩ := Prod.mk.inj (Option.some.inj hstep)
          exact .walked ‹_›
        · cases hstep
      | finish =>
        simp only [act] at hstep
        split at hstep
        · rename_i hphase hnew hwalk
          obtain ⟨rfl, -⟩ := Prod.mk.inj (Option.some.inj hstep)
          exact .finished hphase hnew hwalk
        · cases hstep
      | fail =>
        simp only [act] at hstep
        split at hstep
        · cases hstep
        · cases hstep
        · obtain ⟨rfl, -⟩ := Prod.mk.inj (Option.some.inj hstep)
          exact .failed
    · cases hstep

theorem Stepped.sound (h : s.Sound) (hstep : Stepped s i t) : t.Sound := by
  have hunread : ∀ {phase : Phase}, phase.batch = [] → ∀ e ∈ phase.batch ++ s.inotify.queue, e ∈ s.unread := by
    intro phase hphase e he
    rw [hphase] at he
    exact List.mem_append_right _ he
  cases hstep with
  | changed c full inotify hchange => exact h.change hchange
  | removed wd removing full hremoving => exact h.rmWatch hremoving
  | began hphase => exact h.same rfl rfl rfl (hunread rfl) fun hidle => absurd hidle (by simp)
  | read count hphase =>
    refine h.same rfl rfl rfl (fun e he => ?_) fun hidle => absurd hidle (by simp)
    simp only [Phase.batch, List.take_append_drop] at he
    exact List.mem_append_right _ he
  | event e batch hphase => exact h.event hphase
  | readEnded isInterrupted phase hphase hnext =>
    rcases hnext with rfl | rfl
    · exact h.same rfl rfl rfl (hunread rfl) fun hidle => absurd hidle (by simp)
    · exact h.same rfl rfl rfl (hunread rfl) fun hidle => absurd hidle (by simp)
  | met relative newFolders hphase hnew hmet => exact h.taken (by simp [hphase])
  | added relative newFolders folder hphase hnew hunmet =>
    obtain ⟨hnode, hno, hremoving⟩ := hunmet
    have htaken : Sound { s with reading := { s.reading with newFolders := newFolders } } := h.taken (by simp [hphase])
    refine (htaken.watching hnode hno hremoving (by simp [hphase])).same rfl rfl rfl (fun e he => ?_) fun hidle => absurd hidle (by simp)
    exact List.mem_append_right _ he
  | openedFolder relative pending hphase =>
    exact h.same rfl rfl rfl (hunread rfl) fun hidle => absurd hidle (by simp)
  | gaveMet name pending listing hphase hmet =>
    exact h.same rfl rfl rfl (hunread rfl) fun hidle => absurd hidle (by simp)
  | gaveNew name pending listing folder hphase hunmet =>
    obtain ⟨hnode, hno, hremoving⟩ := hunmet
    refine (h.watching hnode hno hremoving (by simp [hphase])).same rfl rfl rfl (fun e he => ?_) fun hidle =>
      absurd hidle (by simp)
    exact List.mem_append_right _ he
  | listed pending listing hphase hunseen =>
    exact h.same rfl rfl rfl (hunread rfl) fun hidle => absurd hidle (by simp)
  | walked hphase => exact h.same rfl rfl rfl (hunread rfl) fun hidle => absurd hidle (by simp)
  | again hphase hnew => exact h.walkAgain
  | finished hphase hnew hwalk => exact h.same rfl rfl rfl (hunread rfl) fun _ => ⟨hnew, hwalk⟩
  | failed => exact h.same rfl rfl rfl (hunread rfl) fun hidle => absurd hidle (by simp)

end WatchState

end TgeCore.IO
