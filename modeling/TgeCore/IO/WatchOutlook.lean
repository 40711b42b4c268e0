import TgeCore.IO.WatchSound

namespace TgeCore.IO
open Library

/-- The folders that WatchBelow has still to open. -/
def Phase.pending : Phase → List FolderPath
  | .walking pending _ => pending
  | _ => []

def Phase.listing : Phase → Option Listing
  | .walking _ listing => listing
  | _ => none

namespace WatchState

/-- The map and the new folders as they will be when the events that wait have been read. -/
def ahead (s : WatchState) : Reading := s.reading.readEvents s.unread

/-- The folder is watched and no event that waits makes the map forget it. -/
def Kept (s : WatchState) (folder : Nat) : Prop :=
  ∃ watch ∈ s.inotify.watches, watch.1 = folder ∧ ∃ entry ∈ s.ahead.folders, entry.1 = watch.2

instance (s : WatchState) (folder : Nat) : Decidable (s.Kept folder) :=
  inferInstanceAs (Decidable (∃ watch ∈ s.inotify.watches, watch.1 = folder ∧
    ∃ entry ∈ s.ahead.folders, entry.1 = watch.2))

/-- The folder of that name in the parent will still be come across. -/
def Awaits (s : WatchState) (path : FolderPath) (name : String) (parent : Nat) : Prop :=
  path ++ [name] ∈ s.ahead.newFolders ∨ path ∈ s.phase.pending ∨
    ∃ listing ∈ s.phase.listing, listing.relative = path ∧ listing.folder = parent ∧ name ∈ listing.unseen

/-- Nothing that is kept is under an old path, and what is not kept in a folder
that is will still be come across. -/
structure Covered (s : WatchState) : Prop where
  placed : ∀ wd path, (wd, path) ∈ s.ahead.folders →
    ∃ folder, (s.root ++ path, folder) ∈ s.inotify.tree.nodes ∧ (folder, wd) ∈ s.inotify.watches
  reached : ∀ path name parent folder, (s.root ++ path, parent) ∈ s.inotify.tree.nodes →
    (s.root ++ (path ++ [name]), folder) ∈ s.inotify.tree.nodes → s.Kept parent →
      s.Kept folder ∨ s.Awaits path name parent

variable {s t : WatchState} {path : FolderPath} {name : String} {folder wd parent : Nat}
  {full : List Bool} {inotify : Inotify}

theorem kept_iff : s.Kept folder ↔ ∃ wd path, (folder, wd) ∈ s.inotify.watches ∧ (wd, path) ∈ s.ahead.folders := by
  constructor
  · rintro ⟨watch, hwatch, rfl, entry, hentry, heq⟩
    exact ⟨watch.2, entry.2, hwatch, heq ▸ hentry⟩
  · rintro ⟨wd, path, hwatch, hentry⟩
    exact ⟨(folder, wd), hwatch, rfl, (wd, path), hentry, rfl⟩

/-- A kept folder is in the map under the path it has. -/
theorem Covered.path_of_kept (h : s.Covered) (hs : s.Sound) (hnode : (s.root ++ path, folder) ∈ s.inotify.tree.nodes)
    (hkept : s.Kept folder) : ∃ wd, (folder, wd) ∈ s.inotify.watches ∧ (wd, path) ∈ s.ahead.folders := by
  obtain ⟨wd, q, hwatch, hentry⟩ := kept_iff.mp hkept
  obtain ⟨folder', hnode', hwatch'⟩ := h.placed wd q hentry
  obtain rfl := hs.oneFolder folder folder' wd hwatch hwatch'
  obtain rfl := List.append_cancel_left (s.inotify.tree.placed _ _ _ hnode hnode')
  exact ⟨wd, hwatch, hentry⟩

theorem Sound.ahead_oneEntry (h : s.Sound) : s.ahead.OneEntry := h.oneEntry.readEvents

theorem Sound.ahead_bound (h : s.Sound) (hentry : (wd, path) ∈ s.ahead.folders) : wd < s.inotify.nextWatch :=
  h.entryBound wd path (Reading.mem_of_readEvents h.oneEntry hentry)

theorem Sound.root_kept (h : s.Sound) (hroot : (s.root, folder) ∈ s.inotify.tree.nodes) : s.Kept folder := by
  obtain ⟨folder', hroot', hwatch⟩ := h.rootWatched
  obtain rfl := s.inotify.tree.single _ _ _ hroot hroot'
  exact kept_iff.mpr ⟨_, [], hwatch, Reading.root_mem_readEvents h.oneEntry h.rootEntry⟩

/-- A state with the same folders, of which the same are kept, is covered if it
still comes across the others. -/
theorem Covered.transfer (h : s.Covered) (hroot : t.root = s.root)
    (hnodes : t.inotify.tree.nodes = s.inotify.tree.nodes)
    (hwatches : ∀ watch ∈ t.inotify.watches, watch ∈ s.inotify.watches)
    (hkept : ∀ folder wd path, (folder, wd) ∈ s.inotify.watches → (wd, path) ∈ s.ahead.folders →
      (folder, wd) ∈ t.inotify.watches)
    (hfolders : ∀ entry, entry ∈ t.ahead.folders ↔ entry ∈ s.ahead.folders)
    (hawaits : ∀ path name parent folder, (s.root ++ path, parent) ∈ s.inotify.tree.nodes →
      (s.root ++ (path ++ [name]), folder) ∈ s.inotify.tree.nodes → s.Awaits path name parent →
        s.Kept folder ∨ t.Awaits path name parent) : t.Covered := by
  have hiff : ∀ folder, t.Kept folder ↔ s.Kept folder := by
    intro folder
    simp only [kept_iff, hfolders]
    constructor
    · rintro ⟨wd, path, hwatch, hentry⟩
      exact ⟨wd, path, hwatches _ hwatch, hentry⟩
    · rintro ⟨wd, path, hwatch, hentry⟩
      exact ⟨wd, path, hkept folder wd path hwatch hentry, hentry⟩
  constructor
  · intro wd path hentry
    obtain ⟨folder, hnode, hwatch⟩ := h.placed wd path ((hfolders _).mp hentry)
    exact ⟨folder, by rwa [hroot, hnodes], hkept folder wd path hwatch ((hfolders _).mp hentry)⟩
  · intro path name parent folder hparent hfolder hk
    rw [hroot, hnodes] at hparent hfolder
    rw [hiff] at hk ⊢
    rcases h.reached path name parent folder hparent hfolder hk with hkept | hawait
    · exact .inl hkept
    · exact hawaits path name parent folder hparent hfolder hawait

variable {c : FolderChange}

theorem pending_after {tree : PathTree String} (phase : Phase) : (phase.after tree c).pending = phase.pending := by
  unfold Phase.after
  split <;> rfl

/-- A listing goes on giving the names that were not taken. -/
theorem Awaits.after (h : s.Awaits path name parent)
    (hnew : ∀ p, p ∈ s.ahead.newFolders → p ∈ t.ahead.newFolders)
    (hphase : t.phase = s.phase.after s.inotify.tree c)
    (htaken : ∀ entry ∈ c.taken, (entry.1, parent) ∈ s.inotify.tree.nodes → entry.2 ≠ name) :
    t.Awaits path name parent := by
  rcases h with h | h | ⟨listing, hlisting, hrelative, hfolder, hname⟩
  · exact .inl (hnew _ h)
  · exact .inr (.inl (by rwa [hphase, pending_after]))
  · refine .inr (.inr ?_)
    cases hs : s.phase with
    | walking pending current =>
      obtain rfl : current = some listing := by simpa [hs, Phase.listing] using hlisting
      refine ⟨{ listing with unseen := listing.unseen.filter fun name =>
        ¬ ∃ entry ∈ c.taken, s.inotify.tree.find entry.1 = some listing.folder ∧ entry.2 = name },
        ?_, hrelative, hfolder, ?_⟩
      · rw [hphase, hs]
        rfl
      · refine List.mem_filter.mpr ⟨hname, decide_eq_true ?_⟩
        rintro ⟨entry, hentry, hfind, heq⟩
        exact htaken entry hentry (hfolder ▸ PathTree.find_eq_some.mp hfind) heq
    | idle => simp [hs, Phase.listing] at hlisting
    | reading batch => simp [hs, Phase.listing] at hlisting
    | adding => simp [hs, Phase.listing] at hlisting
    | failed => simp [hs, Phase.listing] at hlisting

/-- The tree is walked again if it was to be and no event that told of an overflow was looked at. -/
theorem walks_again (hs : s.reading.OneEntry) (ht : t.reading.OneEntry)
    (hwalk : s.reading.shouldWalkAgain = true → t.reading.shouldWalkAgain = true)
    (hunread : ∀ e ∈ s.unread, e ∈ t.unread) (hnone : t.ahead.shouldWalkAgain = false) :
    s.ahead.shouldWalkAgain = false := by
  refine Bool.eq_false_iff.mpr fun hs' => Bool.eq_false_iff.mp hnone ?_
  refine (Reading.readEvents_shouldWalkAgain ht).mpr ?_
  rcases (Reading.readEvents_shouldWalkAgain hs).mp hs' with h | ⟨e, he, hkind⟩
  · exact .inl (hwalk h)
  · exact .inr ⟨e, hunread e he, hkind⟩

/-- Unless events were lost, a change's events are read after those that wait. -/
theorem ahead_of_change {events : List InotifyEvent} {phase : Phase} (hone : s.reading.OneEntry)
    (hqueue : inotify.queue = enqueue s.inotify.queue full events)
    (hbatch : phase.batch = s.phase.batch)
    (hnone : ({ s with inotify := inotify, phase := phase } : WatchState).ahead.shouldWalkAgain = false) :
    ({ s with inotify := inotify, phase := phase } : WatchState).ahead = s.ahead.readEvents events := by
  have hno : ¬ (s.reading.shouldWalkAgain = true ∨ ∃ e ∈ phase.batch ++ inotify.queue, e.kind = .overflow) := by
    rw [← Reading.readEvents_shouldWalkAgain hone]
    exact Bool.eq_false_iff.mp hnone
  have hcomplete : enqueue s.inotify.queue full events = s.inotify.queue ++ events := by
    refine enqueue_complete fun hmem => hno (.inr ⟨overflowEvent, ?_, rfl⟩)
    exact List.mem_append_right _ (hqueue ▸ hmem)
  simp only [ahead, unread, hbatch, hqueue, hcomplete]
  rw [← List.append_assoc, Reading.readEvents_append]

/-- A change keeps what is covered if the entries it leaves are of folders that stay,
a folder that stays keeps its entry, and an arrival in a kept folder is told of. -/
theorem Covered.changed (h : s.Covered) (hs : s.Sound) (hroot : t.root = s.root)
    (hstays : ∀ wd path folder, (wd, path) ∈ t.ahead.folders → (s.root ++ path, folder) ∈ s.inotify.tree.nodes →
      (wd, path) ∈ s.ahead.folders → (s.root ++ path, folder) ∈ t.inotify.tree.nodes)
    (hfewer : ∀ entry ∈ t.ahead.folders, entry ∈ s.ahead.folders)
    (hfewer' : ∀ watch ∈ t.inotify.watches, watch ∈ s.inotify.watches)
    (hkeeps : ∀ wd path folder, (wd, path) ∈ s.ahead.folders → (folder, wd) ∈ s.inotify.watches →
      (s.root ++ path, folder) ∈ s.inotify.tree.nodes → (s.root ++ path, folder) ∈ t.inotify.tree.nodes →
        (wd, path) ∈ t.ahead.folders ∧ (folder, wd) ∈ t.inotify.watches)
    (hwatch : ∀ wd path folder, (wd, path) ∈ t.ahead.folders → (folder, wd) ∈ s.inotify.watches →
      (s.root ++ path, folder) ∈ t.inotify.tree.nodes → (folder, wd) ∈ t.inotify.watches)
    (harrives : ∀ wd path name parent folder, (wd, path) ∈ t.ahead.folders → (parent, wd) ∈ s.inotify.watches →
      (s.root ++ path, parent) ∈ s.inotify.tree.nodes →
      (s.root ++ (path ++ [name]), folder) ∈ t.inotify.tree.nodes →
        (s.root ++ (path ++ [name]), folder) ∉ s.inotify.tree.nodes → path ++ [name] ∈ t.ahead.newFolders)
    (hawaits : ∀ path name parent folder, (s.root ++ path, parent) ∈ s.inotify.tree.nodes →
      (s.root ++ (path ++ [name]), folder) ∈ s.inotify.tree.nodes →
        (s.root ++ (path ++ [name]), folder) ∈ t.inotify.tree.nodes → s.Awaits path name parent →
          t.Awaits path name parent) : t.Covered := by
  constructor
  · intro wd path hentry
    obtain ⟨folder, hnode, hmem⟩ := h.placed wd path (hfewer _ hentry)
    have hnode' := hstays wd path folder hentry hnode (hfewer _ hentry)
    exact ⟨folder, hroot ▸ hnode', hwatch wd path folder hentry hmem hnode'⟩
  · intro path name parent folder hparent hfolder hk
    rw [hroot] at hparent hfolder
    obtain ⟨wd, q, hmem, hentry⟩ := kept_iff.mp hk
    obtain ⟨parent', hnode, hmem'⟩ := h.placed wd q (hfewer _ hentry)
    obtain rfl := hs.oneFolder parent parent' wd (hfewer' _ hmem) hmem'
    have hq := t.inotify.tree.placed _ _ _ hparent (hstays wd q parent hentry hnode (hfewer _ hentry))
    obtain rfl := List.append_cancel_left hq
    by_cases hold : (s.root ++ (path ++ [name]), folder) ∈ s.inotify.tree.nodes
    · rcases h.reached path name parent folder hnode hold (kept_iff.mpr ⟨wd, path, hmem', hfewer _ hentry⟩) with hk | hawait
      · obtain ⟨wd', hmem', hentry'⟩ := h.path_of_kept hs hold hk
        obtain ⟨hentry', hmem'⟩ := hkeeps wd' _ folder hentry' hmem' hold hfolder
        exact .inl (kept_iff.mpr ⟨wd', _, hmem', hentry'⟩)
      · exact .inr (hawaits path name parent folder hnode hold hfolder hawait)
    · exact .inr (.inl (harrives wd path name parent folder hentry hmem' hnode hfolder hold))

end WatchState

end TgeCore.IO
