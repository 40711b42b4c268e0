import TgeCore.IO.WatchChanges

namespace TgeCore.IO
open Library

namespace WatchState
variable {s t : WatchState} {relative path : FolderPath} {name : String} {folder wd : Nat} {phase : Phase}
  {used : List FolderPath} {r : Reading}

/-- The folder's entry, there already or made now for the path, outlasts the events that wait. -/
def Lasts (s : WatchState) (folder : Nat) (relative : FolderPath) : Prop :=
  s.Kept folder ∨
    s.inotify.watchOf folder = none ∧
      (s.inotify.nextWatch, relative) ∈ (Reading.readEvents
        { s.reading with folders := s.reading.folders ++ [(s.inotify.nextWatch, relative)] } s.unread).folders

instance (s : WatchState) (folder : Nat) (relative : FolderPath) : Decidable (s.Lasts folder relative) :=
  inferInstanceAs (Decidable (_ ∨ _ ∧ _))

/-- Of a folder whose parent is kept, either the entry outlasts the events that wait or one of them tells of it. -/
def WatchSafe (s : WatchState) (relative : FolderPath) : Prop :=
  ∀ node ∈ s.inotify.tree.nodes, node.1 = s.root ++ relative →
    (∀ parent ∈ s.inotify.tree.nodes, parent.1 = node.1.dropLast → ¬ s.Kept parent.2) ∨
      s.Lasts node.2 relative ∨ relative ∈ s.ahead.newFolders

instance (s : WatchState) (relative : FolderPath) : Decidable (s.WatchSafe relative) :=
  inferInstanceAs (Decidable (∀ node ∈ s.inotify.tree.nodes, node.1 = s.root ++ relative →
    (∀ parent ∈ s.inotify.tree.nodes, parent.1 = node.1.dropLast → ¬ s.Kept parent.2) ∨
      s.Lasts node.2 relative ∨ relative ∈ s.ahead.newFolders))

/-- Covered but for the folder at the path. -/
structure CoveredBut (s : WatchState) (relative : FolderPath) : Prop where
  placed : ∀ wd path, (wd, path) ∈ s.ahead.folders →
    ∃ folder, (s.root ++ path, folder) ∈ s.inotify.tree.nodes ∧ (folder, wd) ∈ s.inotify.watches
  reached : ∀ path name parent folder, (s.root ++ path, parent) ∈ s.inotify.tree.nodes →
    (s.root ++ (path ++ [name]), folder) ∈ s.inotify.tree.nodes → s.Kept parent →
      s.Kept folder ∨ s.Awaits path name parent ∨ path ++ [name] = relative

theorem dropLast_child (root path : FolderPath) (name : String) : (root ++ (path ++ [name])).dropLast = root ++ path := by
  rw [← List.append_assoc, List.dropLast_concat]

/-- Nothing is missed where AddWatch finds a watched folder. -/
theorem CoveredBut.met (h : s.CoveredBut relative) (hsafe : s.WatchSafe relative) (hmet : s.Met relative) :
    s.Covered where
  placed := h.placed
  reached := by
    intro path name parent folder hparent hfolder hkept
    rcases h.reached path name parent folder hparent hfolder hkept with hk | hawait | rfl
    · exact .inl hk
    · exact .inr hawait
    · rcases hsafe _ hfolder rfl with hnot | (hk | ⟨hnone, -⟩) | htold
      · exact absurd hkept (hnot _ hparent (dropLast_child s.root path name).symm)
      · exact .inl hk
      · obtain ⟨wd, -, hwatch, -⟩ := hmet folder hfolder
        exact absurd hwatch (Inotify.watchOf_eq_none.mp hnone wd)
      · exact .inr (.inl htold)

/-- A reading that differs from the state's only for a descriptor not given yet
stays so when the events that wait are read. -/
theorem Sound.beside_ahead (hs : s.Sound) (h : Reading.Beside s.inotify.nextWatch used s.reading r) :
    Reading.Beside s.inotify.nextWatch used s.ahead (r.readEvents s.unread) :=
  h.readEvents fun e he => Nat.ne_of_lt (hs.eventBound e he)

theorem ahead_watching (hbatch : phase.batch = s.phase.batch) :
    ({ s.watching folder relative with phase := phase } : WatchState).ahead =
      Reading.readEvents { s.reading with folders := s.reading.folders ++ [(s.inotify.nextWatch, relative)] } s.unread := by
  simp only [ahead, unread, hbatch, watching]

/-- The new watch's entry is the only thing that changes. -/
theorem Sound.watching_ahead (hs : s.Sound) (hbatch : phase.batch = s.phase.batch) :
    Reading.Beside s.inotify.nextWatch [] s.ahead ({ s.watching folder relative with phase := phase } : WatchState).ahead ∧
    ∀ path, (s.inotify.nextWatch, path) ∈
      ({ s.watching folder relative with phase := phase } : WatchState).ahead.folders → path = relative := by
  have hnew : ∀ path, (s.inotify.nextWatch, path) ∉ s.reading.folders :=
    fun path hmem => absurd (hs.entryBound _ path hmem) (Nat.lt_irrefl _)
  have hone : Reading.OneEntry
      { s.reading with folders := s.reading.folders ++ [(s.inotify.nextWatch, relative)] } := by
    intro wd p q hp hq
    rcases List.mem_append.mp hp with hp | hp <;> rcases List.mem_append.mp hq with hq | hq
    · exact hs.oneEntry wd p q hp hq
    · exact absurd ((Prod.mk.inj (List.mem_singleton.mp hq)).1 ▸ hp) (hnew p)
    · exact absurd ((Prod.mk.inj (List.mem_singleton.mp hp)).1 ▸ hq) (hnew q)
    · rw [(Prod.mk.inj (List.mem_singleton.mp hp)).2, (Prod.mk.inj (List.mem_singleton.mp hq)).2]
  rw [ahead_watching hbatch]
  constructor
  · refine hs.beside_ahead ⟨hs.oneEntry, hone, rfl, Iff.rfl, fun entry hentry => ?_, fun path => ?_⟩
    · refine ⟨fun hmem => (List.mem_append.mp hmem).resolve_right fun hlast => hentry ?_, List.mem_append_left _⟩
      rw [List.mem_singleton.mp hlast]
    · simp
  · intro path hmem
    rcases List.mem_append.mp (Reading.mem_of_readEvents hone hmem) with hmem | hmem
    · exact absurd hmem (hnew path)
    · exact (Prod.mk.inj (List.mem_singleton.mp hmem)).2

/-- Where AddWatch makes a watch, what is in the folder waits for the walk. -/
theorem CoveredBut.unmet (h : s.CoveredBut relative) (hs : s.Sound) (hsafe : s.WatchSafe relative)
    (hunmet : s.Unmet relative folder) (hbatch : phase.batch = s.phase.batch) (hpending : relative ∈ phase.pending)
    (hmore : ∀ p ∈ s.phase.pending, p ∈ phase.pending) (hlisting : phase.listing = s.phase.listing) :
    Covered { s.watching folder relative with phase := phase } := by
  obtain ⟨hnode, hno, -⟩ := hunmet
  obtain ⟨hbeside, honly⟩ : Reading.Beside s.inotify.nextWatch [] s.ahead
      ({ s.watching folder relative with phase := phase } : WatchState).ahead ∧ _ := hs.watching_ahead hbatch
  have hahead : ({ s.watching folder relative with phase := phase } : WatchState).ahead = _ := ahead_watching hbatch
  have hkeep : ∀ f, s.Kept f → Kept { s.watching folder relative with phase := phase } f := by
    intro f hk
    obtain ⟨wd, path, hwatch, hentry⟩ := kept_iff.mp hk
    refine kept_iff.mpr ⟨wd, path, List.mem_append_left _ hwatch, ?_⟩
    exact (hbeside.folders _ (Nat.ne_of_lt (hs.ahead_bound hentry))).mpr hentry
  have hlast : ∀ path, (s.inotify.nextWatch, path) ∈
      ({ s.watching folder relative with phase := phase } : WatchState).ahead.folders →
        Kept { s.watching folder relative with phase := phase } folder := fun path hentry =>
    kept_iff.mpr ⟨_, path, List.mem_append_right _ (List.mem_singleton_self _), hentry⟩
  constructor
  · intro wd path hentry
    by_cases hwd : wd = s.inotify.nextWatch
    · subst wd
      obtain rfl := honly path hentry
      exact ⟨folder, hnode, List.mem_append_right _ (List.mem_singleton_self _)⟩
    · obtain ⟨f, hf, hwatch⟩ := h.placed wd path ((hbeside.folders _ hwd).mp hentry)
      exact ⟨f, hf, List.mem_append_left _ hwatch⟩
  · intro path name parent child hparent hchild hkept
    obtain ⟨wd, q, hwatch, hentry⟩ := kept_iff.mp hkept
    rcases List.mem_append.mp hwatch with hwatch | hwatch
    · have hwd := (hs.watchBound parent wd hwatch).2
      have hk : s.Kept parent :=
        kept_iff.mpr ⟨wd, q, hwatch, (hbeside.folders _ (Nat.ne_of_lt hwd)).mp hentry⟩
      rcases h.reached path name parent child hparent hchild hk with hk | hawait | rfl
      · exact .inl (hkeep child hk)
      · rcases hawait with htold | hpath | hunseen
        · exact .inr (.inl (((hbeside.newFolders _).mp htold).resolve_left List.not_mem_nil))
        · exact .inr (.inr (.inl (hmore path hpath)))
        · exact .inr (.inr (.inr (hlisting ▸ hunseen)))
      · obtain rfl := s.inotify.tree.single _ _ _ hnode hchild
        rcases hsafe _ hchild rfl with hnot | (hk | ⟨-, hentry⟩) | htold
        · exact absurd hk (hnot _ hparent (dropLast_child s.root path name).symm)
        · exact .inl (hkeep folder hk)
        · exact .inl (hlast _ (hahead ▸ hentry))
        · exact .inr (.inl (((hbeside.newFolders _).mp htold).resolve_left List.not_mem_nil))
    · -- the parent is the new folder itself
      obtain ⟨rfl, rfl⟩ := Prod.mk.inj (List.mem_singleton.mp hwatch)
      have hpath := List.append_cancel_left (s.inotify.tree.placed _ _ _ hparent hnode)
      exact .inr (.inr (.inl (hpath ▸ hpending)))

theorem ahead_phase (hbatch : phase.batch = s.phase.batch) :
    ({ s with phase := phase } : WatchState).ahead = s.ahead := by
  simp only [ahead, unread, hbatch]

theorem watchSafe_phase (hbatch : phase.batch = s.phase.batch) :
    WatchSafe { s with phase := phase } relative ↔ s.WatchSafe relative := by
  simp only [WatchSafe, Lasts, Kept, ahead, unread, hbatch]

/-- A reading with the state's map is ahead of it by the same events. -/
theorem Sound.alike_ahead (hs : s.Sound) (hfolders : r.folders = s.reading.folders)
    (hroot : r.rootWatch = s.reading.rootWatch) (hwalk : r.shouldWalkAgain = s.reading.shouldWalkAgain)
    (hnew : ∀ p, p ∈ s.reading.newFolders ↔ p ∈ used ∨ p ∈ r.newFolders) :
    (∀ entry, entry ∈ (r.readEvents s.unread).folders ↔ entry ∈ s.ahead.folders) ∧
    (∀ p, p ∈ s.ahead.newFolders ↔ p ∈ used ∨ p ∈ (r.readEvents s.unread).newFolders) ∧
    ((r.readEvents s.unread).shouldWalkAgain = true ↔ s.ahead.shouldWalkAgain = true) := by
  have hone : r.OneEntry := by simpa only [Reading.OneEntry, hfolders] using hs.oneEntry
  have hbeside : Reading.Beside s.inotify.nextWatch used s.ahead (r.readEvents s.unread) :=
    hs.beside_ahead ⟨hs.oneEntry, hone, hroot, by rw [hwalk], fun entry _ => by rw [hfolders], hnew⟩
  refine ⟨fun entry => ?_, hbeside.newFolders, hbeside.shouldWalkAgain⟩
  by_cases hentry : entry.1 = s.inotify.nextWatch
  · have hnot : ∀ path, (entry.1, path) ∉ s.reading.folders :=
      fun path hmem => absurd (hs.entryBound _ path hmem) (by omega)
    constructor
    · exact fun hmem => absurd (hfolders ▸ Reading.mem_of_readEvents hone hmem) (hnot entry.2)
    · exact fun hmem => absurd (Reading.mem_of_readEvents hs.oneEntry hmem) (hnot entry.2)
  · exact hbeside.folders entry hentry

/-- A step that keeps the file system, the watches and what is ahead. -/
theorem Covered.turn (h : s.Covered) (hbatch : phase.batch = s.phase.batch)
    (hpending : ∀ path name parent folder, (s.root ++ path, parent) ∈ s.inotify.tree.nodes →
      (s.root ++ (path ++ [name]), folder) ∈ s.inotify.tree.nodes → path ∈ s.phase.pending →
        Awaits { s with phase := phase } path name parent)
    (hlisting : ∀ path name parent, ∀ listing ∈ s.phase.listing, listing.relative = path → listing.folder = parent →
      name ∈ listing.unseen → Awaits { s with phase := phase } path name parent) :
    Covered { s with phase := phase } := by
  refine h.transfer rfl rfl (fun _ hwatch => hwatch) (fun _ _ _ hwatch _ => hwatch) (fun entry => ?_) ?_
  · rw [ahead_phase hbatch]
  · intro path name parent folder hparent hfolder hawait
    rcases hawait with htold | hpath | ⟨listing, hmem, hrelative, hparent', hname⟩
    · exact .inr (.inl (by rwa [ahead_phase hbatch]))
    · exact .inr (hpending path name parent folder hparent hfolder hpath)
    · exact .inr (hlisting path name parent listing hmem hrelative hparent' hname)

/-- Without a walk, only what the events tell is waited for. -/
theorem Awaits.told (h : s.Awaits path name parent) (hpending : s.phase.pending = []) (hlisting : s.phase.listing = none) :
    path ++ [name] ∈ s.ahead.newFolders := by
  rcases h with htold | hpath | ⟨listing, hmem, -⟩
  · exact htold
  · exact absurd (hpending ▸ hpath) List.not_mem_nil
  · rw [hlisting] at hmem
    cases hmem

/-- What nothing waits for needs nothing of the phase. -/
theorem Covered.of_ahead (h : s.Covered) (hroot : t.root = s.root) (htree : t.inotify.tree = s.inotify.tree)
    (hwatches : t.inotify.watches = s.inotify.watches) (hahead : t.ahead = s.ahead) (hpending : s.phase.pending = [])
    (hlisting : s.phase.listing = none) : t.Covered := by
  refine h.transfer hroot (by rw [htree]) (fun _ hwatch => hwatches ▸ hwatch) (fun _ _ _ hwatch _ => hwatches ▸ hwatch)
    (fun entry => by rw [hahead]) fun path name parent folder _ _ hawait => .inr (.inl ?_)
  rw [hahead]
  exact hawait.told hpending hlisting

theorem Covered.turn_of_none (h : s.Covered) (hbatch : phase.batch = s.phase.batch) (hpending : s.phase.pending = [])
    (hlisting : s.phase.listing = none) : Covered { s with phase := phase } :=
  h.of_ahead rfl rfl rfl (ahead_phase hbatch) hpending hlisting

theorem Covered.openFolder {pending : List FolderPath} (h : s.Covered)
    (hphase : s.phase = .walking (relative :: pending) none) :
    Covered { s with
      phase := .walking pending ((s.inotify.tree.find (s.root ++ relative)).map fun folder =>
        { relative := relative, folder := folder, unseen := s.inotify.tree.children (s.root ++ relative) }) } := by
  refine h.turn (by rw [hphase]; rfl) ?_ ?_
  · intro path name parent folder hparent hfolder hpath
    rw [hphase] at hpath
    rcases List.mem_cons.mp hpath with rfl | hpath
    · refine .inr (.inr ⟨_, Option.mem_map_of_mem _ (PathTree.find_eq_some.mpr hparent), rfl, rfl, ?_⟩)
      exact PathTree.mem_children.mpr ⟨folder, by rwa [List.append_assoc]⟩
    · exact .inr (.inl hpath)
  · intro path name parent listing hmem
    rw [hphase] at hmem
    cases hmem

/-- The listing's folder is done with but for the name it gave. -/
theorem Covered.gave {pending : List FolderPath} {listing : Listing} (h : s.Covered)
    (hphase : s.phase = .walking pending (some listing)) :
    CoveredBut { s with phase := .walking pending (some (listing.gave name)) } (listing.relative ++ [name]) := by
  have hbatch : (Phase.walking pending (some (listing.gave name))).batch = s.phase.batch := by
    rw [hphase]
    rfl
  have hahead := ahead_phase hbatch
  refine ⟨by simpa only [hahead] using h.placed, fun path child parent folder hparent hfolder hkept => ?_⟩
  simp only [Kept, hahead] at hkept ⊢
  rcases h.reached path child parent folder hparent hfolder hkept with hk | htold | hpath | ⟨l, hl, rfl, hparent', hname⟩
  · exact .inl hk
  · exact .inr (.inl (.inl (by rwa [hahead])))
  · rw [hphase] at hpath
    exact .inr (.inl (.inr (.inl hpath)))
  · obtain rfl : listing = l := by simpa [hphase, Phase.listing] using hl
    by_cases heq : child = name
    · exact .inr (.inr (by rw [heq]))
    · exact .inr (.inl (.inr (.inr ⟨listing.gave name, rfl, rfl, hparent',
        List.mem_filter.mpr ⟨hname, decide_eq_true heq⟩⟩)))

/-- The list of new folders without its first is enough but for that one. -/
theorem Covered.taken {newFolders : List FolderPath} (h : s.Covered) (hs : s.Sound)
    (hnew : s.reading.newFolders = relative :: newFolders) :
    CoveredBut { s with reading := { s.reading with newFolders := newFolders } } relative := by
  obtain ⟨hfolders, hnewFolders, -⟩ : (∀ entry, entry ∈ ({ s with
      reading := { s.reading with newFolders := newFolders } } : WatchState).ahead.folders ↔ _) ∧
        (∀ p, p ∈ s.ahead.newFolders ↔ p ∈ [relative] ∨ _) ∧ _ :=
    hs.alike_ahead rfl rfl rfl (by simp [hnew])
  refine ⟨by simpa only [hfolders] using h.placed, fun path child parent folder hparent hfolder hkept => ?_⟩
  simp only [Kept, hfolders] at hkept ⊢
  rcases h.reached path child parent folder hparent hfolder hkept with hk | htold | hpath | hlisting
  · exact .inl hk
  · rcases (hnewFolders _).mp htold with heq | htold
    · exact .inr (.inr (List.mem_singleton.mp heq))
    · exact .inr (.inl (.inl htold))
  · exact .inr (.inl (.inr (.inl hpath)))
  · exact .inr (.inl (.inr (.inr hlisting)))

theorem Covered.began (h : s.Covered) (hs : s.Sound) (hphase : s.phase = .idle) :
    Covered { s with
      reading := { s.reading with newFolders := [], isRootGone := false, shouldWalkAgain := false, changes := {} }
      phase := .reading [] } := by
  obtain ⟨hempty, hwalk⟩ := hs.idle hphase
  have hunread : s.unread = [] ++ s.inotify.queue := by rw [unread, hphase]; rfl
  obtain ⟨hfolders, hnewFolders, -⟩ : (∀ entry, entry ∈ (Reading.readEvents
      { s.reading with newFolders := [], isRootGone := false, shouldWalkAgain := false, changes := {} }
        s.unread).folders ↔ _) ∧ (∀ p, p ∈ s.ahead.newFolders ↔ p ∈ ([] : List FolderPath) ∨ _) ∧ _ :=
    hs.alike_ahead rfl rfl hwalk.symm (by simp [hempty])
  rw [hunread] at hfolders hnewFolders
  refine h.transfer rfl rfl (fun _ hwatch => hwatch) (fun _ _ _ hwatch _ => hwatch) hfolders ?_
  intro path name parent folder _ _ hawait
  have htold := hawait.told (by rw [hphase]; rfl) (by rw [hphase]; rfl)
  exact .inr (.inl (((hnewFolders _).mp htold).resolve_left List.not_mem_nil))

/-- A watch that ForgetBelow takes away was of no entry any more, nor is its last event. -/
theorem Covered.rmWatch {removing : List Nat} {full : List Bool} (h : s.Covered) (hs : s.Sound)
    (hremoving : s.reading.removing = wd :: removing)
    (hnone : ({ s with
      inotify := s.inotify.rmWatch wd full
      reading := { s.reading with removing := removing } } : WatchState).ahead.shouldWalkAgain = false) :
    Covered { s with inotify := s.inotify.rmWatch wd full, reading := { s.reading with removing := removing } } := by
  have hgone : ∀ path, (wd, path) ∉ s.reading.folders := hs.removingGone wd (by simp [hremoving])
  obtain ⟨hfolders, hnewFolders, -⟩ : (∀ entry, entry ∈ (Reading.readEvents
      { s.reading with removing := removing } s.unread).folders ↔ _) ∧
        (∀ p, p ∈ s.ahead.newFolders ↔ p ∈ ([] : List FolderPath) ∨ _) ∧ _ := hs.alike_ahead rfl rfl rfl (by simp)
  have hone : Reading.OneEntry (Reading.readEvents { s.reading with removing := removing } s.unread) :=
    Reading.OneEntry.readEvents hs.oneEntry
  -- the event that tells of its end is of no entry
  have halike : Reading.Alike (Reading.readEvents { s.reading with removing := removing } s.unread)
      ({ s with
        inotify := s.inotify.rmWatch wd full
        reading := { s.reading with removing := removing } } : WatchState).ahead := by
    by_cases hlive : ∃ watch ∈ s.inotify.watches, watch.2 = wd
    · have hqueue : (s.inotify.rmWatch wd full).queue =
          enqueue s.inotify.queue full [{ wd := wd, kind := .ignored }] := by
        rw [Inotify.rmWatch, if_pos hlive]
      rw [ahead_of_change (s := { s with reading := { s.reading with removing := removing } }) hs.oneEntry hqueue rfl hnone]
      refine Reading.Alike.of_unknown (e := { wd := wd, kind := .ignored }) hone fun path hmem => hgone path ?_
      exact Reading.mem_of_readEvents hs.oneEntry ((hfolders _).mp hmem)
    · rw [Inotify.rmWatch, if_neg hlive]
      exact Reading.Alike.refl _
  have hwatches : ∀ watch, watch ∈ (s.inotify.rmWatch wd full).watches ↔
      watch ∈ s.inotify.watches ∧ watch.2 ≠ wd :=
    (rmWatch_weakens fun folder hwatch => (hs.watchBound folder wd hwatch).2).2
  refine h.transfer rfl ?_ (fun watch hwatch => ((hwatches watch).mp hwatch).1) ?_ (fun entry => ?_) ?_
  · unfold Inotify.rmWatch
    split <;> rfl
  · intro folder wd' path hwatch hentry
    refine (hwatches _).mpr ⟨hwatch, ?_⟩
    rintro rfl
    exact hgone path (Reading.mem_of_readEvents hs.oneEntry hentry)
  · exact (halike.folders entry).trans (hfolders entry)
  · intro path name parent folder _ _ hawait
    rcases hawait with htold | hwaits
    · exact .inr (.inl ((halike.newFolders _).mpr (((hnewFolders _).mp htold).resolve_left List.not_mem_nil)))
    · exact .inr (.inr hwaits)

/-- Where the map has the root alone, the walk comes across all the rest. -/
theorem Sound.covered_of_root (hs : s.Sound) (hroot : ∀ entry ∈ s.reading.folders, entry = (s.reading.rootWatch, []))
    (hpending : [] ∈ s.phase.pending) : s.Covered := by
  have honly : ∀ wd path, (wd, path) ∈ s.ahead.folders → wd = s.reading.rootWatch ∧ path = [] :=
    fun wd path hentry => Prod.mk.inj (hroot _ (Reading.mem_of_readEvents hs.oneEntry hentry))
  obtain ⟨top, htop, hwatch⟩ := hs.rootWatched
  constructor
  · intro wd path hentry
    obtain ⟨rfl, rfl⟩ := honly wd path hentry
    exact ⟨top, by rwa [List.append_nil], hwatch⟩
  · intro path name parent folder hparent _ hkept
    obtain ⟨wd, q, hwatch', hentry⟩ := kept_iff.mp hkept
    obtain ⟨rfl, rfl⟩ := honly wd q hentry
    obtain rfl := hs.oneFolder parent top _ hwatch' hwatch
    have hpath : path = [] := by simpa using s.inotify.tree.placed _ _ _ hparent htop
    exact .inr (.inr (.inl (hpath ▸ hpending)))

/-- Unless the tree is to be walked again: no folder moves that is kept, or is above one that is,
out of a folder that is not kept; and AddWatch meets no folder of which its parent
stays in the map and it does not. -/
def Undisturbed (s : WatchState) : WatchInput → Prop
  | .change (.rename oldParent oldName _ _) _ => s.ahead.shouldWalkAgain = true ∨ s.RenameSafe oldParent oldName
  | .act .add => s.ahead.shouldWalkAgain = true ∨ ∀ relative ∈ s.reading.newFolders.head?,
    WatchSafe { s with reading := { s.reading with newFolders := s.reading.newFolders.tail } } relative
  | .act (.entry name) => s.ahead.shouldWalkAgain = true ∨ ∀ listing ∈ s.phase.listing,
    s.WatchSafe (listing.relative ++ [name])
  | _ => True

instance (s : WatchState) : ∀ i, Decidable (s.Undisturbed i)
  | .change (.rename _ _ _ _) _ => inferInstanceAs (Decidable (_ ∨ _))
  | .change (.create _ _) _ | .change (.remove _ _) _ | .change (.file _ _ _) _ => isTrue trivial
  | .rmWatch _ => isTrue trivial
  | .act .add => inferInstanceAs (Decidable (_ ∨ _))
  | .act (.entry _) => inferInstanceAs (Decidable (_ ∨ _))
  | .act .begin | .act (.read _) | .act .event | .act (.readEnds _) | .act .openFolder | .act .endListing
  | .act .endWalk | .act .walkAgain | .act .finish | .act .fail => isTrue trivial

/-- Unless the tree is to be walked again or the watch failed, it is covered. -/
structure Tracked (s : WatchState) : Prop where
  sound : s.Sound
  covered : s.ahead.shouldWalkAgain = false → s.phase ≠ .failed → s.Covered

variable {i : WatchInput} {o : Option DirectoryChanges} {c : FolderChange} {full : List Bool} {inotify : Inotify}

theorem change_queue (hchange : s.inotify.change s.root full c = some inotify) :
    ∃ events, inotify.queue = enqueue s.inotify.queue full events := by
  cases c with
  | create parent name =>
    obtain ⟨tree, -, rfl⟩ := Option.map_eq_some_iff.mp hchange
    exact ⟨_, rfl⟩
  | remove parent name =>
    simp only [Inotify.change] at hchange
    split at hchange
    · cases hchange
    · obtain ⟨tree, -, rfl⟩ := Option.map_eq_some_iff.mp hchange
      exact ⟨_, rfl⟩
  | rename oldParent oldName newParent newName =>
    simp only [Inotify.change] at hchange
    split at hchange
    · cases hchange
    · obtain ⟨tree, -, rfl⟩ := Option.map_eq_some_iff.mp hchange
      exact ⟨_, rfl⟩
  | file parent kind name =>
    simp only [Inotify.change] at hchange
    split at hchange
    · obtain rfl := Option.some.inj hchange
      exact ⟨_, rfl⟩
    · cases hchange

theorem Tracked.change (h : s.Tracked) (hu : s.Undisturbed (.change c full))
    (hchange : s.inotify.change s.root full c = some inotify) : (s.changedTo c inotify).Tracked := by
  have ht : (s.changedTo c inotify).Sound := h.sound.change hchange
  refine ⟨ht, fun hnone hphase => ?_⟩
  have hcalm : s.ahead.shouldWalkAgain = false := by
    refine walks_again h.sound.oneEntry ht.oneEntry id (fun e he => ?_) hnone
    obtain ⟨events, hqueue⟩ := change_queue hchange
    rcases List.mem_append.mp he with he | he
    · exact List.mem_append_left _ (by rwa [changedTo, batch_after])
    · exact List.mem_append_right _ (by rw [changedTo, hqueue]; exact enqueue_keeps he)
  have hcovered := h.covered hcalm fun hfailed => hphase (by rw [changedTo, hfailed]; rfl)
  cases c with
  | create parent name => exact hcovered.create h.sound hchange hnone
  | remove parent name => exact hcovered.remove h.sound hchange hnone
  | rename oldParent oldName newParent newName =>
    exact hcovered.rename h.sound (hu.resolve_left (by simp [hcalm])) hchange hnone
  | file parent kind name => exact hcovered.file h.sound hchange hnone

theorem Tracked.turn_of_none (h : s.Tracked) (ht : Sound { s with phase := phase })
    (hbatch : phase.batch = s.phase.batch) (hphase : s.phase ≠ .failed) (hpending : s.phase.pending = [])
    (hlisting : s.phase.listing = none) : Tracked { s with phase := phase } := by
  refine ⟨ht, fun hnone _ => ?_⟩
  rw [ahead_phase hbatch] at hnone
  exact (h.covered hnone hphase).turn_of_none hbatch hpending hlisting

variable {newFolders pending : List FolderPath} {listing : Listing} {removing : List Nat} {count : Nat}
  {e : InotifyEvent} {batch : List InotifyEvent}

theorem Tracked.removed (h : s.Tracked) (hremoving : s.reading.removing = wd :: removing)
    (ht : Sound { s with inotify := s.inotify.rmWatch wd full, reading := { s.reading with removing := removing } }) :
    Tracked { s with inotify := s.inotify.rmWatch wd full, reading := { s.reading with removing := removing } } := by
  refine ⟨ht, fun hnone hphase => ?_⟩
  refine (h.covered (walks_again h.sound.oneEntry ht.oneEntry id (fun e he => ?_) hnone) hphase).rmWatch h.sound
    hremoving hnone
  refine List.mem_append.mpr ((List.mem_append.mp he).imp id fun he => ?_)
  rw [Inotify.rmWatch]
  split
  · exact enqueue_keeps he
  · exact he

theorem Tracked.began (h : s.Tracked) (hphase : s.phase = .idle)
    (ht : Sound { s with
      reading := { s.reading with newFolders := [], isRootGone := false, shouldWalkAgain := false, changes := {} }
      phase := .reading [] }) :
    Tracked { s with
      reading := { s.reading with newFolders := [], isRootGone := false, shouldWalkAgain := false, changes := {} }
      phase := .reading [] } := by
  refine ⟨ht, fun hnone _ => (h.covered ?_ (by simp [hphase])).began h.sound hphase⟩
  refine walks_again h.sound.oneEntry ht.oneEntry (fun hwalk => ?_) (fun e he => ?_) hnone
  · rw [(h.sound.idle hphase).2] at hwalk
    cases hwalk
  · rwa [unread, hphase] at he

theorem Tracked.read (h : s.Tracked) (hphase : s.phase = .reading [])
    (ht : Sound { s with
      inotify := { s.inotify with queue := s.inotify.queue.drop count }
      phase := .reading (s.inotify.queue.take count) }) :
    Tracked { s with
      inotify := { s.inotify with queue := s.inotify.queue.drop count }
      phase := .reading (s.inotify.queue.take count) } := by
  have hahead : ({ s with
      inotify := { s.inotify with queue := s.inotify.queue.drop count }
      phase := .reading (s.inotify.queue.take count) } : WatchState).ahead = s.ahead := by
    simp only [ahead, unread, Phase.batch, hphase, List.take_append_drop, List.nil_append]
  refine ⟨ht, fun hnone _ => ?_⟩
  rw [hahead] at hnone
  exact (h.covered hnone (by simp [hphase])).of_ahead rfl rfl rfl hahead (by rw [hphase]; rfl) (by rw [hphase]; rfl)

theorem Tracked.event (h : s.Tracked) (hphase : s.phase = .reading (e :: batch))
    (ht : Sound { s with reading := s.reading.readEvent e, phase := .reading batch }) :
    Tracked { s with reading := s.reading.readEvent e, phase := .reading batch } := by
  have hahead : ({ s with reading := s.reading.readEvent e, phase := .reading batch } : WatchState).ahead = s.ahead := by
    simp only [ahead, unread, Phase.batch, hphase]
    rfl
  refine ⟨ht, fun hnone _ => ?_⟩
  rw [hahead] at hnone
  exact (h.covered hnone (by simp [hphase])).of_ahead rfl rfl rfl hahead (by rw [hphase]; rfl) (by rw [hphase]; rfl)

theorem Tracked.met (h : s.Tracked) (hu : s.Undisturbed (.act .add))
    (hnew : s.reading.newFolders = relative :: newFolders) (hmet : s.Met relative)
    (ht : Sound { s with reading := { s.reading with newFolders := newFolders } }) :
    Tracked { s with reading := { s.reading with newFolders := newFolders } } := by
  refine ⟨ht, fun hnone hfailed => ?_⟩
  have hcalm := walks_again h.sound.oneEntry ht.oneEntry id (fun e he => he) hnone
  have hsafe := hu.resolve_left (by simp [hcalm])
  rw [hnew] at hsafe
  exact ((h.covered hcalm hfailed).taken h.sound hnew).met (hsafe relative rfl) hmet

theorem Tracked.added (h : s.Tracked) (hu : s.Undisturbed (.act .add))
    (hphase : s.phase = .adding) (hnew : s.reading.newFolders = relative :: newFolders) (hunmet : s.Unmet relative folder)
    (ht : Sound {
      ({ s with reading := { s.reading with newFolders := newFolders } } : WatchState).watching folder relative with
      phase := .walking [relative] none }) :
    Tracked {
      ({ s with reading := { s.reading with newFolders := newFolders } } : WatchState).watching folder relative with
      phase := .walking [relative] none } := by
  refine ⟨ht, fun hnone _ => ?_⟩
  have hcalm : s.ahead.shouldWalkAgain = false :=
    walks_again h.sound.oneEntry ht.oneEntry id (fun e he => by rwa [unread, hphase] at he) hnone
  have hsafe := hu.resolve_left (by simp [hcalm])
  rw [hnew] at hsafe
  refine ((h.covered hcalm (by simp [hphase])).taken h.sound hnew).unmet (h.sound.taken (by simp [hphase]))
    (hsafe relative rfl) hunmet ?_ (List.mem_singleton_self _) ?_ ?_
  · exact (congrArg Phase.batch hphase).symm
  · intro p hp
    exact absurd (congrArg Phase.pending hphase ▸ hp) List.not_mem_nil
  · exact (congrArg Phase.listing hphase).symm

theorem Tracked.gaveMet (h : s.Tracked) (hu : s.Undisturbed (.act (.entry name)))
    (hphase : s.phase = .walking pending (some listing)) (hmet : s.Met (listing.relative ++ [name]))
    (ht : Sound { s with phase := .walking pending (some (listing.gave name)) }) :
    Tracked { s with phase := .walking pending (some (listing.gave name)) } := by
  have hbatch : (Phase.walking pending (some (listing.gave name))).batch = s.phase.batch := by rw [hphase]; rfl
  refine ⟨ht, fun hnone _ => ?_⟩
  rw [ahead_phase hbatch] at hnone
  refine ((h.covered hnone (by simp [hphase])).gave hphase).met ?_ hmet
  exact (watchSafe_phase hbatch).mpr (hu.resolve_left (by simp [hnone]) listing (by rw [hphase]; rfl))

theorem Tracked.gaveNew (h : s.Tracked) (hu : s.Undisturbed (.act (.entry name)))
    (hphase : s.phase = .walking pending (some listing)) (hunmet : s.Unmet (listing.relative ++ [name]) folder)
    (ht : Sound { s.watching folder (listing.relative ++ [name]) with
      phase := .walking (pending ++ [listing.relative ++ [name]]) (some (listing.gave name)) }) :
    Tracked { s.watching folder (listing.relative ++ [name]) with
      phase := .walking (pending ++ [listing.relative ++ [name]]) (some (listing.gave name)) } := by
  have hbatch : (Phase.walking pending (some (listing.gave name))).batch = s.phase.batch := by rw [hphase]; rfl
  refine ⟨ht, fun hnone _ => ?_⟩
  have hcalm : s.ahead.shouldWalkAgain = false :=
    walks_again h.sound.oneEntry ht.oneEntry id (fun e he => by rwa [unread, hphase] at he) hnone
  have hgave : CoveredBut { s with phase := .walking pending (some (listing.gave name)) } _ :=
    (h.covered hcalm (by simp [hphase])).gave hphase
  refine hgave.unmet (h.sound.same rfl rfl rfl (fun e he => ?_) (by simp)) ?_ hunmet rfl
    (List.mem_append_right _ (List.mem_singleton_self _)) (fun p hp => List.mem_append_left _ hp) rfl
  · rwa [unread, hphase]
  · exact (watchSafe_phase hbatch).mpr (hu.resolve_left (by simp [hcalm]) listing (by rw [hphase]; rfl))

theorem Tracked.listed (h : s.Tracked)
    (hphase : s.phase = .walking pending (some listing)) (hunseen : listing.unseen = [])
    (ht : Sound { s with phase := .walking pending none }) :
    Tracked { s with phase := .walking pending none } := by
  have hbatch : (Phase.walking pending none).batch = s.phase.batch := by rw [hphase]; rfl
  refine ⟨ht, fun hnone _ => ?_⟩
  rw [ahead_phase hbatch] at hnone
  refine (h.covered hnone (by simp [hphase])).turn hbatch (fun path name parent folder _ _ hpath => ?_)
    (fun path name parent l hl _ _ hname => ?_)
  · rw [hphase] at hpath
    exact .inr (.inl hpath)
  · obtain rfl : listing = l := by simpa [hphase, Phase.listing] using hl
    rw [hunseen] at hname
    exact absurd hname List.not_mem_nil

theorem Tracked.step (h : s.Tracked) (hu : s.Undisturbed i) (hstep : s.step i = some (t, o)) : t.Tracked := by
  have hstepped := h.sound.stepped hstep
  have ht := hstepped.sound h.sound
  cases hstepped with
  | changed c full inotify hchange => exact h.change hu hchange
  | removed wd removing full hremoving => exact h.removed hremoving ht
  | began hphase => exact h.began hphase ht
  | read count hphase => exact h.read hphase ht
  | event e batch hphase => exact h.event hphase ht
  | readEnded isInterrupted phase hphase hnext =>
    have hbatch : phase.batch = s.phase.batch := by
      rw [hphase]
      rcases hnext with rfl | rfl <;> rfl
    exact h.turn_of_none ht hbatch (by simp [hphase]) (by rw [hphase]; rfl) (by rw [hphase]; rfl)
  | met relative newFolders hphase hnew hmet => exact h.met hu hnew hmet ht
  | added relative newFolders folder hphase hnew hunmet => exact h.added hu hphase hnew hunmet ht
  | openedFolder relative pending hphase =>
    refine ⟨ht, fun hnone _ => (h.covered ?_ (by simp [hphase])).openFolder hphase⟩
    rwa [ahead_phase (by rw [hphase]; rfl)] at hnone
  | gaveMet name pending listing hphase hmet => exact h.gaveMet hu hphase hmet ht
  | gaveNew name pending listing folder hphase hunmet => exact h.gaveNew hu hphase hunmet ht
  | listed pending listing hphase hunseen => exact h.listed hphase hunseen ht
  | walked hphase =>
    have hbatch : Phase.adding.batch = s.phase.batch := by rw [hphase]; rfl
    exact h.turn_of_none ht hbatch (by simp [hphase]) (by rw [hphase]; rfl) (by rw [hphase]; rfl)
  | again hphase hnew =>
    exact ⟨ht, fun _ _ => ht.covered_of_root (fun entry hentry => h.sound.forgetBelow_root.mp hentry)
      (List.mem_singleton_self _)⟩
  | finished hphase hnew hwalk =>
    have hbatch : Phase.idle.batch = s.phase.batch := by rw [hphase]; rfl
    exact h.turn_of_none ht hbatch (by simp [hphase]) (by rw [hphase]; rfl) (by rw [hphase]; rfl)
  | failed => exact ⟨ht, fun _ hfailed => absurd rfl hfailed⟩

theorem opened_tracked {tree : PathTree String} {root : FolderPath} (h : opened tree root = some s) : s.Tracked := by
  have hs := opened_sound h
  refine ⟨hs, fun _ _ => hs.covered_of_root ?_ ?_⟩
  · obtain ⟨⟨rootWatch, inotify⟩, -, rfl⟩ := Option.map_eq_some_iff.mp h
    exact fun entry hentry => List.mem_singleton.mp hentry
  · obtain ⟨⟨rootWatch, inotify⟩, -, rfl⟩ := Option.map_eq_some_iff.mp h
    exact List.mem_singleton_self _

/-- The map holds the folders of the tree and no other, each once, under the path it has and with its own watch. -/
structure Covers (s : WatchState) : Prop where
  current : ∀ wd relative, (wd, relative) ∈ s.reading.folders →
    ∃ folder, (s.root ++ relative, folder) ∈ s.inotify.tree.nodes ∧ (folder, wd) ∈ s.inotify.watches
  all : ∀ relative folder, (s.root ++ relative, folder) ∈ s.inotify.tree.nodes →
    ∃ wd, (wd, relative) ∈ s.reading.folders ∧ (folder, wd) ∈ s.inotify.watches
  once : ∀ wd wd' relative, (wd, relative) ∈ s.reading.folders → (wd', relative) ∈ s.reading.folders → wd = wd'

theorem Tracked.covers (h : s.Tracked) (hidle : s.phase = .idle) (hempty : s.inotify.queue = []) : s.Covers := by
  have hahead : s.ahead = s.reading := by
    rw [ahead, unread, hidle, hempty]
    rfl
  obtain ⟨hnew, hwalk⟩ := h.sound.idle hidle
  have hcovered := h.covered (by rw [hahead, hwalk]) (by simp [hidle])
  have hkept : ∀ relative folder, (s.root ++ relative, folder) ∈ s.inotify.tree.nodes → s.Kept folder := by
    intro relative
    induction relative using List.reverseRecOn with
    | nil =>
      intro folder hnode
      exact h.sound.root_kept (List.append_nil s.root ▸ hnode)
    | append_singleton path name ih =>
      intro folder hnode
      obtain ⟨parent, hparent⟩ := s.inotify.tree.rooted (s.root ++ path) name folder (by rwa [List.append_assoc])
      refine (hcovered.reached path name parent folder hparent hnode (ih parent hparent)).resolve_right ?_
      -- nothing is left to come across
      rintro (htold | hpath | ⟨listing, hmem, -⟩)
      · rw [hahead, hnew] at htold
        exact absurd htold List.not_mem_nil
      · rw [hidle] at hpath
        exact absurd hpath List.not_mem_nil
      · rw [hidle] at hmem
        cases hmem
  refine ⟨fun wd relative hentry => hcovered.placed wd relative (by rwa [hahead]), fun relative folder hnode => ?_,
    fun wd wd' relative hentry hentry' => ?_⟩
  · obtain ⟨wd, hwatch, hentry⟩ := hcovered.path_of_kept h.sound hnode (hkept relative folder hnode)
    exact ⟨wd, hahead ▸ hentry, hwatch⟩
  · obtain ⟨folder, hnode, hwatch⟩ := hcovered.placed wd relative (by rwa [hahead])
    obtain ⟨folder', hnode', hwatch'⟩ := hcovered.placed wd' relative (by rwa [hahead])
    obtain rfl := s.inotify.tree.single _ _ _ hnode hnode'
    exact h.sound.oneWatch folder wd wd' hwatch hwatch'

/-- In a run that is undisturbed at every step, whenever a call has succeeded and
no event waits, the map is the tree. -/
theorem watch_covers {tree : PathTree String} {root : FolderPath} {s₀ : WatchState} {inputs : List WatchInput}
    {outs : List (Option DirectoryChanges)} (hopen : opened tree root = some s₀)
    (hrun : watchMachine.run s₀ inputs = some (s, outs)) (hu : watchMachine.Along Undisturbed s₀ inputs)
    (hidle : s.phase = .idle) (hempty : s.inotify.queue = []) : s.Covers := by
  have htracked : s.Tracked :=
    hu.keeps Tracked (fun s i t o h hu hstep => h.step hu hstep) (opened_tracked hopen) hrun
  exact htracked.covers hidle hempty

/-- Folders r and r/a. -/
def smallTree : Option (PathTree String) := (PathTree.top.create [] "r").bind fun tree => tree.create ["r"] "a"

def firstWalk : List WatchInput :=
  [.act .openFolder, .act (.entry "a"), .act .endListing, .act .openFolder, .act .endListing, .act .endWalk, .act .finish]

/-- d is made and its event is read; then a moves into it before d is watched. -/
def movedBeforeWatched : List WatchInput :=
  [.change (.create ["r"] "d") [], .act .begin, .act (.read 1), .act .event, .act (.readEnds false),
    .change (.rename ["r"] "a" ["r", "d"] "x") [],
    .act .add, .act .openFolder, .act (.entry "x"), .act .endListing, .act .endWalk, .act .finish]

/-- The next call reads that a left, and nothing changes meanwhile. -/
def lastRead : List WatchInput :=
  [.act .begin, .act (.read 2), .act .event, .rmWatch [], .act .event, .act (.read 1), .act .event,
    .act (.readEnds false), .act .finish]

/-- The same move when d is watched already. -/
def movedOnceWatched : List WatchInput :=
  [.change (.create ["r"] "d") [], .act .begin, .act (.read 1), .act .event, .act (.readEnds false), .act .add,
    .act .openFolder, .act .endListing, .act .endWalk, .act .finish,
    .change (.rename ["r"] "a" ["r", "d"] "x") [],
    .act .begin, .act (.read 3), .act .event, .rmWatch [], .act .event, .act .event, .act (.read 1), .act .event,
    .act (.readEnds false), .act .add, .act .openFolder, .act .endListing, .act .endWalk, .act .finish]

/-- The moved folder has lost its watch, though its call found no event left and nothing had changed since. -/
theorem moved_before_watched_lost : ∃ tree s₀ s outs, smallTree = some tree ∧ opened tree ["r"] = some s₀ ∧
    watchMachine.run s₀ (firstWalk ++ movedBeforeWatched ++ lastRead) = some (s, outs) ∧
    s.phase = .idle ∧ s.inotify.queue = [] ∧ ¬ s.Covers := by
  have hrun : ((smallTree.bind fun tree => opened tree ["r"]).bind fun s₀ =>
      watchMachine.run s₀ (firstWalk ++ movedBeforeWatched ++ lastRead)).map (fun result =>
        (decide (result.1.phase = .idle), result.1.inotify.queue, result.1.root,
          decide ((["r", "d", "x"], 2) ∈ result.1.inotify.tree.nodes),
          decide (∀ watch ∈ result.1.inotify.watches, watch.1 ≠ 2))) = some (true, [], ["r"], true, true) := by
    decide +kernel
  obtain ⟨⟨s, outs⟩, hresult, heq⟩ := Option.map_eq_some_iff.mp hrun
  obtain ⟨s₀, hopen, hs⟩ := Option.bind_eq_some_iff.mp hresult
  obtain ⟨tree, htree, hopen⟩ := Option.bind_eq_some_iff.mp hopen
  simp only [Prod.mk.injEq, decide_eq_true_eq] at heq
  obtain ⟨hidle, hqueue, hroot, hnode, hno⟩ := heq
  refine ⟨tree, s₀, s, outs, htree, hopen, hs, hidle, hqueue, fun hcovers => ?_⟩
  obtain ⟨wd, -, hwatch⟩ := hcovers.all ["d", "x"] 2 (by rw [hroot]; exact hnode)
  exact hno _ hwatch rfl

/-- Where the new folder is watched before the move, the map ends as the tree. -/
theorem watch_covers_moved : ∃ tree s₀ s outs, smallTree = some tree ∧ opened tree ["r"] = some s₀ ∧
    watchMachine.run s₀ (firstWalk ++ movedOnceWatched) = some (s, outs) ∧
    s.reading.folders.map Prod.snd = [[], ["d"], ["d", "x"]] ∧ s.Covers := by
  have hrun : ((smallTree.bind fun tree => opened tree ["r"]).bind fun s₀ =>
      if watchMachine.Along Undisturbed s₀ (firstWalk ++ movedOnceWatched) then
        watchMachine.run s₀ (firstWalk ++ movedOnceWatched) else none).map (fun result =>
        (decide (result.1.phase = .idle), result.1.inotify.queue, result.1.reading.folders.map Prod.snd)) =
      some (true, [], [[], ["d"], ["d", "x"]]) := by
    decide +kernel
  obtain ⟨⟨s, outs⟩, hresult, heq⟩ := Option.map_eq_some_iff.mp hrun
  obtain ⟨s₀, hopen, hs⟩ := Option.bind_eq_some_iff.mp hresult
  obtain ⟨tree, htree, hopen⟩ := Option.bind_eq_some_iff.mp hopen
  obtain ⟨hu, hs⟩ := Option.ite_none_right_eq_some.mp hs
  simp only [Prod.mk.injEq, decide_eq_true_eq] at heq
  obtain ⟨hidle, hqueue, hfolders⟩ := heq
  exact ⟨tree, s₀, s, outs, htree, hopen, hs, hfolders, watch_covers hopen hs hu (hidle) hqueue⟩

end WatchState

end TgeCore.IO
