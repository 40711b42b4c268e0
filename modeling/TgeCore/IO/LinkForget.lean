import TgeCore.IO.LinkWatch
import TgeCore.IO.WatchEvents

namespace TgeCore.IO
open Library

namespace Reading
variable {r : Reading} {entry : Nat × FolderPath}

theorem readLinkEvent_of_no_link {event : InotifyEvent} {isSymlink : Bool}
    (h : ¬ (event.kind.isArrival ∧ ¬ event.isDirectory ∧ isSymlink)) :
    r.readLinkEvent event isSymlink = r.readEvent event := by
  simp only [readLinkEvent, h, or_false]
  rfl

/-- Without links the events of a tree are read as before. -/
theorem readLinkEvent_false (r : Reading) (event : InotifyEvent) : r.readLinkEvent event false = r.readEvent event :=
  readLinkEvent_of_no_link fun h => Bool.false_ne_true h.2.2

/-- A link only adds to the new folders. -/
theorem readLinkEvent_eq (r : Reading) (event : InotifyEvent) (isSymlink : Bool) :
    ∃ newFolders, r.readLinkEvent event isSymlink = { r.readEvent event with newFolders := newFolders } := by
  by_cases hlink : event.kind.isArrival ∧ ¬ event.isDirectory ∧ isSymlink
  · unfold readLinkEvent readEvent
    by_cases hoverflow : event.kind = .overflow
    · rw [if_pos hoverflow, if_pos hoverflow]
      exact ⟨_, rfl⟩
    rw [if_neg hoverflow, if_neg hoverflow]
    by_cases hroot : event.wd = r.rootWatch ∧ event.kind.isRootGone
    · rw [if_pos hroot, if_pos hroot]
      exact ⟨_, rfl⟩
    rw [if_neg hroot, if_neg hroot]
    cases r.folder event.wd with
    | none => exact ⟨_, rfl⟩
    | some relative =>
      dsimp only
      by_cases hignored : event.kind = .ignored
      · rw [if_pos hignored, if_pos hignored]
        exact ⟨_, rfl⟩
      rw [if_neg hignored, if_neg hignored]
      simp only [hlink]
      split <;> exact ⟨_, rfl⟩
  · exact ⟨(r.readEvent event).newFolders, readLinkEvent_of_no_link hlink⟩

theorem readLinkEvent_read (hone : r.OneEntry) (event : InotifyEvent) (isSymlink : Bool) :
    (r.readLinkEvent event isSymlink).rootWatch = r.rootWatch ∧
    ((r.readLinkEvent event isSymlink).shouldWalkAgain = true ↔ r.shouldWalkAgain = true ∨ event.kind = .overflow) ∧
    ∀ entry, entry ∈ (r.readLinkEvent event isSymlink).folders ↔ entry ∈ r.folders ∧ ¬ r.Forgets event entry := by
  obtain ⟨newFolders, heq⟩ := readLinkEvent_eq r event isSymlink
  have hread := readEvent_read hone event
  rw [heq]
  exact ⟨hread.rootWatch, hread.shouldWalkAgain, hread.folders⟩

instance Forgets.decidable (r : Reading) (event : InotifyEvent) (entry : Nat × FolderPath) :
    Decidable (r.Forgets event entry) :=
  decidable_of_iff (entry.1 ≠ r.rootWatch ∧
    ((event.kind = .ignored ∧ entry.1 = event.wd) ∨
      (event.kind = .movedFrom ∧ event.isDirectory ∧
        ∃ folder ∈ r.folders, folder.1 = event.wd ∧ folder.2 ++ event.name.toList <+: entry.2))) (by
    simp [Forgets])

/-- One of the events takes the entry out of the map. -/
def LetGoIn (r : Reading) (entry : Nat × FolderPath) : List (InotifyEvent × Bool) → Prop
  | [] => False
  | event :: events =>
    r.Forgets event.1 entry ∨ (r.readLinkEvent event.1 event.2).LetGoIn entry events

/-- Where an event other than a folder's move says that an entry was moved away or
deleted, the events after it take out what the map has at or below it. -/
def Clean (r : Reading) : List (InotifyEvent × Bool) → Prop
  | [] => True
  | event :: events =>
    (¬ (event.1.kind = .movedFrom ∧ event.1.isDirectory) →
      ∀ path ∈ r.departure event.1, ∀ entry ∈ r.folders, path <+: entry.2 →
        (r.readLinkEvent event.1 event.2).LetGoIn entry events) ∧
    (r.readLinkEvent event.1 event.2).Clean events

instance LetGoIn.decidable : ∀ (r : Reading) (entry : Nat × FolderPath) (events : List (InotifyEvent × Bool)),
    Decidable (r.LetGoIn entry events)
  | _, _, [] => isFalse id
  | r, entry, event :: events =>
    have := LetGoIn.decidable (r.readLinkEvent event.1 event.2) entry events
    inferInstanceAs (Decidable (r.Forgets event.1 entry ∨ (r.readLinkEvent event.1 event.2).LetGoIn entry events))

instance Clean.decidable : ∀ (r : Reading) (events : List (InotifyEvent × Bool)), Decidable (r.Clean events)
  | _, [] => isTrue trivial
  | r, event :: events =>
    have := Clean.decidable (r.readLinkEvent event.1 event.2) events
    inferInstanceAs (Decidable ((¬ (event.1.kind = .movedFrom ∧ event.1.isDirectory) →
      ∀ path ∈ r.departure event.1, ∀ entry ∈ r.folders, path <+: entry.2 →
        (r.readLinkEvent event.1 event.2).LetGoIn entry events) ∧
      (r.readLinkEvent event.1 event.2).Clean events))

theorem departure_eq_some (hone : r.OneEntry) {event : InotifyEvent} {path : FolderPath} :
    r.departure event = some path ↔ (event.kind = .movedFrom ∨ event.kind = .delete) ∧
      ∃ relative name, (event.wd, relative) ∈ r.folders ∧ event.name = some name ∧ relative ++ [name] = path := by
  unfold departure
  split
  · rename_i hkind
    simp [Option.bind_eq_some_iff, folder_eq_some hone, hkind]
  · rename_i hkind
    simp [hkind]

end Reading

namespace LinkWatch
variable {w w' : LinkWatch} {events : List (InotifyEvent × Bool)}

/-- What the map of a watch keeps. -/
structure Sound (w : LinkWatch) : Prop where
  one : w.reading.OneEntry
  root : (w.reading.rootWatch, []) ∈ w.reading.folders
  named : ∀ wd, [] ∉ w.left wd

/-- An entry at or below a path that has left since. -/
def Stale (w : LinkWatch) (entry : Nat × FolderPath) : Prop := ∃ path ∈ w.left entry.1, path <+: entry.2

theorem oldNamesGone_iff : w.OldNamesGone ↔ ∀ entry ∈ w.reading.folders, ¬ w.Stale entry :=
  forall₂_congr fun _ _ => ⟨fun h ⟨path, hpath, hbelow⟩ => h path hpath hbelow,
    fun h path hpath hbelow => h ⟨path, hpath, hbelow⟩⟩

/-- The root is at no path that could leave. -/
theorem Sound.root_fresh (h : w.Sound) {path : FolderPath} (hmem : (w.reading.rootWatch, path) ∈ w.reading.folders) :
    ¬ w.Stale (w.reading.rootWatch, path) := by
  obtain rfl : path = [] := h.one _ _ _ hmem h.root
  rintro ⟨left, hleft, hbelow⟩
  exact h.named _ (List.prefix_nil.mp hbelow ▸ hleft)

theorem Sound.readEvent (h : w.Sound) (event : InotifyEvent × Bool) : (w.readEvent event).Sound := by
  obtain ⟨hroot, -, hfolders⟩ := Reading.readLinkEvent_read h.one event.1 event.2
  refine ⟨fun wd p q hp hq => ?_, ?_, fun wd => ?_⟩
  · exact h.one wd p q ((hfolders _).mp hp).1 ((hfolders _).mp hq).1
  · change ((w.reading.readLinkEvent event.1 event.2).rootWatch, []) ∈ (w.reading.readLinkEvent event.1 event.2).folders
    rw [hroot, hfolders]
    exact ⟨h.root, fun hforgets => hforgets.1 rfl⟩
  · change [] ∉ (w.reading.departure event.1).toList ++ w.left wd
    rw [List.mem_append, Option.mem_toList, not_or]
    refine ⟨fun hdeparture => ?_, h.named wd⟩
    obtain ⟨-, relative, name, -, -, hpath⟩ := (Reading.departure_eq_some h.one).mp hdeparture
    exact List.append_ne_nil_of_right_ne_nil relative (List.cons_ne_nil name []) hpath

theorem Sound.readEvents (h : w.Sound) : (w.readEvents events).Sound := by
  induction events generalizing w with
  | nil => exact h
  | cons event events ih => exact ih (h.readEvent event)

theorem readEvents_shouldWalkAgain (h : w.Sound) : (w.readEvents events).reading.shouldWalkAgain = true ↔
    w.reading.shouldWalkAgain = true ∨ ∃ event ∈ events, event.1.kind = .overflow := by
  induction events generalizing w with
  | nil => simp [readEvents]
  | cons event events ih =>
    have hwalk : (w.readEvent event).reading.shouldWalkAgain = true ↔ _ :=
      (Reading.readLinkEvent_read h.one event.1 event.2).2.1
    refine (ih (h.readEvent event)).trans ?_
    rw [hwalk]
    simp [or_assoc]

theorem stale_readEvent {event : InotifyEvent × Bool} {entry : Nat × FolderPath} :
    (w.readEvent event).Stale entry ↔ (∃ path ∈ w.reading.departure event.1, path <+: entry.2) ∨ w.Stale entry := by
  simp only [Stale, LinkWatch.readEvent, List.mem_append, Option.mem_toList, Option.mem_def, or_and_right, exists_or]

/-- A folder's move takes out what is below it, and the other events that tell of an
entry that left take out nothing. -/
theorem Sound.forgets_of_departure (h : w.Sound) {event : InotifyEvent} {path : FolderPath}
    {entry : Nat × FolderPath} (hpath : path ∈ w.reading.departure event) (hentry : entry ∈ w.reading.folders)
    (hbelow : path <+: entry.2) :
    w.reading.Forgets event entry ↔ event.kind = .movedFrom ∧ event.isDirectory := by
  obtain ⟨hkind, relative, name, hrelative, hname, rfl⟩ := (Reading.departure_eq_some h.one).mp hpath
  constructor
  · rintro ⟨-, ⟨hignored, -⟩ | ⟨hmoved, hdirectory, -⟩⟩
    · rcases hkind with hkind | hkind <;> rw [hkind] at hignored <;> cases hignored
    · exact ⟨hmoved, hdirectory⟩
  · rintro ⟨hmoved, hdirectory⟩
    refine ⟨fun hroot => ?_, .inr ⟨hmoved, hdirectory, relative, hrelative, by rwa [hname]⟩⟩
    have hnil : entry.2 = [] := h.one entry.1 _ _ hentry (hroot ▸ h.root)
    rw [hnil, List.prefix_nil] at hbelow
    exact List.append_ne_nil_of_right_ne_nil relative (List.cons_ne_nil name []) hbelow

/-- After the events of a call the map has nothing stale just if the events took out
all that was stale before and what became so with them. -/
theorem readEvents_oldNamesGone (h : w.Sound) : (w.readEvents events).OldNamesGone ↔
    (∀ entry ∈ w.reading.folders, w.Stale entry → w.reading.LetGoIn entry events) ∧ w.reading.Clean events := by
  induction events generalizing w with
  | nil => exact oldNamesGone_iff.trans (and_iff_left trivial).symm
  | cons event events ih =>
    obtain ⟨-, -, hfolders⟩ := Reading.readLinkEvent_read h.one event.1 event.2
    refine (ih (h.readEvent event)).trans ?_
    rw [Reading.Clean, ← and_assoc]
    refine and_congr_left fun _ => ?_
    constructor
    · intro hlet
      refine ⟨fun entry hentry hstale => ?_, fun hmove path hpath entry hentry hbelow => ?_⟩
      · by_cases hforgets : w.reading.Forgets event.1 entry
        · exact .inl hforgets
        · exact .inr (hlet entry ((hfolders entry).mpr ⟨hentry, hforgets⟩) (stale_readEvent.mpr (.inr hstale)))
      · have hforgets := mt (h.forgets_of_departure hpath hentry hbelow).mp hmove
        exact hlet entry ((hfolders entry).mpr ⟨hentry, hforgets⟩) (stale_readEvent.mpr (.inl ⟨path, hpath, hbelow⟩))
    · rintro ⟨hold, hnew⟩ entry hentry hstale
      obtain ⟨hentry, hforgets⟩ := (hfolders entry).mp hentry
      rcases stale_readEvent.mp hstale with ⟨path, hpath, hbelow⟩ | hstale
      · exact hnew (mt (h.forgets_of_departure hpath hentry hbelow).mpr hforgets) path hpath entry hentry hbelow
      · exact (hold entry hentry hstale).resolve_left hforgets

/-- What putting folders into the map keeps. -/
structure Grows (w w' : LinkWatch) : Prop where
  rootWatch : w'.reading.rootWatch = w.reading.rootWatch
  shouldWalkAgain : w'.reading.shouldWalkAgain = w.reading.shouldWalkAgain
  sound : w.Sound → w'.Sound
  oldNamesGone : w'.OldNamesGone ↔ w.OldNamesGone

theorem Grows.refl (w : LinkWatch) : w.Grows w := ⟨rfl, rfl, id, Iff.rfl⟩

theorem Grows.trans {w'' : LinkWatch} (h : w.Grows w') (h' : w'.Grows w'') : w.Grows w'' :=
  ⟨h'.rootWatch.trans h.rootWatch, h'.shouldWalkAgain.trans h.shouldWalkAgain, h'.sound ∘ h.sound,
    h'.oldNamesGone.trans h.oldNamesGone⟩

theorem left_put_of_ne {wd other : Nat} (relative : FolderPath) (h : other ≠ wd) :
    (w.put wd relative).left other = w.left other := if_neg h

theorem left_put_self (wd : Nat) (relative : FolderPath) : (w.put wd relative).left wd = [] := if_pos rfl

/-- A descriptor that the map did not have comes in with nothing gone since. -/
theorem grows_put {wd : Nat} (relative : FolderPath) (hnew : ∀ path, (wd, path) ∉ w.reading.folders) :
    w.Grows (w.put wd relative) where
  rootWatch := rfl
  shouldWalkAgain := rfl
  sound := fun h => by
    refine ⟨fun wd' p q hp hq => ?_, List.mem_append_left _ h.root, fun other => ?_⟩
    · simp only [put, List.mem_append, List.mem_singleton, Prod.mk.injEq] at hp hq
      rcases hp with hp | ⟨rfl, rfl⟩ <;> rcases hq with hq | ⟨hwd, rfl⟩
      · exact h.one wd' p q hp hq
      · exact absurd (hwd ▸ hp) (hnew p)
      · exact absurd hq (hnew q)
      · rfl
    · by_cases hother : other = wd
      · rw [hother, left_put_self]
        exact List.not_mem_nil
      · rw [left_put_of_ne relative hother]
        exact h.named other
  oldNamesGone := by
    have hother : ∀ entry ∈ w.reading.folders, (w.put wd relative).left entry.1 = w.left entry.1 :=
      fun entry hentry => left_put_of_ne relative fun heq => hnew entry.2 (heq ▸ hentry)
    constructor
    · intro hgone entry hentry path hpath
      exact hgone entry (List.mem_append_left _ hentry) path (hother entry hentry ▸ hpath)
    · intro hgone entry hentry path hpath
      rcases List.mem_append.mp hentry with hentry | hentry
      · exact hgone entry hentry path (hother entry hentry ▸ hpath)
      · obtain rfl := List.mem_singleton.mp hentry
        rw [left_put_self] at hpath
        exact absurd hpath List.not_mem_nil

theorem addWatch_grows {relative : FolderPath} {answer : AddAnswer} {isAdded : Bool}
    (h : w.addWatch relative answer = .ok (w', isAdded)) : w.Grows w' := by
  unfold addWatch at h
  split at h
  · split at h
    · cases h
      exact Grows.refl _
    · rename_i hfolder
      cases h
      exact grows_put relative (Reading.folder_eq_none.mp hfolder)
  · split at h <;> cases h
    exact Grows.refl _

/-- What a computation that may fail goes through on its way to a result. -/
theorem bind_eq_ok {α β : Type} {x : Except WatchError α} {f : α → Except WatchError β} {b : β} :
    x.bind f = .ok b ↔ ∃ a, x = .ok a ∧ f a = .ok b := by
  cases x with
  | error error => exact ⟨fun h => (nomatch h), fun ⟨a, ha, _⟩ => (nomatch ha)⟩
  | ok a => exact ⟨fun h => ⟨a, rfl, h⟩, fun ⟨a', ha, h⟩ => by cases ha; exact h⟩

theorem map_eq_ok {α β : Type} {x : Except WatchError α} {f : α → β} {b : β} :
    x.map f = .ok b ↔ ∃ a, x = .ok a ∧ f a = b := by
  cases x with
  | error error => exact ⟨fun h => (nomatch h), fun ⟨a, ha, _⟩ => (nomatch ha)⟩
  | ok a => exact ⟨fun h => ⟨a, rfl, Except.ok.inj h⟩, fun ⟨a', ha, h⟩ => by cases ha; exact congrArg Except.ok h⟩

theorem watchEntries_grows {relative : FolderPath} {pending pending' : List FolderPath} {entries : FolderListing}
    (h : w.watchEntries relative pending entries = .ok (w', pending')) : w.Grows w' := by
  induction entries generalizing w pending with
  | nil =>
    cases h
    exact Grows.refl _
  | cons entry entries ih =>
    obtain ⟨⟨w₁, isAdded⟩, hadd, hrest⟩ := bind_eq_ok.mp h
    exact (addWatch_grows hadd).trans (ih hrest)

theorem watchBelow_grows {pending : List FolderPath} {listings : List FolderListing}
    (h : w.watchBelow pending listings = .ok w') : w.Grows w' := by
  induction listings generalizing w pending with
  | nil =>
    cases pending <;> cases h <;> exact Grows.refl _
  | cons entries listings ih =>
    cases pending with
    | nil =>
      cases h
      exact Grows.refl _
    | cons relative pending =>
      obtain ⟨⟨w₁, pending'⟩, hentries, hrest⟩ := bind_eq_ok.mp h
      exact (watchEntries_grows hentries).trans (ih hrest)

theorem addNewFolders_grows {folders : List FolderPath} {adds : List (AddAnswer × List FolderListing)}
    (h : w.addNewFolders folders adds = .ok w') : w.Grows w' := by
  induction folders generalizing w adds with
  | nil =>
    cases h
    exact Grows.refl _
  | cons folder folders ih =>
    obtain ⟨⟨w₁, isAdded⟩, hadd, hrest⟩ := bind_eq_ok.mp h
    obtain ⟨w₂, hbelow, hrest⟩ := bind_eq_ok.mp hrest
    refine (addWatch_grows hadd).trans (Grows.trans ?_ (ih hrest))
    split at hbelow
    · exact watchBelow_grows hbelow
    · cases hbelow
      exact Grows.refl _

/-- A walk starts from the root alone. -/
theorem walkAgain_gone (h : w.Sound) {root : AddAnswer} {listings : List FolderListing}
    (hwalk : w.walkAgain root listings = .ok w') : w'.Sound ∧ w'.OldNamesGone := by
  unfold walkAgain at hwalk
  split at hwalk
  · cases hwalk
  · split at hwalk
    · cases hwalk
    · have hsound : LinkWatch.Sound { w with reading := w.reading.forgetBelow [] } := by
        refine ⟨fun wd p q hp hq => ?_, Reading.mem_forgetBelow.mpr ⟨h.root, fun hne => hne.1 rfl⟩, h.named⟩
        exact h.one wd p q (Reading.mem_forgetBelow.mp hp).1 (Reading.mem_forgetBelow.mp hq).1
      have hgrows := watchBelow_grows hwalk
      refine ⟨hgrows.sound hsound, hgrows.oldNamesGone.mpr (oldNamesGone_iff.mpr fun entry hentry => ?_)⟩
      obtain ⟨hmem, hkept⟩ := Reading.mem_forgetBelow.mp hentry
      have hroot : entry.1 = w.reading.rootWatch := by
        by_contra hne
        exact hkept ⟨hne, List.nil_prefix⟩
      obtain ⟨wd, path⟩ := entry
      obtain rfl : wd = w.reading.rootWatch := hroot
      exact h.root_fresh hmem

theorem opened_sound {root : AddAnswer} {listings : List FolderListing} (h : opened root listings = .ok w) :
    w.Sound ∧ w.OldNamesGone := by
  unfold opened at h
  split at h
  · cases h
  · rename_i rootWatch
    have hgrows := watchBelow_grows h
    refine ⟨hgrows.sound ⟨fun wd p q hp hq => ?_, List.mem_cons_self, fun _ => List.not_mem_nil⟩,
      hgrows.oldNamesGone.mpr fun _ _ _ hpath => absurd hpath List.not_mem_nil⟩
    rw [List.mem_singleton, Prod.mk.injEq] at hp hq
    exact hp.2.trans hq.2.symm

/-- The call walks the tree again, or its events leave nothing behind. -/
def TakesOut (w : LinkWatch) (call : LinkCall) : Prop :=
  (∃ event ∈ call.events, event.1.kind = .overflow) ∨ w.reading.begun.Clean call.events

instance TakesOut.decidable (w : LinkWatch) (call : LinkCall) : Decidable (w.TakesOut call) :=
  inferInstanceAs (Decidable (_ ∨ _))

theorem readChanges_oldNamesGone {call : LinkCall} {changes : DirectoryChanges} (h : w.Sound) (hgone : w.OldNamesGone)
    (hread : w.readChanges call = .ok (w', changes)) : w'.Sound ∧ (w'.OldNamesGone ↔ w.TakesOut call) := by
  have hbegun : LinkWatch.Sound { w with reading := w.reading.begun } := ⟨h.one, h.root, h.named⟩
  have hsound : LinkWatch.Sound (readEvents _ call.events) := hbegun.readEvents
  have hwalks : (readEvents _ call.events).reading.shouldWalkAgain = true ↔ _ := readEvents_shouldWalkAgain hbegun
  have hevents : LinkWatch.OldNamesGone _ ↔ w.reading.begun.Clean call.events :=
    (readEvents_oldNamesGone hbegun).trans
      (and_iff_right fun entry hentry hstale => absurd hstale (oldNamesGone_iff.mp hgone entry hentry))
  unfold readChanges at hread
  dsimp only at hread
  generalize LinkWatch.readEvents _ call.events = read at hread hsound hwalks hevents
  split at hread
  · cases hread
  · split at hread
    · cases hread
    · obtain ⟨added, hadd, hread⟩ := bind_eq_ok.mp hread
      have hgrows := addNewFolders_grows hadd
      have hoverflow : added.reading.shouldWalkAgain = true ↔ ∃ event ∈ call.events, event.1.kind = .overflow := by
        rw [hgrows.shouldWalkAgain, hwalks]
        exact or_iff_right Bool.false_ne_true
      obtain ⟨walked, hwalk, hpair⟩ := map_eq_ok.mp hread
      cases hpair
      split at hwalk
      · rename_i hagain
        obtain ⟨hsound', hgone'⟩ := walkAgain_gone (hgrows.sound hsound) hwalk
        exact ⟨hsound', fun _ => .inl (hoverflow.mp hagain), fun _ => hgone'⟩
      · rename_i hagain
        cases hwalk
        refine ⟨hgrows.sound hsound, hgrows.oldNamesGone.trans (hevents.trans ?_)⟩
        exact (or_iff_right (mt hoverflow.mpr hagain)).symm

end LinkWatch

open LinkWatch

/-- Along every run of a watch that was opened, the calls leave no folder under a name
that it lost just if each call walks the tree again or takes out with its events what
those say was moved away or deleted, which they do of themselves for a folder's move. -/
theorem readChanges_forgets_iff {root : AddAnswer} {listings : List FolderListing} {w w' : LinkWatch}
    {calls : List LinkCall} {outs : List DirectoryChanges} (hopened : opened root listings = .ok w)
    (hrun : linkMachine.run w calls = some (w', outs)) :
    linkMachine.Along (fun w call => ∀ next ∈ linkMachine.step w call, next.1.OldNamesGone) w calls ↔
      linkMachine.Along TakesOut w calls := by
  refine Machine.Along.congr (fun w => w.Sound ∧ w.OldNamesGone) (fun w call w' out h hstep => ?_)
    (opened_sound hopened) hrun
  have hread : w.readChanges call = .ok (w', out) := by
    change (w.readChanges call).toOption = some (w', out) at hstep
    cases hresult : w.readChanges call with
    | error error =>
      rw [hresult] at hstep
      cases hstep
    | ok next =>
      rw [hresult] at hstep
      cases hstep
      rfl
  obtain ⟨hsound, hiff⟩ := readChanges_oldNamesGone h.1 h.2 hread
  refine ⟨?_, fun htakes => ⟨hsound, hiff.mpr htakes⟩⟩
  rw [hstep]
  exact ⟨fun hall => hiff.mp (hall _ rfl), fun htakes next hnext => by cases hnext; exact hiff.mpr htakes⟩

/-- A folder is moved out while a link comes in, a link goes with the folder it led to,
and a link goes in a call that walks again. -/
theorem readChanges_forgets_clean : ∃ w calls w' outs,
    opened (.ok 1) [[("link", .ok 2), ("dir", .ok 3)], [], [("sub", .ok 4)]] = .ok w ∧
    calls =
      [{ events := [({ wd := 1, kind := .movedFrom, isDirectory := true, name := some "dir" }, false),
           ({ wd := 1, kind := .create, name := some "new" }, true)], adds := [(.ok 5, [])] },
       { events := [({ wd := 1, kind := .delete, name := some "link" }, false), ({ wd := 2, kind := .ignored }, false)] },
       { events := [({ wd := 1, kind := .movedFrom, name := some "new" }, false), (overflowEvent, false)],
         root := .ok 1, listings := [[("dir", .ok 6)]] }] ∧
    linkMachine.run w calls = some (w', outs) ∧
    linkMachine.Along (fun w call => ∀ next ∈ linkMachine.step w call, next.1.OldNamesGone) w calls :=
  ⟨_, _, _, _, rfl, rfl, rfl,
    (@readChanges_forgets_iff (.ok 1) [[("link", .ok 2), ("dir", .ok 3)], [], [("sub", .ok 4)]] _ _ _ _ rfl rfl).mpr
      (by decide)⟩

/-- A link to a folder that is moved away goes on giving what is written in the folder
under the link's name. -/
theorem readChanges_keeps_link : ∃ w w₁ w₂ out, opened (.ok 1) [[("link", .ok 2)]] = .ok w ∧
    linkMachine.step w { events := [({ wd := 1, kind := .movedFrom, name := some "link" }, false)] } = some (w₁, out) ∧
    ¬ w₁.OldNamesGone ∧
    linkMachine.step w₁ { events := [({ wd := 2, kind := .closeWrite, name := some "file" }, false)] } =
      some (w₂, { paths := [["link", "file"]] }) :=
  ⟨_, _, _, _, rfl, rfl, by decide, rfl⟩

end TgeCore.IO
