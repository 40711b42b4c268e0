import TgeCore.IO.WatchOutlook

namespace TgeCore.IO
open Library

namespace WatchState
variable {s : WatchState} {inotify : Inotify} {full : List Bool} {parent oldParent newParent path : FolderPath}
  {name oldName newName : String} {folder wd : Nat} {kind : EventKind} {r : Reading}

/-- The state after a change. -/
def changedTo (s : WatchState) (c : FolderChange) (inotify : Inotify) : WatchState :=
  { s with inotify := inotify, phase := s.phase.after s.inotify.tree c }

/-- The map's path of a folder leads to it, so a watched folder's events are found there. -/
theorem Covered.entry_of_watchAt (h : s.Covered) (hs : s.Sound) {q : FolderPath} (hwd : s.inotify.watchAt q = some wd)
    (hentry : (wd, path) ∈ s.ahead.folders) : q = s.root ++ path := by
  obtain ⟨folder, hnode, hmem⟩ := (Inotify.watchAt_eq_some hs.oneWatch).mp hwd
  obtain ⟨folder', hnode', hmem'⟩ := h.placed wd path hentry
  obtain rfl := hs.oneFolder folder folder' wd hmem hmem'
  exact s.inotify.tree.placed _ _ _ hnode hnode'

theorem Sound.entry_of_root (hs : s.Sound) (hentry : (wd, path) ∈ s.ahead.folders) (hroot : wd = s.reading.rootWatch) :
    path = [] :=
  hs.oneEntry wd _ _ (Reading.mem_of_readEvents hs.oneEntry hentry) (hroot ▸ hs.rootEntry)

theorem Sound.ahead_rootWatch (hs : s.Sound) : s.ahead.rootWatch = s.reading.rootWatch :=
  Reading.readEvents_rootWatch hs.oneEntry

/-- The folder that goes is not in the map any more. -/
theorem Covered.not_gone (h : s.Covered) (hs : s.Sound) (hpath : ¬ path <+: s.root)
    {q : FolderPath} (hq : (wd, q) ∈ s.ahead.folders)
    (hno : ¬ (wd ≠ s.ahead.rootWatch ∧ s.inotify.watchAt path = some wd)) : s.root ++ q ≠ path := by
  rintro rfl
  obtain ⟨folder, hnode, hmem⟩ := h.placed wd q hq
  refine hno ⟨fun hroot => ?_, (Inotify.watchAt_eq_some hs.oneWatch).mpr ⟨folder, hnode, hmem⟩⟩
  obtain rfl := hs.entry_of_root hq (hroot.trans hs.ahead_rootWatch)
  exact hpath (by rw [List.append_nil])

theorem Covered.file (h : s.Covered) (hs : s.Sound)
    (hchange : s.inotify.change s.root full (.file parent kind name) = some inotify)
    (hnone : (s.changedTo (.file parent kind name) inotify).ahead.shouldWalkAgain = false) :
    (s.changedTo (.file parent kind name) inotify).Covered := by
  simp only [Inotify.change] at hchange
  split at hchange
  · rename_i hfile
    obtain rfl := Option.some.inj hchange
    have hahead := ahead_of_change hs.oneEntry rfl (batch_after _ _ _) hnone
    have halike : s.ahead.Alike (s.ahead.readEvents (s.inotify.eventsAt parent kind false (some name))) := by
      refine Reading.Alike.of_silent hs.ahead_oneEntry (fun hkind => absurd hfile.2 ?_) (by simp)
      rw [hkind]
      exact Bool.false_ne_true
    refine h.transfer rfl rfl (fun _ hwatch => hwatch) (fun _ _ _ hwatch _ => hwatch) (fun entry => ?_) ?_
    · rw [changedTo, hahead]
      exact halike.folders entry
    · intro path child p folder hparent hfolder hawait
      refine .inr (hawait.after (fun q hq => ?_) rfl fun entry hentry => absurd hentry List.not_mem_nil)
      rw [changedTo, hahead]
      exact (halike.newFolders q).mpr hq
  · cases hchange

theorem Covered.create (h : s.Covered) (hs : s.Sound)
    (hchange : s.inotify.change s.root full (.create parent name) = some inotify)
    (hnone : (s.changedTo (.create parent name) inotify).ahead.shouldWalkAgain = false) :
    (s.changedTo (.create parent name) inotify).Covered := by
  obtain ⟨tree, htree, rfl⟩ := Option.map_eq_some_iff.mp hchange
  obtain ⟨-, -, hnodes, -⟩ := PathTree.create_eq_some htree
  have hahead := ahead_of_change hs.oneEntry rfl (batch_after _ _ _) hnone
  obtain ⟨hfolders, hnew⟩ : (∀ entry, entry ∈ (s.ahead.readEvents
      (s.inotify.eventsAt parent .create true (some name))).folders ↔ entry ∈ s.ahead.folders) ∧ _ :=
    Reading.readEvents_arrival hs.ahead_oneEntry rfl
  rw [← hahead] at hfolders hnew
  have hsub : ∀ node ∈ s.inotify.tree.nodes, node ∈ tree.nodes := fun node hnode => by
    rw [hnodes]
    exact List.mem_append_left _ hnode
  refine h.changed hs rfl (fun _ _ _ _ hnode _ => hsub _ hnode) (fun entry hentry => (hfolders entry).mp hentry)
    (fun _ hwatch => hwatch) (fun _ _ _ hentry hwatch _ _ => ⟨(hfolders _).mpr hentry, hwatch⟩)
    (fun _ _ _ _ hwatch _ => hwatch) ?_ ?_
  · intro wd path child p folder hentry hwatch hp hfolder hold
    have hlast : s.root ++ (path ++ [child]) = parent ++ [name] := by
      change _ ∈ tree.nodes at hfolder
      rw [hnodes] at hfolder
      rcases List.mem_append.mp hfolder with hfolder | hfolder
      · exact absurd hfolder hold
      · exact (Prod.mk.inj (List.mem_singleton.mp hfolder)).1
    rw [← List.append_assoc] at hlast
    obtain ⟨rfl, hname⟩ := List.append_inj' hlast rfl
    refine (hnew _).mpr (.inr ⟨wd, path, ?_, (hfolders _).mp hentry, by rw [hname]⟩)
    exact (Inotify.watchAt_eq_some hs.oneWatch).mpr ⟨p, hp, hwatch⟩
  · intro path child p folder hp hfolder _ hawait
    exact hawait.after (fun q hq => (hnew q).mpr (.inl hq)) rfl fun entry hentry => absurd hentry List.not_mem_nil

/-- A watched folder that is not the removed one keeps its watch. -/
theorem mem_watchesWithout_of_ne {q : FolderPath} (hmem : (folder, wd) ∈ s.inotify.watches)
    (hnode : (q, folder) ∈ s.inotify.tree.nodes) (hne : q ≠ path) : (folder, wd) ∈ s.inotify.watchesWithout path :=
  Inotify.mem_watchesWithout.mpr ⟨hmem, fun hpath => hne (s.inotify.tree.placed _ _ _ hnode hpath)⟩

/-- The events of a removed folder take no other folder's entry. -/
theorem Sound.kept_by_gone (hs : s.Sound) {q : FolderPath} (hmem : (folder, wd) ∈ s.inotify.watches)
    (hnode : (q, folder) ∈ s.inotify.tree.nodes) (hne : q ≠ path) : s.inotify.watchAt path ≠ some wd := by
  intro hwd
  obtain ⟨gone, hgone, hmem'⟩ := (Inotify.watchAt_eq_some hs.oneWatch).mp hwd
  obtain rfl := hs.oneFolder folder gone wd hmem hmem'
  exact hne (s.inotify.tree.placed _ _ _ hnode hgone)

theorem Covered.remove (h : s.Covered) (hs : s.Sound)
    (hchange : s.inotify.change s.root full (.remove parent name) = some inotify)
    (hnone : (s.changedTo (.remove parent name) inotify).ahead.shouldWalkAgain = false) :
    (s.changedTo (.remove parent name) inotify).Covered := by
  simp only [Inotify.change] at hchange
  split at hchange
  · cases hchange
  · rename_i hpath
    obtain ⟨tree, htree, rfl⟩ := Option.map_eq_some_iff.mp hchange
    obtain ⟨-, -, hnodes, -⟩ := PathTree.remove_eq_some htree
    have hahead := ahead_of_change hs.oneEntry rfl (batch_after _ _ _) hnone
    rw [Reading.readEvents_append] at hahead
    have hsilent : s.ahead.Alike (s.ahead.readEvents (s.inotify.eventsAt parent .delete true (some name))) :=
      Reading.Alike.of_silent hs.ahead_oneEntry (by simp) (by simp [EventKind.isArrival])
    obtain ⟨hfolders, hnew⟩ : (∀ entry, entry ∈ ((s.ahead.readEvents
        (s.inotify.eventsAt parent .delete true (some name))).readEvents
          (s.inotify.eventsOfGone (parent ++ [name]))).folders ↔ _) ∧ _ :=
      Reading.readEvents_gone hs.ahead_oneEntry.readEvents
    rw [← hahead] at hfolders hnew
    simp only [hsilent.folders, hsilent.newFolders, Reading.readEvents_rootWatch hs.ahead_oneEntry] at hfolders hnew
    have hmem : ∀ q folder, (q, folder) ∈ tree.nodes ↔ (q, folder) ∈ s.inotify.tree.nodes ∧ q ≠ parent ++ [name] := by
      intro q folder
      rw [hnodes, List.mem_filter, decide_eq_true_eq]
    have hstays : ∀ {wd q}, (wd, q) ∈ (s.changedTo (.remove parent name) _).ahead.folders →
        s.root ++ q ≠ parent ++ [name] := fun hentry =>
      h.not_gone hs hpath ((hfolders _).mp hentry).1 ((hfolders _).mp hentry).2
    refine h.changed hs rfl (fun wd q folder hentry hnode _ => ?_) (fun entry hentry => ((hfolders entry).mp hentry).1)
      (fun watch hwatch => (List.mem_filter.mp hwatch).1) (fun wd q folder hentry hwatch hnode hnode' => ?_)
      (fun wd q folder hentry hwatch hnode => ?_) (fun wd q child p folder _ _ _ hfolder hold => ?_) ?_
    · exact (hmem _ _).mpr ⟨hnode, hstays hentry⟩
    · have hne := ((hmem _ _).mp hnode').2
      exact ⟨(hfolders _).mpr ⟨hentry, fun hgone => hs.kept_by_gone hwatch hnode hne hgone.2⟩,
        mem_watchesWithout_of_ne hwatch hnode hne⟩
    · exact mem_watchesWithout_of_ne hwatch ((hmem _ _).mp hnode).1 (hstays hentry)
    · exact absurd ((hmem _ _).mp hfolder).1 hold
    · intro q child p folder hp hfolder hfolder' hawait
      refine hawait.after (fun p' hp' => (hnew p').mpr hp') rfl fun entry hentry hparent hname => ?_
      obtain rfl := List.mem_singleton.mp hentry
      have hq := s.inotify.tree.placed _ _ _ hp hparent
      refine ((hmem _ _).mp hfolder').2 ?_
      rw [← List.append_assoc, hq, ← hname]

/-- The folder that is moved is in a kept one, which tells of it, or nothing that moves is kept. -/
def RenameSafe (s : WatchState) (parent : FolderPath) (name : String) : Prop :=
  (∃ node ∈ s.inotify.tree.nodes, node.1 = parent ∧ s.Kept node.2) ∨
    ∀ node ∈ s.inotify.tree.nodes, parent ++ [name] <+: node.1 → ¬ s.Kept node.2

instance (s : WatchState) (parent : FolderPath) (name : String) : Decidable (s.RenameSafe parent name) :=
  inferInstanceAs (Decidable ((∃ node ∈ s.inotify.tree.nodes, node.1 = parent ∧ s.Kept node.2) ∨
    ∀ node ∈ s.inotify.tree.nodes, parent ++ [name] <+: node.1 → ¬ s.Kept node.2))

/-- What moves is forgotten where it was. -/
theorem Covered.moved_forgotten (h : s.Covered) (hs : s.Sound) (hsafe : s.RenameSafe parent name)
    (hentry : (wd, path) ∈ s.ahead.folders)
    (hno : ¬ (wd ≠ s.ahead.rootWatch ∧ ∃ wd' relative, s.inotify.watchAt parent = some wd' ∧
      (wd', relative) ∈ s.ahead.folders ∧ relative ++ [name] <+: path)) :
    ¬ parent ++ [name] <+: s.root ++ path := by
  intro hbelow
  rcases hsafe with ⟨node, hnode, rfl, hkept⟩ | hnot
  · obtain ⟨wd', relative, hmem, hentry'⟩ := kept_iff.mp hkept
    have hwd' : s.inotify.watchAt node.1 = some wd' :=
      (Inotify.watchAt_eq_some hs.oneWatch).mpr ⟨node.2, hnode, hmem⟩
    have hpath := h.entry_of_watchAt hs hwd' hentry'
    rw [hpath, List.append_assoc, List.prefix_append_right_inj] at hbelow
    refine hno ⟨fun hroot => ?_, wd', relative, hwd', hentry', hbelow⟩
    obtain rfl := hs.entry_of_root hentry (hroot.trans hs.ahead_rootWatch)
    exact absurd (List.prefix_nil.mp hbelow) (by simp)
  · obtain ⟨folder, hnode, hmem⟩ := h.placed wd path hentry
    exact hnot (_, folder) hnode hbelow (kept_iff.mpr ⟨wd, path, hmem, hentry⟩)

/-- What stays where it was is not forgotten. -/
theorem Covered.unmoved_kept (h : s.Covered) (hs : s.Sound) (hout : ¬ parent ++ [name] <+: s.root ++ path) :
    ¬ (wd ≠ s.ahead.rootWatch ∧ ∃ wd' relative, s.inotify.watchAt parent = some wd' ∧
      (wd', relative) ∈ s.ahead.folders ∧ relative ++ [name] <+: path) := by
  rintro ⟨-, wd', relative, hwd', hentry', hbelow⟩
  refine hout ?_
  rw [h.entry_of_watchAt hs hwd' hentry', List.append_assoc]
  exact (List.prefix_append_right_inj s.root).mpr hbelow

/-- What the map and the new folders are after the events of a rename. -/
theorem rename_ahead {k : Inotify} {t : Reading} (hone : r.OneEntry)
    (ht : t = r.readEvents (k.eventsAt oldParent .movedFrom true (some oldName) ++
      k.eventsAt newParent .movedTo true (some newName) ++ k.eventsAt (oldParent ++ [oldName]) .moveSelf false none ++
        k.eventsOfGone (newParent ++ [newName]))) :
    (∀ entry, entry ∈ t.folders ↔ (entry ∈ r.folders ∧ ¬ (entry.1 ≠ r.rootWatch ∧ ∃ wd relative,
        k.watchAt oldParent = some wd ∧ (wd, relative) ∈ r.folders ∧ relative ++ [oldName] <+: entry.2)) ∧
      ¬ (entry.1 ≠ r.rootWatch ∧ k.watchAt (newParent ++ [newName]) = some entry.1)) ∧
    (∀ p ∈ r.newFolders, p ∈ t.newFolders) ∧
    ∀ wd relative, k.watchAt newParent = some wd → (wd, relative) ∈ t.folders → relative ++ [newName] ∈ t.newFolders := by
  rw [Reading.readEvents_append, Reading.readEvents_append, Reading.readEvents_append] at ht
  obtain ⟨hfrom, hfrom'⟩ : (∀ entry, entry ∈ (r.readEvents
      (k.eventsAt oldParent .movedFrom true (some oldName))).folders ↔ _) ∧ _ := Reading.readEvents_movedFrom hone
  have hone₁ : (r.readEvents (k.eventsAt oldParent .movedFrom true (some oldName))).OneEntry := hone.readEvents
  have hroot₁ : (r.readEvents (k.eventsAt oldParent .movedFrom true (some oldName))).rootWatch = r.rootWatch :=
    Reading.readEvents_rootWatch hone
  generalize r.readEvents (k.eventsAt oldParent .movedFrom true (some oldName)) = r₁ at *
  obtain ⟨hto, hto'⟩ : (∀ entry, entry ∈ (r₁.readEvents
      (k.eventsAt newParent .movedTo true (some newName))).folders ↔ _) ∧ _ := Reading.readEvents_arrival hone₁ rfl
  have hone₂ : (r₁.readEvents (k.eventsAt newParent .movedTo true (some newName))).OneEntry := hone₁.readEvents
  have hroot₂ : (r₁.readEvents (k.eventsAt newParent .movedTo true (some newName))).rootWatch = r₁.rootWatch :=
    Reading.readEvents_rootWatch hone₁
  generalize r₁.readEvents (k.eventsAt newParent .movedTo true (some newName)) = r₂ at *
  have hself : r₂.Alike (r₂.readEvents (k.eventsAt (oldParent ++ [oldName]) .moveSelf false none)) :=
    Reading.Alike.of_silent hone₂ (by simp) (by simp)
  have hone₃ : (r₂.readEvents (k.eventsAt (oldParent ++ [oldName]) .moveSelf false none)).OneEntry := hone₂.readEvents
  have hroot₃ : (r₂.readEvents (k.eventsAt (oldParent ++ [oldName]) .moveSelf false none)).rootWatch = r₂.rootWatch :=
    Reading.readEvents_rootWatch hone₂
  generalize r₂.readEvents (k.eventsAt (oldParent ++ [oldName]) .moveSelf false none) = r₃ at *
  obtain ⟨hgone, hgone'⟩ : (∀ entry, entry ∈ (r₃.readEvents
      (k.eventsOfGone (newParent ++ [newName]))).folders ↔ _) ∧ _ := Reading.readEvents_gone hone₃
  rw [← ht] at hgone hgone'
  rw [hroot₃, hroot₂, hroot₁] at hgone
  have hfolders : ∀ entry, entry ∈ r₃.folders ↔ entry ∈ r₁.folders := fun entry =>
    (hself.folders entry).trans (hto entry)
  refine ⟨fun entry => ?_, fun p hp => ?_, fun wd relative hwd hentry => ?_⟩
  · rw [hgone, hfolders, hfrom]
  · exact (hgone' p).mpr ((hself.newFolders p).mpr ((hto' p).mpr (.inl ((hfrom' p).mpr hp))))
  · refine (hgone' _).mpr ((hself.newFolders _).mpr ((hto' _).mpr (.inr ⟨wd, relative, hwd, ?_, rfl⟩)))
    exact (hfolders _).mp ((hgone _).mp hentry).1

theorem Covered.rename (h : s.Covered) (hs : s.Sound) (hsafe : s.RenameSafe oldParent oldName)
    (hchange : s.inotify.change s.root full (.rename oldParent oldName newParent newName) = some inotify)
    (hnone : (s.changedTo (.rename oldParent oldName newParent newName) inotify).ahead.shouldWalkAgain = false) :
    (s.changedTo (.rename oldParent oldName newParent newName) inotify).Covered := by
  simp only [Inotify.change] at hchange
  split at hchange
  · cases hchange
  · rename_i hpath
    have hnewPath := (not_or.mp hpath).2
    obtain ⟨tree, htree, hinotify⟩ := Option.map_eq_some_iff.mp hchange
    obtain ⟨hmove, hnodes, -⟩ := PathTree.move_eq_some htree
    replace hnodes : inotify.tree.nodes = _ := (congrArg (·.tree.nodes) hinotify).symm.trans hnodes
    have hwatches : inotify.watches = s.inotify.watchesWithout (newParent ++ [newName]) :=
      (congrArg Inotify.watches hinotify).symm
    have hqueue : inotify.queue = enqueue s.inotify.queue full _ := (congrArg Inotify.queue hinotify).symm
    have hahead := ahead_of_change hs.oneEntry hqueue (batch_after _ _ _) hnone
    obtain ⟨hfolders, hnew, harrival⟩ := rename_ahead hs.ahead_oneEntry hahead
    have hmem : ∀ q folder, (q, folder) ∈ inotify.tree.nodes ↔
        (∃ below, q = newParent ++ [newName] ++ below ∧ (oldParent ++ [oldName] ++ below, folder) ∈ s.inotify.tree.nodes) ∨
          (¬ oldParent ++ [oldName] <+: q ∧ q ≠ newParent ++ [newName] ∧ (q, folder) ∈ s.inotify.tree.nodes) := by
      intro q folder
      rw [hnodes]
      exact PathTree.mem_movedNodes hmove.apart
    -- an entry that is left is of a folder that neither moved nor went
    have hout : ∀ {wd q}, (wd, q) ∈ (s.changedTo (.rename oldParent oldName newParent newName) inotify).ahead.folders →
        ¬ oldParent ++ [oldName] <+: s.root ++ q ∧ s.root ++ q ≠ newParent ++ [newName] := by
      intro wd q hentry
      obtain ⟨⟨hentry, hmoved⟩, hgone⟩ := (hfolders _).mp hentry
      exact ⟨h.moved_forgotten hs hsafe hentry hmoved, h.not_gone hs hnewPath hentry hgone⟩
    have hstill : ∀ {wd folder q}, (folder, wd) ∈ s.inotify.watches → (q, folder) ∈ s.inotify.tree.nodes →
        q ≠ newParent ++ [newName] → (folder, wd) ∈ inotify.watches := by
      intro wd folder q hwatch hnode hne
      rw [hwatches]
      exact mem_watchesWithout_of_ne hwatch hnode hne
    -- a folder that has the same path before and after is one of these
    have hsame : ∀ {q folder}, (q, folder) ∈ s.inotify.tree.nodes → (q, folder) ∈ inotify.tree.nodes →
        ¬ oldParent ++ [oldName] <+: q ∧ q ≠ newParent ++ [newName] := by
      intro q folder hnode hnode'
      rcases (hmem q folder).mp hnode' with ⟨below, rfl, hfrom⟩ | ⟨hout, hne, -⟩
      · have heq := s.inotify.tree.placed _ _ _ hnode hfrom
        exact absurd (List.append_cancel_right heq) fun heq => hmove.apart (heq ▸ List.prefix_refl _)
      · exact ⟨hout, hne⟩
    refine h.changed hs rfl (fun wd q folder hentry hnode _ => ?_) (fun entry hentry => ((hfolders entry).mp hentry).1.1)
      (fun watch hwatch => (List.mem_filter.mp (hwatches ▸ hwatch)).1) (fun wd q folder hentry hwatch hnode hnode' => ?_)
      (fun wd q folder hentry hwatch hnode => ?_) (fun wd q child p folder hentry hwatch hp hfolder hold => ?_) ?_
    · exact (hmem _ _).mpr (.inr ⟨(hout hentry).1, (hout hentry).2, hnode⟩)
    · obtain ⟨hin, hne⟩ := hsame hnode hnode'
      exact ⟨(hfolders _).mpr ⟨⟨hentry, h.unmoved_kept hs hin⟩, fun hgone => hs.kept_by_gone hwatch hnode hne hgone.2⟩,
        hstill hwatch hnode hne⟩
    · rcases (hmem _ _).mp hnode with ⟨below, heq, -⟩ | ⟨-, hne, hnode⟩
      · obtain ⟨folder', hnode', hwatch'⟩ := h.placed wd q ((hfolders _).mp hentry).1.1
        obtain rfl := hs.oneFolder folder folder' wd hwatch hwatch'
        exact hstill hwatch hnode' (hout hentry).2
      · exact hstill hwatch hnode hne
    · rcases (hmem _ _).mp hfolder with ⟨below, heq, -⟩ | ⟨-, -, hnode⟩
      · rcases List.eq_nil_or_concat below with rfl | ⟨above, last, rfl⟩
        · -- the moved folder, whose new parent tells of it
          rw [List.append_nil, ← List.append_assoc] at heq
          obtain ⟨rfl, hname⟩ := List.append_inj' heq rfl
          rw [List.singleton_inj.mp hname]
          exact harrival wd q ((Inotify.watchAt_eq_some hs.oneWatch).mpr ⟨p, hp, hwatch⟩) hentry
        · -- below it nothing is kept
          rw [List.concat_eq_append, ← List.append_assoc, ← List.append_assoc] at heq
          obtain ⟨hq, -⟩ := List.append_inj' heq rfl
          exact absurd (hmove.empty _ hp ⟨above, hq.symm⟩) (hout hentry).2
      · exact absurd hnode hold
    · intro q child p folder hp hfolder hfolder' hawait
      obtain ⟨hin, hne⟩ := hsame hfolder hfolder'
      refine hawait.after hnew rfl fun entry hentry hparent hname => ?_
      have hq := s.inotify.tree.placed _ _ _ hp hparent
      rw [← List.append_assoc, hq, ← hname] at hin hne
      simp only [FolderChange.taken, List.mem_cons, List.not_mem_nil, or_false] at hentry
      rcases hentry with rfl | rfl
      · exact hin (List.prefix_refl _)
      · exact hne rfl

end WatchState

end TgeCore.IO
