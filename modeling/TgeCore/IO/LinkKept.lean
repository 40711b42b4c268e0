import TgeCore.IO.AtomicWrite
import TgeCore.IO.LinkedWrite

namespace TgeCore.IO
open Library LinkTree

namespace LinkedFiles

section Names
variable {entries : List String → Option LinkEntry} {folder : List String} {name : String} {id : Nat}

theorem fileNames_file (h : entries (folder ++ [name]) = some (.file id)) : fileNames entries folder name = some id := by
  unfold fileNames
  rw [h]

/-- Names of files that stay stay, and so does what is not of a file. -/
theorem putNames_same {names : String → Option Nat} (h : names name = fileNames entries folder name) :
    putNames entries folder names (folder ++ [name]) = entries (folder ++ [name]) := by
  unfold putNames
  rw [List.getLast?_concat]
  simp only [if_true, h]
  unfold fileNames
  cases hentry : entries (folder ++ [name]) with
  | none => rfl
  | some entry =>
    cases entry with
    | folder => rfl
    | file id => rfl
    | link target => rfl

theorem putNames_some {names : String → Option Nat} (h : names name = some id) :
    putNames entries folder names (folder ++ [name]) = some (.file id) := by
  unfold putNames
  rw [List.getLast?_concat]
  simp only [if_true, h]

theorem putNames_none {names : String → Option Nat} (h : names name = none)
    (hentry : entries (folder ++ [name]) = some (.file id)) : putNames entries folder names (folder ++ [name]) = none := by
  unfold putNames
  rw [List.getLast?_concat]
  simp only [if_true, h, hentry]

/-- What stands elsewhere is left alone. -/
theorem putNames_elsewhere {names : String → Option Nat} {location : List String}
    (h : ∀ name, location ≠ folder ++ [name]) : putNames entries folder names location = entries location := by
  unfold putNames
  cases hlast : location.getLast? with
  | none => rfl
  | some name => simp only [if_neg (h name)]

/-- Two trees are the same if they agree on a folder's names and elsewhere. -/
theorem entries_ext {entries' : List String → Option LinkEntry} (folder : List String)
    (hnames : ∀ name, entries (folder ++ [name]) = entries' (folder ++ [name]))
    (helsewhere : ∀ location, (∀ name, location ≠ folder ++ [name]) → entries location = entries' location) :
    entries = entries' := by
  funext location
  by_cases h : ∃ name, location = folder ++ [name]
  · obtain ⟨name, rfl⟩ := h
    exact hnames name
  · exact helsewhere location (not_exists.mp h)

theorem putNames_fileNames (entries : List String → Option LinkEntry) (folder : List String) :
    putNames entries folder (fileNames entries folder) = entries :=
  entries_ext folder (fun _ => putNames_same rfl) fun _ hlocation => putNames_elsewhere hlocation

theorem place_ne {other : String} (h : other ≠ name) : folder ++ [other] ≠ folder ++ [name] := by
  intro heq
  exact h (List.singleton_inj.mp (List.append_cancel_left heq))

theorem putFile_self (entries : List String → Option LinkEntry) (location : List String) (id : Nat) :
    putFile entries location id location = some (.file id) := Function.update_self ..

theorem putFile_ne {other : String} (h : other ≠ name) :
    putFile entries (folder ++ [name]) id (folder ++ [other]) = entries (folder ++ [other]) :=
  Function.update_of_ne (place_ne h) ..

theorem putFile_elsewhere {location : List String} (h : ∀ name, location ≠ folder ++ [name]) :
    putFile entries (folder ++ [name]) id location = entries location :=
  Function.update_of_ne (h name) ..

/-- A new file takes a name. -/
theorem putNames_create (entries : List String → Option LinkEntry) (folder : List String) (name : String) (id : Nat) :
    putNames entries folder (Function.update (fileNames entries folder) name (some id)) =
      putFile entries (folder ++ [name]) id := by
  refine entries_ext folder (fun other => ?_) fun location hlocation => ?_
  · by_cases hother : other = name
    · subst hother
      rw [putFile_self, putNames_some]
      exact Function.update_self ..
    · rw [putNames_same (Function.update_of_ne hother ..), putFile_ne hother]
  · rw [putNames_elsewhere hlocation, putFile_elsewhere hlocation]

/-- A file that has taken a free name takes another, and leaves the first as it was. -/
theorem putNames_rename {temporary : String} (hne : temporary ≠ name) (hfree : entries (folder ++ [temporary]) = none) :
    putNames (putFile entries (folder ++ [temporary]) id) folder
        (Function.update (Function.update (fileNames (putFile entries (folder ++ [temporary]) id) folder) name
          (fileNames (putFile entries (folder ++ [temporary]) id) folder temporary)) temporary none) =
      putFile entries (folder ++ [name]) id := by
  have hfile := putFile_self entries (folder ++ [temporary]) id
  refine entries_ext folder (fun other => ?_) fun location hlocation => ?_
  · by_cases hother : other = temporary
    · subst hother
      rw [putNames_none (Function.update_self ..) hfile, putFile_ne hne, hfree]
    · by_cases hother' : other = name
      · subst hother'
        rw [putFile_self, putNames_some]
        rw [Function.update_of_ne hother, Function.update_self, fileNames_file hfile]
      · rw [putNames_same, putFile_ne hother, putFile_ne hother']
        rw [Function.update_of_ne hother, Function.update_of_ne hother']
  · rw [putNames_elsewhere hlocation, putFile_elsewhere hlocation, putFile_elsewhere hlocation]

end Names

/-- What a call has done that runs by itself. -/
structure Alone (fs : LinkedFiles) (folder : List String) (name : String) (content : List UInt8)
    (s : LinkedFiles × Call) : Prop where
  target : s.2.target = name
  carried : s.2.content = content
  fresh : s.2.stage = .mkostemp → s.1.entries = fs.entries
  opened : ∀ o, s.2.stage.opened = some o → o.temporaryPath ≠ name ∧ fs.entries (folder ++ [o.temporaryPath]) = none ∧
    s.1.entries = putFile fs.entries (folder ++ [o.temporaryPath]) o.file
  written : ∀ o w, s.2.stage.opened = some o → s.2.stage.written content = some w →
    (s.1.files folder).content o.file = some w
  inPlace : s.2.stage = .done none → ∃ id, s.1.entries = putFile fs.entries (folder ++ [name]) id ∧
    (s.1.files folder).content id = some content

/-- No system call is the first again. -/
theorem step_ne_mkostemp {c : Call} {disk disk' : Files} {stage : Stage} {outcome : Outcome}
    (h : c.step disk outcome = some (disk', stage)) : stage ≠ .mkostemp := by
  have hwrite : ∀ opened numWritten, c.writeAll opened numWritten ≠ .mkostemp := by
    intro opened numWritten heq
    have hopened := congrArg Stage.opened heq
    rw [writeAll_opened] at hopened
    cases hopened
  unfold Call.step at h
  split at h
  · split at h
    · cases h
      simp
    · cases h
  · cases h
    simp
  · obtain ⟨mode, -, heq⟩ := Option.map_eq_some_iff.mp h
    cases heq
    simp
  · cases h
    exact hwrite _ _
  · cases h
    simp
  · split at h
    · split at h
      · cases h
        exact hwrite _ _
      · cases h
        simp
    · cases h
  · cases h
    split
    · simp
    · simp
  · cases h
    simp
  · cases h
    simp
  · cases h
    simp
  · cases h
    simp
  · cases h
    simp
  · cases h
    simp
  · cases h
    simp
  · cases h
    simp
  · cases h

/-- A call makes its temporary file only when mkostemp has found a name for it. -/
theorem step_creates {c : Call} {disk disk' : Files} {opened : Opened} {outcome : Outcome} (hstage : c.stage = .mkostemp)
    (h : c.step disk outcome = some (disk', .stat opened)) :
    ∃ letters, outcome = .mkostemp (.ok letters) ∧ opened.temporaryPath = temporaryPath c.target letters := by
  unfold Call.step at h
  rw [hstage] at h
  cases outcome with
  | mkostemp result =>
    cases result with
    | ok letters =>
      simp only at h
      split at h
      · cases h
        exact ⟨letters, rfl, rfl⟩
      · cases h
    | error errno => cases h
  | _ => cases h

theorem Alone.start (fs : LinkedFiles) (folder : List String) (name : String) (content : List UInt8) :
    Alone fs folder name content (fs, { target := name, content }) where
  target := rfl
  carried := rfl
  fresh := fun _ => rfl
  opened := fun _ ho => nomatch ho
  written := fun _ _ ho => nomatch ho
  inPlace := fun hdone => nomatch hdone

variable {fs fs' : LinkedFiles} {folder : List String} {name : String} {content : List UInt8} {s t : LinkedFiles × Call}

theorem Alone.step {outcome : Outcome} {out : Unit} (h : Alone fs folder name content s)
    (hstep : LinkedFiles.step folder s outcome = some (t, out)) : Alone fs folder name content t := by
  unfold LinkedFiles.step at hstep
  split at hstep
  case isFalse => cases hstep
  rename_i hallows
  obtain ⟨⟨disk', stage⟩, hcall, heq⟩ := Option.map_eq_some_iff.mp hstep
  cases heq
  have hfirst := step_ne_mkostemp hcall
  cases Call.step_change hcall with
  | quiet hquiet =>
    have hentries : (s.1.put folder disk').entries = s.1.entries := by
      unfold LinkedFiles.put
      rw [hquiet.entries]
      exact putNames_fileNames s.1.entries folder
    refine ⟨h.target, h.carried, fun hstage => absurd hstage hfirst, fun o ho => ?_, fun o w ho hw => ?_,
      fun hdone => absurd hdone hquiet.goesOn⟩
    · rw [hentries]
      exact h.opened o (hquiet.opened o ho)
    · have hbefore := hquiet.written w (by rw [h.carried]; exact hw)
      rw [h.carried] at hbefore
      exact (hquiet.content o.file).trans (h.written o w (hquiet.opened o ho) hbefore)
  | create letters hstage hlength habsent =>
    have hfree : fs.entries (folder ++ [temporaryPath name letters]) = none := by
      obtain ⟨letters', rfl, hpath⟩ := step_creates hstage hcall
      rw [← h.fresh hstage, ← h.target, show temporaryPath s.2.target letters = temporaryPath s.2.target letters' from hpath]
      exact of_decide_eq_true hallows
    have hentries : (s.1.put folder ((s.1.files folder).create (temporaryPath s.2.target letters) temporaryMode)).entries =
        putFile fs.entries (folder ++ [temporaryPath name letters]) s.1.inodes.length := by
      rw [← h.fresh hstage, ← h.target]
      exact putNames_create s.1.entries folder _ _
    refine ⟨h.target, h.carried, fun hstage => absurd hstage hfirst, fun o ho => ?_, fun o w ho hw => ?_,
      fun hdone => nomatch hdone⟩
    · cases ho
      rw [h.target]
      rw [h.target] at hentries
      exact ⟨temporaryPath_ne hlength, hfree, hentries⟩
    · cases ho
      cases hw
      exact (s.1.files folder).content_create_new (temporaryPath s.2.target letters) temporaryMode
  | append opened numWritten count hstage hcount =>
    have hopened : s.2.stage.opened = some opened := by
      rw [hstage]
      rfl
    have hbefore : (s.1.files folder).content opened.file = some (content.take numWritten) :=
      h.written opened _ hopened (by rw [hstage]; rfl)
    refine ⟨h.target, h.carried, fun hstage => absurd hstage hfirst, fun o ho => ?_, fun o w ho hw => ?_, fun hdone => ?_⟩
    · rw [writeAll_opened] at ho
      cases ho
      obtain ⟨hne, hfree, hentries⟩ := h.opened opened hopened
      exact ⟨hne, hfree, (putNames_fileNames s.1.entries folder).trans hentries⟩
    · rw [writeAll_opened] at ho
      cases ho
      rw [← h.carried, writeAll_written] at hw
      cases hw
      refine (Disk.content_append_self (s.1.files folder) opened.file _).trans ?_
      rw [hbefore, h.carried, Option.map_some, List.take_add]
    · have hend := congrArg Stage.opened hdone
      rw [writeAll_opened] at hend
      cases hend
  | rename opened hstage =>
    have hopened : s.2.stage.opened = some opened := by
      rw [hstage]
      rfl
    obtain ⟨hne, hfree, hentries⟩ := h.opened opened hopened
    refine ⟨h.target, h.carried, fun hstage => absurd hstage hfirst, fun _ ho => (nomatch ho), fun _ _ ho => (nomatch ho),
      fun _ => ⟨opened.file, ?_, h.written opened content hopened (by rw [hstage]; rfl)⟩⟩
    rw [← putNames_rename hne hfree, ← hentries, ← h.target]
    rfl
  | unlink opened error hstage =>
    exact ⟨h.target, h.carried, fun hstage => absurd hstage hfirst, fun _ ho => (nomatch ho), fun _ _ ho => (nomatch ho),
      fun hdone => nomatch hdone⟩

theorem place_eq_some_iff {working : List String} {path : LinkPath} : fs.place working path = some (folder, name) ↔
    walk fs.entries MAXSYMLINKS (path.start working) path.names.dropLast = .folder folder ∧
      path.names.getLastD "" = name := by
  unfold place
  cases walk fs.entries MAXSYMLINKS (path.start working) path.names.dropLast with
  | folder found => simp only [Option.some.injEq, Prod.mk.injEq, Walked.folder.injEq]
  | file location id => simp only [reduceCtorEq, false_and]
  | absent location => simp only [reduceCtorEq, false_and]
  | failed => simp only [reduceCtorEq, false_and]

theorem resolve_eq_file_iff {working location : List String} {path : LinkPath} {id : Nat} :
    fs.resolve working path = .file location id ↔ ¬(path.names = [] ∧ ¬path.isAbsolute) ∧
      walk fs.entries MAXSYMLINKS (path.start working) path.names = .file location id := by
  unfold resolve
  split
  · rename_i hempty
    exact ⟨fun h => (nomatch h), fun h => absurd hempty h.1⟩
  · rename_i hnames
    exact ⟨fun h => ⟨hnames, h⟩, fun h => h.2⟩

/-- A call that succeeds leaves one name changed, that of the place it resolved. -/
theorem writeFileAtomically_places {working : List String} {path : LinkPath} {outcomes : List Outcome} {after : LinkedFiles}
    (h : fs.writeFileAtomically working path content outcomes = some (after, none)) :
    ∃ folder name id, fs.place working (fs.resolveLink working path) = some (folder, name) ∧
      after.entries = putFile fs.entries (folder ++ [name]) id ∧ (after.inodes[id]?).map Inode.content = some content := by
  unfold writeFileAtomically at h
  split at h
  · rename_i folder name hplace
    obtain ⟨⟨s, outs⟩, hrun, hresult⟩ := Option.bind_eq_some_iff.mp h
    obtain ⟨error, hdone, heq⟩ := Option.map_eq_some_iff.mp hresult
    cases heq
    have halone : Alone fs folder name content s :=
      Machine.run_keeps (Alone fs folder name content) (fun _ _ _ _ hs hstep => hs.step hstep) (.start fs folder name content) hrun
    obtain ⟨id, hentries, hcontent⟩ := halone.inPlace (result_eq_some hdone)
    exact ⟨folder, name, id, hplace, hentries, hcontent⟩
  · split at h
    · cases h
    · cases h

end LinkedFiles

namespace LinkedDisk
variable {disk : LinkedDisk} {path : LinkPath} {content : List UInt8} {after : LinkedFiles} {folder : List String}
  {name : String} {id : Nat}

/-- The path that canonical gives is of the place itself. -/
theorem place_canonical {location : List String} (h : disk.tree.entries location = some (.file id)) :
    ∃ folder name, location = folder ++ [name] ∧ disk.files.place disk.working ⟨true, location⟩ = some (folder, name) := by
  cases location using List.reverseRecOn with
  | nil =>
    rw [disk.tree.top] at h
    cases h
  | append_singleton folder name =>
    have hfolder := (disk.tree.placed folder name (by rw [h]; exact Option.some_ne_none _)).1
    refine ⟨folder, name, rfl, LinkedFiles.place_eq_some_iff.mpr ⟨?_, List.getLastD_concat ..⟩⟩
    rw [List.dropLast_concat]
    exact disk.tree.walk_down MAXSYMLINKS [] folder hfolder

/-- The link is kept, and it leads to the new content, when it is the final target that is replaced. -/
theorem preserved_of_file {location : List String} {old : Nat}
    (hresolve : disk.files.resolve disk.working path = .file location old)
    (hlink : ∃ target, disk.files.lstat disk.working path = some (.link target))
    (hentries : after.entries = putFile disk.files.entries location id)
    (hcontent : (after.inodes[id]?).map Inode.content = some content) : disk.Preserved path content after := by
  obtain ⟨hnames, hwalk⟩ := LinkedFiles.resolve_eq_file_iff.mp hresolve
  have hold := walk_ends _ _ _ hwalk
  refine ⟨?_, ?_⟩
  · obtain ⟨target, htarget⟩ := hlink
    obtain ⟨⟨folder, name⟩, hplace, hentry⟩ := Option.bind_eq_some_iff.mp htarget
    obtain ⟨hfolder, hname⟩ := LinkedFiles.place_eq_some_iff.mp hplace
    have hafter : after.place disk.working path = some (folder, name) := by
      refine LinkedFiles.place_eq_some_iff.mpr ⟨?_, hname⟩
      rw [hentries, walk_putFile hold]
      exact congrArg (Walked.replaced location id) hfolder
    have hne : folder ++ [name] ≠ location := by
      rintro rfl
      cases hentry.symm.trans hold
    unfold LinkedFiles.lstat
    rw [hafter, hplace, Option.bind_some, Option.bind_some, hentries]
    exact Function.update_of_ne hne ..
  · have hafter : after.resolve disk.working path = .file location id := by
      refine LinkedFiles.resolve_eq_file_iff.mpr ⟨hnames, ?_⟩
      rw [hentries, walk_putFile hold]
      refine (congrArg (Walked.replaced location id) hwalk).trans ?_
      simp only [Walked.replaced, if_true]
    unfold LinkedFiles.read
    rw [hafter]
    exact hcontent

/-- A link that leads to a file, or to nothing yet, leads to no folder. -/
theorem LinksToFile.no_folder (h : disk.LinksToFile path) (hplace : disk.files.place disk.working path = some (folder, name))
    (budget : Nat) (middle : List String) : walk disk.files.entries budget folder [name] ≠ .folder middle := by
  intro hfolder
  obtain ⟨folder', name', budget', location, hplace', hleads⟩ := h.leads
  cases hplace.symm.trans hplace'
  have hunique : walk disk.files.entries budget' folder [name] ≠ .failed →
      walk disk.files.entries budget' folder [name] = .folder middle := by
    intro hfound
    rw [← hfolder]
    refine walk_unique hfound ?_
    rw [hfolder]
    simp
  cases hleads with
  | inl habsent =>
    rw [habsent] at hunique
    cases hunique (by simp)
  | inr hfile =>
    obtain ⟨id, hfile⟩ := hfile
    rw [hfile] at hunique
    cases hunique (by simp)

/-- The link's own name is the last of the path. -/
theorem LinksToFile.names_eq (h : disk.LinksToFile path) : ∃ folder name,
    disk.files.place disk.working path = some (folder, name) ∧ path.names = path.names.dropLast ++ [name] := by
  obtain ⟨target, htarget⟩ := h.isLink
  obtain ⟨⟨folder, name⟩, hplace, hentry⟩ := Option.bind_eq_some_iff.mp htarget
  obtain ⟨-, hname⟩ := LinkedFiles.place_eq_some_iff.mp hplace
  refine ⟨folder, name, hplace, ?_⟩
  have hnonempty : name ≠ "" :=
    (disk.tree.placed folder name (by rw [show disk.tree.entries _ = _ from hentry]; exact Option.some_ne_none _)).2.1
  cases hnames : path.names using List.reverseRecOn with
  | nil =>
    rw [hnames] at hname
    exact absurd hname.symm hnonempty
  | append_singleton front last =>
    rw [hnames, List.getLastD_concat] at hname
    rw [List.dropLast_concat, hname]

/-- What cannot be resolved to a file is written in the place of the link. -/
theorem LinksToFile.resolveLink_eq (h : disk.LinksToFile path)
    (hnofile : ∀ location id, disk.files.resolve disk.working path ≠ .file location id) :
    disk.files.resolveLink disk.working path = path := by
  have hnofolder : ∀ location, disk.files.resolve disk.working path ≠ .folder location := by
    intro location hfolder
    obtain ⟨folder, name, hplace, hnames⟩ := h.names_eq
    unfold LinkedFiles.resolve at hfolder
    split at hfolder
    · cases hfolder
    · rw [hnames] at hfolder
      obtain ⟨middle, budget, hmiddle, hrest⟩ := walk_append _ _ _ hfolder
      rw [(LinkedFiles.place_eq_some_iff.mp hplace).1] at hmiddle
      cases hmiddle
      exact h.no_folder hplace budget location hrest
  unfold LinkedFiles.resolveLink LinkedFiles.canonical
  cases hresolve : disk.files.resolve disk.working path with
  | folder location => exact absurd hresolve (hnofolder location)
  | file location id => exact absurd hresolve (hnofile location id)
  | absent location => rfl
  | failed => rfl

/-- A file in the place of the link is what the path is of from then on. -/
theorem LinksToFile.lstat_of_replaced (h : disk.LinksToFile path)
    (hplace : disk.files.place disk.working path = some (folder, name))
    (hentries : after.entries = putFile disk.files.entries (folder ++ [name]) id) :
    after.lstat disk.working path = some (.file id) := by
  obtain ⟨hfolder, hname⟩ := LinkedFiles.place_eq_some_iff.mp hplace
  have hafter : after.place disk.working path = some (folder, name) := by
    refine LinkedFiles.place_eq_some_iff.mpr ⟨?_, hname⟩
    rw [hentries]
    exact walk_putFile_link (h.no_folder hplace) id _ _ _ hfolder
  unfold LinkedFiles.lstat
  rw [hafter, Option.bind_some, hentries]
  exact LinkedFiles.putFile_self ..

end LinkedDisk

/-- A call that succeeds on a link keeps it exactly when the system resolves the link to a file that exists. -/
theorem writeFileAtomically_keeps_link_iff (disk : LinkedDisk) (path : LinkPath) (content : List UInt8)
    (outcomes : List Outcome) (after : LinkedFiles) (hlink : disk.LinksToFile path)
    (hsuccess : disk.files.writeFileAtomically disk.working path content outcomes = some (after, none)) :
    disk.Preserved path content after ↔ ∃ location id, disk.files.resolve disk.working path = .file location id := by
  obtain ⟨folder, name, id, hplace, hentries, hcontent⟩ := LinkedFiles.writeFileAtomically_places hsuccess
  constructor
  · intro hpreserved
    by_contra hnone
    have hnofile : ∀ location id, disk.files.resolve disk.working path ≠ .file location id :=
      fun location id hfile => hnone ⟨location, id, hfile⟩
    rw [hlink.resolveLink_eq hnofile] at hplace
    obtain ⟨target, htarget⟩ := hlink.isLink
    have hlstat := hpreserved.1
    rw [hlink.lstat_of_replaced hplace hentries, htarget] at hlstat
    cases hlstat
  · rintro ⟨location, old, hresolve⟩
    have hold := walk_ends _ _ _ (LinkedFiles.resolve_eq_file_iff.mp hresolve).2
    obtain ⟨folder', name', rfl, hcanonical⟩ := LinkedDisk.place_canonical hold
    have hresolved : disk.files.resolveLink disk.working path = ⟨true, folder' ++ [name']⟩ := by
      unfold LinkedFiles.resolveLink LinkedFiles.canonical
      rw [hresolve]
      rfl
    rw [hresolved] at hplace
    cases hplace.symm.trans hcanonical
    exact LinkedDisk.preserved_of_file hresolve hlink.isLink hentries hcontent

/-- One folder with a link in it, for an example: `a` says `b`, which may be a file or not be there. -/
def linkTo (target : Option Nat) : LinkedDisk where
  tree := {
    entries := fun location =>
      match location with
      | [] => some .folder
      | [name] => if name = "a" then some (.link ⟨false, ["b"]⟩) else if name = "b" then target.map .file else none
      | _ => none
    top := rfl
    placed := by
      intro folder name h
      cases folder with
      | nil =>
        refine ⟨rfl, ?_, ?_, ?_⟩
        · rintro rfl
          simp at h
        · rintro rfl
          simp at h
        · rintro rfl
          simp at h
      | cons top folder => cases folder with
        | nil => simp at h
        | cons next folder => simp at h }
  inodes := [⟨[1], 0o600⟩]
  working := []
  isFolder := rfl

/-- How a call's system calls end that all succeed. -/
def allSucceed : List Outcome :=
  [.mkostemp (.ok "abcdef"), .stat true, .fchmod none, .write (.ok 2), .fsync none, .close none, .rename none]

theorem linkTo_linksToFile_file : (linkTo (some 0)).LinksToFile ⟨false, ["a"]⟩ :=
  ⟨⟨⟨false, ["b"]⟩, by decide +kernel⟩, [], "a", 1, ["b"], by decide +kernel, .inr ⟨0, by decide +kernel⟩⟩

theorem linkTo_linksToFile_absent : (linkTo none).LinksToFile ⟨false, ["a"]⟩ :=
  ⟨⟨⟨false, ["b"]⟩, by decide +kernel⟩, [], "a", 1, ["b"], by decide +kernel, .inl (by decide +kernel)⟩

theorem writeFileAtomically_keeps_link_file : ∃ after,
    (linkTo (some 0)).files.writeFileAtomically [] ⟨false, ["a"]⟩ [7, 8] allSucceed = some (after, none) ∧
      ((linkTo (some 0)).Preserved ⟨false, ["a"]⟩ [7, 8] after ↔
        ∃ location id, (linkTo (some 0)).files.resolve [] ⟨false, ["a"]⟩ = .file location id) := by
  have hrun : ((linkTo (some 0)).files.writeFileAtomically [] ⟨false, ["a"]⟩ [7, 8] allSucceed).map Prod.snd =
      some none := by decide +kernel
  obtain ⟨⟨after, error⟩, hsuccess, rfl⟩ := Option.map_eq_some_iff.mp hrun
  exact ⟨after, hsuccess, writeFileAtomically_keeps_link_iff (linkTo (some 0)) ⟨false, ["a"]⟩ [7, 8] allSucceed after
    linkTo_linksToFile_file hsuccess⟩

/-- A link whose target is not there yet is replaced by the file. -/
theorem writeFileAtomically_replaces_link : ∃ outcomes after,
    (linkTo none).LinksToFile ⟨false, ["a"]⟩ ∧
      (linkTo none).files.writeFileAtomically [] ⟨false, ["a"]⟩ [7, 8] outcomes = some (after, none) ∧
      after.lstat [] ⟨false, ["a"]⟩ = some (.file 1) ∧ ¬(linkTo none).Preserved ⟨false, ["a"]⟩ [7, 8] after := by
  have hrun : ((linkTo none).files.writeFileAtomically [] ⟨false, ["a"]⟩ [7, 8]
      (allSucceed.set 1 (.stat false))).map (fun last => (last.1.lstat [] ⟨false, ["a"]⟩, last.2)) =
      some (some (.file 1), none) := by decide +kernel
  obtain ⟨⟨after, error⟩, hsuccess, hlast⟩ := Option.map_eq_some_iff.mp hrun
  obtain ⟨hlstat, rfl⟩ := Prod.mk.inj hlast
  refine ⟨_, after, linkTo_linksToFile_absent, hsuccess, hlstat, fun hpreserved => ?_⟩
  have hsame := hlstat.symm.trans hpreserved.1
  exact absurd hsame (by decide +kernel)

end TgeCore.IO
