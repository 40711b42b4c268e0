import Mathlib.Data.List.Forall2
import TgeCore.Library.WindowsPath

namespace TgeCore.Process
open Library Library.WindowsPath

def DefaultCompletions : WindowsPath := wideText ".COM;.EXE"

def StartableExtensions : List WindowsPath := [wideText ".exe", wideText ".com"]

def isSameLetter (actual expected : UInt16) : Bool :=
  let isUpper := wide 'A' ≤ actual ∧ actual ≤ wide 'Z'
  (if isUpper then actual - wide 'A' + wide 'a' else actual) = expected

def IsStartableExtension (extension : WindowsPath) : Bool :=
  StartableExtensions.any fun startable =>
    extension.length = startable.length ∧ (extension.zip startable).all fun pair => isSameLetter pair.1 pair.2

/-- SplitList's loop. -/
def splitFrom (list : WindowsPath) (start : Nat) : List WindowsPath :=
  if start ≤ list.length then
    let stop := start + (list.drop start).idxOf (wide ';')
    (list.drop start).take (stop - start) :: splitFrom list (stop + 1)
  else []
termination_by list.length + 1 - start

def SplitList (list : WindowsPath) : List WindowsPath := splitFrom list 0

/-- Given what PATHEXT is, which is empty where it is not set. -/
def GetCompletions (pathExt : WindowsPath) : List WindowsPath :=
  (SplitList (if pathExt.isEmpty then DefaultCompletions else pathExt)).filter IsStartableExtension

/-- The errors of FindInPath, as std::errc names them. -/
inductive SearchError where
  | noSuchFileOrDirectory
  | executableFormatError
deriving DecidableEq

/-- FindInPath's variables. -/
structure PathSearch where
  result : Except SearchError WindowsPath := .error .noSuchFileOrDirectory
  isFound : Bool := false
  isUnstartable : Bool := false

def folderOf (entry : WindowsPath) : WindowsPath :=
  let isQuoted := entry.length ≥ 2 ∧ entry.headD 0 = wide '"' ∧ entry.getLastD 0 = wide '"'
  if isQuoted then (entry.drop 1).take (entry.length - 2) else entry

section Search
variable (isRegularFile : WindowsPath → Bool) (name : WindowsPath)

def PathSearch.complete (folder : WindowsPath) (s : PathSearch) (completion : WindowsPath) : PathSearch :=
  let candidate := append folder (name ++ completion)
  if !s.isFound && isRegularFile candidate then { s with result := .ok candidate, isFound := true } else s

def PathSearch.enter (isComplete : Bool) (completions : List WindowsPath) (s : PathSearch) (entry : WindowsPath) :
    PathSearch :=
  let folder := folderOf entry
  if !s.isFound && isAbsolute folder then
    let s := completions.foldl (PathSearch.complete isRegularFile name folder) s
    { s with isUnstartable := s.isUnstartable || !isComplete && isRegularFile (append folder name) }
  else s

/-- Given what PATH and PATHEXT are, and which paths are of regular files. -/
def FindInPath (searchPath pathExt : WindowsPath) : Except SearchError WindowsPath :=
  let isComplete := IsStartableExtension (extension name)
  let completions := if isComplete then [[]] else GetCompletions pathExt
  let s := (SplitList searchPath).foldl (PathSearch.enter isRegularFile name isComplete completions) {}
  if !s.isFound && s.isUnstartable then .error .executableFormatError else s.result

/-- The folders that are searched, in order. -/
def searchFolders (searchPath : WindowsPath) : List WindowsPath :=
  ((SplitList searchPath).map folderOf).filter isAbsolute

/-- The names that are searched for in each folder, in order. -/
def searchNames (pathExt : WindowsPath) : List WindowsPath :=
  if IsStartableExtension (extension name) then [name] else (GetCompletions pathExt).map (name ++ ·)

def candidates (searchPath pathExt : WindowsPath) : List WindowsPath :=
  (searchFolders searchPath).flatMap fun folder => (searchNames name pathExt).map (inFolder folder)

/-- The name is there in some folder, but not with an extension that can be started. -/
def Unstartable (searchPath : WindowsPath) : Prop :=
  IsStartableExtension (extension name) = false ∧ ∃ folder ∈ searchFolders searchPath, isRegularFile (inFolder folder name)

/-- What a search is to give: the first regular file in the order of the folders and then of the
names, or why there is none. -/
structure FindsFirst (searchPath pathExt : WindowsPath) (result : Except SearchError WindowsPath) : Prop where
  found : ∀ file, result = .ok file ↔ ∃ before after, candidates name searchPath pathExt = before ++ file :: after ∧
    isRegularFile file ∧ ∀ other ∈ before, isRegularFile other = false
  unstartable : result = .error .executableFormatError ↔
    (∀ file ∈ candidates name searchPath pathExt, isRegularFile file = false) ∧
      Unstartable isRegularFile name searchPath
  missing : result = .error .noSuchFileOrDirectory ↔
    (∀ file ∈ candidates name searchPath pathExt, isRegularFile file = false) ∧
      ¬ Unstartable isRegularFile name searchPath

end Search

/-- The entries are what the semicolons stand between. -/
theorem splitFrom_eq (list : WindowsPath) (start : Nat) (hstart : start ≤ list.length) :
    splitFrom list start = (list.drop start).splitOn (wide ';') := by
  rw [splitFrom, if_pos hstart]
  simp only [Nat.add_sub_cancel_left]
  by_cases hmem : wide ';' ∈ list.drop start
  · obtain ⟨entry, rest, hsplit, hfree⟩ := List.eq_append_cons_of_mem hmem
    have hstop : (list.drop start).idxOf (wide ';') = entry.length := by
      rw [hsplit, List.idxOf_append_of_notMem hfree, List.idxOf_cons_self, Nat.add_zero]
    have hlength := congrArg List.length hsplit
    simp only [List.length_drop, List.length_append, List.length_cons] at hlength
    have hrest : list.drop (start + entry.length + 1) = rest := by
      rw [Nat.add_assoc, ← List.drop_drop, hsplit, List.drop_append, List.drop_eq_nil_of_le (Nat.le_succ _)]
      simp
    have hnext : start + entry.length + 1 ≤ list.length := by omega
    rw [hstop, splitFrom_eq list (start + entry.length + 1) hnext, hrest, hsplit, List.take_left]
    exact (List.splitOn_append_cons_self_of_not_mem hfree rest).symm
  · rw [List.idxOf_eq_length hmem, List.take_length, splitFrom, if_neg (by rw [List.length_drop]; omega)]
    exact (List.splitOn_eq_singleton hmem).symm
termination_by list.length - start
decreasing_by omega

theorem intercalate_splitList (list : WindowsPath) : [wide ';'].intercalate (SplitList list) = list := by
  rw [SplitList, splitFrom_eq list 0 (Nat.zero_le _), List.drop_zero, List.intercalate_splitOn]

section Search
variable {isRegularFile : WindowsPath → Bool} {name searchPath pathExt : WindowsPath}

/-- What a search that goes through some files in order makes of what it had. -/
def PathSearch.found (s : PathSearch) : Option WindowsPath → PathSearch
  | some file => { s with result := .ok file, isFound := true }
  | none => s

theorem foldl_complete (folder : WindowsPath) (completions : List WindowsPath) (s : PathSearch) :
    completions.foldl (PathSearch.complete isRegularFile name folder) s =
      if s.isFound then s
      else s.found ((completions.map fun completion => append folder (name ++ completion)).find? isRegularFile) := by
  induction completions generalizing s with
  | nil => simp [PathSearch.found]
  | cons completion completions ih =>
    rw [List.foldl_cons, ih, List.map_cons, List.find?_cons, PathSearch.complete]
    by_cases hfound : s.isFound = true
    · simp [hfound]
    · by_cases hfile : isRegularFile (append folder (name ++ completion)) = true
      · simp [hfound, hfile, PathSearch.found]
      · simp [hfound, hfile]

variable {isComplete : Bool} {completions : List WindowsPath}

/-- Once a file is found, the entries that are left are passed over. -/
theorem foldl_enter_found (entries : List WindowsPath) {s : PathSearch} (hs : s.isFound = true) :
    entries.foldl (PathSearch.enter isRegularFile name isComplete completions) s = s := by
  induction entries with
  | nil => rfl
  | cons entry entries ih =>
    have hstay : s.enter isRegularFile name isComplete completions entry = s := by simp [PathSearch.enter, hs]
    rw [List.foldl_cons, hstay, ih]

/-- The folders among some entries. -/
def foldersAmong (entries : List WindowsPath) : List WindowsPath := (entries.map folderOf).filter isAbsolute

/-- The files that the two loops look at, if they find none. -/
def filesAmong (name : WindowsPath) (completions entries : List WindowsPath) : List WindowsPath :=
  (foldersAmong entries).flatMap fun folder => completions.map fun completion => append folder (name ++ completion)

/-- The name itself is in one of the folders, and needs an extension. -/
def isThere (isRegularFile : WindowsPath → Bool) (name : WindowsPath) (isComplete : Bool) (entries : List WindowsPath) :
    Bool :=
  !isComplete && (foldersAmong entries).any fun folder => isRegularFile (append folder name)

/-- What FindInPath returns after its loops. -/
def PathSearch.verdict (s : PathSearch) : Except SearchError WindowsPath :=
  if !s.isFound && s.isUnstartable then .error .executableFormatError else s.result

theorem enter_eq {s : PathSearch} (hs : s.isFound = false) {entry : WindowsPath}
    (habsolute : isAbsolute (folderOf entry) = true) : s.enter isRegularFile name isComplete completions entry =
      { s.found ((completions.map fun completion => append (folderOf entry) (name ++ completion)).find? isRegularFile) with
        isUnstartable := s.isUnstartable || !isComplete && isRegularFile (append (folderOf entry) name) } := by
  have hkept : ∀ file, (s.found file).isUnstartable = s.isUnstartable := by
    intro file
    cases file with
    | none => rfl
    | some file => rfl
  simp only [PathSearch.enter, hs, habsolute, foldl_complete, hkept, Bool.not_false, Bool.and_self, if_true,
    Bool.false_eq_true, if_false]

/-- The loops give the first file, and if there is none they know whether the name is there. -/
theorem foldl_enter_verdict (entries : List WindowsPath) (s : PathSearch) (hs : s.isFound = false) :
    (entries.foldl (PathSearch.enter isRegularFile name isComplete completions) s).verdict =
      match (filesAmong name completions entries).find? isRegularFile with
      | some file => .ok file
      | none => { s with isUnstartable := s.isUnstartable || isThere isRegularFile name isComplete entries }.verdict := by
  induction entries generalizing s with
  | nil => simp [filesAmong, foldersAmong, isThere]
  | cons entry entries ih =>
    rw [List.foldl_cons]
    by_cases habsolute : isAbsolute (folderOf entry) = true
    · have hfolders : foldersAmong (entry :: entries) = folderOf entry :: foldersAmong entries := by
        simp [foldersAmong, habsolute]
      rw [enter_eq hs habsolute, filesAmong, hfolders, List.flatMap_cons, List.find?_append]
      cases (completions.map fun completion => append (folderOf entry) (name ++ completion)).find? isRegularFile with
      | some file =>
        rw [PathSearch.found, foldl_enter_found entries rfl]
        rfl
      | none =>
        have hthere : isThere isRegularFile name isComplete (entry :: entries) =
            (!isComplete && isRegularFile (append (folderOf entry) name) ||
              isThere isRegularFile name isComplete entries) := by
          rw [isThere, hfolders, List.any_cons, Bool.and_or_distrib_left, isThere]
        rw [PathSearch.found, hthere, ← Bool.or_assoc]
        exact ih { s with isUnstartable := s.isUnstartable || !isComplete && isRegularFile (append (folderOf entry) name) } hs
    · have hfolders : foldersAmong (entry :: entries) = foldersAmong entries := by
        simp [foldersAmong, habsolute]
      have hstay : s.enter isRegularFile name isComplete completions entry = s := by
        simp [PathSearch.enter, habsolute]
      rw [hstay, ih s hs, filesAmong, filesAmong, isThere, isThere, hfolders]

end Search

theorem isSameLetter_dot {c : UInt16} (h : isSameLetter c (wide '.') = true) : c = wide '.' := by
  simp only [isSameLetter, decide_eq_true_eq] at h
  split at h
  · rename_i hupper
    have hc : c = wide '.' - wide 'a' + wide 'A' := by
      rw [← h]
      grind
    rw [hc] at hupper
    exact absurd hupper (by decide)
  · exact h

/-- Nothing but a slash is the same letter as a slash. -/
theorem isSlash_of_isSameLetter {c expected : UInt16} (h : isSameLetter c expected = true)
    (hexpected : isSlash expected = false) : isSlash c = false := by
  by_contra hslash
  have hslash : isSlash c = true := by simpa using hslash
  have hlower : ¬ (wide 'A' ≤ c ∧ c ≤ wide 'Z') := by
    rcases of_decide_eq_true hslash with rfl | rfl
    · decide
    · decide
  simp only [isSameLetter, if_neg hlower, decide_eq_true_eq] at h
  rw [← h, hslash] at hexpected
  cases hexpected

theorem no_slash_of_all {text : WindowsPath} (h : (text.all fun c => !isSlash c) = true) :
    ∀ c ∈ text, isSlash c = false :=
  fun c hc => (Bool.not_eq_true' _).mp (List.all_eq_true.mp h c hc)

theorem isStartableExtension_cases {letters : WindowsPath} (h : IsStartableExtension letters = true) :
    ∃ rest, letters = wide '.' :: rest ∧ ∀ c ∈ rest, isSlash c = false := by
  obtain ⟨startable, hmem, hsame⟩ := List.any_eq_true.mp h
  obtain ⟨hlength, hall⟩ := of_decide_eq_true hsame
  have hpairs : List.Forall₂ (fun c expected => isSameLetter c expected = true) letters startable :=
    List.forall₂_iff_zip.mpr ⟨hlength, fun hpair => List.all_eq_true.mp hall _ hpair⟩
  obtain ⟨expected, rfl, hexpected⟩ : ∃ expected, startable = wide '.' :: expected ∧ ∀ c ∈ expected, isSlash c = false := by
    rcases List.mem_cons.mp hmem with rfl | hmem
    · exact ⟨wideText "exe", rfl, no_slash_of_all rfl⟩
    · obtain rfl := List.mem_singleton.mp hmem
      exact ⟨wideText "com", rfl, no_slash_of_all rfl⟩
  cases hpairs with
  | cons hfirst hrest =>
    rename_i first rest
    refine ⟨rest, by rw [isSameLetter_dot hfirst], fun c hc => ?_⟩
    obtain ⟨i, hi, rfl⟩ := List.getElem_of_mem hc
    have hj : i < expected.length := hrest.length_eq ▸ hi
    exact isSlash_of_isSameLetter (hrest.get hi hj) (hexpected _ (List.getElem_mem hj))

section Result
variable {isRegularFile : WindowsPath → Bool} {name searchPath pathExt : WindowsPath}

theorem foldersAmong_splitList : foldersAmong (SplitList searchPath) = searchFolders searchPath := rfl

/-- What the loops look at in a folder are files of that folder. -/
theorem filesAmong_eq (hbare : isBare name = true) :
    filesAmong name (if IsStartableExtension (extension name) then [[]] else GetCompletions pathExt) (SplitList searchPath) =
      candidates name searchPath pathExt := by
  rw [filesAmong, candidates, foldersAmong_splitList]
  refine List.flatMap_congr fun folder hfolder => ?_
  have habsolute : isAbsolute folder = true := (List.mem_filter.mp hfolder).2
  rw [searchNames]
  split
  · rw [List.map_singleton, List.map_singleton, List.append_nil, append_isBare habsolute hbare]
  · rw [List.map_map]
    refine List.map_congr_left fun completion hcompletion => ?_
    obtain ⟨rest, rfl, hrest⟩ := isStartableExtension_cases (List.mem_filter.mp hcompletion).2
    exact append_isBare habsolute (isBare_extended hbare hrest)

theorem isThere_iff (hbare : isBare name = true) :
    isThere isRegularFile name (IsStartableExtension (extension name)) (SplitList searchPath) = true ↔
      Unstartable isRegularFile name searchPath := by
  rw [isThere, Bool.and_eq_true, Bool.not_eq_true', List.any_eq_true, foldersAmong_splitList]
  refine and_congr_right fun _ => exists_congr fun folder => and_congr_right fun hfolder => ?_
  rw [append_isBare (List.mem_filter.mp hfolder).2 hbare]

theorem findInPath_eq (hbare : isBare name = true) :
    FindInPath isRegularFile name searchPath pathExt =
      match (candidates name searchPath pathExt).find? isRegularFile with
      | some file => .ok file
      | none =>
        if isThere isRegularFile name (IsStartableExtension (extension name)) (SplitList searchPath) then
          .error .executableFormatError
        else .error .noSuchFileOrDirectory := by
  have hverdict : FindInPath isRegularFile name searchPath pathExt =
      ((SplitList searchPath).foldl (PathSearch.enter isRegularFile name (IsStartableExtension (extension name))
        (if IsStartableExtension (extension name) then [[]] else GetCompletions pathExt)) {}).verdict := rfl
  rw [hverdict, foldl_enter_verdict _ _ rfl, filesAmong_eq hbare]
  simp only [Bool.false_or, PathSearch.verdict, Bool.not_false, Bool.true_and]

/-- On Windows a bare name is found where PATH and PATHEXT say, and the entries of a list are what
stands between its semicolons. -/
theorem findInPath_findsFirst (isRegularFile : WindowsPath → Bool) (name searchPath pathExt : WindowsPath)
    (hbare : isBare name = true) :
    FindsFirst isRegularFile name searchPath pathExt (FindInPath isRegularFile name searchPath pathExt) ∧
      ∀ list, [wide ';'].intercalate (SplitList list) = list := by
  refine ⟨?_, intercalate_splitList⟩
  rw [findInPath_eq hbare]
  cases hfind : (candidates name searchPath pathExt).find? isRegularFile with
  | some file =>
    obtain ⟨hregular, before, after, hsplit, hbefore⟩ := List.find?_eq_some_iff_append.mp hfind
    have hthere : ¬ ∀ other ∈ candidates name searchPath pathExt, isRegularFile other = false := by
      intro hall
      rw [hall file (List.mem_of_find?_eq_some hfind)] at hregular
      cases hregular
    refine ⟨fun other => ⟨?_, ?_⟩, iff_of_false (fun h => by cases h) fun h => hthere h.1,
      iff_of_false (fun h => by cases h) fun h => hthere h.1⟩
    · intro hother
      cases hother
      exact ⟨before, after, hsplit, hregular, fun other hmem => by simpa using hbefore other hmem⟩
    · rintro ⟨before, after, hsplit, hregular, hbefore⟩
      have hfirst : (candidates name searchPath pathExt).find? isRegularFile = some other :=
        List.find?_eq_some_iff_append.mpr ⟨hregular, before, after, hsplit, fun file hmem => by simp [hbefore file hmem]⟩
      rw [Option.some.inj (hfind.symm.trans hfirst)]
  | none =>
    have hnone : ∀ file ∈ candidates name searchPath pathExt, isRegularFile file = false :=
      fun file hmem => by simpa using List.find?_eq_none.mp hfind file hmem
    have hmissing : ∀ file, ¬ ∃ before after, candidates name searchPath pathExt = before ++ file :: after ∧
        isRegularFile file ∧ ∀ other ∈ before, isRegularFile other = false := by
      rintro file ⟨before, after, hsplit, hregular, -⟩
      rw [hnone file (by simp [hsplit])] at hregular
      cases hregular
    dsimp only
    by_cases hthere : isThere isRegularFile name (IsStartableExtension (extension name)) (SplitList searchPath) = true
    · have hunstartable := (isThere_iff hbare).mp hthere
      rw [if_pos hthere]
      exact ⟨fun file => iff_of_false (fun h => by cases h) (hmissing file), iff_of_true rfl ⟨hnone, hunstartable⟩,
        iff_of_false (fun h => by cases h) fun h => h.2 hunstartable⟩
    · have hunstartable := mt (isThere_iff hbare).mpr hthere
      rw [if_neg hthere]
      exact ⟨fun file => iff_of_false (fun h => by cases h) (hmissing file),
        iff_of_false (fun h => by cases h) fun h => hunstartable h.2, iff_of_true rfl ⟨hnone, hunstartable⟩⟩

/-- A batch file in the first folder, a program in the second, and an entry that is not absolute. -/
def toolFiles : List WindowsPath :=
  [wideText "C:\\My Tools\\tool.bat", wideText "bin\\tool.exe", wideText "D:\\tool.EXE"]

theorem findInPath_findsFirst_tool :
    FindInPath (fun file => decide (file ∈ toolFiles)) (wideText "tool") (wideText "\"C:\\My Tools\";bin;D:\\")
      (wideText ".BAT;.EXE") = .ok (wideText "D:\\tool.EXE") ∧
    FindsFirst (fun file => decide (file ∈ toolFiles)) (wideText "tool") (wideText "\"C:\\My Tools\";bin;D:\\")
      (wideText ".BAT;.EXE") (.ok (wideText "D:\\tool.EXE")) := by
  have hrun : FindInPath (fun file => decide (file ∈ toolFiles)) (wideText "tool")
      (wideText "\"C:\\My Tools\";bin;D:\\") (wideText ".BAT;.EXE") = .ok (wideText "D:\\tool.EXE") := by
    decide +kernel
  have hfirst := (findInPath_findsFirst (fun file => decide (file ∈ toolFiles)) (wideText "tool")
    (wideText "\"C:\\My Tools\";bin;D:\\") (wideText ".BAT;.EXE") (by decide +kernel)).1
  rw [hrun] at hfirst
  exact ⟨hrun, hfirst⟩

end Result

end TgeCore.Process
