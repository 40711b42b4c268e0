import Mathlib.Data.List.DropRight

namespace TgeCore.Library

/-- A path as Windows has it, in 16-bit units. -/
abbrev WindowsPath := List UInt16

def wide (c : Char) : UInt16 := UInt16.ofNat c.toNat

def wideText (text : String) : WindowsPath := text.toList.map wide

def preferredSeparator : UInt16 := wide '\\'

def isSlash (c : UInt16) : Bool := c = wide '/' ∨ c = wide '\\'

def isDriveLetter (c : UInt16) : Bool := wide 'A' ≤ c ∧ c ≤ wide 'Z' ∨ wide 'a' ≤ c ∧ c ≤ wide 'z'

namespace WindowsPath

def hasDrive : WindowsPath → Bool
  | letter :: colon :: _ => isDriveLetter letter && colon = wide ':'
  | _ => false

/-- The three units of a device's root name: \\?, \\. or \??. -/
def isDevice (b c : UInt16) : Bool :=
  isSlash b && (c = wide '?' || c = wide '.') || b = wide '?' && c = wide '?'

/-- How long the root name of a device or of a server is. -/
def deviceLength : WindowsPath → Nat
  | a :: b :: c :: rest =>
    if isSlash a && isDevice b c && isSlash (rest.headD 0) && !isSlash (rest.tail.headD 0) then 3
    else if isSlash a && isSlash b && !isSlash c then 3 + (rest.takeWhile fun d => !isSlash d).length
    else 0
  | _ => 0

def rootNameLength (p : WindowsPath) : Nat := if hasDrive p then 2 else deviceLength p

def rootName (p : WindowsPath) : WindowsPath := p.take (rootNameLength p)

def belowRootName (p : WindowsPath) : WindowsPath := p.drop (rootNameLength p)

def hasRootDirectory (p : WindowsPath) : Bool := isSlash ((belowRootName p).headD 0)

/-- A drive's path is absolute if it has a root directory, any other if it has a root name. -/
def isAbsolute (p : WindowsPath) : Bool :=
  if hasDrive p then hasRootDirectory p else rootNameLength p ≠ 0

def relativePath (p : WindowsPath) : WindowsPath := (belowRootName p).dropWhile isSlash

def parentPath (p : WindowsPath) : WindowsPath :=
  p.take (p.length - (relativePath p).length) ++
    ((relativePath p).rdropWhile fun c => !isSlash c).rdropWhile isSlash

def filename (p : WindowsPath) : WindowsPath := (relativePath p).rtakeWhile fun c => !isSlash c

/-- From the last dot of the name on, unless it is the first unit or the name is two dots. What
follows a colon is a stream's name. -/
def extension (p : WindowsPath) : WindowsPath :=
  let name := (filename p).takeWhile (· ≠ wide ':')
  let stem := name.rdropWhile (· ≠ wide '.')
  if stem.length ≤ 1 ∨ name = [wide '.', wide '.'] then [] else name.drop (stem.length - 1)

/-- The separator that an operator / puts behind a path. -/
def separator (p : WindowsPath) : WindowsPath :=
  if belowRootName p = [] then if 3 ≤ rootNameLength p then [preferredSeparator] else []
  else if isSlash (p.getLastD 0) then [] else [preferredSeparator]

/-- The operator /. -/
def append (p q : WindowsPath) : WindowsPath :=
  if isAbsolute q ∨ rootName q ≠ [] ∧ rootName p ≠ rootName q then q
  else if hasRootDirectory q then rootName p ++ belowRootName q
  else p ++ separator p ++ belowRootName q

/-- A name alone: no root, and nothing above it. -/
def isBare (p : WindowsPath) : Bool := rootName p = [] && !hasRootDirectory p && parentPath p = []

example : extension (wideText "game.tar.exe") = wideText ".exe" ∧ extension (wideText ".exe") = [] ∧
    extension (wideText "..") = [] := by decide +kernel

example : append (wideText "C:\\bin") (wideText "tool") = wideText "C:\\bin\\tool" ∧
    append (wideText "\\\\srv") (wideText "tool") = wideText "\\\\srv\\tool" ∧
    append (wideText "C:") (wideText "tool") = wideText "C:tool" := by decide +kernel

/-- A file in a folder, under a name. -/
def inFolder (folder name : WindowsPath) : WindowsPath :=
  folder ++ (if isSlash (folder.getLastD 0) then [] else [preferredSeparator]) ++ name

variable {p q : WindowsPath}

theorem rootNameLength_le (p : WindowsPath) : rootNameLength p ≤ p.length := by
  unfold rootNameLength
  split
  · rename_i hdrive
    unfold hasDrive at hdrive
    split at hdrive
    · simp
    · cases hdrive
  · fun_cases deviceLength p with
    | case1 a b c rest hdevice => simp
    | case2 a b c rest hdevice hserver =>
      have hprefix := (List.takeWhile_prefix (l := rest) fun d => !isSlash d).length_le
      simp only [List.length_cons]
      omega
    | case3 a b c rest hdevice hserver => exact Nat.zero_le _
    | case4 p hshort => exact Nat.zero_le _

theorem rootName_eq_nil : rootName p = [] ↔ rootNameLength p = 0 := by
  have hle := rootNameLength_le p
  rw [rootName, List.take_eq_nil_iff]
  constructor
  · rintro (hzero | rfl)
    · exact hzero
    · exact Nat.le_zero.mp hle
  · exact .inl

/-- Without a drive and without slashes there is no root name. -/
theorem rootNameLength_eq_zero (hdrive : hasDrive p = false) (hslash : ∀ c ∈ p, isSlash c = false) :
    rootNameLength p = 0 := by
  rw [rootNameLength, if_neg (by simp [hdrive])]
  unfold deviceLength
  split
  · rename_i a b c rest
    have ha := hslash a List.mem_cons_self
    simp [ha]
  · rfl

theorem isBare_iff : isBare p = true ↔ hasDrive p = false ∧ ∀ c ∈ p, isSlash c = false := by
  constructor
  · intro hbare
    simp only [isBare, Bool.and_eq_true, decide_eq_true_eq, Bool.not_eq_true', rootName_eq_nil] at hbare
    obtain ⟨⟨hlength, hroot⟩, hparent⟩ := hbare
    have hdrive : hasDrive p = false := by
      by_contra hdrive
      have htwo : rootNameLength p = 2 := if_pos (by simpa using hdrive)
      rw [htwo] at hlength
      cases hlength
    have hbelow : belowRootName p = p := by rw [belowRootName, hlength, List.drop_zero]
    refine ⟨hdrive, ?_⟩
    cases p with
    | nil => exact fun c hc => absurd hc List.not_mem_nil
    | cons first rest =>
      have hfirst : isSlash first = false := by
        rw [hasRootDirectory, hbelow] at hroot
        exact hroot
      have hrelative : relativePath (first :: rest) = first :: rest := by
        rw [relativePath, hbelow, List.dropWhile_cons_of_neg (by simp [hfirst])]
      rw [parentPath, hrelative, Nat.sub_self, List.take_zero, List.nil_append, List.rdropWhile_eq_nil_iff] at hparent
      have hnone : (first :: rest).rdropWhile (fun c => !isSlash c) = [] := by
        cases hkept : (first :: rest).rdropWhile fun c => !isSlash c with
        | nil => rfl
        | cons c kept =>
          obtain ⟨later, hlater⟩ := List.rdropWhile_prefix (fun c => !isSlash c) (l := first :: rest)
          rw [hkept] at hlater hparent
          cases hlater
          exact absurd (hparent first List.mem_cons_self) (by simp [hfirst])
      simpa using List.rdropWhile_eq_nil_iff.mp hnone
  · rintro ⟨hdrive, hslash⟩
    have hlength := rootNameLength_eq_zero hdrive hslash
    have hbelow : belowRootName p = p := by rw [belowRootName, hlength, List.drop_zero]
    have hrelative : relativePath p = p := by
      rw [relativePath, hbelow, List.dropWhile_eq_self_iff]
      intro hpos
      simp [hslash _ (List.getElem_mem hpos)]
    have hroot : hasRootDirectory p = false := by
      rw [hasRootDirectory, hbelow]
      cases p with
      | nil => rfl
      | cons first rest => exact hslash first List.mem_cons_self
    have hparent : parentPath p = [] := by
      have hname : p.rdropWhile (fun c => !isSlash c) = [] :=
        List.rdropWhile_eq_nil_iff.mpr fun c hc => by simp [hslash c hc]
      rw [parentPath, hrelative, hname, Nat.sub_self]
      rfl
    simp [isBare, rootName_eq_nil, hlength, hroot, hparent]

/-- A bare name stays bare behind which an extension is put. -/
theorem isBare_extended {letters : WindowsPath} (hbare : isBare p = true) (hletters : ∀ c ∈ letters, isSlash c = false) :
    isBare (p ++ wide '.' :: letters) = true := by
  obtain ⟨hdrive, hslash⟩ := isBare_iff.mp hbare
  refine isBare_iff.mpr ⟨?_, ?_⟩
  · cases p with
    | nil =>
      cases letters with
      | nil => rfl
      | cons letter letters => rfl
    | cons first rest =>
      cases rest with
      | nil => simp [hasDrive, show wide '.' ≠ wide ':' by decide]
      | cons second rest => exact hdrive
  · intro c hc
    rcases List.mem_append.mp hc with hc | hc
    · exact hslash c hc
    · rcases List.mem_cons.mp hc with rfl | hc
      · rfl
      · exact hletters c hc

/-- A root name that the whole path is is that of a server. -/
theorem deviceLength_whole (hsome : deviceLength p ≠ 0) (hwhole : p.length ≤ deviceLength p) :
    3 ≤ deviceLength p ∧ isSlash (p.getLastD 0) = false := by
  revert hsome hwhole
  fun_cases deviceLength p with
  | case1 a b c rest hdevice =>
    intro _ hwhole
    cases rest with
    | nil => simp [isSlash, show (0 : UInt16) ≠ wide '/' by decide, show (0 : UInt16) ≠ wide '\\' by decide] at hdevice
    | cons d rest =>
      simp only [List.length_cons] at hwhole
      omega
  | case2 a b c rest hdevice hserver =>
    intro _ hwhole
    have hall : (rest.takeWhile fun d => !isSlash d) = rest := by
      refine (List.takeWhile_prefix _).eq_of_length_le ?_
      simp only [List.length_cons] at hwhole
      omega
    have hc : isSlash c = false := by
      rw [Bool.and_eq_true, Bool.not_eq_true'] at hserver
      exact hserver.2
    refine ⟨Nat.le_add_right _ _, ?_⟩
    rw [List.takeWhile_eq_self_iff] at hall
    cases hrest : rest.getLast? with
    | none => simp [List.getLast?_eq_none_iff.mp hrest, hc]
    | some d =>
      have hd := hall d (List.mem_of_getLast? hrest)
      rw [Bool.not_eq_true'] at hd
      simp [List.getLastD_eq_getLast?, List.getLast?_cons, hrest, hd]
  | case3 a b c rest hdevice hserver => exact fun hsome => absurd rfl hsome
  | case4 p hshort => exact fun hsome => absurd rfl hsome

/-- A separator goes behind an absolute path unless it ends in one. -/
theorem separator_of_isAbsolute (habsolute : isAbsolute p = true) :
    separator p = if isSlash (p.getLastD 0) then [] else [preferredSeparator] := by
  unfold separator
  by_cases hbelow : belowRootName p = []
  · have hdrive : ¬ hasDrive p = true := by
      intro hdrive
      rw [isAbsolute, if_pos hdrive, hasRootDirectory, hbelow] at habsolute
      cases habsolute
    have hlength : p.length ≤ rootNameLength p := List.drop_eq_nil_iff.mp hbelow
    have hdevice : rootNameLength p = deviceLength p := if_neg hdrive
    rw [isAbsolute, if_neg hdrive, decide_eq_true_eq, hdevice] at habsolute
    rw [hdevice] at hlength
    obtain ⟨hthree, hlast⟩ := deviceLength_whole habsolute hlength
    rw [if_pos hbelow, hdevice, if_pos hthree, hlast]
    rfl
  · rw [if_neg hbelow]

theorem append_isBare (habsolute : isAbsolute p = true) (hbare : isBare q = true) :
    append p q = inFolder p q := by
  obtain ⟨hdrive, hslash⟩ := isBare_iff.mp hbare
  have hlength := rootNameLength_eq_zero hdrive hslash
  have hroot : hasRootDirectory q = false := by
    simp only [isBare, Bool.and_eq_true, Bool.not_eq_true'] at hbare
    exact hbare.1.2
  have hrelative : isAbsolute q = false := by
    rw [isAbsolute, if_neg (by simp [hdrive]), hlength]
    rfl
  rw [append, if_neg (by simp [hrelative, rootName_eq_nil, hlength]), if_neg (by simp [hroot]),
    separator_of_isAbsolute habsolute, belowRootName, hlength, List.drop_zero, inFolder]

end WindowsPath

end TgeCore.Library
