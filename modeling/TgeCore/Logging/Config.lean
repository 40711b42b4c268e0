import TgeCore.Logging.Registry
import TgeCore.Library.Text
import TgeCore.Library.Trim

namespace TgeCore.Logging
open Library

instance : OrOp ELogLevel := ⟨fun a b => ⟨a.bits ||| b.bits⟩⟩

/-- What one letter makes of the levels so far. -/
def ParseLetter (outLevel : ELogLevel) (c : Char) : Option ELogLevel :=
  if c = 'n' ∨ c = 'N' then some .None
  else if c = 'e' ∨ c = 'E' then some (outLevel ||| .Error)
  else if c = 'w' ∨ c = 'W' then some (outLevel ||| .Warning)
  else if c = 'i' ∨ c = 'I' then some (outLevel ||| .Info)
  else if c = 'a' ∨ c = 'A' then some .All
  else none

/-- The level, where the text is valid. -/
def ParseLogLevel (str : List Char) : Option ELogLevel :=
  if str = [] then none else str.foldlM ParseLetter .None

def isBlank (c : Char) : Bool := c = ' ' || c = '\t'

def Trim (str : List Char) : List Char := trim isBlank str

/-- The loop over std::getline. The end of the file ends a line that is not empty. -/
def getLines (line : List Char) : List Char → List (List Char)
  | [] => if line = [] then [] else [line]
  | c :: rest => if c = '\n' then line :: getLines [] rest else getLines (line ++ [c]) rest

/-- What LoadConfig finds in a line: a key and a valid level. -/
def readLine (line : List Char) : Option (String × ELogLevel) :=
  let lineView := Trim line
  if lineView ≠ [] ∧ lineView.head? ≠ some '#' then
    match Text.find ['='] lineView with
    | some eqPos =>
      let key := Trim (lineView.take eqPos)
      let value := Trim (lineView.drop (eqPos + 1))
      (ParseLogLevel value).map fun level => (String.ofList key, level)
    | none => none
  else none

def LogConfig.add (config : LogConfig) (entry : String × ELogLevel) : LogConfig :=
  if entry.1 = "default" then { config with defaultLevel := some entry.2 }
  else { config with channelOverrides := config.channelOverrides ++ [entry] }

def readConfig (text : List Char) : LogConfig := ((getLines [] text).filterMap readLine).foldl LogConfig.add {}

/-- Nothing happens where the file cannot be opened. -/
def LoadConfig (hash : String → UInt64) (s : CLogSystem) (file : Option (List Char)) : CLogSystem :=
  match file with
  | some text => s.applyConfig hash (readConfig text)
  | none => s

/-- A line of the documented format. -/
inductive ConfigLine where
  | blank (spaces : List Char)
  | comment (indent text : List Char)
  | setting (indent key gap gap' flags rest : List Char) (remark : Option (List Char))
deriving DecidableEq

namespace ConfigLine

def text : ConfigLine → List Char
  | .blank spaces => spaces
  | .comment indent text => indent ++ '#' :: text
  | .setting indent key gap gap' flags rest remark =>
    indent ++ (key ++ gap ++ '=' :: (gap' ++ flags ++ rest ++ (match remark with
      | some text => '#' :: text
      | none => [])))

def AllBlank (text : List Char) : Prop := ∀ c ∈ text, isBlank c = true

/-- Key and flags have spaces and tabs around them only, and white space comes before
a comment at the end of the line. -/
structure FormedSetting (indent key gap gap' flags rest : List Char) (remark : Option (List Char)) :
    Prop where
  blanks : AllBlank indent ∧ AllBlank gap ∧ AllBlank gap' ∧ AllBlank rest
  key : key ≠ [] ∧ Bare isBlank key ∧ '=' ∉ key ∧ '\n' ∉ key ∧ key.head? ≠ some '#'
  flags : Bare isBlank flags ∧ '#' ∉ flags ∧ '\n' ∉ flags
  remark : ∀ text ∈ remark, rest ≠ [] ∧ '\n' ∉ text

def Formed : ConfigLine → Prop
  | .blank spaces => AllBlank spaces
  | .comment indent text => AllBlank indent ∧ '\n' ∉ text
  | .setting indent key gap gap' flags rest remark => FormedSetting indent key gap gap' flags rest remark

/-- What the documentation has a line say: a key, and its level where the flags are valid. -/
def documented : ConfigLine → Option (String × ELogLevel)
  | .setting _ key _ _ flags _ _ => (ParseLogLevel flags).map fun level => (String.ofList key, level)
  | _ => none

/-- Whether a setting is followed by a comment on its line. -/
def commented : ConfigLine → Bool
  | .setting _ _ _ _ _ _ remark => remark.isSome
  | _ => false

end ConfigLine

/-- A file of lines, whose last one need not be ended. -/
def fileText (ended : Bool) : List ConfigLine → List Char
  | [] => []
  | [line] => line.text ++ if ended then ['\n'] else []
  | line :: rest => line.text ++ '\n' :: fileText ended rest

/-- The level that the last setting with a key gives. -/
def lastFor (key : String) (settings : List (String × ELogLevel)) : Option ELogLevel :=
  ((settings.filter fun entry => entry.1 = key).getLast?).map Prod.snd

/-- The channel's own level, or else the default, or else what it is. -/
def documentedMask (settings : List (String × ELogLevel)) (name : String) (mask : ELogLevel) : ELogLevel :=
  (lastFor name settings).getD ((lastFor "default" settings).getD mask)

/-- A registered channel. -/
def CLogSystem.Has (hash : String → UInt64) (s : CLogSystem) (log : Nat) (c : CLog) : Prop :=
  s.log? log = some c ∧ (hash c.name, log) ∈ s.loggers

section Flags
variable {flags : List Char} {level : ELogLevel}

theorem parseLogLevel_invalid {c : Char} (hmem : c ∈ flags) (hc : ∀ level, ParseLetter level c = none) :
    ParseLogLevel flags = none := by
  have hfold : ∀ level, flags.foldlM ParseLetter level = none := by
    induction flags with
    | nil => cases hmem
    | cons d flags ih =>
      intro level
      rw [List.foldlM_cons]
      rcases List.mem_cons.mp hmem with rfl | hmem
      · rw [hc level]
        rfl
      · cases hletter : ParseLetter level d with
        | none => rfl
        | some next => exact ih hmem next
  rw [ParseLogLevel, hfold]
  split
  · rfl
  · rfl

/-- What the documentation says that a flag stands for. -/
def documentedFlag (c : Char) : Option ELogLevel :=
  if c = 'e' ∨ c = 'E' then some .Error
  else if c = 'w' ∨ c = 'W' then some .Warning
  else if c = 'i' ∨ c = 'I' then some .Info
  else if c = 'a' ∨ c = 'A' then some .All
  else if c = 'n' ∨ c = 'N' then some .None
  else none

/-- One of the three levels that a mask consists of. -/
def ELogLevel.IsOne (one : ELogLevel) : Prop := one = .Error ∨ one = .Warning ∨ one = .Info

theorem or_has {a b one : ELogLevel} : (a ||| b) &&& one ≠ .None ↔ a &&& one ≠ .None ∨ b &&& one ≠ .None := by
  have heq : ∀ l : ELogLevel, l = .None ↔ l.bits = 0 := by
    rintro ⟨bits⟩
    exact ELogLevel.mk.injEq bits 0 ▸ Iff.rfl
  rw [ne_eq, ne_eq, ne_eq, heq, heq, heq, ← not_and_or, not_iff_not]
  change (a.bits ||| b.bits) &&& one.bits = 0 ↔ a.bits &&& one.bits = 0 ∧ b.bits &&& one.bits = 0
  rw [BitVec.and_or_distrib_right]
  exact BitVec.or_eq_zero_iff

/-- A letter adds what it stands for, or is n and takes all away. -/
theorem parseLetter_eq {before : ELogLevel} {c : Char} (h : ParseLetter before c = some level) :
    documentedFlag c = some .None ∧ level = .None ∨
      ∃ l, documentedFlag c = some l ∧ l ≠ .None ∧
        ∀ one : ELogLevel, one.IsOne → (level &&& one ≠ .None ↔ before &&& one ≠ .None ∨ l &&& one ≠ .None) := by
  simp only [ParseLetter] at h
  split at h
  · rename_i hn
    cases h
    rcases hn with rfl | rfl
    · exact .inl ⟨rfl, rfl⟩
    · exact .inl ⟨rfl, rfl⟩
  split at h
  · rename_i he
    cases h
    exact .inr ⟨.Error, by rw [documentedFlag, if_pos he], by decide, fun _ _ => or_has⟩
  split at h
  · rename_i hw
    cases h
    refine .inr ⟨.Warning, ?_, by decide, fun _ _ => or_has⟩
    rcases hw with rfl | rfl <;> rfl
  split at h
  · rename_i hi
    cases h
    refine .inr ⟨.Info, ?_, by decide, fun _ _ => or_has⟩
    rcases hi with rfl | rfl <;> rfl
  split at h
  · rename_i ha
    cases h
    refine .inr ⟨.All, ?_, by decide, ?_⟩
    · rcases ha with rfl | rfl <;> rfl
    · rintro one (rfl | rfl | rfl)
      · exact iff_of_true (by decide) (.inr (by decide))
      · exact iff_of_true (by decide) (.inr (by decide))
      · exact iff_of_true (by decide) (.inr (by decide))
  · cases h

theorem concat_split {d c : Char} {pre post : List Char} (h : flags ++ [d] = pre ++ c :: post) :
    flags = pre ∧ d = c ∧ post = [] ∨ ∃ rest, flags = pre ++ c :: rest ∧ post = rest ++ [d] := by
  rcases List.eq_nil_or_concat post with rfl | ⟨rest, last, rfl⟩
  · obtain ⟨rfl, hlast⟩ := List.append_inj' h rfl
    exact .inl ⟨rfl, List.singleton_inj.mp hlast, rfl⟩
  · rw [List.concat_eq_append, ← List.cons_append, ← List.append_assoc] at h
    obtain ⟨rfl, hlast⟩ := List.append_inj' h rfl
    obtain rfl := List.singleton_inj.mp hlast
    exact .inr ⟨rest, rfl, List.concat_eq_append⟩

/-- What the flags mean: a level is on exactly if a flag that stands for it comes after the last n. -/
theorem parseLogLevel_has {one : ELogLevel} (h : ParseLogLevel flags = some level) (hone : one.IsOne) :
    level &&& one ≠ .None ↔ ∃ pre c post l, flags = pre ++ c :: post ∧ documentedFlag c = some l ∧
      l &&& one ≠ .None ∧ ∀ d ∈ post, documentedFlag d ≠ some .None := by
  have hnone : ELogLevel.None &&& one = .None := by
    rcases hone with rfl | rfl | rfl <;> decide
  rw [ParseLogLevel] at h
  split at h
  · cases h
  clear * - h hone hnone
  induction flags using List.reverseRecOn generalizing level with
  | nil =>
    cases h
    refine iff_of_false (fun hne => hne hnone) ?_
    rintro ⟨pre, c, post, l, hflags, -⟩
    simp at hflags
  | append_singleton flags d ih =>
    rw [List.foldlM_append] at h
    obtain ⟨before, hbefore, hletter⟩ := Option.bind_eq_some_iff.mp h
    simp only [List.foldlM_cons, List.foldlM_nil, bind_pure] at hletter
    rcases parseLetter_eq hletter with ⟨hn, rfl⟩ | ⟨l, hl, hsome, hlevel⟩
    · refine iff_of_false (fun hne => hne hnone) ?_
      rintro ⟨pre, c, post, l, hflags, hc, hl, hpost⟩
      rcases concat_split hflags with ⟨-, rfl, -⟩ | ⟨rest, -, rfl⟩
      · cases hn.symm.trans hc
        exact hl hnone
      · exact hpost d (by simp) hn
    · refine (hlevel one hone).trans ((or_congr_left (ih hbefore)).trans ?_)
      constructor
      · rintro (⟨pre, c, post, l', rfl, hc, hl', hpost⟩ | hown)
        · refine ⟨pre, c, post ++ [d], l', by simp, hc, hl', fun x hx => ?_⟩
          rcases List.mem_append.mp hx with hx | hx
          · exact hpost x hx
          · obtain rfl := List.mem_singleton.mp hx
            exact fun heq => hsome (Option.some.inj (hl.symm.trans heq))
        · exact ⟨flags, d, [], l, rfl, hl, hown, fun _ hx => absurd hx List.not_mem_nil⟩
      · rintro ⟨pre, c, post, l', hflags, hc, hl', hpost⟩
        rcases concat_split hflags with ⟨-, rfl, -⟩ | ⟨rest, rfl, rfl⟩
        · cases hl.symm.trans hc
          exact .inr hl'
        · exact .inl ⟨pre, c, rest, l', rfl, hc, hl', fun x hx => hpost x (List.mem_append_left _ hx)⟩

/-- Which flags there are. -/
theorem parseLogLevel_isSome : (ParseLogLevel flags).isSome = true ↔
    flags ≠ [] ∧ ∀ c ∈ flags, (documentedFlag c).isSome = true := by
  have hletter : ∀ (level : ELogLevel) c, (ParseLetter level c).isSome = (documentedFlag c).isSome := by
    intro level c
    simp only [ParseLetter, documentedFlag]
    repeat' split
    all_goals rfl
  have hfold : ∀ level, (flags.foldlM ParseLetter level).isSome = true ↔
      ∀ c ∈ flags, (documentedFlag c).isSome = true := by
    induction flags with
    | nil => simp
    | cons d flags ih =>
      intro level
      rw [List.foldlM_cons, List.forall_mem_cons, ← hletter level d]
      cases hd : ParseLetter level d with
      | none => simp
      | some next => simpa using ih next
  rw [ParseLogLevel]
  split
  · rename_i hnil
    simp [hnil]
  · rename_i hsome
    rw [hfold]
    exact (and_iff_right hsome).symm

end Flags

section Lines
variable {indent key gap gap' flags rest text : List Char} {remark : Option (List Char)} {line : ConfigLine}

theorem getLines_line {first : List Char} (h : '\n' ∉ text) (later : List Char) :
    getLines first (text ++ '\n' :: later) = (first ++ text) :: getLines [] later := by
  induction text generalizing first with
  | nil => simp [getLines]
  | cons c text ih =>
    obtain ⟨hc, htext⟩ := not_or.mp (fun hor => h (List.mem_cons.mpr hor))
    rw [List.cons_append, getLines, if_neg (Ne.symm hc), ih htext, List.append_assoc, List.singleton_append]

theorem getLines_end {first : List Char} (h : '\n' ∉ text) :
    getLines first text = if first ++ text = [] then [] else [first ++ text] := by
  induction text generalizing first with
  | nil => simp [getLines]
  | cons c text ih =>
    obtain ⟨hc, htext⟩ := not_or.mp (fun hor => h (List.mem_cons.mpr hor))
    rw [getLines, if_neg (Ne.symm hc), ih htext, List.append_assoc, List.singleton_append]

theorem isBlank_hash : isBlank '#' = false := rfl

theorem isBlank_equals : isBlank '=' = false := rfl

theorem not_mem_of_allBlank {c : Char} (h : ConfigLine.AllBlank text) (hc : isBlank c = false) : c ∉ text := by
  intro hmem
  rw [h c hmem] at hc
  cases hc

theorem readLine_blank (h : ConfigLine.AllBlank text) : readLine text = none := by
  have hempty : Trim text = [] := trim_eq_nil h
  simp [readLine, hempty]

theorem readLine_comment (h : ConfigLine.AllBlank indent) : readLine (indent ++ '#' :: text) = none := by
  have hview : Trim (indent ++ '#' :: text) = '#' :: text.rdropWhile isBlank := by
    rw [Trim, trim_left h, trim_cons isBlank_hash]
  simp [readLine, hview]

/-- The key is what stands before the first equals sign, and the value what comes after it. -/
theorem readLine_equals (hindent : ConfigLine.AllBlank indent) (hgap : ConfigLine.AllBlank gap)
    (hkey : key ≠ [] ∧ Bare isBlank key ∧ '=' ∉ key ∧ '\n' ∉ key ∧ key.head? ≠ some '#') :
    readLine (indent ++ (key ++ gap ++ '=' :: text)) =
      (ParseLogLevel (Trim text)).map fun level => (String.ofList key, level) := by
  obtain ⟨hsome, hbare, hequals, _, hhash⟩ := hkey
  have hview : Trim (indent ++ (key ++ gap ++ '=' :: text)) =
      key ++ gap ++ (['='] ++ text.rdropWhile isBlank) := by
    cases key with
    | nil => exact absurd rfl hsome
    | cons c key =>
      have hsplit : c :: key ++ gap ++ '=' :: text = c :: (key ++ gap ++ '=' :: text) := by simp
      rw [Trim, trim_left hindent, hsplit, trim_cons (hbare.head c rfl), rdropWhile_append_cons isBlank_equals]
      simp
  have hhead : (key ++ gap ++ (['='] ++ text.rdropWhile isBlank)).head? ≠ some '#' := by
    cases key with
    | nil => exact absurd rfl hsome
    | cons c key => exact hhash
  have hfirst : '=' ∉ key ++ gap := by
    rw [List.mem_append]
    exact not_or.mpr ⟨hequals, not_mem_of_allBlank hgap isBlank_equals⟩
  have hfind : Text.find ['='] (key ++ gap ++ (['='] ++ text.rdropWhile isBlank)) = some (key ++ gap).length :=
    Text.find_free (Text.free_of_not_mem hfirst)
  have hkeyView : Trim (key ++ gap) = key := by rw [Trim, trim_right hgap, trim_bare hbare]
  have hvalue : Trim (text.rdropWhile isBlank) = Trim text := trim_rdropWhile text
  have hcontent : key ++ gap ++ (['='] ++ text.rdropWhile isBlank) ≠ [] := by simp
  have hdrop : (key ++ gap ++ (['='] ++ text.rdropWhile isBlank)).drop ((key ++ gap).length + 1) =
      text.rdropWhile isBlank := by
    rw [← List.append_assoc]
    exact List.drop_left' (by simp [Nat.add_assoc])
  simp only [readLine, hview, hhead, hcontent, ne_eq, not_false_iff, and_self, if_true, hfind,
    List.take_left, hkeyView, hdrop, hvalue]

/-- The code reads a line as documented, unless a comment ends it. -/
theorem readLine_text (h : line.Formed) :
    readLine line.text = if line.commented = true then none else line.documented := by
  cases line with
  | blank spaces => exact readLine_blank h
  | comment indent text => exact readLine_comment h.1
  | setting indent key gap gap' flags rest remark =>
    obtain ⟨⟨hindent, hgap, hgap', hrest⟩, hkey, ⟨hbare, hhash, _⟩, _⟩ := h
    cases remark with
    | none =>
      change readLine (indent ++ (key ++ gap ++ '=' :: (gap' ++ flags ++ rest ++ []))) = _
      have hvalue : Trim (gap' ++ flags ++ rest ++ []) = flags := by
        rw [List.append_nil, Trim, trim_right hrest, trim_left hgap', trim_bare hbare]
      rw [readLine_equals hindent hgap hkey, hvalue]
      rfl
    | some text =>
      change readLine (indent ++ (key ++ gap ++ '=' :: (gap' ++ flags ++ rest ++ '#' :: text))) = _
      have hmem : '#' ∈ Trim (gap' ++ flags ++ rest ++ '#' :: text) :=
        mem_trim (List.mem_append_right _ List.mem_cons_self) isBlank_hash
      rw [readLine_equals hindent hgap hkey, parseLogLevel_invalid hmem fun level => rfl]
      rfl

theorem newline_not_mem (h : line.Formed) : '\n' ∉ line.text := by
  have hnot : isBlank '\n' = false := rfl
  cases line with
  | blank spaces => exact not_mem_of_allBlank h hnot
  | comment indent text =>
    simp only [ConfigLine.text, List.mem_append, List.mem_cons, not_or]
    exact ⟨not_mem_of_allBlank h.1 hnot, by decide, h.2⟩
  | setting indent key gap gap' flags rest remark =>
    obtain ⟨⟨hindent, hgap, hgap', hrest⟩, ⟨_, _, _, hkey, _⟩, ⟨_, _, hflags⟩, hremark⟩ := h
    have hending : '\n' ∉ (match remark with
        | some text => '#' :: text
        | none => ([] : List Char)) := by
      cases remark with
      | none => exact List.not_mem_nil
      | some text =>
        rw [List.mem_cons, not_or]
        exact ⟨by decide, (hremark text rfl).2⟩
    simp only [ConfigLine.text, List.mem_append, List.mem_cons, not_or]
    exact ⟨not_mem_of_allBlank hindent hnot, ⟨hkey, not_mem_of_allBlank hgap hnot⟩, by decide,
      ⟨⟨not_mem_of_allBlank hgap' hnot, hflags⟩, not_mem_of_allBlank hrest hnot⟩, hending⟩

/-- The lines of a file are read one by one. -/
theorem filterMap_getLines (ended : Bool) {lines : List ConfigLine} (h : ∀ line ∈ lines, line.Formed) :
    (getLines [] (fileText ended lines)).filterMap readLine = (lines.map ConfigLine.text).filterMap readLine := by
  induction lines with
  | nil => rfl
  | cons line rest ih =>
    obtain ⟨hline, hrest⟩ := List.forall_mem_cons.mp h
    have hnewline := newline_not_mem hline
    cases rest with
    | cons next rest =>
      have hlines : fileText ended (line :: next :: rest) = line.text ++ '\n' :: fileText ended (next :: rest) := rfl
      change _ = (line.text :: (next :: rest).map ConfigLine.text).filterMap readLine
      rw [hlines, getLines_line hnewline, List.nil_append, List.filterMap_cons, ih hrest, List.filterMap_cons]
    | nil =>
      cases ended with
      | true =>
        have hlines : getLines [] (fileText true [line]) = [line.text] := by
          have hfirst : getLines [] (line.text ++ '\n' :: []) = ([] ++ line.text) :: getLines [] [] :=
            getLines_line hnewline []
          simpa [fileText, getLines] using hfirst
        rw [hlines]
        rfl
      | false =>
        have hlines : getLines [] (fileText false [line]) = if line.text = [] then [] else [line.text] := by
          have hlast : getLines [] line.text = if [] ++ line.text = [] then [] else [[] ++ line.text] :=
            getLines_end hnewline
          simpa [fileText] using hlast
        rw [hlines]
        split
        · rename_i hempty
          have hnothing : readLine line.text = none := by
            rw [hempty]
            rfl
          simp [hnothing]
        · rfl

/-- What the code reads in a file: the documented settings but for those that a comment follows. -/
theorem readConfig_fileText (ended : Bool) {lines : List ConfigLine} (h : ∀ line ∈ lines, line.Formed) :
    readConfig (fileText ended lines) =
      ((lines.filter fun line => !line.commented).filterMap ConfigLine.documented).foldl LogConfig.add {} := by
  rw [readConfig, filterMap_getLines ended h]
  refine congrArg (List.foldl LogConfig.add {}) ?_
  clear ended
  induction lines with
  | nil => rfl
  | cons line rest ih =>
    obtain ⟨hline, hrest⟩ := List.forall_mem_cons.mp h
    have hread := readLine_text hline
    by_cases hcommented : line.commented = true
    · rw [if_pos hcommented] at hread
      rw [List.map_cons, List.filterMap_cons_none hread, List.filter_cons_of_neg (by simp [hcommented]), ih hrest]
    · rw [if_neg hcommented] at hread
      rw [List.map_cons, List.filter_cons_of_pos (by simp [hcommented])]
      rw [List.filterMap_cons, hread, ih hrest, List.filterMap_cons]

end Lines

section Settings
variable {settings : List (String × ELogLevel)} {name key : String} {level : ELogLevel}

theorem lastFor_concat (key : String) (settings : List (String × ELogLevel)) (entry : String × ELogLevel) :
    lastFor key (settings ++ [entry]) = if entry.1 = key then some entry.2 else lastFor key settings := by
  rw [lastFor, List.filter_append]
  by_cases hkey : entry.1 = key
  · simp [hkey]
  · simp [hkey, lastFor]

/-- The two stages of LoadConfig: the last default, and the other settings in their order. -/
theorem foldl_add (settings : List (String × ELogLevel)) :
    (settings.foldl LogConfig.add {}).defaultLevel = lastFor "default" settings ∧
      (settings.foldl LogConfig.add {}).channelOverrides = settings.filter fun entry => entry.1 ≠ "default" := by
  induction settings using List.reverseRecOn with
  | nil => exact ⟨rfl, rfl⟩
  | append_singleton settings entry ih =>
    obtain ⟨hdefault, hoverrides⟩ := ih
    rw [List.foldl_append, lastFor_concat, List.filter_append]
    simp only [List.foldl_cons, List.foldl_nil, LogConfig.add]
    by_cases hkey : entry.1 = "default"
    · simp [hkey, hoverrides]
    · simp [hkey, hoverrides, hdefault]

/-- Where no other key has the hash of a name, the last override for the name counts. -/
theorem overridden_lastFor {hash : String → UInt64} (level : ELogLevel)
    (hdistinct : ∀ entry ∈ settings, hash entry.1 = hash name → entry.1 = name) :
    overridden hash name settings level = (lastFor name settings).getD level := by
  induction settings using List.reverseRecOn with
  | nil => rfl
  | append_singleton settings entry ih =>
    have hbefore := ih fun e he => hdistinct e (List.mem_append_left _ he)
    rw [overridden, List.foldl_append, lastFor_concat]
    rw [overridden] at hbefore
    simp only [List.foldl_cons, List.foldl_nil, hbefore]
    by_cases hname : entry.1 = name
    · simp [hname]
    · have hhash : hash entry.1 ≠ hash name :=
        fun heq => hname (hdistinct entry (List.mem_append_right _ List.mem_cons_self) heq)
      simp [hname, hhash]

/-- A channel's level after the two stages, whatever the order of the settings. -/
theorem level_foldl_add {hash : String → UInt64} (c : CLog)
    (hdistinct : ∀ entry ∈ settings, hash entry.1 = hash c.name → entry.1 = c.name) :
    (settings.foldl LogConfig.add {}).level hash c = documentedMask settings c.name c.levelMask := by
  obtain ⟨hdefault, hoverrides⟩ := foldl_add settings
  have hkept : ∀ entry ∈ settings.filter (fun entry => entry.1 ≠ "default"),
      hash entry.1 = hash c.name → entry.1 = c.name :=
    fun entry hentry => hdistinct entry (List.mem_filter.mp hentry).1
  rw [LogConfig.level, hdefault, hoverrides, overridden_lastFor _ hkept, documentedMask]
  by_cases hname : c.name = "default"
  · have hnone : lastFor "default" (settings.filter fun entry => entry.1 ≠ "default") = none := by
      simp [lastFor]
    rw [hname, hnone]
    cases lastFor "default" settings with
    | none => rfl
    | some level => rfl
  · have hsame : lastFor c.name (settings.filter fun entry => entry.1 ≠ "default") = lastFor c.name settings := by
      rw [lastFor, lastFor, List.filter_filter]
      refine congrArg _ (congrArg _ (List.filter_congr fun entry _ => ?_))
      by_cases hentry : entry.1 = c.name
      · simp [hentry, hname]
      · simp [hentry]
    rw [hsame]

end Settings

/-- The configuration is read as documented exactly if leaving out the settings with
a comment behind them changes no registered channel's level. -/
theorem loadConfig_documented_iff {hash : String → UInt64} {calls : List LogCall} {os : List (List LogSeen)}
    {s : CLogSystem} (hrun : (logSystem hash).run {} calls = some (s, os)) (ended : Bool)
    {lines : List ConfigLine} (hformed : ∀ line ∈ lines, line.Formed)
    (hdistinct : ∀ log c, s.Has hash log c → ∀ entry ∈ lines.filterMap ConfigLine.documented,
      hash entry.1 = hash c.name → entry.1 = c.name) :
    (∀ log c, s.Has hash log c → (LoadConfig hash s (some (fileText ended lines))).log? log =
      some { c with levelMask :=
        documentedMask (lines.filterMap ConfigLine.documented) c.name c.levelMask }) ↔
    ∀ log c, s.Has hash log c →
      documentedMask ((lines.filter fun line => !line.commented).filterMap ConfigLine.documented)
          c.name c.levelMask =
        documentedMask (lines.filterMap ConfigLine.documented) c.name c.levelMask := by
  have hindexed := (run_named hrun).1
  refine forall₃_congr fun log c hhas => ?_
  have hread : (LoadConfig hash s (some (fileText ended lines))).log? log = some { c with
      levelMask := documentedMask ((lines.filter fun line => !line.commented).filterMap ConfigLine.documented)
        c.name c.levelMask } := by
    rw [LoadConfig, readConfig_fileText ended hformed, applyConfig_log hindexed hhas.1 hhas.2, level_foldl_add]
    intro entry hentry
    refine hdistinct log c hhas entry ?_
    obtain ⟨line, hline, hsome⟩ := List.mem_filterMap.mp hentry
    exact List.mem_filterMap.mpr ⟨line, (List.mem_filter.mp hline).1, hsome⟩
  rw [hread, Option.some.injEq, CLog.mk.injEq]
  simp

section Files

theorem bare_word {word : List Char} {c d : Char} (hfirst : word.head? = some c) (hlast : word.getLast? = some d)
    (hc : isBlank c = false) (hd : isBlank d = false) : Bare isBlank word := by
  constructor
  · rw [hfirst]
    simpa using hc
  · rw [hlast]
    simpa using hd

theorem allBlank_replicate (n : Nat) : ConfigLine.AllBlank (List.replicate n ' ') := by
  intro c hc
  rw [List.eq_of_mem_replicate hc]
  rfl

/-- A channel's level and, after it, the one for all channels. -/
def plainConfig : List ConfigLine :=
  [.setting [] "Core".toList [' '] ['\t'] "ew".toList [' '] none,
    .setting [' '] "default".toList [] [] "e".toList [] none]

theorem plainConfig_formed : ∀ line ∈ plainConfig, line.Formed := by
  have hspace := allBlank_replicate 1
  have htab : ConfigLine.AllBlank ['\t'] := by
    intro c hc
    rw [List.mem_singleton.mp hc]
    rfl
  refine List.forall_mem_cons.mpr ⟨⟨⟨nofun, hspace, htab, hspace⟩, ?_, ?_, nofun⟩,
    List.forall_mem_cons.mpr ⟨⟨⟨hspace, nofun, nofun, nofun⟩, ?_, ?_, nofun⟩, nofun⟩⟩
  · exact ⟨by decide, bare_word (c := 'C') (d := 'e') rfl rfl rfl rfl, by decide, by decide, by decide⟩
  · exact ⟨bare_word (c := 'e') (d := 'w') rfl rfl rfl rfl, by decide, by decide⟩
  · exact ⟨by decide, bare_word (c := 'd') (d := 't') rfl rfl rfl rfl, by decide, by decide, by decide⟩
  · exact ⟨bare_word (c := 'e') (d := 'e') rfl rfl rfl rfl, by decide, by decide⟩

theorem loadConfig_documented_plain : ∃ s os,
    (logSystem lengthHash).run {} [.construct "Core", .construct "Editor"] = some (s, os) ∧
    ∀ log c, s.Has lengthHash log c →
      (LoadConfig lengthHash s (some (fileText false plainConfig))).log? log = some { c with
        levelMask := documentedMask (plainConfig.filterMap ConfigLine.documented) c.name c.levelMask } := by
  have hrun : (logSystem lengthHash).run {} [.construct "Core", .construct "Editor"] =
      some ({ loggers := [(4, 0), (6, 1)], logs := [some { name := "Core" }, some { name := "Editor" }] },
        [[], []]) := by decide +kernel
  refine ⟨_, _, hrun, (loadConfig_documented_iff hrun false plainConfig_formed ?_).mpr fun _ _ _ => rfl⟩
  rintro log c ⟨hlog, hentry⟩ entry hmem hhash
  have hsettings : plainConfig.filterMap ConfigLine.documented = [("Core", ⟨3⟩), ("default", .Error)] := by decide
  have hids : (lengthHash c.name = 4 ∧ log = 0) ∨ (lengthHash c.name = 6 ∧ log = 1) := by simpa using hentry
  rw [hsettings] at hmem
  rcases List.mem_cons.mp hmem with rfl | hmem
  · rcases hids with ⟨_, rfl⟩ | ⟨hid, _⟩
    · exact congrArg CLog.name (Option.some.inj hlog)
    · exact absurd (hhash.trans hid) (by decide)
  · obtain rfl := List.mem_singleton.mp hmem
    rcases hids with ⟨hid, _⟩ | ⟨hid, _⟩
    · exact absurd (hhash.trans hid) (by decide)
    · exact absurd (hhash.trans hid) (by decide)

/-- The README's own file. -/
def readmeConfig : List ConfigLine :=
  [.comment [] " configs/logging.cfg".toList,
    .setting [] "default".toList (List.replicate 3 ' ') (List.replicate 1 ' ') "a".toList (List.replicate 10 ' ')
      (some " All channels: all levels (e=error, w=warning, i=info, a=all, n=none)".toList),
    .setting [] "MySystem".toList (List.replicate 2 ' ') (List.replicate 1 ' ') "ew".toList
      (List.replicate 9 ' ') (some " MySystem: errors and warnings only".toList)]

theorem readmeConfig_formed : ∀ line ∈ readmeConfig, line.Formed := by
  have hspaces := allBlank_replicate
  refine List.forall_mem_cons.mpr ⟨⟨nofun, by decide⟩,
    List.forall_mem_cons.mpr ⟨⟨⟨nofun, hspaces 3, hspaces 1, hspaces 10⟩, ?_, ?_, ?_⟩,
      List.forall_mem_cons.mpr ⟨⟨⟨nofun, hspaces 2, hspaces 1, hspaces 9⟩, ?_, ?_, ?_⟩, nofun⟩⟩⟩
  · exact ⟨by decide, bare_word (c := 'd') (d := 't') rfl rfl rfl rfl, by decide, by decide, by decide⟩
  · exact ⟨bare_word (c := 'a') (d := 'a') rfl rfl rfl rfl, by decide, by decide⟩
  · rintro text ⟨⟩
    exact ⟨by decide, by decide +kernel⟩
  · exact ⟨by decide, bare_word (c := 'M') (d := 'm') rfl rfl rfl rfl, by decide, by decide, by decide⟩
  · exact ⟨bare_word (c := 'e') (d := 'w') rfl rfl rfl rfl, by decide, by decide⟩
  · rintro text ⟨⟩
    exact ⟨by decide, by decide +kernel⟩

/-- It leaves all levels to MySystem, for which it documents errors and warnings. -/
theorem loadConfig_readme : ∃ s os, (logSystem lengthHash).run {} [.construct "MySystem"] = some (s, os) ∧
    (∀ line ∈ readmeConfig, line.Formed) ∧ s.Has lengthHash 0 { name := "MySystem" } ∧
    documentedMask (readmeConfig.filterMap ConfigLine.documented) "MySystem" .All = .Error ||| .Warning ∧
    (LoadConfig lengthHash s (some (fileText true readmeConfig))).log? 0 =
      some { name := "MySystem", levelMask := .All } := by
  have hrun : (logSystem lengthHash).run {} [.construct "MySystem"] =
      some ({ loggers := [(8, 0)], logs := [some { name := "MySystem" }] }, [[]]) := by decide +kernel
  exact ⟨_, _, hrun, readmeConfig_formed, ⟨rfl, List.mem_cons_self⟩, by decide +kernel, by decide +kernel⟩

end Files

end TgeCore.Logging
