import Mathlib.Data.List.Induction

namespace TgeCore.Process

def CharactersToQuote : List Char := [' ', '\t', '\n', '\x0b', '"']

/-- The body of AppendArgument's loop, on the command line and the run of backslashes. -/
def quoteCharacter (s : List Char × Nat) (character : Char) : List Char × Nat :=
  if character = '\\' then (s.1, s.2 + 1)
  else if character = '"' then (s.1 ++ List.replicate (s.2 * 2 + 1) '\\' ++ ['"'], 0)
  else (s.1 ++ List.replicate s.2 '\\' ++ [character], 0)

/-- Decided along the argument, not over all characters there are. -/
instance (argument : List Char) : Decidable (∀ character ∈ argument, character ∉ CharactersToQuote) :=
  List.decidableBAll (· ∉ CharactersToQuote) argument

def appendArgument (commandLine argument : List Char) : List Char :=
  if argument ≠ [] ∧ ∀ character ∈ argument, character ∉ CharactersToQuote then commandLine ++ argument
  else
    let s := argument.foldl quoteCharacter (commandLine ++ ['"'], 0)
    s.1 ++ List.replicate (s.2 * 2) '\\' ++ ['"']

def buildCommandLine (program : List Char) (arguments : List (List Char)) : List Char :=
  arguments.foldl (fun commandLine argument => appendArgument (commandLine ++ [' ']) argument)
    ('"' :: program ++ ['"'])

section Runtime

/-- How far the C runtime is in splitting a command line. Between two arguments it
holds no current one, and a run of backslashes is kept until what follows is known. -/
structure Splitter where
  arguments : List (List Char) := []
  current : Option (List Char) := none
  inQuotes : Bool := false
  numBackslashes : Nat := 0
deriving DecidableEq

/-- The arguments if the text ends here. -/
def Splitter.finish (s : Splitter) : List (List Char) :=
  match s.current with
  | none => s.arguments
  | some current => s.arguments ++ [current ++ List.replicate s.numBackslashes '\\']

/-- The runtime's rules: a run of 2n backslashes before a quote is n of them and the
quote is a delimiter, one of 2n+1 is n of them and a literal quote, and any other one is
literal; blanks outside quotes end an argument. -/
def Splitter.step (s : Splitter) (character : Char) : Splitter :=
  let current := s.current.getD []
  if character = '\\' then
    { s with current := some current, numBackslashes := s.numBackslashes + 1 }
  else if character = '"' then
    let halved := current ++ List.replicate (s.numBackslashes / 2) '\\'
    if s.numBackslashes % 2 = 0 then
      { s with current := some halved, inQuotes := !s.inQuotes, numBackslashes := 0 }
    else { s with current := some (halved ++ ['"']), numBackslashes := 0 }
  else if (character = ' ' ∨ character = '\t') ∧ s.inQuotes = false then { arguments := s.finish }
  else
    { s with
      current := some (current ++ List.replicate s.numBackslashes '\\' ++ [character])
      numBackslashes := 0 }

def Splitter.scan (s : Splitter) (text : List Char) : Splitter := text.foldl step s

/-- A program in quotes goes up to the closing one, another one up to the first blank. -/
def splitCommandLine (text : List Char) : List Char × List (List Char) :=
  match text with
  | '"' :: rest =>
    (rest.takeWhile (· ≠ '"'), (Splitter.scan {} ((rest.dropWhile (· ≠ '"')).drop 1)).finish)
  | text =>
    let isProgram (c : Char) : Bool := c ≠ ' ' ∧ c ≠ '\t'
    (text.takeWhile isProgram, (Splitter.scan {} (text.dropWhile isProgram)).finish)

end Runtime

section Text
variable {argument : List Char} {done : List (List Char)} {current : List Char} {c : Char} {s : Splitter}

/-- What an argument adds to any command line. -/
def argumentText (argument : List Char) : List Char := appendArgument [] argument

theorem quoteCharacter_append (line : List Char) (s : List Char × Nat) (c : Char) :
    quoteCharacter (line ++ s.1, s.2) c =
      (line ++ (quoteCharacter s c).1, (quoteCharacter s c).2) := by
  unfold quoteCharacter
  split
  · rfl
  · split
    · simp
    · simp

theorem foldl_quoteCharacter_append (line argument : List Char) (s : List Char × Nat) :
    argument.foldl quoteCharacter (line ++ s.1, s.2) =
      (line ++ (argument.foldl quoteCharacter s).1, (argument.foldl quoteCharacter s).2) := by
  induction argument generalizing s with
  | nil => rfl
  | cons c argument ih => rw [List.foldl_cons, List.foldl_cons, quoteCharacter_append, ih]

theorem appendArgument_eq (line argument : List Char) :
    appendArgument line argument = line ++ argumentText argument := by
  unfold argumentText appendArgument
  split
  · simp
  · simp [foldl_quoteCharacter_append line argument (['"'], 0)]

/-- Whatever is plain goes as it is. -/
theorem argumentText_plain (hne : argument ≠ []) (hplain : ∀ c ∈ argument, c ∉ CharactersToQuote) :
    argumentText argument = argument := by
  rw [argumentText, appendArgument, if_pos ⟨hne, hplain⟩, List.nil_append]

theorem Splitter.scan_append (s : Splitter) (text rest : List Char) :
    s.scan (text ++ rest) = (s.scan text).scan rest := List.foldl_append

@[simp] theorem Splitter.scan_singleton (s : Splitter) (c : Char) : s.scan [c] = s.step c := rfl

theorem Splitter.scan_backslashes (s : Splitter) (current : List Char) (k n : Nat)
    (hs : s.current = some current) (hk : s.numBackslashes = k) :
    s.scan (List.replicate n '\\') = { s with numBackslashes := k + n } := by
  induction n generalizing s k with
  | zero => simp [scan, ← hk]
  | succ n ih =>
    have hstep : s.step '\\' = { s with numBackslashes := k + 1 } := by simp [step, hs, hk]
    rw [List.replicate_succ, scan, List.foldl_cons, hstep]
    have hrest := ih { s with numBackslashes := k + 1 } (k + 1) hs rfl
    rw [scan] at hrest
    rw [hrest]
    simp only [Nat.add_assoc, Nat.add_comm 1 n]

/-- A blank outside quotes ends what there is. -/
theorem Splitter.step_blank (hs : s.inQuotes = false) : s.step ' ' = { arguments := s.finish } := by
  simp [step, hs]

/-- Inside quotes the runtime has got what AppendArgument has put out so far. What is
missing of the argument are the backslashes that both of them still count. -/
theorem scan_quoted (done : List (List Char)) (argument : List Char) : ∃ current,
    Splitter.scan ⟨done, some [], true, 0⟩ (argument.foldl quoteCharacter ([], 0)).1 =
      ⟨done, some current, true, 0⟩ ∧
    current ++ List.replicate (argument.foldl quoteCharacter ([], 0)).2 '\\' = argument := by
  induction argument using List.reverseRecOn with
  | nil => exact ⟨[], rfl, rfl⟩
  | append_singleton argument c ih =>
    obtain ⟨current, hscan, hargument⟩ := ih
    rw [List.foldl_append, List.foldl_cons, List.foldl_nil]
    generalize argument.foldl quoteCharacter ([], 0) = s at hscan hargument ⊢
    obtain ⟨out, k⟩ := s
    simp only at hscan hargument
    by_cases hbackslash : c = '\\'
    · refine ⟨current, by simpa [quoteCharacter, hbackslash] using hscan, ?_⟩
      simp [quoteCharacter, hbackslash, ← hargument, List.replicate_succ']
    by_cases hquote : c = '"'
    · refine ⟨current ++ List.replicate k '\\' ++ ['"'], ?_, by simp [quoteCharacter, hquote, ← hargument]⟩
      have hhalf : (2 * k + 1) / 2 = k := by omega
      simp only [quoteCharacter, hquote, reduceIte, Char.reduceEq, Splitter.scan_append, hscan]
      rw [Splitter.scan_backslashes _ current 0 _ rfl rfl]
      simp [Splitter.step, Nat.mul_comm k 2, hhalf]
    · refine ⟨current ++ List.replicate k '\\' ++ [c], ?_, by simp [quoteCharacter, hbackslash, hquote, ← hargument]⟩
      simp only [quoteCharacter, if_neg hbackslash, if_neg hquote, Splitter.scan_append, hscan]
      rw [Splitter.scan_backslashes _ current 0 _ rfl rfl]
      simp [Splitter.step, hbackslash, hquote]

/-- Outside quotes the runtime keeps what has nothing to quote. -/
theorem scan_plain (done : List (List Char)) (hne : argument ≠ [])
    (hplain : ∀ c ∈ argument, c ∉ CharactersToQuote) : ∃ current k,
    Splitter.scan { arguments := done } argument = ⟨done, some current, false, k⟩ ∧
      current ++ List.replicate k '\\' = argument := by
  induction argument using List.reverseRecOn with
  | nil => exact absurd rfl hne
  | append_singleton argument c ih =>
    have hc := hplain c (by simp)
    have hquote : c ≠ '"' := by
      rintro rfl
      exact hc (by decide)
    have hblank : ¬ (c = ' ' ∨ c = '\t') := by
      rintro (rfl | rfl)
      · exact hc (by decide)
      · exact hc (by decide)
    -- The splitter before the last character, which may be the only one.
    have hbefore : ∃ s : Splitter, Splitter.scan { arguments := done } argument = s ∧ s.arguments = done ∧
        s.inQuotes = false ∧ s.current.getD [] ++ List.replicate s.numBackslashes '\\' = argument := by
      by_cases hempty : argument = []
      · subst hempty
        exact ⟨_, rfl, rfl, rfl, rfl⟩
      · obtain ⟨current, k, hscan, hargument⟩ := ih hempty fun d hd => hplain d (by simp [hd])
        exact ⟨_, hscan, rfl, rfl, hargument⟩
    obtain ⟨s, hscan, hdone, hopen, hargument⟩ := hbefore
    rw [Splitter.scan_append, hscan, Splitter.scan_singleton]
    by_cases hbackslash : c = '\\'
    · refine ⟨s.current.getD [], s.numBackslashes + 1, ?_, ?_⟩
      · simp [Splitter.step, hbackslash, hdone, hopen]
      · simp [hbackslash, ← hargument, List.replicate_succ']
    · refine ⟨s.current.getD [] ++ List.replicate s.numBackslashes '\\' ++ [c], 0, ?_, ?_⟩
      · simp [Splitter.step, hbackslash, hquote, hblank, hdone, hopen]
      · simp [hargument]

/-- However an argument is put out, the runtime reads it back. -/
theorem scan_argumentText (done : List (List Char)) (argument : List Char) :
    (Splitter.scan { arguments := done } (argumentText argument)).inQuotes = false ∧
    (Splitter.scan { arguments := done } (argumentText argument)).finish = done ++ [argument] := by
  by_cases hplain : argument ≠ [] ∧ ∀ c ∈ argument, c ∉ CharactersToQuote
  · obtain ⟨current, k, hscan, hargument⟩ := scan_plain done hplain.1 hplain.2
    rw [argumentText_plain hplain.1 hplain.2, hscan]
    exact ⟨rfl, by simp [Splitter.finish, hargument]⟩
  · obtain ⟨current, hscan, hargument⟩ := scan_quoted done argument
    have htext : argumentText argument = ['"'] ++ (argument.foldl quoteCharacter ([], 0)).1 ++
        List.replicate ((argument.foldl quoteCharacter ([], 0)).2 * 2) '\\' ++ ['"'] := by
      have happend := foldl_quoteCharacter_append ['"'] argument ([], 0)
      rw [List.append_nil] at happend
      rw [argumentText, appendArgument, if_neg hplain, List.nil_append, happend]
    have hopen : Splitter.scan { arguments := done } ['"'] = ⟨done, some [], true, 0⟩ := by
      simp [Splitter.step]
    have hclosed : Splitter.scan { arguments := done } (argumentText argument) =
        ⟨done, some argument, false, 0⟩ := by
      rw [htext, Splitter.scan_append, Splitter.scan_append, Splitter.scan_append, hopen, hscan,
        Splitter.scan_backslashes _ current 0 _ rfl rfl]
      simp [Splitter.step, hargument]
    rw [hclosed]
    exact ⟨rfl, by simp [Splitter.finish]⟩

/-- Everything behind the program. -/
def argumentsText (arguments : List (List Char)) : List Char :=
  (arguments.map fun argument => ' ' :: argumentText argument).flatten

theorem buildCommandLine_eq (program : List Char) (arguments : List (List Char)) :
    buildCommandLine program arguments = '"' :: program ++ '"' :: argumentsText arguments := by
  have hfold : ∀ line, arguments.foldl (fun commandLine argument =>
      appendArgument (commandLine ++ [' ']) argument) line = line ++ argumentsText arguments := by
    induction arguments with
    | nil => simp [argumentsText]
    | cons argument arguments ih =>
      intro line
      rw [List.foldl_cons, ih, appendArgument_eq]
      simp [argumentsText]
  rw [buildCommandLine, hfold]
  simp

theorem scan_argumentsText (s : Splitter) (arguments : List (List Char)) (hs : s.inQuotes = false) :
    (s.scan (argumentsText arguments)).finish = s.finish ++ arguments := by
  induction arguments generalizing s with
  | nil => simp [argumentsText, Splitter.scan]
  | cons argument arguments ih =>
    obtain ⟨hopen, hfinish⟩ := scan_argumentText s.finish argument
    have htext : argumentsText (argument :: arguments) =
        [' '] ++ argumentText argument ++ argumentsText arguments := by simp [argumentsText]
    rw [htext, Splitter.scan_append, Splitter.scan_append, Splitter.scan_singleton, Splitter.step_blank hs,
      ih _ hopen, hfinish]
    simp

end Text

/-- The runtime gets back the program and the arguments, and an argument without white
space and quotes stands in the command line as it is. -/
theorem buildCommandLine_splits {program : List Char} (hprogram : '"' ∉ program)
    (arguments : List (List Char)) :
    splitCommandLine (buildCommandLine program arguments) = (program, arguments) ∧
    ∀ before argument after, arguments = before ++ argument :: after → argument ≠ [] →
      (∀ c ∈ argument, c ∉ [' ', '\t', '\n', '\x0b', '\x0c', '\r', '"']) →
      ∃ rest, buildCommandLine program arguments = buildCommandLine program before ++ ' ' :: argument ++ rest ∧
        (rest = [] ∨ rest.head? = some ' ') := by
  constructor
  · have hall : ∀ c ∈ program, c ≠ '"' := fun c hc heq => hprogram (heq ▸ hc)
    have hscan : (Splitter.scan {} (argumentsText arguments)).finish = arguments :=
      scan_argumentsText {} arguments rfl
    rw [buildCommandLine_eq]
    simp only [splitCommandLine, List.cons_append]
    rw [List.takeWhile_append_of_pos (by simpa using hall), List.dropWhile_append_of_pos (by simpa using hall)]
    simp [hscan]
  · intro before argument after harguments hne hplain
    have hplain' : ∀ c ∈ argument, c ∉ CharactersToQuote := by
      intro c hc hquoted
      refine hplain c hc ?_
      simp only [CharactersToQuote, List.mem_cons, List.not_mem_nil, or_false] at hquoted ⊢
      tauto
    refine ⟨argumentsText after, ?_, ?_⟩
    · rw [harguments, buildCommandLine_eq, buildCommandLine_eq]
      simp [argumentsText, argumentText_plain hne hplain']
    · cases after with
      | nil => exact .inl rfl
      | cons next rest => exact .inr rfl

theorem buildCommandLine_splits_quoted :
    splitCommandLine (buildCommandLine "a b".toList ["c\\\"".toList, [], "d\\".toList]) =
      ("a b".toList, ["c\\\"".toList, [], "d\\".toList]) :=
  (buildCommandLine_splits (by decide) _).1

end TgeCore.Process
