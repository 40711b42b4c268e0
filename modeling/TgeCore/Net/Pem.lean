import Mathlib.Tactic.IntervalCases
import TgeCore.Library.Text

namespace TgeCore.Net
open Library.Text

def BeginMarker : List Char := "-----BEGIN CERTIFICATE-----".toList
def EndMarker : List Char := "-----END CERTIFICATE-----".toList
def DerSequenceTag : Nat := 0x30
def NotBase64 : UInt32 := 0xFFFFFFFF

def toSextet (character : Char) : UInt32 :=
  if 'A' ≤ character ∧ character ≤ 'Z' then UInt32.ofNat (character.toNat - 'A'.toNat)
  else if 'a' ≤ character ∧ character ≤ 'z' then UInt32.ofNat (character.toNat - 'a'.toNat) + 26
  else if '0' ≤ character ∧ character ≤ '9' then UInt32.ofNat (character.toNat - '0'.toNat) + 52
  else if character = '+' then 62
  else if character = '/' then 63
  else NotBase64

def isSpace (character : Char) : Bool :=
  character = ' ' ∨ character = '\t' ∨ character = '\r' ∨ character = '\n'

/-- The variables of DecodeBase64. -/
structure Base64Loop where
  bytes : List UInt8 := []
  accumulated : UInt32 := 0
  numBits : UInt32 := 0
  hasPadding : Bool := false
  isValid : Bool := true
deriving DecidableEq

def Base64Loop.addSextet (s : Base64Loop) (sextet : UInt32) : Base64Loop :=
  let accumulated := ((s.accumulated <<< 6) ||| sextet) &&& 0xFFFF
  let numBits := s.numBits + 6
  if numBits ≥ 8 then
    { s with
      bytes := s.bytes ++ [((accumulated >>> (numBits - 8)) &&& 0xFF).toUInt8]
      accumulated := accumulated
      numBits := numBits - 8 }
  else { s with accumulated := accumulated, numBits := numBits }

def Base64Loop.step (s : Base64Loop) (character : Char) : Base64Loop :=
  if character = '=' then { s with hasPadding := true }
  else if isSpace character then s
  else
    let sextet := toSextet character
    let isValid := !s.hasPadding && sextet != NotBase64
    if isValid then s.addSextet sextet else { s with isValid := false }

def Base64Loop.run (s : Base64Loop) : List Char → Base64Loop
  | [] => s
  | character :: text => if s.isValid then (s.step character).run text else s

def decodeBase64 (text : List Char) : Option (List UInt8) :=
  let s := Base64Loop.run {} text
  if s.isValid then some s.bytes else none

set_option linter.unusedVariables false in
/-- The loop over the blocks from the marker at `start` on. -/
def decodeBlocks (content : List Char) (certificates : List (List UInt8)) (start : Nat) : List (List UInt8) :=
  let bodyStart := start + BeginMarker.length
  match hend : findFrom EndMarker content bodyStart with
  | none => certificates
  | some stop =>
    let certificates :=
      match decodeBase64 ((content.drop bodyStart).take (stop - bodyStart)) with
      | some decoded => if decoded.isEmpty then certificates else certificates ++ [decoded]
      | none => certificates
    match hbegin : findFrom BeginMarker content (stop + EndMarker.length) with
    | none => certificates
    | some next => decodeBlocks content certificates next
termination_by content.length - start
decreasing_by
  have hstop := (findFrom_bounds hend).1
  have hnext := findFrom_bounds hbegin
  have hlength := hnext.2 (by decide)
  have hpositive : 0 < BeginMarker.length := by decide
  omega

def decodeCertificates (content : List Char) : List (List UInt8) :=
  match findFrom BeginMarker content 0 with
  | some start => decodeBlocks content [] start
  | none =>
    match content with
    | [] => []
    | first :: _ =>
      if first.toNat = DerSequenceTag then [content.map fun character => UInt8.ofNat character.toNat] else []

section Base64

/-- The base64 alphabet, in the order of its sextets. -/
def Alphabet : List Char := "ABCDEFGHIJKLMNOPQRSTUVWXYZabcdefghijklmnopqrstuvwxyz0123456789+/".toList

def fromSextet (n : Nat) : Char := Alphabet.getD n '='

/-- Three bytes are four sextets; what is missing of the last three is padding. -/
def encodeBase64 : List UInt8 → List Char
  | [] => []
  | [a] => [fromSextet (a.toNat / 4), fromSextet (a.toNat % 4 * 16), '=', '=']
  | [a, b] =>
    [fromSextet (a.toNat / 4), fromSextet (a.toNat % 4 * 16 + b.toNat / 16), fromSextet (b.toNat % 16 * 4), '=']
  | a :: b :: c :: rest =>
    [fromSextet (a.toNat / 4), fromSextet (a.toNat % 4 * 16 + b.toNat / 16),
      fromSextet (b.toNat % 16 * 4 + c.toNat / 64), fromSextet (c.toNat % 64)] ++ encodeBase64 rest

variable {s : Base64Loop} {n bits kept : Nat} {text body : List Char} {bytes : List UInt8}

theorem fromSextet_facts : ∀ n < 64, (toSextet (fromSextet n)).toNat = n ∧ fromSextet n ≠ '=' ∧
    isSpace (fromSextet n) = false ∧ fromSextet n ≠ '-' := by decide +kernel

/-- A valid state that still takes sextets, and the value of the bits it keeps. -/
structure Base64Loop.Open (s : Base64Loop) (bits kept : Nat) : Prop where
  isValid : s.isValid = true
  hasPadding : s.hasPadding = false
  numBits : s.numBits.toNat = bits
  few : bits < 8
  accumulated : s.accumulated.toNat % 2 ^ bits = kept

theorem addSextet_accumulated (acc sextet : UInt32) (hsextet : sextet.toNat < 64) :
    (((acc <<< 6) ||| sextet) &&& 0xFFFF).toNat = (acc.toNat * 64 + sextet.toNat) % 2 ^ 16 := by
  have hshift : (acc <<< 6).toNat = (acc.toNat % 2 ^ 26) <<< 6 := by
    rw [UInt32.toNat_shiftLeft, show (6 : UInt32).toNat % 32 = 6 from rfl, Nat.shiftLeft_eq, Nat.shiftLeft_eq]
    omega
  rw [UInt32.toNat_and, UInt32.toNat_or, hshift, ← Nat.shiftLeft_add_eq_or_of_lt hsextet,
    show (0xFFFF : UInt32).toNat = 2 ^ 16 - 1 from rfl, Nat.and_two_pow_sub_one_eq_mod, Nat.shiftLeft_eq]
  omega

theorem Base64Loop.Open.step_sextet (h : s.Open bits kept) (hn : n < 64) :
    s.step (fromSextet n) = s.addSextet (toSextet (fromSextet n)) := by
  obtain ⟨hvalue, hpadding, hspace, -⟩ := fromSextet_facts n hn
  have hbase64 : toSextet (fromSextet n) ≠ NotBase64 := by
    intro heq
    rw [heq, show NotBase64.toNat = 2 ^ 32 - 1 from rfl] at hvalue
    omega
  simp [Base64Loop.step, hpadding, hspace, h.hasPadding, hbase64]

/-- A sextet on its own gives no byte yet. -/
theorem Base64Loop.Open.store (h : s.Open 0 kept) (hn : n < 64) :
    (s.step (fromSextet n)).Open 6 n ∧ (s.step (fromSextet n)).bytes = s.bytes := by
  have hvalue := (fromSextet_facts n hn).1
  have hacc := addSextet_accumulated s.accumulated (toSextet (fromSextet n)) (by rwa [hvalue])
  have hbits : (s.numBits + 6).toNat = 6 := by
    rw [UInt32.toNat_add, h.numBits]
    rfl
  have hfew : ¬ s.numBits + 6 ≥ 8 := by
    rw [ge_iff_le, UInt32.le_iff_toNat_le, hbits]
    decide
  rw [h.step_sextet hn, Base64Loop.addSextet, if_neg hfew]
  refine ⟨⟨h.isValid, h.hasPadding, hbits, by decide, ?_⟩, rfl⟩
  rw [hacc, hvalue]
  omega

/-- A sextet that completes a byte. -/
theorem Base64Loop.Open.emit (h : s.Open (bits + 2) kept) (hn : n < 64) :
    (s.step (fromSextet n)).Open bits ((kept * 64 + n) % 2 ^ bits) ∧
    (s.step (fromSextet n)).bytes = s.bytes ++ [UInt8.ofNat ((kept * 64 + n) / 2 ^ bits)] := by
  have hvalue := (fromSextet_facts n hn).1
  have hacc := addSextet_accumulated s.accumulated (toSextet (fromSextet n)) (by rwa [hvalue])
  have hfew := h.few
  have hkept := h.accumulated
  have hsum : (s.numBits + 6).toNat = bits + 8 := by
    rw [UInt32.toNat_add, h.numBits, show (6 : UInt32).toNat = 6 from rfl]
    omega
  have hmany : s.numBits + 6 ≥ 8 := by
    rw [ge_iff_le, UInt32.le_iff_toNat_le, hsum, show (8 : UInt32).toNat = 8 from rfl]
    omega
  have hleft : (s.numBits + 6 - 8).toNat = bits := by
    rw [UInt32.toNat_sub_of_le _ _ hmany, hsum, show (8 : UInt32).toNat = 8 from rfl]
    omega
  rw [hvalue] at hacc
  rw [h.step_sextet hn, Base64Loop.addSextet, if_pos hmany]
  refine ⟨⟨h.isValid, h.hasPadding, hleft, by omega, ?_⟩, congrArg (s.bytes ++ [·]) ?_⟩
  · rw [hacc, ← hkept]
    have hlt : bits < 6 := by omega
    clear hacc hkept hfew hsum hmany hleft h
    interval_cases bits
    all_goals omega
  · apply UInt8.toNat_inj.mp
    rw [UInt32.toNat_toUInt8, UInt32.toNat_and, UInt32.toNat_shiftRight, hleft, hacc,
      show (0xFF : UInt32).toNat = 2 ^ 8 - 1 from rfl, Nat.and_two_pow_sub_one_eq_mod, UInt8.toNat_ofNat',
      Nat.shiftRight_eq_div_pow, ← hkept, Nat.mod_eq_of_lt (by omega : bits < 32)]
    have hlt : bits < 6 := by omega
    clear hacc hkept hfew hsum hmany hleft h
    interval_cases bits
    all_goals omega

/-- White space changes nothing. -/
theorem run_filter (s : Base64Loop) (text : List Char) :
    s.run text = s.run (text.filter fun c => !isSpace c) := by
  induction text generalizing s with
  | nil => rfl
  | cons c text ih =>
    by_cases hspace : isSpace c = true
    · have hc : c ≠ '=' := by
        rintro rfl
        cases hspace
      have hstep : s.step c = s := by simp [Base64Loop.step, hc, hspace]
      rw [Base64Loop.run, List.filter_cons_of_neg (by simpa using hspace), hstep]
      split
      · exact ih s
      · rename_i hvalid
        cases text.filter fun c => !isSpace c with
        | nil => rfl
        | cons d rest => rw [Base64Loop.run, if_neg hvalid]
    · rw [List.filter_cons_of_pos (by simpa using hspace), Base64Loop.run, Base64Loop.run]
      split
      · exact ih _
      · rfl

theorem run_cons (hs : s.isValid = true) (c : Char) (text : List Char) :
    s.run (c :: text) = (s.step c).run text := by rw [Base64Loop.run, if_pos hs]

/-- The padding adds nothing. -/
theorem run_padding (hs : s.isValid = true) (k : Nat) :
    (s.run (List.replicate k '=')).isValid = true ∧ (s.run (List.replicate k '=')).bytes = s.bytes := by
  induction k generalizing s with
  | zero => exact ⟨hs, rfl⟩
  | succ k ih =>
    rw [List.replicate_succ, run_cons hs]
    exact ih (s := { s with hasPadding := true }) hs

/-- The bytes come out again, whatever the bits before them were. -/
theorem run_encodeBase64 (bytes : List UInt8) (h : s.Open 0 kept) :
    (s.run (encodeBase64 bytes)).isValid = true ∧
      (s.run (encodeBase64 bytes)).bytes = s.bytes ++ bytes := by
  fun_induction encodeBase64 bytes generalizing s kept with
  | case1 => exact ⟨h.isValid, by simp [Base64Loop.run]⟩
  | case2 a =>
    have ha := a.toNat_lt
    obtain ⟨h₁, hb₁⟩ := h.store (n := a.toNat / 4) (by omega)
    obtain ⟨h₂, hb₂⟩ := h₁.emit (n := a.toNat % 4 * 16) (by omega)
    obtain ⟨hvalid, hbytes⟩ := run_padding h₂.isValid 2
    have hbyte : (a.toNat / 4 * 64 + a.toNat % 4 * 16) / 2 ^ 4 = a.toNat := by omega
    rw [run_cons h.isValid, run_cons h₁.isValid]
    refine ⟨hvalid, hbytes.trans ?_⟩
    rw [hb₂, hb₁, hbyte, UInt8.ofNat_toNat]
  | case3 a b =>
    have ha := a.toNat_lt
    have hb := b.toNat_lt
    obtain ⟨h₁, hb₁⟩ := h.store (n := a.toNat / 4) (by omega)
    obtain ⟨h₂, hb₂⟩ := h₁.emit (n := a.toNat % 4 * 16 + b.toNat / 16) (by omega)
    obtain ⟨h₃, hb₃⟩ := h₂.emit (n := b.toNat % 16 * 4) (by omega)
    obtain ⟨hvalid, hbytes⟩ := run_padding h₃.isValid 1
    have hfirst : (a.toNat / 4 * 64 + (a.toNat % 4 * 16 + b.toNat / 16)) / 2 ^ 4 = a.toNat := by omega
    have hsecond : ((a.toNat / 4 * 64 + (a.toNat % 4 * 16 + b.toNat / 16)) % 2 ^ 4 * 64 +
        b.toNat % 16 * 4) / 2 ^ 2 = b.toNat := by omega
    rw [run_cons h.isValid, run_cons h₁.isValid, run_cons h₂.isValid]
    refine ⟨hvalid, hbytes.trans ?_⟩
    rw [hb₃, hb₂, hb₁, hfirst, hsecond, UInt8.ofNat_toNat, UInt8.ofNat_toNat]
    simp
  | case4 a b c rest ih =>
    have ha := a.toNat_lt
    have hb := b.toNat_lt
    have hc := c.toNat_lt
    obtain ⟨h₁, hb₁⟩ := h.store (n := a.toNat / 4) (by omega)
    obtain ⟨h₂, hb₂⟩ := h₁.emit (n := a.toNat % 4 * 16 + b.toNat / 16) (by omega)
    obtain ⟨h₃, hb₃⟩ := h₂.emit (n := b.toNat % 16 * 4 + c.toNat / 64) (by omega)
    obtain ⟨h₄, hb₄⟩ := h₃.emit (n := c.toNat % 64) (by omega)
    obtain ⟨hvalid, hbytes⟩ := ih h₄
    have hfirst : (a.toNat / 4 * 64 + (a.toNat % 4 * 16 + b.toNat / 16)) / 2 ^ 4 = a.toNat := by omega
    have hsecond : ((a.toNat / 4 * 64 + (a.toNat % 4 * 16 + b.toNat / 16)) % 2 ^ 4 * 64 +
        (b.toNat % 16 * 4 + c.toNat / 64)) / 2 ^ 2 = b.toNat := by omega
    have hthird : (((a.toNat / 4 * 64 + (a.toNat % 4 * 16 + b.toNat / 16)) % 2 ^ 4 * 64 +
        (b.toNat % 16 * 4 + c.toNat / 64)) % 2 ^ 2 * 64 + c.toNat % 64) / 2 ^ 0 = c.toNat := by omega
    rw [List.cons_append, List.cons_append, List.cons_append, List.cons_append, List.nil_append,
      run_cons h.isValid, run_cons h₁.isValid, run_cons h₂.isValid, run_cons h₃.isValid]
    refine ⟨hvalid, hbytes.trans ?_⟩
    rw [hb₄, hb₃, hb₂, hb₁, hfirst, hsecond, hthird, UInt8.ofNat_toNat, UInt8.ofNat_toNat, UInt8.ofNat_toNat]
    simp

theorem Base64Loop.Open.initial : ({} : Base64Loop).Open 0 0 := ⟨rfl, rfl, rfl, by decide, rfl⟩

/-- Base64 with white space anywhere in it is decoded. -/
theorem decodeBase64_encoded (h : body.filter (fun c => !isSpace c) = encodeBase64 bytes) :
    decodeBase64 body = some bytes := by
  obtain ⟨hvalid, hbytes⟩ := run_encodeBase64 bytes .initial
  rw [decodeBase64, run_filter, h]
  simp only [hvalid, if_true, hbytes]
  rfl

theorem dash_not_mem_encodeBase64 (bytes : List UInt8) : '-' ∉ encodeBase64 bytes := by
  have hne : ∀ n < 64, '-' ≠ fromSextet n := fun n hn => (fromSextet_facts n hn).2.2.2.symm
  fun_induction encodeBase64 bytes with
  | case1 => simp
  | case2 a =>
    have ha := a.toNat_lt
    simp only [List.mem_cons, List.not_mem_nil, or_false, not_or]
    exact ⟨hne _ (by omega), hne _ (by omega), by decide, by decide⟩
  | case3 a b =>
    have ha := a.toNat_lt
    have hb := b.toNat_lt
    simp only [List.mem_cons, List.not_mem_nil, or_false, not_or]
    exact ⟨hne _ (by omega), hne _ (by omega), hne _ (by omega), by decide⟩
  | case4 a b c rest ih =>
    have ha := a.toNat_lt
    have hb := b.toNat_lt
    have hc := c.toNat_lt
    simp only [List.mem_append, List.mem_cons, List.not_mem_nil, or_false, not_or]
    exact ⟨⟨hne _ (by omega), hne _ (by omega), hne _ (by omega), hne _ (by omega)⟩, ih⟩

end Base64

section Blocks

/-- A block and the text before it. Its body is base64 with white space in it. -/
structure PemBlock where
  before : List Char
  body : List Char
  bytes : List UInt8
  nonempty : bytes ≠ []
  encoded : body.filter (fun c => !isSpace c) = encodeBase64 bytes

/-- The blocks one after the other, and the text behind them. -/
def pemText (blocks : List PemBlock) (after : List Char) : List Char :=
  match blocks with
  | [] => after
  | block :: blocks => block.before ++ (BeginMarker ++ (block.body ++ (EndMarker ++ pemText blocks after)))

/-- No BEGIN marker starts in the text around the blocks, as it stands in the whole. -/
def Quiet (blocks : List PemBlock) (after : List Char) : Prop :=
  match blocks with
  | [] => Free BeginMarker after []
  | block :: blocks =>
    Free BeginMarker block.before (BeginMarker ++ (block.body ++ (EndMarker ++ pemText blocks after))) ∧
      Quiet blocks after

theorem PemBlock.dash_not_mem (block : PemBlock) : '-' ∉ block.body := by
  intro hdash
  apply dash_not_mem_encodeBase64 block.bytes
  rw [← block.encoded]
  exact List.mem_filter.mpr ⟨hdash, by decide⟩

theorem PemBlock.decode (block : PemBlock) : decodeBase64 block.body = some block.bytes :=
  decodeBase64_encoded block.encoded

/-- Where the next block is looked for. -/
theorem find_pemText {blocks : List PemBlock} {after : List Char} (h : Quiet blocks after) :
    find BeginMarker (pemText blocks after) = blocks.head?.map fun block => block.before.length := by
  cases blocks with
  | nil => exact find_none (by decide) h
  | cons block blocks => exact find_free h.1

/-- The certificates after a block with this body. -/
def addDecoded (certificates : List (List UInt8)) (body : List Char) : List (List UInt8) :=
  match decodeBase64 body with
  | some decoded => if decoded.isEmpty then certificates else certificates ++ [decoded]
  | none => certificates

theorem decodeBlocks_eq (content : List Char) (certificates : List (List UInt8)) (start : Nat) :
    decodeBlocks content certificates start =
      (findFrom EndMarker content (start + BeginMarker.length)).elim certificates fun stop =>
        let decoded := addDecoded certificates ((content.drop (start + BeginMarker.length)).take
          (stop - (start + BeginMarker.length)))
        (findFrom BeginMarker content (stop + EndMarker.length)).elim decoded fun next =>
          decodeBlocks content decoded next := by
  rw [decodeBlocks.eq_def]
  dsimp only
  split
  · rename_i hend
    rw [hend, Option.elim_none]
  · rename_i stop hend
    rw [hend, Option.elim_some]
    split
    · rename_i hbegin
      rw [hbegin]
      rfl
    · rename_i next hbegin
      rw [hbegin]
      rfl

/-- What the loop does at a block: it decodes the body and goes on behind the block. -/
theorem decodeBlocks_block {block : PemBlock} {blocks : List PemBlock} {after content : List Char}
    (h : Quiet blocks after) (read : List Char) (certificates : List (List UInt8))
    (hcontent : content = read ++ BeginMarker ++ (block.body ++ (EndMarker ++ pemText blocks after))) :
    decodeBlocks content certificates read.length =
      (blocks.head?.map fun next =>
        (read ++ BeginMarker ++ block.body ++ EndMarker).length + next.before.length).elim
        (certificates ++ [block.bytes]) (decodeBlocks content (certificates ++ [block.bytes])) := by
  have hrest : content = (read ++ BeginMarker ++ block.body ++ EndMarker) ++ pemText blocks after := by
    simp [hcontent]
  have hend : findFrom EndMarker content (read ++ BeginMarker).length =
      some (block.body.length + (read ++ BeginMarker).length) := by
    have hfree : Free EndMarker block.body (EndMarker ++ pemText blocks after) :=
      free_of_not_mem block.dash_not_mem
    rw [hcontent, findFrom_append, find_free hfree, Option.map_some]
  have htext : (content.drop (read ++ BeginMarker).length).take
      (block.body.length + (read ++ BeginMarker).length - (read ++ BeginMarker).length) = block.body := by
    rw [hcontent, List.drop_left, Nat.add_sub_cancel, List.take_left]
  have hadded : addDecoded certificates block.body = certificates ++ [block.bytes] := by
    simp [addDecoded, block.decode, block.nonempty]
  have hbegin : findFrom BeginMarker content (block.body.length + (read ++ BeginMarker).length + EndMarker.length) =
      blocks.head?.map fun next =>
        (read ++ BeginMarker ++ block.body ++ EndMarker).length + next.before.length := by
    have hlength : block.body.length + (read ++ BeginMarker).length + EndMarker.length =
        (read ++ BeginMarker ++ block.body ++ EndMarker).length := by
      simp only [List.length_append]
      omega
    rw [hlength, hrest, findFrom_append, find_pemText h, Option.map_map]
    simp only [Function.comp_def, Nat.add_comm]
  rw [decodeBlocks_eq, ← List.length_append, hend, Option.elim_some, htext, hadded, hbegin]

/-- The loop at a block takes it and all that follow. -/
theorem decodeBlocks_pemText {block : PemBlock} {blocks : List PemBlock} {after content : List Char}
    (h : Quiet (block :: blocks) after) (read : List Char) (certificates : List (List UInt8))
    (hcontent : content = read ++ pemText (block :: blocks) after) :
    decodeBlocks content certificates (read.length + block.before.length) =
      certificates ++ (block :: blocks).map PemBlock.bytes := by
  induction blocks generalizing block read certificates with
  | nil =>
    have hone := decodeBlocks_block h.2 (read ++ block.before) certificates (by simpa [pemText] using hcontent)
    rw [← List.length_append, hone]
    rfl
  | cons next blocks ih =>
    have hone := decodeBlocks_block h.2 (read ++ block.before) certificates (by simpa [pemText] using hcontent)
    rw [← List.length_append, hone]
    have hrest := ih h.2 (read ++ block.before ++ BeginMarker ++ block.body ++ EndMarker)
      (certificates ++ [block.bytes]) (by simpa [pemText] using hcontent)
    simpa using hrest

/-- Any certificates, in base64 with white space in it, are found in any text around them. -/
theorem decodeCertificates_encoded {blocks : List PemBlock} {after : List Char} (hblocks : blocks ≠ [])
    (hquiet : Quiet blocks after) :
    decodeCertificates (pemText blocks after) = blocks.map PemBlock.bytes := by
  cases blocks with
  | nil => exact absurd rfl hblocks
  | cons block blocks =>
    have hfind : findFrom BeginMarker (pemText (block :: blocks) after) 0 = some (0 + block.before.length) := by
      have hmap := findFrom_append BeginMarker [] (pemText (block :: blocks) after)
      rw [find_pemText hquiet] at hmap
      simpa using hmap
    unfold decodeCertificates
    rw [hfind]
    exact decodeBlocks_pemText hquiet [] [] rfl

/-- A block over two lines with text before it, and one without line breaks. -/
def twoBlocks : List PemBlock :=
  [⟨"a certificate\n".toList, "\nAAEC\r\nAwQ=\n".toList, [0, 1, 2, 3, 4], by decide, by decide⟩,
    ⟨['\n'], "/w==".toList, [0xFF], by decide, by decide⟩]

theorem decodeCertificates_encoded_two :
    decodeCertificates (pemText twoBlocks ['\n']) = [[0, 1, 2, 3, 4], [0xFF]] :=
  decodeCertificates_encoded (by decide) ⟨by decide, by decide, show Free BeginMarker ['\n'] [] by decide⟩

end Blocks

end TgeCore.Net
