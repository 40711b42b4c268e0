import TgeCore.Library.Buffer
import TgeCore.Library.Decimal
import TgeCore.Library.MixedRadix

namespace TgeCore.Logging
open Library Library.Decimal

def nul : Char := Char.ofNat 0

/-- What %llu writes, or %0nllu with a width. -/
def llu (width : Nat) (n : UInt64) : List Char := printed width n.toNat

/-- As much of the text as there is room for, and the terminator. -/
def snprintf (buffer : List Char) (bufferSize : Nat) (text : List Char) : Option (List Char) :=
  if bufferSize = 0 then some buffer else Buffer.store buffer 0 (text.take (bufferSize - 1) ++ [nul])

/-- What a std::string is made of. -/
def cString (buffer : List Char) : List Char := buffer.takeWhile (· != nul)

/-- The text of FormatTimestamp's snprintf. -/
def timestampText (elapsedMs : UInt64) : List Char :=
  let ms := elapsedMs % 1000
  let totalSec := elapsedMs / 1000
  let sec := totalSec % 60
  let totalMin := totalSec / 60
  let min := totalMin % 60
  let totalHours := totalMin / 60
  let hours := totalHours % 24
  let days := totalHours / 24
  if days > 0 then
    llu 0 days ++ ':' :: (llu 2 hours ++ ':' :: (llu 2 min ++ ':' :: (llu 2 sec ++ '.' :: llu 3 ms)))
  else if hours > 0 then
    llu 2 hours ++ ':' :: (llu 2 min ++ ':' :: (llu 2 sec ++ '.' :: llu 3 ms))
  else if min > 0 then
    llu 2 min ++ ':' :: (llu 2 sec ++ '.' :: llu 3 ms)
  else
    llu 2 sec ++ '.' :: llu 3 ms

def formatTimestamp (elapsedMs : UInt64) (buffer : List Char) (bufferSize : Nat) : Option (List Char) :=
  snprintf buffer bufferSize (timestampText elapsedMs)

/-- The size of the buffer in CLog::Write. -/
def TsBufSize : Nat := 32

/-- Milliseconds in a second, seconds in a minute, minutes in an hour, hours in a day. -/
def timeRadices : List Nat := [1000, 60, 60, 24]

/-- The time that a text says. -/
def readTimestamp (text : List Char) : Nat := MixedRadix.value timeRadices (fields 0 text).reverse

theorem fields_llu (width : Nat) (n : UInt64) : fields 0 (llu width n) = [n.toNat] := fields_printed width n.toNat

theorem fields_llu_colon (width : Nat) (n : UInt64) (rest : List Char) :
    fields 0 (llu width n ++ ':' :: rest) = n.toNat :: fields 0 rest :=
  fields_printed_cons width n.toNat (by decide) rest

theorem fields_llu_point (width : Nat) (n : UInt64) (rest : List Char) :
    fields 0 (llu width n ++ '.' :: rest) = n.toNat :: fields 0 rest :=
  fields_printed_cons width n.toNat (by decide) rest

/-- The numbers of the text are the digits of the time, but for zeros at the upper end. -/
theorem fields_timestampText (elapsedMs : UInt64) :
    ∃ zeros, (fields 0 (timestampText elapsedMs)).reverse ++ List.replicate zeros 0 =
      MixedRadix.digits timeRadices elapsedMs.toNat := by
  have hdigits : MixedRadix.digits timeRadices elapsedMs.toNat =
      [(elapsedMs % 1000).toNat, (elapsedMs / 1000 % 60).toNat, (elapsedMs / 1000 / 60 % 60).toNat,
        (elapsedMs / 1000 / 60 / 60 % 24).toNat, (elapsedMs / 1000 / 60 / 60 / 24).toNat] := by
    simp only [timeRadices, MixedRadix.digits, UInt64.toNat_mod, UInt64.toNat_div]
    rfl
  have hzero : ∀ n : UInt64, ¬n > 0 → n.toNat = 0 := by
    intro n hn
    rw [gt_iff_lt, UInt64.lt_iff_toNat_lt] at hn
    exact Nat.eq_zero_of_not_pos hn
  rw [hdigits]
  simp only [timestampText]
  split
  · exact ⟨0, by simp only [fields_llu_colon, fields_llu_point, fields_llu]; rfl⟩
  · rename_i hdays
    rw [hzero _ hdays]
    split
    · exact ⟨1, by simp only [fields_llu_colon, fields_llu_point, fields_llu]; rfl⟩
    · rename_i hhours
      rw [hzero _ hhours]
      split
      · exact ⟨2, by simp only [fields_llu_colon, fields_llu_point, fields_llu]; rfl⟩
      · rename_i hmin
        rw [hzero _ hmin]
        exact ⟨3, by simp only [fields_llu_point, fields_llu]; rfl⟩

theorem readTimestamp_text (elapsedMs : UInt64) : readTimestamp (timestampText elapsedMs) = elapsedMs.toNat := by
  obtain ⟨zeros, hzeros⟩ := fields_timestampText elapsedMs
  rw [readTimestamp, ← MixedRadix.value_append_zeros _ _ zeros, hzeros, MixedRadix.value_digits]

example : timestampText 90061007 = "1:01:01:01.007".toList := by decide

theorem length_llu_le {width k : Nat} {n : UInt64} (hk : 0 < k) (hwidth : width ≤ k) (hn : n.toNat < 10 ^ k) :
    (llu width n).length ≤ k := length_printed_le hk hwidth hn

theorem length_timestampText (elapsedMs : UInt64) : (timestampText elapsedMs).length ≤ 25 := by
  have hms : (llu 3 (elapsedMs % 1000)).length ≤ 3 := by
    apply length_llu_le (by decide) le_rfl
    rw [UInt64.toNat_mod]
    exact Nat.mod_lt _ (by decide)
  have hpart : ∀ n : UInt64, (llu 2 (n % 60)).length ≤ 2 := by
    intro n
    apply length_llu_le (by decide) le_rfl
    rw [UInt64.toNat_mod]
    exact (Nat.mod_lt _ (by decide)).trans (by decide : 60 < 10 ^ 2)
  have hhours : (llu 2 (elapsedMs / 1000 / 60 / 60 % 24)).length ≤ 2 := by
    apply length_llu_le (by decide) le_rfl
    rw [UInt64.toNat_mod]
    exact (Nat.mod_lt _ (by decide)).trans (by decide : 24 < 10 ^ 2)
  have hdays : (llu 0 (elapsedMs / 1000 / 60 / 60 / 24)).length ≤ 12 := by
    apply length_llu_le (by decide) (Nat.zero_le _)
    have hlt := elapsedMs.toNat_lt
    simp only [UInt64.toNat_div, UInt64.reduceToNat]
    omega
  have hsec := hpart (elapsedMs / 1000)
  have hmin := hpart (elapsedMs / 1000 / 60)
  simp only [timestampText]
  split_ifs <;> simp only [List.length_append, List.length_cons] <;> omega

theorem nul_notMem_llu (width : Nat) (n : UInt64) : nul ∉ llu width n :=
  fun h => absurd (isDigit_of_mem_printed h) (by decide)

theorem nul_notMem_timestampText (elapsedMs : UInt64) : nul ∉ timestampText elapsedMs := by
  have hcolon : nul ≠ ':' := by decide
  have hpoint : nul ≠ '.' := by decide
  simp only [timestampText]
  split_ifs <;> simp only [List.mem_append, List.mem_cons, nul_notMem_llu, hcolon, hpoint, or_self, not_false_eq_true]

section Buffer
variable {buffer after text : List Char} {bufferSize : Nat}

/-- What has room is in the buffer whole. -/
theorem cString_snprintf (hroom : text.length < bufferSize) (hnul : nul ∉ text)
    (h : snprintf buffer bufferSize text = some after) : cString after = text := by
  rw [snprintf, if_neg (by omega), List.take_of_length_le (by omega)] at h
  have hafter : after = text ++ nul :: after.drop (text ++ [nul]).length := by
    have htake := Buffer.take_store h
    rw [Nat.zero_add, List.take_zero, List.nil_append] at htake
    conv_lhs => rw [← List.take_append_drop (text ++ [nul]).length after, htake]
    rw [List.append_assoc, List.singleton_append]
  rw [hafter, cString, List.takeWhile_append_of_pos]
  · rw [List.takeWhile_cons_of_neg (by decide), List.append_nil]
  · intro c hc
    have hne : c ≠ nul := fun h => hnul (h ▸ hc)
    exact bne_iff_ne.mpr hne

theorem snprintf_of_room (hroom : text.length < bufferSize) (hbuffer : bufferSize ≤ buffer.length) :
    ∃ after, snprintf buffer bufferSize text = some after := by
  rw [snprintf, if_neg (by omega), List.take_of_length_le (by omega)]
  refine ⟨_, Buffer.store_of_le ?_⟩
  rw [List.length_append, List.length_singleton]
  omega

end Buffer

/-- What FormatTimestamp leaves in any buffer of CLog::Write's size. -/
theorem cString_formatTimestamp {elapsedMs : UInt64} {buffer after : List Char}
    (h : formatTimestamp elapsedMs buffer TsBufSize = some after) : cString after = timestampText elapsedMs :=
  cString_snprintf ((length_timestampText elapsedMs).trans_lt (by decide)) (nul_notMem_timestampText elapsedMs) h

theorem formatTimestamp_unambiguous (elapsedMs : UInt64) {buffer : List Char} (hbuffer : buffer.length = TsBufSize) :
    (timestampText elapsedMs).length + 1 ≤ TsBufSize ∧
      ∃ after, formatTimestamp elapsedMs buffer TsBufSize = some after ∧
        cString after = timestampText elapsedMs ∧ readTimestamp (cString after) = elapsedMs.toNat ∧
        ∀ other otherBuffer otherAfter, formatTimestamp other otherBuffer TsBufSize = some otherAfter →
          cString otherAfter = cString after → other = elapsedMs := by
  have hroom : (timestampText elapsedMs).length < TsBufSize := (length_timestampText elapsedMs).trans_lt (by decide)
  obtain ⟨after, hafter⟩ := snprintf_of_room hroom hbuffer.ge
  have htext := cString_formatTimestamp hafter
  refine ⟨hroom, after, hafter, htext, ?_, fun other otherBuffer otherAfter hother hsame => ?_⟩
  · rw [htext, readTimestamp_text]
  · rw [cString_formatTimestamp hother, htext] at hsame
    apply UInt64.toNat_inj.mp
    rw [← readTimestamp_text other, hsame, readTimestamp_text]

/-- The longest of all times. -/
theorem formatTimestamp_unambiguous_longest :
    ∃ after, formatTimestamp 18446744073709551615 (List.replicate 32 'x') TsBufSize = some after ∧
      readTimestamp (cString after) = 18446744073709551615 := by
  obtain ⟨after, hafter, -, hread, -⟩ :=
    (formatTimestamp_unambiguous 18446744073709551615 (List.length_replicate (n := 32) (a := 'x'))).2
  exact ⟨after, hafter, hread⟩

end TgeCore.Logging
