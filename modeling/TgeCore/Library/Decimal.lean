import Mathlib.Data.Nat.Digits.Defs

namespace TgeCore.Library.Decimal

/-- A decimal digit's value, as the distance from the digit 0. -/
def digitValue (c : Char) : Nat := c.toNat - '0'.toNat

def IsDigit (c : Char) : Prop := '0' ≤ c ∧ c ≤ '9'

instance (c : Char) : Decidable (IsDigit c) := inferInstanceAs (Decidable (_ ∧ _))

/-- Read from the most significant digit on. -/
def numeral (v : Nat) (text : List Char) : Nat := text.foldl (fun v c => v * 10 + digitValue c) v

@[simp] theorem numeral_nil (v : Nat) : numeral v [] = v := rfl

@[simp] theorem numeral_cons (v : Nat) (c : Char) (text : List Char) :
    numeral v (c :: text) = numeral (v * 10 + digitValue c) text := List.foldl_cons ..

theorem numeral_concat (v : Nat) (text : List Char) (c : Char) :
    numeral v (text ++ [c]) = numeral v text * 10 + digitValue c := by
  simp [numeral, List.foldl_append]

theorem IsDigit.toNat {c : Char} (h : IsDigit c) : '0'.toNat ≤ c.toNat ∧ c.toNat ≤ '9'.toNat := h

theorem digitValue_le {c : Char} (h : IsDigit c) : digitValue c ≤ 9 := by
  have hbounds := h.toNat
  have hnine : '9'.toNat = '0'.toNat + 9 := rfl
  unfold digitValue
  omega

/-- Only the digit 0 has the value 0. -/
theorem digitValue_eq_zero {c : Char} (h : IsDigit c) : digitValue c = 0 ↔ c = '0' := by
  have hbounds := h.toNat
  constructor
  · intro hzero
    apply Char.toNat_inj.mp
    unfold digitValue at hzero
    omega
  · rintro rfl
    rfl

/-- What a numeral has got to bounds what it comes to. -/
theorem le_numeral (v : Nat) (text : List Char) : v * 10 ^ text.length ≤ numeral v text := by
  induction text generalizing v with
  | nil => simp
  | cons c text ih =>
    calc v * 10 ^ (text.length + 1) = v * 10 * 10 ^ text.length := by ring
      _ ≤ (v * 10 + digitValue c) * 10 ^ text.length := Nat.mul_le_mul_right _ (by omega)
      _ ≤ numeral (v * 10 + digitValue c) text := ih _

theorem le_numeral_self (v : Nat) (text : List Char) : v ≤ numeral v text :=
  (Nat.le_mul_of_pos_right v (Nat.pow_pos (by decide))).trans (le_numeral v text)

/-- With zeros in front up to a width. -/
def printed (width n : Nat) : List Char := (Nat.toDigits 10 n).leftpad width '0'

theorem numeral_eq_ofDigitChars (v : Nat) (text : List Char) : numeral v text = Nat.ofDigitChars 10 text v := by
  induction text generalizing v with
  | nil => rw [numeral_nil, Nat.ofDigitChars_nil]
  | cons c text ih => rw [numeral_cons, Nat.ofDigitChars_cons, ih, mul_comm, digitValue]

/-- What is written is read again. -/
theorem numeral_printed (width n : Nat) : numeral 0 (printed width n) = n := by
  rw [numeral_eq_ofDigitChars, printed, List.leftpad, Nat.ofDigitChars_append, Nat.ofDigitChars_replicate_zero,
    Nat.mul_zero, Nat.ofDigitChars_ten_toDigits]

theorem isDigit_of_mem_printed {width n : Nat} {c : Char} (hc : c ∈ printed width n) : IsDigit c := by
  rcases List.mem_append.mp hc with hzero | hdigit
  · rw [List.eq_of_mem_replicate hzero]
    decide
  · have h := Nat.isDigit_of_mem_toDigits (by decide) (by decide) hdigit
    simp only [Char.isDigit, Bool.and_eq_true, decide_eq_true_eq] at h
    exact h

theorem length_printed_le {width n k : Nat} (hk : 0 < k) (hwidth : width ≤ k) (hn : n < 10 ^ k) :
    (printed width n).length ≤ k := by
  rw [printed, List.length_leftpad]
  exact max_le hwidth ((Nat.length_toDigits_le_iff (by decide) hk).mpr hn)

/-- The numerals of a text that something else separates, after `v` of the first has been read. -/
def fields (v : Nat) : List Char → List Nat
  | [] => [v]
  | c :: rest => if IsDigit c then fields (v * 10 + digitValue c) rest else v :: fields 0 rest

theorem fields_append {digits : List Char} (hdigits : ∀ c ∈ digits, IsDigit c) (v : Nat) (rest : List Char) :
    fields v (digits ++ rest) = fields (numeral v digits) rest := by
  induction digits generalizing v with
  | nil => rfl
  | cons c digits ih =>
    rw [List.cons_append, fields, if_pos (hdigits c List.mem_cons_self), numeral_cons]
    exact ih (fun d hd => hdigits d (List.mem_cons_of_mem c hd)) _

theorem fields_printed (width n : Nat) : fields 0 (printed width n) = [n] := by
  have hdigits : ∀ c ∈ printed width n, IsDigit c := fun _ => isDigit_of_mem_printed
  have h := fields_append hdigits 0 []
  rwa [List.append_nil, numeral_printed] at h

theorem fields_printed_cons (width n : Nat) {c : Char} (hc : ¬IsDigit c) (rest : List Char) :
    fields 0 (printed width n ++ c :: rest) = n :: fields 0 rest := by
  rw [fields_append (fun c => isDigit_of_mem_printed), numeral_printed, fields, if_neg hc]

end TgeCore.Library.Decimal
