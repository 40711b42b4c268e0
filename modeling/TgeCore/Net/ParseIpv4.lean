import Mathlib.Data.List.Forall2
import Mathlib.Data.List.Induction
import TgeCore.Library.Decimal

namespace TgeCore.Net
open Library.Decimal

def NumParts : UInt32 := 4

/-- The variables of ParseIpv4's loop. -/
structure Ipv4Loop where
  parts : Vector UInt32 4 := Vector.replicate 4 0
  numParts : UInt32 := 0
  hasDigit : Bool := false
  isValid : Bool := true
deriving DecidableEq

/-- A digit of part number `numParts`, which has no result where that part is out of range. -/
def Ipv4Loop.addDigit (s : Ipv4Loop) (numParts : UInt32) (character : Char) : Option Ipv4Loop :=
  (s.parts[(numParts - 1).toNat]?).map fun part =>
    let value := part * 10 + UInt32.ofNat (digitValue character)
    { parts := s.parts.setIfInBounds (numParts - 1).toNat value, numParts := numParts
      hasDigit := true, isValid := decide (value ≤ 255) }

/-- The loop's body, which has no result where the index of a part is out of range. -/
def Ipv4Loop.step (s : Ipv4Loop) (character : Char) : Option Ipv4Loop :=
  if IsDigit character then
    let startsPart := !s.hasDigit
    let isValid := if startsPart then some (decide (s.numParts < NumParts))
      else (s.parts[(s.numParts - 1).toNat]?).map (· != 0)
    isValid.bind fun isValid =>
      if isValid then s.addDigit (s.numParts + if startsPart then 1 else 0) character
      else some { s with isValid := false }
  else
    some { s with
      isValid := decide (character = '.') && s.hasDigit && decide (s.numParts < NumParts)
      hasDigit := false }

def Ipv4Loop.run (s : Ipv4Loop) : List Char → Option Ipv4Loop
  | [] => some s
  | character :: text => if s.isValid then (s.step character).bind (·.run text) else some s

def Ipv4Loop.address (s : Ipv4Loop) : UInt32 :=
  (s.parts[0] <<< 24) ||| (s.parts[1] <<< 16) ||| (s.parts[2] <<< 8) ||| s.parts[3]

def parseIpv4 (text : List Char) : Option (Option UInt32) :=
  (Ipv4Loop.run {} text).map fun s =>
    if s.isValid ∧ s.numParts = NumParts ∧ s.hasDigit then some s.address else none

/-- A number from 0 to 255 in one to three digits, without a leading zero. -/
structure IsOctet (text : List Char) (value : Nat) : Prop where
  digits : ∀ c ∈ text, IsDigit c
  nonempty : text ≠ []
  short : text.length ≤ 3
  unpadded : text.head? = some '0' → text = ['0']
  value_eq : numeral 0 text = value
  small : value ≤ 255

/-- Four octets with single dots between them. -/
def IsDotted (text : List Char) (a b c d : Nat) : Prop :=
  ∃ as bs cs ds, IsOctet as a ∧ IsOctet bs b ∧ IsOctet cs c ∧ IsOctet ds d ∧
    text = as ++ '.' :: bs ++ '.' :: cs ++ '.' :: ds

/-- What one character may add to the parts read so far, and whether a digit was last. -/
inductive Extends : List Nat → Bool → Char → List Nat → Bool → Prop
  | start {vs c} (hdigit : IsDigit c) (hroom : vs.length < 4) :
      Extends vs false c (vs ++ [digitValue c]) true
  | digit {vs v c} (hdigit : IsDigit c) (hlead : v ≠ 0) (hsmall : v * 10 + digitValue c ≤ 255) :
      Extends (vs ++ [v]) true c (vs ++ [v * 10 + digitValue c]) true
  | dot {vs} (hroom : vs.length < 4) : Extends vs true '.' vs false

/-- The texts that can be read so, with what has been read of them. -/
inductive Scans : List Char → List Nat → Bool → Prop
  | nil : Scans [] [] false
  | concat {text vs b c vs' b'} (h : Scans text vs b) (hc : Extends vs b c vs' b') : Scans (text ++ [c]) vs' b'

/-- A state of the loop that is still valid, and the parts it has read. -/
structure Ipv4Loop.Holds (s : Ipv4Loop) (vs : List Nat) (inPart : Bool) : Prop where
  hasDigit : s.hasDigit = inPart
  isValid : s.isValid = true
  numParts : s.numParts.toNat = vs.length
  room : vs.length ≤ 4
  parts : ∀ i (h : i < 4), s.parts[i].toNat = vs.getD i 0
  small : ∀ v ∈ vs, v ≤ 255
  nonempty : inPart = true → vs ≠ []

section Loop
variable {s s' : Ipv4Loop} {text : List Char} {vs : List Nat} {v : Nat} {c : Char} {b : Bool}

theorem Ipv4Loop.run_concat (s : Ipv4Loop) (text : List Char) (c : Char) :
    s.run (text ++ [c]) = (s.run text).bind fun t => if t.isValid then t.step c else some t := by
  induction text generalizing s with
  | nil =>
    simp only [List.nil_append, run, Option.bind_some]
    split
    · cases s.step c <;> rfl
    · rfl
  | cons d text ih =>
    simp only [List.cons_append, run]
    by_cases hs : s.isValid = true
    · cases hstep : s.step d with
      | none => simp [hs]
      | some t => simp [hs, ih]
    · simp [hs]

theorem Ipv4Loop.Holds.initial : ({} : Ipv4Loop).Holds [] false := by
  refine ⟨rfl, rfl, rfl, by simp, fun i h => ?_, by simp, by simp⟩
  simp [Vector.getElem_replicate]

theorem digitValue_toNat (hdigit : IsDigit c) :
    (UInt32.ofNat (digitValue c)).toNat = digitValue c := by
  have hle := digitValue_le hdigit
  rw [UInt32.toNat_ofNat']
  omega

theorem lt_numParts (hnum : s.numParts.toNat = vs.length) : s.numParts < NumParts ↔ vs.length < 4 := by
  rw [UInt32.lt_iff_toNat_lt, hnum]
  rfl

/-- A digit behind the parts `ws`, in a part that is `w` so far. -/
theorem addDigit_holds {ws w : List Nat} {numParts : UInt32} (hw : w.length ≤ 1)
    (hparts : ∀ i (h : i < 4), s.parts[i].toNat = (ws ++ w).getD i 0) (hroom : ws.length < 4)
    (hnum : numParts.toNat = ws.length + 1) (hsmall : ∀ v ∈ ws ++ w, v ≤ 255) (hdigit : IsDigit c) :
    ∃ s', s.addDigit numParts c = some s' ∧
      (s'.isValid = true ↔ w.headD 0 * 10 + digitValue c ≤ 255) ∧
      (s'.isValid = true → s'.Holds (ws ++ [w.headD 0 * 10 + digitValue c]) true) := by
  have hindex : (numParts - 1).toNat = ws.length := by
    rw [UInt32.toNat_sub_of_le _ _ (by rw [UInt32.le_iff_toNat_le, hnum]; simp), hnum]
    simp
  have hold : s.parts[ws.length].toNat = w.headD 0 := by
    rw [hparts _ hroom]
    cases w <;> simp
  have hbound : w.headD 0 ≤ 255 := by
    cases w with
    | nil => simp
    | cons v rest => exact hsmall v (by simp)
  have hvalue : (s.parts[ws.length] * 10 + UInt32.ofNat (digitValue c)).toNat =
      w.headD 0 * 10 + digitValue c := by
    have hle := digitValue_le hdigit
    have hten : (10 : UInt32).toNat = 10 := rfl
    rw [UInt32.toNat_add, UInt32.toNat_mul, digitValue_toNat hdigit, hold, hten]
    omega
  have hget : s.parts[(numParts - 1).toNat]? = some s.parts[ws.length] := by
    rw [hindex, Vector.getElem?_eq_getElem hroom]
  refine ⟨_, by rw [Ipv4Loop.addDigit, hget, Option.map_some], ?_, fun hvalid => ?_⟩
  · rw [decide_eq_true_iff, UInt32.le_iff_toNat_le, hvalue]
    rfl
  · refine ⟨rfl, hvalid, by simpa using hnum, by rwa [List.length_append], fun i h => ?_, ?_, by simp⟩
    · have hpart := hparts i h
      rw [Vector.getElem_setIfInBounds, hindex]
      simp only [List.getD_eq_getElem?_getD] at hpart ⊢
      by_cases hi : ws.length = i
      · subst hi
        simpa using hvalue
      · rw [if_neg hi, hpart]
        rcases Nat.lt_or_gt_of_ne hi with hlt | hgt
        · rw [List.getElem?_eq_none (by simp; omega), List.getElem?_eq_none (by simp; omega)]
        · rw [List.getElem?_append_left hgt, List.getElem?_append_left hgt]
    · rw [decide_eq_true_iff, UInt32.le_iff_toNat_le, hvalue] at hvalid
      intro v hv
      cases List.mem_append.mp hv with
      | inl hws => exact hsmall v (List.mem_append_left w hws)
      | inr hnew =>
        rw [List.mem_singleton.mp hnew]
        exact hvalid

/-- A valid state takes a character as the grammar does, and never looks outside its parts. -/
theorem Ipv4Loop.Holds.step (h : s.Holds vs b) (c : Char) : ∃ s', s.step c = some s' ∧
    (s'.isValid = true → ∃ vs', Extends vs b c vs' s'.hasDigit ∧ s'.Holds vs' s'.hasDigit) ∧
    ∀ vs' b', Extends vs b c vs' b' → s'.Holds vs' b' := by
  have hroom := lt_numParts h.numParts
  by_cases hdigit : IsDigit c
  · cases b with
    | false =>
      by_cases hlt : vs.length < 4
      · have hnum : (s.numParts + 1).toNat = vs.length + 1 := by
          rw [UInt32.toNat_add, h.numParts]
          have hone : (1 : UInt32).toNat = 1 := rfl
          omega
        obtain ⟨s', hs', hsmall, hholds⟩ := addDigit_holds (w := []) (by simp) (by simpa using h.parts) hlt
          hnum (by simpa using h.small) hdigit
        have hkept := hholds (hsmall.mpr (by have := digitValue_le hdigit; simp; omega))
        rw [List.headD_nil, Nat.zero_mul, Nat.zero_add] at hkept
        refine ⟨s', by simpa [Ipv4Loop.step, hdigit, h.hasDigit, hroom, hlt] using hs', fun _ => ?_,
          fun vs' b' hext => ?_⟩
        · rw [hkept.hasDigit]
          exact ⟨_, .start hdigit hlt, hkept⟩
        · cases hext
          exact hkept
      · refine ⟨{ s with isValid := false }, ?_, by simp, fun vs' b' hext => ?_⟩
        · simp [Ipv4Loop.step, hdigit, h.hasDigit, hroom, hlt]
        · cases hext
          contradiction
    | true =>
      obtain ⟨ws, v, rfl⟩ : ∃ ws v, vs = ws ++ [v] :=
        ⟨_, _, (List.dropLast_concat_getLast (h.nonempty rfl)).symm⟩
      have hlength : ws.length + 1 ≤ 4 := by simpa using h.room
      have hnum : s.numParts.toNat = ws.length + 1 := by simpa using h.numParts
      have hindex : (s.numParts - 1).toNat = ws.length := by
        rw [UInt32.toNat_sub_of_le _ _ (by rw [UInt32.le_iff_toNat_le, hnum]; simp), hnum]
        simp
      have hpart : s.parts[ws.length].toNat = v := by simpa using h.parts ws.length (by omega)
      have hlead : s.parts[(s.numParts - 1).toNat]? = some s.parts[ws.length] := by
        rw [hindex, Vector.getElem?_eq_getElem]
      by_cases hv : v = 0
      · have hzero : s.parts[ws.length] = 0 := UInt32.toNat_inj.mp (hpart.trans hv)
        refine ⟨{ s with isValid := false }, ?_, by simp, fun vs' b' hext => ?_⟩
        · simp [Ipv4Loop.step, hdigit, h.hasDigit, hlead, hzero]
        · generalize hws : ws ++ [v] = xs at hext
          cases hext with
          | digit _ hne _ => exact absurd hv (List.singleton_inj.mp (List.append_inj' hws rfl).2 ▸ hne)
          | dot _ => exact absurd hdigit (by decide)
      · have hne : s.parts[ws.length] ≠ 0 := by
          rintro hzero
          rw [hzero] at hpart
          exact hv hpart.symm
        obtain ⟨s', hs', hsmall, hholds⟩ := addDigit_holds (w := [v]) (by simp) h.parts (by omega) hnum
          h.small hdigit
        refine ⟨s', by simpa [Ipv4Loop.step, hdigit, h.hasDigit, hlead, hne] using hs', fun hvalid => ?_,
          fun vs' b' hext => ?_⟩
        · have hkept := hholds hvalid
          rw [hkept.hasDigit]
          exact ⟨_, .digit hdigit hv (hsmall.mp hvalid), hkept⟩
        · generalize hws : ws ++ [v] = xs at hext
          cases hext with
          | digit _ _ hle =>
            obtain ⟨rfl, hvs⟩ := List.append_inj' hws rfl
            obtain rfl := List.singleton_inj.mp hvs
            exact hholds (hsmall.mpr hle)
          | dot _ => exact absurd hdigit (by decide)
  · refine ⟨_, by rw [Ipv4Loop.step, if_neg hdigit], fun hvalid => ?_, fun vs' b' hext => ?_⟩
    · simp only [h.hasDigit, hroom, Bool.and_eq_true, decide_eq_true_eq] at hvalid
      obtain ⟨⟨rfl, rfl⟩, hlt⟩ := hvalid
      refine ⟨vs, .dot hlt, rfl, ?_, h.numParts, h.room, h.parts, h.small, by simp⟩
      simp [h.hasDigit, hroom, hlt]
    · cases hext with
      | start hd _ => exact absurd hd hdigit
      | digit hd _ _ => exact absurd hd hdigit
      | dot hlt =>
        refine ⟨rfl, ?_, h.numParts, h.room, h.parts, h.small, by simp⟩
        simp [h.hasDigit, hroom, hlt]

/-- The loop never looks outside its parts, and a state that is still valid has
read what the grammar lets it. -/
theorem run_scans (text : List Char) : ∃ s, Ipv4Loop.run {} text = some s ∧
    (s.isValid = true → ∃ vs, Scans text vs s.hasDigit ∧ s.Holds vs s.hasDigit) := by
  induction text using List.reverseRecOn with
  | nil => exact ⟨{}, rfl, fun _ => ⟨[], .nil, .initial⟩⟩
  | append_singleton text c ih =>
    obtain ⟨s, hs, hvalid⟩ := ih
    rw [Ipv4Loop.run_concat, hs, Option.bind_some]
    by_cases h : s.isValid = true
    · obtain ⟨vs, hscan, hholds⟩ := hvalid h
      obtain ⟨s', hs', hnext, -⟩ := hholds.step c
      refine ⟨s', by rw [if_pos h, hs'], fun h' => ?_⟩
      obtain ⟨vs', hext, hholds'⟩ := hnext h'
      exact ⟨vs', hscan.concat hext, hholds'⟩
    · exact ⟨s, by rw [if_neg h], fun h' => absurd h' h⟩

theorem Scans.run (h : Scans text vs b) : ∃ s, Ipv4Loop.run {} text = some s ∧ s.Holds vs b := by
  induction h with
  | nil => exact ⟨{}, rfl, .initial⟩
  | concat _ hc ih =>
    obtain ⟨s, hs, hholds⟩ := ih
    obtain ⟨s', hs', -, hnext⟩ := hholds.step _
    refine ⟨s', ?_, hnext _ _ hc⟩
    rw [Ipv4Loop.run_concat, hs, Option.bind_some, if_pos hholds.isValid, hs']

end Loop

section Grammar
variable {text : List Char} {vs : List Nat} {v : Nat} {b : Bool}

/-- Parts that were read to their dot. -/
def dots (os : List (List Char)) : List Char := (os.map (· ++ ['.'])).flatten

theorem numeral_unpadded {ds : List Char} {c : Char} (hdigit : IsDigit c) (hc : c ≠ '0') :
    10 ^ ds.length ≤ numeral 0 (c :: ds) := by
  have hpos : 1 ≤ digitValue c := Nat.one_le_iff_ne_zero.mpr fun h => hc ((digitValue_eq_zero hdigit).mp h)
  have hle := le_numeral (digitValue c) ds
  rw [numeral_cons, Nat.zero_mul, Nat.zero_add]
  exact (Nat.le_mul_of_pos_left _ hpos).trans hle

theorem isOctet_singleton {c : Char} (hdigit : IsDigit c) : IsOctet [c] (digitValue c) := by
  have hle := digitValue_le hdigit
  refine ⟨by simpa using hdigit, by simp, by simp, by simp, by simp, by omega⟩

/-- One more digit behind a number that is not 0. -/
theorem IsOctet.concat {o : List Char} {c : Char} (h : IsOctet o v) (hdigit : IsDigit c) (hlead : v ≠ 0)
    (hsmall : v * 10 + digitValue c ≤ 255) : IsOctet (o ++ [c]) (v * 10 + digitValue c) := by
  have hvalue : numeral 0 (o ++ [c]) = v * 10 + digitValue c := by rw [numeral_concat, h.value_eq]
  have hdigits : ∀ d ∈ o ++ [c], IsDigit d := by
    intro d hd
    cases List.mem_append.mp hd with
    | inl hold => exact h.digits d hold
    | inr hnew => exact List.mem_singleton.mp hnew ▸ hdigit
  cases o with
  | nil => exact absurd rfl h.nonempty
  | cons d ds =>
    have hd : d ≠ '0' := by
      rintro rfl
      have hzero := h.unpadded rfl
      rw [hzero] at h
      exact hlead h.value_eq.symm
    refine ⟨hdigits, by simp, ?_, fun hhead => absurd (Option.some.inj hhead) hd, hvalue, hsmall⟩
    have hbound : 10 ^ (ds ++ [c]).length ≤ _ := numeral_unpadded (h.digits d (by simp)) hd
    rw [← List.cons_append, hvalue] at hbound
    by_contra hlong
    have hpow : 10 ^ 3 ≤ 10 ^ (ds ++ [c]).length := Nat.pow_le_pow_right (by decide) (by simp at hlong ⊢; omega)
    omega

/-- What has been read is its parts, each in digits, the last one still without its dot. -/
theorem Scans.octets (h : Scans text vs b) : ∃ os ws, List.Forall₂ IsOctet os ws ∧
    (b = false → text = dots os ∧ vs = ws) ∧
    (b = true → ∃ o v, IsOctet o v ∧ text = dots os ++ o ∧ vs = ws ++ [v]) := by
  induction h with
  | nil => exact ⟨[], [], .nil, fun _ => ⟨rfl, rfl⟩, by simp⟩
  | concat _ hc ih =>
    obtain ⟨os, ws, hos, hclosed, hopen⟩ := ih
    cases hc with
    | start hdigit _ =>
      obtain ⟨rfl, rfl⟩ := hclosed rfl
      exact ⟨os, _, hos, by simp, fun _ => ⟨_, _, isOctet_singleton hdigit, rfl, rfl⟩⟩
    | digit hdigit hlead hsmall =>
      obtain ⟨o, v, ho, rfl, hvs⟩ := hopen rfl
      obtain ⟨rfl, hv⟩ := List.append_inj' hvs rfl
      obtain rfl := List.singleton_inj.mp hv
      exact ⟨os, _, hos, by simp, fun _ => ⟨_, _, ho.concat hdigit hlead hsmall, by simp, rfl⟩⟩
    | dot _ =>
      obtain ⟨o, v, ho, rfl, rfl⟩ := hopen rfl
      refine ⟨os ++ [o], ws ++ [v], List.rel_append hos (.cons ho .nil), fun _ => ⟨?_, rfl⟩, by simp⟩
      simp [dots]

theorem Scans.digits {ws : List Nat} {ds : List Char} (h : Scans text (ws ++ [v]) true)
    (hdigits : ∀ c ∈ ds, IsDigit c) (hlead : ds ≠ [] → v ≠ 0) (hsmall : numeral v ds ≤ 255) :
    Scans (text ++ ds) (ws ++ [numeral v ds]) true := by
  induction ds generalizing text v with
  | nil => simpa using h
  | cons c ds ih =>
    have hv : v ≠ 0 := hlead (by simp)
    rw [numeral_cons] at hsmall ⊢
    have hnext := h.concat (.digit (hdigits c (by simp)) hv ((le_numeral_self _ ds).trans hsmall))
    simpa using ih hnext (fun d hd => hdigits d (by simp [hd])) (fun _ => by omega) hsmall

/-- Any octet can be read where a part may begin. -/
theorem Scans.octet {o : List Char} (h : Scans text vs false) (hroom : vs.length < 4) (ho : IsOctet o v) :
    Scans (text ++ o) (vs ++ [v]) true := by
  cases o with
  | nil => exact absurd rfl ho.nonempty
  | cons c ds =>
    have hdigit := ho.digits c (by simp)
    have hvalue := ho.value_eq
    rw [numeral_cons, Nat.zero_mul, Nat.zero_add] at hvalue
    have hnext := (h.concat (.start hdigit hroom)).digits (fun d hd => ho.digits d (by simp [hd])) (fun hne hzero => ?_)
      (hvalue ▸ ho.small)
    · simpa [hvalue] using hnext
    · have hc := (digitValue_eq_zero hdigit).mp hzero
      have := ho.unpadded (by rw [hc]; rfl)
      exact hne (List.cons.inj this).2

theorem scans_dotted {a b c d : Nat} : Scans text [a, b, c, d] true ↔ IsDotted text a b c d := by
  constructor
  · intro h
    obtain ⟨os, ws, hos, -, hopen⟩ := h.octets
    obtain ⟨ds, d', hd, rfl, hvs⟩ := hopen rfl
    obtain ⟨rfl, hd'⟩ := List.append_inj' (show [a, b, c] ++ [d] = ws ++ [d'] from hvs) rfl
    obtain rfl := List.singleton_inj.mp hd'
    cases hos with
    | cons ha hos => cases hos with
      | cons hb hos => cases hos with
        | cons hc hos => cases hos with
          | nil => exact ⟨_, _, _, ds, ha, hb, hc, hd, by simp [dots]⟩
  · rintro ⟨as, bs, cs, ds, ha, hb, hc, hd, rfl⟩
    have hfirst := (Scans.nil.octet (by simp) ha).concat (.dot (by simp))
    have hsecond := (hfirst.octet (by simp) hb).concat (.dot (by simp))
    have hthird := (hsecond.octet (by simp) hc).concat (.dot (by simp))
    simpa using hthird.octet (by simp) hd

end Grammar

/-- A part is shifted without losing anything. -/
theorem toNat_shiftLeft_part {part k : UInt32} {v : Nat} (hv : part.toNat = v) (hle : v ≤ 255)
    (hk : k.toNat ≤ 24) : (part <<< k).toNat = v <<< k.toNat := by
  have hpow : 2 ^ k.toNat ≤ 2 ^ 24 := Nat.pow_le_pow_right (by decide) hk
  rw [UInt32.toNat_shiftLeft, hv, Nat.mod_eq_of_lt (by omega : k.toNat < 32), Nat.shiftLeft_eq]
  exact Nat.mod_eq_of_lt (lt_of_le_of_lt (Nat.mul_le_mul hle hpow) (by decide))

theorem Ipv4Loop.Holds.address_eq {s : Ipv4Loop} {a b c d : Nat} (h : s.Holds [a, b, c, d] true) :
    s.address.toNat = a * 2 ^ 24 + b * 2 ^ 16 + c * 2 ^ 8 + d := by
  have hsmall := h.small
  simp only [List.mem_cons, List.not_mem_nil, or_false, forall_eq_or_imp, forall_eq] at hsmall
  have ha : (s.parts[0] <<< 24).toNat = a <<< 24 :=
    toNat_shiftLeft_part (h.parts 0 (by decide)) (by omega) (by decide)
  have hb : (s.parts[1] <<< 16).toNat = b <<< 16 :=
    toNat_shiftLeft_part (h.parts 1 (by decide)) (by omega) (by decide)
  have hc : (s.parts[2] <<< 8).toNat = c <<< 8 :=
    toNat_shiftLeft_part (h.parts 2 (by decide)) (by omega) (by decide)
  have hd : s.parts[3].toNat = d := h.parts 3 (by decide)
  have hlow : c <<< 8 ||| d = c <<< 8 + d := (Nat.shiftLeft_add_eq_or_of_lt (by omega) c).symm
  have hmid : b <<< 16 ||| (c <<< 8 + d) = b <<< 16 + (c <<< 8 + d) :=
    (Nat.shiftLeft_add_eq_or_of_lt (by rw [Nat.shiftLeft_eq]; omega) b).symm
  have hhigh : a <<< 24 ||| (b <<< 16 + (c <<< 8 + d)) = a <<< 24 + (b <<< 16 + (c <<< 8 + d)) :=
    (Nat.shiftLeft_add_eq_or_of_lt (by rw [Nat.shiftLeft_eq, Nat.shiftLeft_eq]; omega) a).symm
  rw [address, UInt32.toNat_or, UInt32.toNat_or, UInt32.toNat_or, ha, hb, hc, hd, Nat.or_assoc, Nat.or_assoc,
    hlow, hmid, hhigh]
  simp only [Nat.shiftLeft_eq]
  omega

/-- An address as it is written. -/
def dotted (address : UInt32) : List Char :=
  let octet (shift : Nat) := Nat.toDigits 10 (address.toNat / 2 ^ shift % 256)
  octet 24 ++ '.' :: octet 16 ++ '.' :: octet 8 ++ '.' :: octet 0

theorem isOctet_toDigits {v : Nat} (h : v < 256) : IsOctet (Nat.toDigits 10 v) v := by
  have hdigits : ∀ c ∈ Nat.toDigits 10 v, IsDigit c := fun c hc => by
    simpa [Char.isDigit, IsDigit, Char.le_def] using Nat.isDigit_of_mem_toDigits (by decide) (by decide) hc
  have hall : ∀ v < 256, Nat.toDigits 10 v ≠ [] ∧ (Nat.toDigits 10 v).length ≤ 3 ∧
      ((Nat.toDigits 10 v).head? = some '0' → Nat.toDigits 10 v = ['0']) ∧
      numeral 0 (Nat.toDigits 10 v) = v := by decide +kernel
  obtain ⟨hnonempty, hshort, hunpadded, hvalue⟩ := hall v h
  exact ⟨hdigits, hnonempty, hshort, hunpadded, hvalue, by omega⟩

/-- What the parser returns is what the grammar says, and it always returns. -/
theorem parseIpv4_eq (text : List Char) : ∃ result, parseIpv4 text = some result ∧
    ∀ address, result = some address ↔ ∃ a b c d, IsDotted text a b c d ∧
      address.toNat = a * 2 ^ 24 + b * 2 ^ 16 + c * 2 ^ 8 + d := by
  obtain ⟨s, hs, hvalid⟩ := run_scans text
  refine ⟨_, by rw [parseIpv4, hs, Option.map_some], fun address => ⟨fun h => ?_, fun h => ?_⟩⟩
  · split at h
    · rename_i hended
      obtain ⟨hisValid, hnum, hdigit⟩ := hended
      obtain ⟨vs, hscan, hholds⟩ := hvalid hisValid
      rw [hdigit] at hscan hholds
      have hlength : vs.length = 4 := by rw [← hholds.numParts, hnum]; rfl
      obtain ⟨a, b, c, d, rfl⟩ := List.length_eq_four.mp hlength
      obtain rfl := Option.some.inj h
      exact ⟨a, b, c, d, scans_dotted.mp hscan, hholds.address_eq⟩
    · cases h
  · obtain ⟨a, b, c, d, htext, haddress⟩ := h
    obtain ⟨t, ht, hholds⟩ := (scans_dotted.mpr htext).run
    obtain rfl := Option.some.inj (hs.symm.trans ht)
    have hnum : s.numParts = NumParts := UInt32.toNat_inj.mp hholds.numParts
    rw [if_pos ⟨hholds.isValid, hnum, hholds.hasDigit⟩]
    exact congrArg some (UInt32.toNat_inj.mp (hholds.address_eq.trans haddress.symm))

/-- The parser stays inside its parts, accepts exactly four dotted octets, and reads
back every address. -/
theorem parseIpv4_accepts :
    (∀ text, ∃ result, parseIpv4 text = some result) ∧
    (∀ text address, parseIpv4 text = some (some address) ↔ ∃ a b c d, IsDotted text a b c d ∧
      address.toNat = a * 2 ^ 24 + b * 2 ^ 16 + c * 2 ^ 8 + d) ∧
    ∀ address, parseIpv4 (dotted address) = some (some address) := by
  have hiff : ∀ text address, parseIpv4 text = some (some address) ↔ ∃ a b c d, IsDotted text a b c d ∧
      address.toNat = a * 2 ^ 24 + b * 2 ^ 16 + c * 2 ^ 8 + d := by
    intro text address
    obtain ⟨result, hresult, haddress⟩ := parseIpv4_eq text
    rw [hresult, Option.some.injEq]
    exact haddress address
  refine ⟨fun text => ?_, hiff, fun address => ?_⟩
  · obtain ⟨result, hresult, -⟩ := parseIpv4_eq text
    exact ⟨result, hresult⟩
  · have hsmall := address.toNat_lt
    have hoctet : ∀ shift, IsOctet (Nat.toDigits 10 (address.toNat / 2 ^ shift % 256))
        (address.toNat / 2 ^ shift % 256) := fun shift => isOctet_toDigits (Nat.mod_lt _ (by decide))
    refine (hiff _ _).mpr ⟨_, _, _, _, ⟨_, _, _, _, hoctet 24, hoctet 16, hoctet 8, hoctet 0, rfl⟩, ?_⟩
    omega

example : parseIpv4 "10.20.30.40".toList = some (some 0x0A141E28) := by decide

end TgeCore.Net
