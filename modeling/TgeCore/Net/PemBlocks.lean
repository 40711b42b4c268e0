import TgeCore.Net.Pem

namespace TgeCore.Net
open Library.Text

set_option linter.unusedVariables false in
/-- The bodies of the blocks that the loop finds from the marker at `start` on. -/
def bodiesFrom (content : List Char) (start : Nat) : List (List Char) :=
  let bodyStart := start + BeginMarker.length
  match hend : findFrom EndMarker content bodyStart with
  | none => []
  | some stop =>
    let body := (content.drop bodyStart).take (stop - bodyStart)
    match hbegin : findFrom BeginMarker content (stop + EndMarker.length) with
    | none => [body]
    | some next => body :: bodiesFrom content next
termination_by content.length - start
decreasing_by
  have hstop := (findFrom_bounds hend).1
  have hnext := findFrom_bounds hbegin
  have hlength := hnext.2 (by decide)
  have hpositive : 0 < BeginMarker.length := by decide
  omega

def pemBodies (content : List Char) : List (List Char) := (findFrom BeginMarker content 0).elim [] (bodiesFrom content)

/-- The certificate that a block with this body contributes. -/
def certificateOf (body : List Char) : Option (List UInt8) := (decodeBase64 body).filter fun decoded => !decoded.isEmpty

def withoutSpace (body : List Char) : List Char := body.filter fun c => !isSpace c

/-- The block contributes what its body is the base64 encoding of, and nothing else. -/
def Exact (body : List Char) : Prop :=
  ∀ bytes, certificateOf body = some bytes ↔ bytes ≠ [] ∧ withoutSpace body = encodeBase64 bytes

def sextetsOf (text : List Char) : List Char := text.takeWhile (· ≠ '=')

def paddingOf (text : List Char) : List Char := text.dropWhile (· ≠ '=')

/-- Characters of the alphabet, then padding, in any number of each. -/
def Loose (text : List Char) : Prop :=
  (∀ c ∈ sextetsOf text, toSextet c ≠ NotBase64) ∧ ∀ c ∈ paddingOf text, c = '='

/-- The text is of whole groups of four with two characters of padding at most, and the bits of
the last sextet that the padding leaves out are zero. -/
structure Whole (text : List Char) : Prop where
  groups : 4 ∣ text.length
  padding : (paddingOf text).length ≤ 2
  unused : (toSextet ((sextetsOf text).getLastD 'A')).toNat % 4 ^ (paddingOf text).length = 0

instance (text : List Char) : Decidable (Loose text) := inferInstanceAs (Decidable (_ ∧ _))

section Blocks
variable {body : List Char} {bytes : List UInt8}

theorem addDecoded_eq (certificates : List (List UInt8)) (body : List Char) :
    addDecoded certificates body = certificates ++ (certificateOf body).toList := by
  unfold addDecoded certificateOf
  cases decodeBase64 body with
  | none => simp
  | some decoded =>
    cases decoded with
    | nil => exact (List.append_nil certificates).symm
    | cons byte decoded => rfl

/-- The loop adds what each block contributes. -/
theorem decodeBlocks_bodiesFrom (content : List Char) (certificates : List (List UInt8)) (start : Nat) :
    decodeBlocks content certificates start = certificates ++ (bodiesFrom content start).filterMap certificateOf := by
  fun_induction bodiesFrom content start generalizing certificates with
  | case1 start bodyStart hend =>
    rw [decodeBlocks_eq, hend]
    simp
  | case2 start bodyStart stop hend body hbegin =>
    rw [decodeBlocks_eq, hend, Option.elim_some, hbegin, Option.elim_none, addDecoded_eq, List.filterMap_cons,
      List.filterMap_nil]
    cases certificateOf body with
    | none => rfl
    | some certificate => rfl
  | case3 start bodyStart stop hend body next hbegin ih =>
    rw [decodeBlocks_eq, hend, Option.elim_some, hbegin, Option.elim_some, ih, addDecoded_eq, List.filterMap_cons,
      List.append_assoc]
    cases certificateOf body with
    | none => rfl
    | some certificate => rfl

/-- A body is decoded exactly if no other bytes than those that it encodes come out of it. -/
theorem exact_iff : Exact body ↔
    ∀ bytes, decodeBase64 body = some bytes → bytes ≠ [] → withoutSpace body = encodeBase64 bytes := by
  constructor
  · intro hexact bytes hdecoded hbytes
    refine ((hexact bytes).mp ?_).2
    simp [certificateOf, hdecoded, hbytes]
  · intro honly bytes
    constructor
    · intro hcontributed
      obtain ⟨hdecoded, hbytes⟩ := Option.filter_eq_some_iff.mp hcontributed
      have hbytes : bytes ≠ [] := by simpa using hbytes
      exact ⟨hbytes, honly bytes hdecoded hbytes⟩
    · rintro ⟨hbytes, hencoded⟩
      simp [certificateOf, decodeBase64_encoded hencoded, hbytes]

end Blocks

section Sextets
variable {s : Base64Loop} {kept : Nat} {text : List Char} {sextets : List Nat}

/-- The bytes that whole ones of a list of sextets give. -/
def bytesOf : List Nat → List UInt8
  | a :: b :: c :: d :: rest =>
    [UInt8.ofNat ((a * 64 + b) / 16), UInt8.ofNat ((b % 16 * 64 + c) / 4), UInt8.ofNat (c % 4 * 64 + d)] ++ bytesOf rest
  | [a, b, c] => [UInt8.ofNat ((a * 64 + b) / 16), UInt8.ofNat ((b % 16 * 64 + c) / 4)]
  | [a, b] => [UInt8.ofNat ((a * 64 + b) / 16)]
  | _ => []

theorem toSextet_of_large {c : Char} (hc : 128 ≤ c.toNat) : toSextet c = NotBase64 := by
  have hbelow : ∀ d : Char, d.toNat < 128 → ¬ c ≤ d := by
    intro d hd hle
    have hnat : c.toNat ≤ d.toNat := hle
    omega
  have hne : ∀ d : Char, d.toNat < 128 → c ≠ d := by
    rintro d hd rfl
    omega
  simp [toSextet, hbelow 'Z' (by decide), hbelow 'z' (by decide), hbelow '9' (by decide), hne '+' (by decide),
    hne '/' (by decide)]

theorem toSextet_facts {c : Char} (hc : toSextet c ≠ NotBase64) :
    (toSextet c).toNat < 64 ∧ fromSextet (toSextet c).toNat = c := by
  have hsmall : c.toNat < 128 := Nat.not_le.mp (mt toSextet_of_large hc)
  have hall : ∀ n < 128, toSextet (Char.ofNat n) ≠ NotBase64 →
      (toSextet (Char.ofNat n)).toNat < 64 ∧ fromSextet (toSextet (Char.ofNat n)).toNat = Char.ofNat n := by
    decide +kernel
  have hone := hall c.toNat hsmall
  rw [Char.ofNat_toNat] at hone
  exact hone hc

theorem run_append (s : Base64Loop) (text later : List Char) : s.run (text ++ later) = (s.run text).run later := by
  induction text generalizing s with
  | nil => rfl
  | cons c text ih =>
    rw [List.cons_append, Base64Loop.run, Base64Loop.run]
    split
    · exact ih _
    · rename_i hvalid
      cases later with
      | nil => rfl
      | cons d later => rw [Base64Loop.run, if_neg hvalid]

/-- Any number of sextets is taken, and what does not fill a byte is dropped. -/
theorem run_sextets (h : s.Open 0 kept) (hsextets : ∀ n ∈ sextets, n < 64) :
    (s.run (sextets.map fromSextet)).isValid = true ∧
      (s.run (sextets.map fromSextet)).bytes = s.bytes ++ bytesOf sextets := by
  fun_induction bytesOf sextets generalizing s kept with
  | case1 a b c d rest ih =>
    simp only [List.mem_cons, forall_eq_or_imp] at hsextets
    obtain ⟨ha, hb, hc, hd, hrest⟩ := hsextets
    obtain ⟨h₁, hb₁⟩ := h.store ha
    obtain ⟨h₂, hb₂⟩ := h₁.emit hb
    obtain ⟨h₃, hb₃⟩ := h₂.emit hc
    obtain ⟨h₄, hb₄⟩ := h₃.emit hd
    obtain ⟨hvalid, hbytes⟩ := ih h₄ hrest
    have hsecond : (a * 64 + b) % 2 ^ 4 = b % 16 := by omega
    have hthird : (b % 16 * 64 + c) % 2 ^ 2 = c % 4 := by omega
    rw [List.map_cons, List.map_cons, List.map_cons, List.map_cons, run_cons h.isValid, run_cons h₁.isValid,
      run_cons h₂.isValid, run_cons h₃.isValid]
    refine ⟨hvalid, hbytes.trans ?_⟩
    rw [hb₄, hb₃, hb₂, hb₁, hsecond, hthird]
    simp
  | case2 a b c =>
    simp only [List.mem_cons, forall_eq_or_imp] at hsextets
    obtain ⟨ha, hb, hc, -⟩ := hsextets
    obtain ⟨h₁, hb₁⟩ := h.store ha
    obtain ⟨h₂, hb₂⟩ := h₁.emit hb
    obtain ⟨h₃, hb₃⟩ := h₂.emit hc
    have hsecond : (a * 64 + b) % 2 ^ 4 = b % 16 := by omega
    rw [List.map_cons, List.map_cons, List.map_cons, run_cons h.isValid, run_cons h₁.isValid, run_cons h₂.isValid]
    refine ⟨h₃.isValid, ?_⟩
    rw [List.map_nil, Base64Loop.run, hb₃, hb₂, hb₁, hsecond]
    simp
  | case3 a b =>
    simp only [List.mem_cons, forall_eq_or_imp] at hsextets
    obtain ⟨ha, hb, -⟩ := hsextets
    obtain ⟨h₁, hb₁⟩ := h.store ha
    obtain ⟨h₂, hb₂⟩ := h₁.emit hb
    rw [List.map_cons, List.map_cons, run_cons h.isValid, run_cons h₁.isValid]
    refine ⟨h₂.isValid, ?_⟩
    rw [List.map_nil, Base64Loop.run, hb₂, hb₁]
    simp
  | case4 sextets hfour hthree htwo =>
    rcases sextets with _ | ⟨a, _ | ⟨b, _ | ⟨c, _ | ⟨d, rest⟩⟩⟩⟩
    · exact ⟨h.isValid, (List.append_nil _).symm⟩
    · obtain ⟨h₁, hb₁⟩ := h.store (hsextets a List.mem_cons_self)
      rw [List.map_singleton, run_cons h.isValid, Base64Loop.run]
      exact ⟨h₁.isValid, hb₁.trans (List.append_nil _).symm⟩
    · exact absurd rfl (htwo a b)
    · exact absurd rfl (hthree a b c)
    · exact absurd rfl (hfour a b c d rest)

theorem run_of_invalid (hs : s.isValid = false) (text : List Char) : s.run text = s := by
  cases text with
  | nil => rfl
  | cons c text => rw [Base64Loop.run, if_neg (by simp [hs])]

/-- What the decoder goes through to the end is loose, and padding alone once it has begun. -/
theorem loose_of_isValid (hspace : ∀ c ∈ text, isSpace c = false) (hvalid : (s.run text).isValid = true) :
    Loose text ∧ (s.hasPadding = true → ∀ c ∈ text, c = '=') := by
  induction text generalizing s with
  | nil => exact ⟨⟨fun c hc => absurd hc List.not_mem_nil, fun c hc => absurd hc List.not_mem_nil⟩,
      fun _ c hc => absurd hc List.not_mem_nil⟩
  | cons c text ih =>
    rw [List.forall_mem_cons] at hspace
    have hs : s.isValid = true := by
      by_contra hs
      rw [run_of_invalid (by simpa using hs)] at hvalid
      exact hs hvalid
    rw [run_cons hs] at hvalid
    by_cases hc : c = '='
    · obtain ⟨-, hpadding⟩ := ih hspace.2 hvalid
      have hall : ∀ d ∈ text, d = '=' := hpadding (by simp [Base64Loop.step, hc])
      refine ⟨⟨?_, ?_⟩, fun _ d hd => ?_⟩
      · simp [sextetsOf, hc]
      · simpa [paddingOf, hc] using hall
      · rcases List.mem_cons.mp hd with rfl | hd
        · exact hc
        · exact hall d hd
    · have hstep : s.step c = if !s.hasPadding && toSextet c != NotBase64 then s.addSextet (toSextet c)
          else { s with isValid := false } := by
        rw [Base64Loop.step, if_neg hc, if_neg (by simp [hspace.1])]
      by_cases htaken : (!s.hasPadding && toSextet c != NotBase64) = true
      · have hkept : (s.step c).hasPadding = s.hasPadding := by
          rw [hstep, if_pos htaken, Base64Loop.addSextet]
          split
          · rfl
          · rfl
        rw [Bool.and_eq_true, Bool.not_eq_true', bne_iff_ne] at htaken
        obtain ⟨hloose, -⟩ := ih hspace.2 hvalid
        have hsextets : sextetsOf (c :: text) = c :: sextetsOf text := List.takeWhile_cons_of_pos (by simp [hc])
        have hafter : paddingOf (c :: text) = paddingOf text := List.dropWhile_cons_of_pos (by simp [hc])
        refine ⟨⟨?_, ?_⟩, fun hpadding => ?_⟩
        · rw [hsextets, List.forall_mem_cons]
          exact ⟨htaken.2, hloose.1⟩
        · rw [hafter]
          exact hloose.2
        · rw [htaken.1] at hpadding
          cases hpadding
      · rw [hstep, if_neg htaken, run_of_invalid rfl] at hvalid
        cases hvalid

/-- The values of the sextets of a text. -/
def valuesOf (text : List Char) : List Nat := (sextetsOf text).map fun c => (toSextet c).toNat

/-- A loose text is what its sextets and its padding spell. -/
theorem Loose.spelled (h : Loose text) : text = (valuesOf text).map fromSextet ++ List.replicate (paddingOf text).length '=' := by
  have hpadding : paddingOf text = List.replicate (paddingOf text).length '=' :=
    List.eq_replicate_iff.mpr ⟨rfl, h.2⟩
  have hsextets : (valuesOf text).map fromSextet = sextetsOf text := by
    rw [valuesOf, List.map_map]
    conv_rhs => rw [← List.map_id (sextetsOf text)]
    exact List.map_congr_left fun c hc => (toSextet_facts (h.1 c hc)).2
  rw [hsextets, ← hpadding]
  exact (List.takeWhile_append_dropWhile).symm

theorem Loose.small (h : Loose text) : ∀ n ∈ valuesOf text, n < 64 := by
  intro n hn
  obtain ⟨c, hc, rfl⟩ := List.mem_map.mp hn
  exact (toSextet_facts (h.1 c hc)).1

/-- The decoder takes every loose text, and no other. -/
theorem decodeBase64_eq (body : List Char) : decodeBase64 body =
    if Loose (withoutSpace body) then some (bytesOf (valuesOf (withoutSpace body))) else none := by
  rw [decodeBase64, run_filter]
  change (if (Base64Loop.run {} (withoutSpace body)).isValid = true then some (Base64Loop.run {} (withoutSpace body)).bytes
    else none) = _
  by_cases hloose : Loose (withoutSpace body)
  · obtain ⟨hvalid, hbytes⟩ := run_sextets .initial hloose.small
    obtain ⟨hvalid', hbytes'⟩ := run_padding hvalid (paddingOf (withoutSpace body)).length
    rw [← run_append, ← hloose.spelled] at hvalid' hbytes'
    rw [if_pos hvalid', if_pos hloose, hbytes', hbytes]
    rfl
  · rw [if_neg hloose]
    refine if_neg fun hvalid => hloose (loose_of_isValid (fun c hc => ?_) hvalid).1
    simpa [withoutSpace] using (List.mem_filter.mp hc).2

theorem toNat_byte {n : Nat} (hn : n < 256) : (UInt8.ofNat n).toNat = n := UInt8.toNat_ofNat_of_lt' hn

theorem fromSextet_inj {m n : Nat} (hm : m < 64) (hn : n < 64) : fromSextet m = fromSextet n ↔ m = n := by
  refine ⟨fun heq => ?_, congrArg fromSextet⟩
  rw [← (fromSextet_facts m hm).1, heq, (fromSextet_facts n hn).1]

/-- Four sextets are three bytes, which are the four sextets again. -/
theorem encodeBase64_group {a b c d : Nat} (ha : a < 64) (hb : b < 64) (hc : c < 64) (hd : d < 64) (bytes : List UInt8) :
    encodeBase64 ([UInt8.ofNat ((a * 64 + b) / 16), UInt8.ofNat ((b % 16 * 64 + c) / 4), UInt8.ofNat (c % 4 * 64 + d)] ++ bytes) =
      [a, b, c, d].map fromSextet ++ encodeBase64 bytes := by
  have hx : (UInt8.ofNat ((a * 64 + b) / 16)).toNat = (a * 64 + b) / 16 := toNat_byte (by omega)
  have hy : (UInt8.ofNat ((b % 16 * 64 + c) / 4)).toNat = (b % 16 * 64 + c) / 4 := toNat_byte (by omega)
  have hz : (UInt8.ofNat (c % 4 * 64 + d)).toNat = c % 4 * 64 + d := toNat_byte (by omega)
  have h₁ : (a * 64 + b) / 16 / 4 = a := by omega
  have h₂ : (a * 64 + b) / 16 % 4 * 16 + (b % 16 * 64 + c) / 4 / 16 = b := by omega
  have h₃ : (b % 16 * 64 + c) / 4 % 16 * 4 + (c % 4 * 64 + d) / 64 = c := by omega
  have h₄ : (c % 4 * 64 + d) % 64 = d := by omega
  rw [List.cons_append, List.cons_append, List.cons_append, List.nil_append, encodeBase64, hx, hy, hz, h₁, h₂, h₃, h₄]
  rfl

/-- Three sextets are two bytes, which have no place for the last two bits. -/
theorem encodeBase64_two {a b c : Nat} (ha : a < 64) (hb : b < 64) (hc : c < 64) :
    encodeBase64 [UInt8.ofNat ((a * 64 + b) / 16), UInt8.ofNat ((b % 16 * 64 + c) / 4)] =
      [a, b, c / 4 * 4].map fromSextet ++ List.replicate 1 '=' := by
  have hx : (UInt8.ofNat ((a * 64 + b) / 16)).toNat = (a * 64 + b) / 16 := toNat_byte (by omega)
  have hy : (UInt8.ofNat ((b % 16 * 64 + c) / 4)).toNat = (b % 16 * 64 + c) / 4 := toNat_byte (by omega)
  have h₁ : (a * 64 + b) / 16 / 4 = a := by omega
  have h₂ : (a * 64 + b) / 16 % 4 * 16 + (b % 16 * 64 + c) / 4 / 16 = b := by omega
  have h₃ : (b % 16 * 64 + c) / 4 % 16 * 4 = c / 4 * 4 := by omega
  rw [encodeBase64, hx, hy, h₁, h₂, h₃]
  rfl

/-- Two sextets are one byte, which has no place for the last four bits. -/
theorem encodeBase64_one {a b : Nat} (ha : a < 64) (hb : b < 64) :
    encodeBase64 [UInt8.ofNat ((a * 64 + b) / 16)] = [a, b / 16 * 16].map fromSextet ++ List.replicate 2 '=' := by
  have hx : (UInt8.ofNat ((a * 64 + b) / 16)).toNat = (a * 64 + b) / 16 := toNat_byte (by omega)
  have h₁ : (a * 64 + b) / 16 / 4 = a := by omega
  have h₂ : (a * 64 + b) / 16 % 4 * 16 = b / 16 * 16 := by omega
  rw [encodeBase64, hx, h₁, h₂]
  rfl

theorem append_padding_inj {xs ys : List Char} (h : xs.length = ys.length) {k j : Nat} :
    xs ++ List.replicate k '=' = ys ++ List.replicate j '=' ↔ xs = ys ∧ k = j := by
  constructor
  · intro heq
    obtain ⟨hsame, hpadding⟩ := List.append_inj heq h
    exact ⟨hsame, by simpa using congrArg List.length hpadding⟩
  · rintro ⟨rfl, rfl⟩
    rfl

/-- When whole bytes and padding spell what the sextets and the padding do. -/
theorem encodeBase64_bytesOf_iff {sextets : List Nat} (hsextets : ∀ n ∈ sextets, n < 64) (k : Nat) :
    sextets.map fromSextet ++ List.replicate k '=' = encodeBase64 (bytesOf sextets) ↔
      4 ∣ sextets.length + k ∧ k ≤ 2 ∧ sextets.getLastD 0 % 4 ^ k = 0 := by
  fun_induction bytesOf sextets with
  | case1 a b c d rest ih =>
    simp only [List.mem_cons, forall_eq_or_imp] at hsextets
    obtain ⟨ha, hb, hc, hd, hrest⟩ := hsextets
    have hsplit : (a :: b :: c :: d :: rest).map fromSextet ++ List.replicate k '=' =
        [a, b, c, d].map fromSextet ++ (rest.map fromSextet ++ List.replicate k '=') := by simp
    rw [encodeBase64_group ha hb hc hd, hsplit, List.append_cancel_left_eq, ih hrest]
    have hlength : (a :: b :: c :: d :: rest).length = rest.length + 4 := rfl
    rw [hlength]
    cases rest with
    | nil =>
      have hzero : 4 ∣ 0 + 4 + k ∧ k ≤ 2 ↔ k = 0 := by omega
      have hzero' : 4 ∣ 0 + k ∧ k ≤ 2 ↔ k = 0 := by omega
      rw [← and_assoc, ← and_assoc, List.length_nil, hzero, hzero']
      constructor
      · rintro ⟨rfl, -⟩
        exact ⟨rfl, Nat.mod_one _⟩
      · rintro ⟨rfl, -⟩
        exact ⟨rfl, Nat.mod_one _⟩
    | cons e rest =>
      refine and_congr (by omega) (and_congr_right fun _ => ?_)
      simp
  | case2 a b c =>
    simp only [List.mem_cons, forall_eq_or_imp] at hsextets
    obtain ⟨ha, hb, hc, -⟩ := hsextets
    have hlast : fromSextet c = fromSextet (c / 4 * 4) ↔ c % 4 = 0 := (fromSextet_inj hc (by omega)).trans (by omega)
    rw [encodeBase64_two ha hb hc, append_padding_inj (by rfl)]
    simp only [List.map_cons, List.map_nil, List.cons.injEq, and_true, true_and, hlast, List.length_cons, List.length_nil]
    constructor
    · rintro ⟨hunused, rfl⟩
      exact ⟨by decide, by decide, hunused⟩
    · rintro ⟨hgroups, hk, hunused⟩
      obtain rfl : k = 1 := by omega
      exact ⟨hunused, rfl⟩
  | case3 a b =>
    simp only [List.mem_cons, forall_eq_or_imp] at hsextets
    obtain ⟨ha, hb, -⟩ := hsextets
    have hlast : fromSextet b = fromSextet (b / 16 * 16) ↔ b % 16 = 0 := (fromSextet_inj hb (by omega)).trans (by omega)
    rw [encodeBase64_one ha hb, append_padding_inj (by rfl)]
    simp only [List.map_cons, List.map_nil, List.cons.injEq, and_true, true_and, hlast, List.length_cons, List.length_nil]
    constructor
    · rintro ⟨hunused, rfl⟩
      exact ⟨by decide, by decide, hunused⟩
    · rintro ⟨hgroups, hk, hunused⟩
      obtain rfl : k = 2 := by omega
      exact ⟨hunused, rfl⟩
  | case4 sextets hfour hthree htwo =>
    rcases sextets with _ | ⟨a, _ | ⟨b, _ | ⟨c, _ | ⟨d, rest⟩⟩⟩⟩
    · simp [encodeBase64]
      omega
    · simp [encodeBase64]
      omega
    · exact absurd rfl (htwo a b)
    · exact absurd rfl (hthree a b c)
    · exact absurd rfl (hfour a b c d rest)

theorem Loose.whole_iff (h : Loose text) : text = encodeBase64 (bytesOf (valuesOf text)) ↔ Whole text := by
  have hlast : (toSextet ((sextetsOf text).getLastD 'A')).toNat = (valuesOf text).getLastD 0 := by
    rw [valuesOf, List.getLastD_eq_getLast?, List.getLastD_eq_getLast?, List.getLast?_map]
    cases (sextetsOf text).getLast? with
    | none => rfl
    | some c => rfl
  have hlength : text.length = (valuesOf text).length + (paddingOf text).length := by
    rw [valuesOf, List.length_map, ← List.length_append]
    exact congrArg List.length List.takeWhile_append_dropWhile.symm
  have hspelled := encodeBase64_bytesOf_iff h.small (paddingOf text).length
  rw [← h.spelled, ← hlength, ← hlast] at hspelled
  rw [hspelled]
  exact ⟨fun ⟨hgroups, hpadding, hunused⟩ => ⟨hgroups, hpadding, hunused⟩,
    fun hwhole => ⟨hwhole.groups, hwhole.padding, hwhole.unused⟩⟩

theorem bytesOf_eq_nil {sextets : List Nat} : bytesOf sextets = [] ↔ sextets.length < 2 := by
  fun_cases bytesOf sextets with
  | case1 a b c d rest => simp
  | case2 a b c => simp
  | case3 a b => simp
  | case4 sextets hfour hthree htwo =>
    match sextets with
    | [] => simp
    | [a] => simp
    | [a, b] => exact absurd rfl (htwo a b)
    | [a, b, c] => exact absurd rfl (hthree a b c)
    | a :: b :: c :: d :: rest => exact absurd rfl (hfour a b c d rest)

end Sextets

theorem exact_iff_whole (body : List Char) : Exact body ↔
    (Loose (withoutSpace body) → 2 ≤ (sextetsOf (withoutSpace body)).length → Whole (withoutSpace body)) := by
  rw [exact_iff, decodeBase64_eq]
  by_cases hloose : Loose (withoutSpace body)
  · have hnonempty : bytesOf (valuesOf (withoutSpace body)) ≠ [] ↔ 2 ≤ (sextetsOf (withoutSpace body)).length := by
      rw [ne_eq, bytesOf_eq_nil, valuesOf, List.length_map, Nat.not_lt]
    rw [if_pos hloose, ← hloose.whole_iff, ← hnonempty]
    constructor
    · exact fun hall _ => hall _ rfl
    · intro hwhole bytes hbytes
      cases hbytes
      exact hwhole hloose
  · rw [if_neg hloose]
    exact iff_of_true (fun bytes h => by cases h) fun h => absurd h hloose

/-- The certificates are what the blocks contribute. A block contributes what it encodes, unless its
body is loose base64 of two sextets or more that is not whole. -/
theorem pemBlock_exact_iff (content : List Char) {body : List Char} (hbody : body ∈ pemBodies content) :
    decodeCertificates content = (pemBodies content).filterMap certificateOf ∧
      (Exact body ↔
        (Loose (withoutSpace body) → 2 ≤ (sextetsOf (withoutSpace body)).length → Whole (withoutSpace body))) := by
  refine ⟨?_, exact_iff_whole body⟩
  unfold pemBodies at hbody ⊢
  cases hstart : findFrom BeginMarker content 0 with
  | none =>
    rw [hstart] at hbody
    cases hbody
  | some start =>
    have hloop : decodeCertificates content = decodeBlocks content [] start := by
      unfold decodeCertificates
      rw [hstart]
    rw [hloop, decodeBlocks_bodiesFrom]
    rfl

def oneBlock (body : String) : List Char := BeginMarker ++ body.toList ++ EndMarker

/-- A block of one byte. -/
theorem pemBlock_exact_byte : Exact "\nAA==\n".toList := by
  have hbodies : pemBodies (oneBlock "\nAA==\n") = ["\nAA==\n".toList] := by decide +kernel
  refine (pemBlock_exact_iff (oneBlock "\nAA==\n") (by rw [hbodies]; exact List.mem_cons_self)).2.mpr fun _ _ => ?_
  exact ⟨by decide, by decide, by decide⟩

/-- Without its padding the same block contributes the byte all the same. -/
theorem pemBlock_truncated : decodeCertificates (oneBlock "AA") = [[0]] ∧
    pemBodies (oneBlock "AA") = ["AA".toList] ∧ ¬ Exact "AA".toList := by
  refine ⟨by decide +kernel, by decide +kernel, fun hexact => ?_⟩
  have hencoded := ((hexact [0]).mp (by decide)).2
  exact absurd hencoded (by decide)

end TgeCore.Net
