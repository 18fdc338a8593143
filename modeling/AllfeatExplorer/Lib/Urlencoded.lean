import AllfeatExplorer.Lib.Joined

/-!
# Query strings

Text as the web writes it: the UTF-16 code units strings are ordered by,
the UTF-8 bytes they are sent as, and name and value pairs as
`application/x-www-form-urlencoded`. Each can be read back, so no two
lists of pairs have one query string, `serialize_inj`.
-/

namespace AllfeatExplorer

namespace Urlencoded

variable {c : Char} {t t' : List Char} {b : UInt8}

/-! ## Code units -/

/-- The code units of a character: itself, or a surrogate pair. -/
def utf16Char (c : Char) : List ℕ :=
  if c.toNat < 0x10000 then [c.toNat]
  else [0xD800 + (c.toNat - 0x10000) / 0x400, 0xDC00 + (c.toNat - 0x10000) % 0x400]

/-- The code units of a text. -/
def utf16 (t : List Char) : List ℕ := t.flatMap utf16Char

/-- The character whose code units come first. -/
def nextUtf16 : List ℕ → Option Char
  | [] => none
  | [unit] => some (Char.ofNat unit)
  | unit :: low :: _ =>
    if 0xD800 ≤ unit ∧ unit < 0xDC00 then
      some (Char.ofNat (0x10000 + (unit - 0xD800) * 0x400 + (low - 0xDC00)))
    else some (Char.ofNat unit)

/-- A character is no surrogate, and below the last plane's end. -/
theorem toNat_bounds (c : Char) : c.toNat < 0xD800 ∨ 0xDFFF < c.toNat ∧ c.toNat < 0x110000 :=
  c.valid

/-- **Code units can be read off the front.** -/
theorem readsNext_utf16 : ReadsNext utf16Char nextUtf16 where
  nil := rfl
  code c rest := by
    have hc := toNat_bounds c
    unfold utf16Char
    split_ifs with hlt
    · cases rest with
      | nil => rw [List.append_nil, nextUtf16, Char.ofNat_toNat]
      | cons low rest =>
        rw [List.singleton_append, nextUtf16, if_neg (by omega), Char.ofNat_toNat]
    · rw [List.cons_append, List.singleton_append, nextUtf16, if_pos (by omega)]
      rw [show 0x10000 + (0xD800 + (c.toNat - 0x10000) / 0x400 - 0xD800) * 0x400 +
        (0xDC00 + (c.toNat - 0x10000) % 0x400 - 0xDC00) = c.toNat by omega, Char.ofNat_toNat]

theorem utf16_inj (h : utf16 t = utf16 t') : t = t' := readsNext_utf16.flatMap_inj h

/-! ## Bytes -/

/-- The bytes of a text. -/
def utf8 (t : List Char) : List UInt8 := t.flatMap String.utf8EncodeChar

theorem utf8_inj (h : utf8 t = utf8 t') : t = t' := by
  have hbytes : t.utf8Encode = t'.utf8Encode := congrArg List.toByteArray h
  have hread := congrArg ByteArray.utf8Decode? hbytes
  rw [List.utf8Decode?_utf8Encode, List.utf8Decode?_utf8Encode] at hread
  simpa using hread

/-! ## Percent encoding -/

/-- An upper-case hexadecimal digit. -/
def hexDigit (d : ℕ) : Char := (Nat.digitChar d).toUpper

/-- The digit a character writes. -/
def hexValue (c : Char) : ℕ := if c.toNat < 58 then c.toNat - 48 else c.toNat - 55

/-- The characters that stand for themselves. -/
def isKept (c : Char) : Bool := c.isAlphanum || c = '*' || c = '-' || c = '.' || c = '_'

/-- **One byte of a name or a value.** -/
def encodeByte (b : UInt8) : List Char :=
  if b = 0x20 then ['+']
  else if isKept (Char.ofNat b.toNat) then [Char.ofNat b.toNat]
  else ['%', hexDigit (b.toNat / 16), hexDigit (b.toNat % 16)]

/-- The byte written first. -/
def nextByte : List Char → Option UInt8
  | [] => none
  | '+' :: _ => some 0x20
  | '%' :: high :: low :: _ => some (UInt8.ofNat (16 * hexValue high + hexValue low))
  | c :: _ => some (UInt8.ofNat c.toNat)

theorem hexValue_hexDigit : ∀ d < 16, hexValue (hexDigit d) = d := by decide

theorem toNat_ofNat_byte : (Char.ofNat b.toNat).toNat = b.toNat := by
  have hb := b.toNat_lt
  have hvalid : b.toNat.isValidChar := Or.inl (by omega)
  rw [Char.ofNat, dif_pos hvalid]
  rfl

/-- **Encoded bytes can be read off the front.** -/
theorem readsNext_encodeByte : ReadsNext encodeByte nextByte where
  nil := rfl
  code b rest := by
    have hb := b.toNat_lt
    unfold encodeByte
    split_ifs with hspace hkept
    · rw [hspace]
      rfl
    · -- Neither `+` nor `%` stands for itself.
      have hplus : Char.ofNat b.toNat ≠ '+' := by
        intro heq
        rw [heq] at hkept
        exact absurd hkept (by decide)
      have hpercent : Char.ofNat b.toNat ≠ '%' := by
        intro heq
        rw [heq] at hkept
        exact absurd hkept (by decide)
      rw [List.singleton_append]
      unfold nextByte
      split
      · rename_i heq
        cases heq
      · rename_i heq
        exact absurd (List.cons.inj heq).1 hplus
      · rename_i heq
        exact absurd (List.cons.inj heq).1 hpercent
      · rename_i heq
        rw [← (List.cons.inj heq).1, toNat_ofNat_byte, UInt8.ofNat_toNat]
    · rw [List.cons_append, List.cons_append, List.singleton_append]
      show some (UInt8.ofNat _) = some b
      rw [hexValue_hexDigit _ (by omega), hexValue_hexDigit _ (by omega), Nat.div_add_mod,
        UInt8.ofNat_toNat]

/-- A name or a value, encoded. -/
def percent (t : List Char) : List Char := (utf8 t).flatMap encodeByte

/-- **Two texts have two encodings.** -/
theorem percent_inj (h : percent t = percent t') : t = t' :=
  utf8_inj (readsNext_encodeByte.flatMap_inj h)

/-- The characters that have a meaning in a query string. -/
def isDelimiter (c : Char) : Prop := c = '&' ∨ c = '=' ∨ c = '?'

theorem hexDigit_not_delimiter : ∀ d < 16, ¬isDelimiter (hexDigit d) := by
  unfold isDelimiter
  decide

/-- **No encoding has a delimiter.** -/
theorem notMem_percent (hc : isDelimiter c) : c ∉ percent t := by
  intro hmem
  obtain ⟨b, -, hb⟩ := List.mem_flatMap.1 hmem
  have hlt := b.toNat_lt
  have hother : c ≠ '+' ∧ c ≠ '%' ∧ isKept c = false := by
    rcases hc with rfl | rfl | rfl <;> decide
  unfold encodeByte at hb
  split_ifs at hb with hspace hkept
  · exact hother.1 (List.mem_singleton.1 hb)
  · rw [← List.mem_singleton.1 hb, hother.2.2] at hkept
    cases hkept
  · rcases List.mem_cons.1 hb with heq | hb
    · exact hother.2.1 heq
    · rcases List.mem_cons.1 hb with rfl | hb
      · exact hexDigit_not_delimiter _ (by omega) hc
      · rw [List.mem_singleton.1 hb] at hc
        exact hexDigit_not_delimiter _ (by omega) hc

/-! ## Pairs -/

/-- A name and its value. -/
def pair (p : List Char × List Char) : List Char := percent p.1 ++ '=' :: percent p.2

/-- **The query string** of a list of pairs. -/
def serialize (ps : List (List Char × List Char)) : List Char := ['&'].intercalate (ps.map pair)

theorem pair_inj {p q : List Char × List Char} (h : pair p = pair q) : p = q := by
  have hno (t : List Char) : '=' ∉ percent t := notMem_percent (Or.inr (Or.inl rfl))
  obtain ⟨hname, hvalue⟩ := split_last (hno _) (hno _) h
  exact Prod.ext (percent_inj hname.symm) (percent_inj hvalue.symm)

/-- The only delimiter of a pair is the equals sign. -/
theorem notMem_pair {p : List Char × List Char} (hc : isDelimiter c) (hne : c ≠ '=') :
    c ∉ pair p := by
  intro hmem
  rcases List.mem_append.1 hmem with hmem | hmem
  · exact notMem_percent hc hmem
  · rcases List.mem_cons.1 hmem with heq | hmem
    · exact hne heq
    · exact notMem_percent hc hmem

/-- **Two lists of pairs have two query strings.** -/
theorem serialize_inj {ps qs : List (List Char × List Char)} (hps : ps ≠ []) (hqs : qs ≠ [])
    (h : serialize ps = serialize qs) : ps = qs := by
  have hno (rs : List (List Char × List Char)) : ∀ p ∈ rs.map pair, '&' ∉ p := by
    intro p hp
    obtain ⟨r, -, rfl⟩ := List.mem_map.1 hp
    exact notMem_pair (Or.inl rfl) (by decide)
  have hpieces := intercalate_inj (hno ps) (hno qs) (by simpa using hps) (by simpa using hqs) h
  exact List.map_injective_iff.2 (fun _ _ => pair_inj) hpieces

/-- A query string does not begin another one. -/
theorem notMem_serialize {ps : List (List Char × List Char)} : '?' ∉ serialize ps := by
  induction ps with
  | nil => simp [serialize]
  | cons p ps ih =>
    have hpair : '?' ∉ pair p := notMem_pair (Or.inr (Or.inr rfl)) (by decide)
    cases ps with
    | nil => simpa [serialize] using hpair
    | cons q qs =>
      rw [serialize, List.map_cons, intercalate_cons (by simp)]
      intro hmem
      rcases List.mem_append.1 hmem with hmem | hmem
      · exact hpair hmem
      · rcases List.mem_cons.1 hmem with heq | hmem
        · exact absurd heq (by decide)
        · exact ih hmem

end Urlencoded

end AllfeatExplorer
