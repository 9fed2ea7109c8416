import PolicyLint.Uri.FilePath
/-!
# From a path to its URI and back

The bytes of a text are read back as that text, and a percent-encoded path is decoded to itself. So
the URI of a file names that file again, and two files have one URI only if they are spelled alike.
-/

namespace PolicyLint

namespace Utf8

/-! ## Reading back the bytes of a text -/

theorem rest_zero (low high : UInt8) (bits : Nat) (bs : List UInt8) :
    rest 0 low high bits bs = (Char.ofNat bits, bs) := by
  cases bs <;> rfl

/-- A byte that continues a character gives six bits. -/
theorem rest_continuation {count m bits : Nat} {low high : UInt8} (bs : List UInt8) (hm : m < 64)
    (hlow : low.toNat ≤ m + 0x80) (hhigh : m + 0x80 ≤ high.toNat) :
    rest (count + 1) low high bits (.ofNat (m + 0x80) :: bs) =
      rest count 0x80 0xBF (bits * 64 + m) bs := by
  have hb : (UInt8.ofNat (m + 0x80)).toNat = m + 0x80 := by
    rw [UInt8.toNat_ofNat']
    omega
  have hbits : ∀ m < 64, (UInt8.ofNat (m + 0x80) &&& 0x3F).toNat = m := by decide
  rw [rest, if_pos, hbits m hm]
  rw [UInt8.le_iff_toNat_le, UInt8.le_iff_toNat_le, hb]
  exact ⟨hlow, hhigh⟩

theorem lead?_two : ∀ n < 32, n < 2 ∨ lead? (.ofNat (n + 0xC0)) = some (1, 0x80, 0xBF, n) := by
  decide

theorem lead?_three : ∀ n < 16, lead? (.ofNat (n + 0xE0)) =
    some (2, if n = 0 then 0xA0 else 0x80, if n = 13 then 0x9F else 0xBF, n) := by
  decide

theorem lead?_four : ∀ n < 5, lead? (.ofNat (n + 0xF0)) =
    some (3, if n = 0 then 0x90 else 0x80, if n = 4 then 0x8F else 0xBF, n) := by
  decide

theorem decodeLossy_lead {b : UInt8} (bs : List UInt8) {count bits : Nat} {low high : UInt8}
    (hb : 0x80 ≤ b.toNat) (hl : lead? b = some (count, low, high, bits)) :
    decodeLossy (b :: bs) =
      (rest count low high bits bs).1 :: decodeLossy (rest count low high bits bs).2 := by
  have hn : ¬b < 0x80 := by
    rw [UInt8.lt_iff_toNat_lt]
    exact Nat.not_lt.2 hb
  rw [decodeLossy, if_neg hn, hl]

theorem decodeLossy_encodeChar (c : Char) (bs : List UInt8) :
    decodeLossy (String.utf8EncodeChar c ++ bs) = c :: decodeLossy bs := by
  have hv := c.valid
  have hc : Char.ofNat c.val.toNat = c := Char.ofNat_toNat c
  simp only [UInt32.isValidChar, Nat.isValidChar] at hv
  unfold String.utf8EncodeChar
  generalize c.val.toNat = v at hv hc
  dsimp only
  split
  · next h =>
    have hb : (UInt8.ofNat v).toNat = v := by
      rw [UInt8.toNat_ofNat']
      omega
    have hlt : UInt8.ofNat v < 0x80 := by
      rw [UInt8.lt_iff_toNat_lt, hb]
      exact Nat.lt_succ_of_le h
    rw [List.singleton_append, decodeLossy, if_pos hlt, hb, hc]
  · split
    · next h1 h2 =>
      have hbits : v / 64 % 0x20 * 64 + v % 0x40 = v := by omega
      simp only [List.cons_append, List.nil_append]
      rw [decodeLossy_lead _ (by rw [UInt8.toNat_ofNat']; omega)
          ((lead?_two (v / 64 % 0x20) (by omega)).resolve_left (by omega)),
        rest_continuation _ (by omega) (by simp) (by simp; omega), rest_zero, hbits, hc]
    · split
      · next h1 h2 h3 =>
        have hbits : (v / 4096 % 0x10 * 64 + v / 64 % 0x40) * 64 + v % 0x40 = v := by omega
        simp only [List.cons_append, List.nil_append]
        rw [decodeLossy_lead _ (by rw [UInt8.toNat_ofNat']; omega)
            (lead?_three (v / 4096 % 0x10) (by omega)),
          rest_continuation _ (by omega) (by split <;> simp; omega) (by split <;> simp <;> omega),
          rest_continuation _ (by omega) (by simp) (by simp; omega), rest_zero, hbits, hc]
      · next h1 h2 h3 =>
        have hbits : ((v / 262144 % 0x08 * 64 + v / 4096 % 0x40) * 64 + v / 64 % 0x40) * 64 +
            v % 0x40 = v := by omega
        simp only [List.cons_append, List.nil_append]
        rw [decodeLossy_lead _ (by rw [UInt8.toNat_ofNat']; omega)
            (lead?_four (v / 262144 % 0x08) (by omega)),
          rest_continuation _ (by omega) (by split <;> simp; omega) (by split <;> simp <;> omega),
          rest_continuation _ (by omega) (by simp) (by simp; omega),
          rest_continuation _ (by omega) (by simp) (by simp; omega), rest_zero, hbits, hc]

/-- The bytes of a text are read back as that text. -/
theorem decodeLossy_encode (cs : List Char) : decodeLossy (encode cs) = cs := by
  induction cs with
  | nil => simp [decodeLossy]
  | cons c cs ih => rw [encode_cons, decodeLossy_encodeChar, ih]

end Utf8

namespace Uri

/-! ## Undoing the percent-encoding -/

theorem percentDecode_cons {c : Char} (h : c ≠ '%') (cs : List Char) :
    percentDecode (c :: cs) = Utf8.encode [c] ++ percentDecode cs := by
  rw [percentDecode]
  intro a b rest hc
  exact absurd hc h

/-- The bytes that are written as themselves are characters, and none of them is `%`. -/
theorem encode_of_isUnreserved : ∀ b : Fin 256,
    (isUnreserved (Char.ofNat b) = true ∨ Char.ofNat b = '/') →
      Char.ofNat b ≠ '%' ∧ Utf8.encode [Char.ofNat b] = [.ofNat b] := by
  decide +kernel

theorem hexValue_hexDigit : ∀ n < 16, hexValue (hexDigit n) = n := by
  decide

theorem percentDecode_percentEncode (b : UInt8) (cs : List Char) :
    percentDecode (percentEncode b ++ cs) = b :: percentDecode cs := by
  have hlt := b.toNat_lt
  unfold percentEncode
  dsimp only
  split
  · next h =>
    obtain ⟨hne, he⟩ := encode_of_isUnreserved ⟨b.toNat, hlt⟩ (by simpa using h)
    rw [List.singleton_append, percentDecode_cons hne, he]
    simp
  · have hsum : b.toNat / 16 * 16 + b.toNat % 16 = b.toNat := by omega
    simp only [List.cons_append, List.nil_append, percentDecode]
    rw [hexValue_hexDigit _ (by omega), hexValue_hexDigit _ (by omega), hsum, UInt8.ofNat_toNat]

theorem percentDecode_flatMap (bs : List UInt8) :
    percentDecode (bs.flatMap percentEncode) = bs := by
  induction bs with
  | nil => rfl
  | cons b bs ih => rw [List.flatMap_cons, percentDecode_percentEncode, ih]

/-! ## The URI of a file -/

theorem filePath?_ofAbsolute {p : Path} (h : p.text ≠ "") : (ofAbsolute p).filePath? = some p := by
  have hpath : (ofAbsolute p).path.toList =
      (Utf8.encode p.text.toList).flatMap percentEncode := by
    simp [ofAbsolute]
  have hne : (ofAbsolute p).path ≠ "" := by
    intro he
    have := percentDecode_flatMap (Utf8.encode p.text.toList)
    rw [← hpath, he] at this
    have hd := Utf8.decodeLossy_encode p.text.toList
    rw [← this] at hd
    have hnil : p.text.toList = [] := by simpa [percentDecode, Utf8.decodeLossy] using hd.symm
    exact h (by simpa using hnil)
  rw [filePath?, if_neg hne, hpath, percentDecode_flatMap, Utf8.decodeLossy_encode,
    String.ofList_toList]

/-- Two files have one URI only if they are spelled alike. -/
theorem ofAbsolute_inj {p q : Path} (hp : p.text ≠ "") (hq : q.text ≠ "")
    (h : ofAbsolute p = ofAbsolute q) : p = q := by
  have hf := filePath?_ofAbsolute hp
  rw [h, filePath?_ofAbsolute hq] at hf
  exact (Option.some.inj hf).symm

end Uri

end PolicyLint
