import DocGrammar.Text

/-!
# Texts as bytes

A text is printed character by character and read back byte by byte.  Two facts lead from the one to
the other: the bytes of a text are the bytes of its characters, one after the other; and a character
is either in ASCII and one byte, or it is not and none of its bytes are.
-/

set_option autoImplicit false

namespace DocGrammar
namespace Utf8

theorem encode_append (s t : String) : encode (s ++ t) = encode s ++ encode t := by
  rw [encode, String.toByteArray_append, ByteArray.data_append, Array.toList_append]
  rfl

theorem encode_ofList (letters : List Char) :
    encode (String.ofList letters) = letters.flatMap String.utf8EncodeChar := by
  rw [encode, String.toByteArray_ofList, List.utf8Encode, List.data_toByteArray]

theorem encode_eq_flatMap (text : String) :
    encode text = text.toList.flatMap String.utf8EncodeChar := by
  rw [← encode_ofList, String.ofList_toList]

theorem decode_encode (text : String) : decode (encode text) = some text :=
  dif_pos text.isValidUTF8

theorem encode_inj {s t : String} : encode s = encode t ↔ s = t := by
  refine ⟨fun h ↦ ?_, fun h ↦ h ▸ rfl⟩
  rw [← Option.some_inj, ← decode_encode s, h, decode_encode]

theorem encode_of_decode {bytes : List UInt8} {text : String} (h : decode bytes = some text) :
    encode text = bytes := by
  rw [decode, String.fromUTF8?] at h
  split at h
  · cases h
    rfl
  · cases h

/-! ## Characters -/

theorem encodeChar_ascii {c : Char} (h : c.toNat < 0x80) :
    String.utf8EncodeChar c = [UInt8.ofNat c.toNat] :=
  if_pos (Nat.le_of_lt_succ h)

/-- A sum with the bit of a byte that does not belong to ASCII. -/
theorem ofNat_le {n : Nat} (h : n < 0x100) (hn : 0x80 ≤ n) : 0x80 ≤ UInt8.ofNat n := by
  rw [UInt8.le_iff_toNat_le, UInt8.toNat_ofNat_of_lt' h]
  exact hn

theorem encodeChar_high {c : Char} (h : 0x80 ≤ c.toNat) :
    ∀ b ∈ String.utf8EncodeChar c, 0x80 ≤ b := by
  intro b hb
  have hv : ¬ c.val.toNat ≤ 0x7F := by
    show ¬ c.toNat ≤ 0x7F
    omega
  have hbound := c.val.toNat_lt
  unfold String.utf8EncodeChar at hb
  simp only [if_neg hv] at hb
  split at hb
  · simp only [List.mem_cons, List.not_mem_nil, or_false] at hb
    rcases hb with rfl | rfl
    · exact ofNat_le (by omega) (by omega)
    · exact ofNat_le (by omega) (by omega)
  · split at hb
    · simp only [List.mem_cons, List.not_mem_nil, or_false] at hb
      rcases hb with rfl | rfl | rfl
      · exact ofNat_le (by omega) (by omega)
      · exact ofNat_le (by omega) (by omega)
      · exact ofNat_le (by omega) (by omega)
    · simp only [List.mem_cons, List.not_mem_nil, or_false] at hb
      rcases hb with rfl | rfl | rfl | rfl
      · exact ofNat_le (by omega) (by omega)
      · exact ofNat_le (by omega) (by omega)
      · exact ofNat_le (by omega) (by omega)
      · exact ofNat_le (by omega) (by omega)

/-- No other character has a byte of ASCII among its own. -/
theorem encodeChar_ne {c d : Char} (hd : d.toNat < 0x80) (hne : c ≠ d) :
    ∀ b ∈ String.utf8EncodeChar c, b ≠ UInt8.ofNat d.toNat := by
  rintro b hb rfl
  have hlow : (UInt8.ofNat d.toNat).toNat = d.toNat :=
    UInt8.toNat_ofNat_of_lt' (Nat.lt_trans hd (by decide))
  by_cases hc : c.toNat < 0x80
  · rw [encodeChar_ascii hc, List.mem_singleton] at hb
    have hcode := congrArg UInt8.toNat hb
    rw [hlow, UInt8.toNat_ofNat_of_lt' (Nat.lt_trans hc (by decide))] at hcode
    exact hne (Char.toNat_inj.1 hcode.symm)
  · have hhigh := UInt8.le_iff_toNat_le.1 (encodeChar_high (Nat.le_of_not_lt hc) _ hb)
    rw [hlow] at hhigh
    exact absurd hhigh (Nat.not_le.2 hd)

end Utf8
end DocGrammar
