import Readout.Value.Text

/-!
# The characters of a printed value

A value is printed with digits, a sign, a point, or as one of the words for what is not a number or
not finite, and never as nothing. So no byte of its text is one that separates values or lines.
-/
namespace Readout

/-- A character that occurs in the text of a value. -/
def Printed (c : Char) : Prop := c.isDigit = true ∨ c ∈ ['-', '.', 'N', 'a', 'i', 'n', 'f']

theorem printed_of_mem_zeros {n : Nat} {c : Char} (h : c ∈ (zeros n).toList) : Printed c := by
  rw [zeros, String.toList_ofList] at h
  rw [List.eq_of_mem_replicate h]
  exact .inl rfl

theorem toList_toString_nat (n : Nat) : (toString n).toList = Nat.toDigits 10 n :=
  String.toList_ofList

theorem printed_of_mem_digits {n : Nat} {c : Char} (h : c ∈ (toString n).toList) : Printed c := by
  rw [toList_toString_nat] at h
  exact .inl (Nat.isDigit_of_mem_toDigits (by decide) (by decide) h)

namespace Decimal.Digits

theorem printed_of_mem_positional {d : Digits} {c : Char} (h : c ∈ d.positional.toList) :
    Printed c := by
  have hdigits : ∀ c ∈ (toString d.digits).toList, Printed c := fun c => printed_of_mem_digits
  have htake : ∀ n, ∀ c ∈ ((toString d.digits).take n).toString.toList, Printed c := by
    intro n c hc
    change c ∈ ((toString d.digits).take n).copy.toList at hc
    rw [String.toList_copy_take] at hc
    exact hdigits c (List.mem_of_mem_take hc)
  have hdrop : ∀ n, ∀ c ∈ ((toString d.digits).drop n).toString.toList, Printed c := by
    intro n c hc
    change c ∈ ((toString d.digits).drop n).copy.toList at hc
    rw [String.toList_copy_drop] at hc
    exact hdigits c (List.mem_of_mem_drop hc)
  have hpoint : ∀ c ∈ ".".toList, Printed c := by simp [Printed]
  have hzero : ∀ c ∈ "0.".toList, Printed c := by simp [Printed]
  rw [positional] at h
  dsimp only at h
  split at h
  · rw [String.toList_append, List.mem_append] at h
    exact h.elim (hdigits c) printed_of_mem_zeros
  · split at h
    · simp only [String.toList_append, List.mem_append] at h
      rcases h with (h | h) | h
      · exact htake _ c h
      · exact hpoint c h
      · exact hdrop _ c h
    · simp only [String.toList_append, List.mem_append] at h
      rcases h with (h | h) | h
      · exact hzero c h
      · exact printed_of_mem_zeros h
      · exact hdigits c h

theorem positional_ne_empty (d : Digits) : d.positional ≠ "" := by
  have hdigits : (toString d.digits).toList ≠ [] := by
    rw [toList_toString_nat]
    exact List.ne_nil_of_length_pos Nat.length_toDigits_pos
  intro h
  have hnil := congrArg String.toList h
  rw [positional] at hnil
  dsimp only at hnil
  split at hnil
  · rw [String.toList_append] at hnil
    exact hdigits (List.append_eq_nil_iff.1 hnil).1
  · split at hnil <;> simp at hnil

end Decimal.Digits

namespace Value

theorem printed_of_mem_text {v : Value} {c : Char} (h : c ∈ v.text.toList) : Printed c := by
  have hsign : ∀ c ∈ v.sign.toList, Printed c := by
    rw [sign]
    split <;> simp [Printed]
  have hnan : ∀ c ∈ "NaN".toList, Printed c := by simp [Printed]
  have hinf : ∀ c ∈ "inf".toList, Printed c := by simp [Printed]
  have hzero : ∀ c ∈ "0".toList, Printed c := by simp [Printed]
  rw [text] at h
  split at h
  · exact hnan c h
  · split at h
    · rw [String.toList_append, List.mem_append] at h
      exact h.elim (hsign c) (hinf c)
    · split at h
      · rw [String.toList_append, List.mem_append] at h
        exact h.elim (hsign c) (hzero c)
      · rw [String.toList_append, List.mem_append] at h
        exact h.elim (hsign c) Decimal.Digits.printed_of_mem_positional

theorem text_ne_empty (v : Value) : v.text ≠ "" := by
  rw [text]
  split
  · decide
  · split
    · intro h
      have hnil := congrArg String.toList h
      simp at hnil
    · split
      · intro h
        have hnil := congrArg String.toList h
        simp at hnil
      · intro h
        rw [String.append_eq_empty_iff] at h
        exact Decimal.Digits.positional_ne_empty _ h.2

end Value

section Bytes

theorem toList_loop (bs : ByteArray) (i : Nat) (bytes : List UInt8) :
    ByteArray.toList.loop bs i bytes = bytes.reverse ++ bs.data.toList.drop i := by
  fun_induction ByteArray.toList.loop bs i bytes with
  | case1 i bytes h ih =>
    have hlt : i < bs.data.toList.length := h
    have hget : bs.get! i = bs.data.toList[i] := getElem!_pos bs.data i h
    rw [ih, List.reverse_cons, List.append_assoc, List.drop_eq_getElem_cons hlt, hget]
    rfl
  | case2 i bytes h =>
    have hge : bs.data.toList.length ≤ i := Nat.not_lt.1 h
    rw [List.drop_eq_nil_of_le hge, List.append_nil]

theorem toList_byteArray (bs : ByteArray) : bs.toList = bs.data.toList := toList_loop bs 0 []

theorem toList_toUTF8 (s : String) : s.toUTF8.toList = s.toList.flatMap String.utf8EncodeChar := by
  rw [toList_byteArray]
  change s.toByteArray.data.toList = _
  rw [← String.utf8Encode_toList, List.utf8Encode]
  exact List.toList_data_toByteArray

/-- The bytes of a text decode to it. -/
theorem fromUTF8?_toUTF8 (s : String) : String.fromUTF8? s.toUTF8.toList.toByteArray = some s := by
  have hbytes : s.toUTF8.toList.toByteArray = s.toByteArray := by
    rw [toList_byteArray]
    exact ByteArray.ext (Array.ext' List.toList_data_toByteArray)
  have hvalid : s.toByteArray.IsValidUTF8 := s.isValidUTF8
  rw [hbytes, String.fromUTF8?, dif_pos hvalid]
  rfl

/-- Characters of printed values take one byte, and none of them separates values or lines. -/
theorem utf8EncodeChar_of_printed {c : Char} (h : Printed c) :
    ∃ b, String.utf8EncodeChar c = [b] ∧ b ≠ 44 ∧ b ≠ 10 := by
  have hcode : c.val.toNat < 128 ∧ c.val.toNat ≠ 44 ∧ c.val.toNat ≠ 10 := by
    rcases h with h | h
    · rw [Char.isDigit, Bool.and_eq_true, decide_eq_true_eq, decide_eq_true_eq] at h
      have hlow : 48 ≤ c.val.toNat := UInt32.le_iff_toNat_le.1 h.1
      have hhigh : c.val.toNat ≤ 57 := UInt32.le_iff_toNat_le.1 h.2
      omega
    · simp only [List.mem_cons, List.not_mem_nil, or_false] at h
      rcases h with rfl | rfl | rfl | rfl | rfl | rfl | rfl <;> decide
  have hsize : c.utf8Size = 1 := Char.utf8Size_eq_one_iff.2 (UInt32.le_iff_toNat_le.2 (by
    have h127 : (127 : UInt32).toNat = 127 := rfl
    omega))
  have hbyte : c.val.toUInt8.toNat = c.val.toNat := by
    rw [UInt32.toNat_toUInt8]
    omega
  refine ⟨_, String.utf8EncodeChar_eq_singleton hsize, fun hb => ?_, fun hb => ?_⟩
  · exact hcode.2.1 (hbyte.symm.trans (congrArg UInt8.toNat hb))
  · exact hcode.2.2 (hbyte.symm.trans (congrArg UInt8.toNat hb))

theorem Value.ne_separator_of_mem {v : Value} {b : UInt8} (h : b ∈ v.text.toUTF8.toList) :
    b ≠ 44 ∧ b ≠ 10 := by
  rw [toList_toUTF8, List.mem_flatMap] at h
  obtain ⟨c, hc, hb⟩ := h
  obtain ⟨b', hone, hne⟩ := utf8EncodeChar_of_printed (printed_of_mem_text hc)
  rw [hone, List.mem_singleton] at hb
  rwa [hb]

theorem Value.text_bytes_ne_nil (v : Value) : v.text.toUTF8.toList ≠ [] := by
  intro h
  have hs := fromUTF8?_toUTF8 v.text
  rw [h] at hs
  exact v.text_ne_empty (Option.some.inj hs).symm

end Bytes

end Readout
