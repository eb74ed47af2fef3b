/-
  PawnApi.Proofs.Encoding

  The bytes of a text, character by character.

  The bytes of a text are those of its characters in order (`encode_ofList`). A character
  with a number below 128 is the one byte of that number; of every other character each
  byte is 128 or more. A byte below 128 therefore always stands for a whole character.
-/
import Mathlib.Data.List.Basic
import PawnApi.Text.Utf8

namespace PawnApi.Text.Utf8

theorem toList_loop_eq (bs : ByteArray) (i : Nat) (r : List UInt8) :
    ByteArray.toList.loop bs i r = r.reverse ++ bs.data.toList.drop i := by
  fun_induction ByteArray.toList.loop bs i r with
  | case1 i r hlt ih =>
    have hi : i < bs.data.toList.length := by simpa using hlt
    have hget : bs.get! i = bs.data.toList[i] := by
      rw [Array.getElem_toList]
      exact getElem!_pos bs.data i hlt
    rw [ih, List.drop_eq_getElem_cons hi, hget, List.reverse_cons, List.append_assoc]
    rfl
  | case2 i r hge =>
    have hi : bs.data.toList.length ≤ i := by simpa using hge
    rw [List.drop_eq_nil_of_le hi, List.append_nil]

theorem encode_injective : Function.Injective encode := by
  intro a b h
  rw [encode, encode, ByteArray.toList, ByteArray.toList, toList_loop_eq, toList_loop_eq] at h
  have hdata : a.toUTF8.data = b.toUTF8.data := by simpa [Array.toList_inj] using h
  exact String.toByteArray_inj.1 (ByteArray.ext hdata)

/-- The bytes of a text are those of its characters in order. -/
theorem encode_ofList (s : List Char) :
    encode (String.ofList s) = s.flatMap String.utf8EncodeChar := by
  rw [encode, ByteArray.toList, toList_loop_eq, String.toUTF8_eq_toByteArray,
    String.toByteArray_ofList, List.utf8Encode, List.toList_data_toByteArray]
  rfl

/-! ## One character -/

theorem utf8Size_of_lt {c : Char} (h : c.toNat < 128) : c.utf8Size = 1 := by
  rw [Char.utf8Size_eq_one_iff, UInt32.le_iff_toNat_le]
  exact Nat.le_of_lt_succ h

theorem encodeChar_of_lt {c : Char} (h : c.toNat < 128) :
    String.utf8EncodeChar c = [c.toUInt8] :=
  String.utf8EncodeChar_eq_singleton (utf8Size_of_lt h)

theorem ofUInt8_toUInt8 {c : Char} (h : c.toNat < 128) : Char.ofUInt8 c.toUInt8 = c := by
  have hv : c.val.toNat < 128 := h
  apply Char.ext
  apply UInt32.toNat_inj.1
  calc c.val.toUInt8.toUInt32.toNat = c.val.toNat % 256 := by
        rw [UInt8.toNat_toUInt32, UInt32.toNat_toUInt8]
    _ = c.val.toNat := Nat.mod_eq_of_lt (by omega)

theorem toNat_ofUInt8 (b : UInt8) : (Char.ofUInt8 b).toNat = b.toNat := rfl

/-- Every byte of a character that takes several is 128 or more. -/
theorem le_of_mem_encodeChar {c : Char} (h : 128 ≤ c.toNat) {b : UInt8}
    (hb : b ∈ String.utf8EncodeChar c) : 128 ≤ b.toNat := by
  have hv : c.toNat = c.val.toNat := rfl
  simp only [String.utf8EncodeChar] at hb
  split at hb
  · omega
  split at hb
  · simp only [List.mem_cons, List.not_mem_nil, or_false] at hb
    rcases hb with rfl | rfl <;> simp only [UInt8.toNat_ofNat'] <;> omega
  split at hb
  · simp only [List.mem_cons, List.not_mem_nil, or_false] at hb
    rcases hb with rfl | rfl | rfl <;> simp only [UInt8.toNat_ofNat'] <;> omega
  · simp only [List.mem_cons, List.not_mem_nil, or_false] at hb
    rcases hb with rfl | rfl | rfl | rfl <;> simp only [UInt8.toNat_ofNat'] <;> omega

end PawnApi.Text.Utf8
