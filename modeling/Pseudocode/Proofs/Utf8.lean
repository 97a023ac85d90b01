import Pseudocode.Encoding
import Mathlib.Data.List.Basic

namespace Pseudocode

open List

namespace Encoding

theorem bytes_loop (bytes : ByteArray) (place : Nat) (read : List UInt8) :
    ByteArray.toList.loop bytes place read = read.reverse ++ bytes.data.toList.drop place := by
  induction place, read using ByteArray.toList.loop.induct bytes with
  | case1 place read inside ih =>
    have bound : place < bytes.data.toList.length := by simpa using inside
    rw [ByteArray.toList.loop, if_pos inside, ih, drop_eq_getElem_cons bound]
    simp [ByteArray.get!, inside]
  | case2 place read outside =>
    have past : bytes.data.toList.length ≤ place := by simpa using outside
    rw [ByteArray.toList.loop, if_neg outside, drop_eq_nil_of_le past, append_nil]

theorem encode_eq (text : Text) : encode text = text.flatMap String.utf8EncodeChar := by
  show ByteArray.toList.loop _ 0 [] = _
  rw [bytes_loop]
  simp [String.toUTF8, utf8Encode]

theorem toNat_byte {number : Nat} (small : number < 256) : (UInt8.ofNat number).toNat = number :=
  UInt8.toNat_ofNat_of_lt small

/-- A continuation byte holds the next six bits. -/
theorem continuation_byte {read bits least most count number : Nat} {rest : List UInt8}
    (lower : least ≤ number % 64 + 128) (upper : number % 64 + 128 ≤ most) :
    continuation read bits least most (count + 1) (UInt8.ofNat (number % 64 + 128) :: rest) =
      continuation (read + 1) (bits * 64 + number % 64) 0x80 0xbf count rest := by
  have value : (UInt8.ofNat (number % 64 + 128)).toNat = number % 64 + 128 := toNat_byte (by omega)
  rw [continuation, value, if_pos ⟨lower, upper⟩, Nat.add_sub_cancel]

/-- The ranges of the first continuation byte keep out just what is no character. -/
theorem character_encoded (c : Char) (rest : List UInt8) :
    ∃ byte bytes, String.utf8EncodeChar c ++ rest = byte :: bytes ∧ character byte bytes = .ok (c, rest) := by
  have valid : c.val.toNat < 0xd800 ∨ 0xdfff < c.val.toNat ∧ c.val.toNat < 0x110000 := c.valid
  have whole : Char.ofNat c.val.toNat = c := Char.ofNat_toNat c
  unfold String.utf8EncodeChar
  generalize c.val.toNat = number at valid whole
  simp only
  split
  · refine ⟨_, _, rfl, ?_⟩
    rw [character, toNat_byte (by omega), startByte?, if_pos (by omega)]
    simp [continuation, Except.map, whole]
  split
  · refine ⟨_, _, rfl, ?_⟩
    rw [character, toNat_byte (by omega), startByte?, if_neg (by omega), if_neg (by omega), if_pos (by omega)]
    simp only [append_eq, cons_append, nil_append]
    rw [continuation_byte (by omega) (by omega), continuation, Except.map]
    dsimp only
    rw [show (number / 64 % 32 + 192 - 0xc0) * 64 + number % 64 = number by omega, whole]
  split
  · refine ⟨_, _, rfl, ?_⟩
    rw [character, toNat_byte (by omega), startByte?, if_neg (by omega), if_neg (by omega), if_neg (by omega),
      if_pos (by omega)]
    simp only [append_eq, cons_append, nil_append]
    rw [continuation_byte (by split <;> omega) (by split <;> omega), continuation_byte (by omega) (by omega),
      continuation, Except.map]
    dsimp only
    rw [show ((number / 4096 % 16 + 224 - 0xe0) * 64 + number / 64 % 64) * 64 + number % 64 = number by omega,
      whole]
  · refine ⟨_, _, rfl, ?_⟩
    rw [character, toNat_byte (by omega), startByte?, if_neg (by omega), if_neg (by omega), if_neg (by omega),
      if_neg (by omega), if_pos (by omega)]
    simp only [append_eq, cons_append, nil_append]
    rw [continuation_byte (by split <;> omega) (by split <;> omega), continuation_byte (by omega) (by omega),
      continuation_byte (by omega) (by omega), continuation, Except.map]
    dsimp only
    rw [show (((number / 262144 % 8 + 240 - 0xf0) * 64 + number / 4096 % 64) * 64 + number / 64 % 64) * 64 +
      number % 64 = number by omega, whole]

theorem decodeUtf8_encoded (place : Nat) (text : Text) :
    decodeUtf8 place (text.flatMap String.utf8EncodeChar) = .ok text := by
  induction text generalizing place with
  | nil => rw [flatMap_nil, decodeUtf8]
  | cons c text ih =>
    obtain ⟨byte, bytes, split, read⟩ := character_encoded c (text.flatMap String.utf8EncodeChar)
    rw [flatMap_cons, split, decodeUtf8]
    split
    · simp_all
    · rename_i found same
      rw [read] at same
      cases same
      rw [ih, Except.map]

/-- Every text is read back from its bytes. -/
theorem decode_encode (text : Text) : utf8.decode (encode text) = .ok text := by
  rw [encode_eq]
  exact decodeUtf8_encoded 0 text

end Encoding

end Pseudocode
