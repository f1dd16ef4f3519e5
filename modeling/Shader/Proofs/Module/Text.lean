import Mathlib
import Shader.Module.Word

/-! # Texts in words

A text without a zero character is read back from its words, whatever words stand behind them. -/

namespace Shader

/-- The bytes in front of the first zero byte, and the words behind the one that has it. -/
def readText : List Word → Option (List UInt8 × List Word)
  | [] => none
  | word :: rest =>
    if 0 ∈ bytesOfWord word then some ((bytesOfWord word).takeWhile (· != 0), rest)
    else (readText rest).map fun (bytes, behind) => (bytesOfWord word ++ bytes, behind)

/-! ## Bytes in words -/

theorem bytesOfWord_wordOfBytes (first second third fourth : UInt8) :
    bytesOfWord (wordOfBytes first second third fourth) = [first, second, third, fourth] := by
  simp only [bytesOfWord, wordOfBytes, List.cons.injEq, and_true, ← UInt8.toBitVec_inj]
  refine ⟨?_, ?_, ?_, ?_⟩ <;> ext bit within <;> simp <;> grind

/-- The words hold the bytes, and then at least one zero byte and no other. -/
theorem littleEndian_terminatedWords (bytes : List UInt8) :
    littleEndian (terminatedWords bytes) = bytes ++ List.replicate (4 - bytes.length % 4) 0 := by
  fun_induction terminatedWords bytes with
  | case1 => rfl
  | case5 first second third fourth rest ih =>
    have short : (rest.length + 1 + 1 + 1 + 1) % 4 = rest.length % 4 := by omega
    simp [littleEndian_cons, bytesOfWord_wordOfBytes, ih, short]
  | _ => simp [littleEndian, bytesOfWord_wordOfBytes, List.replicate]

theorem readText_terminatedWords {bytes : List UInt8} (nonzero : 0 ∉ bytes) (rest : List Word) :
    readText (terminatedWords bytes ++ rest) = some (bytes, rest) := by
  fun_induction terminatedWords bytes with
  | case1 => rfl
  | case5 first second third fourth behind ih =>
    simp_all [readText, bytesOfWord_wordOfBytes]
  | _ =>
    rename_i nonzero
    simp only [List.mem_cons, not_or, ← ne_eq, ne_comm] at nonzero
    simp [readText, bytesOfWord_wordOfBytes, nonzero]

/-! ## Bytes of texts -/

theorem toList_bytes_loop (bytes : ByteArray) (position : Nat) (front : List UInt8) :
    ByteArray.toList.loop bytes position front = front.reverse ++ bytes.data.toList.drop position := by
  fun_induction ByteArray.toList.loop bytes position front with
  | case1 position front within ih =>
    have inside : position < bytes.data.toList.length := by simpa using within
    have read : bytes.get! position = bytes.data.toList[position] := getElem!_pos bytes.data position within
    rw [ih, List.drop_eq_getElem_cons inside, read]
    simp
  | case2 position front behind =>
    have behind : bytes.data.toList.length ≤ position := by simpa using behind
    simp [List.drop_eq_nil_of_le behind]

theorem toList_toUTF8 (text : String) : text.toUTF8.toList = text.toList.flatMap String.utf8EncodeChar := by
  rw [ByteArray.toList, toList_bytes_loop, String.toUTF8_eq_toByteArray, ← String.utf8Encode_toList]
  simp [List.utf8Encode]

theorem zero_notMem_utf8EncodeChar {char : Char} (visible : char ≠ '\x00') :
    0 ∉ String.utf8EncodeChar char := by
  have positive : char.val.toNat ≠ 0 := fun isZero => visible (Char.ext (UInt32.toNat_inj.1 isZero))
  fun_cases String.utf8EncodeChar char <;> simp [← UInt8.toNat_inj] <;> omega

theorem zero_notMem_toUTF8 {text : String} (plain : '\x00' ∉ text.toList) : 0 ∉ text.toUTF8.toList := by
  rw [toList_toUTF8, List.mem_flatMap]
  rintro ⟨char, found, isZero⟩
  exact zero_notMem_utf8EncodeChar (fun isNul => plain (isNul ▸ found)) isZero

theorem toUTF8_toList_inj {text other : String} (same : text.toUTF8.toList = other.toUTF8.toList) :
    text = other := by
  rw [toList_toUTF8, toList_toUTF8] at same
  rw [← String.toByteArray_inj, ← String.utf8Encode_toList, ← String.utf8Encode_toList, List.utf8Encode, same]
  rfl

/-- The bytes of a text without a zero character end at the first zero byte of its words, all bytes behind
it are zero, and what stands behind the words is left over. No other such text has these words. -/
theorem stringWords_readable {text : String} (plain : '\x00' ∉ text.toList) (rest : List Word) :
    (littleEndian (stringWords text ++ rest)).takeWhile (· != 0) = text.toUTF8.toList ∧
      readText (stringWords text ++ rest) = some (text.toUTF8.toList, rest) ∧
      (stringWords text).length = text.utf8ByteSize / 4 + 1 ∧
      (∀ byte ∈ (littleEndian (stringWords text)).drop text.utf8ByteSize, byte = 0) ∧
      ∀ other : String, '\x00' ∉ other.toList → stringWords other = stringWords text → other = text := by
  have nonzero := zero_notMem_toUTF8 plain
  have size : text.toUTF8.toList.length = text.utf8ByteSize := by
    rw [ByteArray.toList, toList_bytes_loop]
    simp
  have bytes := littleEndian_terminatedWords text.toUTF8.toList
  have reads := readText_terminatedWords nonzero
  refine ⟨?_, reads rest, ?_, ?_, fun other plainer same => ?_⟩
  · have filled : 4 - text.toUTF8.toList.length % 4 = 3 - text.toUTF8.toList.length % 4 + 1 := by omega
    rw [stringWords, littleEndian, List.flatMap_append, ← littleEndian, bytes, filled, List.append_assoc,
      List.takeWhile_append_of_pos fun byte found => by simpa using ne_of_mem_of_not_mem found nonzero]
    simp [List.replicate_succ]
  · rw [stringWords, length_terminatedWords, size]
  · rw [stringWords, bytes, ← size, List.drop_left]
    exact fun byte found => List.eq_of_mem_replicate found
  · have again := readText_terminatedWords (zero_notMem_toUTF8 plainer) []
    rw [← stringWords, same, stringWords, reads] at again
    injection again with again
    exact (toUTF8_toList_inj (congrArg Prod.fst again)).symm

/-- The four bytes of the text fill a word, so that another word ends it. -/
theorem stringWords_readable_sample : '\x00' ∉ "aßb".toList ∧ stringWords "aßb" = [0x629fc361, 0] ∧
    readText (stringWords "aßb" ++ [7]) = some ("aßb".toUTF8.toList, [7]) :=
  ⟨by decide, by decide +kernel, (stringWords_readable (by decide) [7]).2.1⟩

end Shader
