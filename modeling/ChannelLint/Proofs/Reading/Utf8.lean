import ChannelLint.Text.Utf8
import Mathlib

/-!
# Reading what was encoded

Decoding gives back every text that was encoded, and unifying line ends changes only carriage
returns. So a text without carriage returns is read from a file as it was written.
-/
namespace ChannelLint.Text

open List

/-! ## Bytes of one character -/

theorem toNat_ofNat_byte {n : Nat} (small : n < 256) : (UInt8.ofNat n).toNat = n := by
  simpa using Nat.mod_eq_of_lt small

theorem isContinuation_ofNat {n : Nat} (low : 0x80 ≤ n) (high : n < 0xc0) :
    isContinuation (UInt8.ofNat n) := by
  have byte := toNat_ofNat_byte (show n < 256 by omega)
  simp only [isContinuation, Bool.and_eq_true, decide_eq_true_eq, UInt8.le_iff_toNat_le,
    UInt8.lt_iff_toNat_lt, byte]
  exact ⟨low, high⟩

/-- A second byte may stand behind a first one that it makes no overlong form, no surrogate and no
code point beyond the last with. -/
theorem mayFollow_ofNat {first second : Nat} (fits : first < 256 ∧ 0x80 ≤ second ∧ second < 0xc0 ∧
    (first = 0xe0 → 0xa0 ≤ second) ∧ (first = 0xed → second < 0xa0) ∧
    (first = 0xf0 → 0x90 ≤ second) ∧ (first = 0xf4 → second < 0x90)) :
    mayFollow (UInt8.ofNat first) (UInt8.ofNat second) := by
  obtain ⟨small, low, high, overlong3, surrogate, overlong4, large⟩ := fits
  have byte := toNat_ofNat_byte small
  have byte' := toNat_ofNat_byte (show second < 256 by omega)
  simp only [mayFollow, isContinuation_ofNat low high, Bool.true_and, Bool.and_eq_true,
    Bool.or_eq_true, bne_iff_ne, decide_eq_true_eq, UInt8.le_iff_toNat_le, UInt8.lt_iff_toNat_lt,
    ne_eq, ← UInt8.toNat_inj, byte, byte']
  refine ⟨⟨⟨?_, ?_⟩, ?_⟩, ?_⟩
  · exact (em (first = 0xe0)).symm.imp_right overlong3
  · exact (em (first = 0xed)).symm.imp_right surrogate
  · exact (em (first = 0xf0)).symm.imp_right overlong4
  · exact (em (first = 0xf4)).symm.imp_right large

theorem followers?_ofNat {n count : Nat} (small : n < 256)
    (range : (n < 0x80 ∧ count = 0) ∨ (0xc2 ≤ n ∧ n < 0xe0 ∧ count = 1) ∨
      (0xe0 ≤ n ∧ n < 0xf0 ∧ count = 2) ∨ (0xf0 ≤ n ∧ n < 0xf5 ∧ count = 3)) :
    followers? (UInt8.ofNat n) = some count := by
  have byte := toNat_ofNat_byte small
  simp only [followers?, UInt8.lt_iff_toNat_lt, byte]
  split_ifs with h1 h2 h3 h4 h5 <;> simp at * <;> omega

/-- There is no fault if all the bytes that have to follow are there and may stand where they do. -/
theorem followFault?_eq_none {first : UInt8} {seen : List UInt8} (rest : List UInt8)
    (second : ∀ b ∈ seen.head?, mayFollow first b) (more : ∀ b ∈ seen.tail, isContinuation b) :
    followFault? first seen.length (seen ++ rest) = none := by
  unfold followFault?
  rw [take_left]
  cases seen with
  | nil => rfl
  | cons b others =>
    have all : others.takeWhile isContinuation = others := takeWhile_eq_self_iff.2 more
    simp [second b rfl, all, Nat.add_comm]

/-- A character and what stands behind it. -/
theorem decodeFrom_cons {position : Nat} {first : UInt8} (seen rest : List UInt8)
    {c : Char} (count : followers? first = some seen.length)
    (second : ∀ b ∈ seen.head?, mayFollow first b) (more : ∀ b ∈ seen.tail, isContinuation b)
    (code : Char.ofNat (seen.foldl (fun n b => n * 64 + b.toNat % 64)
      (leadBits seen.length first)) = c) : decodeFrom position (first :: (seen ++ rest)) =
      (decodeFrom (position + 1 + seen.length) rest).map (c :: ·) := by
  rw [decodeFrom, count]
  simp only [followFault?_eq_none rest second more, take_left, drop_left, code]
  cases decodeFrom (position + 1 + seen.length) rest <;> rfl

theorem toNat_bounds (c : Char) : c.toNat < 0xd800 ∨ 0xdfff < c.toNat ∧ c.toNat < 0x110000 :=
  c.valid

/-- Decoding takes the bytes of one character for that character. -/
theorem exists_decodeFrom_utf8EncodeChar (position : Nat) (c : Char) (rest : List UInt8) :
    ∃ behind, decodeFrom position (String.utf8EncodeChar c ++ rest) =
      (decodeFrom behind rest).map (c :: ·) := by
  have bounds := toNat_bounds c
  have own : Char.ofNat c.toNat = c := Char.ofNat_toNat c
  unfold String.utf8EncodeChar
  rw [show c.val.toNat = c.toNat from rfl]
  generalize c.toNat = v at bounds own
  dsimp only
  split_ifs with one two three
  · refine ⟨_, decodeFrom_cons [] rest ?_ nofun nofun ?_⟩
    · exact followers?_ofNat (by omega) (by simp; omega)
    · rw [← own]
      simp [leadBits, toNat_ofNat_byte (show v < 256 by omega)]
  · refine ⟨_, decodeFrom_cons [_] rest ?_ ?_ nofun ?_⟩
    · exact followers?_ofNat (by omega) (by simp; omega)
    · rintro _ ⟨⟩
      exact mayFollow_ofNat (by omega)
    · rw [← own]
      simp only [leadBits, length_singleton, foldl_cons, foldl_nil]
      rw [toNat_ofNat_byte (by omega), toNat_ofNat_byte (by omega)]
      congr 1
      omega
  · refine ⟨_, decodeFrom_cons [_, _] rest ?_ ?_ ?_ ?_⟩
    · exact followers?_ofNat (by omega) (by simp; omega)
    · rintro _ ⟨⟩
      exact mayFollow_ofNat (by omega)
    · exact forall_mem_singleton.2 (isContinuation_ofNat (by omega) (by omega))
    · rw [← own]
      simp only [leadBits, length_cons, length_nil, foldl_cons, foldl_nil]
      rw [toNat_ofNat_byte (by omega), toNat_ofNat_byte (by omega), toNat_ofNat_byte (by omega)]
      congr 1
      omega
  · refine ⟨_, decodeFrom_cons [_, _, _] rest ?_ ?_ ?_ ?_⟩
    · exact followers?_ofNat (by omega) (by simp; omega)
    · rintro _ ⟨⟩
      exact mayFollow_ofNat (by omega)
    · exact forall_mem_cons.2 ⟨isContinuation_ofNat (by omega) (by omega),
        forall_mem_singleton.2 (isContinuation_ofNat (by omega) (by omega))⟩
    · rw [← own]
      simp only [leadBits, length_cons, length_nil, foldl_cons, foldl_nil]
      rw [toNat_ofNat_byte (by omega), toNat_ofNat_byte (by omega), toNat_ofNat_byte (by omega),
        toNat_ofNat_byte (by omega)]
      congr 1
      omega

/-! ## Texts -/

theorem toList_eq_data (bytes : ByteArray) : bytes.toList = bytes.data.toList := by
  have loop (i : Nat) (taken : List UInt8) :
      ByteArray.toList.loop bytes i taken = taken.reverse ++ bytes.data.toList.drop i := by
    fun_induction ByteArray.toList.loop bytes i taken with
    | case1 i taken inside ih =>
      have inside : i < bytes.data.toList.length := inside
      have here : bytes.data.toList.drop i = bytes.get! i :: bytes.data.toList.drop (i + 1) := by
        rw [drop_eq_getElem_cons inside, Array.getElem_toList]
        exact congrArg (· :: _) (getElem!_pos bytes.data i inside).symm
      rw [ih, here, reverse_cons, append_assoc]
      rfl
    | case2 i taken outside =>
      have outside : bytes.data.toList.length ≤ i := Nat.le_of_not_lt outside
      rw [drop_eq_nil_of_le outside, append_nil]
  exact (loop 0 []).trans (nil_append _)

theorem decodeFrom_utf8Encode (position : Nat) (cs : List Char) :
    decodeFrom position (cs.flatMap String.utf8EncodeChar) = .ok cs := by
  induction cs generalizing position with
  | nil => rw [flatMap_nil, decodeFrom]
  | cons c cs ih =>
    obtain ⟨behind, step⟩ := exists_decodeFrom_utf8EncodeChar position c
      (cs.flatMap String.utf8EncodeChar)
    rw [flatMap_cons, step, ih]
    rfl

theorem toList_encode (s : String) :
    (encode s).toList = s.toList.flatMap String.utf8EncodeChar := by
  rw [toList_eq_data, encode, String.toUTF8, ← String.utf8Encode_toList, List.utf8Encode,
    toList_data_toByteArray]

/-- Decoding gives back what was encoded. -/
theorem decode_encode (s : String) : decode (encode s) = .ok s := by
  rw [decode, toList_encode, decodeFrom_utf8Encode]
  exact congrArg Except.ok String.ofList_toList

/-- Unifying line ends changes only carriage returns. -/
theorem unifyLineEnds_eq_self {cs : List Char} (plain : '\r' ∉ cs) : unifyLineEnds cs = cs := by
  induction cs with
  | nil => rfl
  | cons c cs ih =>
    obtain ⟨other, rest⟩ := ne_and_not_mem_of_not_mem_cons plain
    rw [unifyLineEnds, ih rest]
    · exact fun rest same => absurd same other.symm
    · exact fun same => absurd same other.symm

theorem decodeLines_encode (s : String) :
    decodeLines (encode s) = .ok (String.ofList (unifyLineEnds s.toList)) := by
  rw [decodeLines, toList_encode, decodeFrom_utf8Encode]
  rfl

end ChannelLint.Text
