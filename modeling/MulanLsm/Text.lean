import Mathlib.Data.List.Basic
import MulanLsm.Basic

/-! Texts and their bytes in UTF-8: what is wrong with bytes that are no text, the white space at
the end of a text, and how a text is quoted in an error. -/

namespace MulanLsm

def utf8 (s : String) : Bytes := s.toUTF8.data.toList

section Decoding

/-- The ranges of the bytes that follow the first byte of a character, if it is one. -/
def utf8Tail (first : UInt8) : Option (List (UInt8 × UInt8)) :=
  if first < 0x80 then some []
  else if first < 0xC2 then none
  else if first < 0xE0 then some [(0x80, 0xBF)]
  else if first = 0xE0 then some [(0xA0, 0xBF), (0x80, 0xBF)]
  else if first = 0xED then some [(0x80, 0x9F), (0x80, 0xBF)]
  else if first < 0xF0 then some [(0x80, 0xBF), (0x80, 0xBF)]
  else if first = 0xF0 then some [(0x90, 0xBF), (0x80, 0xBF), (0x80, 0xBF)]
  else if first < 0xF4 then some [(0x80, 0xBF), (0x80, 0xBF), (0x80, 0xBF)]
  else if first = 0xF4 then some [(0x80, 0x8F), (0x80, 0xBF), (0x80, 0xBF)]
  else none

/-- How many of the bytes are each in its range, before one is not. -/
def utf8Run : List (UInt8 × UInt8) → Bytes → Nat
  | (lo, hi) :: ranges, b :: bs => if lo ≤ b ∧ b ≤ hi then utf8Run ranges bs + 1 else 0
  | _, _ => 0

/-- What is wrong with bytes that are no text, of which the first stands at `index`. -/
def utf8Error (index : Nat) : Bytes → String
  | [] => ""
  | b :: bs =>
    match utf8Tail b with
    | none => s!"invalid utf-8 sequence of 1 bytes from index {index}"
    | some ranges =>
      let n := utf8Run ranges bs
      if n = ranges.length then utf8Error (index + n + 1) (bs.drop n)
      else if n = bs.length then s!"incomplete utf-8 byte sequence from index {index}"
      else s!"invalid utf-8 sequence of {n + 1} bytes from index {index}"
termination_by bs => bs.length
decreasing_by
  simp only [List.length_drop, List.length_cons]
  omega

def fromUtf8 (bs : Bytes) : Except String String :=
  match String.fromUTF8? ⟨bs.toArray⟩ with
  | some s => .ok s
  | none => .error (utf8Error 0 bs)

theorem fromUtf8_utf8 (s : String) : fromUtf8 (utf8 s) = .ok s := by
  have hBytes : (⟨(utf8 s).toArray⟩ : ByteArray) = s.toUTF8 := by simp [utf8]
  rw [fromUtf8, hBytes, String.fromUTF8?, String.toUTF8_eq_toByteArray, dif_pos s.isValidUTF8]
  rfl

theorem utf8EncodeChar_ascii :
    ∀ n < 128, String.utf8EncodeChar (Char.ofNat n) = [UInt8.ofNat n] := by
  decide

/-- Bytes below 128 are a text. -/
theorem exists_utf8_ascii {bs : Bytes} (h : ∀ b ∈ bs, b.toNat < 128) : ∃ s, utf8 s = bs := by
  induction bs with
  | nil => exact ⟨"", rfl⟩
  | cons b bs ih =>
    obtain ⟨s, rfl⟩ := ih fun c hc => h c (List.mem_cons_of_mem _ hc)
    have hChar := utf8EncodeChar_ascii b.toNat (h b List.mem_cons_self)
    rw [UInt8.ofNat_toNat] at hChar
    refine ⟨String.ofList [Char.ofNat b.toNat] ++ s, ?_⟩
    simp [utf8, List.utf8Encode_singleton, hChar]

end Decoding

section Trimming

/-- The characters that `char::is_whitespace` knows, in bytes. -/
def whiteSpace : List Bytes :=
  ([0x09, 0x0A, 0x0B, 0x0C, 0x0D, 0x20, 0x85, 0xA0, 0x1680] ++ List.range' 0x2000 11 ++
    [0x2028, 0x2029, 0x202F, 0x205F, 0x3000]).map fun n => String.utf8EncodeChar (Char.ofNat n)

/-- Take away white space at the end, at most `fuel` times. -/
def trimLoop : Nat → Bytes → Bytes
  | 0, bs => bs
  | fuel + 1, bs =>
    match whiteSpace.find? fun c => c.isSuffixOf bs with
    | some c => trimLoop fuel (bs.take (bs.length - c.length))
    | none => bs

/-- The bytes of a text without white space at their end. -/
def trimEnd (bs : Bytes) : Bytes := trimLoop bs.length bs

theorem suffix_getLast? {c bs : Bytes} (h : c <:+ bs) (hne : c ≠ []) :
    c.getLast? = bs.getLast? := by
  obtain ⟨front, rfl⟩ := h
  rw [List.getLast?_append_of_ne_nil _ hne]

/-- A line feed at the end is taken away, and nothing else if what is in front of it does not end
with the last byte of a white space. -/
theorem trimEnd_lineFeed {bs : Bytes} {b : UInt8} (hLast : bs.getLast? = some b)
    (h : ∀ c ∈ whiteSpace, c.getLast? ≠ some b) : trimEnd (bs ++ [0x0A]) = bs := by
  have hLine : whiteSpace.find? (fun c => c.isSuffixOf (bs ++ [0x0A])) = some [0x0A] := by
    obtain ⟨c, hFind⟩ : ∃ c, whiteSpace.find? (fun c => c.isSuffixOf (bs ++ [0x0A])) = some c := by
      rw [← Option.isSome_iff_exists, List.find?_isSome]
      exact ⟨[0x0A], by decide, List.isSuffixOf_iff_suffix.mpr (List.suffix_append _ _)⟩
    have hMem := List.mem_of_find?_eq_some hFind
    have hSuffix := List.find?_some hFind
    have hne : c ≠ [] := (by decide : ∀ c ∈ whiteSpace, c ≠ []) c hMem
    have hEnd := suffix_getLast? (List.isSuffixOf_iff_suffix.mp hSuffix) hne
    rw [List.getLast?_concat] at hEnd
    rw [hFind, (by decide : ∀ c ∈ whiteSpace, c.getLast? = some 0x0A → c = [0x0A]) c hMem hEnd]
  have hNone : whiteSpace.find? (fun c => c.isSuffixOf bs) = none := by
    rw [List.find?_eq_none]
    intro c hc hSuffix
    have hne : c ≠ [] := (by decide : ∀ c ∈ whiteSpace, c ≠ []) c hc
    exact h c hc ((suffix_getLast? (List.isSuffixOf_iff_suffix.mp hSuffix) hne).trans hLast)
  have hStop : ∀ fuel, trimLoop fuel bs = bs := by
    intro fuel
    cases fuel with
    | zero => rfl
    | succ fuel => rw [trimLoop, hNone]
  rw [trimEnd, List.length_append, List.length_singleton, trimLoop, hLine]
  simp [hStop]

end Trimming

/-- `{s:?}`, where the characters past ASCII are taken to be printable. -/
def debug (s : String) : String :=
  let escape (c : Char) : String :=
    match c.toNat with
    | 0 => "\\0"
    | 9 => "\\t"
    | 10 => "\\n"
    | 13 => "\\r"
    | 34 => "\\\""
    | 92 => "\\\\"
    | n =>
      if n < 32 ∨ n = 127 then "\\u\x7b" ++ String.ofList (Nat.toDigits 16 n) ++ "\x7d"
      else String.singleton c
  "\"" ++ String.join (s.toList.map escape) ++ "\""

end MulanLsm
