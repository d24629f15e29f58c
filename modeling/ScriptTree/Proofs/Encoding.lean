import ScriptTree.Text.Utf8

/-!
# Decoding is the inverse of encoding

The decoder finds the longest beginning of its bytes that is the encoding of a text, and what it
leaves over begins no further character. Whether more bytes follow matters only where the bytes end
in the middle of a character.
-/

namespace ScriptTree.Text.Utf8

/-- The bytes of characters one after another. -/
def encode (cs : List Char) : List UInt8 :=
  cs.flatMap String.utf8EncodeChar

@[simp]
theorem encode_nil : encode [] = [] := rfl

@[simp]
theorem encode_cons (c : Char) (cs : List Char) :
    encode (c :: cs) = String.utf8EncodeChar c ++ encode cs := rfl

@[simp]
theorem encode_append (cs more : List Char) : encode (cs ++ more) = encode cs ++ encode more := by
  simp [encode]

/-- The bytes of a text are those of its characters. -/
theorem toUTF8_eq_encode (text : String) : text.toUTF8.data.toList = encode text.toList := by
  conv => lhs; rw [← String.ofList_toList (s := text)]
  rw [String.toUTF8, String.toByteArray_ofList, List.utf8Encode, List.data_toByteArray]
  rfl

/-- The first bytes of characters beyond ASCII. The range of the second byte leaves out longer
encodings than needed, surrogates, and what lies beyond the last code point. -/
theorem lead?_eq_some_iff {n count low high : Nat} : lead? n = some (count, low, high) ↔
    (0xc2 ≤ n ∧ n ≤ 0xdf ∧ count = 1 ∧ low = 0x80 ∧ high = 0xbf) ∨
    (0xe0 ≤ n ∧ n ≤ 0xef ∧ count = 2 ∧ low = (if n = 0xe0 then 0xa0 else 0x80) ∧
      high = (if n = 0xed then 0x9f else 0xbf)) ∨
    (0xf0 ≤ n ∧ n ≤ 0xf4 ∧ count = 3 ∧ low = (if n = 0xf0 then 0x90 else 0x80) ∧
      high = (if n = 0xf4 then 0x8f else 0xbf)) := by
  unfold lead?
  repeat' split
  all_goals simp only [Option.some.injEq, Prod.mk.injEq, reduceCtorEq, false_iff]
  all_goals omega

/-- A first byte beyond ASCII is not one of ASCII. -/
theorem not_ascii_of_lead? {n count low high : Nat} (h : lead? n = some (count, low, high)) :
    ¬ n < 0x80 := by
  rw [lead?_eq_some_iff] at h
  omega

section Equations

variable {b₀ b₁ b₂ b₃ : UInt8} {n₀ n₁ n₂ n₃ low high : Nat}

/-- A character of two bytes. -/
theorem decode_two (rest : List UInt8) (h₀ : b₀.toNat = n₀) (h₁ : b₁.toNat = n₁)
    (hlead : lead? n₀ = some (1, low, high)) (hlow : low ≤ n₁) (hhigh : n₁ ≤ high) :
    decode (b₀ :: b₁ :: rest) =
      (decode rest).push (Char.ofNat (assemble (n₀ % 32) [n₁])) := by
  have hrange : ¬ (n₁ < low ∨ high < n₁) := by omega
  simp [decode, h₀, h₁, not_ascii_of_lead? hlead, hlead, hrange]

/-- A character of three bytes. -/
theorem decode_three (rest : List UInt8) (h₀ : b₀.toNat = n₀) (h₁ : b₁.toNat = n₁)
    (h₂ : b₂.toNat = n₂) (hlead : lead? n₀ = some (2, low, high)) (hlow : low ≤ n₁)
    (hhigh : n₁ ≤ high) (hthird : continues n₂) :
    decode (b₀ :: b₁ :: b₂ :: rest) =
      (decode rest).push (Char.ofNat (assemble (n₀ % 16) [n₁, n₂])) := by
  have hrange : ¬ (n₁ < low ∨ high < n₁) := by omega
  simp [decode, h₀, h₁, h₂, not_ascii_of_lead? hlead, hlead, hrange, hthird]

/-- A character of four bytes. -/
theorem decode_four (rest : List UInt8) (h₀ : b₀.toNat = n₀) (h₁ : b₁.toNat = n₁)
    (h₂ : b₂.toNat = n₂) (h₃ : b₃.toNat = n₃) (hlead : lead? n₀ = some (3, low, high))
    (hlow : low ≤ n₁) (hhigh : n₁ ≤ high) (hthird : continues n₂) (hfourth : continues n₃) :
    decode (b₀ :: b₁ :: b₂ :: b₃ :: rest) =
      (decode rest).push (Char.ofNat (assemble (n₀ % 8) [n₁, n₂, n₃])) := by
  have hrange : ¬ (n₁ < low ∨ high < n₁) := by omega
  simp [decode, h₀, h₁, h₂, h₃, not_ascii_of_lead? hlead, hlead, hrange, hthird, hfourth]

end Equations

/-- A byte that continues a character carries six bits. -/
theorem continues_add (n : Nat) : continues (n % 64 + 128) := by
  simp only [continues, Bool.and_eq_true, decide_eq_true_eq]
  omega

/-- The number of a byte that is made of a small number. -/
theorem toNat_ofNat_of_lt {n : Nat} (h : n < 256) : (UInt8.ofNat n).toNat = n := by
  rw [UInt8.toNat_ofNat', Nat.mod_eq_of_lt h]

/-- A character is decoded from its bytes. -/
theorem decode_encodeChar (c : Char) (rest : List UInt8) :
    decode (String.utf8EncodeChar c ++ rest) = (decode rest).push c := by
  have hchar : Char.ofNat c.val.toNat = c := Char.ofNat_toNat c
  have hvalid : c.val.toNat.isValidChar := c.valid
  unfold String.utf8EncodeChar
  generalize c.val.toNat = v at hchar hvalid ⊢
  unfold Nat.isValidChar at hvalid
  dsimp only
  split
  · have hbyte := toNat_ofNat_of_lt (show v < 256 by omega)
    rw [List.singleton_append, decode_ascii rest (by omega), hbyte, hchar]
  split
  · have hlead : lead? (v / 64 % 32 + 192) = some (1, 0x80, 0xbf) :=
      lead?_eq_some_iff.2 (by omega)
    have hcode : assemble ((v / 64 % 32 + 192) % 32) [v % 64 + 128] = v := by
      simp only [assemble, List.foldl_cons, List.foldl_nil]
      omega
    have hdecode := decode_two rest (toNat_ofNat_of_lt (show v / 64 % 32 + 192 < 256 by omega))
      (toNat_ofNat_of_lt (show v % 64 + 128 < 256 by omega)) hlead (by omega) (by omega)
    rwa [hcode, hchar] at hdecode
  split
  · have hlead := lead?_eq_some_iff.2 (.inr (.inl
      ⟨show 0xe0 ≤ v / 4096 % 16 + 224 by omega, by omega, rfl, rfl, rfl⟩))
    have hcode : assemble ((v / 4096 % 16 + 224) % 16) [v / 64 % 64 + 128, v % 64 + 128] = v := by
      simp only [assemble, List.foldl_cons, List.foldl_nil]
      omega
    have hdecode := decode_three rest (toNat_ofNat_of_lt (show v / 4096 % 16 + 224 < 256 by omega))
      (toNat_ofNat_of_lt (show v / 64 % 64 + 128 < 256 by omega))
      (toNat_ofNat_of_lt (show v % 64 + 128 < 256 by omega)) hlead (by split <;> omega)
      (by split <;> omega) (continues_add v)
    rwa [hcode, hchar] at hdecode
  · have hlead := lead?_eq_some_iff.2 (.inr (.inr
      ⟨show 0xf0 ≤ v / 262144 % 8 + 240 by omega, by omega, rfl, rfl, rfl⟩))
    have hcode : assemble ((v / 262144 % 8 + 240) % 8)
        [v / 4096 % 64 + 128, v / 64 % 64 + 128, v % 64 + 128] = v := by
      simp only [assemble, List.foldl_cons, List.foldl_nil]
      omega
    have hdecode := decode_four rest (toNat_ofNat_of_lt (show v / 262144 % 8 + 240 < 256 by omega))
      (toNat_ofNat_of_lt (show v / 4096 % 64 + 128 < 256 by omega))
      (toNat_ofNat_of_lt (show v / 64 % 64 + 128 < 256 by omega))
      (toNat_ofNat_of_lt (show v % 64 + 128 < 256 by omega)) hlead (by split <;> omega)
      (by split <;> omega) (continues_add (v / 64)) (continues_add v)
    rwa [hcode, hchar] at hdecode

/-- Characters are decoded from their bytes, whatever follows. -/
theorem decode_encode (cs : List Char) (rest : List UInt8) :
    decode (encode cs ++ rest) =
      { decode rest with chars := cs ++ (decode rest).chars } := by
  induction cs with
  | nil => rfl
  | cons c cs ih => rw [encode_cons, List.append_assoc, decode_encodeChar, ih]; rfl

/-- The code point of a character that is made of a valid one. -/
theorem toNat_charOfNat {v : Nat} (h : v.isValidChar) : (Char.ofNat v).val.toNat = v := by
  rw [Char.ofNat, dif_pos h]
  rfl

section Characters

variable {n₀ n₁ n₂ n₃ low high : Nat}

/-- The bytes of a character that two bytes were decoded to. -/
theorem encodeChar_two (hlead : lead? n₀ = some (1, low, high)) (hlow : low ≤ n₁)
    (hhigh : n₁ ≤ high) : String.utf8EncodeChar (Char.ofNat (assemble (n₀ % 32) [n₁])) =
      [UInt8.ofNat n₀, UInt8.ofNat n₁] := by
  have hlead := lead?_eq_some_iff.1 hlead
  have hcode : assemble (n₀ % 32) [n₁] = n₀ % 32 * 64 + n₁ % 64 := rfl
  have hvalid : (n₀ % 32 * 64 + n₁ % 64).isValidChar := by
    unfold Nat.isValidChar
    omega
  unfold String.utf8EncodeChar
  rw [hcode, toNat_charOfNat hvalid]
  dsimp only
  rw [if_neg (by omega), if_pos (by omega)]
  congr 2
  · omega
  · congr 1
    omega

/-- The bytes of a character that three bytes were decoded to. -/
theorem encodeChar_three (hlead : lead? n₀ = some (2, low, high)) (hlow : low ≤ n₁)
    (hhigh : n₁ ≤ high) (hthird : continues n₂) :
    String.utf8EncodeChar (Char.ofNat (assemble (n₀ % 16) [n₁, n₂])) =
      [UInt8.ofNat n₀, UInt8.ofNat n₁, UInt8.ofNat n₂] := by
  have hlead := lead?_eq_some_iff.1 hlead
  simp only [continues, Bool.and_eq_true, decide_eq_true_eq] at hthird
  have hcode : assemble (n₀ % 16) [n₁, n₂] = (n₀ % 16 * 64 + n₁ % 64) * 64 + n₂ % 64 := rfl
  have hrange : 0xe0 ≤ n₀ ∧ n₀ ≤ 0xef ∧ 0x80 ≤ n₁ ∧ n₁ ≤ 0xbf ∧ (n₀ = 0xe0 → 0xa0 ≤ n₁) ∧
      (n₀ = 0xed → n₁ ≤ 0x9f) := by
    split at hlead <;> split at hlead <;> omega
  have hvalid : ((n₀ % 16 * 64 + n₁ % 64) * 64 + n₂ % 64).isValidChar := by
    unfold Nat.isValidChar
    omega
  unfold String.utf8EncodeChar
  rw [hcode, toNat_charOfNat hvalid]
  dsimp only
  rw [if_neg (by omega), if_neg (by omega), if_pos (by omega)]
  congr 2
  · omega
  · congr 1
    omega
  · congr 2
    omega

/-- The bytes of a character that four bytes were decoded to. -/
theorem encodeChar_four (hlead : lead? n₀ = some (3, low, high)) (hlow : low ≤ n₁)
    (hhigh : n₁ ≤ high) (hthird : continues n₂) (hfourth : continues n₃) :
    String.utf8EncodeChar (Char.ofNat (assemble (n₀ % 8) [n₁, n₂, n₃])) =
      [UInt8.ofNat n₀, UInt8.ofNat n₁, UInt8.ofNat n₂, UInt8.ofNat n₃] := by
  obtain ⟨_, _, hcount, _⟩ | ⟨_, _, hcount, _⟩ | hlead := lead?_eq_some_iff.1 hlead
  · omega
  · omega
  simp only [continues, Bool.and_eq_true, decide_eq_true_eq] at hthird hfourth
  have hcode : assemble (n₀ % 8) [n₁, n₂, n₃] =
      ((n₀ % 8 * 64 + n₁ % 64) * 64 + n₂ % 64) * 64 + n₃ % 64 := rfl
  have hrange : 0xf0 ≤ n₀ ∧ n₀ ≤ 0xf4 ∧ 0x80 ≤ n₁ ∧ n₁ ≤ 0xbf ∧ (n₀ = 0xf0 → 0x90 ≤ n₁) ∧
      (n₀ = 0xf4 → n₁ ≤ 0x8f) := by
    split at hlead <;> split at hlead <;> omega
  have hvalid : (((n₀ % 8 * 64 + n₁ % 64) * 64 + n₂ % 64) * 64 + n₃ % 64).isValidChar := by
    unfold Nat.isValidChar
    omega
  unfold String.utf8EncodeChar
  rw [hcode, toNat_charOfNat hvalid]
  dsimp only
  rw [if_neg (by omega), if_neg (by omega), if_neg (by omega)]
  congr 2
  · omega
  · congr 1
    omega
  · congr 2
    · omega
    · congr 2
      omega

/-- The byte of a character of ASCII. -/
theorem encodeChar_ascii (h : n₀ < 0x80) :
    String.utf8EncodeChar (Char.ofNat n₀) = [UInt8.ofNat n₀] := by
  have hvalid : n₀.isValidChar := by
    unfold Nat.isValidChar
    omega
  unfold String.utf8EncodeChar
  rw [toNat_charOfNat hvalid]
  exact if_pos (by omega)

end Characters

/-- The characters decoded and the bytes left over are the bytes that were given. -/
theorem encode_append_rest (bytes : List UInt8) :
    encode (decode bytes).chars ++ (decode bytes).rest = bytes := by
  fun_induction decode bytes
  all_goals
    try simp only [Decoded.push, encode_nil, List.nil_append, encode_cons, List.append_assoc]
  case case2 b₀ rest n₀ hascii ih =>
    rw [ih, encodeChar_ascii hascii, UInt8.ofNat_toNat]
    rfl
  case case6 b₀ n₀ _ low high b₁ rest n₁ hrange hlead ih =>
    rw [ih, encodeChar_two hlead (by omega) (by omega), UInt8.ofNat_toNat, UInt8.ofNat_toNat]
    rfl
  case case9 b₀ n₀ _ low high b₁ n₁ hrange b₂ rest n₂ hthird hlead _ ih =>
    rw [ih, encodeChar_three hlead (by omega) (by omega) (by simpa using hthird),
      UInt8.ofNat_toNat, UInt8.ofNat_toNat, UInt8.ofNat_toNat]
    rfl
  case case12 b₀ n₀ _ count low high hlead b₁ n₁ hrange _ b₂ n₂ hthird _ b₃ rest n₃ hfourth ih =>
    obtain rfl : count = 3 := by
      obtain ⟨_, _, hcount, _⟩ | ⟨_, _, hcount, _⟩ | ⟨_, _, hcount, _⟩ := lead?_eq_some_iff.1 hlead
        <;> omega
    rw [ih, encodeChar_four hlead (by omega) (by omega) (by simpa using hthird)
      (by simpa using hfourth), UInt8.ofNat_toNat, UInt8.ofNat_toNat, UInt8.ofNat_toNat,
      UInt8.ofNat_toNat]
    rfl

/-- No more bytes are left over than were given. -/
theorem length_rest_le (bytes : List UInt8) : (decode bytes).rest.length ≤ bytes.length := by
  conv => rhs; rw [← encode_append_rest bytes, List.length_append]
  exact Nat.le_add_left _ _

/-- Decoding goes on after a beginning with what the beginning left over. -/
theorem decode_append (bytes more : List UInt8) :
    decode (bytes ++ more) =
      { decode ((decode bytes).rest ++ more) with
        chars := (decode bytes).chars ++ (decode ((decode bytes).rest ++ more)).chars } := by
  conv => lhs; rw [← encode_append_rest bytes, List.append_assoc, decode_encode]

/-- What decoding leaves over holds no character, and ends as the whole does. -/
theorem decode_rest (bytes : List UInt8) :
    decode (decode bytes).rest = ⟨[], (decode bytes).rest, (decode bytes).ending⟩ := by
  have hdecode := decode_append bytes []
  rw [List.append_nil, List.append_nil] at hdecode
  have hchars : (decode (decode bytes).rest).chars = [] :=
    List.self_eq_append_right.1 (congrArg Decoded.chars hdecode)
  have hrest : (decode (decode bytes).rest).rest = (decode bytes).rest :=
    (congrArg Decoded.rest hdecode).symm
  have hending : (decode (decode bytes).rest).ending = (decode bytes).ending :=
    (congrArg Decoded.ending hdecode).symm
  calc decode (decode bytes).rest
    _ = ⟨(decode (decode bytes).rest).chars, (decode (decode bytes).rest).rest,
          (decode (decode bytes).rest).ending⟩ := rfl
    _ = ⟨[], (decode bytes).rest, (decode bytes).ending⟩ := by rw [hchars, hrest, hending]

/-- Decoding is complete when nothing is left over. -/
theorem ending_eq_complete_iff {bytes : List UInt8} :
    (decode bytes).ending = .complete ↔ (decode bytes).rest = [] := by
  fun_induction decode bytes <;> simp_all [Decoded.push]

/-- Bytes that begin no character begin none whatever follows them. -/
theorem decode_eq_malformed_append {bytes : List UInt8} (more : List UInt8)
    (h : decode bytes = ⟨[], bytes, .malformed⟩) :
    decode (bytes ++ more) = ⟨[], bytes ++ more, .malformed⟩ := by
  revert h
  fun_cases decode bytes
  case case3 n₀ hascii hlead =>
    simp only [n₀] at hascii hlead
    simp [decode, hascii, hlead]
  case case5 n₀ hascii count low high hlead b₁ r₁ n₁ hrange =>
    simp only [n₀, n₁] at hascii hlead hrange
    simp [decode, hascii, hlead, hrange]
  case case8 n₀ hascii count low high hlead b₁ n₁ hrange hcount b₂ r₂ n₂ hthird =>
    simp only [n₀, n₁, n₂] at hascii hlead hrange hthird
    simp [decode, hascii, hlead, hrange, hcount, hthird]
  case case11 n₀ hascii count low high hlead b₁ n₁ hrange hone b₂ n₂ hthird htwo b₃ r₃ n₃ hfourth =>
    simp only [n₀, n₁, n₂, n₃] at hascii hlead hrange hthird hfourth
    simp [decode, hascii, hlead, hrange, hone, hthird, htwo, hfourth]
  all_goals simp [Decoded.push]

/-- What follows malformed bytes is left over with them. -/
theorem decode_append_of_malformed {bytes : List UInt8} (more : List UInt8)
    (h : (decode bytes).ending = .malformed) :
    decode (bytes ++ more) = ⟨(decode bytes).chars, (decode bytes).rest ++ more, .malformed⟩ := by
  have hrest := decode_rest bytes
  rw [h] at hrest
  rw [decode_append, decode_eq_malformed_append more hrest, List.append_nil]

/-- Decoding is complete for the bytes of characters, and only for those. -/
theorem ending_eq_complete_iff_exists {bytes : List UInt8} :
    (decode bytes).ending = .complete ↔ ∃ cs, encode cs = bytes := by
  constructor
  · intro h
    have hbytes := encode_append_rest bytes
    rw [ending_eq_complete_iff.1 h, List.append_nil] at hbytes
    exact ⟨_, hbytes⟩
  · rintro ⟨cs, rfl⟩
    have hdecode := decode_encode cs []
    rw [List.append_nil] at hdecode
    rw [hdecode, decode_nil]

/-- The bytes that were decoded are those of the characters. -/
theorem take_eq_encode (bytes : List UInt8) :
    bytes.take (bytes.length - (decode bytes).rest.length) = encode (decode bytes).chars := by
  have hbytes := encode_append_rest bytes
  have hlength :
      (encode (decode bytes).chars).length + (decode bytes).rest.length = bytes.length := by
    rw [← List.length_append, hbytes]
  rw [← hlength, Nat.add_sub_cancel]
  conv => lhs; arg 2; rw [← hbytes]
  exact List.take_left

/-- The bytes that were decoded are the longest beginning that holds characters only. -/
theorem length_le_of_take_eq_encode {bytes : List UInt8} {k : Nat} {cs : List Char}
    (hk : k ≤ bytes.length) (h : encode cs = bytes.take k) :
    k ≤ bytes.length - (decode bytes).rest.length := by
  have hdecode := decode_encode cs (bytes.drop k)
  rw [h, List.take_append_drop] at hdecode
  have hrest : (decode bytes).rest = (decode (bytes.drop k)).rest := by rw [hdecode]
  have hlength := length_rest_le (bytes.drop k)
  rw [List.length_drop] at hlength
  rw [hrest]
  omega

end ScriptTree.Text.Utf8
