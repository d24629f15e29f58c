/-!
Decoding of UTF-8 from bytes that may end in the middle of a character. The decoder reports the
characters read, how many bytes they took, and why it stopped.
-/

namespace ScriptTree.Text.Utf8

/-- Why decoding stopped. -/
inductive Ending where
  /-- All bytes were decoded. -/
  | complete
  /-- The bytes left over are the beginning of a character. -/
  | incomplete
  /-- The bytes left over do not begin any character. -/
  | malformed
  deriving DecidableEq, Repr

/-- The outcome of decoding. -/
structure Decoded where
  /-- The characters of the longest valid beginning. -/
  chars : List Char
  /-- The bytes after it. -/
  rest : List UInt8
  ending : Ending

/-- Put a character in front of the characters decoded. -/
def Decoded.push (c : Char) (d : Decoded) : Decoded :=
  { d with chars := c :: d.chars }

/-- For the first byte of a character beyond ASCII: how many bytes follow it, and the range of
the byte that follows at once. -/
def lead? (b : Nat) : Option (Nat × Nat × Nat) :=
  if 0xc2 ≤ b ∧ b ≤ 0xdf then some (1, 0x80, 0xbf)
  else if b = 0xe0 then some (2, 0xa0, 0xbf)
  else if b = 0xed then some (2, 0x80, 0x9f)
  else if 0xe1 ≤ b ∧ b ≤ 0xef then some (2, 0x80, 0xbf)
  else if b = 0xf0 then some (3, 0x90, 0xbf)
  else if 0xf1 ≤ b ∧ b ≤ 0xf3 then some (3, 0x80, 0xbf)
  else if b = 0xf4 then some (3, 0x80, 0x8f)
  else none

/-- Whether a byte may stand in third or fourth place. -/
def continues (b : Nat) : Bool :=
  0x80 ≤ b && b ≤ 0xbf

/-- The code point whose bytes carry these payloads, six bits for each byte after the first. -/
def assemble (first : Nat) (more : List Nat) : Nat :=
  more.foldl (fun code b => code * 64 + b % 64) first

/-- Decode as many characters as the bytes hold. -/
def decode : List UInt8 → Decoded
  | [] => ⟨[], [], .complete⟩
  | b₀ :: r₀ =>
    let n₀ := b₀.toNat
    if n₀ < 0x80 then (decode r₀).push (Char.ofNat n₀)
    else
      match lead? n₀ with
      | none => ⟨[], b₀ :: r₀, .malformed⟩
      | some (count, low, high) =>
        match r₀ with
        | [] => ⟨[], [b₀], .incomplete⟩
        | b₁ :: r₁ =>
          let n₁ := b₁.toNat
          if n₁ < low ∨ high < n₁ then ⟨[], b₀ :: b₁ :: r₁, .malformed⟩
          else if count = 1 then (decode r₁).push (Char.ofNat (assemble (n₀ % 32) [n₁]))
          else
            match r₁ with
            | [] => ⟨[], [b₀, b₁], .incomplete⟩
            | b₂ :: r₂ =>
              let n₂ := b₂.toNat
              if !continues n₂ then ⟨[], b₀ :: b₁ :: b₂ :: r₂, .malformed⟩
              else if count = 2 then
                (decode r₂).push (Char.ofNat (assemble (n₀ % 16) [n₁, n₂]))
              else
                match r₂ with
                | [] => ⟨[], [b₀, b₁, b₂], .incomplete⟩
                | b₃ :: r₃ =>
                  let n₃ := b₃.toNat
                  if !continues n₃ then ⟨[], b₀ :: b₁ :: b₂ :: b₃ :: r₃, .malformed⟩
                  else (decode r₃).push (Char.ofNat (assemble (n₀ % 8) [n₁, n₂, n₃]))

/-- The text the bytes hold, when they hold nothing else. -/
def decode? (bytes : List UInt8) : Option String :=
  let d := decode bytes
  if d.ending = .complete then some (String.ofList d.chars) else none

/-- No bytes decode to no characters. -/
@[simp]
theorem decode_nil : decode [] = ⟨[], [], .complete⟩ := by
  simp [decode]

/-- A byte of ASCII is a character by itself. -/
theorem decode_ascii {b : UInt8} (rest : List UInt8) (h : b.toNat < 0x80) :
    decode (b :: rest) = (decode rest).push (Char.ofNat b.toNat) := by
  simp [decode, h]

end ScriptTree.Text.Utf8
