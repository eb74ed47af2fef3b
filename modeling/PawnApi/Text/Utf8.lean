/-
  UTF-8 text in bytes.

  `decode` reads bytes as characters. Where the bytes are ill-formed it marks one fault
  for each longest stretch that could still have become a character, and goes on after
  it. A strict reading refuses faults; a lenient one puts the replacement character in
  their place.
-/

namespace PawnApi.Text.Utf8

/-- What a first byte announces: the payload of that byte, how many bytes follow, and
    the range of the next one. -/
structure Lead where
  payload : Nat
  follow : Nat
  low : UInt8 := 0x80
  high : UInt8 := 0xBF
  deriving DecidableEq, Repr

/-- Reads a first byte; `none` if no character starts with it. -/
def lead? (b : UInt8) : Option Lead :=
  if b < 0x80 then some ⟨b.toNat, 0, 0x80, 0xBF⟩
  else if b < 0xC2 then none
  else if b < 0xE0 then some ⟨b.toNat % 0x20, 1, 0x80, 0xBF⟩
  else if b = 0xE0 then some ⟨0, 2, 0xA0, 0xBF⟩
  else if b = 0xED then some ⟨0xD, 2, 0x80, 0x9F⟩
  else if b < 0xF0 then some ⟨b.toNat % 0x10, 2, 0x80, 0xBF⟩
  else if b = 0xF0 then some ⟨0, 3, 0x90, 0xBF⟩
  else if b < 0xF4 then some ⟨b.toNat % 8, 3, 0x80, 0xBF⟩
  else if b = 0xF4 then some ⟨4, 3, 0x80, 0x8F⟩
  else none

/-- Reads the bytes that a first byte announced: the code point, or `none` at the first
    byte out of range, and the bytes left. -/
def follow (low high : UInt8) (value : Nat) : Nat → List UInt8 → Option Nat × List UInt8
  | 0, bs => (some value, bs)
  | _ + 1, [] => (none, [])
  | n + 1, b :: bs =>
    if low ≤ b ∧ b ≤ high then follow 0x80 0xBF (value * 0x40 + b.toNat % 0x40) n bs
    else (none, b :: bs)

theorem length_follow_le (low high : UInt8) (value n : Nat) (bs : List UInt8) :
    (follow low high value n bs).2.length ≤ bs.length := by
  induction n generalizing low high value bs with
  | zero => simp [follow]
  | succ n ih =>
    cases bs with
    | nil => simp [follow]
    | cons b bs =>
      rw [follow]
      split
      · have := ih 0x80 0xBF (value * 0x40 + b.toNat % 0x40) bs
        simp only [List.length_cons]
        omega
      · simp

/-- Reads bytes as characters, with `none` for each ill-formed stretch. -/
def decode (bs : List UInt8) : List (Option Char) :=
  match bs with
  | [] => []
  | b :: bs =>
    match lead? b with
    | none => none :: decode bs
    | some l =>
      let p := follow l.low l.high l.payload l.follow bs
      p.1.map Char.ofNat :: decode p.2
termination_by bs.length
decreasing_by
  · simp
  · have := length_follow_le l.low l.high l.payload l.follow bs
    simp only [List.length_cons]
    omega

/-- Reads bytes, with the replacement character for each ill-formed stretch. -/
def decodeLossy (bs : List UInt8) : List Char :=
  (decode bs).map (·.getD '\ufffd')

/-- Reads bytes that are well-formed throughout. -/
def decode? (bs : List UInt8) : Option (List Char) :=
  (decode bs).mapM id

/-- The bytes of a text. -/
def encode (s : String) : List UInt8 :=
  s.toUTF8.toList

end PawnApi.Text.Utf8
