/-!
Reading bytes as UTF-8. Bytes that are no part of a character are replaced: each longest run of
bytes that starts a character without completing it becomes one replacement character.
-/

namespace PhpTypes.Text

/-- A character begun: its bits so far, the number of bytes it still needs, and the range that the
next byte has to lie in. -/
structure PartialChar where
  bits : Nat
  need : Nat
  least : Nat
  greatest : Nat

def replacement : Char := Char.ofNat 0xfffd

/-- What a byte between two characters gives: characters already complete, or one begun. -/
def leadByte (b : Nat) : List Char × Option PartialChar :=
  if b < 0x80 then ([Char.ofNat b], none)
  else if 0xc2 ≤ b && b ≤ 0xdf then ([], some ⟨b % 0x20, 1, 0x80, 0xbf⟩)
  else if 0xe0 ≤ b && b ≤ 0xef then
    ([], some ⟨b % 0x10, 2, if b == 0xe0 then 0xa0 else 0x80, if b == 0xed then 0x9f else 0xbf⟩)
  else if 0xf0 ≤ b && b ≤ 0xf4 then
    ([], some ⟨b % 0x08, 3, if b == 0xf0 then 0x90 else 0x80, if b == 0xf4 then 0x8f else 0xbf⟩)
  else ([replacement], none)

def decodeUtf8From : Option PartialChar → List UInt8 → List Char
  | none, [] => []
  | some _, [] => [replacement]
  | none, b :: bs =>
    let (chars, state) := leadByte b.toNat
    chars ++ decodeUtf8From state bs
  | some p, b :: bs =>
    if p.least ≤ b.toNat && b.toNat ≤ p.greatest then
      let bits := p.bits * 0x40 + b.toNat % 0x40
      if p.need ≤ 1 then Char.ofNat bits :: decodeUtf8From none bs
      else decodeUtf8From (some ⟨bits, p.need - 1, 0x80, 0xbf⟩) bs
    else
      let (chars, state) := leadByte b.toNat
      replacement :: chars ++ decodeUtf8From state bs

def decodeUtf8 (bytes : List UInt8) : List Char := decodeUtf8From none bytes

end PhpTypes.Text
