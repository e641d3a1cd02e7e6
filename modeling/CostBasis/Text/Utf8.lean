/-!
# UTF-8

The characters that bytes stand for.  A sequence of bytes is read as far as it is well formed, and
what is left over is handed back.
-/

namespace CostBasis.Text.Utf8

/-- The six bits that a byte inside a character carries. -/
def tail? (b : UInt8) : Option Nat :=
  if 0x80 ≤ b ∧ b < 0xC0 then some (b.toNat - 0x80) else none

/-- A character of at least `least`, so that no shorter sequence stands for it. -/
def charFrom? (least n : Nat) : Option Char :=
  if h : n.isValidChar then if least ≤ n then some (Char.ofNatAux n h) else none else none

/-- The first character, and the bytes behind it. -/
def next? : List UInt8 → Option (Char × List UInt8)
  | [] => none
  | a :: rest =>
    if a < 0x80 then some (Char.ofNat a.toNat, rest)
    else if a < 0xC0 then none
    else if a < 0xE0 then
      match rest with
      | b :: rest => do
        let b ← tail? b
        let c ← charFrom? 0x80 ((a.toNat - 0xC0) * 64 + b)
        return (c, rest)
      | _ => none
    else if a < 0xF0 then
      match rest with
      | b :: c :: rest => do
        let b ← tail? b
        let c ← tail? c
        let c ← charFrom? 0x800 (((a.toNat - 0xE0) * 64 + b) * 64 + c)
        return (c, rest)
      | _ => none
    else if a < 0xF8 then
      match rest with
      | b :: c :: d :: rest => do
        let b ← tail? b
        let c ← tail? c
        let d ← tail? d
        let c ← charFrom? 0x10000 ((((a.toNat - 0xF0) * 64 + b) * 64 + c) * 64 + d)
        return (c, rest)
      | _ => none
    else none

/-- The characters of the longest well-formed beginning, and the bytes behind it.  No more than
`fuel` characters are read. -/
def readFrom : (fuel : Nat) → List UInt8 → List Char × List UInt8
  | 0, bytes => ([], bytes)
  | fuel + 1, bytes =>
    match next? bytes with
    | some (c, rest) =>
      let (cs, rest) := readFrom fuel rest
      (c :: cs, rest)
    | none => ([], bytes)

/-- The characters of the longest well-formed beginning, and the bytes behind it. -/
def read (bytes : List UInt8) : List Char × List UInt8 := readFrom bytes.length bytes

/-- The text of well-formed bytes. -/
def decode? (bytes : List UInt8) : Option String :=
  match read bytes with
  | (cs, []) => some (String.ofList cs)
  | _ => none

/-- The number of bytes in the longest well-formed beginning. -/
def validLength (bytes : List UInt8) : Nat := bytes.length - (read bytes).2.length

/-- The bytes of a text. -/
def encode (s : String) : List UInt8 := s.toList.flatMap String.utf8EncodeChar

end CostBasis.Text.Utf8
