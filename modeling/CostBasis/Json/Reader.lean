import CostBasis.Json.Value

/-!
# Reading JSON

The grammar of JSON, read from the left.  Each reader takes the characters of its item and hands
back what follows them.
-/

namespace CostBasis.Json

/-- Whether a character may stand between the items of a text. -/
def isBlank (c : Char) : Bool := c == ' ' || c == '\n' || c == '\t' || c == '\r'

/-- Skips blanks. -/
def skipBlanks (cs : List Char) : List Char := cs.dropWhile isBlank

/-- Whether a character is one of the ten digits. -/
def isDigit (c : Char) : Bool := (Text.digitValue? c).isSome

/-- Reads at least one digit. -/
def readDigits (cs : List Char) : Option (List Char × List Char) :=
  match cs.span isDigit with
  | ([], _) => none
  | found => some found

/-- Reads the digits before the point: a zero alone, or digits of which the first is not zero. -/
def readWhole : List Char → Option (List Char × List Char)
  | '0' :: cs => some (['0'], cs)
  | cs => readDigits cs

/-- Reads a point and the digits behind it, if there is one. -/
def readFraction : List Char → Option (List Char × List Char)
  | '.' :: cs => (readDigits cs).map fun (ds, cs) => ('.' :: ds, cs)
  | cs => some ([], cs)

/-- Reads an exponent, if there is one. -/
def readExponent : List Char → Option (List Char × List Char)
  | [] => some ([], [])
  | c :: cs =>
    if c = 'e' ∨ c = 'E' then
      match cs with
      | '+' :: cs => (readDigits cs).map fun (ds, cs) => (c :: '+' :: ds, cs)
      | '-' :: cs => (readDigits cs).map fun (ds, cs) => (c :: '-' :: ds, cs)
      | cs => (readDigits cs).map fun (ds, cs) => (c :: ds, cs)
    else some ([], c :: cs)

/-- Reads a number. -/
def readNumber (cs : List Char) : Option (List Char × List Char) := do
  let (sign, cs) := match cs with
    | '-' :: cs => (['-'], cs)
    | cs => ([], cs)
  let (whole, cs) ← readWhole cs
  let (fraction, cs) ← readFraction cs
  let (exponent, cs) ← readExponent cs
  return (sign ++ whole ++ fraction ++ exponent, cs)

/-- Reads a string from behind its first quote. -/
def readString : List Char → Option (List Char × List Char)
  | [] => none
  | '"' :: cs => some ([], cs)
  | '\\' :: 'u' :: a :: b :: c :: d :: cs =>
    if (hexUnit? a b c d).isSome then
      (readString cs).map fun (s, cs) => ('\\' :: 'u' :: a :: b :: c :: d :: s, cs)
    else none
  | '\\' :: c :: cs =>
    if (escaped? c).isSome then (readString cs).map fun (s, cs) => ('\\' :: c :: s, cs)
    else none
  | c :: cs =>
    if c.toNat < 32 ∨ c = '\\' then none
    else (readString cs).map fun (s, cs) => (c :: s, cs)

mutual

/-- Reads a value. -/
def readValue : (fuel : Nat) → List Char → Option (Value × List Char)
  | 0, _ => none
  | fuel + 1, cs =>
    match skipBlanks cs with
    | 'n' :: 'u' :: 'l' :: 'l' :: cs => some (.null, cs)
    | 't' :: 'r' :: 'u' :: 'e' :: cs => some (.bool true, cs)
    | 'f' :: 'a' :: 'l' :: 's' :: 'e' :: cs => some (.bool false, cs)
    | '"' :: cs => (readString cs).map fun (s, cs) => (.string s, cs)
    | '[' :: cs =>
      match skipBlanks cs with
      | ']' :: cs => some (.array [], cs)
      | cs => (readItems fuel cs).map fun (vs, cs) => (.array vs, cs)
    | '\x7b' :: cs =>
      match skipBlanks cs with
      | '\x7d' :: cs => some (.object [], cs)
      | cs => (readMembers fuel cs).map fun (ms, cs) => (.object ms, cs)
    | cs => (readNumber cs).map fun (n, cs) => (.number n, cs)

/-- Reads the items of an array and its closing bracket. -/
def readItems : (fuel : Nat) → List Char → Option (List Value × List Char)
  | 0, _ => none
  | fuel + 1, cs => do
    let (v, cs) ← readValue fuel cs
    match skipBlanks cs with
    | ']' :: cs => return ([v], cs)
    | ',' :: cs => do
      let (vs, cs) ← readItems fuel cs
      return (v :: vs, cs)
    | _ => none

/-- Reads the members of an object and its closing brace. -/
def readMembers : (fuel : Nat) → List Char → Option (List (List Char × Value) × List Char)
  | 0, _ => none
  | fuel + 1, cs =>
    match skipBlanks cs with
    | '"' :: cs => do
      let (k, cs) ← readString cs
      match skipBlanks cs with
      | ':' :: cs => do
        let (v, cs) ← readValue fuel cs
        match skipBlanks cs with
        | '\x7d' :: cs => return ([(k, v)], cs)
        | ',' :: cs => do
          let (ms, cs) ← readMembers fuel cs
          return ((k, v) :: ms, cs)
        | _ => none
      | _ => none
    | _ => none

end

/-- Reads a text that is one value with blanks around it.  No item takes more than two steps for
each of its characters.
Source: the reader of JSON from a text.  Its errors are left out, since no function looks at
them. -/
def read? (s : String) : Option Value :=
  let cs := s.toList
  match readValue (2 * cs.length + 2) cs with
  | some (v, rest) => if (skipBlanks rest).isEmpty then some v else none
  | none => none

end CostBasis.Json
