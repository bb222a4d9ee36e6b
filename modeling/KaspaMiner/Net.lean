import KaspaMiner.Rust

/-!
# `std::net`

`IpAddr::from_str`, which is all the program knows about addresses. Its parser is a cursor that
every reader moves on or, if it fails, leaves where it was: a reader here answers what it read and
the text it leaves, or nothing. The cursor runs over the bytes of the text and is compared with
ASCII characters only, so the characters of the text will do.
-/

namespace KaspaMiner

inductive IpAddr where
  | v4 (a b c d : UInt8)
  | v6 (segments : Vector UInt16 8)
  deriving DecidableEq

namespace IpAddr

/-- A reader. -/
abbrev Reader (α : Type) := List Char → Option (α × List Char)

/-- `char::to_digit`. -/
def charToDigit (radix : ℕ) (c : Char) : Option ℕ :=
  let digit :=
    if '0' ≤ c ∧ c ≤ '9' then c.toNat - '0'.toNat
    else if 'a' ≤ c ∧ c ≤ 'z' then c.toNat - 'a'.toNat + 10
    else if 'A' ≤ c ∧ c ≤ 'Z' then c.toNat - 'A'.toNat + 10
    else radix
  if digit < radix then some digit else none

def readGivenChar (target : Char) : List Char → Option (List Char)
  | [] => none
  | c :: s => if c = target then some s else none

/-- The separator is there before every item but the first. -/
def readSeparator {α : Type} (sep : Char) (index : ℕ) (inner : Reader α) : Reader α := fun s =>
  if index > 0 then (readGivenChar sep s).bind inner else inner s

/-- The loop of `read_number`: the result so far, and the number of digits. -/
def readDigits (radix maxDigits : ℕ) (result digitCount : ℕ) :
    List Char → Option (ℕ × ℕ × List Char)
  | [] => some (result, digitCount, [])
  | c :: s =>
    match charToDigit radix c with
    | none => some (result, digitCount, c :: s)
    | some digit =>
      if digitCount + 1 > maxDigits then none
      else readDigits radix maxDigits (result * radix + digit) (digitCount + 1) s

/-- `read_number` with `Some(max_digits)`: what it reads fits its `u32`, and has to be below
`bound` to fit the integer type that was asked for. -/
def readNumber (radix maxDigits : ℕ) (allowZeroPrefix : Bool) (bound : ℕ) : Reader ℕ := fun s =>
  match readDigits radix maxDigits 0 0 s with
  | none => none
  | some (result, digitCount, rest) =>
    if digitCount = 0 then none
    else if allowZeroPrefix = false ∧ s.head? = some '0' ∧ digitCount > 1 then none
    else if result < bound then some (result, rest)
    else none

/-- Disallow octal number in IP string. -/
def readOctet : Reader ℕ := readNumber 10 3 false 256

def readIpv4Addr : Reader (UInt8 × UInt8 × UInt8 × UInt8) := fun s => do
  let (a, s) ← readSeparator '.' 0 readOctet s
  let (b, s) ← readSeparator '.' 1 readOctet s
  let (c, s) ← readSeparator '.' 2 readOctet s
  let (d, s) ← readSeparator '.' 3 readOctet s
  return ((UInt8.ofNat a, UInt8.ofNat b, UInt8.ofNat c, UInt8.ofNat d), s)

def readSegment : Reader ℕ := readNumber 16 4 true 65536

/-- `u16::from_be_bytes`. -/
def fromBeBytes (hi lo : UInt8) : UInt16 := UInt16.ofNat (256 * hi.toNat + lo.toNat)

/-- `read_groups`, with `n` slots left and `i` filled: the groups it reads, whether the last two
were an IPv4 address, and the text it leaves. -/
def readGroups : (n i : ℕ) → List Char → List UInt16 × Bool × List Char
  | 0, _, s => ([], false, s)
  | n + 1, i, s =>
    -- Try to read a trailing embedded IPv4 address. There must be at least two groups left.
    match (if n > 0 then readSeparator ':' i readIpv4Addr s else none) with
    | some ((one, two, three, four), s) => ([fromBeBytes one two, fromBeBytes three four], true, s)
    | none =>
      match readSeparator ':' i readSegment s with
      | some (g, s) =>
        let (groups, ipv4, s) := readGroups n (i + 1) s
        (UInt16.ofNat g :: groups, ipv4, s)
      | none => ([], false, s)

/-- An array that was all zeros before the groups were written to it. -/
def segments (groups : List UInt16) : Vector UInt16 8 := Vector.ofFn fun i => groups.getD i 0

def readIpv6Addr : Reader (Vector UInt16 8) := fun s =>
  -- Read the front part of the address; either the whole thing, or up to the first ::
  let (head, headIpv4, s) := readGroups 8 0 s
  if head.length = 8 then some (segments head, s)
  -- IPv4 part is not allowed before `::`
  else if headIpv4 then none
  else do
    let s ← readGivenChar ':' s
    let s ← readGivenChar ':' s
    -- Read the back part of the address. The :: must contain at least one set of zeroes.
    let (tail, _, s) := readGroups (8 - (head.length + 1)) 0 s
    return (segments (head ++ List.replicate (8 - tail.length - head.length) 0 ++ tail), s)

def readIpAddr : Reader IpAddr := fun s =>
  match readIpv4Addr s with
  | some ((a, b, c, d), s) => some (.v4 a b c d, s)
  | none => (readIpv6Addr s).map fun (segments, s) => (.v6 segments, s)

/-- `IpAddr::from_str`: nothing may be left over. -/
def fromStr (s : String) : Option IpAddr :=
  match readIpAddr s.toList with
  | some (addr, []) => some addr
  | _ => none

end IpAddr

end KaspaMiner
