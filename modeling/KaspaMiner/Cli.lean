import KaspaMiner.Net

/-!
# `cli.rs`

The one option with a grammar of its own is `--devfund-percent`. Its parser splits at the dots and
leaves the two numbers to `u16::from_str`. `Opt` has the options that `process` looks at; it is run
once they are all parsed, and makes the address of kaspad the URI that `main` connects to.
-/

namespace KaspaMiner

/-! ## `u16::from_str` -/

def toDigit (c : Char) : Option UInt16 :=
  if '0' ≤ c ∧ c ≤ '9' then some (UInt16.ofNat (c.toNat - '0'.toNat)) else none

/-- Every operation is checked. -/
def pushDigit (result : UInt16) (c : Char) : Option UInt16 := do
  let x ← toDigit c
  let shifted ← u16CheckedMul result 10
  u16CheckedAdd shifted x

/-- Most significant digit first. -/
def u16FromDigits (digits : List Char) : Option UInt16 := digits.foldlM pushDigit 0

/-- A `+` may come first, but not alone. Which error it is does not matter to the caller. -/
def u16FromStr (src : List Char) : Option UInt16 :=
  match src with
  | [] => none
  | ['+'] => none
  | '+' :: digits => u16FromDigits digits
  | digits => u16FromDigits digits

/-! ## `parse_devfund_percent` -/

/-- `len` of a piece of a string. -/
def byteLen (cs : List Char) : ℕ := (cs.flatMap String.utf8EncodeChar).length

def devfundPercentErr : String :=
  "devfund-percent should be --devfund-percent=XX.YY up to 2 numbers after the dot"

/-- What is done with the two pieces. -/
def parsePieces (pre post : List Char) : Except String UInt16 :=
  -- error if there are more than 2 numbers before or after the dot
  if byteLen pre > 2 ∨ byteLen post > 2 then .error devfundPercentErr
  else match u16FromStr post with
    | none => .error devfundPercentErr
    | some post =>
      match u16FromStr pre with
      | none => .error devfundPercentErr
      | some pre =>
        -- can't be more than 99.99%,
        if pre ≥ 100 ∨ post ≥ 100 then .error devfundPercentErr
        else .ok (pre * 100 + post)

def parseDevfundPercent (s : String) : Except String UInt16 :=
  match s.toList.splitOn '.' with
  | [] => .error devfundPercentErr
  -- if there's no postfix then it's 0.
  | [pre] => parsePieces pre ['0']
  | [pre, post] => parsePieces pre post
  -- error if there's more than a single dot
  | _ :: _ :: _ :: _ => .error devfundPercentErr

/-! ## `Opt` -/

structure Opt where
  kaspadAddress : String
  port : Option UInt16
  testnet : Bool
  userAgentSuffix : Option String

namespace Opt

/-- `port`, which keeps what it answers. -/
def getPort (self : Opt) : UInt16 × Opt :=
  let port := self.port.getD (if self.testnet then 16210 else 16110)
  (port, { self with port := some port })

/-- The last check. -/
def checkSuffix (self : Opt) : Except String Unit :=
  match self.userAgentSuffix with
  | none => .ok ()
  | some suffix =>
    if suffix.toList.contains '/' then
      .error "--user-agent-suffix cannot contain '/' characters"
    else if suffix.toList.length > 20 then
      .error "--user-agent-suffix must be at most 20 characters"
    else .ok ()

/-- The options are changed in place, so they are answered along with the result. -/
def process (self : Opt) : Opt × Except String Unit :=
  let self := if self.kaspadAddress = "" then { self with kaspadAddress := "127.0.0.1" } else self
  if "grpc://".toList.isPrefixOf self.kaspadAddress.toList then
    (self, self.checkSuffix)
  else
    match IpAddr.fromStr self.kaspadAddress with
    | none => (self, .error "invalid IP address syntax")
    | some _ =>
      let (port, self) := self.getPort
      let self := { self with
        kaspadAddress := "grpc://" ++ self.kaspadAddress ++ ":" ++ toString port.toNat }
      (self, self.checkSuffix)

end Opt

end KaspaMiner
