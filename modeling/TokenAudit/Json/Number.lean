import TokenAudit.Json.Basic

/-! Numbers of JSON documents. -/

namespace TokenAudit

namespace JsonNumber

/-- The value of the digits `cs`, most significant first, after those of `n`. -/
def digitsValue (n : Nat) (cs : List Char) : Nat :=
  cs.foldl (fun n c => 10 * n + (c.toNat - '0'.toNat)) n

def maxWord : Nat := 0xFFFFFFFFFFFFFFFF

/-- The largest natural number whose negation fits a signed word. -/
def maxNegated : Nat := 0x8000000000000000

/-- Digits enter the significand as long as it fits 64 bits. Returns it with the digits left. -/
def significand (n : Nat) : List Char → Nat × List Char
  | [] => (n, [])
  | c :: r =>
    let m := 10 * n + (c.toNat - '0'.toNat)
    if m ≤ maxWord then significand m r else (n, c :: r)

def powerOfTen (e : Nat) : Float := Float.ofScientific 1 false e

/-- `f` scaled by the power of ten `e`, in steps that the table of powers up to 308 allows. -/
def scaleDown (steps : Nat) (f : Float) (e : Nat) : Float :=
  match steps with
  | 0 => f
  | steps + 1 =>
    if e ≤ 308 then f / powerOfTen e
    else if f == 0 then f
    else scaleDown steps (f / powerOfTen 308) (e - 308)

def scaleUp? (f : Float) (e : Nat) : Option Float :=
  if e ≤ 308 then
    let g := f * powerOfTen e
    if g.isInf then none else some g
  else if f == 0 then some f
  else none

def ofParts (positive : Bool) (n : Nat) (e : Int) : JsonNumber :=
  let f := (UInt64.ofNat n).toFloat
  let scaled := match e with
    | .ofNat k => scaleUp? f k
    | .negSucc k => some (scaleDown (k / 308 + 2) f (k + 1))
  match scaled with
  | some g => .float (if positive then g else -g)
  | none => .tooLarge

def maxExponent : Nat := 0x7FFFFFFF

/-- The number with integer digits `whole`, fraction digits `fraction` and the exponent given
by its sign and digits. -/
def ofDigits (positive : Bool) (whole fraction : List Char) (exponent : Option (Bool × List Char)) :
    JsonNumber :=
  let (n, overflow) := significand 0 whole
  if fraction.isEmpty && exponent.isNone && overflow.isEmpty then
    if positive then .natural n
    else if 0 < n && n ≤ maxNegated then .negative n
    else .float (-(UInt64.ofNat n).toFloat)
  else
    let (m, unused) :=
      if overflow.isEmpty then significand n fraction
      else if fraction.isEmpty then (n, [])
      else significand n fraction
    let start : Int := (overflow.length : Int) - ((fraction.length - unused.length : Nat) : Int)
    match exponent with
    | none => ofParts positive m start
    | some (up, digits) =>
      let e := digitsValue 0 digits
      if maxExponent < e then
        if m ≠ 0 && up then .tooLarge else .float (if positive then 0 else -0)
      else ofParts positive m (if up then start + e else start - e)

end JsonNumber

end TokenAudit
