/-!
The shortest decimal text of a floating point number: the fewest digits that read back, and of
those the nearest. A number `m · 2^q` is read back from every decimal between the midpoints to
its neighbours, the midpoints included when `m` is even.
-/

namespace TokenAudit.Decimal

/-- A positive binary number with the width of the gap below it. -/
structure Binary where
  mantissa : Nat
  exponent : Int
  /-- The gap below is half the gap above, as at a power of two. -/
  narrow : Bool

/-- The leading bit of a mantissa, which the stored fraction leaves out. -/
def leadingBit : Nat := 0x10000000000000

/-- The bit that stores the sign. -/
def signBit : Nat := 0x8000000000000000

/-- The number with the given bits, its sign left out. -/
def Binary.ofBits (bits : Nat) : Binary :=
  let fraction : Nat := bits % leadingBit
  let field : Nat := bits / leadingBit % 0x800
  if field = 0 then ⟨fraction, -1074, false⟩
  else ⟨leadingBit + fraction, (field : Int) - 1075, fraction = 0 && 1 < field⟩

/-- Four times the number, and four times the ends of the interval that reads back as it, over
a common denominator. -/
structure Interval where
  low : Nat
  value : Nat
  high : Nat
  denominator : Nat
  closed : Bool

/-- The interval of `b`, scaled by the power of ten `-k`. -/
def Interval.of (b : Binary) (k : Int) : Interval :=
  let value := 4 * b.mantissa
  let high := value + 2
  let low := value - (if b.narrow then 1 else 2)
  let up := Nat.pow 2 b.exponent.toNat * Nat.pow 10 (-k).toNat
  { low := low * up, value := value * up, high := high * up
    denominator := 4 * (Nat.pow 2 (-b.exponent).toNat * Nat.pow 10 k.toNat)
    closed := b.mantissa % 2 = 0 }

/-- The grid point `n` reads back as the value. -/
def Interval.reads (i : Interval) (n : Nat) : Bool :=
  let p := n * i.denominator
  if i.closed then i.low ≤ p && p ≤ i.high else i.low < p && p < i.high

/-- The point of the grid that reads back and is nearest, the even one of two that are as near. -/
def Interval.nearest? (i : Interval) : Option Nat :=
  let below := i.value / i.denominator
  let above := below + 1
  let downward := i.value - below * i.denominator
  let upward := above * i.denominator - i.value
  match i.reads below && 0 < below, i.reads above with
  | true, true =>
    if downward < upward then some below
    else if upward < downward then some above
    else some (if below % 2 = 0 then below else above)
  | true, false => some below
  | false, true => some above
  | false, false => none

/-- Digits and power of ten, tried on ever finer grids starting with `10 ^ k`. -/
def search (b : Binary) (k : Int) : Nat → Nat × Int
  | 0 => ((Interval.of b k).value / (Interval.of b k).denominator, k)
  | steps + 1 =>
    match (Interval.of b k).nearest? with
    | some n => (n, k)
    | none => search b (k - 1) steps

/-- The largest power of ten that a double can reach. -/
def coarsest : Int := 309

/-- The shortest digits `d` and power `k` for which `d · 10^k` reads back. -/
def shortest (bits : Nat) : Nat × Int := search (Binary.ofBits bits) coarsest 700

/-- Digits are positional from `10^-5` to below `10^16`; a whole number keeps one zero after the
point, and an exponent has a sign and two digits or more. -/
def render (digits : List Char) (power : Int) : List Char :=
  let place : Int := digits.length + power
  if 0 ≤ power && place ≤ 16 then digits ++ List.replicate power.toNat '0' ++ ['.', '0']
  else if 0 < place && place ≤ 16 then
    digits.take place.toNat ++ '.' :: digits.drop place.toNat
  else if -5 < place && place ≤ 0 then
    '0' :: '.' :: (List.replicate (-place).toNat '0' ++ digits)
  else
    let exponent := place - 1
    let size := (Nat.repr exponent.natAbs).toList
    let tail := match digits with
      | [d] => [d]
      | d :: ds => d :: '.' :: ds
      | [] => []
    tail ++ 'e' :: (if exponent < 0 then '-' else '+') ::
      (List.replicate (2 - size.length) '0' ++ size)

/-- The text of a finite floating point number. -/
def ofFloat (x : Float) : String :=
  let bits := x.toBits.toNat
  let sign := if signBit ≤ bits then "-" else ""
  let magnitude := bits % signBit
  if magnitude = 0 then sign ++ "0.0"
  else
    let (digits, power) := shortest magnitude
    sign ++ String.ofList (render (Nat.repr digits).toList power)

end TokenAudit.Decimal
