/-!
Text from bytes in UTF-8. Bytes that are no part of a character are taken together as long as
they could begin one, and such a run stands for one replacement character.
-/

namespace TokenAudit.Text

namespace Utf8

def isContinuation (b : UInt8) : Bool := 0x80 ≤ b && b ≤ 0xBF

/-- The second bytes that may follow the first byte of a character of three or four bytes. -/
def secondRange (first : UInt8) : UInt8 × UInt8 :=
  if first == 0xE0 then (0xA0, 0xBF)
  else if first == 0xED then (0x80, 0x9F)
  else if first == 0xF0 then (0x90, 0xBF)
  else if first == 0xF4 then (0x80, 0x8F)
  else (0x80, 0xBF)

def isSecond (first b : UInt8) : Bool := (secondRange first).1 ≤ b && b ≤ (secondRange first).2

/-- The value of the bits that a byte adds to a character; the others mark its place. -/
def payload (b : UInt8) (mark : Nat) : Nat := b.toNat % mark

def char2 (a b : UInt8) : Char := Char.ofNat (payload a 0x20 * 0x40 + payload b 0x40)

def char3 (a b c : UInt8) : Char :=
  Char.ofNat ((payload a 0x10 * 0x40 + payload b 0x40) * 0x40 + payload c 0x40)

def char4 (a b c d : UInt8) : Char :=
  Char.ofNat
    (((payload a 0x08 * 0x40 + payload b 0x40) * 0x40 + payload c 0x40) * 0x40 + payload d 0x40)

/-- The character that begins with `a`, or none for a run that is no character, and the bytes
after it. -/
def next (a : UInt8) (r : List UInt8) : Option Char × List UInt8 :=
  if a < 0x80 then (some (Char.ofNat a.toNat), r)
  else if 0xC2 ≤ a && a ≤ 0xDF then
    match r with
    | b :: r' => if isContinuation b then (some (char2 a b), r') else (none, r)
    | [] => (none, [])
  else if 0xE0 ≤ a && a ≤ 0xEF then
    match r with
    | b :: r' =>
      if isSecond a b then
        match r' with
        | c :: r'' => if isContinuation c then (some (char3 a b c), r'') else (none, r')
        | [] => (none, [])
      else (none, r)
    | [] => (none, [])
  else if 0xF0 ≤ a && a ≤ 0xF4 then
    match r with
    | b :: r' =>
      if isSecond a b then
        match r' with
        | c :: r'' =>
          if isContinuation c then
            match r'' with
            | d :: r''' => if isContinuation d then (some (char4 a b c d), r''') else (none, r'')
            | [] => (none, [])
          else (none, r')
        | [] => (none, [])
      else (none, r)
    | [] => (none, [])
  else (none, r)

theorem length_next_le (a : UInt8) (r : List UInt8) : (next a r).2.length ≤ r.length := by
  unfold next
  repeat' split
  all_goals simp only [List.length_cons, List.length_nil]; omega

/-- The characters of a text, with nothing in place of each run that is no character. -/
def decode : List UInt8 → List (Option Char)
  | [] => []
  | a :: r => (next a r).1 :: decode (next a r).2
termination_by bs => bs.length
decreasing_by
  have := length_next_le a r
  simp
  omega

end Utf8

/-- The text of the bytes, with a replacement character for each run that is no character. -/
def ofBytesLossy (bytes : List UInt8) : List Char := (Utf8.decode bytes).map (·.getD '\uFFFD')

/-- The text of the bytes, if all of them belong to characters. -/
def ofBytes? (bytes : List UInt8) : Option (List Char) := (Utf8.decode bytes).mapM id

def toBytes (cs : List Char) : List UInt8 := cs.flatMap String.utf8EncodeChar

end TokenAudit.Text
