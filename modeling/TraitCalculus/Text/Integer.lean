import TraitCalculus.Text.Digit
import TraitCalculus.Text.Quoted

/-! Decimal integers as text. Both directions stop at a fixed number of digits. -/
namespace TraitCalculus.Text

/-- The most digits an integer may have in text. -/
def digitLimit : Nat := 4300

/-- Why a text gives no integer, or an integer no text. -/
inductive NumberError where
  | notInteger (text : String)
  | tooManyDigits (count : Nat)
  | tooLongToWrite
deriving Repr, DecidableEq

namespace NumberError

def message : NumberError → String
  | notInteger text => "invalid literal for int() with base 10: " ++ quote text
  | tooManyDigits count =>
    "Exceeds the limit (" ++ toString digitLimit ++ " digits) for integer string conversion: value has "
      ++ toString count ++ " digits; use sys.set_int_max_str_digits() to increase the limit"
  | tooLongToWrite =>
    "Exceeds the limit (" ++ toString digitLimit ++ " digits) for integer string conversion; "
      ++ "use sys.set_int_max_str_digits() to increase the limit"

end NumberError

/-- Blanks around a number. Those of other scripts count beside the six of ASCII. -/
def isNumberBlank (c : Char) : Bool :=
  c.toNat ∈ [0x09, 0x0a, 0x0b, 0x0c, 0x0d, 0x20, 0x85, 0xa0, 0x1680, 0x2028, 0x2029, 0x202f,
    0x205f, 0x3000] || (0x2000 ≤ c.toNat && c.toNat ≤ 0x200a)

/-- A sign in front of a number, and what follows it. -/
def splitSign : List Char → Bool × List Char
  | '-' :: cs => (true, cs)
  | '+' :: cs => (false, cs)
  | cs => (false, cs)

/-- Every underscore stands between two digits. `digit` says that a digit comes before. -/
def underscoresOk (digit : Bool) : List Char → Bool
  | [] => true
  | c :: cs =>
    if c = '_' then
      digit && (match cs with | d :: _ => isDigit d | [] => false) && underscoresOk false cs
    else underscoresOk true cs

def valueOfDigits (ds : List Char) : Nat :=
  ds.foldl (fun n c => 10 * n + (digitValue? c).getD 0) 0

/-- Reads an integer: blanks, a sign, digits with single underscores between them, blanks. -/
def readInteger (s : String) : Except NumberError Int :=
  let (negative, body) := splitSign (s.toList.dropWhile isNumberBlank)
  let run := body.takeWhile fun c => isDigit c || c = '_'
  let digits := run.filter (· ≠ '_')
  if !underscoresOk false run then .error (.notInteger s)
  else if digits.length > digitLimit then .error (.tooManyDigits digits.length)
  else if digits.isEmpty || !(body.drop run.length).all isNumberBlank then .error (.notInteger s)
  else
    let n : Int := valueOfDigits digits
    .ok (if negative then -n else n)

/-- The integer is short enough to be written. -/
def writable (n : Int) : Bool := n.natAbs < Nat.pow 10 digitLimit

end TraitCalculus.Text
