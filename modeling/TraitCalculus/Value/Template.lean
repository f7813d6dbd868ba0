import TraitCalculus.Expr
import TraitCalculus.Text.Integer

/-! Templates: texts with one place for a value. A place is a percent sign, flags, a width, a
precision and a conversion; two percent signs stand for one. -/
namespace TraitCalculus

inductive TemplateError where
  | incomplete
  | needsNames
  | noValueLeft
  | valueLeft
  | sizeNotInteger
  | sizeOutOfRange (what : String)
  | widthTooBig
  | precisionTooBig
  | unknownConversion (c : Char) (index : Nat)
  | notNumber (conversion : Char)
  | notInteger (conversion : Char)
  | notReal
  | tooLargeForReal
  | notCharacter
  | notCodePoint
  | number (e : Text.NumberError)
deriving Repr, DecidableEq

namespace TemplateError

/-- A number in hexadecimal digits. -/
def hexText (n : Nat) : String := String.ofList (Nat.toDigits 16 n)

def message : TemplateError → String
  | incomplete => "incomplete format"
  | needsNames => "format requires a mapping"
  | noValueLeft => "not enough arguments for format string"
  | valueLeft => "not all arguments converted during string formatting"
  | sizeNotInteger => "* wants int"
  | sizeOutOfRange what => "Python int too large to convert to C " ++ what
  | widthTooBig => "width too big"
  | precisionTooBig => "precision too big"
  | unknownConversion c index =>
    let shown := if 31 ≤ c.toNat ∧ c.toNat ≤ 126 then c else '?'
    "unsupported format character '" ++ shown.toString ++ "' (0x" ++ hexText c.toNat
      ++ ") at index " ++ toString index
  | notNumber c => "%" ++ c.toString ++ " format: a real number is required, not str"
  | notInteger c => "%" ++ c.toString ++ " format: an integer is required, not str"
  | notReal => "must be real number, not str"
  | tooLargeForReal => "int too large to convert to float"
  | notCharacter => "%c requires int or char"
  | notCodePoint => "%c arg not in range(0x110000)"
  | number e => e.message

end TemplateError

namespace Template

/-- The widest field there can be. -/
def maxWidth : Nat := Nat.pow 2 63 - 1

/-- The greatest precision there can be. -/
def maxPrecision : Nat := Nat.pow 2 31 - 1

/-- A width or a precision: left out, written, or the value itself. -/
inductive Size where
  | absent
  | written (n : Nat)
  | taken
deriving Repr, DecidableEq

structure Directive where
  flags : List Char
  width : Size
  precision : Size
  conversion : Char
deriving Repr, DecidableEq

def isFlag (c : Char) : Bool := "-+ #0".toList.contains c

/-- Reads a size, at most `limit`, and the rest after it. -/
def readSize (limit : Nat) (tooBig : TemplateError) (cs : List Char) (bare : Size) :
    Except TemplateError (Size × List Char) :=
  match cs with
  | '*' :: rest => .ok (.taken, rest)
  | cs =>
    match cs.takeWhile Char.isDigit with
    | [] => .ok (bare, cs)
    | ds =>
      let n := Text.valueOfDigits ds
      if n ≤ limit then .ok (.written n, cs.dropWhile Char.isDigit) else .error tooBig

/-- Leaves out one length mark. -/
def skipLength : List Char → List Char
  | 'h' :: rest | 'l' :: rest | 'L' :: rest => rest
  | rest => rest

/-- The value a size takes, if it takes it. -/
def checkTaken (v : Value) (used : Bool) (lo hi : Int) (what : String) :
    Size → Except TemplateError Bool
  | .taken =>
    if used then .error .noValueLeft
    else
      match v with
      | .text _ => .error .sizeNotInteger
      | .bool _ => .ok true
      | .int n => if lo ≤ n ∧ n ≤ hi then .ok true else .error (.sizeOutOfRange what)
  | _ => .ok used

/-- Reads a place after its percent sign. The result tells whether a size took the value. -/
def readDirective (v : Value) (used : Bool) (cs : List Char) :
    Except TemplateError (Directive × Bool × List Char) := do
  if cs.head? = some '(' then throw .needsNames
  let flags := cs.takeWhile isFlag
  let (width, cs) ← readSize maxWidth .widthTooBig (cs.dropWhile isFlag) .absent
  let used ← checkTaken v used (-maxWidth - 1) maxWidth "ssize_t" width
  let (precision, cs) ← match cs with
    | '.' :: cs => readSize maxPrecision .precisionTooBig cs (.written 0)
    | cs => pure (.absent, cs)
  let used ← checkTaken v used (-maxPrecision - 1) maxPrecision "int" precision
  match skipLength cs with
  | [] => throw .incomplete
  | c :: rest => return (⟨flags, width, precision, c⟩, used, rest)

/-- A written form in parts: sign, mark of the base, and digits or text. -/
structure Parts where
  sign : String := ""
  mark : String := ""
  body : String
  numeric : Bool := true
deriving Repr, DecidableEq

def Directive.precision? (d : Directive) : Option Nat :=
  match d.precision with
  | .written n => some n
  | _ => none

/-- Parts in a field: to the left, filled with zeros behind the sign, or to the right. -/
def Directive.fill (d : Directive) (p : Parts) : String :=
  let sign := if !p.numeric || p.sign = "-" then p.sign
    else if d.flags.contains '+' then "+" else if d.flags.contains ' ' then " " else ""
  let width := match d.width with
    | .written n => n
    | _ => 0
  let pad := width - (sign ++ p.mark ++ p.body).length
  if d.flags.contains '-' then sign ++ p.mark ++ p.body ++ "".pushn ' ' pad
  else if p.numeric && d.flags.contains '0' then sign ++ p.mark ++ "".pushn '0' pad ++ p.body
  else "".pushn ' ' pad ++ sign ++ p.mark ++ p.body

def signOf (n : Int) : String := if n < 0 then "-" else ""

/-- An integer in a base, with at least as many digits as the precision says. -/
def Directive.integer (d : Directive) (base : Nat) (mark : String) (n : Int) : Parts :=
  let digits := String.ofList (Nat.toDigits base n.natAbs)
  { sign := signOf n
    mark := if d.flags.contains '#' then mark else ""
    body := "".pushn '0' (d.precision?.getD 0 - digits.length) ++ digits }

/-- A quotient rounded to the nearest number, a half to the even one. -/
def roundDiv (n k : Nat) : Nat :=
  let q := n / k
  if 2 * (n % k) > k ∨ (2 * (n % k) = k ∧ q % 2 = 1) then q + 1 else q

/-- The nearest number with at most 53 binary digits before zeros. -/
def toReal (n : Nat) : Nat :=
  let k := Nat.pow 2 (Nat.log2 n - 52)
  if n < Nat.pow 2 53 then n else roundDiv n k * k

/-- The digits of a number to so many places, and its exponent of ten. -/
def scientific (places n : Nat) : Nat × Nat :=
  if n = 0 then (0, 0)
  else
    let x := (Nat.toDigits 10 n).length - 1
    if x ≤ places then (n * Nat.pow 10 (places - x), x)
    else
      let m := roundDiv n (Nat.pow 10 (x - places))
      if m = Nat.pow 10 (places + 1) then (Nat.pow 10 places, x + 1) else (m, x)

def dropZeros (cs : List Char) : List Char := (cs.reverse.dropWhile (· = '0')).reverse

/-- Whole digits and decimals, with a point where there are decimals or where it is asked for. -/
def pointed (point : Bool) (whole decimals : List Char) : String :=
  String.ofList (if decimals.isEmpty && !point then whole else whole ++ '.' :: decimals)

def exponentText (letter : Char) (x : Nat) : String :=
  letter.toString ++ "+" ++ (if x < 10 then "0" else "") ++ toString x

/-- A number with an exponent. `trim` drops zeros at the end. -/
def exponential (letter : Char) (point trim : Bool) (places n : Nat) : String :=
  let (m, x) := scientific places n
  let ds := (Nat.toDigits 10 m)
  let ds := List.replicate (places + 1 - ds.length) '0' ++ ds
  let decimals := if trim then dropZeros (ds.drop 1) else ds.drop 1
  pointed point (ds.take 1) decimals ++ exponentText letter x

/-- A whole number written as a real one. -/
def realText (conversion : Char) (point : Bool) (precision n : Nat) : String :=
  let letter := if conversion.isUpper then 'E' else 'e'
  match conversion.toLower with
  | 'f' => pointed point (Nat.toDigits 10 n) (List.replicate precision '0')
  | 'e' => exponential letter point false precision n
  | _ =>
    let places := precision - 1
    let x := (scientific places n).2
    if x ≤ places then
      pointed point (Nat.toDigits 10 n) (if point then List.replicate (places - x) '0' else [])
    else exponential letter point (!point) places n

def Directive.real (d : Directive) (v : Value) : Except TemplateError Parts :=
  let write (n : Int) : Except TemplateError Parts :=
    let m := toReal n.natAbs
    if m < Nat.pow 2 1024 then
      .ok ⟨signOf n, "", realText d.conversion (d.flags.contains '#') (d.precision?.getD 6) m, true⟩
    else .error .tooLargeForReal
  match v with
  | .text _ => .error .notReal
  | .bool b => write (if b then 1 else 0)
  | .int n => write n

def Directive.character (v : Value) : Except TemplateError Parts :=
  let ofCode (n : Int) : Except TemplateError Parts :=
    if 0 ≤ n ∧ n < 0x110000 then .ok ⟨"", "", (Char.ofNat n.toNat).toString, false⟩
    else .error .notCodePoint
  match v with
  | .text s => if s.length = 1 then .ok ⟨"", "", s, false⟩ else .error .notCharacter
  | .bool b => ofCode (if b then 1 else 0)
  | .int n => ofCode n

/-- A decimal integer, if it is not too long to be written. -/
def decimalText (n : Int) : Except TemplateError String :=
  if Text.writable n then .ok (toString n) else .error (.number .tooLongToWrite)

/-- The text of a value; `quoted` tells how a text shows. -/
def shown (quoted : String → String) : Value → Except TemplateError String
  | .text s => .ok (quoted s)
  | .bool b => .ok (if b then "True" else "False")
  | .int n => decimalText n

/-- A text cut to the precision. -/
def Directive.cut (d : Directive) (s : String) : Parts :=
  ⟨"", "", match d.precision? with
    | some n => String.ofList (s.toList.take n)
    | none => s, false⟩

def Directive.upperHex (d : Directive) (n : Int) : Parts :=
  let p := d.integer 16 "0X" n
  { p with body := p.body.toUpper }

/-- An integer, or the error for a text. -/
def integerOf (e : TemplateError) : Value → Except TemplateError Int
  | .text _ => .error e
  | .bool b => .ok (if b then 1 else 0)
  | .int n => .ok n

/-- The value in its place. -/
def Directive.write (d : Directive) (v : Value) (index : Nat) : Except TemplateError String :=
  match d.conversion with
  | 's' => (shown id v).map fun s => d.fill (d.cut s)
  | 'r' => (shown Text.quote v).map fun s => d.fill (d.cut s)
  | 'a' => (shown Text.quoteAscii v).map fun s => d.fill (d.cut s)
  | 'd' | 'i' | 'u' => do
    let n ← integerOf (.notNumber d.conversion) v
    let _ ← decimalText n
    return d.fill (d.integer 10 "" n)
  | 'o' => (integerOf (.notInteger 'o') v).map fun n => d.fill (d.integer 8 "0o" n)
  | 'x' => (integerOf (.notInteger 'x') v).map fun n => d.fill (d.integer 16 "0x" n)
  | 'X' => (integerOf (.notInteger 'X') v).map fun n => d.fill (d.upperHex n)
  | 'e' | 'E' | 'f' | 'F' | 'g' | 'G' => (d.real v).map d.fill
  | 'c' => (character v).map d.fill
  | c => .error (.unknownConversion c index)

/-- Fills a template of `size` characters, from the rest `cs` on. Every step takes a character, so
`fuel` above the length of the rest is enough. -/
def fillFrom (v : Value) (size : Nat) : Nat → Bool → List Char → Except TemplateError String
  | 0, _, _ => .error .incomplete
  | _ + 1, used, [] => if used then .ok "" else .error .valueLeft
  | fuel + 1, used, '%' :: '%' :: cs => (fillFrom v size fuel used cs).map ("%" ++ ·)
  | fuel + 1, used, '%' :: cs => do
    let (d, used, rest) ← readDirective v used cs
    if used then throw .noValueLeft
    let piece ← d.write v (size - rest.length - 1)
    return piece ++ (← fillFrom v size fuel true rest)
  | fuel + 1, used, c :: cs => (fillFrom v size fuel used cs).map (c.toString ++ ·)

end Template

/-- A template with a value in its place. -/
def Value.fillTemplate (template : String) (v : Value) : Except TemplateError String :=
  Template.fillFrom v template.length (template.length + 1) false template.toList

end TraitCalculus
