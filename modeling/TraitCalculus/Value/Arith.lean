import TraitCalculus.Expr
import TraitCalculus.Text.Integer
import TraitCalculus.Value.Template

/-! Operators on values. A truth value among numbers counts as one or zero, a text times a number
is repeated, and the remainder of a text fills it as a template. -/
namespace TraitCalculus

inductive OperandError where
  | unsupported (op left right : String)
  | notConcatenable (right : String)
  | notRepeatable (right : String)
  | incomparable (op left right : String)
  | notNegatable (operand : String)
  | zeroDivisor
  | template (e : TemplateError)
deriving Repr, DecidableEq

def OperandError.message : OperandError → String
  | unsupported op left right =>
    "unsupported operand type(s) for " ++ op ++ ": '" ++ left ++ "' and '" ++ right ++ "'"
  | notConcatenable right => "can only concatenate str (not \"" ++ right ++ "\") to str"
  | notRepeatable right => "can't multiply sequence by non-int of type '" ++ right ++ "'"
  | incomparable op left right =>
    "'" ++ op ++ "' not supported between instances of '" ++ left ++ "' and '" ++ right ++ "'"
  | notNegatable operand => "bad operand type for unary -: '" ++ operand ++ "'"
  | zeroDivisor => "InterpreterVisitor._error() takes 2 positional arguments but 3 were given"
  | template e => e.message

namespace Value

/-- The name of a value's sort in messages. -/
def sort : Value → String
  | int _ => "int"
  | text _ => "str"
  | bool _ => "bool"

def number? : Value → Option Int
  | int n => some n
  | bool b => some (if b then 1 else 0)
  | text _ => none

/-- Equality, by number between numbers and truth values. -/
def equals (l r : Value) : Bool :=
  match l, r with
  | text s, text t => s = t
  | l, r =>
    match l.number?, r.number? with
    | some m, some n => m = n
    | _, _ => false

/-- Comparison: numbers by size, texts by their characters. -/
def compare (op : BinOp) (ints : Int → Int → Bool) (texts : String → String → Bool) (l r : Value) :
    Except OperandError Bool :=
  match l, r with
  | text s, text t => .ok (texts s t)
  | l, r =>
    match l.number?, r.number? with
    | some m, some n => .ok (ints m n)
    | _, _ => .error (.incomparable op.symbol l.sort r.sort)

/-- An operator on two numbers. -/
def onInts (op : String) (f : Int → Int → Int) (l r : Value) : Except OperandError Value :=
  match l.number?, r.number? with
  | some m, some n => .ok (int (f m n))
  | _, _ => .error (.unsupported op l.sort r.sort)

def add (l r : Value) : Except OperandError Value :=
  match l, r with
  | text s, text t => .ok (text (s ++ t))
  | text _, r => .error (.notConcatenable r.sort)
  | l, r => onInts "+" (· + ·) l r

def repeatText (s : String) (n : Int) : String := String.join (List.replicate n.toNat s)

def mul (l r : Value) : Except OperandError Value :=
  match l, r with
  | text s, r =>
    match r.number? with
    | some n => .ok (text (repeatText s n))
    | none => .error (.notRepeatable r.sort)
  | l, text s =>
    match l.number? with
    | some n => .ok (text (repeatText s n))
    | none => .error (.notRepeatable l.sort)
  | l, r => onInts "*" (· * ·) l r

/-- Quotients are rounded down. -/
def div (l r : Value) : Except OperandError Value :=
  if r.number? = some 0 then .error .zeroDivisor else onInts "//" Int.fdiv l r

/-- Remainders have the sign of the divisor. -/
def mod (l r : Value) : Except OperandError Value :=
  if r.number? = some 0 then .error .zeroDivisor
  else
    match l with
    | text s => ((r.fillTemplate s).map text).mapError .template
    | l => onInts "%" Int.fmod l r

def neg (v : Value) : Except OperandError Value :=
  match v.number? with
  | some n => .ok (int (-n))
  | none => .error (.notNegatable v.sort)

/-- An operator on two values. -/
def apply (op : BinOp) (l r : Value) : Except OperandError Value :=
  match op with
  | .eq => .ok (bool (l.equals r))
  | .neq => .ok (bool (!l.equals r))
  | .gt => bool <$> compare op (· > ·) (· > ·) l r
  | .geq => bool <$> compare op (· ≥ ·) (· ≥ ·) l r
  | .lt => bool <$> compare op (· < ·) (· < ·) l r
  | .leq => bool <$> compare op (· ≤ ·) (· ≤ ·) l r
  | .add => l.add r
  | .sub => onInts "-" (· - ·) l r
  | .mul => l.mul r
  | .div => l.div r
  | .mod => l.mod r
  | .or | .and => .error (.unsupported op.symbol l.sort r.sort)

/-- The text of a value on its own. -/
def display : Value → Except Text.NumberError String
  | int n => if Text.writable n then .ok (toString n) else .error .tooLongToWrite
  | text s => .ok s
  | bool b => .ok (if b then "True" else "False")

/-- The integer a value stands for. -/
def toInt : Value → Except Text.NumberError Int
  | int n => .ok n
  | text s => Text.readInteger s
  | bool b => .ok (if b then 1 else 0)

end Value

end TraitCalculus
