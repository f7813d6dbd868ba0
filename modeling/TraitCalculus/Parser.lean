import TraitCalculus.Text.Integer
import TraitCalculus.Token

/-! Parsers on token lists. A parser sees the tokens that are left and the token that stands
behind the last one, and returns a result with the tokens it leaves. -/
namespace TraitCalculus

inductive ParseError where
  | malformed (e : SyntaxError)
  | number (e : Text.NumberError)
  /-- The bound on nesting was too small for the tokens. -/
  | outOfFuel
deriving Repr, DecidableEq

def Parser (α : Type) := Token → List Token → Except ParseError (α × List Token)

namespace Parser

def pure {α : Type} (a : α) : Parser α := fun _ ts => .ok (a, ts)

def bind {α β : Type} (p : Parser α) (f : α → Parser β) : Parser β := fun finish ts =>
  match p finish ts with
  | .error e => .error e
  | .ok (a, rest) => f a finish rest

instance : Monad Parser where
  pure := Parser.pure
  bind := Parser.bind

def fail {α : Type} (e : ParseError) : Parser α := fun _ _ => .error e

/-- The next token, which stays. -/
def peek : Parser Token := fun finish ts => .ok (ts.headD finish, ts)

/-- The kind of the token `n` places ahead. -/
def kindAhead (n : Nat) : Parser Kind := fun finish ts => .ok ((ts.getD n finish).kind, ts)

/-- The kind of the next token. -/
def kind : Parser Kind := kindAhead 0

def next : Parser Token := fun finish ts => .ok (ts.headD finish, ts.drop 1)

/-- Takes a token of one of the kinds. -/
def expect (kinds : List Kind) : Parser Token := fun finish ts =>
  match (ts.headD finish).check kinds with
  | .error e => .error (.malformed e)
  | .ok t => .ok (t, ts.drop 1)

/-- Fails since none of the kinds is next. -/
def refuse {α : Type} (kinds : List Kind) : Parser α := fun finish ts =>
  .error (.malformed ⟨some (ts.headD finish).line, .expected kinds (ts.headD finish).text⟩)

/-- Takes the next token if it has this kind. -/
def skipIf (k : Kind) : Parser Unit := fun finish ts =>
  .ok ((), if (ts.headD finish).kind = k then ts.drop 1 else ts)

/-- The text of an identifier. -/
def ident : Parser String := do return (← expect [.ident]).text

/-- Trait names up to the dot, with or without `+` between them. `done` holds those found, last
first. -/
def boundList (done : List String) : Nat → Parser (List String)
  | 0 => fail .outOfFuel
  | n + 1 => do
    if (← kind) = .dot then return done.reverse
    else
      let x ← ident
      skipIf .add
      boundList (x :: done) n

/-- Trait bounds behind a binder, then the dot. -/
def bounds (n : Nat) : Parser (List String) := do
  if (← kind) = .implWord then
    let _ ← next
    let bs ← boundList [] n
    let _ ← expect [.dot]
    return bs
  else
    let _ ← expect [.dot]
    return []

/-- A bound on nesting and repetition that no reading of these tokens exceeds. -/
def fuelFor (tokens : List Token) : Nat := tokens.length + 2

/-- Reads from the front of a token list. -/
def run {α : Type} (p : Nat → Parser α) (tokens : List Token) :
    Except ParseError (α × List Token) :=
  p (fuelFor tokens) (Token.finishOf tokens) tokens

end Parser

end TraitCalculus
