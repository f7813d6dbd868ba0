import TraitCalculus.Token

/-! A cursor stands between two tokens of a list and can look both ways. -/
namespace TraitCalculus

/-- `passed` holds the tokens before the cursor, nearest first. -/
structure Cursor where
  passed : List Token
  rest : List Token
  finish : Token
deriving Repr

namespace Cursor

def ofTokens (tokens : List Token) : Cursor := ⟨[], tokens, Token.finishOf tokens⟩

def position (c : Cursor) : Nat := c.passed.length

def atEnd (c : Cursor) : Bool := c.rest.isEmpty

def peek (c : Cursor) : Token := c.rest.headD c.finish

def line (c : Cursor) : Nat := c.peek.line

/-- The token `n` places ahead, behind the cursor for negative `n`. -/
def ahead (c : Cursor) : Int → Token
  | .ofNat n => c.rest.getD n c.finish
  | .negSucc n => c.passed.getD n c.finish

/-- Takes a token. At the end nothing moves. -/
def next (c : Cursor) : Token × Cursor :=
  match c.rest with
  | [] => (c.finish, c)
  | t :: ts => (t, ⟨t :: c.passed, ts, c.finish⟩)

/-- Takes a token that has to be of one of the kinds; a wrong one is passed too. -/
def expect (c : Cursor) (kinds : List Kind) : Except SyntaxError Token × Cursor :=
  (c.next.1.check kinds, c.next.2)

def expectKind (c : Cursor) (kind : Kind) : Except SyntaxError Token × Cursor :=
  (c.next.1.checkKind kind, c.next.2)

/-- Passes the next token if it has this text. -/
def skipText (c : Cursor) (text : String) : Bool × Cursor :=
  if c.peek.text = text then (true, c.next.2) else (false, c)

/-- Takes the next token if it has this kind. -/
def take? (c : Cursor) (kind : Kind) : Option Token × Cursor :=
  if c.peek.kind = kind then (some c.peek, c.next.2) else (none, c)

/-- A fault at the next token, or behind all input. -/
def fault (c : Cursor) (here : Bool) (text : String) : SyntaxError :=
  ⟨if here then some c.peek.line else none, .remark text⟩

end Cursor

end TraitCalculus
