import TraitCalculus.Parser
import TraitCalculus.Ty

/-! Reading types. Each level takes the parser for whole types as an argument, and bounds its
repetitions by `n`. -/
namespace TraitCalculus.Ty

open TraitCalculus.Parser

/-- The kinds an unapplied type starts with. -/
def startKinds : List Kind := [.ident, .lparen, .lbracket, .lbrace]

/-- The fields of a record type up to its brace; a label occurs once. `done` holds those read,
last first. -/
def fieldList (ty : Parser Ty) (done : List (String × Ty)) : Nat → Parser (List (String × Ty))
  | 0 => fail .outOfFuel
  | n + 1 => do
    if (← kind) = .rbrace then
      let _ ← next
      return done.reverse
    else
      let label ← expect [.ident]
      if done.any (·.1 = label.text) then
        fail (.malformed ⟨some label.line, .duplicateLabel label.text⟩)
      else
        let _ ← expect [.colon]
        let t ← ty
        skipIf .comma
        fieldList ty ((label.text, t) :: done) n

/-- A name, a type in parentheses, a list type or a record type. -/
def unapplied (ty : Parser Ty) (n : Nat) : Parser Ty := do
  let t ← peek
  match t.kind with
  | .ident =>
    let _ ← next
    return name t.line t.text
  | .lparen =>
    let _ ← next
    let u ← ty
    let _ ← expect [.rparen]
    return u
  | .lbracket =>
    let _ ← next
    let u ← ty
    let _ ← expect [.rbracket]
    return list t.line u
  | .lbrace =>
    let _ ← next
    let fs ← fieldList ty [] n
    return record t.line fs
  | _ => refuse startKinds

/-- Arguments behind the type `fn`. -/
def arguments (ty : Parser Ty) (bound : Nat) (line : Nat) (fn : Ty) : Nat → Parser Ty
  | 0 => fail .outOfFuel
  | n + 1 => do
    if (← kind) ∈ startKinds then
      let arg ← unapplied ty bound
      arguments ty bound line (app line fn arg) n
    else return fn

def applied (ty : Parser Ty) (n : Nat) : Parser Ty := do
  let t ← peek
  let fn ← unapplied ty n
  arguments ty n t.line fn n

/-- Functions associate to the right. -/
def function (ty : Parser Ty) (bound : Nat) : Nat → Parser Ty
  | 0 => fail .outOfFuel
  | n + 1 => do
    let t ← peek
    let dom ← applied ty bound
    if (← kind) = .arrow then
      let _ ← next
      let cod ← function ty bound n
      return arrow t.line dom cod
    else return dom

/-- A type whose inner types are read by `ty`. -/
def step (ty : Parser Ty) (n : Nat) : Parser Ty := do
  let t ← peek
  if t.kind = .forallWord then
    let _ ← next
    let x ← ident
    let bs ← bounds n
    let body ← ty
    return all t.line x bs body
  else function ty n n

def parser : Nat → Parser Ty
  | 0 => fail .outOfFuel
  | n + 1 => step (parser n) n

/-- Reads a type from the front of a token list. -/
def parse (tokens : List Token) : Except ParseError (Ty × List Token) := run parser tokens

end TraitCalculus.Ty
