import TraitCalculus.Expr
import TraitCalculus.Ty.Parser

/-! Reading expressions. Each level takes the parsers for whole expressions and types as
arguments, and bounds its repetitions by `n`. A node's line is that of the token its level
starts at. -/
namespace TraitCalculus.Expr

open TraitCalculus.Parser

/-- The kinds an argument starts with. -/
def startKinds : List Kind :=
  [.falseWord, .ident, .lbrace, .lbracket, .lparen, .number, .string, .trueWord]

/-- List elements up to the bracket. `done` holds those read, last first. -/
def elementList (expr : Parser Expr) (done : List Expr) : Nat → Parser (List Expr)
  | 0 => fail .outOfFuel
  | n + 1 => do
    if (← kind) = .rbracket then
      let _ ← next
      return done.reverse
    else
      let e ← expr
      skipIf .comma
      elementList expr (e :: done) n

/-- Record fields up to the brace; a label occurs once. `done` holds those read, last first. -/
def fieldList (expr : Parser Expr) (done : List (String × Expr)) :
    Nat → Parser (List (String × Expr))
  | 0 => fail .outOfFuel
  | n + 1 => do
    if (← kind) = .rbrace then
      let _ ← next
      return done.reverse
    else
      let label ← expect [.ident]
      if done.any (·.1 = label.text) then
        fail (.malformed ⟨some label.line, .duplicateLabel label.text⟩)
      else
        let _ ← expect [.assign]
        let e ← expr
        skipIf .comma
        fieldList expr ((label.text, e) :: done) n

/-- A name, a literal, an expression in parentheses, a list or a record. -/
def atom (expr : Parser Expr) (n : Nat) : Parser Expr := do
  let t ← peek
  match t.kind with
  | .ident =>
    let _ ← next
    return var (.atLine t.line) t.text
  | .number =>
    let _ ← next
    match Text.readInteger t.text with
    | .error e => fail (.number e)
    | .ok i => return val (.atLine t.line) (.int i)
  | .string =>
    let _ ← next
    return val (.atLine t.line) (.text t.text)
  | .trueWord =>
    let _ ← next
    return val (.atLine t.line) (.bool true)
  | .falseWord =>
    let _ ← next
    return val (.atLine t.line) (.bool false)
  | .lparen =>
    let _ ← next
    let e ← expr
    let _ ← expect [.rparen]
    return e
  | .lbracket =>
    let _ ← next
    let es ← elementList expr [] n
    return list (.atLine t.line) es
  | .lbrace =>
    let _ ← next
    let fs ← fieldList expr [] n
    return record (.atLine t.line) fs
  | _ => refuse startKinds

/-- Projections behind the expression `e`. -/
def projections (line : Nat) (e : Expr) : Nat → Parser Expr
  | 0 => fail .outOfFuel
  | n + 1 => do
    if (← kind) = .dot then
      let _ ← next
      let label ← ident
      projections line (proj (.atLine line) e label) n
    else return e

def projected (expr : Parser Expr) (n : Nat) : Parser Expr := do
  let t ← peek
  let e ← atom expr n
  projections t.line e n

def ascribed (expr : Parser Expr) (ty : Parser Ty) (n : Nat) : Parser Expr := do
  let t ← peek
  let e ← projected expr n
  if (← kind) = .colon then
    let _ ← next
    let s ← ty
    return ascribe (.atLine t.line) e s
  else return e

/-- Arguments and type arguments behind the expression `fn`. -/
def arguments (expr : Parser Expr) (ty : Parser Ty) (bound : Nat) (line : Nat) (fn : Expr) :
    Nat → Parser Expr
  | 0 => fail .outOfFuel
  | n + 1 => do
    let k ← kind
    if k ∈ startKinds then
      let arg ← ascribed expr ty bound
      arguments expr ty bound line (app (.atLine line) fn arg) n
    else if k = .atSign then
      let _ ← next
      let s ← Ty.unapplied ty bound
      arguments expr ty bound line (tapp (.atLine line) fn s) n
    else return fn

def applied (expr : Parser Expr) (ty : Parser Ty) (n : Nat) : Parser Expr := do
  let t ← peek
  let fn ← ascribed expr ty n
  arguments expr ty n t.line fn n

/-- Signs of the operator `op` in front of an operand. -/
def prefixed (operand : Parser Expr) (k : Kind) (op : UnOp) : Nat → Parser Expr
  | 0 => fail .outOfFuel
  | n + 1 => do
    let t ← peek
    if t.kind = k then
      let _ ← next
      let e ← prefixed operand k op n
      return un (.atLine t.line) op e
    else operand

/-- Operators of one level behind the expression `left`. They associate to the left. -/
def operations (operand : Parser Expr) (ops : List (Kind × BinOp)) (line : Nat) (left : Expr) :
    Nat → Parser Expr
  | 0 => fail .outOfFuel
  | n + 1 => do
    match ops.lookup (← kind) with
    | none => return left
    | some op =>
      let _ ← next
      let right ← operand
      operations operand ops line (bin (.atLine line) op left right) n

def operated (operand : Parser Expr) (ops : List (Kind × BinOp)) (n : Nat) : Parser Expr := do
  let t ← peek
  let left ← operand
  operations operand ops t.line left n

def mulOps : List (Kind × BinOp) := [(.mult, .mul), (.div, .div), (.mod, .mod)]

def addOps : List (Kind × BinOp) := [(.add, .add), (.sub, .sub)]

def relOps : List (Kind × BinOp) :=
  [(.gt, .gt), (.lt, .lt), (.geq, .geq), (.leq, .leq), (.eq, .eq), (.neq, .neq)]

/-- Everything that is no lambda and no conditional, from loose to tight. -/
def operation (expr : Parser Expr) (ty : Parser Ty) (n : Nat) : Parser Expr :=
  let negation := prefixed (applied expr ty n) .sub .neg n
  let product := operated negation mulOps n
  let sum := operated product addOps n
  let relation := operated sum relOps n
  let complement := prefixed relation .not .not n
  let conjunction := operated complement [(.and, .and)] n
  operated conjunction [(.or, .or)] n

/-- An expression whose inner expressions and types are read by `expr` and `ty`. The token after
the parameter tells lambdas from type lambdas. -/
def step (expr : Parser Expr) (ty : Parser Ty) (n : Nat) : Parser Expr := do
  let t ← peek
  let k ← kindAhead 2
  if t.kind = .backslash ∧ k = .colon then
    let _ ← next
    let x ← ident
    let _ ← expect [.colon]
    let s ← ty
    let _ ← expect [.dot]
    let body ← expr
    return lam (.atLine t.line) x (.typed s) body
  else if t.kind = .backslash ∧ (k = .dot ∨ k = .implWord) then
    let _ ← next
    let x ← ident
    let bs ← bounds n
    let body ← expr
    return tlam (.atLine t.line) x bs body
  else if t.kind = .ifWord then
    let _ ← next
    let c ← expr
    let _ ← expect [.thenWord]
    let y ← expr
    let _ ← expect [.elseWord]
    let z ← expr
    return cond (.atLine t.line) c y z
  else operation expr ty n

def parser : Nat → Parser Expr
  | 0 => fail .outOfFuel
  | n + 1 => step (parser n) (Ty.parser n) n

/-- Reads an expression from the front of a token list. -/
def parse (tokens : List Token) : Except ParseError (Expr × List Token) := run parser tokens

end TraitCalculus.Expr
