import TraitCalculus.Expr.Parser
import TraitCalculus.Program
import TraitCalculus.Token.Lexer

/-! Reading programs. -/
namespace TraitCalculus

open TraitCalculus.Parser

namespace Item

/-- Members of a block up to its brace. `done` holds those read, last first. -/
def memberList {α : Type} (separator : Kind) (item : Parser α) (done : List (Member α)) :
    Nat → Parser (List (Member α))
  | 0 => fail .outOfFuel
  | n + 1 => do
    if (← kind) = .rbrace then
      let _ ← next
      return done.reverse
    else
      let label ← expect [.ident]
      let _ ← expect [separator]
      let a ← item
      let _ ← expect [.semicolon]
      memberList separator item (⟨label.line, label.text, a⟩ :: done) n

/-- Names up to the first token that is none. `done` holds those read, last first. -/
def nameList (done : List String) : Nat → Parser (List String)
  | 0 => fail .outOfFuel
  | n + 1 => do
    if (← kind) = .ident then
      let x ← ident
      nameList (x :: done) n
    else return done.reverse

/-- A statement. Two tokens tell an assignment from an expression. -/
def parser (n : Nat) : Parser Item := do
  let t ← peek
  let after ← kindAhead 1
  match t.kind with
  | .traitWord =>
    let _ ← next
    let name ← ident
    let params ← nameList [] n
    let _ ← expect [.lbrace]
    let ms ← memberList .colon (Ty.parser n) [] n
    return trait t.line name params ms
  | .structWord =>
    let _ ← next
    let name ← ident
    let _ ← expect [.lbrace]
    let ms ← memberList .colon (Ty.parser n) [] n
    return struct t.line name ms
  | .implWord =>
    let _ ← next
    let name ← ident
    let _ ← expect [.forWord]
    let type ← Ty.unapplied (Ty.parser n) n
    let _ ← expect [.lbrace]
    let ms ← memberList .assign (Expr.parser n) [] n
    return impl t.line name type ms
  | .typeWord =>
    let _ ← next
    let x ← ident
    let _ ← expect [.assign]
    let s ← Ty.parser n
    let _ ← expect [.semicolon]
    return typedef t.line x s
  | _ =>
    if t.kind = .ident ∧ after = .assign then
      let _ ← next
      let _ ← next
      let e ← Expr.parser n
      let _ ← expect [.semicolon]
      return assign t.line t.text e
    else
      let e ← Expr.parser n
      let _ ← expect [.semicolon]
      return eval t.line e

end Item

namespace Program

/-- Statements up to the end of the tokens, each behind any number of semicolons. `done` holds
those read, last first. -/
def itemList (bound : Nat) (done : List Item) : Nat → Parser (List Item)
  | 0 => fail .outOfFuel
  | n + 1 => fun finish ts =>
    if ts.isEmpty then .ok (done.reverse, ts)
    else
      match Item.parser bound finish (ts.dropWhile (·.kind = .semicolon)) with
      | .error e => .error e
      | .ok (item, rest) => itemList bound (item :: done) n finish rest

/-- Reads all tokens as a program. -/
def parse (tokens : List Token) : Except ParseError (Program Item) :=
  match run (fun n => itemList n [] n) tokens with
  | .error e => .error e
  | .ok (items, _) => .ok ⟨(tokens.headD (Token.finishOf tokens)).line, items⟩

/-- Reads a text as a program. -/
def ofText (code : String) : Except ParseError (Program Item) :=
  match Token.ofText code with
  | .error e => .error (.malformed e)
  | .ok tokens => parse tokens

end Program

end TraitCalculus
