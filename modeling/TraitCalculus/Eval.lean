import TraitCalculus.Expr.Printer
import TraitCalculus.Expr.Subst
import TraitCalculus.Value.Arith

/-! Evaluation by substitution. Types are dropped, arguments are evaluated first, and what cannot
be reduced is returned as it stands. -/
namespace TraitCalculus

inductive EvalError where
  | unbound (line : Nat) (x : String)
  | headOfEmpty (line : Nat)
  /-- A builtin met an expression of the wrong form. -/
  | wrongForm (form part : String)
  | noField (label : String)
  | operand (e : OperandError)
  | number (e : Text.NumberError)
  | endOfInput
  | outOfFuel
deriving Repr, DecidableEq

def EvalError.message : EvalError → String
  | unbound line x => "[Line " ++ toString line ++ "] Runtime Error: Var '" ++ x ++ "' not found"
  | headOfEmpty line =>
    "[Line " ++ toString line ++ "] Runtime Error: Calling 'head' on empty list"
  | wrongForm form part => "'" ++ form ++ "' object has no attribute '" ++ part ++ "'"
  | noField label => Text.quote label
  | operand e => e.message
  | number e => e.message
  | endOfInput => "EOF when reading a line"
  | outOfFuel => "evaluation is too deep"

/-- Global values, the lines that can still be read, what has been printed, and the number of
fresh names drawn. -/
structure Machine where
  globals : List (String × Expr) := []
  input : List String := []
  output : String := ""
  drawn : Nat := 0
deriving Repr

abbrev Eval := EStateM EvalError Machine

namespace Eval

def ofFresh {α : Type} (m : Fresh α) : Eval α :=
  modifyGet fun s => let (a, k) := m.run s.drawn; (a, { s with drawn := k })

def ofOperand {α : Type} : Except OperandError α → Eval α
  | .ok a => return a
  | .error e => throw (.operand e)

def ofNumber {α : Type} : Except Text.NumberError α → Eval α
  | .ok a => return a
  | .error e => throw (.number e)

def print (s : String) : Eval Unit := modify fun m => { m with output := m.output ++ s }

def readLine : Eval String := do
  match (← get).input with
  | [] => throw .endOfInput
  | line :: rest =>
    modify fun m => { m with input := rest }
    return line

end Eval

namespace Expr

/-- The function that puts an element in front of a list. -/
def consFunction : Expr :=
  lam .blank "__x" .erased (lam .blank "__xs" .erased
    (bin .blank .add (list .blank [var .blank "__x"]) (var .blank "__xs")))

/-- The value of a literal, which the builtin needs. -/
def literal : Expr → Eval (Note × Value)
  | val n v => return (n, v)
  | e => throw (.wrongForm e.form "value")

/-- The elements of a list, which the builtin needs. -/
def elements : Expr → Eval (Note × List Expr)
  | list n es => return (n, es)
  | e => throw (.wrongForm e.form "elements")

/-- A variable: the global of its name, else the builtin. -/
def evalVar (line : Nat) (n : Note) (x : String) : Eval Expr := do
  match (← get).globals.lookup x with
  | some v => return v
  | none =>
    match Builtin.ofName? x with
    | some .read => return val .blank (.text (← Eval.readLine))
    | some .cons => return consFunction
    | some _ => return var n x
    | none => throw (.unbound line x)

/-- A builtin applied to an evaluated argument. -/
def evalBuiltin (line : Nat) (n : Note) (fn : Expr) (arg : Expr) : Builtin → Eval Expr
  | .print => do
    let (_, v) ← arg.literal
    Eval.print (← Eval.ofNumber v.display)
    return arg
  | .println => do
    let (_, v) ← arg.literal
    Eval.print ((← Eval.ofNumber v.display) ++ "\n")
    return arg
  | .stringToInt => do
    let (m, v) ← arg.literal
    return val m (.int (← Eval.ofNumber v.toInt))
  | .intToString => do
    let (m, v) ← arg.literal
    return val m (.text (← Eval.ofNumber v.display))
  | .head => do
    match ← arg.elements with
    | (_, []) => throw (.headOfEmpty line)
    | (_, e :: _) => return e
  | .tail => do
    let (m, es) ← arg.elements
    return list m es.tail
  | .read | .cons => return app n fn arg

/-- An operator on evaluated operands. -/
def evalBin (n : Note) (op : BinOp) : Expr → Expr → Eval Expr
  | val _ v, val _ w => return val .blank (← Eval.ofOperand (v.apply op w))
  | list m es, list k fs =>
    if op.level = 6 then return list ⟨n.line, none⟩ (es ++ fs)
    else return bin n op (list m es) (list k fs)
  | l, r => return bin n op l r

/-- Evaluates an expression in a statement at `line`. The fuel bounds the depth. -/
def eval (line : Nat) : Nat → Expr → Eval Expr
  | 0, _ => throw .outOfFuel
  | fuel + 1, e =>
    match e with
    | lam n x _ body => return lam n x .erased body
    | tlam _ _ _ body => body.eval line fuel
    | cond n c y z => do
      match ← c.eval line fuel with
      | val _ (.bool true) => y.eval line fuel
      | val _ (.bool false) => z.eval line fuel
      | c =>
        let y ← y.eval line fuel
        return cond n c y (← z.eval line fuel)
    | bin n .or l r => do
      match ← l.eval line fuel with
      | val m (.bool true) => return val m (.bool true)
      | l =>
        match l, ← r.eval line fuel with
        | _, val m (.bool true) => return val m (.bool true)
        | val m (.bool false), val _ (.bool false) => return val m (.bool false)
        | l, r => return bin n .or l r
    | bin n .and l r => do
      match ← l.eval line fuel with
      | val m (.bool false) => return val m (.bool false)
      | l =>
        match l, ← r.eval line fuel with
        | _, val m (.bool false) => return val m (.bool false)
        | val m (.bool true), val _ (.bool true) => return val m (.bool true)
        | l, r => return bin n .and l r
    | bin n op l r => do
      let l ← l.eval line fuel
      let r ← r.eval line fuel
      evalBin n op l r
    | un n .not e => do
      match ← e.eval line fuel with
      | val _ (.bool b) => return val .blank (.bool !b)
      | e => return un n .not e
    | un n .neg e => do
      match ← e.eval line fuel with
      | val _ v => return val .blank (← Eval.ofOperand v.neg)
      | e => return un n .neg e
    | app n f a => do
      let f ← f.eval line fuel
      let a ← a.eval line fuel
      match f with
      | lam _ x _ body => (← Eval.ofFresh (body.subst x a)).eval line fuel
      | var _ x =>
        match Builtin.ofName? x with
        | some b => evalBuiltin line n f a b
        | none => return app n f a
      | f => return app n f a
    | tapp _ f _ => f.eval line fuel
    | ascribe _ e _ => e.eval line fuel
    | proj n e label => do
      match ← e.eval line fuel with
      | record _ fs =>
        match fs.lookup label with
        | some e => e.eval line fuel
        | none => throw (.noField label)
      | e => return proj n e label
    | var n x => evalVar line n x
    | val n v => return val n v
    | list n es => return list n (← es.mapM (eval line fuel))
    | record n fs => return record n (← fs.mapM fun f => return (f.1, ← f.2.eval line fuel))

mutual

/-- All integers in an expression are short enough to be written. -/
def writable : Expr → Bool
  | lam _ _ _ body | tlam _ _ _ body => body.writable
  | cond _ c y z => c.writable && y.writable && z.writable
  | bin _ _ l r => l.writable && r.writable
  | un _ _ e | tapp _ e _ | ascribe _ e _ | proj _ e _ => e.writable
  | app _ f a => f.writable && a.writable
  | var .. => true
  | val _ (.int n) => Text.writable n
  | val .. => true
  | list _ es => writableItems es
  | record _ fs => writableFields fs

def writableItems : List Expr → Bool
  | [] => true
  | e :: es => e.writable && writableItems es

def writableFields : List (String × Expr) → Bool
  | [] => true
  | (_, e) :: fs => e.writable && writableFields fs

end

end Expr

end TraitCalculus
