import TraitCalculus.Program.Eval

/-! Evaluation with closures: the usual reading of the calculus, in which a function keeps the
values of the variables around it. Types are dropped, arguments are evaluated before the body,
operands from left to right, and a global is looked up where it is used. What has no rule is
stuck. -/
namespace TraitCalculus.Closure

/-- Values. The function `cons` on its first argument is a value too. -/
inductive Val where
  | lit (v : Value)
  | closure (env : List (String × Val)) (x : String) (body : Expr)
  | prim (b : Builtin)
  | consOf (v : Val)
  | list (vs : List Val)
  | record (fs : List (String × Val))

abbrev Env := List (String × Val)

/-- Global values, the lines that can still be read and what has been printed. -/
structure Store where
  globals : Env := []
  input : List String := []
  output : String := ""

/-- Why there is no value: the fuel did not last, no rule applies, or an operation failed. -/
inductive Stop where
  | depth
  | stuck
  | error (e : EvalError)

abbrev Run := EStateM Stop Store

def ofOperand {α : Type} : Except OperandError α → Run α
  | .ok a => return a
  | .error e => throw (.error (.operand e))

def ofNumber {α : Type} : Except Text.NumberError α → Run α
  | .ok a => return a
  | .error e => throw (.error (.number e))

def print (s : String) : Run Unit := modify fun σ => { σ with output := σ.output ++ s }

def readLine : Run String := do
  match (← get).input with
  | [] => throw (.error .endOfInput)
  | line :: rest =>
    modify fun σ => { σ with input := rest }
    return line

namespace Val

def truth : Val → Run Bool
  | lit (.bool b) => return b
  | _ => throw .stuck

def literal : Val → Run Value
  | lit v => return v
  | _ => throw .stuck

def elements : Val → Run (List Val)
  | list vs => return vs
  | _ => throw .stuck

/-- Functions: what may stand in front of an argument. -/
def isFunction : Val → Bool
  | closure .. | prim _ | consOf _ => true
  | _ => false

mutual

/-- No function is in the value. -/
def ground : Val → Bool
  | lit _ => true
  | list vs => groundItems vs
  | record fs => groundFields fs
  | _ => false

def groundItems : List Val → Bool
  | [] => true
  | v :: vs => v.ground && groundItems vs

def groundFields : List (String × Val) → Bool
  | [] => true
  | (_, v) :: fs => v.ground && groundFields fs

end

end Val

/-- A name that no local and no global has. To name `read` is to read a line. -/
def evalName (x : String) : Run Val := do
  match Builtin.ofName? x with
  | some .read => return .lit (.text (← readLine))
  | some b => return .prim b
  | none => throw .stuck

/-- A variable: the innermost local, else the global, else the builtin. -/
def evalVar (env : Env) (x : String) : Run Val := do
  match env.lookup x with
  | some v => return v
  | none =>
    match (← get).globals.lookup x with
    | some v => return v
    | none => evalName x

section

variable {env : Env} {x : String} {v : Val} {σ : Store}

theorem evalVar_local (h : env.lookup x = some v) : evalVar env x = pure v := by
  unfold evalVar
  rw [h]

theorem run_evalVar (h : env.lookup x = none) : (evalVar env x).run σ =
    match σ.globals.lookup x with
    | some v => .ok v σ
    | none => (evalName x).run σ := by
  have hget : (evalVar env x).run σ = EStateM.run (match σ.globals.lookup x with
      | some v => pure v
      | none => evalName x) σ := by
    unfold evalVar
    rw [h]
    rfl
  rw [hget]
  cases σ.globals.lookup x <;> rfl

end

def applyPrim (line : Nat) (a : Val) : Builtin → Run Val
  | .print => do
    print (← ofNumber (← a.literal).display)
    return a
  | .println => do
    print ((← ofNumber (← a.literal).display) ++ "\n")
    return a
  | .stringToInt => return .lit (.int (← ofNumber (← a.literal).toInt))
  | .intToString => return .lit (.text (← ofNumber (← a.literal).display))
  | .head => do
    match ← a.elements with
    | [] => throw (.error (.headOfEmpty line))
    | v :: _ => return v
  | .tail => return .list (← a.elements).tail
  | .cons => return .consOf a
  | .read => throw .stuck

/-- A function on its argument; `call` evaluates the body of a closure. -/
def apply (line : Nat) (call : Env → Expr → Run Val) (a : Val) : Val → Run Val
  | .closure env x body => call ((x, a) :: env) body
  | .prim b => applyPrim line a b
  | .consOf v => return .list (v :: (← a.elements))
  | _ => throw .stuck

/-- An operator on values. Lists are joined. -/
def applyBin (op : BinOp) : Val → Val → Run Val
  | .lit v, .lit w => return .lit (← ofOperand (v.apply op w))
  | .list vs, .list ws => if op.level = 6 then return .list (vs ++ ws) else throw .stuck
  | _, _ => throw .stuck

/-- The value of an expression in an environment. The fuel bounds the depth of the derivation. -/
def eval (line : Nat) : Nat → Env → Expr → Run Val
  | 0, _, _ => throw .depth
  | fuel + 1, env, e =>
    match e with
    | .lam _ x _ body => return .closure env x body
    | .tlam _ _ _ body => eval line fuel env body
    | .cond _ c y z => do
      if ← (← eval line fuel env c).truth then eval line fuel env y else eval line fuel env z
    | .bin _ .or l r => do
      if ← (← eval line fuel env l).truth then return .lit (.bool true)
      else return .lit (.bool (← (← eval line fuel env r).truth))
    | .bin _ .and l r => do
      if ← (← eval line fuel env l).truth then
        return .lit (.bool (← (← eval line fuel env r).truth))
      else return .lit (.bool false)
    | .bin _ op l r => do
      let l ← eval line fuel env l
      let r ← eval line fuel env r
      applyBin op l r
    | .un _ .not e => return .lit (.bool !(← (← eval line fuel env e).truth))
    | .un _ .neg e => return .lit (← ofOperand (← (← eval line fuel env e).literal).neg)
    | .app _ f a => do
      let f ← eval line fuel env f
      let a ← eval line fuel env a
      apply line (eval line fuel) a f
    | .tapp _ f _ => eval line fuel env f
    | .ascribe _ e _ => eval line fuel env e
    | .proj _ e label => do
      match ← eval line fuel env e with
      | .record fs =>
        match fs.lookup label with
        | some v => return v
        | none => throw .stuck
      | _ => throw .stuck
    | .var _ x => evalVar env x
    | .val _ v => return .lit v
    | .list _ es => return .list (← es.mapM (eval line fuel env))
    | .record _ fs => return .record (← fs.mapM fun f => return (f.1, ← eval line fuel env f.2))

end TraitCalculus.Closure
