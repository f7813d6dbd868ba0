import TraitCalculus.Assoc
import TraitCalculus.Eval
import TraitCalculus.Program.Printer
import TraitCalculus.Text.Lines

/-! Running programs, with a log of the statements that have been run. -/
namespace TraitCalculus

/-- The lines of a text that a program can read. -/
def inputLines (input : String) : List String :=
  let lines := (Text.fromOutside input).splitOn "\n"
  if lines.getLast? = some "" then lines.dropLast else lines

/-- The line of an evaluated statement in the log. -/
def Stmt.logLine (s : Stmt) (result : Expr) : Eval String :=
  if result.writable then return s.render ++ "  // ==> " ++ result.render ++ "\n"
  else throw (.number .tooLongToWrite)

/-- Runs a statement and gives its line in the log. -/
def Stmt.run (fuel : Nat) : Stmt → Eval String
  | assign line x e => do
    let v ← e.eval line fuel
    modify fun m => { m with globals := Assoc.insert x v m.globals }
    (assign line x e).logLine v
  | eval line e => do
    let v ← e.eval line fuel
    (eval line e).logLine v
  | _ => return ""

/-- Runs statements in order, until one fails. -/
def Stmt.runAll (fuel : Nat) (log : String) (m : Machine) :
    List Stmt → String × Machine × Except EvalError Unit
  | [] => (log, m, .ok ())
  | s :: ss =>
    match (s.run fuel).run m with
    | .error e m => (log, m, .error e)
    | .ok line m => runAll fuel (log ++ line) m ss

/-- Runs a program on an input: the log, the machine at the end and whether all went well. -/
def Program.run (fuel : Nat) (input : String) (p : Program Stmt) :
    String × Machine × Except EvalError Unit :=
  Stmt.runAll fuel "" { input := inputLines input } p.stmts

end TraitCalculus
