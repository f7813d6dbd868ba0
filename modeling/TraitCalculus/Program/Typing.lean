import TraitCalculus.Program.Printer
import TraitCalculus.Typing

/-! Typing of programs, with a log of the statements that have been typed. -/
namespace TraitCalculus

/-- Types a statement: its new form, the scope behind it and its line in the log. -/
def Stmt.infer (Γ : Scope Entry) : Stmt → Typing (Stmt × Scope Entry × String)
  | assign line x e => do
    let (e, t) ← e.infer Γ
    let s := assign line x e
    return (s, Γ.set x (.term t), s.render ++ " // : " ++ t.render ++ "\n")
  | eval line e => do
    let (e, t) ← e.infer Γ
    let s := eval line e
    return (s, Γ, s.render ++ " // : " ++ t.render ++ "\n")
  | inst line trait type dict => do
    Typing.assume type [trait]
    let s := inst line trait type dict
    return (s, Γ, s.render ++ "\n")
  | field line x trait type =>
    let s := field line x trait type
    return (s, Γ.set x (.term type), s.render ++ "\n")

/-- Types statements in order, until one fails. The log holds the lines of those that do not;
`done` holds them, last first. -/
def Stmt.inferAll (Γ : Scope Entry) (state : TypingState) (log : String) (done : List Stmt) :
    List Stmt → String × Except TypeError (List Stmt × TypingState)
  | [] => (log, .ok (done.reverse, state))
  | s :: ss =>
    match (s.infer Γ).run state with
    | .error e => (log, .error e)
    | .ok ((s, Γ, line), state) => inferAll Γ state (log ++ line) (s :: done) ss

/-- Types a program. `drawn` counts the fresh names drawn before. -/
def Program.infer (drawn : Nat) (p : Program Stmt) :
    String × Except TypeError (Program Stmt × TypingState) :=
  match Stmt.inferAll Scope.builtins { drawn := drawn } "" [] p.stmts with
  | (log, .error e) => (log, .error e)
  | (log, .ok (ss, state)) => (log, .ok (⟨p.line, ss⟩, state))

end TraitCalculus
