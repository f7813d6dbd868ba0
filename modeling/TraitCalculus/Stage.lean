import TraitCalculus.Program.Desugar
import TraitCalculus.Program.Dictionary
import TraitCalculus.Program.Eval
import TraitCalculus.Program.Parser
import TraitCalculus.Program.Typing

/-! From text to results, stage by stage. -/
namespace TraitCalculus

/-- The stages of a program's way, in order. -/
inductive Stage where
  | parse | desugar | resolve | infer | dispatch | eval
deriving Repr, DecidableEq

/-- Why a stage failed. -/
inductive Failure where
  | parse (e : ParseError)
  | block (e : BlockError)
  | resolve (e : ResolveError)
  | typing (e : TypeError)
  | dictionary (e : DictionaryError)
  | eval (e : EvalError)
deriving Repr

def ParseError.message : ParseError → String
  | malformed e => e.message
  | number e => e.message
  | outOfFuel => "nesting is too deep"

def Failure.message : Failure → String
  | parse e => e.message
  | block e => e.message
  | resolve e => e.message
  | typing e => e.message
  | dictionary e => e.message
  | eval e => e.message

namespace Program

/-- The declarations of a text. -/
def desugarText (code : String) : Except Failure (Program Decl) :=
  match ofText code with
  | .error e => .error (.parse e)
  | .ok p => p.desugar.mapError .block

/-- The statements of a text, and the number of fresh names drawn. -/
def resolveText (code : String) : Except Failure (Program Stmt × Nat) :=
  match desugarText code with
  | .error e => .error e
  | .ok p => (p.resolve.run 0).mapError .resolve

/-- The typed statements of a text. -/
def inferText (code : String) : Except Failure (Program Stmt) :=
  match resolveText code with
  | .error e => .error e
  | .ok (p, drawn) => ((p.infer drawn).2.map (·.1)).mapError .typing

/-- The statements of a text, with explicit dictionaries. -/
def dispatchText (code : String) : Except Failure (Program Stmt) :=
  match inferText code with
  | .error e => .error e
  | .ok p => p.dispatch.mapError .dictionary

end Program

/-- What a stage leaves: its text, if it has one, and why it failed. The text is a source form or
a log. -/
structure Report where
  stage : Stage
  text : Option String := none
  failure : Option Failure := none
deriving Repr

/-- The reports of all stages up to the first that failed, and what was printed. -/
structure Execution where
  reports : List Report
  output : String := ""
deriving Repr

namespace Execution

/-- How deep an evaluation may go. -/
def fuel : Nat := 1000000000

/-- Runs a program with explicit dictionaries. -/
def fromDispatched (input : String) (p : Program Stmt) : Execution :=
  match p.run fuel input with
  | (log, m, .error e) => ⟨[⟨.eval, some log, some (.eval e)⟩], m.output⟩
  | (log, m, .ok ()) => ⟨[⟨.eval, some log, none⟩], m.output⟩

/-- Puts a report in front. -/
def after (r : Report) (x : Execution) : Execution := ⟨r :: x.reports, x.output⟩

def fromTyped (input : String) (p : Program Stmt) : Execution :=
  match p.dispatch with
  | .error e => ⟨[⟨.dispatch, none, some (.dictionary e)⟩], ""⟩
  | .ok q =>
    after ⟨.dispatch, some (q.renderWith Stmt.render), none⟩ (fromDispatched input q)

def fromResolved (input : String) (p : Program Stmt) (drawn : Nat) : Execution :=
  match p.infer drawn with
  | (log, .error e) => ⟨[⟨.infer, some log, some (.typing e)⟩], ""⟩
  | (log, .ok (q, _)) => after ⟨.infer, some log, none⟩ (fromTyped input q)

def fromDesugared (input : String) (p : Program Decl) : Execution :=
  match p.resolve.run 0 with
  | .error e => ⟨[⟨.resolve, none, some (.resolve e)⟩], ""⟩
  | .ok (q, drawn) =>
    after ⟨.resolve, some (q.renderWith Stmt.render), none⟩ (fromResolved input q drawn)

def fromParsed (input : String) (p : Program Item) : Execution :=
  match p.desugar with
  | .error e => ⟨[⟨.desugar, none, some (.block e)⟩], ""⟩
  | .ok q =>
    after ⟨.desugar, some (q.renderWith Decl.render), none⟩ (fromDesugared input q)

/-- Takes a text through all stages. -/
def ofText (code input : String) : Execution :=
  match Program.ofText code with
  | .error e => ⟨[⟨.parse, none, some (.parse e)⟩], ""⟩
  | .ok p => after ⟨.parse, none, none⟩ (fromParsed input p)

/-- The failure that ended an execution. -/
def failure? (x : Execution) : Option Failure := x.reports.findSome? (·.failure)

end Execution

/-- Takes a text through the stages up to `last`: the source form it has there, and what was
printed. Evaluation leaves the form as it is. -/
def Program.upTo (last : Stage) (code input : String) : Except Failure (String × String) :=
  match last with
  | .parse => (ofText code).mapError .parse |>.map fun p => (p.renderWith Item.render, "")
  | .desugar => (desugarText code).map fun p => (p.renderWith Decl.render, "")
  | .resolve => (resolveText code).map fun p => (p.1.renderWith Stmt.render, "")
  | .infer => (inferText code).map fun p => (p.renderWith Stmt.render, "")
  | .dispatch => (dispatchText code).map fun p => (p.renderWith Stmt.render, "")
  | .eval =>
    match dispatchText code with
    | .error e => .error e
    | .ok p =>
      match p.run Execution.fuel input with
      | (_, _, .error e) => .error (.eval e)
      | (_, m, .ok ()) => .ok (p.renderWith Stmt.render, m.output)

end TraitCalculus
