import TraitCalculus.Stage

/-! The command line: which files a call reads and writes, what it prints and how it ends. -/
namespace TraitCalculus.CommandLine

inductive Error where
  | noSuchFile (path : String)
  | stage (f : Failure)
deriving Repr

def Error.message : Error → String
  | noSuchFile path => "[Errno 2] No such file or directory: " ++ Text.quote path
  | stage f => f.message

/-- A call ends with an exit code, or passes its error on. -/
inductive Ending where
  | exit (code : Nat)
  | raise (e : Error)
deriving Repr

/-- What a call does to the outside. -/
structure Outcome where
  output : String
  files : List (String × String)
  ending : Ending
deriving Repr

/-- The file a stage's text is written to. -/
def fileName : Stage → String
  | .parse => "ast.txt"
  | .desugar => "step1_desugar.rs"
  | .resolve => "step2_type_solved.rs"
  | .infer => "step3_type_checked.rs"
  | .dispatch => "step4_dispatched.rs"
  | .eval => "step5_eval.rs"

/-- The file with the outline of what was read. -/
def outlineFile (code : String) : List (String × String) :=
  match Program.ofText code with
  | .error _ => []
  | .ok p => [(fileName .parse, p.outlineWith Item.outline)]

/-- An error message, in red. -/
def errorText (message : String) : String := "\x1b[91mError!\n" ++ message ++ "\x1b[0m\n"

/-- Ends a call with an error. Debugging passes it on. -/
def fail (debug : Bool) (output : String) (files : List (String × String)) (e : Error) : Outcome :=
  if debug then ⟨output, files, .raise e⟩
  else ⟨output ++ errorText e.message, files, .exit 1⟩

/-- Runs the file named first. `code?` is its content, if it exists. -/
def call (args : List String) (code? : Option String) (input : String) : Outcome :=
  match args with
  | [] => ⟨errorText "No file provided", [], .exit 1⟩
  | path :: _ =>
    let debug := args.contains "--debug"
    match code? with
    | none => fail debug "" [] (.noSuchFile path)
    | some code =>
      let code := Text.fromOutside code
      let x := Execution.ofText code input
      let files := outlineFile code ++ x.reports.filterMap fun r => r.text.map (fileName r.stage, ·)
      match x.failure? with
      | some f => fail debug x.output files (.stage f)
      | none => ⟨x.output, files, .exit 0⟩

end TraitCalculus.CommandLine
