import TraitCalculus.CommandLine

/-! The program. It runs a file and leaves the text of each stage in the working directory. -/
namespace TraitCalculus

/-- The content of a file, if it can be read. -/
def readFile? (path : String) : IO (Option String) := do
  try
    return some (← IO.FS.readFile path)
  catch _ => return none

/-- All of a stream. -/
partial def readAll (stream : IO.FS.Stream) (done : String) : IO String := do
  let line ← stream.getLine
  if line.isEmpty then return done else readAll stream (done ++ line)

/-- The standard input, for a program that reads. -/
def inputFor (code? : Option String) : IO String := do
  if (code?.getD "").splitOn "read" |>.length |> (· > 1) then readAll (← IO.getStdin) ""
  else return ""

end TraitCalculus

open TraitCalculus in
def main (args : List String) : IO UInt32 := do
  let code? ← match args with
    | [] => pure none
    | path :: _ => readFile? path
  let outcome := CommandLine.call args code? (← inputFor code?)
  for (name, text) in outcome.files do
    IO.FS.writeFile name text
  IO.print outcome.output
  match outcome.ending with
  | .exit code => return code.toUInt32
  | .raise e => throw (IO.userError e.message)
