import TraitCalculus.Text.Quoted
import TraitCalculus.Text.Lines

/-! Outlines of trees, with two written forms: one line with constructor names and quoted texts,
or one line per field with indentation. -/
namespace TraitCalculus

inductive Outline where
  | absent
  | flag (b : Bool)
  | number (n : Int)
  | text (s : String)
  | node (label : String) (fields : List (String × Outline))
  | items (xs : List Outline)
  | table (rows : List (String × Outline))

namespace Outline

/-- A line number, if there is one. -/
def ofLine : Option Nat → Outline
  | none => absent
  | some n => number n

mutual

/-- The form on one line. -/
def inline : Outline → String
  | absent => "None"
  | flag b => if b then "True" else "False"
  | number n => toString n
  | text s => Text.quote s
  | node label fields => label ++ "(" ++ ", ".intercalate (inlineFields fields) ++ ")"
  | items xs => "[" ++ ", ".intercalate (inlineItems xs) ++ "]"
  | table rows => "\x7b" ++ ", ".intercalate (inlineRows rows) ++ "\x7d"

def inlineFields : List (String × Outline) → List String
  | [] => []
  | (name, x) :: fields => (name ++ "=" ++ x.inline) :: inlineFields fields

def inlineItems : List Outline → List String
  | [] => []
  | x :: xs => x.inline :: inlineItems xs

def inlineRows : List (String × Outline) → List String
  | [] => []
  | (key, x) :: rows => (Text.quote key ++ ": " ++ x.inline) :: inlineRows rows

end

/-- Two blanks for each level. -/
def pad (level : Nat) : String := String.ofList (List.replicate (2 * level) ' ')

mutual

/-- The indented form. A text stands as it is; in a list every line end becomes a newline. -/
def block (level : Nat) : Outline → String
  | node label fields => pad level ++ label ++ String.join (blockFields level fields)
  | text s => s
  | x => x.inline

def blockFields (level : Nat) : List (String × Outline) → List String
  | [] => []
  | (name, x) :: fields =>
    ("\n" ++ pad (level + 1) ++ name ++ ": " ++ blockValue (level + 2) x) :: blockFields level fields

def blockValue (level : Nat) : Outline → String
  | node label fields =>
    "\n" ++ pad level ++ label ++ String.join (blockFields level fields)
  | items [] => "[]"
  | items (x :: xs) =>
    "[\n" ++ "\n".intercalate (blockItems (level + 1) (x :: xs)) ++ "\n" ++ pad level ++ "]"
  | text s => s
  | x => x.inline

def blockItems (level : Nat) : List Outline → List String
  | [] => []
  | node label fields :: xs =>
    Text.indentLines "" (pad level ++ label ++ String.join (blockFields level fields))
      :: blockItems level xs
  | text s :: xs => Text.indentLines (pad level) s :: blockItems level xs
  | x :: xs => Text.indentLines (pad level) x.inline :: blockItems level xs

end

end Outline

end TraitCalculus
