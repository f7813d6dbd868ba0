import TraitCalculus.Outline
import TraitCalculus.Ty

/-! Types in source form and as outlines. -/
namespace TraitCalculus

/-- Puts parentheses around `s` if `b` holds. -/
def parenIf (b : Bool) (s : String) : String := if b then "(" ++ s ++ ")" else s

/-- Trait bounds behind a binder, nothing if there are none. -/
def renderBounds : List String → String
  | [] => ""
  | bs => " impl " ++ " + ".intercalate bs

namespace Ty

/-- How tightly a type's outermost form binds. -/
def level : Ty → Nat
  | all .. => 0
  | arrow .. => 1
  | app .. => 2
  | _ => 3

mutual

/-- The source form. An arrow stands in parentheses to the left of an arrow only. -/
def render : Ty → String
  | name _ x => x
  | all _ x bounds body => "forall " ++ x ++ renderBounds bounds ++ ". " ++ body.render
  | arrow _ dom cod =>
    parenIf (dom.level ≤ 1) dom.render ++ " -> " ++ parenIf (cod.level < 1) cod.render
  | app _ fn arg => parenIf (fn.level < 2) fn.render ++ " " ++ parenIf (arg.level < 2) arg.render
  | list _ elem => "[" ++ elem.render ++ "]"
  | emptyList => "[None]"
  | record _ fields => "\x7b" ++ ", ".intercalate (renderFields fields) ++ "\x7d"

def renderFields : List (String × Ty) → List String
  | [] => []
  | (label, t) :: fields => (label ++ ": " ++ t.render) :: renderFields fields

end

/-- The fields every node starts with. A type's own type is never known. -/
def outlineHead (line : Option Nat) : List (String × Outline) :=
  [("lineno", .ofLine line), ("checked_type", .absent)]

mutual

def outline : Ty → Outline
  | name line x => .node "NamedType" (outlineHead line ++ [("name", .text x)])
  | all line x bounds body =>
    .node "ForAllType" (outlineHead line ++ [("param_name", .text x), ("body", body.outline),
      ("trait_bounds", .items (bounds.map .text))])
  | arrow line dom cod =>
    .node "ArrowType" (outlineHead line ++ [("left", dom.outline), ("right", cod.outline)])
  | app line fn arg =>
    .node "AppType" (outlineHead line ++ [("func", fn.outline), ("arg", arg.outline)])
  | list line elem => .node "ListType" (outlineHead line ++ [("elem_type", elem.outline)])
  | emptyList => .node "ListType" (outlineHead none ++ [("elem_type", .absent)])
  | record line fields =>
    .node "RecordType" (outlineHead line ++ [("fields", .table (outlineFields fields))])

def outlineFields : List (String × Ty) → List (String × Outline)
  | [] => []
  | (label, t) :: fields => (label, t.outline) :: outlineFields fields

end

end Ty

end TraitCalculus
