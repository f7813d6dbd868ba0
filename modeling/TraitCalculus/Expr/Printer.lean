import TraitCalculus.Builtin
import TraitCalculus.Expr
import TraitCalculus.Ty.Printer

/-! Expressions in source form and as outlines. -/
namespace TraitCalculus

def Value.render : Value → String
  | int n => toString n
  | text s => "\"" ++ s ++ "\""
  | bool b => if b then "true" else "false"

def Value.outline : Value → Outline
  | int n => .number n
  | text s => .text s
  | bool b => .flag b

/-- The parameter's type behind its name. -/
def Param.render : Param → String
  | typed t => ": " ++ t.render
  | dictionary => ": *"
  | erased => ""

def Param.outline : Param → Outline
  | typed t => t.outline
  | dictionary => .text "*"
  | erased => .absent

def Note.outline (n : Note) : List (String × Outline) :=
  [("lineno", .ofLine n.line), ("checked_type", (n.type.map Ty.outline).getD .absent)]

namespace Expr

/-- How tightly an expression's outermost form binds. -/
def level : Expr → Nat
  | lam .. | tlam .. => 0
  | cond .. => 1
  | bin _ op .. => op.level
  | un _ op .. => op.level
  | app .. | tapp .. | ascribe .. => 9
  | proj .. => 10
  | _ => 11

def isApplication : Expr → Bool
  | app .. | tapp .. => true
  | _ => false

mutual

/-- The source form. A part stands in parentheses if it binds less tightly than the whole, and
an application as an argument always does. -/
def render : Expr → String
  | lam _ x p body => "\\" ++ x ++ p.render ++ ". " ++ body.render
  | tlam _ x bounds body => "\\" ++ x ++ renderBounds bounds ++ ". " ++ body.render
  | cond _ c y z =>
    "if " ++ parenIf (c.level < 1) c.render ++ " then " ++ parenIf (y.level < 1) y.render
      ++ " else " ++ parenIf (z.level < 1) z.render
  | bin _ op l r =>
    parenIf (l.level < op.level) l.render ++ " " ++ op.symbol ++ " "
      ++ parenIf (r.level < op.level) r.render
  | un _ op e => op.symbol ++ parenIf (e.level < op.level) e.render
  | app _ f a =>
    parenIf (f.level < 9) f.render ++ " " ++ parenIf (a.isApplication || a.level < 9) a.render
  | tapp _ f t => parenIf (f.level < 9) f.render ++ " @" ++ t.render
  | ascribe _ e t => parenIf (e.level < 9) e.render ++ ": " ++ t.render
  | proj _ e label => parenIf (e.level < 10) e.render ++ "." ++ label
  | var _ x => x
  | val _ v => v.render
  | list _ es => "[" ++ ", ".intercalate (renderItems es) ++ "]"
  | record _ fs => "\x7b" ++ ", ".intercalate (renderFields fs) ++ "\x7d"

def renderItems : List Expr → List String
  | [] => []
  | e :: es => e.render :: renderItems es

def renderFields : List (String × Expr) → List String
  | [] => []
  | (label, e) :: fs => (label ++ " = " ++ e.render) :: renderFields fs

end

/-- The name of an expression's outermost form. -/
def form : Expr → String
  | lam .. => "LambdaExpr"
  | tlam .. => "TypeLambdaExpr"
  | cond .. => "IfExpr"
  | bin _ .or .. => "LogicOrExpr"
  | bin _ .and .. => "LogicAndExpr"
  | bin _ .add .. | bin _ .sub .. => "AddExpr"
  | bin _ .mul .. | bin _ .div .. | bin _ .mod .. => "MulExpr"
  | bin .. => "RelExpr"
  | un _ .not _ => "LogicNotExpr"
  | un _ .neg _ => "NegExpr"
  | app .. => "AppExpr"
  | tapp .. => "TypeAppExpr"
  | ascribe .. => "TypeAnnotatedExpr"
  | proj .. => "FieldAccessExpr"
  | var .. => "NamedExpr"
  | val .. => "ValueExpr"
  | list .. => "ListExpr"
  | record .. => "RecordExpr"

mutual

def outline : Expr → Outline
  | lam n x p body =>
    .node "LambdaExpr" (n.outline ++ [("param_name", .text x), ("param_type", p.outline),
      ("body", body.outline)])
  | tlam n x bounds body =>
    .node "TypeLambdaExpr" (n.outline ++ [("param_name", .text x), ("body", body.outline),
      ("trait_bounds", .items (bounds.map .text))])
  | cond n c y z =>
    .node "IfExpr" (n.outline ++ [("condition", c.outline), ("then_expr", y.outline),
      ("else_expr", z.outline)])
  | bin n op l r =>
    match op with
    | .or => .node "LogicOrExpr" (n.outline ++ [("left", l.outline), ("right", r.outline)])
    | .and => .node "LogicAndExpr" (n.outline ++ [("left", l.outline), ("right", r.outline)])
    | op =>
      .node (bin n op l r).form (n.outline ++ [("left", l.outline), ("op", .text op.symbol),
        ("right", r.outline)])
  | un n op e => .node (un n op e).form (n.outline ++ [("expr", e.outline)])
  | app n f a => .node "AppExpr" (n.outline ++ [("func", f.outline), ("arg", a.outline)])
  | tapp n f t => .node "TypeAppExpr" (n.outline ++ [("func", f.outline), ("type_arg", t.outline)])
  | ascribe n e t =>
    .node "TypeAnnotatedExpr" (n.outline ++ [("expr", e.outline), ("type", t.outline)])
  | proj n e label =>
    .node "FieldAccessExpr" (n.outline ++ [("record", e.outline), ("field_name", .text label)])
  | var n x =>
    .node "NamedExpr" (n.outline ++ [("name", .text x),
      ("is_builtin", .flag (Builtin.ofName? x).isSome)])
  | val n v => .node "ValueExpr" (n.outline ++ [("value", v.outline)])
  | list n es => .node "ListExpr" (n.outline ++ [("elements", .items (outlineItems es))])
  | record n fs => .node "RecordExpr" (n.outline ++ [("fields", .table (outlineFields fs))])

def outlineItems : List Expr → List Outline
  | [] => []
  | e :: es => e.outline :: outlineItems es

def outlineFields : List (String × Expr) → List (String × Outline)
  | [] => []
  | (label, e) :: fs => (label, e.outline) :: outlineFields fs

end

end Expr

end TraitCalculus
