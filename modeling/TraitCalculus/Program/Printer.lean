import TraitCalculus.Expr.Printer
import TraitCalculus.Program

/-! Programs in source form and as outlines. -/
namespace TraitCalculus

/-- The fields every statement starts with. A statement has no type. -/
def stmtHead (line : Nat) : List (String × Outline) :=
  [("lineno", .number line), ("checked_type", .absent)]

def Stmt.render : Stmt → String
  | assign _ x e => x ++ " = " ++ e.render ++ ";"
  | eval _ e => e.render ++ ";"
  | inst _ trait type dict =>
    "// (Env) trait-instance " ++ trait ++ " (" ++ type.render ++ ") = " ++ dict.render ++ ";"
  | field _ x trait type =>
    "// (Env) trait-field " ++ trait ++ "." ++ x ++ ": " ++ type.render ++ ";"

def Stmt.outline : Stmt → Outline
  | assign line x e =>
    .node "AssignStmt" (stmtHead line ++ [("name", .text x), ("expr", e.outline)])
  | eval line e => .node "ExprStmt" (stmtHead line ++ [("expr", e.outline)])
  | inst line trait type dict =>
    .node "InstanceEnvStmt" (stmtHead line ++ [("name", .text trait),
      ("type_param", type.outline), ("inst_expr", dict.outline)])
  | field line x trait type =>
    .node "TraitFieldEnvStmt" (stmtHead line ++ [("field_name", .text x),
      ("trait_name", .text trait), ("type", type.outline)])

def renderTypedef (x : String) (t : Ty) : String := "type " ++ x ++ " = " ++ t.render ++ ";"

def outlineTypedef (line : Nat) (x : String) (t : Ty) : Outline :=
  .node "TypeAssignStmt" (stmtHead line ++ [("name", .text x), ("type", t.outline)])

def Decl.render : Decl → String
  | typedef _ x t => renderTypedef x t
  | stmt s => s.render

def Decl.outline : Decl → Outline
  | typedef line x t => outlineTypedef line x t
  | stmt s => s.outline

def outlineMemberTy (m : Member Ty) : Outline :=
  .node "TypeBindItem" (stmtHead m.line ++ [("name", .text m.name), ("type", m.item.outline)])

def outlineMemberExpr (m : Member Expr) : Outline :=
  .node "AssignItem" (stmtHead m.line ++ [("name", .text m.name), ("value", m.item.outline)])

namespace Item

def outline : Item → Outline
  | assign line x e => (Stmt.assign line x e).outline
  | typedef line x t => outlineTypedef line x t
  | eval line e => (Stmt.eval line e).outline
  | trait line name params members =>
    .node "TraitStmt" (stmtHead line ++ [("name", .text name),
      ("type_params", .items (params.map .text)), ("items", .items (members.map outlineMemberTy))])
  | struct line name members =>
    .node "StructStmt" (stmtHead line ++ [("name", .text name),
      ("items", .items (members.map outlineMemberTy))])
  | impl line name type members =>
    .node "ImplStmt" (stmtHead line ++ [("name", .text name), ("type_param", type.outline),
      ("items", .items (members.map outlineMemberExpr))])

/-- The source form. Blocks have none and show their outline. -/
def render : Item → String
  | assign line x e => (Stmt.assign line x e).render
  | typedef _ x t => renderTypedef x t
  | eval line e => (Stmt.eval line e).render
  | block => block.outline.inline

end Item

namespace Program

/-- A program with one statement a line. -/
def renderWith {σ : Type} (render : σ → String) (p : Program σ) : String :=
  "\n".intercalate (p.stmts.map render)

def outlineWith {σ : Type} (outline : σ → Outline) (p : Program σ) : String :=
  (Outline.node "Program" (stmtHead p.line ++ [("statements", .items (p.stmts.map outline))])).block 0

end Program

end TraitCalculus
