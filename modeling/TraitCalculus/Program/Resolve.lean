import TraitCalculus.Assoc
import TraitCalculus.Program
import TraitCalculus.Ty.Printer
import TraitCalculus.Ty.Subst

/-! Type names: abbreviations are expanded and applied quantified types instantiated, so that
only basic types and bound names are left. -/
namespace TraitCalculus

inductive ResolveError where
  | unknownType (line : Option Nat) (x : String)
  | notQuantified (line : Option Nat) (found : Ty)
deriving Repr

/-- A line in a message. -/
def renderLine : Option Nat → String
  | some n => "[Line " ++ toString n ++ "]"
  | none => "[Line None]"

def ResolveError.message : ResolveError → String
  | unknownType line x => renderLine line ++ " Unknown type '" ++ x ++ "'"
  | notQuantified line found =>
    renderLine line ++ " Type Error: For all type expected, got '" ++ found.render ++ "'"

/-- Resolution draws fresh names and may fail. -/
abbrev Resolve := StateT Nat (Except ResolveError)

/-- A computation that draws fresh names, within resolution. -/
def Resolve.ofFresh {α : Type} (m : Fresh α) : Resolve α := fun k => .ok (m.run k)

/-- The types that abbreviations stand for. -/
abbrev Aliases := List (String × Ty)

namespace Ty

/-- The type a name stands for. Basic types come first, then bound names, then abbreviations. -/
def resolveName (aliases : Aliases) (bound : List String) (line : Option Nat) (x : String) :
    Except ResolveError Ty :=
  if x ∈ basicNames ∨ x ∈ bound then .ok (name line x)
  else
    match aliases.lookup x with
    | some t => .ok t
    | none => .error (.unknownType line x)

mutual

def resolve (aliases : Aliases) (bound : List String) : Ty → Resolve Ty
  | name line x => resolveName aliases bound line x
  | all line x bounds body => return all line x bounds (← body.resolve aliases (x :: bound))
  | arrow _ dom cod => do
    let dom ← dom.resolve aliases bound
    return arrow none dom (← cod.resolve aliases bound)
  | app line fn arg => do
    let fn ← fn.resolve aliases bound
    let arg ← arg.resolve aliases bound
    match fn with
    | all _ x _ body => Resolve.ofFresh (body.subst x arg)
    | found => throw (.notQuantified line found)
  | list _ elem => return list none (← elem.resolve aliases bound)
  | emptyList => return emptyList
  | record _ fields => return record none (← resolveFields aliases bound fields)

def resolveFields (aliases : Aliases) (bound : List String) :
    List (String × Ty) → Resolve (List (String × Ty))
  | [] => return []
  | (label, t) :: fields => do
    let t ← t.resolve aliases bound
    return (label, t) :: (← resolveFields aliases bound fields)

end

end Ty

def Param.resolve (aliases : Aliases) (bound : List String) : Param → Resolve Param
  | typed t => return typed (← t.resolve aliases bound)
  | p => return p

namespace Expr

mutual

/-- Resolves the types in an expression. Parameters of lambdas count as bound names, as those of
type lambdas do. -/
def resolve (aliases : Aliases) (bound : List String) : Expr → Resolve Expr
  | lam n x p body => do
    let p ← p.resolve aliases (x :: bound)
    return lam n x p (← body.resolve aliases (x :: bound))
  | tlam n x bounds body => return tlam n x bounds (← body.resolve aliases (x :: bound))
  | cond n c y z => do
    let c ← c.resolve aliases bound
    let y ← y.resolve aliases bound
    return cond n c y (← z.resolve aliases bound)
  | bin n op l r => do
    let l ← l.resolve aliases bound
    return bin n op l (← r.resolve aliases bound)
  | un n op e => return un n op (← e.resolve aliases bound)
  | app n f a => do
    let f ← f.resolve aliases bound
    return app n f (← a.resolve aliases bound)
  | tapp n f t => do
    let f ← f.resolve aliases bound
    return tapp n f (← t.resolve aliases bound)
  | ascribe n e t => do
    let e ← e.resolve aliases bound
    return ascribe n e (← t.resolve aliases bound)
  | proj n e label => return proj n (← e.resolve aliases bound) label
  | var n x => return var n x
  | val n v => return val n v
  | list n es => return list n (← resolveItems aliases bound es)
  | record n fs => return record n (← resolveFields aliases bound fs)

def resolveItems (aliases : Aliases) (bound : List String) : List Expr → Resolve (List Expr)
  | [] => return []
  | e :: es => do
    let e ← e.resolve aliases bound
    return e :: (← resolveItems aliases bound es)

def resolveFields (aliases : Aliases) (bound : List String) :
    List (String × Expr) → Resolve (List (String × Expr))
  | [] => return []
  | (label, e) :: fs => do
    let e ← e.resolve aliases bound
    return (label, e) :: (← resolveFields aliases bound fs)

end

end Expr

def Stmt.resolve (aliases : Aliases) : Stmt → Resolve Stmt
  | assign line x e => return assign line x (← e.resolve aliases [])
  | eval line e => return eval line (← e.resolve aliases [])
  | inst line trait type dict => do
    let type ← type.resolve aliases []
    return inst line trait type (← dict.resolve aliases [])
  | field line x trait type => return field line x trait (← type.resolve aliases [])

/-- Resolves declarations in order; an abbreviation is resolved where it stands and holds for
what follows. `done` holds the statements so far, last first. -/
def Decl.resolveAll (aliases : Aliases) (done : List Stmt) : List Decl → Resolve (List Stmt)
  | [] => return done.reverse
  | typedef _ x t :: ds => do
    let t ← t.resolve aliases []
    resolveAll (Assoc.insert x t aliases) done ds
  | stmt s :: ds => do
    let s ← s.resolve aliases
    resolveAll aliases (s :: done) ds

def Program.resolve (p : Program Decl) : Resolve (Program Stmt) :=
  return ⟨p.line, ← Decl.resolveAll [] [] p.stmts⟩

end TraitCalculus
