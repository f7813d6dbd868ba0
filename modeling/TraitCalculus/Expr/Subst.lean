import TraitCalculus.Expr
import TraitCalculus.Ty.Subst

/-! Substitution for variables in expressions. A lambda that the substitution enters loses its
note and its parameter's type, and gets a fresh name if its parameter is named like a free type
name of the new expression. -/
namespace TraitCalculus

def Note.freeTypes (n : Note) : List String := (n.type.map Ty.free).getD []

def Param.freeTypes : Param → List String
  | typed t => t.free
  | _ => []

namespace Expr

mutual

/-- The free names of all types in an expression, those of notes included. -/
def freeTypes : Expr → List String
  | lam n _ p body => n.freeTypes ++ p.freeTypes ++ body.freeTypes
  | tlam n _ _ body => n.freeTypes ++ body.freeTypes
  | cond n c y z => n.freeTypes ++ c.freeTypes ++ y.freeTypes ++ z.freeTypes
  | bin n _ l r => n.freeTypes ++ l.freeTypes ++ r.freeTypes
  | un n _ e => n.freeTypes ++ e.freeTypes
  | app n f a => n.freeTypes ++ f.freeTypes ++ a.freeTypes
  | tapp n f t => n.freeTypes ++ f.freeTypes ++ t.free
  | ascribe n e t => n.freeTypes ++ e.freeTypes ++ t.free
  | proj n e _ => n.freeTypes ++ e.freeTypes
  | var n _ => n.freeTypes
  | val n _ => n.freeTypes
  | list n es => n.freeTypes ++ freeTypesItems es
  | record n fs => n.freeTypes ++ freeTypesFields fs

def freeTypesItems : List Expr → List String
  | [] => []
  | e :: es => e.freeTypes ++ freeTypesItems es

def freeTypesFields : List (String × Expr) → List String
  | [] => []
  | (_, e) :: fs => e.freeTypes ++ freeTypesFields fs

end

/-- Replaces a variable: first by its fresh name, then by the new expression. -/
def substVar (ρ : List (String × String)) (σ : Option (String × Expr)) (n : Note) (x : String) :
    Expr :=
  let (n, x) := match ρ.lookup x with
    | some y => (.blank, y)
    | none => (n, x)
  match σ with
  | some (y, new) => if x = y then new else var n x
  | none => var n x

mutual

/-- Substitution under binders: `ρ` gives the fresh names of enclosing lambdas, and `σ` is the
variable to replace with its new expression, unless an enclosing lambda hides it. -/
def substIn (ρ : List (String × String)) (σ : Option (String × Expr)) : Expr → Fresh Expr
  | lam n x p body => do
    let ρ := ρ.filter (·.1 ≠ x)
    match σ.filter (·.1 ≠ x) with
    | none =>
      if ρ.isEmpty then return lam n x p body
      else return lam .blank x .erased (← body.substIn ρ none)
    | some (y, new) =>
      if x ∈ new.freeTypes then
        let z ← Fresh.draw x
        return lam .blank z .erased (← body.substIn ((x, z) :: ρ) (some (y, new)))
      else return lam .blank x .erased (← body.substIn ρ (some (y, new)))
  | tlam n x bounds body => return tlam n x bounds (← body.substIn ρ σ)
  | cond n c y z => do
    let c ← c.substIn ρ σ
    let y ← y.substIn ρ σ
    return cond n c y (← z.substIn ρ σ)
  | bin n op l r => do
    let l ← l.substIn ρ σ
    return bin n op l (← r.substIn ρ σ)
  | un n op e => return un n op (← e.substIn ρ σ)
  | app n f a => do
    let f ← f.substIn ρ σ
    return app n f (← a.substIn ρ σ)
  | tapp n f t => return tapp n (← f.substIn ρ σ) t
  | ascribe n e t => return ascribe n (← e.substIn ρ σ) t
  | proj n e label => return proj n (← e.substIn ρ σ) label
  | var n x => return substVar ρ σ n x
  | val n v => return val n v
  | list n es => return list n (← substItems ρ σ es)
  | record n fs => return record n (← substFields ρ σ fs)

def substItems (ρ : List (String × String)) (σ : Option (String × Expr)) :
    List Expr → Fresh (List Expr)
  | [] => return []
  | e :: es => do
    let e ← e.substIn ρ σ
    return e :: (← substItems ρ σ es)

def substFields (ρ : List (String × String)) (σ : Option (String × Expr)) :
    List (String × Expr) → Fresh (List (String × Expr))
  | [] => return []
  | (label, e) :: fs => do
    let e ← e.substIn ρ σ
    return (label, e) :: (← substFields ρ σ fs)

end

/-- `e` with `new` for the variable `x`. -/
def subst (e : Expr) (x : String) (new : Expr) : Fresh Expr := e.substIn [] (some (x, new))

end Expr

end TraitCalculus
