import TraitCalculus.Fresh
import TraitCalculus.Ty

/-! Free names of a type, and substitution for one of them. A binder that would capture a name
of the new type gets a fresh name. -/
namespace TraitCalculus.Ty

mutual

/-- The names that no quantifier binds. -/
def free : Ty → List String
  | name _ x => [x]
  | all _ x _ body => body.free.filter (· ≠ x)
  | arrow _ dom cod => dom.free ++ cod.free
  | app _ fn arg => fn.free ++ arg.free
  | list _ elem => elem.free
  | emptyList => []
  | record _ fields => freeFields fields

def freeFields : List (String × Ty) → List String
  | [] => []
  | (_, t) :: fields => t.free ++ freeFields fields

end

/-- Replaces a name: first by its fresh name, then by the new type. -/
def substName (ρ : List (String × String)) (σ : Option (String × Ty)) (line : Option Nat)
    (x : String) : Ty :=
  let (line, x) := match ρ.lookup x with
    | some y => (none, y)
    | none => (line, x)
  match σ with
  | some (y, new) => if x = y then new else name line x
  | none => name line x

mutual

/-- Substitution under binders: `ρ` gives the fresh names of enclosing binders, and `σ` is the
name to replace with its new type, unless an enclosing binder hides it. -/
def substIn (ρ : List (String × String)) (σ : Option (String × Ty)) : Ty → Fresh Ty
  | name line x => return substName ρ σ line x
  | all line x bounds body => do
    let ρ := ρ.filter (·.1 ≠ x)
    match σ with
    | none => return all line x bounds (← body.substIn ρ none)
    | some (y, new) =>
      if x = y then return all line x bounds (← body.substIn ρ none)
      else if x ∈ new.free then
        let z ← Fresh.draw x
        return all line z bounds (← body.substIn ((x, z) :: ρ) σ)
      else return all line x bounds (← body.substIn ρ σ)
  | arrow line dom cod => do
    let dom ← dom.substIn ρ σ
    return arrow line dom (← cod.substIn ρ σ)
  | app line fn arg => do
    let fn ← fn.substIn ρ σ
    return app line fn (← arg.substIn ρ σ)
  | list line elem => return list line (← elem.substIn ρ σ)
  | emptyList => return emptyList
  | record line fields => return record line (← substFields ρ σ fields)

def substFields (ρ : List (String × String)) (σ : Option (String × Ty)) :
    List (String × Ty) → Fresh (List (String × Ty))
  | [] => return []
  | (label, t) :: fields => do
    let t ← t.substIn ρ σ
    return (label, t) :: (← substFields ρ σ fields)

end

/-- `t` with `new` for the free name `x`. -/
def subst (t : Ty) (x : String) (new : Ty) : Fresh Ty := t.substIn [] (some (x, new))

end TraitCalculus.Ty
