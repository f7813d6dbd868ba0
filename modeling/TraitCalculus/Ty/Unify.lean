import TraitCalculus.Ty.Equality

/-! Matching with one variable: which type, put for the variable, makes a pattern a given type. -/
namespace TraitCalculus.Ty

/-- The same labels on both sides. -/
def sameLabels (fs gs : List (String × Ty)) : Bool :=
  fs.all (fun f => gs.any (·.1 = f.1)) && gs.all (fun g => fs.any (·.1 = g.1))

mutual

/-- The type found for `x` in a pattern. Every leaf of the pattern has to be `x`, and all leaves
have to find the same type. -/
def unify (x : String) : Ty → Ty → Option Ty
  | name _ y, t => if y = x then some t else none
  | arrow _ a b, arrow _ c d =>
    match a.unify x c, b.unify x d with
    | some u, some v => if u.same v then some u else none
    | _, _ => none
  | list _ a, list _ b => a.unify x b
  | record _ fs, record _ gs => if sameLabels fs gs then unifyFields x none fs gs else none
  | _, _ => none

/-- The type found in all fields; `found` is that of the field before. -/
def unifyFields (x : String) (found : Option Ty) :
    List (String × Ty) → List (String × Ty) → Option Ty
  | [], _ => found
  | (label, t) :: fs, gs =>
    match gs.lookup label with
    | none => none
    | some g =>
      match t.unify x g with
      | none => none
      | some u => if found.all (·.same u) then unifyFields x (some u) fs gs else none

end

end TraitCalculus.Ty
