import TraitCalculus.Assoc
import TraitCalculus.Expr.Printer
import TraitCalculus.Program.Resolve
import TraitCalculus.Ty.Equality

/-! Dictionary passing. A bounded type lambda takes a dictionary for each of its bounds, a type
application passes the dictionaries its function asks for, and a trait's field is projected from
the dictionary of its type argument. -/
namespace TraitCalculus

inductive DictionaryError where
  | unappliedField (line : Option Nat) (x : String)
  | noDictionary (trait : String) (type : Ty)
deriving Repr

def DictionaryError.message : DictionaryError → String
  | unappliedField line x =>
    renderLine line ++ " Type Error: Unsolved trait field accessor, use '" ++ x ++ " @T' instead"
  | noDictionary trait type => "(" ++ Text.quote trait ++ ", " ++ type.outline.inline ++ ")"

/-- The number of dictionary parameters so far, and the dictionaries for traits and types, latest
first. -/
structure Dictionaries where
  params : Nat := 0
  known : List (String × Ty × Expr) := []
deriving Repr

abbrev Dispatch := StateT Dictionaries (Except DictionaryError)

namespace Dictionaries

/-- The dictionary of a trait for a type. -/
def find (trait : String) (type : Ty) : Dispatch Expr := do
  match (← get).known.find? (fun d => d.1 = trait && d.2.1.same type) with
  | some d => return d.2.2
  | none => throw (.noDictionary trait type)

/-- From here on the trait's dictionary for the type is `dict`. -/
def add (trait : String) (type : Ty) (dict : Expr) : Dispatch Unit :=
  modify fun d => { d with known := (trait, type, dict) :: d.known }

def paramName (trait : String) (k : Nat) : String := "__dictp_" ++ trait ++ "_" ++ toString k

/-- Names a dictionary parameter for each of the traits, for the type variable `x`. -/
def bind (x : String) : List String → Dispatch (List String)
  | [] => return []
  | trait :: traits => do
    let k := (← get).params + 1
    modify fun d => { d with params := k }
    let y := paramName trait k
    add trait (.name none x) (.var .blank y)
    return y :: (← bind x traits)

/-- The dictionaries of all the traits for a type, as arguments behind `fn`. -/
def apply (line : Option Nat) (type : Ty) (fn : Expr) : List String → Dispatch Expr
  | [] => return fn
  | trait :: traits => do
    let dict ← find trait type
    apply line type (.app ⟨line, none⟩ fn dict) traits

end Dictionaries

/-- The trait bounds of a quantified type. -/
def Ty.bounds : Ty → List String
  | all _ _ bounds _ => bounds
  | _ => []

namespace Expr

/-- The trait whose field an expression names. `owners` gives the traits of field names. -/
def fieldOf? (owners : List (String × String)) : Expr → Option (String × String)
  | var _ x => (owners.lookup x).map (x, ·)
  | _ => none

/-- The bounds an expression's type asks for. -/
def wanted (e : Expr) : List String := (e.type?.map Ty.bounds).getD []

mutual

/-- Makes dictionaries explicit. `owners` gives the traits of the field names in scope. The
function of a bounded type application is left as it is. -/
def dispatch (owners : List (String × String)) : Expr → Dispatch Expr
  | lam n x p body => return lam n x p (← body.dispatch (Assoc.erase x owners))
  | tlam n x bounds body => do
    let dicts ← Dictionaries.bind x bounds.reverse
    let owners := dicts.foldl (fun os d => Assoc.erase d os) (Assoc.erase x owners)
    let body ← body.dispatch owners
    return tlam n x bounds (dicts.foldl (fun b d => lam .blank d .dictionary b) body)
  | cond n c y z => do
    let c ← c.dispatch owners
    let y ← y.dispatch owners
    return cond n c y (← z.dispatch owners)
  | bin n op l r => do
    let l ← l.dispatch owners
    return bin n op l (← r.dispatch owners)
  | un n op e => return un n op (← e.dispatch owners)
  | app n f a => do
    let f ← f.dispatch owners
    return app n f (← a.dispatch owners)
  | tapp n f t =>
    match f.fieldOf? owners with
    | some (x, trait) => return proj ⟨n.line, none⟩ (← Dictionaries.find trait t) x
    | none =>
      if f.wanted.isEmpty then return tapp n (← f.dispatch owners) t
      else Dictionaries.apply n.line t (tapp n f t) f.wanted
  | ascribe n e t => return ascribe n (← e.dispatch owners) t
  | proj n e label => return proj n (← e.dispatch owners) label
  | var n x =>
    if (owners.lookup x).isSome then throw (.unappliedField n.line x) else return var n x
  | val n v => return val n v
  | list n es => return list n (← dispatchItems owners es)
  | record n fs => return record n (← dispatchFields owners fs)

def dispatchItems (owners : List (String × String)) : List Expr → Dispatch (List Expr)
  | [] => return []
  | e :: es => do
    let e ← e.dispatch owners
    return e :: (← dispatchItems owners es)

def dispatchFields (owners : List (String × String)) :
    List (String × Expr) → Dispatch (List (String × Expr))
  | [] => return []
  | (label, e) :: fs => do
    let e ← e.dispatch owners
    return (label, e) :: (← dispatchFields owners fs)

end

end Expr

/-- Makes dictionaries explicit in statements, in order. An assignment hides a field of its
name. `done` holds the statements so far, last first. -/
def Stmt.dispatchAll (owners : List (String × String)) (done : List Stmt) :
    List Stmt → Dispatch (List Stmt)
  | [] => return done.reverse
  | assign line x e :: ss => do
    let owners := Assoc.erase x owners
    let e ← e.dispatch owners
    dispatchAll owners (assign line x e :: done) ss
  | eval line e :: ss => do
    let e ← e.dispatch owners
    dispatchAll owners (eval line e :: done) ss
  | inst line trait type dict :: ss => do
    Dictionaries.add trait type dict
    dispatchAll owners (inst line trait type dict :: done) ss
  | field line x trait type :: ss =>
    dispatchAll (Assoc.insert x trait owners) (field line x trait type :: done) ss

def Program.dispatch (p : Program Stmt) : Except DictionaryError (Program Stmt) :=
  match (Stmt.dispatchAll [] [] p.stmts).run {} with
  | .error e => .error e
  | .ok (ss, _) => .ok ⟨p.line, ss⟩

end TraitCalculus
