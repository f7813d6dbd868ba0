import TraitCalculus.Assoc
import TraitCalculus.Program

/-! Traits, structs and their implementations as plain declarations. -/
namespace TraitCalculus

inductive BlockError where
  | paramCount (line : Nat)
  | duplicateField (line : Nat) (label : String)
deriving Repr, DecidableEq

def BlockError.message : BlockError → String
  | paramCount line =>
    "[Line " ++ toString line ++ "] Type Error: Trait must have exactly one type parameter"
  | duplicateField line label =>
    "[Line " ++ toString line ++ "] Type Error: Duplicate field name '" ++ label ++ "'"

namespace Item

/-- The first name that came before. -/
def repeated? (seen : List String) : List String → Option String
  | [] => none
  | x :: xs => if x ∈ seen then some x else repeated? (x :: seen) xs

/-- The record type of a block's members. -/
def recordType (line : Nat) (members : List (Member Ty)) : Except BlockError Ty :=
  match repeated? [] (members.map (·.name)) with
  | some x => .error (.duplicateField line x)
  | none => .ok (.record none (members.map fun m => (m.name, m.item)))

/-- The name of the `k`-th parameter of a constructor. -/
def paramName (k : Nat) : String := "__x" ++ toString k

/-- The function that makes a record of a struct from the values of its fields. -/
def constructor (members : List (Member Ty)) : Expr :=
  let fields := members.mapIdx fun k m => (m.name, Expr.var .blank (paramName k))
  (members.mapIdx fun k m => (paramName k, m.item)).foldr
    (fun p body => .lam .blank p.1 (.typed p.2) body) (.record .blank fields)

/-- The record of an implementation. Of members with one name the last counts, at the place of
the first. -/
def implRecord (members : List (Member Expr)) : Expr :=
  .record .blank (members.foldl (fun fs m => Assoc.insert m.name m.item fs) [])

def dictName (trait : String) (k : Nat) : String := "__" ++ trait ++ "_inst_" ++ toString k

/-- The declarations a statement stands for. `k` counts the implementations before it. A trait is
a type with one parameter, and each of its fields is announced; a struct is a record type with a
constructor; an implementation is a record of the trait's type, and is announced. -/
def desugar (k : Nat) : Item → Except BlockError (List Decl)
  | assign line x e => .ok [.stmt (.assign line x e)]
  | typedef line x t => .ok [.typedef line x t]
  | eval line e => .ok [.stmt (.eval line e)]
  | trait line name params members =>
    match params with
    | [a] =>
      match recordType line members with
      | .error e => .error e
      | .ok t =>
        .ok (.typedef line name (.all none a [name] t) ::
          members.map fun m => .stmt (.field line m.name name (.all (some line) a [name] m.item)))
    | _ => .error (.paramCount line)
  | struct line name members =>
    match recordType line members with
    | .error e => .error e
    | .ok t => .ok [.typedef line name t, .stmt (.assign line name (constructor members))]
  | impl line name type members =>
    let dict := dictName name k
    .ok [.stmt (.assign line dict
        (.ascribe (.atLine line) (implRecord members) (.app none (.name none name) type))),
      .stmt (.inst line name type (.var .blank dict))]

def isImpl : Item → Bool
  | impl .. => true
  | _ => false

/-- Declarations of statements in order. `done` holds those of statements before, last first. -/
def desugarAll (k : Nat) (done : List Decl) : List Item → Except BlockError (List Decl)
  | [] => .ok done.reverse
  | item :: items =>
    match item.desugar k with
    | .error e => .error e
    | .ok ds => desugarAll (if item.isImpl then k + 1 else k) (ds.reverse ++ done) items

end Item

def Program.desugar (p : Program Item) : Except BlockError (Program Decl) :=
  match Item.desugarAll 0 [] p.stmts with
  | .error e => .error e
  | .ok ds => .ok ⟨p.line, ds⟩

end TraitCalculus
