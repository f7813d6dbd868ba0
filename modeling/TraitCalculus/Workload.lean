import TraitCalculus.Stage
import TraitCalculus.Ty.Unify
import TraitCalculus.Workload.Sample

/-! Work of a chosen size for the parts of the library. Each workload ends in a small result that
depends on all of the work. -/
namespace TraitCalculus

inductive Workload where
  | lexing | reading | outlining | unifying | substituting | running | lookup | comparing
deriving Repr, DecidableEq

namespace Workload

/-- The sizes a workload is meant for. -/
structure Sizes where
  small : Nat
  usual : Nat
  large : Nat
deriving Repr

def sizes : Workload → Sizes
  | lexing => ⟨15, 60, 240⟩
  | reading => ⟨5, 20, 80⟩
  | outlining => ⟨3, 15, 40⟩
  | unifying => ⟨800, 3000, 10000⟩
  | substituting => ⟨20, 50, 100⟩
  | running => ⟨1, 3, 8⟩
  | lookup => ⟨100, 400, 800⟩
  | comparing => ⟨80, 300, 1000⟩

/-- The number of tokens in copies of the sample. -/
def tokenCount (n : Int) : Except SyntaxError Nat := (Token.ofText (copies n)).map (·.length)

/-- Reads copies of the sample. The result adds the length of the source form, the number of
statements and the length of the first one's outline; without a statement there is none. -/
def readSize (n : Int) : Except ParseError (Option Nat) :=
  (Program.ofText (copies n)).map fun p => p.stmts.head?.map fun s =>
    (p.renderWith Item.render).length + p.stmts.length + (s.outline.block 0).length

/-- The length of the outline of copies of the sample. -/
def outlineSize (n : Int) : Except ParseError Nat :=
  (Program.ofText (copies n)).map fun p => (p.outlineWith Item.outline).length

/-- Takes copies of the sample through all stages and counts the statements that were run. -/
def runCount (n : Int) : Except Failure Nat :=
  match Program.dispatchText (copies n) with
  | .error e => .error e
  | .ok p =>
    match p.run Execution.fuel "" with
    | (_, _, .error e) => .error (.eval e)
    | (_, _, .ok ()) => .ok p.stmts.length

/-- A record type whose fields all have one type. -/
def uniform (n : Nat) (t : Ty) : Ty :=
  .record none ((List.range n).map fun i => (s!"f{i}", t))

/-- What matching against a record of a given width finds. -/
structure Matching where
  found : Option Ty
  isTarget : Bool
  otherWidth : Option Ty
  otherForm : Option Ty
  otherName : Option Ty
deriving Repr

/-- Matches a record of variables with a record of targets, and then three types that cannot
match. -/
def unifyRecord (n : Int) : Matching :=
  let target : Ty := .name none s!"Target{n}"
  let pattern := uniform n.toNat (.name none "X")
  let found := pattern.unify "X" (uniform n.toNat target)
  ⟨found, found.any (·.same target), pattern.unify "X" (uniform (n.toNat + 1) target),
    pattern.unify "X" target, target.unify "X" target⟩

/-- One binder round another. -/
def nest (d : Nat) (e : Expr) : Expr :=
  d.repeat (fun e => .lam .blank "y" .erased e) e

/-- What substitution in nested binders gives. -/
structure Substituted where
  replaced : Expr
  untouched : Expr
  shadowed : Expr
  free : List String
deriving Repr

/-- Puts a variable for one that occurs under binders, for one that does not occur, and for one
that is bound. -/
def substNested (d : Int) : Substituted :=
  let deep := nest d.toNat (.var .blank "x")
  let new : Expr := .var .blank "z"
  let go : Fresh (Expr × Expr × Expr) := do
    return (← deep.subst "x" new, ← deep.subst "w" new,
      ← Expr.subst (.lam .blank "x" .erased (.var .blank "x")) "x" new)
  let (replaced, untouched, shadowed) := (go.run 0).1
  ⟨replaced, untouched, shadowed,
    Expr.freeTypes (.lam .blank "x" (.typed (.name none "a")) (.var .blank "x"))⟩

/-- Scopes in each other; the frame at depth `i` binds `v` followed by `i` to `i`. -/
def chain (n : Nat) : Scope Nat :=
  (List.range n).foldl (fun s i => s.extend s!"v{i}" i) {}

/-- Looks up about fifty of the names of a chain from inside, and one name that has no binding. The
result adds the values found and the number of names not found. -/
def lookupSum (n : Int) : Nat :=
  let s := chain n.toNat
  let step := max 1 (n.toNat / 50)
  let names := (List.range n.toNat).filter (· % step = 0) |>.map fun i => s!"v{i}"
  ((names ++ ["missing"]).map fun x => (s.get? x).getD 1).foldr (· + ·) 0

/-- One type of every form. -/
def everyForm (i : Nat) : List Ty :=
  let a : Ty := .name none s!"A{i}"
  [a, .all none "x" [] (.arrow none (.name none "x") a), .arrow none a a, .app none a a,
    .list none a, .record none [(s!"f{i}", a)]]

/-- The number of types equal to a second one made the same way. -/
def equalCount (n : Int) : Nat :=
  ((List.range n.toNat).flatMap fun i =>
    ((everyForm i).zip (everyForm i)).filter fun p => p.1.same p.2).length

end Workload

end TraitCalculus
