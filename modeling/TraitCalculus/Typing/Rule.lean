import TraitCalculus.Scope
import TraitCalculus.Ty.Unify
import TraitCalculus.Typing.Error

/-! The typing rules: for each form of expression, its type from the types of its parts. -/
namespace TraitCalculus

/-- What a name in scope stands for. -/
inductive Entry where
  | type
  | term (t : Ty)
deriving Repr

/-- The names drawn so far, and for each trait the types that implement it, latest first. -/
structure TypingState where
  drawn : Nat := 0
  instances : List (String × List Ty) := []
deriving Repr

abbrev Typing := StateT TypingState (Except TypeError)

namespace Typing

def fail {α : Type} (line : Option Nat) (f : TypeFault) : Typing α := throw (.fault line f)

def ofFresh {α : Type} (m : Fresh α) : Typing α := fun s =>
  let (a, k) := m.run s.drawn
  .ok (a, { s with drawn := k })

/-- A type implements each of the traits from here on. -/
def assume (t : Ty) (traits : List String) : Typing Unit :=
  modify fun s => { s with
    instances := traits.foldl (fun is trait => Assoc.insert trait (t :: (is.lookup trait).getD []) is)
      s.instances }

/-- Takes back the latest instance of each of the traits. -/
def release (traits : List String) : Typing Unit :=
  modify fun s => { s with
    instances := traits.foldl (fun is trait => Assoc.insert trait ((is.lookup trait).getD []).tail is)
      s.instances }

end Typing

namespace Rule

def lit : Value → Ty
  | .int _ => .int
  | .text _ => .string
  | .bool _ => .bool

def var (Γ : Scope Entry) (line : Option Nat) (x : String) : Except TypeError Ty :=
  match Γ.get? x with
  | some (.term t) => .ok t
  | some .type => .error (.fault line (.isType x))
  | none => .error (.fault line (.unbound x))

def cond (line : Option Nat) (test yes no : Ty) : Except TypeError Ty :=
  if !test.same .bool then .error .testNotBool
  else if !yes.same no then .error (.fault line (.mismatch yes no))
  else .ok yes

/-- Operators on truth values. -/
def logic (line : Option Nat) (l r : Ty) : Except TypeError Ty :=
  if l.same .bool && r.same .bool then .ok .bool else .error (.fault line (.notBools l r))

/-- Both operands are integers. -/
def ints (line : Option Nat) (result l r : Ty) : Except TypeError Ty :=
  if l.same .int && r.same .int then .ok result else .error (.fault line (.notInts l r))

def equality (line : Option Nat) (l r : Ty) : Except TypeError Ty :=
  if l.same r then .ok .bool else .error (.fault line (.mismatch l r))

def isList : Ty → Bool
  | .list .. | .emptyList => true
  | _ => false

/-- Sums of integers, texts and lists. -/
def sum (line : Option Nat) (l r : Ty) : Except TypeError Ty :=
  if !l.same r then .error (.fault line (.mismatch l r))
  else if l.same .int || l.same .string || isList l then .ok l
  else .error (.fault line (.notAddable l))

def bin (line : Option Nat) : BinOp → Ty → Ty → Except TypeError Ty
  | .or, l, r | .and, l, r => logic line l r
  | .eq, l, r | .neq, l, r => equality line l r
  | .gt, l, r | .lt, l, r | .geq, l, r | .leq, l, r => ints line .bool l r
  | .add, l, r => sum line l r
  | .sub, l, r | .mul, l, r | .div, l, r | .mod, l, r => ints line .int l r

def un (line : Option Nat) : UnOp → Ty → Except TypeError Ty
  | .not, t => if t.same .bool then .ok .bool else .error (.fault line (.notBool t))
  | .neg, t => if t.same .int then .ok .int else .error (.fault line (.notInt t))

def proj (line : Option Nat) (record : Ty) (label : String) : Except TypeError Ty :=
  match record with
  | .record _ fields =>
    match fields.lookup label with
    | some t => .ok t
    | none => .error (.fault line (.unknownField label record))
  | t => .error (.fault line (.notRecord t))

def ascribe (line : Option Nat) (stated found : Ty) : Except TypeError Ty :=
  if found.same stated then .ok found else .error (.fault line (.wrongAscription stated found))

/-- Application of a function that is not quantified. -/
def app (line : Option Nat) (fn arg : Ty) : Except TypeError Ty :=
  match fn with
  | .arrow _ dom cod =>
    if dom.same arg then .ok cod else .error (.fault line (.mismatch dom arg))
  | .all .. => .error (.fault line (.noInstantiation fn arg))
  | t => .error (.fault line (.notFunction t))

/-- All types that implement one of the traits. Every trait has to be known. -/
def implementing (instances : List (String × List Ty)) : List String → Except TypeError (List Ty)
  | [] => .ok []
  | trait :: traits =>
    match instances.lookup trait with
    | none => .error (.unknownTrait trait)
    | some ts =>
      match implementing instances traits with
      | .error e => .error e
      | .ok us => .ok (ts ++ us)

/-- A type argument implements one of the bounds, unless there are none. -/
def bounds (instances : List (String × List Ty)) (line : Option Nat) (bounds : List String)
    (fn : Expr) (arg : Ty) : Except TypeError Unit :=
  if bounds.isEmpty then .ok ()
  else
    match implementing instances bounds with
    | .error e => .error e
    | .ok ts =>
      if ts.any (·.same arg) then .ok () else .error (.fault line (.boundsNotMet arg bounds fn))

/-- Application of the quantified function `fn`. -/
def tapp (line : Option Nat) (fn : Expr) (quantified arg : Ty) : Typing Ty := do
  match quantified with
  | .all _ x bs body =>
    bounds (← get).instances line bs fn arg
    Typing.ofFresh (body.subst x arg)
  | t => Typing.fail line (.notQuantified t)

end Rule

end TraitCalculus
