import TraitCalculus.Expr.Printer
import TraitCalculus.Program.Resolve

/-! What can be wrong with an expression's types. -/
namespace TraitCalculus

inductive TypeFault where
  | mismatch (expected found : Ty)
  | notBool (found : Ty)
  | notBools (left right : Ty)
  | notInt (found : Ty)
  | notInts (left right : Ty)
  | notAddable (found : Ty)
  | notRecord (found : Ty)
  | unknownField (label : String) (record : Ty)
  | noInstantiation (fn arg : Ty)
  | notFunction (found : Ty)
  | notQuantified (found : Ty)
  | boundsNotMet (arg : Ty) (bounds : List String) (fn : Expr)
  | wrongAscription (stated found : Ty)
  | isType (x : String)
  | unbound (x : String)
  | untyped (x : String)
deriving Repr

namespace TypeFault

/-- A type between quotes. -/
def inQuotes (t : Ty) : String := "'" ++ t.render ++ "'"

def message : TypeFault → String
  | mismatch expected found => "Expected " ++ inQuotes expected ++ ", got " ++ inQuotes found
  | notBool found => "Expected 'Bool', got " ++ inQuotes found
  | notBools left right => "Expected 'Bool', got " ++ inQuotes left ++ " and " ++ inQuotes right
  | notInt found => "Expected 'Int', got " ++ inQuotes found
  | notInts left right => "Expected 'Int', got " ++ inQuotes left ++ " and " ++ inQuotes right
  | notAddable found => "Expected 'Int' or 'String' or List, got " ++ inQuotes found
  | notRecord found => "Expected record, got " ++ inQuotes found
  | unknownField label record => "Unknown field '" ++ label ++ "' in " ++ record.render
  | noInstantiation fn arg =>
    "Type infer failed for " ++ inQuotes fn ++ " with argument type " ++ inQuotes arg
  | notFunction found => "Arrow type expected, got " ++ inQuotes found
  | notQuantified found => "For-all type expected, got " ++ inQuotes found
  | boundsNotMet arg bounds fn =>
    "Type " ++ inQuotes arg ++ " does not satisfy trait bounds '" ++ " + ".intercalate bounds
      ++ "' required by '" ++ fn.render ++ "'"
  | wrongAscription stated found => "Annotated type " ++ inQuotes stated ++ ", got " ++ inQuotes found
  | isType x => "Identifier '" ++ x ++ "' is a type, not a variable"
  | unbound x => "Unbound variable '" ++ x ++ "'"
  | untyped x => "Parameter '" ++ x ++ "' has no type"

end TypeFault

inductive TypeError where
  | fault (line : Option Nat) (f : TypeFault)
  /-- A conditional whose parts have types, but whose test is not a truth value. -/
  | testNotBool
  /-- A bound by a trait that no implementation or binder has mentioned. -/
  | unknownTrait (trait : String)
deriving Repr

def TypeError.message : TypeError → String
  | fault line f => renderLine line ++ " Type Error: " ++ f.message
  | testNotBool => "'IfExpr' object has no attribute 'cond'"
  | unknownTrait trait => Text.quote trait

end TraitCalculus
