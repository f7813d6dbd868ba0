import TraitCalculus.Ty

/-! Expressions of the calculus. Every node has a note: the line it was read at and the type
that was found for it, both optional. -/
namespace TraitCalculus

structure Note where
  line : Option Nat := none
  type : Option Ty := none
deriving Repr, Inhabited

/-- A note that says nothing. -/
def Note.blank : Note := ⟨none, none⟩

/-- A note with a line only. -/
def Note.atLine (line : Nat) : Note := ⟨some line, none⟩

inductive Value where
  | int (n : Int)
  | text (s : String)
  | bool (b : Bool)
deriving Repr, DecidableEq, Inhabited

/-- What is known about a lambda's parameter. -/
inductive Param where
  | typed (t : Ty)
  | dictionary
  | erased
deriving Repr, Inhabited

inductive BinOp where
  | or | and | gt | lt | geq | leq | eq | neq | add | sub | mul | div | mod
deriving Repr, DecidableEq, Inhabited

namespace BinOp

def symbol : BinOp → String
  | or => "||" | and => "&&" | gt => ">" | lt => "<" | geq => ">=" | leq => "<=" | eq => "=="
  | neq => "!=" | add => "+" | sub => "-" | mul => "*" | div => "/" | mod => "%"

/-- How tightly an operator binds. -/
def level : BinOp → Nat
  | or => 2
  | and => 3
  | gt | lt | geq | leq | eq | neq => 5
  | add | sub => 6
  | mul | div | mod => 7

end BinOp

inductive UnOp where
  | not | neg
deriving Repr, DecidableEq, Inhabited

namespace UnOp

def symbol : UnOp → String
  | not => "!"
  | neg => "-"

def level : UnOp → Nat
  | not => 4
  | neg => 8

end UnOp

inductive Expr where
  | lam (note : Note) (x : String) (param : Param) (body : Expr)
  | tlam (note : Note) (x : String) (bounds : List String) (body : Expr)
  | cond (note : Note) (test yes no : Expr)
  | bin (note : Note) (op : BinOp) (left right : Expr)
  | un (note : Note) (op : UnOp) (arg : Expr)
  | app (note : Note) (fn arg : Expr)
  | tapp (note : Note) (fn : Expr) (type : Ty)
  | ascribe (note : Note) (e : Expr) (type : Ty)
  | proj (note : Note) (e : Expr) (label : String)
  | var (note : Note) (x : String)
  | val (note : Note) (v : Value)
  | list (note : Note) (elems : List Expr)
  | record (note : Note) (fields : List (String × Expr))
deriving Repr, Inhabited

namespace Expr

def note : Expr → Note
  | lam n .. | tlam n .. | cond n .. | bin n .. | un n .. | app n .. | tapp n .. | ascribe n ..
  | proj n .. | var n .. | val n .. | list n .. | record n .. => n

def line (e : Expr) : Option Nat := e.note.line

/-- The type found for an expression. -/
def type? (e : Expr) : Option Ty := e.note.type

/-- Writes the type of an expression into its note. -/
def withType (t : Ty) : Expr → Expr
  | lam n x p b => lam ⟨n.line, some t⟩ x p b
  | tlam n x bs b => tlam ⟨n.line, some t⟩ x bs b
  | cond n c y z => cond ⟨n.line, some t⟩ c y z
  | bin n op l r => bin ⟨n.line, some t⟩ op l r
  | un n op e => un ⟨n.line, some t⟩ op e
  | app n f a => app ⟨n.line, some t⟩ f a
  | tapp n f s => tapp ⟨n.line, some t⟩ f s
  | ascribe n e s => ascribe ⟨n.line, some t⟩ e s
  | proj n e l => proj ⟨n.line, some t⟩ e l
  | var n x => var ⟨n.line, some t⟩ x
  | val n v => val ⟨n.line, some t⟩ v
  | list n es => list ⟨n.line, some t⟩ es
  | record n fs => record ⟨n.line, some t⟩ fs

/-- Induction over expressions, with one hypothesis for all elements of a list and one for all
fields of a record. -/
theorem induction {motive : Expr → Prop}
    (lam : ∀ n x p body, motive body → motive (lam n x p body))
    (tlam : ∀ n x bounds body, motive body → motive (tlam n x bounds body))
    (cond : ∀ n c y z, motive c → motive y → motive z → motive (cond n c y z))
    (bin : ∀ n op l r, motive l → motive r → motive (bin n op l r))
    (un : ∀ n op e, motive e → motive (un n op e))
    (app : ∀ n f a, motive f → motive a → motive (app n f a))
    (tapp : ∀ n f t, motive f → motive (tapp n f t))
    (ascribe : ∀ n e t, motive e → motive (ascribe n e t))
    (proj : ∀ n e label, motive e → motive (proj n e label))
    (var : ∀ n x, motive (var n x)) (val : ∀ n v, motive (val n v))
    (list : ∀ n es, (∀ e ∈ es, motive e) → motive (list n es))
    (record : ∀ n fs, (∀ f ∈ fs, motive f.2) → motive (record n fs)) :
    ∀ e, motive e := by
  intro e
  refine @Expr.rec motive (fun es => ∀ e ∈ es, motive e) (fun fs => ∀ f ∈ fs, motive f.2)
    (fun f => motive f.2) lam tlam cond bin un app tapp ascribe proj var val list record
    ?_ ?_ ?_ ?_ ?_ e
  · intro e he
    cases he
  · intro e es he hes e' he'
    rcases List.mem_cons.mp he' with rfl | he'
    · exact he
    · exact hes e' he'
  · intro f hf
    cases hf
  · intro f fs hf hfs g hg
    rcases List.mem_cons.mp hg with rfl | hg
    · exact hf
    · exact hfs g hg
  · intro _ _ h
    exact h

end Expr

end TraitCalculus
