import TraitCalculus.Expr

/-! Programs at three levels: as read, without traits and structs, and without type
abbreviations. -/
namespace TraitCalculus

structure Program (σ : Type) where
  line : Nat
  stmts : List σ
deriving Repr

/-- A named part of a block. -/
structure Member (α : Type) where
  line : Nat
  name : String
  item : α
deriving Repr

/-- A statement as read. -/
inductive Item where
  | assign (line : Nat) (x : String) (e : Expr)
  | typedef (line : Nat) (x : String) (t : Ty)
  | eval (line : Nat) (e : Expr)
  | trait (line : Nat) (name : String) (params : List String) (members : List (Member Ty))
  | struct (line : Nat) (name : String) (members : List (Member Ty))
  | impl (line : Nat) (trait : String) (type : Ty) (members : List (Member Expr))
deriving Repr

/-- A statement that is typed and run. `inst` tells that a record implements a trait for a type,
and `field` that a name is a field of a trait. -/
inductive Stmt where
  | assign (line : Nat) (x : String) (e : Expr)
  | eval (line : Nat) (e : Expr)
  | inst (line : Nat) (trait : String) (type : Ty) (dict : Expr)
  | field (line : Nat) (x : String) (trait : String) (type : Ty)
deriving Repr

/-- A statement or a type abbreviation. -/
inductive Decl where
  | typedef (line : Nat) (x : String) (t : Ty)
  | stmt (s : Stmt)
deriving Repr

end TraitCalculus
