/-! Types of the calculus: names, quantified types with trait bounds, functions, applications of
type abbreviations, lists and records. Each node has the line it was read at, if it was read. -/
namespace TraitCalculus

inductive Ty where
  | name (line : Option Nat) (x : String)
  | all (line : Option Nat) (x : String) (bounds : List String) (body : Ty)
  | arrow (line : Option Nat) (dom cod : Ty)
  | app (line : Option Nat) (fn arg : Ty)
  | list (line : Option Nat) (elem : Ty)
  /-- The type of a list without elements. -/
  | emptyList
  | record (line : Option Nat) (fields : List (String × Ty))
deriving Repr, Inhabited

namespace Ty

def int : Ty := name none "Int"

def bool : Ty := name none "Bool"

def string : Ty := name none "String"

/-- The types that need no definition. -/
def basicNames : List String := ["Bool", "Int", "String"]

/-- Induction over types, with one hypothesis for all fields of a record. -/
theorem induction {motive : Ty → Prop}
    (name : ∀ line x, motive (name line x))
    (all : ∀ line x bounds body, motive body → motive (all line x bounds body))
    (arrow : ∀ line dom cod, motive dom → motive cod → motive (arrow line dom cod))
    (app : ∀ line fn arg, motive fn → motive arg → motive (app line fn arg))
    (list : ∀ line elem, motive elem → motive (list line elem))
    (emptyList : motive emptyList)
    (record : ∀ line fields, (∀ f ∈ fields, motive f.2) → motive (record line fields)) :
    ∀ t, motive t := by
  intro t
  refine @Ty.rec motive (fun fs => ∀ f ∈ fs, motive f.2) (fun f => motive f.2)
    name all arrow app list emptyList record ?_ ?_ ?_ t
  · intro f hf
    cases hf
  · intro f fs hf hfs g hg
    rcases List.mem_cons.mp hg with rfl | hg
    · exact hf
    · exact hfs g hg
  · intro _ _ h
    exact h

end Ty

end TraitCalculus
