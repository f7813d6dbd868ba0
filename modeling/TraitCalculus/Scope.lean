import TraitCalculus.Assoc

/-! Nested scopes. A name is looked up from the innermost frame outwards. -/
namespace TraitCalculus

/-- The innermost frame, and those around it from the inside out. -/
structure Scope (α : Type) where
  frame : List (String × α) := []
  outer : List (List (String × α)) := []
deriving Repr

namespace Scope

variable {α : Type}

/-- Opens an empty frame. -/
def push (s : Scope α) : Scope α := ⟨[], s.frame :: s.outer⟩

/-- Closes the innermost frame; the outermost one stays. -/
def pop (s : Scope α) : Scope α :=
  match s.outer with
  | [] => s
  | f :: fs => ⟨f, fs⟩

/-- Binds a name in the innermost frame. -/
def set (s : Scope α) (x : String) (a : α) : Scope α := { s with frame := Assoc.insert x a s.frame }

/-- The binding in the innermost frame that has one. -/
def get? (s : Scope α) (x : String) : Option α :=
  (s.frame :: s.outer).findSome? (·.lookup x)

/-- A scope with one more frame, which binds one name. -/
def extend (s : Scope α) (x : String) (a : α) : Scope α := s.push.set x a

theorem pop_push (s : Scope α) : s.push.pop = s := rfl

theorem get?_extend_self (s : Scope α) (x : String) (a : α) : (s.extend x a).get? x = some a := by
  simp [extend, push, set, get?, Assoc.insert]

theorem get?_extend_of_ne (s : Scope α) {x y : String} (a : α) (h : y ≠ x) :
    (s.extend x a).get? y = s.get? y := by
  have : (y == x) = false := by simpa using h
  simp [extend, push, set, get?, Assoc.insert, this, List.lookup_cons, List.findSome?_cons]

end Scope

end TraitCalculus
