import TraitCalculus.Builtin
import TraitCalculus.Typing.Rule

/-! Typing of expressions. Each node gets a note of its type. `explicit` demands all type
arguments; `infer` finds one that is missing where a quantified function is applied, writes it
into the expression, and types the completed application once more. -/
namespace TraitCalculus

namespace Expr

/-- An expression with its type in its note. -/
def annotate (e : Expr) (t : Ty) : Expr × Ty := (e.withType t, t)

/-- How an application is typed: from its note, the function and the argument, both typed. -/
abbrev AppRule := Scope Entry → Note → Expr × Ty → Expr × Ty → Typing (Expr × Ty)

mutual

/-- Types an expression, applications by the rule `rule`. -/
def typeWith (rule : AppRule) (Γ : Scope Entry) : Expr → Typing (Expr × Ty)
  | lam n x p body =>
    match p with
    | .typed t => do
      let (body, s) ← body.typeWith rule (Γ.extend x (.term t))
      return annotate (lam n x p body) (.arrow none t s)
    | _ => Typing.fail n.line (.untyped x)
  | tlam n x bounds body => do
    Typing.assume (.name none x) bounds
    let (body, s) ← body.typeWith rule (Γ.extend x .type)
    Typing.release bounds
    return annotate (tlam n x bounds body) (.all none x bounds s)
  | cond n c y z => do
    let (c, s) ← c.typeWith rule Γ
    let (y, t) ← y.typeWith rule Γ
    let (z, u) ← z.typeWith rule Γ
    return annotate (cond n c y z) (← Rule.cond n.line s t u)
  | bin n op l r => do
    let (l, s) ← l.typeWith rule Γ
    let (r, t) ← r.typeWith rule Γ
    return annotate (bin n op l r) (← Rule.bin n.line op s t)
  | un n op e => do
    let (e, t) ← e.typeWith rule Γ
    return annotate (un n op e) (← Rule.un n.line op t)
  | app n f a => do
    let f ← f.typeWith rule Γ
    let a ← a.typeWith rule Γ
    rule Γ n f a
  | tapp n f t => do
    let (f, s) ← f.typeWith rule Γ
    return annotate (tapp n f t) (← Rule.tapp n.line f s t)
  | ascribe n e t => do
    let (e, s) ← e.typeWith rule Γ
    return annotate (ascribe n e t) (← Rule.ascribe n.line t s)
  | proj n e label => do
    let (e, t) ← e.typeWith rule Γ
    return annotate (proj n e label) (← Rule.proj n.line t label)
  | var n x => do return annotate (var n x) (← Rule.var Γ n.line x)
  | val n v => return annotate (val n v) (Rule.lit v)
  | list n es =>
    match es with
    | [] => return annotate (list n []) .emptyList
    | e :: es => do
      let (e, t) ← e.typeWith rule Γ
      let es ← typeItems rule Γ t es
      return annotate (list n (e :: es)) (.list none t)
  | record n fs => do
    let (fs, ts) ← typeFields rule Γ fs
    return annotate (record n fs) (.record none ts)

/-- Types list elements, which all have to have the type `t`. -/
def typeItems (rule : AppRule) (Γ : Scope Entry) (t : Ty) : List Expr → Typing (List Expr)
  | [] => return []
  | e :: es => do
    let (e', s) ← e.typeWith rule Γ
    if t.same s then return e' :: (← typeItems rule Γ t es)
    else Typing.fail e.line (.mismatch t s)

def typeFields (rule : AppRule) (Γ : Scope Entry) :
    List (String × Expr) → Typing (List (String × Expr) × List (String × Ty))
  | [] => return ([], [])
  | (label, e) :: fs => do
    let (e, t) ← e.typeWith rule Γ
    let (fs, ts) ← typeFields rule Γ fs
    return ((label, e) :: fs, (label, t) :: ts)

end

/-- An application without inference. -/
def explicitApp : AppRule := fun _ n f a => do
  return annotate (app n f.1 a.1) (← Rule.app n.line f.2 a.2)

/-- Types an expression with all type arguments in place. -/
def explicit (Γ : Scope Entry) (e : Expr) : Typing (Expr × Ty) := e.typeWith explicitApp Γ

/-- An application with inference. If the function is quantified, its variable is matched with
the argument's type, and function and argument are typed again with the type argument in place. -/
def inferApp : AppRule := fun Γ n f a =>
  match f.2 with
  | .all _ x _ (.arrow _ dom _) =>
    match dom.unify x a.2 with
    | some t => do
      let f ← explicit Γ (tapp ⟨n.line, none⟩ f.1 t)
      let a ← explicit Γ a.1
      explicitApp Γ n f a
    | none => Typing.fail n.line (.noInstantiation f.2 a.2)
  | _ => explicitApp Γ n f a

/-- Types an expression, and finds missing type arguments. -/
def infer (Γ : Scope Entry) (e : Expr) : Typing (Expr × Ty) := e.typeWith inferApp Γ

end Expr

/-- The scope a program starts in. -/
def Scope.builtins : Scope Entry :=
  ⟨Builtin.all.map fun b => (b.name, .term b.type), []⟩

end TraitCalculus
