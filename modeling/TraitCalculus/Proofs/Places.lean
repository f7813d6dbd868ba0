import Mathlib
import TraitCalculus.Proofs.DictionaryScope

/-! Places in expressions, and what names stand for there. A place is a list of frames, from the
outside in; a name stands for what the innermost binder on the way makes of it, or else the latest
statement before, or else a builtin. -/
namespace TraitCalculus

/-- A node without one of its parts. -/
inductive Frame where
  | lam (n : Note) (x : String) (p : Param)
  | tlam (n : Note) (x : String) (bounds : List String)
  | test (n : Note) (y z : Expr)
  | yes (n : Note) (c z : Expr)
  | no (n : Note) (c y : Expr)
  | left (n : Note) (op : BinOp) (r : Expr)
  | right (n : Note) (op : BinOp) (l : Expr)
  | operand (n : Note) (op : UnOp)
  | fn (n : Note) (a : Expr)
  | arg (n : Note) (f : Expr)
  | typeFn (n : Note) (t : Ty)
  | ascribed (n : Note) (t : Ty)
  | projected (n : Note) (label : String)
  | item (n : Note) (before after : List Expr)
  | field (n : Note) (before : List (String × Expr)) (label : String)
      (after : List (String × Expr))

namespace Frame

/-- The node with the part put in. -/
def fill (e : Expr) : Frame → Expr
  | lam n x p => .lam n x p e
  | tlam n x bounds => .tlam n x bounds e
  | test n y z => .cond n e y z
  | yes n c z => .cond n c e z
  | no n c y => .cond n c y e
  | left n op r => .bin n op e r
  | right n op l => .bin n op l e
  | operand n op => .un n op e
  | fn n a => .app n e a
  | arg n f => .app n f e
  | typeFn n t => .tapp n e t
  | ascribed n t => .ascribe n e t
  | projected n label => .proj n e label
  | item n before after => .list n (before ++ e :: after)
  | field n before label after => .record n (before ++ (label, e) :: after)

/-- The name that the node binds in the part. -/
def binder? : Frame → Option String
  | lam _ x _ => some x
  | tlam _ x _ => some x
  | _ => none

end Frame

/-- A place in an expression, from the outside in. -/
abbrev Place := List Frame

namespace Place

/-- The expression with a part put at the place. -/
def fill (K : Place) (e : Expr) : Expr := K.foldr (fun F e => F.fill e) e

theorem fill_cons (F : Frame) (K : Place) (e : Expr) : fill (F :: K) e = F.fill (K.fill e) := rfl

/-- A node around the place binds the name. -/
def Binds (K : Place) (x : String) : Prop := ∃ F ∈ K, F.binder? = some x

theorem binds_cons {F : Frame} {K : Place} {x : String} :
    Binds (F :: K) x ↔ F.binder? = some x ∨ K.Binds x := by
  simp [Binds]

end Place

/-- Who gave a name its meaning. -/
inductive Origin where
  | builtin (b : Builtin)
  | assigned (e : Expr)
  | announced (trait : String) (type : Ty)
  | param (p : Param)
  | typeVar

/-- What the name stands for. An assignment makes it stand for the type that is noted in its
expression. -/
def Origin.entry? : Origin → Option Entry
  | builtin b => some (.term b.type)
  | assigned e => e.type?.map .term
  | announced _ type => some (.term type)
  | param (.typed t) => some (.term t)
  | param _ => none
  | typeVar => some .type

/-- The origins of the names in scope, the innermost binder first and the latest statement before
earlier ones. -/
abbrev Origins := List (String × Origin)

namespace Origins

def builtins : Origins := Builtin.all.map fun b => (b.name, .builtin b)

/-- The context has what the origins made. -/
def Shows (O : Origins) (Γ : Context) : Prop :=
  ∀ x, Γ.lookup x = (O.lookup x).bind Origin.entry?

theorem shows_builtins : builtins.Shows Context.builtins := by
  intro x
  rw [builtins, Context.builtins]
  induction Builtin.all with
  | nil => rfl
  | cons b bs ih =>
    rw [List.map_cons, List.map_cons, Assoc.lookup_cons_if, Assoc.lookup_cons_if]
    split_ifs with hx
    · rfl
    · exact ih

theorem Shows.cons {O : Origins} {Γ : Context} (h : O.Shows Γ) (x : String) {origin : Origin}
    {entry : Entry} (he : origin.entry? = some entry) :
    Shows ((x, origin) :: O) ((x, entry) :: Γ) := by
  intro y
  rw [Assoc.lookup_cons_if, Assoc.lookup_cons_if]
  split_ifs with hy
  · exact he.symm
  · exact h y

end Origins

/-- The origins inside a node. -/
def Frame.origins (O : Origins) : Frame → Origins
  | lam _ x p => (x, .param p) :: O
  | tlam _ x _ => (x, .typeVar) :: O
  | _ => O

def Place.origins (K : Place) (O : Origins) : Origins := K.foldl (fun O F => F.origins O) O

/-- The origins behind a statement. -/
def Stmt.origins (O : Origins) : Stmt → Origins
  | assign _ x e => (x, .assigned e) :: O
  | field _ x trait type => (x, .announced trait type) :: O
  | _ => O

/-- The origins of globals after the statements. -/
def Origins.after (ss : List Stmt) : Origins := ss.foldl Stmt.origins Origins.builtins

/-- A derivation for a node has one for the part in it. -/
theorem HasType.part {Γ : Context} {O : Origins} {F : Frame} {e : Expr} {t : Ty}
    (hO : O.Shows Γ) (h : HasType Γ (F.fill e) t) :
    ∃ Δ u, HasType Δ e u ∧ (F.origins O).Shows Δ := by
  cases F with
  | lam n x p =>
    cases h with
    | lam hbody => exact ⟨_, _, hbody, hO.cons x rfl⟩
  | tlam n x bounds =>
    cases h with
    | tlam hbody => exact ⟨_, _, hbody, hO.cons x rfl⟩
  | test n y z =>
    cases h with
    | cond hc hy hz => exact ⟨Γ, _, hc, hO⟩
  | yes n c z =>
    cases h with
    | cond hc hy hz => exact ⟨Γ, _, hy, hO⟩
  | no n c y =>
    cases h with
    | cond hc hy hz => exact ⟨Γ, _, hz, hO⟩
  | left n op r =>
    cases h with
    | bin hl hr => exact ⟨Γ, _, hl, hO⟩
  | right n op l =>
    cases h with
    | bin hl hr => exact ⟨Γ, _, hr, hO⟩
  | operand n op =>
    cases h with
    | un he => exact ⟨Γ, _, he, hO⟩
  | fn n a =>
    cases h with
    | app hf ha => exact ⟨Γ, _, hf, hO⟩
  | arg n f =>
    cases h with
    | app hf ha => exact ⟨Γ, _, ha, hO⟩
  | typeFn n t =>
    cases h with
    | tapp hf => exact ⟨Γ, _, hf, hO⟩
  | ascribed n t =>
    cases h with
    | ascribe he => exact ⟨Γ, _, he, hO⟩
  | projected n label =>
    cases h with
    | proj he => exact ⟨Γ, _, he, hO⟩
  | item n before after =>
    have hmem : e ∈ before ++ e :: after := List.mem_append_right _ List.mem_cons_self
    obtain ⟨u, hu⟩ := HasType.elements h e hmem
    exact ⟨Γ, u, hu, hO⟩
  | field n before label after =>
    have hmem : (label, e) ∈ before ++ (label, e) :: after :=
      List.mem_append_right _ List.mem_cons_self
    cases h with
    | record hts =>
      obtain ⟨u, hu⟩ := hts.mem (label, e) hmem
      exact ⟨Γ, u, hu, hO⟩

theorem HasType.place {Γ : Context} {O : Origins} {K : Place} {e : Expr} {t : Ty}
    (hO : O.Shows Γ) (h : HasType Γ (K.fill e) t) :
    ∃ Δ u, HasType Δ e u ∧ (K.origins O).Shows Δ := by
  induction K generalizing Γ O t with
  | nil => exact ⟨Γ, t, h, hO⟩
  | cons F K ih =>
    obtain ⟨Δ, u, hu, hΔ⟩ := HasType.part hO h
    exact ih hΔ hu

/-- The statements before a statement make up the context it is typed in. -/
theorem StmtsHaveTypes.split {Γ : Context} {O : Origins} {pre post : List Stmt} {s : Stmt}
    (hO : O.Shows Γ) (h : StmtsHaveTypes Γ (pre ++ s :: post)) :
    ∃ Δ, StmtsHaveTypes Δ (s :: post) ∧ (pre.foldl Stmt.origins O).Shows Δ := by
  induction pre generalizing Γ O with
  | nil => exact ⟨Γ, h, hO⟩
  | cons s' pre ih =>
    cases h with
    | assign he hss =>
      refine ih (hO.cons _ ?_) hss
      rw [Origin.entry?, he.type?_eq, Option.map_some]
    | eval he hss | inst hss => exact ih hO hss
    | field hss => exact ih (hO.cons _ rfl) hss

end TraitCalculus
