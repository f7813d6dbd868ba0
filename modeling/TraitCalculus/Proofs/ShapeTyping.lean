import Mathlib
import TraitCalculus.Proofs.DictionaryFitting
import TraitCalculus.Proofs.FilledTypes

/-! Types of expressions at run time. A shape has closed types only; it has a quantified type if it
has each instance of it, and a dictionary of a trait at a type is a record with the fields that the
trait says. A reduced shape with a type is a value: none of the forms that evaluation leaves as
they are when it cannot reduce them has a type. -/
namespace TraitCalculus

namespace Nameless

abbrev bool : Nameless := .free "Bool"

abbrev int : Nameless := .free "Int"

abbrev string : Nameless := .free "String"

end Nameless

/-- The type of a literal. -/
def Value.type : Value → Nameless
  | int _ => .int
  | text _ => .string
  | bool _ => .bool

theorem Value.bool_of_type {v : Value} (h : v.type = .bool) : ∃ b, v = bool b := by
  cases v with
  | bool b => exact ⟨b, rfl⟩
  | int | text => exact absurd (Nameless.free.inj h) (by decide)

theorem Value.int_of_type {v : Value} (h : v.type = .int) : ∃ n, v = int n := by
  cases v with
  | int n => exact ⟨n, rfl⟩
  | bool | text => exact absurd (Nameless.free.inj h) (by decide)

theorem Value.text_of_type {v : Value} (h : v.type = .string) : ∃ s, v = text s := by
  cases v with
  | text s => exact ⟨s, rfl⟩
  | bool | int => exact absurd (Nameless.free.inj h) (by decide)

/-- The operator is for operands of this type. Only literals are compared. -/
def BinOp.Takes : BinOp → Nameless → Prop
  | .or, A | .and, A => A = .bool
  | .eq, A | .neq, A => ∃ x ∈ Ty.basicNames, A = .free x
  | .add, A => A = .int ∨ A = .string ∨ A = .emptyList ∨ ∃ B, A = .list B
  | _, A => A = .int

/-- The type that the operator gives. -/
def BinOp.result : BinOp → Nameless → Nameless
  | .add, A | .sub, A | .mul, A | .div, A | .mod, A => A
  | _, _ => .bool

/-- Operands are literals, or they are lists to be joined. -/
theorem BinOp.Takes.literals_or_lists {op : BinOp} {A : Nameless} (h : op.Takes A) :
    (∃ x, A = .free x) ∨ op = .add ∧ (A = .emptyList ∨ ∃ B, A = .list B) := by
  cases op with
  | add =>
    rcases h with rfl | rfl | hlist
    · exact Or.inl ⟨_, rfl⟩
    · exact Or.inl ⟨_, rfl⟩
    · exact Or.inr ⟨rfl, hlist⟩
  | eq | neq =>
    obtain ⟨x, -, rfl⟩ := h
    exact Or.inl ⟨x, rfl⟩
  | _ => exact Or.inl ⟨_, h⟩

def UnOp.type : UnOp → Nameless
  | .not => .bool
  | .neg => .int

/-- The types of builtins, those of `head`, `tail` and `cons` for each type of elements. -/
inductive Builtin.Has : Builtin → Nameless → Prop
  | print : Has .print (.arrow .string .string)
  | println : Has .println (.arrow .string .string)
  | read : Has .read .string
  | stringToInt : Has .stringToInt (.arrow .string .int)
  | intToString : Has .intToString (.arrow .int .string)
  | head (A : Nameless) : Has .head (.arrow (.list A) A)
  | tail (A : Nameless) : Has .tail (.arrow (.list A) (.list A))
  | cons (A : Nameless) : Has .cons (.arrow A (.arrow (.list A) (.list A)))

/-- The types of globals, and of the fields of traits, by trait and label. The type of a field has
the bound variable `0` for the trait's parameter. -/
structure Signature where
  globals : List (String × Nameless)
  fields : List ((String × String) × Nameless)

/-- A record with these fields is a dictionary of the trait at the type `S`. -/
def Signature.Serves (W : Signature) (trait : String) (S : Nameless)
    (fields : List (String × Nameless)) : Prop :=
  ∀ label T, W.fields.lookup (trait, label) = some T → fields.lookup label = some (T.inst S 0)

/-- No global has the name of a builtin. -/
def Signature.Sound (W : Signature) : Prop :=
  ∀ x A, W.globals.lookup x = some A → Builtin.ofName? x = none

namespace Shape

mutual

/-- The shape has the type by the rule of its form. `Δ` gives the types of variables, the innermost
first. -/
inductive Formed (W : Signature) : List Nameless → Shape → Nameless → Prop
  | bound {Δ : List Nameless} {i : Nat} {A : Nameless} (h : Δ[i]? = some A) :
      Formed W Δ (.bound i) A
  | global {Δ : List Nameless} {x : String} {A : Nameless} (h : W.globals.lookup x = some A) :
      Formed W Δ (.free x) A
  | builtin {Δ : List Nameless} {x : String} {b : Builtin} {A : Nameless}
      (hb : Builtin.ofName? x = some b) (h : b.Has A) : Formed W Δ (.free x) A
  | lam {Δ : List Nameless} {s : Shape} {A B : Nameless} (h : Typed W (A :: Δ) s B) :
      Formed W Δ (.node .lam [s]) (.arrow A B)
  | tlam {Δ : List Nameless} {x : String} {bounds : List String} {s : Shape} {A : Nameless}
      (h : Typed W Δ s A) : Formed W Δ (.node (.tlam x bounds) [s]) A
  | cond {Δ : List Nameless} {c y z : Shape} {A : Nameless} (hc : Typed W Δ c .bool)
      (hy : Typed W Δ y A) (hz : Typed W Δ z A) : Formed W Δ (.node .cond [c, y, z]) A
  | bin {Δ : List Nameless} {op : BinOp} {l r : Shape} {A : Nameless} (hop : op.Takes A)
      (hl : Typed W Δ l A) (hr : Typed W Δ r A) :
      Formed W Δ (.node (.bin op) [l, r]) (op.result A)
  | un {Δ : List Nameless} {op : UnOp} {s : Shape} (h : Typed W Δ s op.type) :
      Formed W Δ (.node (.un op) [s]) op.type
  | app {Δ : List Nameless} {f a : Shape} {A B : Nameless} (hf : Typed W Δ f (.arrow A B))
      (ha : Typed W Δ a A) : Formed W Δ (.node .app [f, a]) B
  | tapp {Δ : List Nameless} {s : Shape} {t : Ty} {bounds : List String} {A S : Nameless}
      (hS : S.Below 0) (h : Typed W Δ s (.all bounds A)) :
      Formed W Δ (.node (.tapp t) [s]) (.taking bounds S (A.inst S 0))
  | ascribe {Δ : List Nameless} {s : Shape} {t : Ty} {A : Nameless} (h : Typed W Δ s A) :
      Formed W Δ (.node (.ascribe t) [s]) A
  | proj {Δ : List Nameless} {s : Shape} {label : String} {fields : List (String × Nameless)}
      {A : Nameless} (h : Typed W Δ s (.record fields)) (hl : fields.lookup label = some A) :
      Formed W Δ (.node (.proj label) [s]) A
  | field {Δ : List Nameless} {s : Shape} {label trait : String} {S T : Nameless}
      (h : Typed W Δ s (.app (.free trait) S))
      (hl : W.fields.lookup (trait, label) = some T) :
      Formed W Δ (.node (.proj label) [s]) (T.inst S 0)
  | val {Δ : List Nameless} {v : Value} : Formed W Δ (.node (.val v) []) v.type
  | nil {Δ : List Nameless} : Formed W Δ (.node .list []) .emptyList
  | list {Δ : List Nameless} {parts : List Shape} {A : Nameless}
      (h : ∀ s ∈ parts, Typed W Δ s A) : Formed W Δ (.node .list parts) (.list A)
  | record {Δ : List Nameless} {labels : List String} {parts : List Shape} {As : List Nameless}
      {fields : List (String × Nameless)} (hlen : parts.length = As.length)
      (h : ∀ s A, (s, A) ∈ parts.zip As → Typed W Δ s A)
      (hfields : ∀ label, fields.lookup label = (labels.zip As).lookup label) :
      Formed W Δ (.node (.record labels) parts) (.record fields)

/-- The shape has the type, which may be quantified or that of a dictionary. -/
inductive Typed (W : Signature) : List Nameless → Shape → Nameless → Prop
  | form {Δ : List Nameless} {s : Shape} {A : Nameless} (h : Formed W Δ s A) : Typed W Δ s A
  | all {Δ : List Nameless} {s : Shape} {bounds : List String} {A : Nameless}
      (h : ∀ S, S.Below 0 → Typed W Δ s (.taking bounds S (A.inst S 0))) :
      Typed W Δ s (.all bounds A)
  | dict {Δ : List Nameless} {s : Shape} {trait : String} {S : Nameless}
      {fields : List (String × Nameless)} (h : Typed W Δ s (.record fields))
      (hS : W.Serves trait S fields) : Typed W Δ s (.app (.free trait) S)

end

theorem forall₂_singleton {α β : Type} {R : α → β → Prop} {a : α} {bs : List β}
    (h : List.Forall₂ R [a] bs) : ∃ b, R a b ∧ bs = [b] := by
  obtain ⟨b, rest, hab, hrest, rfl⟩ := List.forall₂_cons_left_iff.mp h
  exact ⟨b, hab, by rw [List.forall₂_nil_left_iff.mp hrest]⟩

theorem forall₂_pair {α β : Type} {R : α → β → Prop} {a a' : α} {bs : List β}
    (h : List.Forall₂ R [a, a'] bs) : ∃ b b', R a b ∧ R a' b' ∧ bs = [b, b'] := by
  obtain ⟨b, rest, hab, hrest, rfl⟩ := List.forall₂_cons_left_iff.mp h
  obtain ⟨b', hab', rfl⟩ := forall₂_singleton hrest
  exact ⟨b, b', hab, hab', rfl⟩

variable {W : Signature} {Δ Δ' : List Nameless} {s : Shape} {A B : Nameless}

/-- What holds for the types that a shape has by its form, and for quantified types and those of
dictionaries if it does for what they rest on, holds for all types of the shape. -/
theorem Typed.elim {P : Nameless → Prop} (form : ∀ A, Formed W Δ s A → P A)
    (all : ∀ bounds A, (∀ S, S.Below 0 → P (.taking bounds S (A.inst S 0))) → P (.all bounds A))
    (dict : ∀ trait S fields, W.Serves trait S fields → P (.record fields) →
      P (.app (.free trait) S)) : ∀ {A : Nameless}, Typed W Δ s A → P A
  | _, .form h => form _ h
  | _, .all h => all _ _ fun S hS => Typed.elim form all dict (h S hS)
  | _, .dict h hS => dict _ _ _ hS (Typed.elim form all dict h)

/-- What does not depend on the type. -/
theorem Typed.elim_form {P : Prop} (form : ∀ A, Formed W Δ s A → P) (h : Typed W Δ s A) : P :=
  h.elim form (fun _ _ hall => hall .emptyList trivial) fun _ _ _ _ hrecord => hrecord

/-- One type of a shape from another, if it is so by form. -/
theorem Typed.transfer {s' : Shape} (h : Typed W Δ s A)
    (form : ∀ A, Formed W Δ s A → Typed W Δ' s' A) : Typed W Δ' s' A :=
  h.elim form (fun _ _ hall => .all hall) fun _ _ _ hS hrecord => .dict hrecord hS

/-- Forms that bind nothing keep their type if the parts keep theirs. -/
theorem Formed.congr {form : Form} {parts parts' : List Shape}
    (h : Formed W Δ (.node form parts) A) (hform : form ≠ .lam)
    (hparts : List.Forall₂ (fun s s' => ∀ B, Typed W Δ s B → Typed W Δ' s' B) parts parts') :
    Formed W Δ' (.node form parts') A := by
  cases h with
  | lam => exact absurd rfl hform
  | tlam h =>
    obtain ⟨s', hs, rfl⟩ := forall₂_singleton hparts
    exact .tlam (hs _ h)
  | cond hc hy hz =>
    cases hparts with
    | cons hsc hrest =>
      obtain ⟨y', z', hsy, hsz, rfl⟩ := forall₂_pair hrest
      exact .cond (hsc _ hc) (hsy _ hy) (hsz _ hz)
  | bin hop hl hr =>
    obtain ⟨l', r', hsl, hsr, rfl⟩ := forall₂_pair hparts
    exact .bin hop (hsl _ hl) (hsr _ hr)
  | un h =>
    obtain ⟨s', hs, rfl⟩ := forall₂_singleton hparts
    exact .un (hs _ h)
  | app hf ha =>
    obtain ⟨f', a', hsf, hsa, rfl⟩ := forall₂_pair hparts
    exact .app (hsf _ hf) (hsa _ ha)
  | tapp hS h =>
    obtain ⟨s', hs, rfl⟩ := forall₂_singleton hparts
    exact .tapp hS (hs _ h)
  | ascribe h =>
    obtain ⟨s', hs, rfl⟩ := forall₂_singleton hparts
    exact .ascribe (hs _ h)
  | proj h hl =>
    obtain ⟨s', hs, rfl⟩ := forall₂_singleton hparts
    exact .proj (hs _ h) hl
  | field h hl =>
    obtain ⟨s', hs, rfl⟩ := forall₂_singleton hparts
    exact .field (hs _ h) hl
  | val =>
    cases hparts
    exact .val
  | nil =>
    cases hparts
    exact .nil
  | list h => exact .list (Expr.forall_mem_of_forall₂ hparts h fun s s' hs => hs _)
  | record hlen h hfields =>
    exact .record (hparts.length_eq.symm.trans hlen)
      (Expr.forall_zip_of_forall₂ hparts h fun s s' A hs => hs A) hfields

/-- All parts of a form that binds nothing have types. -/
theorem Typed.parts {form : Form} {parts : List Shape} (h : Typed W Δ (.node form parts) A)
    (hform : form ≠ .lam) : ∀ s ∈ parts, ∃ B, Typed W Δ s B := by
  refine h.elim_form fun A hA => ?_
  cases hA with
  | lam => exact absurd rfl hform
  | tlam hs | un hs | tapp _ hs | ascribe hs | proj hs | field hs =>
    exact List.forall_mem_singleton.mpr ⟨_, hs⟩
  | cond hc hy hz =>
    exact List.forall_mem_cons.mpr ⟨⟨_, hc⟩,
      List.forall_mem_cons.mpr ⟨⟨_, hy⟩, List.forall_mem_singleton.mpr ⟨_, hz⟩⟩⟩
  | bin _ hl hr | app hl hr =>
    exact List.forall_mem_cons.mpr ⟨⟨_, hl⟩, List.forall_mem_singleton.mpr ⟨_, hr⟩⟩
  | val | nil => exact fun s hs => nomatch hs
  | list hparts => exact fun s hs => ⟨_, hparts s hs⟩
  | record hlen hparts =>
    intro s hs
    obtain ⟨B, hB⟩ := Expr.Fits.exists_mem_zip hlen hs
    exact ⟨B, hparts s B hB⟩

/-- Under more lambdas. -/
theorem Typed.weaken (h : Typed W Δ s A) (Δ' : List Nameless) : Typed W (Δ ++ Δ') s A := by
  induction s using Shape.induction generalizing Δ A with
  | bound i =>
    refine h.transfer fun A hA => ?_
    cases hA with
    | bound hi =>
      have hlt : i < Δ.length := (List.getElem?_eq_some_iff.mp hi).1
      exact .form (.bound (by rw [List.getElem?_append_left hlt, hi]))
  | free x =>
    refine h.transfer fun A hA => ?_
    cases hA with
    | global hx => exact .form (.global hx)
    | builtin hb hA => exact .form (.builtin hb hA)
  | node form parts ih =>
    refine h.transfer fun A hA => .form ?_
    by_cases hform : form = .lam
    · subst hform
      cases hA with
      | lam hbody => exact .lam (ih _ List.mem_cons_self hbody)
    · exact hA.congr hform (List.forall₂_same.mpr fun s hs B hB => ih s hs hB)

end Shape

namespace Expr

variable {W : Signature}

/-- To replace the outermost variable by a closed shape of its type. -/
theorem typed_open (e : Expr) {Δ : List Nameless} {xs : List String} {x : String} {new : Shape}
    {A B : Nameless} (hlen : xs.length = Δ.length) (hnew : Shape.Typed W [] new A)
    (h : Shape.Typed W (Δ ++ [A]) (e.shape (xs ++ [x])) B) :
    Shape.Typed W Δ ((e.shape xs).subst x new) B := by
  induction e using Expr.induct_form generalizing Δ xs B with
  | var n y =>
    refine h.transfer fun B hB => ?_
    simp only [shape, List.mem_append, List.mem_singleton] at hB ⊢
    by_cases hy : y ∈ xs
    · rw [if_pos (Or.inl hy), List.idxOf_append_of_mem hy] at hB
      rw [if_pos hy, Shape.subst]
      cases hB with
      | bound hi =>
        have hlt : xs.idxOf y < Δ.length := hlen ▸ List.idxOf_lt_length_of_mem hy
        rw [List.getElem?_append_left hlt] at hi
        exact .form (.bound hi)
    · rw [if_neg hy, Shape.subst]
      by_cases hyx : y = x
      · -- the variable itself
        rw [if_pos (Or.inr hyx), List.idxOf_append_of_notMem hy, hyx, List.idxOf_cons_self] at hB
        rw [if_pos hyx]
        cases hB with
        | bound hi =>
          rw [Nat.add_zero, hlen, List.getElem?_concat_length] at hi
          obtain rfl := Option.some.inj hi
          exact hnew.weaken Δ
      · rw [if_neg (not_or.mpr ⟨hy, hyx⟩)] at hB
        rw [if_neg hyx]
        cases hB with
        | global hx => exact .form (.global hx)
        | builtin hb hA => exact .form (.builtin hb hA)
  | lam n y p body ih =>
    refine h.transfer fun B hB => ?_
    cases hB with
    | @lam _ _ A' B' hbody =>
      have hin : Shape.Typed W (A' :: Δ) ((body.shape (y :: xs)).subst x new) B' :=
        ih (by simpa using hlen) hbody
      exact .form (.lam hin)
  | form e f hf ih =>
    have hlam : f ≠ .lam := by
      rintro rfl
      cases e <;> cases hf
    refine h.transfer fun B hB => .form ?_
    rw [shape_of_form hf, Shape.subst, Shape.substParts_eq, List.map_map]
    rw [shape_of_form hf] at hB
    refine hB.congr hlam ?_
    rw [List.forall₂_map_left_iff, List.forall₂_map_right_iff, List.forall₂_same]
    exact fun d hd C hC => ih d hd hlen hC

end Expr

namespace Shape

/-- Functions, literals, lists and records. -/
inductive Canonical : Shape → Prop
  | lam {parts : List Shape} : Canonical (node .lam parts)
  | val {v : Value} {parts : List Shape} : Canonical (node (.val v) parts)
  | builtin {x : String} {b : Builtin} (hx : Builtin.ofName? x = some b) (hread : b ≠ .read)
      (hcons : b ≠ .cons) : Canonical (free x)
  | list {parts : List Shape} : Canonical (node .list parts)
  | record {labels : List String} {parts : List Shape} : Canonical (node (.record labels) parts)

section Values

/-- A value and a type that it has by its form. -/
inductive Held (W : Signature) (Δ : List Nameless) : Shape → Nameless → Prop
  | lam {s : Shape} {A B : Nameless} (h : Typed W (A :: Δ) s B) :
      Held W Δ (.node .lam [s]) (.arrow A B)
  | builtin {x : String} {b : Builtin} {A B : Nameless} (hx : Builtin.ofName? x = some b)
      (h : b.Has (.arrow A B)) : Held W Δ (.free x) (.arrow A B)
  | literal {v : Value} {x : String} (h : v.type = .free x) :
      Held W Δ (.node (.val v) []) (.free x)
  | nil : Held W Δ (.node .list []) .emptyList
  | list {parts : List Shape} {A : Nameless} (h : ∀ s ∈ parts, Typed W Δ s A) :
      Held W Δ (.node .list parts) (.list A)
  | record {labels : List String} {parts : List Shape} {As : List Nameless}
      {fields : List (String × Nameless)} (hlen : parts.length = As.length)
      (h : ∀ s A, (s, A) ∈ parts.zip As → Typed W Δ s A)
      (hfields : ∀ label, fields.lookup label = (labels.zip As).lookup label) :
      Held W Δ (.node (.record labels) parts) (.record fields)

variable {W : Signature} {Δ : List Nameless} {s : Shape} {A B S : Nameless}

theorem Formed.builtin_inv (hW : W.Sound) {x : String} {b : Builtin}
    (hx : Builtin.ofName? x = some b) (h : Formed W Δ (.free x) A) : b.Has A := by
  cases h with
  | global hg =>
    rw [hW x A hg] at hx
    cases hx
  | builtin hb hA =>
    obtain rfl := Option.some.inj (hx.symm.trans hb)
    exact hA

theorem Formed.held (hW : W.Sound) (hs : Canonical s) (h : Formed W Δ s A) : Held W Δ s A := by
  cases hs with
  | lam =>
    cases h with
    | lam h => exact .lam h
  | @val v _ =>
    cases h
    cases v <;> exact .literal rfl
  | builtin hx hread =>
    cases h.builtin_inv hW hx with
    | read => exact absurd rfl hread
    | print => exact .builtin hx .print
    | println => exact .builtin hx .println
    | stringToInt => exact .builtin hx .stringToInt
    | intToString => exact .builtin hx .intToString
    | head A => exact .builtin hx (.head A)
    | tail A => exact .builtin hx (.tail A)
    | cons A => exact .builtin hx (.cons A)
  | list =>
    cases h with
    | nil => exact .nil
    | list h => exact .list h
  | record =>
    cases h with
    | record hlen h hfields => exact .record hlen h hfields

/-- A value of a quantified type has each instance of it. -/
theorem Typed.instance_of (hW : W.Sound) (hs : Canonical s) {bounds : List String}
    (h : Typed W Δ s (.all bounds A)) (hS : S.Below 0) :
    Typed W Δ s (.taking bounds S (A.inst S 0)) := by
  cases h with
  | form h => cases h.held hW hs
  | all hall => exact hall S hS

/-- A value of the type of a dictionary is a record that serves as one. -/
theorem Typed.dict_of (hW : W.Sound) (hs : Canonical s) {trait : String}
    (h : Typed W Δ s (.app (.free trait) S)) :
    ∃ fields, W.Serves trait S fields ∧ Typed W Δ s (.record fields) := by
  cases h with
  | form h => cases h.held hW hs
  | dict h hS => exact ⟨_, hS, h⟩

theorem Typed.literal_of (hW : W.Sound) (hs : Canonical s) {x : String}
    (h : Typed W Δ s (.free x)) : ∃ v : Value, s = .node (.val v) [] ∧ v.type = .free x := by
  cases h with
  | form h =>
    cases h.held hW hs with
    | literal hv => exact ⟨_, rfl, hv⟩

theorem Typed.bool_of (hW : W.Sound) (hs : Canonical s) (h : Typed W Δ s .bool) :
    ∃ b, s = .node (.val (.bool b)) [] := by
  obtain ⟨v, rfl, hv⟩ := h.literal_of hW hs
  obtain ⟨b, rfl⟩ := Value.bool_of_type hv
  exact ⟨b, rfl⟩

theorem Typed.isFunction (hW : W.Sound) (hs : Canonical s) (h : Typed W Δ s (.arrow A B)) :
    s.isFunction = true := by
  cases h with
  | form h =>
    cases h.held hW hs with
    | lam => rfl
    | builtin hx => simp [Shape.isFunction, hx]

theorem Typed.isRecord (hW : W.Sound) (hs : Canonical s) {fields : List (String × Nameless)}
    (h : Typed W Δ s (.record fields)) : s.isRecord = true := by
  cases h with
  | form h =>
    cases h.held hW hs with
    | record => rfl

/-- Lists to be joined. -/
theorem Typed.isList (hW : W.Sound) (hs : Canonical s) (hA : A = .emptyList ∨ ∃ B, A = .list B)
    (h : Typed W Δ s A) : s.isList = true := by
  rcases hA with rfl | ⟨B, rfl⟩
  · cases h with
    | form h =>
      cases h.held hW hs with
      | nil => rfl
  · cases h with
    | form h =>
      cases h.held hW hs with
      | list => rfl

/-- An operator does something with two literals that it is for. -/
theorem stuck_literals {op : BinOp} {v w : Value} (hop : op.Takes A) (hv : v.type = A)
    (hw : w.type = A) (hd : decides op (.node (.val v) []) = false) :
    stuck op (.node (.val v) []) (.node (.val w) []) = false := by
  cases op with
  | or | and =>
    obtain ⟨b, rfl⟩ := Value.bool_of_type (hv.trans hop)
    obtain ⟨c, rfl⟩ := Value.bool_of_type (hw.trans hop)
    clear hv hw
    revert b c
    decide
  | _ => simp [stuck, lit?]

/-- What is reduced and has a type is a value. -/
theorem Typed.canonical (hW : W.Sound) (hs : s.Reduced) (h : Typed W [] s A) : Canonical s := by
  induction hs generalizing A with
  | lam => exact .lam
  | val => exact .val
  | builtin hx hread hcons => exact .builtin hx hread hcons
  | list => exact .list
  | record => exact .record
  | cond _ _ _ hnone ihc =>
    refine h.elim_form fun A hA => ?_
    cases hA with
    | cond hc =>
      obtain ⟨b, rfl⟩ := hc.bool_of hW (ihc hc)
      cases hnone
  | bin _ _ hd hstuck ihl ihr =>
    refine h.elim_form fun A hA => ?_
    cases hA with
    | bin hop hl hr =>
      rcases hop.literals_or_lists with ⟨x, rfl⟩ | ⟨rfl, hlist⟩
      · obtain ⟨v, rfl, hv⟩ := hl.literal_of hW (ihl hl)
        obtain ⟨w, rfl, hw⟩ := hr.literal_of hW (ihr hr)
        rw [stuck_literals hop hv hw hd] at hstuck
        cases hstuck
      · simp [stuck, hl.isList hW (ihl hl) hlist, hr.isList hW (ihr hr) hlist, BinOp.level]
          at hstuck
  | @un op s _ hstuck ih =>
    refine h.elim_form fun A hA => ?_
    cases hA with
    | un hs =>
      cases op with
      | not =>
        obtain ⟨b, rfl⟩ := hs.bool_of hW (ih hs)
        cases hstuck
      | neg =>
        obtain ⟨n, rfl, -⟩ := hs.literal_of hW (ih hs)
        cases hstuck
  | app _ _ hstuck ihf =>
    refine h.elim_form fun A hA => ?_
    cases hA with
    | app hf =>
      rw [hf.isFunction hW (ihf hf)] at hstuck
      cases hstuck
  | proj _ hstuck ih =>
    refine h.elim_form fun A hA => ?_
    cases hA with
    | proj hs =>
      rw [hs.isRecord hW (ih hs)] at hstuck
      cases hstuck
    | field hs =>
      obtain ⟨fields, -, hrecord⟩ := hs.dict_of hW (ih hs)
      rw [hrecord.isRecord hW (ih hs)] at hstuck
      cases hstuck

end Values

end Shape

end TraitCalculus
