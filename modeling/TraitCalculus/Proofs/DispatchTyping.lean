import Mathlib
import TraitCalculus.Proofs.DictionaryPassing
import TraitCalculus.Proofs.ShapeTyping
import TraitCalculus.Proofs.TypeSoundness

/-! Dispatch keeps types. What dispatch leaves of an expression has the expression's type at run
time, for all closed types that its type variables may stand for: dictionary parameters have the
types of dictionaries for their variables, and what the table gives for a type is a dictionary for
this type. The types have to be exact, so that types that count as the same are equal. -/
namespace TraitCalculus

namespace Dictionaries

theorem paramName_number_inj {F F' : String} {j k : Nat} (h : paramName F j = paramName F' k) :
    j = k := by
  have hl := congrArg String.toList h
  rw [toList_paramName, toList_paramName, paramName_trait_inj h] at hl
  have htail := List.append_cancel_left hl
  exact Nat.repr_injective (String.toList_injective (List.cons.inj htail).2)

/-- An entry of the table for a dictionary parameter with this variable and number. -/
def IsParam (x : String) (j : Nat) (entry : String × Ty × Expr) : Prop :=
  entry.2 = (.name none x, .var .blank (paramName entry.1 j))

/-- The table `d'` has all that `d` has and more dictionary parameters, with higher numbers. -/
structure Grown (d d' : Dictionaries) : Prop where
  params : d.params ≤ d'.params
  known : ∀ entry ∈ d'.known, entry ∈ d.known ∨
    ∃ x j, d.params < j ∧ j ≤ d'.params ∧ IsParam x j entry

namespace Grown

theorem refl (d : Dictionaries) : Grown d d := ⟨le_rfl, fun _ h => Or.inl h⟩

theorem trans {d d₁ d₂ : Dictionaries} (h : Grown d d₁) (h' : Grown d₁ d₂) : Grown d d₂ := by
  refine ⟨h.params.trans h'.params, fun entry hentry => ?_⟩
  rcases h'.known entry hentry with hold | ⟨x, j, hlt, hle, hparam⟩
  · rcases h.known entry hold with hold | ⟨x, j, hlt, hle, hparam⟩
    · exact Or.inl hold
    · exact Or.inr ⟨x, j, hlt, hle.trans h'.params, hparam⟩
  · exact Or.inr ⟨x, j, h.params.trans_lt hlt, hle, hparam⟩

end Grown

/-- The parameters that a type lambda opens, and their entries. -/
theorem opened_spec (x : String) (traits : List String) (d : Dictionaries) :
    d.params ≤ (opened x traits d).2.params ∧
      (∀ y ∈ (opened x traits d).1, ∃ trait j, d.params < j ∧ j ≤ (opened x traits d).2.params ∧
        y = paramName trait j) ∧
      ∀ entry ∈ (opened x traits d).2.known, entry ∈ d.known ∨
        ∃ j, d.params < j ∧ j ≤ (opened x traits d).2.params ∧ IsParam x j entry := by
  induction traits generalizing d with
  | nil => exact ⟨le_rfl, fun y hy => (nomatch hy), fun entry h => Or.inl h⟩
  | cons trait traits ih =>
    obtain ⟨hle, hnames, hknown⟩ := ih ⟨d.params + 1,
      (trait, .name none x, .var .blank (paramName trait (d.params + 1))) :: d.known⟩
    have hnext : d.params < d.params + 1 := Nat.lt_succ_self d.params
    refine ⟨hnext.le.trans hle, ?_, fun entry hentry => ?_⟩
    · refine List.forall_mem_cons.mpr ⟨⟨trait, d.params + 1, hnext, hle, rfl⟩, fun y hy => ?_⟩
      obtain ⟨T, j, hlt, hj, rfl⟩ := hnames y hy
      exact ⟨T, j, hnext.trans hlt, hj, rfl⟩
    · rcases hknown entry hentry with hold | ⟨j, hlt, hj, hparam⟩
      · rcases List.mem_cons.mp hold with rfl | hold
        · exact Or.inr ⟨d.params + 1, hnext, hle, rfl⟩
        · exact Or.inl hold
      · exact Or.inr ⟨j, hnext.trans hlt, hj, hparam⟩

/-- The computation only adds dictionary parameters to the table. -/
def Grows {α : Type} (c : Dispatch α) : Prop :=
  ∀ (d d' : Dictionaries) (a : α), c.run d = .ok (a, d') → Grown d d'

namespace Grows

variable {α β : Type}

theorem pure (a : α) : Grows (Pure.pure a) := by
  intro d d' b h
  obtain ⟨-, rfl⟩ := run_pure_eq_ok h
  exact .refl _

theorem bind {c : Dispatch α} {f : α → Dispatch β} (hc : Grows c) (hf : ∀ a, Grows (f a)) :
    Grows (c >>= f) := by
  intro d d' b h
  obtain ⟨a, d₁, ha, hb⟩ := run_bind_eq_ok h
  exact (hc d d₁ a ha).trans (hf a d₁ d' b hb)

theorem find (trait : String) (type : Ty) : Grows (Dictionaries.find trait type) := by
  intro d d' e h
  obtain ⟨rfl, -⟩ := find_ok h
  exact .refl _

theorem apply (line : Option Nat) (type : Ty) (fn : Expr) (traits : List String) :
    Grows (Dictionaries.apply line type fn traits) := by
  intro d d' e h
  obtain ⟨rfl, -⟩ := closed_apply [] h
  exact .refl _

theorem opens (x : String) (traits : List String) : Grows (Dictionaries.bind x traits) := by
  intro d d' ys h
  rw [run_bind] at h
  obtain ⟨-, rfl⟩ := Prod.mk.inj (Except.ok.inj h)
  obtain ⟨hle, -, hknown⟩ := opened_spec x traits d
  exact ⟨hle, fun entry hentry => (hknown entry hentry).imp_right fun ⟨j, hj⟩ => ⟨x, j, hj⟩⟩

end Grows

end Dictionaries

theorem Expr.grows_dispatch (e : Expr) (owners : List (String × String)) :
    Dictionaries.Grows (e.dispatch owners) := by
  induction e using Expr.induction generalizing owners with
  | lam n x p body ih | un n op e ih | ascribe n e t ih | proj n e label ih =>
    exact .bind (ih _) fun _ => .pure _
  | tlam n x bounds body ih =>
    exact .bind (.opens x _) fun _ => .bind (ih _) fun _ => .pure _
  | cond n c y z ihc ihy ihz =>
    exact .bind (ihc _) fun _ => .bind (ihy _) fun _ => .bind (ihz _) fun _ => .pure _
  | bin n op l r ihl ihr | app n f a ihl ihr =>
    exact .bind (ihl _) fun _ => .bind (ihr _) fun _ => .pure _
  | tapp n f t ih =>
    unfold dispatch
    split
    · exact .bind (.find _ _) fun _ => .pure _
    · split_ifs
      · exact .bind (ih _) fun _ => .pure _
      · exact .apply _ _ _ _
  | var n x =>
    unfold dispatch
    split_ifs
    · exact fun _ _ _ h => nomatch h
    · exact .pure _
  | val n v => exact .pure _
  | list n es ih | record n es ih =>
    refine .bind ?_ fun _ => .pure _
    induction es with
    | nil => exact .pure _
    | cons e es ihs =>
      obtain ⟨ihe, ihes⟩ := List.forall_mem_cons.mp ih
      exact .bind (ihe _) fun _ => .bind (ihs ihes) fun _ => .pure _

namespace Ty

/-- The type of a trait's field at a type, from the signature: the names at the top stand for
themselves. -/
theorem filled_field {l : Option Nat} {a : String} {bounds : List String} {body : Ty}
    {S : Nameless} {δ : String → Nameless} {top : List String}
    (hδ : ∀ x ∈ top, δ x = .free x) (htop : ∀ w ∈ (all l a bounds body).free, w ∈ top) :
    body.filled (Function.update δ a S) = ((body.nameless [a]).fill .free).inst S 0 := by
  have hinst := inst_fill_nameless body [] a (S := S) (δ := .free) fun _ => trivial
  rw [List.nil_append, List.length_nil] at hinst
  rw [hinst]
  refine filled_congr fun w hw => ?_
  by_cases hwa : w = a
  · rw [hwa, Function.update_self, Function.update_self]
  · rw [Function.update_of_ne hwa, Function.update_of_ne hwa]
    exact hδ w (htop w (by simp [free, hw, hwa]))

/-- A function of the first type takes the second one, bounds included. -/
def takes : Ty → Ty → Bool
  | arrow _ dom _, t => dom.agrees t
  | _, _ => false

/-- A list of the first type has elements of the second one, bounds included. -/
def holds : Ty → Ty → Bool
  | list _ elem, t => elem.agrees t
  | _, _ => false

end Ty

namespace Expr

/-- The types in the notes of two expressions are related. -/
def related (R : Ty → Ty → Bool) (e d : Expr) : Bool := e.type?.any fun s => d.type?.any (R s)

mutual

/-- The types are exact. Wherever two of them have to be the same, they agree also on bounds, only
basic types are compared, the variable of a type lambda is none of the names `F` in scope, types
that choose dictionaries have no bounds, and the function of a bounded type application is
settled. -/
def exact (owners : List (String × String)) (F : List String) : Expr → Bool
  | lam _ x _ body => body.exact (Assoc.erase x owners) F
  | tlam _ x _ body => decide (x ∉ F) && body.exact (Assoc.erase x owners) (x :: F)
  | cond _ c y z =>
    related Ty.agrees y z && (c.exact owners F && (y.exact owners F && z.exact owners F))
  | bin _ op l r =>
    (decide (op = .add → related Ty.agrees l r = true) &&
      decide (op = .eq ∨ op = .neq → l.type?.any Ty.isBasic = true)) &&
        (l.exact owners F && r.exact owners F)
  | un _ _ e => e.exact owners F
  | app _ f a => related Ty.takes f a && (f.exact owners F && a.exact owners F)
  | tapp _ f t =>
    ((f.fieldOf? owners).isNone && f.wanted.isEmpty || t.unbounded) &&
      ((f.fieldOf? owners).isSome ||
        (f.exact owners F && (f.wanted.isEmpty || f.settled owners)))
  | ascribe _ e _ => e.exact owners F
  | proj _ e _ => e.exact owners F
  | var .. => true
  | val .. => true
  | list n es => decide (∀ e ∈ es, related Ty.holds (list n es) e = true) && exactItems owners F es
  | record _ fs => exactFields owners F fs

def exactItems (owners : List (String × String)) (F : List String) : List Expr → Bool
  | [] => true
  | e :: es => e.exact owners F && exactItems owners F es

def exactFields (owners : List (String × String)) (F : List String) :
    List (String × Expr) → Bool
  | [] => true
  | (_, e) :: fs => e.exact owners F && exactFields owners F fs

end

theorem exactItems_iff {owners : List (String × String)} {F : List String} {es : List Expr} :
    exactItems owners F es = true ↔ ∀ e ∈ es, e.exact owners F = true :=
  walk_eq_true rfl (fun _ _ => rfl) es

theorem exactFields_iff {owners : List (String × String)} {F : List String}
    {fs : List (String × Expr)} :
    exactFields owners F fs = true ↔ ∀ f ∈ fs, f.2.exact owners F = true :=
  walk_eq_true rfl (fun _ _ => rfl) fs

end Expr

theorem HasType.related {Γ : Context} {R : Ty → Ty → Bool} {e d : Expr} {s t : Ty}
    (he : HasType Γ e s) (hd : HasType Γ d t) (h : Expr.related R e d = true) : R s t = true := by
  rwa [Expr.related, he.type?_eq, hd.type?_eq] at h

/-- Where an expression stands: the type names in scope and what they stand for, and the variables
with their types, the innermost first. -/
structure Setting where
  scope : List String
  fill : String → Nameless
  vars : List String
  types : List Nameless

namespace Setting

/-- Under a lambda. -/
def lam (P : Setting) (x : String) (A : Nameless) : Setting :=
  { P with vars := x :: P.vars, types := A :: P.types }

/-- Under a type lambda whose variable stands for `S`, with its dictionary parameters. -/
def tlam (P : Setting) (x : String) (S : Nameless) (traits ys : List String) : Setting where
  scope := x :: P.scope
  fill := Function.update P.fill x S
  vars := ys ++ P.vars
  types := traits.map (fun trait => .app (.free trait) S) ++ P.types

/-- The expression has the type, with the variables of this place. -/
abbrev Types (P : Setting) (G : Signature) (e : Expr) (A : Nameless) : Prop :=
  Shape.Typed G P.types (e.shape P.vars) A

section Variables

open Shape (Typed)

variable {G : Signature} {P : Setting} {n : Note} {x y : String} {A B S : Nameless}
  {traits ys : List String}

theorem fill_tlam_self : (P.tlam x S traits ys).fill x = S := by simp [tlam]

theorem fill_tlam_of_ne (h : y ≠ x) : (P.tlam x S traits ys).fill y = P.fill y := by
  simp [tlam, h]

theorem types_var_lam (hne : y ≠ x) (h : P.Types G (.var n y) A) :
    (P.lam x B).Types G (.var n y) A := by
  refine Typed.transfer h fun A hA => ?_
  simp only [Expr.shape] at hA
  simp only [lam, Expr.shape, List.mem_cons, hne, false_or]
  split_ifs at hA ⊢ with hy
  · cases hA with
    | bound hi =>
      rw [List.idxOf_cons_ne _ hne.symm]
      exact .form (.bound (by rwa [List.getElem?_cons_succ]))
  · cases hA with
    | global hx => exact .form (.global hx)
    | builtin hb hA => exact .form (.builtin hb hA)

theorem types_var_self : (P.lam x B).Types G (.var n x) B := by
  simp only [Types, lam, Expr.shape, List.mem_cons_self, if_true, List.idxOf_cons_self]
  exact .form (.bound rfl)

/-- Variables that are no dictionary parameters. -/
theorem types_var_tlam (hlen : ys.length = traits.length) (hy : y ∉ ys)
    (h : P.Types G (.var n y) A) : (P.tlam x S traits ys).Types G (.var n y) A := by
  induction ys generalizing traits with
  | nil =>
    obtain rfl := List.length_eq_zero_iff.mp hlen.symm
    exact h
  | cons z ys ih =>
    cases traits with
    | nil => cases hlen
    | cons trait traits =>
      obtain ⟨hne, hy⟩ := not_or.mp (mt List.mem_cons.mpr hy)
      exact types_var_lam (P := P.tlam x S traits ys) hne (ih (by simpa using hlen) hy)

/-- Dictionary parameters are dictionaries for the variable of their type lambda. -/
theorem types_param (hn : Dictionaries.Named traits ys) {trait : String} {j : Nat}
    (hy : Dictionaries.paramName trait j ∈ ys) :
    (P.tlam x S traits ys).Types G (.var n (Dictionaries.paramName trait j))
      (.app (.free trait) S) := by
  induction hn with
  | nil => cases hy
  | @cons T z traits ys hz _ ih =>
    obtain ⟨k, rfl⟩ := hz
    by_cases he : Dictionaries.paramName trait j = Dictionaries.paramName T k
    · rw [he, Dictionaries.paramName_trait_inj he]
      exact types_var_self (P := P.tlam x S traits ys)
    · exact types_var_lam (P := P.tlam x S traits ys) he
        (ih ((List.mem_cons.mp hy).resolve_left he))

/-- Lambdas for dictionaries, the last trait's outermost. -/
theorem types_lams (hlen : ys.length = traits.length) {body : Expr}
    (h : (P.tlam x S traits ys).Types G body A) :
    P.Types G (ys.foldl (fun b y => .lam .blank y .dictionary b) body)
      (.taking traits.reverse S A) := by
  induction ys generalizing traits body A with
  | nil =>
    obtain rfl := List.length_eq_zero_iff.mp hlen.symm
    exact h
  | cons z ys ih =>
    cases traits with
    | nil => cases hlen
    | cons trait traits =>
      rw [List.foldl_cons, List.reverse_cons, Nameless.taking, List.foldr_append]
      refine ih (by simpa using hlen) ?_
      have hbody : Typed G (.app (.free trait) S :: (P.tlam x S traits ys).types)
        (body.shape (z :: (P.tlam x S traits ys).vars)) A := h
      exact .form (.lam hbody)

end Variables

end Setting

/-- The names of `top` stand for themselves, as do the basic types, and those of dictionary
parameters are no globals. -/
structure Signature.Proper (G : Signature) (top : List String) : Prop where
  basics : ∀ x ∈ Ty.basicNames, x ∈ top
  params : ∀ trait k, G.globals.lookup (Dictionaries.paramName trait k) = none

/-- A setting for a context: type variables stand for closed types, and variables have the types
that the context says. The types of the fields of traits are those of the signature. -/
structure Views (G : Signature) (top : List String) (P : Setting) (Γ : Context)
    (owners : List (String × String)) (names : List String) : Prop where
  closed : ∀ x, (P.fill x).Below 0
  fixed : ∀ x ∈ top, P.fill x = .free x
  wide : ∀ x ∈ top, x ∈ P.scope
  scope : ∀ x t, Γ.lookup x = some (.term t) → ∀ w ∈ t.free, w ∈ P.scope
  terms : ∀ x t, Γ.lookup x = some (.term t) → Dictionaries.reserved x = false
  labels : ∀ o ∈ owners, Dictionaries.reserved o.1 = false
  locals : ∀ x ∈ P.vars, G.globals.lookup x = none
  params : ∀ x ∈ names, Dictionaries.reserved x = true → x ∈ P.vars
  vars : ∀ x t n, Γ.lookup x = some (.term t) → owners.lookup x = none →
    P.Types G (.var n x) (t.filled P.fill)
  fields : ∀ x t trait, Γ.lookup x = some (.term t) → owners.lookup x = some trait →
    (∀ w ∈ t.free, w ∈ top) ∧ ∃ l a bounds body, t = .all l a bounds body ∧
      G.fields.lookup (trait, x) = some ((body.nameless [a]).fill .free)

/-- An entry of the table: a dictionary parameter, which has the type of a dictionary for its
variable if it is in scope, or the global of an instance. -/
inductive Dictionaries.Serving (G : Signature) (top : List String) (P : Setting) (params : Nat)
    (entry : String × Ty × Expr) : Prop
  | param {x : String} {j : Nat} (h : IsParam x j entry) (hj : j ≤ params)
      (hscope : paramName entry.1 j ∈ P.vars → x ∈ P.scope ∧
        ∀ n, P.Types G (.var n (paramName entry.1 j)) (.app (.free entry.1) (P.fill x)))
  | inst {n : Note} {g : String} {fields : List (String × Nameless)} (h : entry.2.2 = .var n g)
      (hg : G.globals.lookup g = some (.record fields))
      (hserves : G.Serves entry.1 (entry.2.1.filled .free) fields)
      (hplain : entry.2.1.unbounded = true) (htop : ∀ w ∈ entry.2.1.free, w ∈ top)

/-- All entries of the table serve, and the dictionary parameters in scope are in it. -/
structure Dictionaries.Tied (G : Signature) (top : List String) (P : Setting) (d : Dictionaries) :
    Prop where
  numbers : ∀ trait k, paramName trait k ∈ P.vars → k ≤ d.params
  known : ∀ entry ∈ d.known, Serving G top P d.params entry

namespace Dictionaries.Tied

variable {G : Signature} {top : List String} {P : Setting} {d d' : Dictionaries}

/-- New dictionary parameters are not in scope outside of their type lambdas. -/
theorem grown (h : Tied G top P d) (hd : Grown d d') : Tied G top P d' := by
  refine ⟨fun trait k hk => (h.numbers trait k hk).trans hd.params, fun entry hentry => ?_⟩
  rcases hd.known entry hentry with hold | ⟨x, j, hlt, hle, hparam⟩
  · cases h.known entry hold with
    | param hx hj hscope => exact .param hx (hj.trans hd.params) hscope
    | inst hv hg hserves hplain htop => exact .inst hv hg hserves hplain htop
  · exact .param hparam hle fun hmem => absurd (h.numbers _ _ hmem) (not_le.mpr hlt)

theorem lam (h : Tied G top P d) {x : String} (hx : reserved x = false) (A : Nameless) :
    Tied G top (P.lam x A) d := by
  have hold : ∀ trait k, paramName trait k ∈ (P.lam x A).vars → paramName trait k ∈ P.vars :=
    fun trait k hmem => (List.mem_cons.mp hmem).resolve_left (ne_paramName hx trait k).symm
  refine ⟨fun trait k hk => h.numbers trait k (hold trait k hk), fun entry hentry => ?_⟩
  cases h.known entry hentry with
  | param hparam hj hscope =>
    refine .param hparam hj fun hmem => ?_
    obtain ⟨hvar, htypes⟩ := hscope (hold _ _ hmem)
    exact ⟨hvar, fun n => Setting.types_var_lam (ne_paramName hx _ _).symm (htypes n)⟩
  | inst hv hg hserves hplain htop => exact .inst hv hg hserves hplain htop

/-- Under a type lambda, with its dictionary parameters in the table. -/
theorem tlam (h : Tied G top P d) {x : String} (hx : x ∉ P.scope) (S : Nameless)
    (traits : List String) :
    Tied G top (P.tlam x S traits (opened x traits d).1) (opened x traits d).2 := by
  obtain ⟨hle, hnames, hknown⟩ := opened_spec x traits d
  have hn := named_opened x traits d
  constructor
  · intro trait k hmem
    rcases List.mem_append.mp hmem with hmem | hmem
    · obtain ⟨T, j, -, hj, hname⟩ := hnames _ hmem
      exact paramName_number_inj hname ▸ hj
    · exact (h.numbers trait k hmem).trans hle
  · intro entry hentry
    rcases hknown entry hentry with hold | ⟨j, hlt, hj, hparam⟩
    · cases h.known entry hold with
      | @param y j hparam hj hscope =>
        refine .param hparam (hj.trans hle) fun hmem => ?_
        -- an older parameter has a lower number than all that are opened
        have hout : paramName entry.1 j ∉ (opened x traits d).1 := by
          intro hin
          obtain ⟨T, k, hlt, -, hname⟩ := hnames _ hin
          rw [← paramName_number_inj hname] at hlt
          exact absurd hj (not_le.mpr hlt)
        obtain ⟨hvar, htypes⟩ := hscope ((List.mem_append.mp hmem).resolve_left hout)
        refine ⟨List.mem_cons_of_mem x hvar, fun n => ?_⟩
        have hne : y ≠ x := fun he => hx (he ▸ hvar)
        rw [Setting.fill_tlam_of_ne hne]
        exact Setting.types_var_tlam hn.length_eq.symm hout (htypes n)
      | inst hv hg hserves hplain htop => exact .inst hv hg hserves hplain htop
    · refine .param hparam hj fun hmem => ⟨List.mem_cons_self, fun n => ?_⟩
      have hin : paramName entry.1 j ∈ (opened x traits d).1 :=
        (List.mem_append.mp hmem).resolve_right fun hold =>
          absurd (h.numbers _ _ hold) (not_le.mpr hlt)
      rw [Setting.fill_tlam_self]
      exact Setting.types_param hn hin

end Dictionaries.Tied

namespace Views

variable {G : Signature} {top : List String} {P : Setting} {Γ : Context}
  {owners : List (String × String)} {names : List String}

theorem lam (h : Views G top P Γ owners names) {x : String} (hx : Dictionaries.reserved x = false)
    (hglobal : G.globals.lookup x = none) {t : Ty} (ht : ∀ w ∈ t.free, w ∈ P.scope) :
    Views G top (P.lam x (t.filled P.fill)) ((x, .term t) :: Γ) (Assoc.erase x owners)
      (x :: names) where
  closed := h.closed
  fixed := h.fixed
  wide := h.wide
  scope := by
    intro y u hy
    rw [Assoc.lookup_cons_if] at hy
    split_ifs at hy
    · exact Entry.term.inj (Option.some.inj hy) ▸ ht
    · exact h.scope y u hy
  terms := by
    intro y u hy
    rw [Assoc.lookup_cons_if] at hy
    split_ifs at hy with hyx
    · exact hyx ▸ hx
    · exact h.terms y u hy
  labels := fun o ho => h.labels o (List.mem_of_mem_filter ho)
  locals := List.forall_mem_cons.mpr ⟨hglobal, h.locals⟩
  params := by
    intro y hy hres
    rcases List.mem_cons.mp hy with rfl | hy
    · rw [hx] at hres
      cases hres
    · exact List.mem_cons_of_mem x (h.params y hy hres)
  vars := by
    intro y u n hy ho
    rw [Assoc.lookup_cons_if] at hy
    split_ifs at hy with hyx
    · obtain rfl := Entry.term.inj (Option.some.inj hy)
      exact hyx ▸ Setting.types_var_self
    · rw [Assoc.lookup_erase_of_ne owners hyx] at ho
      exact Setting.types_var_lam hyx (h.vars y u n hy ho)
  fields := by
    intro y u trait hy ho
    rw [Assoc.lookup_cons_if] at hy
    split_ifs at hy with hyx
    · rw [hyx, Assoc.lookup_erase_self] at ho
      cases ho
    · rw [Assoc.lookup_erase_of_ne owners hyx] at ho
      exact h.fields y u trait hy ho

/-- Under a type lambda. The types so far do not mention its variable. -/
theorem tlam (h : Views G top P Γ owners names) (hG : G.Proper top) {x : String}
    (hx : x ∉ P.scope) {S : Nameless} (hS : S.Below 0) {traits ys : List String}
    (hn : Dictionaries.Named traits ys) :
    Views G top (P.tlam x S traits ys) ((x, .type) :: Γ) (Assoc.erase x owners)
      (ys ++ names) := by
  have hterm : ∀ y t, List.lookup y ((x, Entry.type) :: Γ) = some (.term t) →
      y ≠ x ∧ Γ.lookup y = some (.term t) := by
    intro y t hy
    rw [Assoc.lookup_cons_if] at hy
    split_ifs at hy with hyx
    · cases hy
    · exact ⟨hyx, hy⟩
  have hparam : ∀ y ∈ ys, ∃ trait k, y = Dictionaries.paramName trait k :=
    Expr.forall_mem_of_forall₂ hn (P := fun _ => True) (fun _ _ => trivial)
      fun trait _ hy _ => ⟨trait, hy⟩
  constructor
  · intro y
    by_cases hy : y = x
    · rw [hy, Setting.fill_tlam_self]
      exact hS
    · rw [Setting.fill_tlam_of_ne hy]
      exact h.closed y
  · intro y hy
    have hne : y ≠ x := fun he => hx (he ▸ h.wide y hy)
    rw [Setting.fill_tlam_of_ne hne]
    exact h.fixed y hy
  · exact fun y hy => List.mem_cons_of_mem x (h.wide y hy)
  · intro y t hy w hw
    exact List.mem_cons_of_mem x (h.scope y t (hterm y t hy).2 w hw)
  · exact fun y t hy => h.terms y t (hterm y t hy).2
  · exact fun o ho => h.labels o (List.mem_of_mem_filter ho)
  · refine List.forall_mem_append.mpr ⟨fun y hy => ?_, h.locals⟩
    obtain ⟨trait, k, rfl⟩ := hparam y hy
    exact hG.params trait k
  · intro y hy hres
    rcases List.mem_append.mp hy with hy | hy
    · exact List.mem_append_left _ hy
    · exact List.mem_append_right _ (h.params y hy hres)
  · intro y t n hy ho
    obtain ⟨hyx, hy⟩ := hterm y t hy
    rw [Assoc.lookup_erase_of_ne owners hyx] at ho
    have hout : y ∉ ys := by
      intro hmem
      obtain ⟨trait, k, rfl⟩ := hparam y hmem
      exact Dictionaries.ne_paramName (h.terms _ t hy) trait k rfl
    have hsame : t.filled (P.tlam x S traits ys).fill = t.filled P.fill :=
      Ty.filled_congr fun w hw =>
        Setting.fill_tlam_of_ne fun he => hx (he ▸ h.scope y t hy w hw)
    rw [hsame]
    exact Setting.types_var_tlam hn.length_eq.symm hout (h.vars y t n hy ho)
  · intro y t trait hy ho
    obtain ⟨hyx, hy⟩ := hterm y t hy
    rw [Assoc.lookup_erase_of_ne owners hyx] at ho
    exact h.fields y t trait hy ho

/-- The basic types stand for themselves. -/
theorem filled_basic (h : Views G top P Γ owners names) (hG : G.Proper top) {x : String}
    (hx : x ∈ Ty.basicNames) {t : Ty} {line : Option Nat} (ht : t.same (.name line x) = true) :
    t.filled P.fill = .free x := by
  cases t with
  | name l y =>
    obtain rfl : y = x := of_decide_eq_true ht
    exact h.fixed y (hG.basics y hx)
  | _ => cases ht

theorem filled_bool (h : Views G top P Γ owners names) (hG : G.Proper top) :
    Ty.bool.filled P.fill = .bool :=
  h.fixed "Bool" (hG.basics "Bool" (by decide))

theorem filled_int (h : Views G top P Γ owners names) (hG : G.Proper top) :
    Ty.int.filled P.fill = .int :=
  h.fixed "Int" (hG.basics "Int" (by decide))

end Views

section Lookup

variable {G : Signature} {top : List String} {P : Setting} {Γ : Context}
  {owners : List (String × String)} {names : List String} {d d' : Dictionaries} {t : Ty}

/-- What the table gives for a type, if it is in scope, is a dictionary for this type. -/
theorem Dictionaries.Tied.types_newest (hd : d.Tied G top P) (hv : Views G top P Γ owners names)
    {trait : String} {e : Expr} (h : d.newest? trait t = some e) (hc : e.closed names = true)
    (ht : t.unbounded = true) : P.Types G e (.app (.free trait) (t.filled P.fill)) := by
  obtain ⟨⟨T, type, dict⟩, hfind, rfl⟩ := Option.map_eq_some_iff.mp h
  obtain ⟨rfl, hsame⟩ : T = trait ∧ type.same t = true := by simpa using List.find?_some hfind
  cases hd.known _ (List.mem_of_find?_eq_some hfind) with
  | @param x j hparam hj hscope =>
    obtain ⟨rfl, hdict⟩ := Prod.mk.inj hparam
    obtain rfl : dict = .var .blank (paramName T j) := hdict
    have hmem : paramName T j ∈ names := of_decide_eq_true hc
    have hfill : t.filled P.fill = P.fill x := by
      cases t with
      | name line y =>
        obtain rfl : x = y := of_decide_eq_true hsame
        rfl
      | _ => cases hsame
    rw [hfill]
    exact (hscope (hv.params _ hmem (reserved_paramName T j))).2 .blank
  | @inst n g fields hdict hg hserves hplain htop =>
    obtain rfl : dict = .var n g := hdict
    have hout : g ∉ P.vars := by
      intro hmem
      rw [hv.locals g hmem] at hg
      cases hg
    have hfill : t.filled P.fill = type.filled .free := by
      rw [← Ty.filled_agrees (Ty.agrees_of_same hsame hplain ht)]
      exact Ty.filled_congr fun w hw => hv.fixed w (htop w hw)
    have hvar : P.Types G (.var n g) (.record fields) := by
      simp only [Setting.Types, Expr.shape, if_neg hout]
      exact .form (.global hg)
    rw [hfill]
    exact .dict hvar hserves

/-- A function is applied to the dictionaries that it takes. -/
theorem Dictionaries.Tied.types_apply (hd : d.Tied G top P) (hv : Views G top P Γ owners names)
    {line : Option Nat} {traits : List String} {fn e : Expr} {A : Nameless}
    (h : (apply line t fn traits).run d = .ok (e, d')) (hr : d.inReach names t traits = true)
    (ht : t.unbounded = true) (hfn : P.Types G fn (.taking traits (t.filled P.fill) A)) :
    P.Types G e A := by
  induction traits generalizing fn with
  | nil =>
    obtain ⟨rfl, -⟩ := run_pure_eq_ok h
    exact hfn
  | cons trait traits ih =>
    obtain ⟨dict, d₁, hfind, happ⟩ := run_bind_eq_ok h
    obtain ⟨rfl, hnew⟩ := find_ok hfind
    obtain ⟨hdict, hrest⟩ := List.forall_mem_cons.mp (List.all_eq_true.mp hr)
    rw [hnew] at hdict
    exact ih happ (List.all_eq_true.mpr hrest)
      (.form (.app hfn (hd.types_newest hv hnew hdict ht)))

end Lookup

namespace Expr

section Dispatch

variable {G : Signature} {top : List String} {k : Nat} {P : Setting} {Γ : Context}
  {owners : List (String × String)} {names : List String} {d d' : Dictionaries}

theorem types_bin (hG : G.Proper top) (hv : Views G top P Γ owners names) {n : Note} {op : BinOp}
    {l r : Expr} {s t u : Ty} (hop : op.HasType s t u) (hadd : op = .add → s.agrees t = true)
    (hequal : op = .eq ∨ op = .neq → s.isBasic = true) (hl : P.Types G l (s.filled P.fill))
    (hr : P.Types G r (t.filled P.fill)) : P.Types G (.bin n op l r) (u.filled P.fill) := by
  have hbool {v : Ty} (h : v.same .bool = true) := hv.filled_basic hG (by decide) h
  have hint {v : Ty} (h : v.same .int = true) := hv.filled_basic hG (by decide) h
  cases hop with
  | logic hop hs ht =>
    rw [hbool hs] at hl
    rw [hbool ht] at hr
    rw [hv.filled_bool hG]
    rcases hop with rfl | rfl <;> exact .form (.bin rfl hl hr)
  | equality hop hst =>
    cases s with
    | name line x =>
      have hx : x ∈ Ty.basicNames := of_decide_eq_true (hequal hop)
      cases t with
      | name line' y =>
        obtain rfl : x = y := of_decide_eq_true hst
        have hsame (line : Option Nat) : (Ty.name line x).filled P.fill = .free x :=
          hv.fixed x (hG.basics x hx)
        rw [hsame] at hl hr
        rw [hv.filled_bool hG]
        rcases hop with rfl | rfl <;> exact .form (.bin ⟨x, hx, rfl⟩ hl hr)
      | _ => cases hst
    | _ => cases hequal hop
  | order hop hs ht =>
    rw [hint hs] at hl
    rw [hint ht] at hr
    rw [hv.filled_bool hG]
    rcases hop with rfl | rfl | rfl | rfl <;> exact .form (.bin rfl hl hr)
  | sum _ hs =>
    rw [← Ty.filled_agrees (hadd rfl)] at hr
    have htakes : BinOp.add.Takes (s.filled P.fill) := by
      rcases hs with hs | hs | hs
      · exact Or.inl (hint hs)
      · exact Or.inr (Or.inl (hv.filled_basic hG (by decide) hs))
      · cases s with
        | list line elem => exact Or.inr (Or.inr (Or.inr ⟨_, rfl⟩))
        | emptyList => exact Or.inr (Or.inr (Or.inl rfl))
        | _ => cases hs
    exact .form (.bin htakes hl hr)
  | arith hop hs ht =>
    rw [hint hs] at hl
    rw [hint ht] at hr
    rw [hv.filled_int hG]
    rcases hop with rfl | rfl | rfl | rfl <;> exact .form (.bin rfl hl hr)

/-- What is to be shown of a part of an expression. -/
def TypesBehind (G : Signature) (top : List String) (P : Setting) (names : List String)
    (owners : List (String × String)) (e : Expr) (A : Nameless) : Prop :=
  ∀ {d d' : Dictionaries} {e' : Expr}, d.Tied G top P →
    (e.dispatch owners).run d = .ok (e', d') → e'.closed names = true → P.Types G e' A

theorem types_items {es es' : List Expr} {A : Nameless}
    (ih : ∀ e ∈ es, TypesBehind G top P names owners e A) (hd : d.Tied G top P)
    (hc : closedItems names es' = true) (h : (dispatchItems owners es).run d = .ok (es', d')) :
    ∀ e ∈ es', P.Types G e A := by
  induction es generalizing d es' with
  | nil =>
    obtain ⟨rfl, rfl⟩ := run_pure_eq_ok h
    exact fun e he => nomatch he
  | cons e es ihs =>
    obtain ⟨e', d₁, he, hrest⟩ := run_bind_eq_ok h
    obtain ⟨rest, hes, rfl⟩ := run_bind_pure_eq_ok hrest
    obtain ⟨hce, hces⟩ := Bool.and_eq_true_iff.mp hc
    obtain ⟨ihe, ihes⟩ := List.forall_mem_cons.mp ih
    have hd₁ := hd.grown (e.grows_dispatch owners _ _ _ he)
    exact List.forall_mem_cons.mpr ⟨ihe hd he hce, ihs ihes hd₁ hces hes⟩

theorem types_fields {fs fs' : List (String × Expr)} {ts : List (String × Ty)}
    (ht : FieldsHaveType Γ fs ts)
    (ih : ∀ f ∈ fs, ∀ t, HasType Γ f.2 t →
      TypesBehind G top P names owners f.2 (t.filled P.fill))
    (hd : d.Tied G top P) (hc : closedFields names fs' = true)
    (h : (dispatchFields owners fs).run d = .ok (fs', d')) :
    List.Forall₂ (fun f t => f.1 = t.1 ∧ P.Types G f.2 (t.2.filled P.fill)) fs' ts := by
  induction fs generalizing d fs' ts with
  | nil =>
    cases ht
    obtain ⟨rfl, rfl⟩ := run_pure_eq_ok h
    exact .nil
  | cons f fs ihs =>
    cases ht with
    | @cons _ label e _ _ _ hte htes =>
      obtain ⟨e', d₁, he, hrest⟩ := run_bind_eq_ok h
      obtain ⟨rest, hfs, rfl⟩ := run_bind_pure_eq_ok hrest
      obtain ⟨hce, hces⟩ := Bool.and_eq_true_iff.mp hc
      obtain ⟨ihe, ihfs⟩ := List.forall_mem_cons.mp ih
      have hd₁ := hd.grown (e.grows_dispatch owners _ _ _ he)
      exact .cons ⟨rfl, ihe _ hte hd he hce⟩ (ihs htes ihfs hd₁ hces hfs)

theorem types_record {n : Note} {fs : List (String × Expr)} {ts : List (String × Ty)}
    (h : List.Forall₂ (fun f t => f.1 = t.1 ∧ P.Types G f.2 (t.2.filled P.fill)) fs ts)
    (line : Option Nat) : P.Types G (.record n fs) ((Ty.record line ts).filled P.fill) := by
  have hlabels : fs.map Prod.fst = ts.map Prod.fst := by
    rw [← List.forall₂_eq_eq_eq, List.forall₂_map_left_iff, List.forall₂_map_right_iff]
    exact h.imp fun _ _ hf => hf.1
  have hparts : ∀ s A, (s, A) ∈ ((fs.map Prod.snd).map (·.shape P.vars)).zip
      (ts.map fun t => t.2.filled P.fill) → Shape.Typed G P.types s A := by
    clear hlabels
    induction h with
    | nil => exact fun s A hs => nomatch hs
    | cons hf _ ih =>
      intro s A hs
      rcases List.mem_cons.mp hs with he | hs
      · obtain ⟨rfl, rfl⟩ := Prod.mk.inj he
        exact hf.2
      · exact ih s A hs
  rw [Setting.Types, shape_record, Ty.filled_record]
  refine .form (.record (by simpa using h.length_eq) hparts fun label => ?_)
  rw [Ty.lookup_sortByLabel, hlabels, List.zip_map']

/-- Dispatch of an expression with a derivation and exact types: its result has the type at run
time. -/
theorem types_dispatch (hG : G.Proper top) (e : Expr) {t : Ty} (ht : HasType Γ e t)
    (hv : Views G top P Γ owners names)
    (hlams : ∀ x ∈ e.lamNames, Dictionaries.reserved x = false ∧ G.globals.lookup x = none)
    (hw : e.Within k P.scope) (hx : e.exact owners P.scope = true) :
    TypesBehind G top P names owners e (t.filled P.fill) := by
  induction e using Expr.induction generalizing Γ t owners names P with intro d d' e' hd h hc
  | lam n x p body ih =>
    cases ht with
    | lam hbody =>
      obtain ⟨body', hb, rfl⟩ := run_bind_pure_eq_ok h
      obtain ⟨⟨hfree, hglobal⟩, hlams⟩ := List.forall_mem_cons.mp hlams
      have hbody' := ih hbody (hv.lam hfree hglobal hw.1.inScope) hlams hw.2 hx (hd.lam hfree _)
        hb hc
      exact .form (.lam hbody')
  | tlam n x bounds body ih =>
    cases ht with
    | @tlam _ _ _ _ s _ hbody =>
      obtain ⟨dicts, d₁, body', hopen, hb, rfl⟩ := dispatch_tlam_ok h
      obtain ⟨rfl, rfl⟩ := Prod.mk.inj hopen
      obtain ⟨hnew, hx⟩ := Bool.and_eq_true_iff.mp hx
      have hnew : x ∉ P.scope := of_decide_eq_true hnew
      have hn := Dictionaries.named_opened x bounds.reverse d
      rw [closed, closed_foldl_lam] at hc
      rw [hn.hide_eq hv.labels] at hb
      -- the body has its type whatever the variable stands for
      refine Shape.Typed.all fun S hS => .form (.tlam ?_)
      have hbody' := ih hbody (hv.tlam hG hnew hS hn) hlams hw.2 hx (hd.tlam hnew S bounds.reverse)
        hb hc
      have hlams := Setting.types_lams hn.length_eq.symm hbody'
      rw [List.reverse_reverse] at hlams
      have hinst := Ty.inst_fill_nameless s [] x (S := S) hv.closed
      rw [List.nil_append, List.length_nil] at hinst
      rw [hinst]
      exact hlams
  | cond n c y z ihc ihy ihz =>
    cases ht with
    | cond htc hty htz hst htu =>
      obtain ⟨c', d₁, hc', hrest⟩ := run_bind_eq_ok h
      obtain ⟨y', d₂, hy', hrest⟩ := run_bind_eq_ok hrest
      obtain ⟨z', hz', rfl⟩ := run_bind_pure_eq_ok hrest
      obtain ⟨hsame, hx⟩ := Bool.and_eq_true_iff.mp hx
      obtain ⟨hxc, hx⟩ := Bool.and_eq_true_iff.mp hx
      obtain ⟨hxy, hxz⟩ := Bool.and_eq_true_iff.mp hx
      obtain ⟨hcc, hc⟩ := Bool.and_eq_true_iff.mp hc
      obtain ⟨hcy, hcz⟩ := Bool.and_eq_true_iff.mp hc
      obtain ⟨hlc, hlams⟩ := List.forall_mem_append.mp hlams
      obtain ⟨hly, hlz⟩ := List.forall_mem_append.mp hlams
      have hd₁ := hd.grown (c.grows_dispatch owners _ _ _ hc')
      have hd₂ := hd₁.grown (y.grows_dispatch owners _ _ _ hy')
      have htest := ihc htc hv hlc hw.1 hxc hd hc' hcc
      have hyes := ihy hty hv hly hw.2.1 hxy hd₁ hy' hcy
      have hno := ihz htz hv hlz hw.2.2 hxz hd₂ hz' hcz
      rw [hv.filled_basic hG (by decide) hst] at htest
      rw [← Ty.filled_agrees (hty.related htz hsame)] at hno
      exact .form (.cond htest hyes hno)
  | bin n op l r ihl ihr =>
    cases ht with
    | bin htl htr hop =>
      obtain ⟨l', d₁, hl', hrest⟩ := run_bind_eq_ok h
      obtain ⟨r', hr', rfl⟩ := run_bind_pure_eq_ok hrest
      obtain ⟨hops, hx⟩ := Bool.and_eq_true_iff.mp hx
      obtain ⟨hadd, hequal⟩ := Bool.and_eq_true_iff.mp hops
      obtain ⟨hxl, hxr⟩ := Bool.and_eq_true_iff.mp hx
      obtain ⟨hcl, hcr⟩ := Bool.and_eq_true_iff.mp hc
      obtain ⟨hll, hlr⟩ := List.forall_mem_append.mp hlams
      have hd₁ := hd.grown (l.grows_dispatch owners _ _ _ hl')
      have hequal := of_decide_eq_true hequal
      rw [htl.type?_eq] at hequal
      exact types_bin hG hv hop (fun he => htl.related htr (of_decide_eq_true hadd he)) hequal
        (ihl htl hv hll hw.1 hxl hd hl' hcl) (ihr htr hv hlr hw.2 hxr hd₁ hr' hcr)
  | un n op e ih =>
    cases ht with
    | un hte hop =>
      obtain ⟨e', he, rfl⟩ := run_bind_pure_eq_ok h
      have harg := ih hte hv hlams hw hx hd he hc
      cases hop with
      | not hst =>
        rw [hv.filled_basic hG (by decide) hst] at harg
        rw [hv.filled_bool hG]
        exact .form (.un harg)
      | neg hst =>
        rw [hv.filled_basic hG (by decide) hst] at harg
        rw [hv.filled_int hG]
        exact .form (.un harg)
  | app n f a ihf iha =>
    cases ht with
    | app htf hta hdom =>
      obtain ⟨f', d₁, hf', hrest⟩ := run_bind_eq_ok h
      obtain ⟨a', ha', rfl⟩ := run_bind_pure_eq_ok hrest
      obtain ⟨hsame, hx⟩ := Bool.and_eq_true_iff.mp hx
      obtain ⟨hxf, hxa⟩ := Bool.and_eq_true_iff.mp hx
      obtain ⟨hcf, hca⟩ := Bool.and_eq_true_iff.mp hc
      obtain ⟨hlf, hla⟩ := List.forall_mem_append.mp hlams
      have hd₁ := hd.grown (f.grows_dispatch owners _ _ _ hf')
      have hfun := ihf htf hv hlf hw.1 hxf hd hf' hcf
      have harg := iha hta hv hla hw.2 hxa hd₁ ha' hca
      have hagree := htf.related hta hsame
      rw [Ty.takes] at hagree
      rw [← Ty.filled_agrees hagree] at harg
      exact .form (.app hfun harg)
  | tapp n f u ih =>
    cases ht with
    | @tapp _ _ _ _ x bounds body _ t htf hu =>
      obtain ⟨hplain, hx⟩ := Bool.and_eq_true_iff.mp hx
      rw [Ty.filled_instance hu]
      obtain ⟨m, y, F, dict, rfl, hF, hnew, rfl, rfl⟩ | ⟨hfield, hcases⟩ := dispatch_tapp_ok h
      · have hdict := hd.types_newest hv hnew hc (by simpa [fieldOf?, hF] using hplain)
        cases htf with
        | var hy =>
          obtain ⟨htop, l, a, bs, body', hall, hl⟩ := hv.fields _ _ _ hy hF
          obtain ⟨-, rfl, -, rfl⟩ := Ty.all.inj hall
          rw [Ty.filled_field hv.fixed htop]
          exact .form (.field hdict hl)
      · rw [hfield, Option.isSome_none, Bool.false_or] at hx
        obtain ⟨hxf, hset⟩ := Bool.and_eq_true_iff.mp hx
        have hfun : TypesBehind G top P names owners f _ := ih htf hv hlams hw.1 hxf
        have hinst := Ty.inst_fill_nameless body [] x (S := u.filled P.fill) hv.closed
        rw [List.nil_append, List.length_nil] at hinst
        obtain ⟨hwant, f', hf', rfl⟩ | ⟨hwant, happ⟩ := hcases
        · have hf := hfun hd hf' hc
          rw [htf.wanted_eq] at hwant
          obtain rfl := List.isEmpty_iff.mp hwant
          rw [Ty.filled, ← hinst]
          exact .form (.tapp (u.below_filled hv.closed) hf)
        · obtain ⟨rfl, hclosed⟩ := Dictionaries.closed_apply names happ
          rw [hclosed, closed] at hc
          obtain ⟨hcf, hreach⟩ := Bool.and_eq_true_iff.mp hc
          have hrun : (f.dispatch owners).run d' = .ok (f, d') := by
            rw [dispatch_settled f (by simpa [hwant] using hset)]
            rfl
          have hf := hfun hd hrun hcf
          rw [htf.wanted_eq] at happ hreach
          rw [Ty.filled, ← hinst]
          exact hd.types_apply hv happ hreach (by simpa [hwant] using hplain)
            (.form (.tapp (u.below_filled hv.closed) hf))
  | ascribe n e u ih =>
    cases ht with
    | ascribe hte hst =>
      obtain ⟨e', he, rfl⟩ := run_bind_pure_eq_ok h
      exact .form (.ascribe (ih hte hv hlams hw.1 hx hd he hc))
  | proj n e label ih =>
    cases ht with
    | proj hte hfield =>
      obtain ⟨e', he, rfl⟩ := run_bind_pure_eq_ok h
      have hrecord := ih hte hv hlams hw hx hd he hc
      rw [Ty.filled_record] at hrecord
      refine .form (.proj hrecord ?_)
      rw [Ty.lookup_sortByLabel, Assoc.lookup_map, hfield]
      rfl
  | var n x =>
    cases ht with
    | var hΓ =>
      obtain ⟨ho, rfl, rfl⟩ := dispatch_var_ok h
      exact hv.vars x _ _ hΓ ho
  | val n v =>
    cases ht with
    | val =>
      obtain ⟨rfl, rfl⟩ := run_pure_eq_ok h
      have hlit : (Rule.lit v).filled P.fill = v.type := by
        cases v <;> exact hv.fixed _ (hG.basics _ (by decide))
      rw [hlit]
      exact .form .val
  | list n es ih =>
    obtain ⟨es', hes, rfl⟩ := run_bind_pure_eq_ok h
    obtain ⟨hsame, hx⟩ := Bool.and_eq_true_iff.mp hx
    have hsame := of_decide_eq_true hsame
    have hparts : ∀ e ∈ es, ∀ s, HasType Γ e s →
        TypesBehind G top P names owners e (s.filled P.fill) := fun e he s hte =>
      ih e he hte hv (fun x hx => hlams x (mem_lamNamesItems.mpr ⟨e, he, hx⟩))
        (withinItems_iff.mp hw e he) (exactItems_iff.mp hx e he)
    have hall := ht.elements
    rw [Setting.Types, shape_list]
    cases ht with
    | nil =>
      obtain ⟨rfl, rfl⟩ := run_pure_eq_ok hes
      exact .form .nil
    | @list _ line e₀ es₀ elem he₀ hes₀ =>
      have helems : ∀ e ∈ e₀ :: es₀,
          TypesBehind G top P names owners e (elem.filled P.fill) := by
        intro e he
        obtain ⟨s, hte⟩ := hall e he
        have hagree := (HasType.list he₀ hes₀).related hte (hsame e he)
        rw [Ty.holds] at hagree
        rw [Ty.filled_agrees hagree]
        exact @hparts e he s hte
      refine .form (.list fun s hs => ?_)
      obtain ⟨e, he, rfl⟩ := List.mem_map.mp hs
      exact types_items helems hd hc hes e he
  | record n fs ih =>
    cases ht with
    | record htf =>
      obtain ⟨fs', hfs, rfl⟩ := run_bind_pure_eq_ok h
      have hparts : ∀ f ∈ fs, ∀ t, HasType Γ f.2 t →
          TypesBehind G top P names owners f.2 (t.filled P.fill) := fun f hmem t hte =>
        ih f hmem hte hv (fun x hx => hlams x (mem_lamNamesFields.mpr ⟨f, hmem, hx⟩))
          (withinFields_iff.mp hw f hmem) (exactFields_iff.mp hx f hmem)
      exact types_record (types_fields htf hparts hd hc hfs) none

end Dispatch

end Expr

end TraitCalculus
