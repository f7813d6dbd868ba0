import Mathlib
import TraitCalculus.Proofs.NameFaults

/-! Typing of expressions that differ in the names of type variables. The two typings go in step:
where the first one succeeds, so does the second one with a renamed type, or it stops at a fault
of names only. A type lambda may give its variable another name, but not that of a variable which
something in scope has in its type: the name would be captured. -/
namespace TraitCalculus

namespace Expr

mutual

/-- The free names of the types that are written in an expression, but for those that a type lambda
around them binds. -/
def openTypes : Expr → List String
  | lam _ _ p body => p.freeTypes ++ body.openTypes
  | tlam _ x _ body => body.openTypes.filter (· ≠ x)
  | cond _ c y z => c.openTypes ++ (y.openTypes ++ z.openTypes)
  | bin _ _ l r => l.openTypes ++ r.openTypes
  | un _ _ e => e.openTypes
  | app _ f a => f.openTypes ++ a.openTypes
  | tapp _ f t => f.openTypes ++ t.free
  | ascribe _ e t => e.openTypes ++ t.free
  | proj _ e _ => e.openTypes
  | var .. => []
  | val .. => []
  | list _ es => openTypesItems es
  | record _ fs => openTypesFields fs

def openTypesItems : List Expr → List String
  | [] => []
  | e :: es => e.openTypes ++ openTypesItems es

def openTypesFields : List (String × Expr) → List String
  | [] => []
  | (_, e) :: fs => e.openTypes ++ openTypesFields fs

end

theorem mem_openTypesItems {x : String} {es : List Expr} :
    x ∈ openTypesItems es ↔ ∃ e ∈ es, x ∈ e.openTypes :=
  mem_walk rfl (fun _ _ => rfl) es

theorem mem_openTypesFields {x : String} {fs : List (String × Expr)} :
    x ∈ openTypesFields fs ↔ ∃ f ∈ fs, x ∈ f.2.openTypes :=
  mem_walk rfl (fun _ _ => rfl) fs

/-- An expression is within names exactly if its free ones are among them. -/
theorem within_iff (e : Expr) {k : Nat} {F : List String} (h : e.Within k F) (G : List String) :
    e.Within k G ↔ ∀ w ∈ e.openTypes, w ∈ G := by
  have hty {t : Ty} {F : List String} (ht : t.Within k F) (G : List String) :
      t.Within k G ↔ ∀ w ∈ t.free, w ∈ G := ⟨fun h => h.inScope, fun h => ⟨ht.old, h⟩⟩
  induction e using Expr.induction generalizing F G with
  | lam n x p body ih =>
    have hp : p.Within k G ↔ ∀ w ∈ p.freeTypes, w ∈ G := by
      cases p with
      | typed t => exact hty h.1 G
      | dictionary | erased => simp [Param.Within, Param.freeTypes]
    exact (and_congr hp (ih h.2 G)).trans List.forall_mem_append.symm
  | tlam n x bounds body ih =>
    have hbody : (∀ w ∈ body.openTypes, w ∈ x :: G) ↔
        ∀ w ∈ (tlam n x bounds body).openTypes, w ∈ G := by
      simp only [openTypes, List.mem_cons, List.mem_filter, decide_eq_true_eq]
      grind
    exact (and_iff_right h.1).trans ((ih h.2 (x :: G)).trans hbody)
  | cond n c y z ihc ihy ihz =>
    have hyz := (and_congr (ihy h.2.1 G) (ihz h.2.2 G)).trans List.forall_mem_append.symm
    exact (and_congr (ihc h.1 G) hyz).trans List.forall_mem_append.symm
  | bin n op l r ihl ihr | app n f a ihl ihr =>
    exact (and_congr (ihl h.1 G) (ihr h.2 G)).trans List.forall_mem_append.symm
  | un n op e ih => exact ih h G
  | tapp n f t ih | ascribe n e t ih =>
    exact (and_congr (ih h.1 G) (hty h.2 G)).trans List.forall_mem_append.symm
  | proj n e label ih => exact ih h G
  | var | val => simp [Within, openTypes]
  | list n es ih =>
    have h' := withinItems_iff.mp h
    rw [Within, withinItems_iff, openTypes]
    simp only [mem_openTypesItems]
    constructor
    · rintro hG w ⟨e, he, hw⟩
      exact (ih e he (h' e he) G).mp (hG e he) w hw
    · intro hG e he
      exact (ih e he (h' e he) G).mpr fun w hw => hG w ⟨e, he, hw⟩
  | record n fs ih =>
    have h' := withinFields_iff.mp h
    rw [Within, withinFields_iff, openTypes]
    simp only [mem_openTypesFields]
    constructor
    · rintro hG w ⟨f, hf, hw⟩
      exact (ih f hf (h' f hf) G).mp (hG f hf) w hw
    · intro hG f hf
      exact (ih f hf (h' f hf) G).mpr fun w hw => hG w ⟨f, hf, hw⟩

end Expr

/-- How the names of an expression correspond to those of a renamed one. -/
structure Naming where
  /-- The name that a type variable has on the other side. -/
  types : String → String
  /-- The names that the types of what is in scope may have. -/
  scope : List String
  /-- Names that may mean something else on the other side, as a type variable is called so there
  only. -/
  hidden : List String
  /-- Names that stand for types. -/
  kinds : List String

namespace Naming

/-- Under a lambda over `x`. -/
def lam (ν : Naming) (x : String) (p : Param) : Naming where
  types := ν.types
  scope := p.freeTypes ++ ν.scope
  hidden := ν.hidden.filter (· ≠ x)
  kinds := ν.kinds.filter (· ≠ x)

/-- Under a type lambda over `x`, which is called `x'` on the other side. A variable that has bounds
is among the instances in scope. -/
def tlam (ν : Naming) (x x' : String) (bounds : List String) : Naming where
  types := Function.update ν.types x x'
  scope := bounds.map (fun _ => x) ++ ν.scope
  hidden := (x' :: ν.hidden).filter (· ≠ x)
  kinds := x :: ν.kinds

variable (ν : Naming) {x y x' : String}

theorem types_tlam_self (x x' : String) (bounds : List String) :
    (ν.tlam x x' bounds).types x = x' := by
  simp [tlam]

theorem types_tlam_of_ne (x' : String) (bounds : List String) (h : y ≠ x) :
    (ν.tlam x x' bounds).types y = ν.types y := by
  simp [tlam, h]

theorem mem_scope_tlam {bounds : List String} (h : y ∈ (ν.tlam x x' bounds).scope) :
    y = x ∨ y ∈ ν.scope := by
  rcases List.mem_append.mp h with h | h
  · obtain ⟨_, -, rfl⟩ := List.mem_map.mp h
    exact Or.inl rfl
  · exact Or.inr h

/-- Of the names in scope, `x` and no other is called `x'` on the other side. -/
def Apart (x x' : String) : Prop := ∀ y ∈ ν.scope, ν.types y = x' ↔ y = x

end Naming

def Param.Renamed (f : String → String) (p p' : Param) : Prop :=
  ∀ t, p = .typed t → ∃ t', p' = .typed t' ∧ t.Renames f t'

namespace Expr

mutual

/-- The second expression is the first one with type variables renamed. A variable whose name
stands for a type has no type on its own, so it may become anything. -/
inductive Renamed : Naming → Expr → Expr → Prop
  | lam {ν : Naming} {n n' : Note} {x : String} {p p' : Param} {b b' : Expr}
      (hp : p.Renamed ν.types p') (hb : Renamed (ν.lam x p) b b') :
      Renamed ν (.lam n x p b) (.lam n' x p' b')
  | tlam {ν : Naming} {n n' : Note} {x x' : String} {bounds : List String} {b b' : Expr}
      (hx : ν.Apart x x') (hfree : ∀ y ∈ b.openTypes, y ≠ x → ν.types y ≠ x')
      (hb : Renamed (ν.tlam x x' bounds) b b') :
      Renamed ν (.tlam n x bounds b) (.tlam n' x' bounds b')
  | cond {ν : Naming} {n n' : Note} {c c' y y' z z' : Expr} (hc : Renamed ν c c')
      (hy : Renamed ν y y') (hz : Renamed ν z z') : Renamed ν (.cond n c y z) (.cond n' c' y' z')
  | bin {ν : Naming} {n n' : Note} {op : BinOp} {l l' r r' : Expr} (hl : Renamed ν l l')
      (hr : Renamed ν r r') : Renamed ν (.bin n op l r) (.bin n' op l' r')
  | un {ν : Naming} {n n' : Note} {op : UnOp} {e e' : Expr} (he : Renamed ν e e') :
      Renamed ν (.un n op e) (.un n' op e')
  | app {ν : Naming} {n n' : Note} {f f' a a' : Expr} (hf : Renamed ν f f')
      (ha : Renamed ν a a') : Renamed ν (.app n f a) (.app n' f' a')
  | tapp {ν : Naming} {n n' : Note} {f f' : Expr} {t t' : Ty} (hf : Renamed ν f f')
      (ht : t.Renames ν.types t') : Renamed ν (.tapp n f t) (.tapp n' f' t')
  | ascribe {ν : Naming} {n n' : Note} {e e' : Expr} {t t' : Ty} (he : Renamed ν e e')
      (ht : t.Renames ν.types t') : Renamed ν (.ascribe n e t) (.ascribe n' e' t')
  | proj {ν : Naming} {n n' : Note} {e e' : Expr} {label : String} (he : Renamed ν e e') :
      Renamed ν (.proj n e label) (.proj n' e' label)
  | var {ν : Naming} {n n' : Note} {x : String} (hx : x ∉ ν.hidden) :
      Renamed ν (.var n x) (.var n' x)
  | kind {ν : Naming} {n : Note} {x : String} {e' : Expr} (hx : x ∈ ν.kinds) :
      Renamed ν (.var n x) e'
  | val {ν : Naming} {n n' : Note} {v : Value} : Renamed ν (.val n v) (.val n' v)
  | list {ν : Naming} {n n' : Note} {es es' : List Expr} (hes : RenamedItems ν es es') :
      Renamed ν (.list n es) (.list n' es')
  | record {ν : Naming} {n n' : Note} {fs fs' : List (String × Expr)}
      (hfs : RenamedFields ν fs fs') : Renamed ν (.record n fs) (.record n' fs')

inductive RenamedItems : Naming → List Expr → List Expr → Prop
  | nil {ν : Naming} : RenamedItems ν [] []
  | cons {ν : Naming} {e e' : Expr} {es es' : List Expr} (he : Renamed ν e e')
      (hes : RenamedItems ν es es') : RenamedItems ν (e :: es) (e' :: es')

inductive RenamedFields : Naming → List (String × Expr) → List (String × Expr) → Prop
  | nil {ν : Naming} : RenamedFields ν [] []
  | cons {ν : Naming} {label : String} {e e' : Expr} {fs fs' : List (String × Expr)}
      (he : Renamed ν e e') (hfs : RenamedFields ν fs fs') :
      RenamedFields ν ((label, e) :: fs) ((label, e') :: fs')

end

end Expr

/-- Two typings that have come to the same place: what is in scope corresponds, and so do the
instances. On the other side, the names of types in scope are among `F'`, and an instance is one
of `I` or a type variable. -/
structure Aligned (ν : Naming) (I : Instances) (F' : List String) (s s' : Scope Entry)
    (Γ Γ' : Context) (st st' : TypingState) : Prop where
  shows : s.Shows Γ
  shows' : s'.Shows Γ'
  basic : ∀ w ∈ Ty.basicNames, w ∈ ν.scope ∧ ν.types w = w
  basic' : ∀ w ∈ Ty.basicNames, w ∈ F'
  terms : ∀ x, x ∉ ν.hidden → ∀ t, Γ.lookup x = some (.term t) →
    ∃ t', Γ'.lookup x = some (.term t') ∧ t.Renames ν.types t'
  kinds : ∀ x ∈ ν.kinds, Γ.lookup x = some .type
  within : Γ.Within st.drawn ν.scope
  within' : Γ'.Within st'.drawn F'
  tables : Rule.TablesRelated ν.types st.instances st'.instances
  inScope : ∀ trait, ∀ t ∈ implementors st.instances trait, ∀ w ∈ t.free, w ∈ ν.scope
  origin : ∀ trait, ∀ t ∈ implementors st'.instances trait,
    (trait, t) ∈ I ∨ ∃ l x, t = .name l x

namespace Aligned

variable {ν : Naming} {I : Instances} {F' : List String} {s s' : Scope Entry} {Γ Γ' : Context}
  {st st' st₁ st₁' : TypingState}

/-- The typings go on, and leave the instances as they were. -/
theorem later (h : Aligned ν I F' s s' Γ Γ' st st') (hk : st.drawn ≤ st₁.drawn)
    (hk' : st'.drawn ≤ st₁'.drawn) (hi : implementors st₁.instances = implementors st.instances)
    (hi' : implementors st₁'.instances = implementors st'.instances)
    (hknown : ∀ trait,
      (st₁.instances.lookup trait).isSome = (st₁'.instances.lookup trait).isSome) :
    Aligned ν I F' s s' Γ Γ' st₁ st₁' where
  shows := h.shows
  shows' := h.shows'
  basic := h.basic
  basic' := h.basic'
  terms := h.terms
  kinds := h.kinds
  within := h.within.later hk
  within' := h.within'.later hk'
  tables := by
    refine ⟨hknown, ?_⟩
    rw [hi, hi']
    exact h.tables.types
  inScope := by
    rw [hi]
    exact h.inScope
  origin := by
    rw [hi']
    exact h.origin

/-- The same name is bound on both sides, to types that are related. -/
theorem bind (h : Aligned ν I F' s s' Γ Γ' st st') {x : String} {t t' : Ty} {s₁ s₁' : Scope Entry}
    (hs : s₁.Shows ((x, .term t) :: Γ)) (hs' : s₁'.Shows ((x, .term t') :: Γ'))
    (ht : t.Renames ν.types t') {F : List String} (hw : t.Within st.drawn F)
    (hw' : t'.Within st'.drawn F') :
    Aligned (ν.lam x (.typed t)) I F' s₁ s₁' ((x, .term t) :: Γ) ((x, .term t') :: Γ') st st' where
  shows := hs
  shows' := hs'
  basic := fun w hw => ⟨List.mem_append_right _ (h.basic w hw).1, (h.basic w hw).2⟩
  basic' := h.basic'
  terms := by
    intro y hy u hu
    rw [Assoc.lookup_cons_if] at hu ⊢
    split_ifs at hu ⊢ with hyx
    · obtain rfl : t = u := Entry.term.inj (Option.some.inj hu)
      exact ⟨t', rfl, ht⟩
    · exact h.terms y (fun hm => hy (List.mem_filter.mpr ⟨hm, by simpa using hyx⟩)) u hu
  kinds := by
    intro y hy
    obtain ⟨hy, hyx⟩ := List.mem_filter.mp hy
    rw [Assoc.lookup_cons_if, if_neg (by simpa using hyx)]
    exact h.kinds y hy
  within := by
    have hscope : t.Within st.drawn (t.free ++ ν.scope) :=
      ⟨hw.old, fun w hw => List.mem_append_left _ hw⟩
    exact (h.within.mono (le_refl _) fun w hw => List.mem_append_right _ hw).cons_term x hscope
  within' := h.within'.cons_term x hw'
  tables := h.tables
  inScope := fun trait u hu w hw => List.mem_append_right _ (h.inScope trait u hu w hw)
  origin := h.origin

theorem tlam (h : Aligned ν I F' s s' Γ Γ' st st') {x x' : String} (hx : ν.Apart x x')
    (bounds : List String) :
    Aligned (ν.tlam x x' bounds) I (x' :: F') (s.extend x .type) (s'.extend x' .type) ((x, .type) :: Γ)
      ((x', .type) :: Γ')
      { st with instances := Typing.update (.name none x :: ·) bounds st.instances }
      { st' with instances := Typing.update (.name none x' :: ·) bounds st'.instances } where
  shows := h.shows.extend x _
  shows' := h.shows'.extend x' _
  basic := by
    intro w hw
    obtain ⟨hscope, hfix⟩ := h.basic w hw
    refine ⟨List.mem_append_right _ hscope, ?_⟩
    -- a variable called like a basic type keeps its name
    by_cases hwx : w = x
    · have hx' : ν.types w = x' := (hx w hscope).mpr hwx
      rw [hwx, Naming.types_tlam_self, ← hx', hfix, hwx]
    · rw [Naming.types_tlam_of_ne ν x' bounds hwx, hfix]
  basic' := fun w hw => List.mem_cons_of_mem x' (h.basic' w hw)
  terms := by
    intro y hy u hu
    rw [Assoc.lookup_cons_if] at hu
    split_ifs at hu with hyx
    · cases hu
    · have hout : y ∉ x' :: ν.hidden :=
        fun hm => hy (List.mem_filter.mpr ⟨hm, by simpa using hyx⟩)
      obtain ⟨hne, hhidden⟩ := not_or.mp (mt List.mem_cons.mpr hout)
      obtain ⟨u', hu', hr⟩ := h.terms y hhidden u hu
      refine ⟨u', ?_, ?_⟩
      · rw [Assoc.lookup_cons_if, if_neg hne, hu']
      · exact hr.update fun hfree => (hx x ((h.within.lookup hu).inScope x hfree)).mpr rfl
  kinds := by
    intro y hy
    rw [Assoc.lookup_cons_if]
    split_ifs with hyx
    · rfl
    · exact h.kinds y ((List.mem_cons.mp hy).resolve_left hyx)
  within := by
    intro y u hy
    rcases List.mem_cons.mp hy with he | hy
    · cases he
    · exact (h.within y u hy).mono (le_refl _) fun w hw => List.mem_append_right _ hw
  within' := h.within'.cons_type x'
  tables := by
    have hold : Rule.TablesRelated (ν.tlam x x' bounds).types st.instances st'.instances := by
      refine ⟨h.tables.known, ?_⟩
      intro trait
      have hscope := h.inScope trait
      refine List.Forall₂.imp ?_ ((List.forall₂_and_left _ _).mpr ⟨hscope, h.tables.types trait⟩)
      rintro u u' ⟨hu, hr⟩
      exact hr.update fun hfree => (hx x (hu x hfree)).mpr rfl
    apply hold.assume
    have hname : (Ty.name none x).Renames (ν.tlam x x' bounds).types
        (.name none ((ν.tlam x x' bounds).types x)) := rfl
    rw [Naming.types_tlam_self] at hname
    exact hname
  inScope := by
    intro trait t ht w hw
    rcases Rule.mem_implementors_update ht with ⟨rfl, htrait⟩ | ht
    · have hmem : x ∈ bounds.map fun _ => x := List.mem_map.mpr ⟨trait, htrait, rfl⟩
      exact List.mem_append_left _ (List.mem_singleton.mp hw ▸ hmem)
    · exact List.mem_append_right _ (h.inScope trait t ht w hw)
  origin := by
    intro trait t ht
    rcases Rule.mem_implementors_update ht with ⟨rfl, -⟩ | ht
    · exact Or.inr ⟨none, x', rfl⟩
    · exact h.origin trait t ht

end Aligned

namespace Expr

/-- What is left to show of typings in step: the expressions and their types are related, and the
same traits are known behind them. -/
structure Twin (ν : Naming) (st₁ : TypingState) (r : Expr × Ty) (q : (Expr × Ty) × TypingState) :
    Prop where
  expr : r.1.Renamed ν q.1.1
  type : r.2.Renames ν.types q.1.2
  known : ∀ trait, (st₁.instances.lookup trait).isSome = (q.2.instances.lookup trait).isSome

/-- Typing by the rule goes in step on the expression and on every renamed one. -/
def InStep (rule : AppRule) (e : Expr) : Prop :=
  ∀ {ν : Naming} {I : Instances} {F F' : List String} {s s' : Scope Entry} {Γ Γ' : Context}
    {st st' st₁ : TypingState} {e' : Expr} {r : Expr × Ty}, Aligned ν I F' s s' Γ Γ' st st' →
    (∀ w ∈ ν.scope, w ∈ F) → e.Renamed ν e' → e.Within st.drawn F → e'.Within st'.drawn F' →
    (e.typeWith rule s).run st = .ok (r, st₁) →
    Follows I (Twin ν st₁ r) ((e'.typeWith rule s').run st')

/-- Typed expressions that are related, with types within the names in scope on both sides. -/
structure Paired (ν : Naming) (F F' : List String) (k k' : Nat) (r r' : Expr × Ty) : Prop where
  expr : r.1.Renamed ν r'.1
  type : r.2.Renames ν.types r'.2
  left : r.1.Within k F
  leftType : r.2.Within k F
  right : r'.1.Within k' F'
  rightType : r'.2.Within k' F'

theorem Paired.later {ν : Naming} {F F' : List String} {k k' i i' : Nat} {r r' : Expr × Ty}
    (h : Paired ν F F' k k' r r') (hk : k ≤ i) (hk' : k' ≤ i') : Paired ν F F' i i' r r' :=
  ⟨h.expr, h.type, h.left.later hk, h.leftType.later hk, h.right.later hk', h.rightType.later hk'⟩

/-- Typings in step that have come behind an expression. -/
structure Passed (ν : Naming) (I : Instances) (F F' : List String) (s s' : Scope Entry)
    (Γ Γ' : Context) (st st' st₁ : TypingState) (r : Expr × Ty) (q : (Expr × Ty) × TypingState) :
    Prop where
  paired : Paired ν F F' st₁.drawn q.2.drawn r q.1
  aligned : Aligned ν I F' s s' Γ Γ' st₁ q.2
  le : st.drawn ≤ st₁.drawn
  le' : st'.drawn ≤ q.2.drawn

def AppRule.InStep (rule : AppRule) : Prop :=
  ∀ {ν : Naming} {I : Instances} {F F' : List String} {s s' : Scope Entry} {Γ Γ' : Context}
    {st st' st₁ : TypingState} {n n' : Note} {f f' a a' r : Expr × Ty},
    Aligned ν I F' s s' Γ Γ' st st' → (∀ w ∈ ν.scope, w ∈ F) →
    Paired ν F F' st.drawn st'.drawn f f' → Paired ν F F' st.drawn st'.drawn a a' → (rule s n f a).run st = .ok (r, st₁) →
    Follows I (Twin ν st₁ r) ((rule s' n' f' a').run st')

theorem exists_covers (is : List (String × List Ty)) : ∃ J : Instances, J.Covers is := by
  refine ⟨is.flatMap fun p => p.2.map fun t => (p.1, t), ?_⟩
  intro trait t ht
  unfold implementors at ht
  cases hl : is.lookup trait with
  | none =>
    rw [hl] at ht
    cases ht
  | some ts =>
    rw [hl] at ht
    exact List.mem_flatMap.mpr
      ⟨(trait, ts), Assoc.mem_of_lookup hl, List.mem_map.mpr ⟨t, ht, rfl⟩⟩

section TypeWith

variable {rule : AppRule} {R : Expr → Expr → Prop} {ν : Naming} {I : Instances}
  {F F' : List String} {s s' : Scope Entry} {Γ Γ' : Context} {st st' st₁ : TypingState}

/-- Both typings are sound and leave the instances as they were, so that they can go on in
step. -/
theorem InStep.passed {e e' : Expr} (h : InStep rule e) (hsound : ∀ e, Sound rule R e)
    (henf : ∀ e, Enforces rule e) {r : Expr × Ty} (hal : Aligned ν I F' s s' Γ Γ' st st')
    (hF : ∀ w ∈ ν.scope, w ∈ F) (hren : e.Renamed ν e') (hw : e.Within st.drawn F)
    (hw' : e'.Within st'.drawn F') (hrun : (e.typeWith rule s).run st = .ok (r, st₁)) :
    Follows I (Passed ν I F F' s s' Γ Γ' st st' st₁ r) ((e'.typeWith rule s').run st') := by
  apply (h hal hF hren hw hw' hrun).imp
  rintro ⟨r', st₁'⟩ hrun' htwin
  obtain ⟨hk, hc⟩ := hsound e hal.shows (fun w hw => hF w (hal.basic w hw).1)
    (hal.within.mono (le_refl _) hF) hw hrun
  obtain ⟨hk', hc'⟩ := hsound e' hal.shows' hal.basic' hal.within' hw' hrun'
  obtain ⟨J, hJ⟩ := exists_covers st.instances
  obtain ⟨J', hJ'⟩ := exists_covers st'.instances
  have hi := (henf e hJ hrun).instances
  have hi' := (henf e' hJ' hrun').instances
  exact ⟨⟨htwin.expr, htwin.type, hc.within, hc.type, hc'.within, hc'.type⟩,
    hal.later hk hk' hi hi' htwin.known, hk, hk'⟩

variable (hsound : ∀ e, Sound rule R e) (henf : ∀ e, Enforces rule e)

include hsound henf in
theorem inStep_items {es es' es₁ : List Expr} (ih : ∀ e ∈ es, InStep rule e) {t t' : Ty}
    (hal : Aligned ν I F' s s' Γ Γ' st st') (hF : ∀ w ∈ ν.scope, w ∈ F)
    (ht : t.Renames ν.types t') (hren : RenamedItems ν es es')
    (hw : ∀ e ∈ es, e.Within st.drawn F)
    (hw' : ∀ e ∈ es', e.Within st'.drawn F')
    (h : (typeItems rule s t es).run st = .ok (es₁, st₁)) :
    Follows I (fun q => RenamedItems ν es₁ q.1 ∧ ∀ trait,
      (st₁.instances.lookup trait).isSome = (q.2.instances.lookup trait).isSome)
      ((typeItems rule s' t' es').run st') := by
  induction es generalizing es' es₁ st st' with
  | nil =>
    cases hren with
    | nil =>
      obtain ⟨rfl, rfl⟩ := run_pure_eq_ok h
      exact .ok ⟨.nil, hal.tables.known⟩
  | cons e es ihs =>
    cases hren with
    | @cons _ _ e' _ es' he hes =>
      obtain ⟨hwe, hwes⟩ := List.forall_mem_cons.mp hw
      obtain ⟨hwe', hwes'⟩ := List.forall_mem_cons.mp hw'
      obtain ⟨⟨e₁, u⟩, st₂, hrun, h⟩ := run_bind_eq_ok h
      have hsame : t.same u = true := by
        by_contra hne
        simp only [if_neg hne] at h
        cases h
      simp only [if_pos hsame] at h
      obtain ⟨ds, hitems, rfl⟩ := run_bind_pure_eq_ok h
      have hfirst := InStep.passed (ih e List.mem_cons_self) hsound henf hal hF he hwe hwe' hrun
      refine hfirst.bind ?_
      rintro ⟨e₁', u'⟩ st₂' hp
      have halpha : t'.AlphaSame u' := ht.alphaSame hp.paired.type hsame
      simp only
      split_ifs
      · refine (ihs (fun d hd => ih d (List.mem_cons_of_mem e hd)) hp.aligned hes
          (fun d hd => (hwes d hd).later hp.le) (fun d hd => (hwes' d hd).later hp.le')
          hitems).bind ?_
        rintro ds' st₃' ⟨hds, hknown⟩
        exact .ok ⟨.cons hp.paired.expr hds, hknown⟩
      · exact .names halpha

include hsound henf in
theorem inStep_fields {fs fs' fs₁ : List (String × Expr)} {ts : List (String × Ty)}
    (ih : ∀ f ∈ fs, InStep rule f.2) (hal : Aligned ν I F' s s' Γ Γ' st st')
    (hF : ∀ w ∈ ν.scope, w ∈ F) (hren : RenamedFields ν fs fs')
    (hw : ∀ f ∈ fs, f.2.Within st.drawn F)
    (hw' : ∀ f ∈ fs', f.2.Within st'.drawn F')
    (h : (typeFields rule s fs).run st = .ok ((fs₁, ts), st₁)) :
    Follows I (fun q => RenamedFields ν fs₁ q.1.1 ∧
      (Ty.record none ts).Renames ν.types (.record none q.1.2) ∧ ∀ trait,
      (st₁.instances.lookup trait).isSome = (q.2.instances.lookup trait).isSome)
      ((typeFields rule s' fs').run st') := by
  induction fs generalizing fs' fs₁ ts st st' with
  | nil =>
    cases hren with
    | nil =>
      obtain ⟨hres, rfl⟩ := run_pure_eq_ok h
      obtain ⟨rfl, rfl⟩ := Prod.mk.inj hres
      exact .ok ⟨.nil, rfl, hal.tables.known⟩
  | cons f fs ihs =>
    cases hren with
    | @cons _ label e e' _ fs' he hfs =>
      obtain ⟨hwe, hwfs⟩ := List.forall_mem_cons.mp hw
      obtain ⟨hwe', hwfs'⟩ := List.forall_mem_cons.mp hw'
      obtain ⟨⟨e₁, u⟩, st₂, hrun, h⟩ := run_bind_eq_ok h
      obtain ⟨⟨ds, us⟩, st₃, hfields, hret⟩ := run_bind_eq_ok h
      obtain ⟨hres, rfl⟩ := run_pure_eq_ok hret
      obtain ⟨rfl, rfl⟩ := Prod.mk.inj hres
      have hfirst := InStep.passed (ih (label, e) List.mem_cons_self) hsound henf hal hF he hwe hwe' hrun
      refine hfirst.bind ?_
      rintro ⟨e₁', u'⟩ st₂' hp
      refine (ihs (fun d hd => ih d (List.mem_cons_of_mem _ hd)) hp.aligned hfs
        (fun d hd => (hwfs d hd).later hp.le) (fun d hd => (hwfs' d hd).later hp.le')
        hfields).bind ?_
      rintro ⟨ds', us'⟩ st₃' ⟨hds, hus, hknown⟩
      exact .ok ⟨.cons hp.paired.expr hds, hp.paired.type.record_cons label hus, hknown⟩

include hsound henf in
/-- Typings go in step if the rule for applications does. -/
theorem inStep_typeWith (hrule : rule.InStep) (e : Expr) : InStep rule e := by
  induction e using Expr.induction with
  | lam n x p body ih =>
    intro ν I F F' s s' Γ Γ' st st' st₁ e' r hal hF hren hw hw' h
    cases hren with
    | lam hp hb =>
      cases p with
      | typed t =>
        obtain ⟨t', rfl, ht⟩ := hp t rfl
        obtain ⟨⟨body₁, u⟩, st₂, hbody, hret⟩ := run_bind_eq_ok h
        obtain ⟨rfl, rfl⟩ := run_pure_eq_ok hret
        have hF' : ∀ w ∈ (ν.lam x (.typed t)).scope, w ∈ F :=
          List.forall_mem_append.mpr ⟨Ty.Within.inScope hw.1, hF⟩
        have hbound := hal.bind (hal.shows.extend x _) (hal.shows'.extend x _) ht hw.1 hw'.1
        have hinner := InStep.passed ih hsound henf hbound hF' hb hw.2 hw'.2 hbody
        refine hinner.bind ?_
        rintro ⟨body₁', u'⟩ st₂' hpass
        have hparam : (Param.typed t).Renamed ν.types (.typed t') :=
          fun v hv => ⟨t', rfl, Param.typed.inj hv ▸ ht⟩
        exact .ok ⟨.lam hparam hpass.paired.expr, ht.arrow hpass.paired.type none none,
          hpass.aligned.tables.known⟩
      | dictionary => cases h
      | erased => cases h
  | tlam n x bounds body ih =>
    intro ν I F F' s s' Γ Γ' st st' st₁ e' r hal hF hren hw hw' h
    cases hren with
    | @tlam _ _ n' _ x' _ _ body' hx hfree hb =>
      obtain ⟨_, st₂, hassume, h⟩ := run_bind_eq_ok h
      obtain ⟨-, rfl⟩ := Prod.mk.inj (Except.ok.inj hassume)
      obtain ⟨⟨body₁, u⟩, st₃, hbody, h⟩ := run_bind_eq_ok h
      obtain ⟨_, st₄, hrelease, hret⟩ := run_bind_eq_ok h
      obtain ⟨-, rfl⟩ := Prod.mk.inj (Except.ok.inj hrelease)
      obtain ⟨rfl, rfl⟩ := run_pure_eq_ok hret
      -- names of which one would become the variable's are left out: nothing inside has them
      have hF' : ∀ w ∈ (ν.tlam x x' bounds).scope, w ∈ x :: F.filter (ν.types · ≠ x') := by
        intro w hw
        by_cases hwx : w = x
        · exact hwx ▸ List.mem_cons_self
        · have hscope : w ∈ ν.scope := (ν.mem_scope_tlam hw).resolve_left hwx
          have hne : ν.types w ≠ x' := fun he => hwx ((hx w hscope).mp he)
          exact List.mem_cons_of_mem x (List.mem_filter.mpr ⟨hF w hscope, by simpa using hne⟩)
      have hbw : body.Within st.drawn (x :: F.filter (ν.types · ≠ x')) := by
        rw [within_iff body hw.2]
        intro w hw'
        by_cases hwx : w = x
        · exact hwx ▸ List.mem_cons_self
        · have hmem : w ∈ F :=
            (List.mem_cons.mp ((within_iff body hw.2 _).mp hw.2 w hw')).resolve_left hwx
          exact List.mem_cons_of_mem x
            (List.mem_filter.mpr ⟨hmem, by simpa using hfree w hw' hwx⟩)
      have hinner := InStep.passed ih hsound henf (hal.tlam hx bounds) hF' hb hbw hw'.2 hbody
      have hstart : Follows I (fun q => q.2 = { st' with
          instances := Typing.update (.name none x' :: ·) bounds st'.instances })
          ((Typing.assume (.name none x') bounds).run st') := .ok rfl
      refine hstart.bind ?_
      rintro _ st₂' rfl
      refine hinner.bind ?_
      rintro ⟨body₁', u'⟩ st₃' hpass
      have hapart : ∀ y ∈ x :: F.filter (ν.types · ≠ x'), y ≠ x → ν.types y ≠ x' := by
        intro y hy hyx
        have hy' := (List.mem_filter.mp ((List.mem_cons.mp hy).resolve_left hyx)).2
        simpa using hy'
      have hfree₁ : ∀ y ∈ body₁.openTypes, y ≠ x → ν.types y ≠ x' := fun y hy =>
        hapart y ((within_iff body₁ hpass.paired.left _).mp hpass.paired.left y hy)
      have htype : ∀ y ∈ u.free, y ≠ x → ν.types y ≠ x' := fun y hy =>
        hapart y (hpass.paired.leftType.inScope y hy)
      exact .ok ⟨.tlam hx hfree₁ hpass.paired.expr,
        hpass.paired.type.all htype none none bounds,
        Rule.known_update hpass.aligned.tables.known _ _ bounds⟩
  | cond n c y z ihc ihy ihz =>
    intro ν I F F' s s' Γ Γ' st st' st₁ e' r hal hF hren hw hw' h
    cases hren with
    | cond hc hy hz =>
      obtain ⟨⟨c₁, t₁⟩, st₂, hcrun, h⟩ := run_bind_eq_ok h
      obtain ⟨⟨y₁, t₂⟩, st₃, hyrun, h⟩ := run_bind_eq_ok h
      obtain ⟨⟨z₁, t₃⟩, st₄, hzrun, h⟩ := run_bind_eq_ok h
      obtain ⟨t, ht, rfl⟩ := run_bind_pure_eq_ok h
      obtain ⟨hcond, rfl⟩ := run_lift_eq_ok ht
      refine (InStep.passed ihc hsound henf hal hF hc hw.1 hw'.1 hcrun).bind ?_
      rintro ⟨c₁', t₁'⟩ st₂' pc
      refine (InStep.passed ihy hsound henf pc.aligned hF hy (hw.2.1.later pc.le)
        (hw'.2.1.later pc.le') hyrun).bind ?_
      rintro ⟨y₁', t₂'⟩ st₃' py
      refine (InStep.passed ihz hsound henf py.aligned hF hz (hw.2.2.later (pc.le.trans py.le))
        (hw'.2.2.later (pc.le'.trans py.le')) hzrun).bind ?_
      rintro ⟨z₁', t₃'⟩ st₄' pz
      refine (Rule.follows_cond (fun w hw => (hal.basic w hw).2) pc.paired.type py.paired.type
        pz.paired.type hcond).annotate ?_
      intro t' ht'
      exact ⟨.cond pc.paired.expr py.paired.expr pz.paired.expr, ht', pz.aligned.tables.known⟩
  | bin n op l r ihl ihr =>
    intro ν I F F' s s' Γ Γ' st st' st₁ e' res hal hF hren hw hw' h
    cases hren with
    | bin hl hr =>
      obtain ⟨⟨l₁, t₁⟩, st₂, hlrun, h⟩ := run_bind_eq_ok h
      obtain ⟨⟨r₁, t₂⟩, st₃, hrrun, h⟩ := run_bind_eq_ok h
      obtain ⟨t, ht, rfl⟩ := run_bind_pure_eq_ok h
      obtain ⟨hbin, rfl⟩ := run_lift_eq_ok ht
      refine (InStep.passed ihl hsound henf hal hF hl hw.1 hw'.1 hlrun).bind ?_
      rintro ⟨l₁', t₁'⟩ st₂' pl
      refine (InStep.passed ihr hsound henf pl.aligned hF hr (hw.2.later pl.le) (hw'.2.later pl.le')
        hrrun).bind ?_
      rintro ⟨r₁', t₂'⟩ st₃' pr
      refine (Rule.follows_bin (fun w hw => (hal.basic w hw).2) pl.paired.type pr.paired.type
        hbin).annotate ?_
      intro t' ht'
      exact ⟨.bin pl.paired.expr pr.paired.expr, ht', pr.aligned.tables.known⟩
  | un n op e ih =>
    intro ν I F F' s s' Γ Γ' st st' st₁ e' r hal hF hren hw hw' h
    cases hren with
    | un he =>
      obtain ⟨⟨e₁, t₁⟩, st₂, hrun, h⟩ := run_bind_eq_ok h
      obtain ⟨t, ht, rfl⟩ := run_bind_pure_eq_ok h
      obtain ⟨hun, rfl⟩ := run_lift_eq_ok ht
      refine (InStep.passed ih hsound henf hal hF he hw hw' hrun).bind ?_
      rintro ⟨e₁', t₁'⟩ st₂' pe
      refine (Rule.follows_un (fun w hw => (hal.basic w hw).2) pe.paired.type hun).annotate ?_
      intro t' ht'
      exact ⟨.un pe.paired.expr, ht', pe.aligned.tables.known⟩
  | app n f a ihf iha =>
    intro ν I F F' s s' Γ Γ' st st' st₁ e' r hal hF hren hw hw' h
    cases hren with
    | app hf ha =>
      obtain ⟨f₁, st₂, hfrun, h⟩ := run_bind_eq_ok h
      obtain ⟨a₁, st₃, harun, h⟩ := run_bind_eq_ok h
      refine (InStep.passed ihf hsound henf hal hF hf hw.1 hw'.1 hfrun).bind ?_
      rintro f₁' st₂' pf
      refine (InStep.passed iha hsound henf pf.aligned hF ha (hw.2.later pf.le) (hw'.2.later pf.le')
        harun).bind ?_
      rintro a₁' st₃' pa
      exact hrule pa.aligned hF (pf.paired.later pa.le pa.le') pa.paired h
  | tapp n f t ih =>
    intro ν I F F' s s' Γ Γ' st st' st₁ e' r hal hF hren hw hw' h
    cases hren with
    | tapp hf ht =>
      obtain ⟨⟨f₁, q⟩, st₂, hrun, h⟩ := run_bind_eq_ok h
      obtain ⟨u, hu, rfl⟩ := run_bind_pure_eq_ok h
      refine (InStep.passed ih hsound henf hal hF hf hw.1 hw'.1 hrun).bind ?_
      rintro ⟨f₁', q'⟩ st₂' pf
      obtain ⟨hst, hfollows⟩ := Rule.follows_tapp pf.aligned.tables pf.aligned.origin
        pf.paired.type ht pf.paired.leftType (hw.2.later pf.le) pf.paired.rightType
        (hw'.2.later pf.le') hu
      refine hfollows.bind ?_
      rintro u' st₃' ⟨hu', hst'⟩
      refine .ok ⟨.tapp pf.paired.expr ht, hu', ?_⟩
      rw [hst, hst']
      exact pf.aligned.tables.known
  | ascribe n e t ih =>
    intro ν I F F' s s' Γ Γ' st st' st₁ e' r hal hF hren hw hw' h
    cases hren with
    | ascribe he ht =>
      obtain ⟨⟨e₁, t₁⟩, st₂, hrun, h⟩ := run_bind_eq_ok h
      obtain ⟨u, hu, rfl⟩ := run_bind_pure_eq_ok h
      obtain ⟨hascribe, rfl⟩ := run_lift_eq_ok hu
      refine (InStep.passed ih hsound henf hal hF he hw.1 hw'.1 hrun).bind ?_
      rintro ⟨e₁', t₁'⟩ st₂' pe
      refine (Rule.follows_ascribe ht pe.paired.type hascribe).annotate ?_
      intro t' ht'
      exact ⟨.ascribe pe.paired.expr ht, ht', pe.aligned.tables.known⟩
  | proj n e label ih =>
    intro ν I F F' s s' Γ Γ' st st' st₁ e' r hal hF hren hw hw' h
    cases hren with
    | proj he =>
      obtain ⟨⟨e₁, t₁⟩, st₂, hrun, h⟩ := run_bind_eq_ok h
      obtain ⟨u, hu, rfl⟩ := run_bind_pure_eq_ok h
      obtain ⟨hproj, rfl⟩ := run_lift_eq_ok hu
      refine (InStep.passed ih hsound henf hal hF he hw hw' hrun).bind ?_
      rintro ⟨e₁', t₁'⟩ st₂' pe
      refine (Rule.follows_proj pe.paired.type hproj).annotate ?_
      intro t' ht'
      exact ⟨.proj pe.paired.expr, ht', pe.aligned.tables.known⟩
  | var n x =>
    intro ν I F F' s s' Γ Γ' st st' st₁ e' r hal hF hren hw hw' h
    obtain ⟨t, ht, rfl⟩ := run_bind_pure_eq_ok h
    obtain ⟨hvar, rfl⟩ := run_lift_eq_ok ht
    have hx : Γ.lookup x = some (.term t) := (hal.shows x).symm.trans (Rule.var_ok hvar)
    cases hren with
    | @var _ _ n' _ hout =>
      obtain ⟨t', ht', hr⟩ := hal.terms x hout t hx
      have hvar' : Rule.var s' n'.line x = .ok t' := by
        rw [Rule.var, hal.shows' x, ht']
      have hfollows : Follows I (t.Renames ν.types ·) (Rule.var s' n'.line x) := by
        rw [hvar']
        exact .ok hr
      refine hfollows.annotate ?_
      intro u hu
      exact ⟨.var hout, hu, hal.tables.known⟩
    | kind hkind =>
      -- a name that stands for a type has no type
      rw [hal.kinds x hkind] at hx
      cases hx
  | val n v =>
    intro ν I F F' s s' Γ Γ' st st' st₁ e' r hal hF hren hw hw' h
    cases hren with
    | val =>
      obtain ⟨rfl, rfl⟩ := run_pure_eq_ok h
      have hlit : (Rule.lit v).Renames ν.types (Rule.lit v) := by
        cases v with
        | int => exact Rule.renames_basic (hal.basic "Int" (by decide)).2
        | text => exact Rule.renames_basic (hal.basic "String" (by decide)).2
        | bool => exact Rule.renames_basic (hal.basic "Bool" (by decide)).2
      exact .ok ⟨.val, hlit, hal.tables.known⟩
  | list n es ih =>
    intro ν I F F' s s' Γ Γ' st st' st₁ e' r hal hF hren hw hw' h
    cases hren with
    | list hes =>
      cases hes with
      | nil =>
        obtain ⟨rfl, rfl⟩ := run_pure_eq_ok h
        exact .ok ⟨.list .nil, rfl, hal.tables.known⟩
      | @cons _ e e' es es' he hes =>
        obtain ⟨⟨e₁, t⟩, st₂, hrun, h⟩ := run_bind_eq_ok h
        obtain ⟨es₁, hitems, rfl⟩ := run_bind_pure_eq_ok h
        refine (InStep.passed (ih e List.mem_cons_self) hsound henf hal hF he hw.1 hw'.1 hrun).bind ?_
        rintro ⟨e₁', t'⟩ st₂' pe
        have hrest := inStep_items hsound henf (fun d hd => ih d (List.mem_cons_of_mem e hd))
          pe.aligned hF pe.paired.type hes (fun d hd => (withinItems_iff.mp hw.2 d hd).later pe.le)
          (fun d hd => (withinItems_iff.mp hw'.2 d hd).later pe.le') hitems
        refine hrest.bind ?_
        rintro es₁' st₃' ⟨hes', hknown⟩
        exact .ok ⟨.list (.cons pe.paired.expr hes'), pe.paired.type.list none none, hknown⟩
  | record n fs ih =>
    intro ν I F F' s s' Γ Γ' st st' st₁ e' r hal hF hren hw hw' h
    cases hren with
    | record hfs =>
      obtain ⟨⟨fs₁, ts⟩, st₂, hfields, hret⟩ := run_bind_eq_ok h
      obtain ⟨rfl, rfl⟩ := run_pure_eq_ok hret
      refine (inStep_fields hsound henf ih hal hF hfs (withinFields_iff.mp hw)
        (withinFields_iff.mp hw') hfields).bind ?_
      rintro ⟨fs₁', ts'⟩ st₂' ⟨hfs', hts, hknown⟩
      exact .ok ⟨.record hfs', hts, hknown⟩

end TypeWith

theorem inStep_explicitApp : AppRule.InStep explicitApp := by
  intro ν I F F' s s' Γ Γ' st st' st₁ n n' f f' a a' r hal hF hf ha h
  obtain ⟨t, ht, rfl⟩ := run_bind_pure_eq_ok h
  obtain ⟨happ, rfl⟩ := run_lift_eq_ok ht
  refine (Rule.follows_app hf.type ha.type happ).annotate ?_
  intro t' ht'
  exact ⟨.app hf.expr ha.expr, ht', hal.tables.known⟩

theorem enforces_explicit (e : Expr) : Enforces explicitApp e :=
  enforces_typeWith enforces_explicitApp e

theorem inStep_explicit (e : Expr) : InStep explicitApp e :=
  inStep_typeWith sound_explicit enforces_explicit inStep_explicitApp e

/-- With inference: if a type argument is found on one side, then on the other side too, or the
types that are found there differ in names only. -/
theorem inStep_inferApp : AppRule.InStep inferApp := by
  intro ν I F F' s s' Γ Γ' st st' st₁ n n' f f' a a' r hal hF hf ha h
  unfold inferApp at h
  split at h
  · next l x bs l₁ dom cod hfn =>
    split at h
    · next t ht =>
      have hfun := hf.type
      rw [hfn] at hfun
      obtain ⟨l', x', body', hfn', hbody⟩ := hfun.all_left
      obtain ⟨l₁', dom', cod', rfl, hdom, -⟩ := Ty.nameless_eq_arrow hbody
      unfold inferApp
      rw [hfn']
      simp only
      cases ht' : dom'.unify x' a'.2 with
      | none =>
        have hfits := (Ty.finds_of_unify dom ht).fits.rename ν.types
        rw [← hdom, ← ha.type] at hfits
        exact .names ⟨l', x', bs, l₁', dom', cod', _, rfl, hfits⟩
      | some t' =>
        have hrel : t.Renames ν.types t' :=
          (Ty.finds_of_unify dom ht).renames hdom ha.type (Ty.finds_of_unify dom' ht')
        obtain ⟨f₁, st₂, hfrun, h⟩ := run_bind_eq_ok h
        obtain ⟨a₁, st₃, harun, h⟩ := run_bind_eq_ok h
        -- the completed application is typed a second time, in step again
        have htapp : (tapp ⟨n.line, none⟩ f.1 t).Renamed ν (tapp ⟨n'.line, none⟩ f'.1 t') :=
          .tapp hf.expr hrel
        have hcomplete := InStep.passed (inStep_explicit (tapp ⟨n.line, none⟩ f.1 t))
          sound_explicit enforces_explicit hal hF htapp
          ⟨hf.left, (Ty.finds_of_unify dom ht).within ha.leftType⟩
          ⟨hf.right, (Ty.finds_of_unify dom' ht').within ha.rightType⟩ hfrun
        refine hcomplete.bind ?_
        rintro f₁' st₂' pf
        refine (InStep.passed (inStep_explicit a.1) sound_explicit enforces_explicit pf.aligned
          hF ha.expr (ha.left.later pf.le) (ha.right.later pf.le') harun).bind ?_
        rintro a₁' st₃' pa
        exact inStep_explicitApp pa.aligned hF (pf.paired.later pa.le pa.le') pa.paired h
    · cases h
  · next hne =>
    -- the function is no quantified one on either side
    obtain ⟨u, st₂, hu, -⟩ := run_bind_eq_ok h
    obtain ⟨l, dom, hfn, -⟩ := Rule.app_ok (run_lift_eq_ok hu).1
    have hfun := hf.type
    rw [hfn] at hfun
    obtain ⟨l', dom', cod', hfn', -, -⟩ := hfun.arrow_left
    have hplain : inferApp s' n' f' a' = explicitApp s' n' f' a' := by
      simp only [inferApp, hfn']
    rw [hplain]
    exact inStep_explicitApp hal hF hf ha h

theorem enforces_infer (e : Expr) : Enforces inferApp e := enforces_typeWith enforces_inferApp e

theorem inStep_infer (e : Expr) : InStep inferApp e :=
  inStep_typeWith sound_infer enforces_infer inStep_inferApp e

end Expr

/-- No name is another one on the other side. -/
def Naming.same (F : List String) : Naming := ⟨id, F, [], []⟩

theorem Aligned.widen {F F' : List String} {I : Instances} {s s' : Scope Entry}
    {Γ Γ' : Context} {st st' : TypingState} (h : Aligned (.same F) I F' s s' Γ Γ' st st')
    (F₁ : List String) (hF : ∀ w ∈ F, w ∈ F₁) : Aligned (.same F₁) I F' s s' Γ Γ' st st' :=
  { h with
    basic := fun w hw => ⟨hF w (h.basic w hw).1, rfl⟩
    within := h.within.mono (le_refl _) hF
    inScope := fun trait t ht w hw => hF w (h.inScope trait t ht w hw) }

namespace Stmt

/-- The free names of the types that typing meets in a statement. -/
def openTypes : Stmt → List String
  | assign _ _ e => e.openTypes
  | eval _ e => e.openTypes
  | inst _ _ type _ => type.free
  | field _ _ _ type => type.free

/-- The instance that a statement announces. -/
def announced? : Stmt → Option (String × Ty)
  | inst _ trait type _ => some (trait, type)
  | _ => none

/-- The second statement is the first one with type variables renamed. Dictionaries are not looked
at: they have been typed before. -/
inductive Renamed (F : List String) : Stmt → Stmt → Prop
  | assign {line line' : Nat} {x : String} {e e' : Expr} (he : e.Renamed (.same F) e') :
      Renamed F (assign line x e) (assign line' x e')
  | eval {line line' : Nat} {e e' : Expr} (he : e.Renamed (.same F) e') :
      Renamed F (eval line e) (eval line' e')
  | inst {line line' : Nat} {trait : String} {type : Ty} {dict dict' : Expr} :
      Renamed F (inst line trait type dict) (inst line' trait type dict')
  | field {line line' : Nat} {x trait : String} {type : Ty} :
      Renamed F (field line x trait type) (field line' x trait type)

/-- Statements in order. The types of what a statement binds have names that it has. -/
inductive RenamedAll : List String → List Stmt → List Stmt → Prop
  | nil {F : List String} : RenamedAll F [] []
  | cons {F : List String} {s s' : Stmt} {ss ss' : List Stmt} (hs : s.Renamed F s')
      (hss : RenamedAll (s.openTypes ++ F) ss ss') : RenamedAll F (s :: ss) (s' :: ss')

variable {F F' G : List String} {I : Instances} {sc sc' : Scope Entry} {Γ Γ' : Context}
  {st st' st₁ : TypingState}

/-- Typings in step that have come behind a statement. -/
structure Passed (F : List String) (I : Instances) (F' : List String) (st st' st₁ : TypingState)
    (sc₁ : Scope Entry) (q : (Stmt × Scope Entry × String) × TypingState) : Prop where
  aligned : ∃ Γ₁ Γ₁', Aligned (.same F) I F' sc₁ q.1.2.1 Γ₁ Γ₁' st₁ q.2
  le : st.drawn ≤ st₁.drawn
  le' : st'.drawn ≤ q.2.drawn

/-- The expression of a statement. -/
theorem passed_expr {e e' : Expr} {r : Expr × Ty} (hal : Aligned (.same F) I F' sc sc' Γ Γ' st st')
    (he : e.Renamed (.same F) e') (hw : e.Within st.drawn G) (hw' : e'.Within st'.drawn F')
    (hrun : (e.infer sc).run st = .ok (r, st₁)) :
    Follows I (Expr.Passed (.same F) I (e.openTypes ++ F) F' sc sc' Γ Γ' st st' st₁ r)
      ((e'.infer sc').run st') := by
  have hopen : e.Within st.drawn (e.openTypes ++ F) :=
    (e.within_iff hw _).mpr fun w hw => List.mem_append_left _ hw
  exact Expr.InStep.passed e.inStep_infer Expr.sound_infer Expr.enforces_infer hal
    (fun w hw => List.mem_append_right _ hw) he hopen hw' hrun

/-- One statement, in step. -/
theorem inStep_infer {s s' s₁ : Stmt} {sc₁ : Scope Entry} {line : String}
    (hal : Aligned (.same F) I F' sc sc' Γ Γ' st st') (hren : s.Renamed F s')
    (hw : s.Within st.drawn G) (hw' : s'.Within st'.drawn F')
    (hI : ∀ i ∈ s'.announced?, i ∈ I)
    (hrun : (s.infer sc).run st = .ok ((s₁, sc₁, line), st₁)) :
    Follows I (Passed (s.openTypes ++ F) I F' st st' st₁ sc₁) ((s'.infer sc').run st') := by
  cases hren with
  | @assign l l' x e e' he =>
    obtain ⟨⟨e₁, t⟩, st₂, he₁, hret⟩ := run_bind_eq_ok hrun
    obtain ⟨hres, rfl⟩ := run_pure_eq_ok hret
    obtain ⟨-, hscope⟩ := Prod.mk.inj hres
    obtain ⟨rfl, -⟩ := Prod.mk.inj hscope
    refine (passed_expr hal he hw hw' he₁).bind ?_
    rintro ⟨e₁', t'⟩ st₂' hp
    have hal' := hp.aligned
    have hbound := hal'.bind (hal'.shows.set x _) (hal'.shows'.set x _) hp.paired.type
      hp.paired.leftType hp.paired.rightType
    have hnames : ∀ w ∈ t.free ++ F, w ∈ e.openTypes ++ F :=
      List.forall_mem_append.mpr
        ⟨hp.paired.leftType.inScope, fun w hw => List.mem_append_right _ hw⟩
    exact .ok ⟨⟨_, _, Aligned.widen hbound _ hnames⟩, hp.le, hp.le'⟩
  | @eval l l' e e' he =>
    obtain ⟨⟨e₁, t⟩, st₂, he₁, hret⟩ := run_bind_eq_ok hrun
    obtain ⟨hres, rfl⟩ := run_pure_eq_ok hret
    obtain ⟨-, hscope⟩ := Prod.mk.inj hres
    obtain ⟨rfl, -⟩ := Prod.mk.inj hscope
    refine (passed_expr hal he hw hw' he₁).bind ?_
    rintro ⟨e₁', t'⟩ st₂' hp
    have hwide := hp.aligned.widen (e.openTypes ++ F) fun w hw => List.mem_append_right _ hw
    exact .ok ⟨⟨_, _, hwide⟩, hp.le, hp.le'⟩
  | @inst l l' trait type dict dict' =>
    obtain ⟨_, st₂, hassume, hret⟩ := run_bind_eq_ok hrun
    obtain ⟨-, rfl⟩ := Prod.mk.inj (Except.ok.inj hassume)
    obtain ⟨hres, rfl⟩ := run_pure_eq_ok hret
    obtain ⟨-, hscope⟩ := Prod.mk.inj hres
    obtain ⟨rfl, -⟩ := Prod.mk.inj hscope
    have hwide := hal.widen (type.free ++ F) fun w hw => List.mem_append_right _ hw
    refine .ok ⟨⟨Γ, Γ', { hwide with tables := ?_, inScope := ?_, origin := ?_ }⟩, le_refl _,
      le_refl _⟩
    · exact hal.tables.assume (.refl type) [trait]
    · intro other t ht w hwt
      rcases Rule.mem_implementors_update ht with ⟨rfl, -⟩ | ht
      · exact List.mem_append_left _ hwt
      · exact List.mem_append_right _ (hal.inScope other t ht w hwt)
    · intro other t ht
      rcases Rule.mem_implementors_update ht with ⟨rfl, hmem⟩ | ht
      · rw [List.mem_singleton.mp hmem]
        exact Or.inl (hI _ rfl)
      · exact hal.origin other t ht
  | @field l l' x trait type =>
    obtain ⟨hres, rfl⟩ := run_pure_eq_ok hrun
    obtain ⟨-, hscope⟩ := Prod.mk.inj hres
    obtain ⟨rfl, -⟩ := Prod.mk.inj hscope
    have hbound := hal.bind (hal.shows.set x _) (hal.shows'.set x _) (.refl type) hw hw'
    exact .ok ⟨⟨_, _, hbound⟩, le_refl _, le_refl _⟩

theorem inStep_inferAll {ss ss' done done' : List Stmt} {log log' : String}
    (hal : Aligned (.same F) I F' sc sc' Γ Γ' st st') (hren : RenamedAll F ss ss')
    (hw : ∀ s ∈ ss, s.Within st.drawn G) (hw' : ∀ s ∈ ss', s.Within st'.drawn F')
    (hI : ∀ s ∈ ss', ∀ i ∈ s.announced?, i ∈ I)
    (h : (inferAll sc st log done ss).2.isOk = true) :
    Follows I (fun _ => True) (inferAll sc' st' log' done' ss').2 := by
  induction hren generalizing sc sc' Γ Γ' st st' log log' done done' with
  | nil => exact .ok trivial
  | @cons F s s' ss ss' hs _ ih =>
    obtain ⟨hws, hwss⟩ := List.forall_mem_cons.mp hw
    obtain ⟨hws', hwss'⟩ := List.forall_mem_cons.mp hw'
    obtain ⟨hIs, hIss⟩ := List.forall_mem_cons.mp hI
    unfold inferAll at h ⊢
    split at h
    · cases h
    · next s₁ sc₁ line st₁ hrun =>
      have hstep := inStep_infer hal hs hws hws' hIs hrun
      cases hrun' : (s'.infer sc').run st' with
      | error e =>
        rw [hrun'] at hstep
        cases hstep with
        | names he => exact .names he
      | ok q =>
        rw [hrun'] at hstep
        cases hstep with
        | ok hp =>
          obtain ⟨Γ₁, Γ₁', hal₁⟩ := hp.aligned
          exact ih hal₁ (fun d hd => (hwss d hd).later hp.le)
            (fun d hd => (hwss' d hd).later hp.le') hIss h

end Stmt

namespace Program

/-- The instances that a program announces. -/
def announced (p : Program Stmt) : Instances := p.stmts.filterMap Stmt.announced?

/-- A program starts with no instances, and with builtins whose types are closed. -/
theorem aligned_builtins (I : Instances) {F' : List String} (drawn : Nat)
    (hF' : ∀ w ∈ Ty.basicNames, w ∈ F') :
    Aligned (.same Ty.basicNames) I F' Scope.builtins Scope.builtins Context.builtins
      Context.builtins { drawn := drawn } { drawn := drawn } where
  shows := Scope.shows_builtins
  shows' := Scope.shows_builtins
  basic := fun w hw => ⟨hw, rfl⟩
  basic' := hF'
  terms := fun x _ t ht => ⟨t, ht, .refl t⟩
  kinds := by simp [Naming.same]
  within := Context.within_builtins fun w hw => hw
  within' := Context.within_builtins hF'
  tables := ⟨fun _ => rfl, fun _ => .nil⟩
  inScope := by simp [implementors]
  origin := by simp [implementors]

/-- Programs in step: if one is accepted, then so is the other one, or it has a fault of names
only. -/
theorem inStep_infer {p p' : Program Stmt} {drawn : Nat} {F' G : List String}
    (hren : Stmt.RenamedAll Ty.basicNames p.stmts p'.stmts) (hF' : ∀ w ∈ Ty.basicNames, w ∈ F')
    (hw : ∀ s ∈ p.stmts, s.Within drawn G) (hw' : ∀ s ∈ p'.stmts, s.Within drawn F')
    (h : (p.infer drawn).2.isOk = true) :
    Follows p'.announced (fun _ => True) (p'.infer drawn).2 := by
  have hstart := aligned_builtins p'.announced drawn hF'
  have hI : ∀ s ∈ p'.stmts, ∀ i ∈ s.announced?, i ∈ p'.announced :=
    fun s hs i hi => List.mem_filterMap.mpr ⟨s, hs, hi⟩
  have hall : (Stmt.inferAll Scope.builtins { drawn := drawn } "" [] p.stmts).2.isOk = true := by
    unfold infer at h
    split at h
    · cases h
    · next hrun =>
      rw [hrun]
      rfl
  have hfollows : Follows p'.announced (fun _ => True)
      (Stmt.inferAll Scope.builtins { drawn := drawn } "" [] p'.stmts).2 :=
    Stmt.inStep_inferAll hstart hren hw hw' hI hall
  unfold infer
  split
  · next hrun =>
    rw [hrun] at hfollows
    cases hfollows with
    | names he => exact .names he
  · exact .ok trivial

end Program

end TraitCalculus
