import Mathlib
import TraitCalculus.Proofs.TypeScope

/-! Resolution computes a normal form. What it leaves applies no types and has only names of basic
types and of binders around them; such types are fixed points of resolution, whatever the
abbreviations. Instantiation keeps the form, so all abbreviations are in it too. -/
namespace TraitCalculus

namespace Ty

mutual

/-- A type is applied somewhere in the type. -/
def hasApp : Ty → Bool
  | name .. => false
  | all _ _ _ body => body.hasApp
  | arrow _ dom cod => dom.hasApp || cod.hasApp
  | app .. => true
  | list _ elem => elem.hasApp
  | emptyList => false
  | record _ fields => hasAppFields fields

def hasAppFields : List (String × Ty) → Bool
  | [] => false
  | (_, t) :: fields => t.hasApp || hasAppFields fields

end

mutual

/-- The form of a resolved type under binders over `bound`. Functions, lists and records are made
anew by resolution, and have no lines. -/
def Normal (bound : List String) : Ty → Prop
  | name _ x => x ∈ basicNames ∨ x ∈ bound
  | all _ x _ body => body.Normal (x :: bound)
  | arrow line dom cod => line = none ∧ dom.Normal bound ∧ cod.Normal bound
  | app .. => False
  | list line elem => line = none ∧ elem.Normal bound
  | emptyList => True
  | record line fields => line = none ∧ NormalFields bound fields

def NormalFields (bound : List String) : List (String × Ty) → Prop
  | [] => True
  | (_, t) :: fields => t.Normal bound ∧ NormalFields bound fields

end

theorem hasAppFields_eq_false {fields : List (String × Ty)} :
    hasAppFields fields = false ↔ ∀ f ∈ fields, f.2.hasApp = false := by
  induction fields with
  | nil => simp [hasAppFields]
  | cons f fields ih => simp [hasAppFields, ih]

theorem normalFields_iff {bound : List String} {fields : List (String × Ty)} :
    NormalFields bound fields ↔ ∀ f ∈ fields, f.2.Normal bound :=
  walk_iff trivial (fun _ _ => Iff.rfl) fields

namespace Normal

variable {bound bound' : List String} {t : Ty}

theorem mono (h : t.Normal bound) (hb : ∀ w ∈ bound, w ∈ bound') : t.Normal bound' := by
  induction t using Ty.induction generalizing bound bound' with
  | name line x => exact h.imp_right (hb x)
  | all line x bounds body ih =>
    apply ih h
    intro w hw
    exact List.mem_cons.mpr ((List.mem_cons.mp hw).imp_right (hb w))
  | arrow line dom cod ihd ihc => exact ⟨h.1, ihd h.2.1 hb, ihc h.2.2 hb⟩
  | app line fn arg => exact h
  | list line elem ih => exact ⟨h.1, ih h.2 hb⟩
  | emptyList => trivial
  | record line fields ih =>
    refine ⟨h.1, normalFields_iff.mpr ?_⟩
    intro f hf
    exact ih f hf (normalFields_iff.mp h.2 f hf) hb

theorem hasApp_eq_false (h : t.Normal bound) : t.hasApp = false := by
  induction t using Ty.induction generalizing bound with
  | name line x => rfl
  | all line x bounds body ih => exact ih h
  | arrow line dom cod ihd ihc => simp [hasApp, ihd h.2.1, ihc h.2.2]
  | app line fn arg => exact h.elim
  | list line elem ih => exact ih h.2
  | emptyList => rfl
  | record line fields ih =>
    apply hasAppFields_eq_false.mpr
    intro f hf
    exact ih f hf (normalFields_iff.mp h.2 f hf)

theorem free_subset (h : t.Normal bound) : ∀ w ∈ t.free, w ∈ basicNames ∨ w ∈ bound := by
  induction t using Ty.induction generalizing bound with
  | name line x => exact List.forall_mem_singleton.mpr h
  | all line x bounds body ih =>
    intro w hw
    obtain ⟨hwb, hwx⟩ : w ∈ body.free ∧ w ≠ x := by simpa [free] using hw
    exact (ih h w hwb).imp_right fun hm => (List.mem_cons.mp hm).resolve_left hwx
  | arrow line dom cod ihd ihc => exact List.forall_mem_append.mpr ⟨ihd h.2.1, ihc h.2.2⟩
  | app line fn arg => exact h.elim
  | list line elem ih => exact ih h.2
  | emptyList => simp [free]
  | record line fields ih =>
    intro w hw
    obtain ⟨f, hf, hwf⟩ := mem_freeFields.mp hw
    exact ih f hf (normalFields_iff.mp h.2 f hf) w hwf

end Normal

/-- Nothing is left to resolve in a normal type: no abbreviation is looked up, and no name is
drawn. -/
theorem run_resolve_of_normal (t : Ty) {bound : List String} (h : t.Normal bound)
    (aliases : Aliases) (k : Nat) : (t.resolve aliases bound).run k = .ok (t, k) := by
  induction t using Ty.induction generalizing bound with
  | name line x =>
    have hname : resolveName aliases bound line x = .ok (name line x) := if_pos h
    rw [resolve, hname]
    rfl
  | all line x bounds body ih =>
    rw [resolve, run_bind_of_ok (ih h)]
    rfl
  | arrow line dom cod ihd ihc =>
    obtain ⟨rfl, hd, hc⟩ := h
    rw [resolve, run_bind_of_ok (ihd hd), run_bind_of_ok (ihc hc)]
    rfl
  | app line fn arg => exact h.elim
  | list line elem ih =>
    obtain ⟨rfl, he⟩ := h
    rw [resolve, run_bind_of_ok (ih he)]
    rfl
  | emptyList => rfl
  | record line fields ih =>
    obtain ⟨rfl, hfs⟩ := h
    have hfields : (resolveFields aliases bound fields).run k = .ok (fields, k) := by
      induction fields with
      | nil => rfl
      | cons f fields ihs =>
        obtain ⟨ihf, ihfs⟩ := List.forall_mem_cons.mp ih
        rw [resolveFields, run_bind_of_ok (ihf hfs.1), run_bind_of_ok (ihs ihfs hfs.2)]
        rfl
    rw [resolve, run_bind_of_ok hfields]
    rfl

/-- A substitution on its way, from binders over `bound` in the type to binders over `bound'` in
the result, that leaves only names in scope there and the new type, which is normal. -/
structure Settling (bound bound' : List String) (ρ : List (String × String))
    (σ : Option (String × Ty)) : Prop where
  new : ∀ y new, σ = some (y, new) → new.Normal bound'
  names : ∀ w, w ∈ basicNames ∨ w ∈ bound →
    (∃ new, σ = some (renamed ρ w, new)) ∨ renamed ρ w ∈ basicNames ∨ renamed ρ w ∈ bound'

namespace Settling

variable {bound bound' : List String} {ρ : List (String × String)} {σ : Option (String × Ty)}

theorem normal_substName (h : Settling bound bound' ρ σ) (line : Option Nat) {w : String}
    (hw : w ∈ basicNames ∨ w ∈ bound) : (substName ρ σ line w).Normal bound' := by
  by_cases hσ : ∃ new, σ = some (renamed ρ w, new)
  · obtain ⟨new, rfl⟩ := hσ
    rw [substName_of_eq]
    exact h.new _ new rfl
  · have hne : ∀ y new, σ = some (y, new) → renamed ρ w ≠ y := by
      rintro y new hy rfl
      exact hσ ⟨new, hy⟩
    obtain ⟨line', hname⟩ := substName_of_ne ρ σ line w hne
    rw [hname]
    exact (h.names w hw).resolve_left hσ

/-- No freshness is asked for: a name that were captured would still be in scope. -/
theorem enter (h : Settling bound bound' ρ σ) {x z : String} {k k' : Nat}
    {ρ' : List (String × String)} {σ' : Option (String × Ty)} (hin : Entered x ρ σ k z ρ' σ' k') :
    Settling (x :: bound) (z :: bound') ρ' σ' := by
  have hself : renamed ρ' x = z := by
    cases hin with
    | hidden _ | kept _ _ _ _ _ => exact Underway.renamed_erase_self ρ x
    | renamed _ _ _ _ _ => exact Underway.renamed_cons_self _ x _
  have hrest : ∀ w, w ≠ x → renamed ρ' w = renamed ρ w := by
    intro w hw
    cases hin with
    | hidden _ | kept _ _ _ _ _ => exact Underway.renamed_erase_of_ne ρ hw
    | renamed _ _ _ _ _ =>
      rw [Underway.renamed_cons_of_ne _ _ hw, Underway.renamed_erase_of_ne ρ hw]
  -- below a quantifier the pair is still there, or it was for the quantifier's own name
  have hpair : σ' = σ ∨ σ' = none ∧ ∀ y new, σ = some (y, new) → y = z := by
    cases hin with
    | hidden hσ =>
      refine Or.inr ⟨rfl, ?_⟩
      intro y new hy
      rcases hσ with hnone | ⟨t, ht⟩
      · cases hnone.symm.trans hy
      · cases ht.symm.trans hy
        rfl
    | kept _ _ _ _ _ | renamed _ _ _ _ _ => exact Or.inl rfl
  constructor
  · intro y new hy
    rcases hpair with rfl | ⟨hnone, -⟩
    · exact (h.new y new hy).mono fun w hw => List.mem_cons_of_mem z hw
    · cases hnone.symm.trans hy
  · intro w hw
    by_cases hwx : w = x
    · rw [hwx, hself]
      exact Or.inr (Or.inr List.mem_cons_self)
    · rw [hrest w hwx]
      have hw' : w ∈ basicNames ∨ w ∈ bound :=
        hw.imp_right fun hm => (List.mem_cons.mp hm).resolve_left hwx
      rcases h.names w hw' with ⟨new, hσ⟩ | hbasic | hbound
      · rcases hpair with rfl | ⟨-, hz⟩
        · exact Or.inl ⟨new, hσ⟩
        · rw [hz _ new hσ]
          exact Or.inr (Or.inr List.mem_cons_self)
      · exact Or.inr (Or.inl hbasic)
      · exact Or.inr (Or.inr (List.mem_cons_of_mem z hbound))

theorem normal_substIn (t : Ty) (h : Settling bound bound' ρ σ) (ht : t.Normal bound) (k : Nat) :
    ((t.substIn ρ σ).run k).1.Normal bound' := by
  induction t using Ty.induction generalizing bound bound' ρ σ k with
  | name line x => exact h.normal_substName line ht
  | all line x bounds body ih =>
    obtain ⟨z, ρ', σ', k', hin, hrun⟩ := run_substIn_all ρ σ k line x bounds body
    rw [hrun]
    exact ih (h.enter hin) ht k'
  | arrow line dom cod ihd ihc => exact ⟨ht.1, ihd h ht.2.1 k, ihc h ht.2.2 _⟩
  | app line fn arg => exact ht.elim
  | list line elem ih => exact ⟨ht.1, ih h ht.2 k⟩
  | emptyList => trivial
  | record line fields ih =>
    refine ⟨ht.1, normalFields_iff.mpr ?_⟩
    intro g hg
    obtain ⟨f, hf, j, -, rfl, -⟩ :=
      (mem_substFields ρ σ k fields fun f _ j => substIn_drawn_le f.2 ρ σ j).2 g hg
    exact ih f hf h (normalFields_iff.mp ht.2 f hf) j

end Settling

/-- Instantiation leaves a normal type. -/
theorem normal_subst {bound : List String} {body arg : Ty} {x : String}
    (hbody : body.Normal (x :: bound)) (harg : arg.Normal bound) (k : Nat) :
    ((body.subst x arg).run k).1.Normal bound := by
  have hstart : Settling (x :: bound) bound [] (some (x, arg)) := by
    constructor
    · intro y new hy
      obtain ⟨rfl, rfl⟩ : x = y ∧ arg = new := by simpa using hy
      exact harg
    · intro w hw
      by_cases hwx : w = x
      · exact Or.inl ⟨arg, by rw [hwx]; rfl⟩
      · exact Or.inr (hw.imp_right fun hm => (List.mem_cons.mp hm).resolve_left hwx)
  exact hstart.normal_substIn body hbody k

end Ty

/-- What abbreviations stand for is resolved, and closed but for the names of basic types. -/
def Aliases.Normal (aliases : Aliases) : Prop := ∀ p ∈ aliases, p.2.Normal []

namespace Ty

variable {aliases : Aliases} {bound : List String}

theorem normal_resolveName {line : Option Nat} {x : String} {t : Ty} (ha : aliases.Normal)
    (h : resolveName aliases bound line x = .ok t) : t.Normal bound := by
  unfold resolveName at h
  split_ifs at h with hb
  · obtain rfl : name line x = t := Except.ok.inj h
    exact hb
  · split at h
    · rename_i u hu
      obtain rfl : u = t := Except.ok.inj h
      obtain ⟨l₁, l₂, hl, -⟩ := List.lookup_eq_some_iff.mp hu
      exact (ha (x, u) (by simp [hl])).mono fun w hw => nomatch hw
    · cases h

theorem normal_resolve (t : Ty) {k k' : Nat} {t' : Ty} (ha : aliases.Normal)
    (h : (t.resolve aliases bound).run k = .ok (t', k')) : t'.Normal bound := by
  induction t using Ty.induction generalizing bound k k' t' with
  | name line x => exact normal_resolveName ha (run_lift_eq_ok h).1
  | all line x bounds body ih =>
    obtain ⟨body', hbody, rfl⟩ := run_bind_pure_eq_ok h
    have hb : body'.Normal (x :: bound) := ih hbody
    exact hb
  | arrow line dom cod ihd ihc =>
    obtain ⟨dom', k₁, hdom, h⟩ := run_bind_eq_ok h
    obtain ⟨cod', hcod, rfl⟩ := run_bind_pure_eq_ok h
    exact ⟨rfl, ihd hdom, ihc hcod⟩
  | app line fn arg ihf iha =>
    obtain ⟨fn', k₁, hfn, h⟩ := run_bind_eq_ok h
    obtain ⟨arg', k₂, harg, h⟩ := run_bind_eq_ok h
    have hf := ihf hfn
    -- a quantified type is instantiated at once, and nothing else can be applied
    split at h
    · rename_i l x bs body
      obtain ⟨rfl, rfl⟩ := Prod.mk.inj (Except.ok.inj h)
      exact normal_subst hf (iha harg) k₂
    · cases h
  | list line elem ih =>
    obtain ⟨elem', helem, rfl⟩ := run_bind_pure_eq_ok h
    exact ⟨rfl, ih helem⟩
  | emptyList =>
    obtain ⟨rfl, rfl⟩ := run_pure_eq_ok h
    trivial
  | record line fields ih =>
    obtain ⟨fields', hfields, rfl⟩ := run_bind_pure_eq_ok h
    refine ⟨rfl, ?_⟩
    clear h
    induction fields generalizing k fields' with
    | nil =>
      obtain ⟨rfl, rfl⟩ := run_pure_eq_ok hfields
      trivial
    | cons f fields ihs =>
      obtain ⟨u, k₁, hu, h⟩ := run_bind_eq_ok hfields
      obtain ⟨rest, hrest, rfl⟩ := run_bind_pure_eq_ok h
      exact ⟨ih f List.mem_cons_self hu,
        ihs (fun g hg => ih g (List.mem_cons_of_mem f hg)) rest hrest⟩

end Ty

namespace Param

/-- The types that are written in a parameter. -/
def types : Param → List Ty
  | typed t => [t]
  | _ => []

def Normal (bound : List String) (p : Param) : Prop := ∀ t ∈ p.types, t.Normal bound

theorem run_resolve_of_normal (p : Param) {bound : List String} (h : p.Normal bound)
    (aliases : Aliases) (k : Nat) : (p.resolve aliases bound).run k = .ok (p, k) := by
  cases p with
  | typed t =>
    have ht : t.Normal bound := h t List.mem_cons_self
    rw [resolve, run_bind_of_ok (t.run_resolve_of_normal ht aliases k)]
    rfl
  | dictionary => rfl
  | erased => rfl

theorem normal_resolve (p : Param) {aliases : Aliases} {bound : List String} {k k' : Nat}
    {p' : Param} (ha : aliases.Normal) (h : (p.resolve aliases bound).run k = .ok (p', k')) :
    p'.Normal bound := by
  cases p with
  | typed t =>
    obtain ⟨t', ht, rfl⟩ := run_bind_pure_eq_ok h
    exact List.forall_mem_singleton.mpr (t.normal_resolve ha ht)
  | dictionary | erased =>
    obtain ⟨rfl, rfl⟩ := run_pure_eq_ok h
    exact fun t ht => nomatch ht

end Param

namespace Expr

mutual

/-- The types that are written in an expression: those of parameters, annotations and type
arguments. -/
def types : Expr → List Ty
  | lam _ _ p body => p.types ++ body.types
  | tlam _ _ _ body => body.types
  | cond _ c y z => c.types ++ (y.types ++ z.types)
  | bin _ _ l r => l.types ++ r.types
  | un _ _ e => e.types
  | app _ f a => f.types ++ a.types
  | tapp _ f t => t :: f.types
  | ascribe _ e t => t :: e.types
  | proj _ e _ => e.types
  | var .. => []
  | val .. => []
  | list _ es => typesItems es
  | record _ fs => typesFields fs

def typesItems : List Expr → List Ty
  | [] => []
  | e :: es => e.types ++ typesItems es

def typesFields : List (String × Expr) → List Ty
  | [] => []
  | (_, e) :: fs => e.types ++ typesFields fs

end

mutual

/-- All types of an expression are resolved. Lambdas bind type names too. -/
def Normal (bound : List String) : Expr → Prop
  | lam _ x p body => p.Normal (x :: bound) ∧ body.Normal (x :: bound)
  | tlam _ x _ body => body.Normal (x :: bound)
  | cond _ c y z => c.Normal bound ∧ y.Normal bound ∧ z.Normal bound
  | bin _ _ l r => l.Normal bound ∧ r.Normal bound
  | un _ _ e => e.Normal bound
  | app _ f a => f.Normal bound ∧ a.Normal bound
  | tapp _ f t => f.Normal bound ∧ t.Normal bound
  | ascribe _ e t => e.Normal bound ∧ t.Normal bound
  | proj _ e _ => e.Normal bound
  | var .. => True
  | val .. => True
  | list _ es => NormalItems bound es
  | record _ fs => NormalFields bound fs

def NormalItems (bound : List String) : List Expr → Prop
  | [] => True
  | e :: es => e.Normal bound ∧ NormalItems bound es

def NormalFields (bound : List String) : List (String × Expr) → Prop
  | [] => True
  | (_, e) :: fs => e.Normal bound ∧ NormalFields bound fs

end

theorem Normal.types_normal {e : Expr} {bound : List String} (h : e.Normal bound) :
    ∀ t ∈ e.types, ∃ inner, t.Normal inner := by
  induction e using Expr.induction generalizing bound with
  | lam n x p body ih =>
    exact List.forall_mem_append.mpr ⟨fun t ht => ⟨x :: bound, h.1 t ht⟩, ih h.2⟩
  | tlam n x bounds body ih =>
    have hbody : body.Normal (x :: bound) := h
    exact ih hbody
  | cond n c y z ihc ihy ihz =>
    exact List.forall_mem_append.mpr
      ⟨ihc h.1, List.forall_mem_append.mpr ⟨ihy h.2.1, ihz h.2.2⟩⟩
  | bin n op l r ihl ihr | app n f a ihl ihr => exact List.forall_mem_append.mpr ⟨ihl h.1, ihr h.2⟩
  | un n op e ih => exact ih h
  | tapp n f t ih | ascribe n e t ih => exact List.forall_mem_cons.mpr ⟨⟨bound, h.2⟩, ih h.1⟩
  | proj n e label ih => exact ih h
  | var n x => exact fun t ht => nomatch ht
  | val n v => exact fun t ht => nomatch ht
  | list n es ih =>
    have hes : NormalItems bound es := h
    induction es with
    | nil => exact fun t ht => nomatch ht
    | cons e es ihs =>
      obtain ⟨ihe, ihes⟩ := List.forall_mem_cons.mp ih
      exact List.forall_mem_append.mpr ⟨ihe hes.1, ihs ihes hes.2 hes.2⟩
  | record n fs ih =>
    have hfs : NormalFields bound fs := h
    induction fs with
    | nil => exact fun t ht => nomatch ht
    | cons f fs ihs =>
      obtain ⟨ihf, ihfs⟩ := List.forall_mem_cons.mp ih
      exact List.forall_mem_append.mpr ⟨ihf hfs.1, ihs ihfs hfs.2 hfs.2⟩

theorem run_resolve_of_normal (e : Expr) {bound : List String} (h : e.Normal bound)
    (aliases : Aliases) (k : Nat) : (e.resolve aliases bound).run k = .ok (e, k) := by
  induction e using Expr.induction generalizing bound with
  | lam n x p body ih =>
    rw [resolve, run_bind_of_ok (p.run_resolve_of_normal h.1 aliases k), run_bind_of_ok (ih h.2)]
    rfl
  | tlam n x bounds body ih =>
    have hbody : body.Normal (x :: bound) := h
    rw [resolve, run_bind_of_ok (ih hbody)]
    rfl
  | cond n c y z ihc ihy ihz =>
    rw [resolve, run_bind_of_ok (ihc h.1), run_bind_of_ok (ihy h.2.1), run_bind_of_ok (ihz h.2.2)]
    rfl
  | bin n op l r ihl ihr | app n f a ihl ihr =>
    rw [resolve, run_bind_of_ok (ihl h.1), run_bind_of_ok (ihr h.2)]
    rfl
  | un n op e ih | proj n e label ih =>
    rw [resolve, run_bind_of_ok (ih h)]
    rfl
  | tapp n f t ih | ascribe n e t ih =>
    rw [resolve, run_bind_of_ok (ih h.1), run_bind_of_ok (t.run_resolve_of_normal h.2 aliases k)]
    rfl
  | var n x => rfl
  | val n v => rfl
  | list n es ih =>
    have hes : NormalItems bound es := h
    have hitems : (resolveItems aliases bound es).run k = .ok (es, k) := by
      clear h
      induction es with
      | nil => rfl
      | cons e es ihs =>
        obtain ⟨ihe, ihes⟩ := List.forall_mem_cons.mp ih
        rw [resolveItems, run_bind_of_ok (ihe hes.1), run_bind_of_ok (ihs ihes hes.2)]
        rfl
    rw [resolve, run_bind_of_ok hitems]
    rfl
  | record n fs ih =>
    have hfs : NormalFields bound fs := h
    have hfields : (resolveFields aliases bound fs).run k = .ok (fs, k) := by
      clear h
      induction fs with
      | nil => rfl
      | cons f fs ihs =>
        obtain ⟨ihf, ihfs⟩ := List.forall_mem_cons.mp ih
        rw [resolveFields, run_bind_of_ok (ihf hfs.1), run_bind_of_ok (ihs ihfs hfs.2)]
        rfl
    rw [resolve, run_bind_of_ok hfields]
    rfl

theorem normal_resolve (e : Expr) {aliases : Aliases} {bound : List String} {k k' : Nat}
    {e' : Expr} (ha : aliases.Normal) (h : (e.resolve aliases bound).run k = .ok (e', k')) :
    e'.Normal bound := by
  induction e using Expr.induction generalizing bound k k' e' with
  | lam n x p body ih =>
    obtain ⟨p', k₁, hp, h⟩ := run_bind_eq_ok h
    obtain ⟨body', hbody, rfl⟩ := run_bind_pure_eq_ok h
    exact ⟨p.normal_resolve ha hp, ih hbody⟩
  | tlam n x bounds body ih =>
    obtain ⟨body', hbody, rfl⟩ := run_bind_pure_eq_ok h
    have hb : body'.Normal (x :: bound) := ih hbody
    exact hb
  | cond n c y z ihc ihy ihz =>
    obtain ⟨c', k₁, hc, h⟩ := run_bind_eq_ok h
    obtain ⟨y', k₂, hy, h⟩ := run_bind_eq_ok h
    obtain ⟨z', hz, rfl⟩ := run_bind_pure_eq_ok h
    exact ⟨ihc hc, ihy hy, ihz hz⟩
  | bin n op l r ihl ihr | app n f a ihl ihr =>
    obtain ⟨l', k₁, hl, h⟩ := run_bind_eq_ok h
    obtain ⟨r', hr, rfl⟩ := run_bind_pure_eq_ok h
    exact ⟨ihl hl, ihr hr⟩
  | un n op e ih | proj n e label ih =>
    obtain ⟨e', he, rfl⟩ := run_bind_pure_eq_ok h
    have hnormal : e'.Normal bound := ih he
    exact hnormal
  | tapp n f t ih | ascribe n e t ih =>
    obtain ⟨f', k₁, hf, h⟩ := run_bind_eq_ok h
    obtain ⟨t', ht, rfl⟩ := run_bind_pure_eq_ok h
    exact ⟨ih hf, t.normal_resolve ha ht⟩
  | var n x | val n v =>
    obtain ⟨rfl, rfl⟩ := run_pure_eq_ok h
    trivial
  | list n es ih | record n es ih =>
    obtain ⟨es', hes, rfl⟩ := run_bind_pure_eq_ok h
    clear h
    induction es generalizing k es' with
    | nil =>
      obtain ⟨rfl, rfl⟩ := run_pure_eq_ok hes
      trivial
    | cons e es ihs =>
      obtain ⟨e', k₁, he, h⟩ := run_bind_eq_ok hes
      obtain ⟨rest, hrest, rfl⟩ := run_bind_pure_eq_ok h
      obtain ⟨ihe, ihes⟩ := List.forall_mem_cons.mp ih
      exact ⟨ihe he, ihs ihes rest hrest⟩

end Expr

namespace Stmt

/-- The types that are written in a statement. -/
def types : Stmt → List Ty
  | assign _ _ e => e.types
  | eval _ e => e.types
  | inst _ _ type dict => type :: dict.types
  | field _ _ _ type => [type]

def Normal : Stmt → Prop
  | assign _ _ e => e.Normal []
  | eval _ e => e.Normal []
  | inst _ _ type dict => type.Normal [] ∧ dict.Normal []
  | field _ _ _ type => type.Normal []

theorem Normal.hasApp_eq_false {s : Stmt} (h : s.Normal) : ∀ t ∈ s.types, t.hasApp = false := by
  have hexpr : ∀ e : Expr, e.Normal [] → ∀ t ∈ e.types, t.hasApp = false := by
    intro e he t ht
    obtain ⟨inner, hn⟩ := he.types_normal t ht
    exact hn.hasApp_eq_false
  cases s with
  | assign line x e | eval line e => exact hexpr e h
  | inst line trait type dict =>
    exact List.forall_mem_cons.mpr ⟨h.1.hasApp_eq_false, hexpr dict h.2⟩
  | field line x trait type =>
    have ht : type.Normal [] := h
    exact List.forall_mem_singleton.mpr ht.hasApp_eq_false

theorem run_resolve_of_normal (s : Stmt) (h : s.Normal) (aliases : Aliases) (k : Nat) :
    (s.resolve aliases).run k = .ok (s, k) := by
  cases s with
  | assign line x e | eval line e | field line x trait e =>
    rw [resolve, run_bind_of_ok (e.run_resolve_of_normal h aliases k)]
    rfl
  | inst line trait type dict =>
    rw [resolve, run_bind_of_ok (type.run_resolve_of_normal h.1 aliases k),
      run_bind_of_ok (dict.run_resolve_of_normal h.2 aliases k)]
    rfl

theorem normal_resolve (s : Stmt) {aliases : Aliases} {k k' : Nat} {s' : Stmt}
    (ha : aliases.Normal) (h : (s.resolve aliases).run k = .ok (s', k')) : s'.Normal := by
  cases s with
  | assign line x e | eval line e | field line x trait e =>
    obtain ⟨e', he, rfl⟩ := run_bind_pure_eq_ok h
    exact e.normal_resolve ha he
  | inst line trait type dict =>
    obtain ⟨type', k₁, ht, h⟩ := run_bind_eq_ok h
    obtain ⟨dict', hd, rfl⟩ := run_bind_pure_eq_ok h
    exact ⟨type.normal_resolve ha ht, dict.normal_resolve ha hd⟩

end Stmt

namespace Decl

/-- One declaration: the abbreviations after it, and the statements so far, last first. -/
def step (table : Aliases × List Stmt) : Decl → Resolve (Aliases × List Stmt)
  | typedef _ x t => return (Assoc.insert x (← t.resolve table.1 []) table.1, table.2)
  | stmt s => return (table.1, (← s.resolve table.1) :: table.2)

theorem resolveAll_cons (aliases : Aliases) (done : List Stmt) (d : Decl) (ds : List Decl) :
    resolveAll aliases done (d :: ds) =
      step (aliases, done) d >>= fun table => resolveAll table.1 table.2 ds := by
  cases d with
  | typedef line x t | stmt s => simp only [resolveAll, step, bind_assoc, pure_bind]

/-- Resolution of a program, cut in two: the second part starts with the table that the first
leaves. -/
theorem resolveAll_append (aliases : Aliases) (done : List Stmt) (ds es : List Decl) :
    resolveAll aliases done (ds ++ es) =
      ds.foldlM step (aliases, done) >>= fun table => resolveAll table.1 table.2 es := by
  induction ds generalizing aliases done with
  | nil => simp
  | cons d ds ih =>
    rw [List.cons_append, resolveAll_cons, List.foldlM_cons, bind_assoc]
    exact bind_congr fun table => ih table.1 table.2

/-- The abbreviations and statements so far are resolved. -/
def Settled (table : Aliases × List Stmt) : Prop :=
  table.1.Normal ∧ ∀ s ∈ table.2, s.Normal

theorem settled_step {table table' : Aliases × List Stmt} {d : Decl} {k k' : Nat}
    (hs : Settled table) (h : (step table d).run k = .ok (table', k')) : Settled table' := by
  cases d with
  | typedef line x t =>
    obtain ⟨t', ht, rfl⟩ := run_bind_pure_eq_ok h
    have ht' : t'.Normal [] := t.normal_resolve hs.1 ht
    refine ⟨?_, hs.2⟩
    intro p hp
    rcases Assoc.mem_insert hp with rfl | hp
    · exact ht'
    · exact hs.1 p hp
  | stmt s =>
    obtain ⟨s', hs', rfl⟩ := run_bind_pure_eq_ok h
    exact ⟨hs.1, List.forall_mem_cons.mpr ⟨s.normal_resolve hs.1 hs', hs.2⟩⟩

theorem settled_foldlM {ds : List Decl} {table table' : Aliases × List Stmt} {k k' : Nat}
    (hs : Settled table) (h : (ds.foldlM step table).run k = .ok (table', k')) :
    Settled table' := by
  induction ds generalizing table k with
  | nil =>
    obtain ⟨rfl, rfl⟩ := run_pure_eq_ok h
    exact hs
  | cons d ds ih =>
    rw [List.foldlM_cons] at h
    obtain ⟨table₁, k₁, hd, hds⟩ := run_bind_eq_ok h
    exact ih (settled_step hs hd) hds

/-- Resolved statements are taken over as they are. -/
theorem run_resolveAll_of_normal (ss : List Stmt) (h : ∀ s ∈ ss, s.Normal) (aliases : Aliases)
    (done : List Stmt) (k : Nat) :
    (resolveAll aliases done (ss.map .stmt)).run k = .ok (done.reverse ++ ss, k) := by
  induction ss generalizing done with
  | nil =>
    rw [List.append_nil]
    rfl
  | cons s ss ih =>
    obtain ⟨hs, hss⟩ := List.forall_mem_cons.mp h
    rw [List.map_cons, resolveAll, run_bind_of_ok (s.run_resolve_of_normal hs aliases k),
      ih hss (s :: done), List.reverse_cons, List.append_assoc, List.singleton_append]

end Decl

namespace Program

/-- A resolved program is a program whose declarations are all statements. -/
def ofResolved (q : Program Stmt) : Program Decl := ⟨q.line, q.stmts.map .stmt⟩

theorem run_resolve_eq_ok {p : Program Decl} {q : Program Stmt} {k k' : Nat}
    (h : p.resolve.run k = .ok (q, k')) :
    q.line = p.line ∧ (Decl.resolveAll [] [] p.stmts).run k = .ok (q.stmts, k') := by
  obtain ⟨ss, hss, rfl⟩ := run_bind_pure_eq_ok h
  exact ⟨rfl, hss⟩

theorem settled_start : Decl.Settled ([], []) := by
  constructor
  · exact fun p hp => nomatch hp
  · exact fun s hs => nomatch hs

theorem normal_of_resolve {p : Program Decl} {q : Program Stmt} {k k' : Nat}
    (h : p.resolve.run k = .ok (q, k')) : ∀ s ∈ q.stmts, s.Normal := by
  obtain ⟨-, hrun⟩ := run_resolve_eq_ok h
  rw [← List.append_nil p.stmts, Decl.resolveAll_append] at hrun
  obtain ⟨table, k₁, hfold, hret⟩ := run_bind_eq_ok hrun
  obtain ⟨hq, rfl⟩ := run_pure_eq_ok hret
  intro s hs
  rw [hq, List.mem_reverse] at hs
  exact (Decl.settled_foldlM settled_start hfold).2 s hs

/-- Resolution computes a normal form. No type is applied in what it leaves; the abbreviations
that it has stored, at every point between two declarations, are closed but for the names of basic
types; and resolution of the result, from any counter, leaves it as it is and draws no name. -/
theorem resolve_normalForm (p : Program Decl) (k : Nat) {q : Program Stmt} {k' : Nat}
    (h : p.resolve.run k = .ok (q, k')) :
    (∀ s ∈ q.stmts, ∀ t ∈ s.types, t.hasApp = false) ∧
    (∀ ds es, p.stmts = ds ++ es → ∃ aliases done j,
      (ds.foldlM Decl.step ([], [])).run k = .ok ((aliases, done), j) ∧
      (Decl.resolveAll aliases done es).run j = .ok (q.stmts, k') ∧
      ∀ a ∈ aliases, a.2.hasApp = false ∧ ∀ x ∈ a.2.free, x ∈ Ty.basicNames) ∧
    ∀ j, (ofResolved q).resolve.run j = .ok (q, j) := by
  have hnormal := normal_of_resolve h
  refine ⟨fun s hs => (hnormal s hs).hasApp_eq_false, ?_, ?_⟩
  · intro ds es hsplit
    obtain ⟨-, hrun⟩ := run_resolve_eq_ok h
    rw [hsplit, Decl.resolveAll_append] at hrun
    obtain ⟨⟨aliases, done⟩, j, hfold, hrest⟩ := run_bind_eq_ok hrun
    refine ⟨aliases, done, j, hfold, hrest, ?_⟩
    intro a ha
    have hclosed : a.2.Normal [] := (Decl.settled_foldlM settled_start hfold).1 a ha
    exact ⟨hclosed.hasApp_eq_false,
      fun x hx => (hclosed.free_subset x hx).resolve_right List.not_mem_nil⟩
  · intro j
    have hagain := Decl.run_resolveAll_of_normal q.stmts hnormal [] [] j
    rw [resolve, ofResolved, run_bind_of_ok hagain]
    rfl

/-- An abbreviation that applies another one under a quantifier over the same name, and a trait
whose instance is at an applied abbreviation. -/
def abbreviationSample : String :=
  "type K = forall a. forall b. a -> b -> a;\n" ++ "type Swap = forall b. K b;\n" ++
    "trait Pick c \x7bpick: Swap c -> c;\x7d\n" ++
    "impl Pick for Int \x7bpick = \\f: Swap Int. f @Bool 1 true;\x7d\n"

theorem resolve_normalForm_abbreviations : ∃ p q k', desugarText abbreviationSample = .ok p ∧
    p.resolve.run 0 = .ok (q, k') ∧ 0 < k' ∧
    (∀ s ∈ q.stmts, ∀ t ∈ s.types, t.hasApp = false) ∧
    ∀ j, (ofResolved q).resolve.run j = .ok (q, j) := by
  have hrun : ((resolveText abbreviationSample).toOption.any fun r => 0 < r.2) = true := by
    decide +kernel
  unfold resolveText at hrun
  cases hp : desugarText abbreviationSample with
  | error e =>
    rw [hp] at hrun
    cases hrun
  | ok p =>
    rw [hp] at hrun
    cases hq : p.resolve.run 0 with
    | error e =>
      simp only [hq] at hrun
      cases hrun
    | ok r =>
      obtain ⟨q, k'⟩ := r
      simp only [hq] at hrun
      have hdrawn : 0 < k' := of_decide_eq_true hrun
      obtain ⟨hnone, -, hagain⟩ := resolve_normalForm p 0 hq
      exact ⟨p, q, k', rfl, hq, hdrawn, hnone, hagain⟩

end Program

end TraitCalculus
