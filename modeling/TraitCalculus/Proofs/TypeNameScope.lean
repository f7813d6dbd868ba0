import Mathlib
import TraitCalculus.Proofs.NormalForms

/-! The scope of type names. `Program.resolveTypes` resolves type names in the scope of type
lambdas and quantifiers only, so that every name it leaves is a basic type or bound by one of
these. Resolution keeps the parameters of lambdas among the bound type names as well. The two
agree, failures included, on programs in which no type uses the name of a parameter around it as
the name of something else; elsewhere a parameter can hide an abbreviation or stand in for a type
that is not declared. -/
namespace TraitCalculus

/-- A type with the type lambdas and the lambdas around the place where it is written. -/
structure ScopedType where
  typeVars : List String
  params : List String
  type : Ty

namespace ScopedType

/-- No parameter has the name of an abbreviation or of an unknown type that the type uses. -/
def Separate (s : ScopedType) : Prop :=
  ∀ w ∈ s.type.free, w ∈ s.params → w ∈ Ty.basicNames ∨ w ∈ s.typeVars

instance (s : ScopedType) : Decidable s.Separate :=
  inferInstanceAs (Decidable (∀ w ∈ s.type.free, _))

/-- The type is resolved in the scope of the type lambdas around it. -/
def Resolved (s : ScopedType) : Prop := s.type.Normal s.typeVars

end ScopedType

namespace Expr

mutual

/-- The types that are written in an expression, each with what is around it. -/
def scopedTypes (typeVars params : List String) : Expr → List ScopedType
  | lam _ x p body =>
    p.types.map (ScopedType.mk typeVars (x :: params)) ++ body.scopedTypes typeVars (x :: params)
  | tlam _ x _ body => body.scopedTypes (x :: typeVars) params
  | cond _ c y z =>
    c.scopedTypes typeVars params ++
      (y.scopedTypes typeVars params ++ z.scopedTypes typeVars params)
  | bin _ _ l r => l.scopedTypes typeVars params ++ r.scopedTypes typeVars params
  | un _ _ e => e.scopedTypes typeVars params
  | app _ f a => f.scopedTypes typeVars params ++ a.scopedTypes typeVars params
  | tapp _ f t => ⟨typeVars, params, t⟩ :: f.scopedTypes typeVars params
  | ascribe _ e t => ⟨typeVars, params, t⟩ :: e.scopedTypes typeVars params
  | proj _ e _ => e.scopedTypes typeVars params
  | var .. => []
  | val .. => []
  | list _ es => scopedTypesItems typeVars params es
  | record _ fs => scopedTypesFields typeVars params fs

def scopedTypesItems (typeVars params : List String) : List Expr → List ScopedType
  | [] => []
  | e :: es => e.scopedTypes typeVars params ++ scopedTypesItems typeVars params es

def scopedTypesFields (typeVars params : List String) : List (String × Expr) → List ScopedType
  | [] => []
  | (_, e) :: fs => e.scopedTypes typeVars params ++ scopedTypesFields typeVars params fs

end

mutual

/-- Resolves the types in an expression. Lambdas bind no type names. -/
def resolveTypes (aliases : Aliases) (typeVars : List String) : Expr → Resolve Expr
  | lam n x p body => do
    let p ← p.resolve aliases typeVars
    return lam n x p (← body.resolveTypes aliases typeVars)
  | tlam n x bounds body => return tlam n x bounds (← body.resolveTypes aliases (x :: typeVars))
  | cond n c y z => do
    let c ← c.resolveTypes aliases typeVars
    let y ← y.resolveTypes aliases typeVars
    return cond n c y (← z.resolveTypes aliases typeVars)
  | bin n op l r => do
    let l ← l.resolveTypes aliases typeVars
    return bin n op l (← r.resolveTypes aliases typeVars)
  | un n op e => return un n op (← e.resolveTypes aliases typeVars)
  | app n f a => do
    let f ← f.resolveTypes aliases typeVars
    return app n f (← a.resolveTypes aliases typeVars)
  | tapp n f t => do
    let f ← f.resolveTypes aliases typeVars
    return tapp n f (← t.resolve aliases typeVars)
  | ascribe n e t => do
    let e ← e.resolveTypes aliases typeVars
    return ascribe n e (← t.resolve aliases typeVars)
  | proj n e label => return proj n (← e.resolveTypes aliases typeVars) label
  | var n x => return var n x
  | val n v => return val n v
  | list n es => return list n (← resolveTypesItems aliases typeVars es)
  | record n fs => return record n (← resolveTypesFields aliases typeVars fs)

def resolveTypesItems (aliases : Aliases) (typeVars : List String) :
    List Expr → Resolve (List Expr)
  | [] => return []
  | e :: es => do
    let e ← e.resolveTypes aliases typeVars
    return e :: (← resolveTypesItems aliases typeVars es)

def resolveTypesFields (aliases : Aliases) (typeVars : List String) :
    List (String × Expr) → Resolve (List (String × Expr))
  | [] => return []
  | (label, e) :: fs => do
    let e ← e.resolveTypes aliases typeVars
    return (label, e) :: (← resolveTypesFields aliases typeVars fs)

end

end Expr

namespace Stmt

def scopedTypes : Stmt → List ScopedType
  | assign _ _ e => e.scopedTypes [] []
  | eval _ e => e.scopedTypes [] []
  | inst _ _ type dict => ⟨[], [], type⟩ :: dict.scopedTypes [] []
  | field _ _ _ type => [⟨[], [], type⟩]

def resolveTypes (aliases : Aliases) : Stmt → Resolve Stmt
  | assign line x e => return assign line x (← e.resolveTypes aliases [])
  | eval line e => return eval line (← e.resolveTypes aliases [])
  | inst line trait type dict => do
    let type ← type.resolve aliases []
    return inst line trait type (← dict.resolveTypes aliases [])
  | field line x trait type => return field line x trait (← type.resolve aliases [])

end Stmt

namespace Decl

def scopedTypes : Decl → List ScopedType
  | typedef _ _ t => [⟨[], [], t⟩]
  | stmt s => s.scopedTypes

def resolveTypesAll (aliases : Aliases) (done : List Stmt) : List Decl → Resolve (List Stmt)
  | [] => return done.reverse
  | typedef _ x t :: ds => do
    let t ← t.resolve aliases []
    resolveTypesAll (Assoc.insert x t aliases) done ds
  | stmt s :: ds => do
    let s ← s.resolveTypes aliases
    resolveTypesAll aliases (s :: done) ds

end Decl

namespace Program

/-- Resolves the types of a program in the scope of type lambdas and quantifiers. -/
def resolveTypes (p : Program Decl) : Resolve (Program Stmt) :=
  return ⟨p.line, ← Decl.resolveTypesAll [] [] p.stmts⟩

def Separate (p : Program Decl) : Prop := ∀ d ∈ p.stmts, ∀ s ∈ d.scopedTypes, s.Separate

instance (p : Program Decl) : Decidable p.Separate :=
  inferInstanceAs (Decidable (∀ d ∈ p.stmts, ∀ s ∈ d.scopedTypes, s.Separate))

end Program

/-- Resolution depends on what the free names of a type stand for. -/
theorem Ty.resolve_agree (t : Ty) {aliases aliases' : Aliases} {bound bound' : List String}
    (h : ∀ w ∈ t.free, ∀ line, resolveName aliases bound line w = resolveName aliases' bound' line w) :
    t.resolve aliases bound = t.resolve aliases' bound' := by
  induction t using Ty.induction generalizing bound bound' with
  | name line x => rw [resolve, resolve, h x List.mem_cons_self]
  | all line x bounds body ih =>
    rw [resolve, resolve, ih]
    intro w hw line
    by_cases hwx : w = x
    · simp [resolveName, hwx]
    · have hfree : w ∈ (all line x bounds body).free := by simp [free, hw, hwx]
      simpa [resolveName, hwx] using h w hfree line
  | arrow line dom cod ihd ihc | app line fn arg ihd ihc =>
    obtain ⟨hd, hc⟩ := List.forall_mem_append.mp h
    rw [resolve, resolve, ihd hd, ihc hc]
  | list line elem ih => rw [resolve, resolve, ih h]
  | emptyList => rfl
  | record line fields ih =>
    have hfields : ∀ f ∈ fields, f.2.resolve aliases bound = f.2.resolve aliases' bound' :=
      fun f hf => ih f hf fun w hw => h w (mem_freeFields.mpr ⟨f, hf, hw⟩)
    have hall : resolveFields aliases bound fields = resolveFields aliases' bound' fields := by
      clear h ih
      induction fields with
      | nil => rfl
      | cons f fields ihs =>
        obtain ⟨hf, hfs⟩ := List.forall_mem_cons.mp hfields
        rw [resolveFields, resolveFields, hf, ihs hfs]
    rw [resolve, resolve, hall]

/-- Resolution looks at the bound names for the free names of a type only. -/
theorem Ty.resolve_congr (t : Ty) {aliases : Aliases} {bound bound' : List String}
    (h : ∀ w ∈ t.free, (w ∈ basicNames ∨ w ∈ bound) ↔ (w ∈ basicNames ∨ w ∈ bound')) :
    t.resolve aliases bound = t.resolve aliases bound' := by
  apply t.resolve_agree
  intro w hw line
  simp only [resolveName, h w hw]

section Agreement

/-- The bound names are the type variables and the parameters. -/
def Mixed (bound typeVars params : List String) : Prop :=
  ∀ w, w ∈ bound ↔ w ∈ typeVars ∨ w ∈ params

variable {aliases : Aliases} {bound typeVars params : List String}

theorem Mixed.param (h : Mixed bound typeVars params) (x : String) :
    Mixed (x :: bound) typeVars (x :: params) := by
  intro w
  simp only [List.mem_cons, h w]
  tauto

theorem Mixed.typeVar (h : Mixed bound typeVars params) (x : String) :
    Mixed (x :: bound) (x :: typeVars) params := by
  intro w
  simp only [List.mem_cons, h w]
  tauto

theorem ScopedType.Separate.resolve_eq {t : Ty} (h : ScopedType.Separate ⟨typeVars, params, t⟩)
    (hm : Mixed bound typeVars params) : t.resolve aliases bound = t.resolve aliases typeVars := by
  apply t.resolve_congr
  intro w hw
  have hsep : w ∈ params → w ∈ Ty.basicNames ∨ w ∈ typeVars := h w hw
  rw [hm w]
  tauto

theorem Param.resolve_separate {p : Param} (hm : Mixed bound typeVars params)
    (h : ∀ t ∈ p.types, ScopedType.Separate ⟨typeVars, params, t⟩) :
    p.resolve aliases bound = p.resolve aliases typeVars := by
  cases p with
  | typed t => rw [resolve, resolve, (h t List.mem_cons_self).resolve_eq hm]
  | dictionary => rfl
  | erased => rfl

theorem Expr.resolve_eq (e : Expr) (hm : Mixed bound typeVars params)
    (h : ∀ s ∈ e.scopedTypes typeVars params, s.Separate) :
    e.resolve aliases bound = e.resolveTypes aliases typeVars := by
  induction e using Expr.induction generalizing bound typeVars params with
  | lam n x p body ih =>
    obtain ⟨hp, hbody⟩ := List.forall_mem_append.mp h
    have hp' : ∀ t ∈ p.types, ScopedType.Separate ⟨typeVars, x :: params, t⟩ :=
      List.forall_mem_map.mp hp
    rw [resolve, resolveTypes, Param.resolve_separate (hm.param x) hp', ih (hm.param x) hbody]
  | tlam n x bounds body ih => rw [resolve, resolveTypes, ih (hm.typeVar x) h]
  | cond n c y z ihc ihy ihz =>
    obtain ⟨hc, h⟩ := List.forall_mem_append.mp h
    obtain ⟨hy, hz⟩ := List.forall_mem_append.mp h
    rw [resolve, resolveTypes, ihc hm hc, ihy hm hy, ihz hm hz]
  | bin n op l r ihl ihr | app n f a ihl ihr =>
    obtain ⟨hl, hr⟩ := List.forall_mem_append.mp h
    rw [resolve, resolveTypes, ihl hm hl, ihr hm hr]
  | un n op e ih | proj n e label ih => rw [resolve, resolveTypes, ih hm h]
  | tapp n f t ih | ascribe n e t ih =>
    obtain ⟨ht, hf⟩ := List.forall_mem_cons.mp h
    rw [resolve, resolveTypes, ih hm hf, ht.resolve_eq hm]
  | var n x => rfl
  | val n v => rfl
  | list n es ih =>
    have hes : resolveItems aliases bound es = resolveTypesItems aliases typeVars es := by
      change ∀ s ∈ scopedTypesItems typeVars params es, s.Separate at h
      induction es with
      | nil => rfl
      | cons e es ihs =>
        obtain ⟨he, hes⟩ := List.forall_mem_append.mp h
        obtain ⟨ihe, ihes⟩ := List.forall_mem_cons.mp ih
        rw [resolveItems, resolveTypesItems, ihe hm he, ihs ihes hes]
    rw [resolve, resolveTypes, hes]
  | record n fs ih =>
    have hfs : resolveFields aliases bound fs = resolveTypesFields aliases typeVars fs := by
      change ∀ s ∈ scopedTypesFields typeVars params fs, s.Separate at h
      induction fs with
      | nil => rfl
      | cons f fs ihs =>
        obtain ⟨hf, hfs⟩ := List.forall_mem_append.mp h
        obtain ⟨ihf, ihfs⟩ := List.forall_mem_cons.mp ih
        rw [resolveFields, resolveTypesFields, ihf hm hf, ihs ihfs hfs]
    rw [resolve, resolveTypes, hfs]

end Agreement

theorem Stmt.resolve_eq (s : Stmt) {aliases : Aliases} (h : ∀ q ∈ s.scopedTypes, q.Separate) :
    s.resolve aliases = s.resolveTypes aliases := by
  have hm : Mixed [] [] [] := fun w => by simp
  cases s with
  | assign line x e | eval line e => rw [resolve, resolveTypes, e.resolve_eq hm h]
  | inst line trait type dict =>
    rw [resolve, resolveTypes, dict.resolve_eq hm (List.forall_mem_cons.mp h).2]
  | field line x trait type => rfl

theorem Decl.resolveAll_eq (ds : List Decl) (aliases : Aliases) (done : List Stmt)
    (h : ∀ d ∈ ds, ∀ q ∈ d.scopedTypes, q.Separate) :
    resolveAll aliases done ds = resolveTypesAll aliases done ds := by
  induction ds generalizing aliases done with
  | nil => rfl
  | cons d ds ih =>
    obtain ⟨hd, hds⟩ := List.forall_mem_cons.mp h
    cases d with
    | typedef line x t =>
      rw [resolveAll, resolveTypesAll]
      exact bind_congr fun t' => ih _ _ hds
    | stmt s =>
      rw [resolveAll, resolveTypesAll, s.resolve_eq hd]
      exact bind_congr fun s' => ih _ _ hds

section Results

variable {aliases : Aliases}

theorem Param.resolved_scopedTypes {p p' : Param} {typeVars : List String} {k k' : Nat}
    (ha : aliases.Normal) (h : (p.resolve aliases typeVars).run k = .ok (p', k'))
    (params : List String) :
    ∀ s ∈ p'.types.map (ScopedType.mk typeVars params), s.Resolved :=
  List.forall_mem_map.mpr (p.normal_resolve ha h)

theorem Expr.resolved_scopedTypes (e : Expr) {e' : Expr} {typeVars : List String} {k k' : Nat}
    (ha : aliases.Normal) (h : (e.resolveTypes aliases typeVars).run k = .ok (e', k'))
    (params : List String) : ∀ s ∈ e'.scopedTypes typeVars params, s.Resolved := by
  induction e using Expr.induction generalizing e' typeVars k k' params with
  | lam n x p body ih =>
    obtain ⟨p', k₁, hp, h⟩ := run_bind_eq_ok h
    obtain ⟨body', hbody, rfl⟩ := run_bind_pure_eq_ok h
    exact List.forall_mem_append.mpr
      ⟨Param.resolved_scopedTypes ha hp (x :: params), ih hbody (x :: params)⟩
  | tlam n x bounds body ih | un n op e ih | proj n e label ih =>
    obtain ⟨body', hbody, rfl⟩ := run_bind_pure_eq_ok h
    exact ih hbody params
  | cond n c y z ihc ihy ihz =>
    obtain ⟨c', k₁, hc, h⟩ := run_bind_eq_ok h
    obtain ⟨y', k₂, hy, h⟩ := run_bind_eq_ok h
    obtain ⟨z', hz, rfl⟩ := run_bind_pure_eq_ok h
    exact List.forall_mem_append.mpr
      ⟨ihc hc params, List.forall_mem_append.mpr ⟨ihy hy params, ihz hz params⟩⟩
  | bin n op l r ihl ihr | app n f a ihl ihr =>
    obtain ⟨l', k₁, hl, h⟩ := run_bind_eq_ok h
    obtain ⟨r', hr, rfl⟩ := run_bind_pure_eq_ok h
    exact List.forall_mem_append.mpr ⟨ihl hl params, ihr hr params⟩
  | tapp n f t ih | ascribe n e t ih =>
    obtain ⟨f', k₁, hf, h⟩ := run_bind_eq_ok h
    obtain ⟨t', ht, rfl⟩ := run_bind_pure_eq_ok h
    exact List.forall_mem_cons.mpr ⟨t.normal_resolve ha ht, ih hf params⟩
  | var n x | val n v =>
    obtain ⟨rfl, rfl⟩ := run_pure_eq_ok h
    exact fun s hs => nomatch hs
  | list n es ih | record n es ih =>
    obtain ⟨es', hes, rfl⟩ := run_bind_pure_eq_ok h
    clear h
    induction es generalizing k es' with
    | nil =>
      obtain ⟨rfl, rfl⟩ := run_pure_eq_ok hes
      exact fun s hs => nomatch hs
    | cons e es ihs =>
      obtain ⟨e', k₁, he, h⟩ := run_bind_eq_ok hes
      obtain ⟨rest, hrest, rfl⟩ := run_bind_pure_eq_ok h
      obtain ⟨ihe, ihes⟩ := List.forall_mem_cons.mp ih
      exact List.forall_mem_append.mpr ⟨ihe he params, ihs ihes rest hrest⟩

theorem Stmt.resolved_scopedTypes (s : Stmt) {s' : Stmt} {k k' : Nat} (ha : aliases.Normal)
    (h : (s.resolveTypes aliases).run k = .ok (s', k')) : ∀ q ∈ s'.scopedTypes, q.Resolved := by
  cases s with
  | assign line x e | eval line e =>
    obtain ⟨e', he, rfl⟩ := run_bind_pure_eq_ok h
    exact e.resolved_scopedTypes ha he []
  | inst line trait type dict =>
    obtain ⟨type', k₁, ht, h⟩ := run_bind_eq_ok h
    obtain ⟨dict', hd, rfl⟩ := run_bind_pure_eq_ok h
    exact List.forall_mem_cons.mpr ⟨type.normal_resolve ha ht, dict.resolved_scopedTypes ha hd []⟩
  | field line x trait type =>
    obtain ⟨type', ht, rfl⟩ := run_bind_pure_eq_ok h
    exact List.forall_mem_singleton.mpr (type.normal_resolve ha ht)

/-- The run, from resolved abbreviations and statements on. -/
theorem Decl.resolved_scopedTypes (ds : List Decl) {done ss : List Stmt} {k k' : Nat}
    (ha : aliases.Normal) (hdone : ∀ s ∈ done, ∀ q ∈ s.scopedTypes, q.Resolved)
    (h : (resolveTypesAll aliases done ds).run k = .ok (ss, k')) :
    ∀ s ∈ ss, ∀ q ∈ s.scopedTypes, q.Resolved := by
  induction ds generalizing aliases done k with
  | nil =>
    obtain ⟨rfl, rfl⟩ := run_pure_eq_ok h
    simpa using hdone
  | cons d ds ih =>
    cases d with
    | typedef line x t =>
      obtain ⟨t', k₁, ht, hrest⟩ := run_bind_eq_ok h
      refine ih ?_ hdone hrest
      intro p hp
      rcases Assoc.mem_insert hp with rfl | hp
      · exact t.normal_resolve ha ht
      · exact ha p hp
    | stmt s =>
      obtain ⟨s', k₁, hs, hrest⟩ := run_bind_eq_ok h
      exact ih ha (List.forall_mem_cons.mpr ⟨s.resolved_scopedTypes ha hs, hdone⟩) hrest

end Results

namespace Program

/-- Type names are resolved in the scope of type binders only: a lambda makes no difference to the
outcome, also where it is an error, and every name that is left is a basic type or bound by a
quantifier of its type or a type lambda around it. This holds of programs in which no type uses
the name of a lambda's parameter around it for an abbreviation or an undeclared type. -/
theorem resolve_typeScope (p : Program Decl) (hp : p.Separate) (k : Nat) :
    p.resolve.run k = p.resolveTypes.run k ∧
      ∀ q k', p.resolve.run k = .ok (q, k') →
        ∀ s ∈ q.stmts, ∀ t ∈ s.scopedTypes, t.type.Normal t.typeVars := by
  have heq : p.resolve = p.resolveTypes := by
    rw [resolve, resolveTypes, Decl.resolveAll_eq p.stmts [] [] hp]
  refine ⟨by rw [heq], ?_⟩
  intro q k' hq
  rw [heq] at hq
  obtain ⟨ss, k₁, hss, hret⟩ := run_bind_eq_ok hq
  obtain ⟨rfl, rfl⟩ := run_pure_eq_ok hret
  obtain ⟨haliases, hdone⟩ := settled_start
  exact Decl.resolved_scopedTypes p.stmts haliases (fun s hs => absurd hs List.not_mem_nil) hss

/-- The parameters of lambdas have the names of the type variable around them, of a basic type and
of an abbreviation that no type inside uses. -/
def sharedNames : String :=
  "type A = forall a. a -> a;\n" ++ "f = \\a. \\g: A a. \\a: a. \\Int: Int. \\A: a. g A;\n"

theorem resolve_typeScope_shared : ∃ p q k', desugarText sharedNames = .ok p ∧ p.Separate ∧
    p.resolve.run 0 = .ok (q, k') ∧ p.resolve.run 0 = p.resolveTypes.run 0 ∧
    ∀ s ∈ q.stmts, ∀ t ∈ s.scopedTypes, t.type.Normal t.typeVars := by
  have hrun : ((desugarText sharedNames).toOption.any fun p => decide p.Separate &&
      (p.resolve.run 0).toOption.any fun _ => true) = true := by decide +kernel
  obtain ⟨p, hp, hrun⟩ := exists_of_any_toOption hrun
  obtain ⟨hseparate, hrun⟩ := Bool.and_eq_true_iff.mp hrun
  have hseparate : p.Separate := of_decide_eq_true hseparate
  obtain ⟨⟨q, k'⟩, hq, -⟩ := exists_of_any_toOption hrun
  obtain ⟨heq, htypes⟩ := resolve_typeScope p hseparate 0
  exact ⟨p, q, k', hp, hseparate, hq, heq, htypes q k' hq⟩

/-- A parameter in the place of a type that is not declared. -/
def undeclaredSample : String := "f = \\x: x. x;\n"

/-- A parameter with the name of the abbreviation that is its type. -/
def hiddenSample : String := "type A = Int;\n" ++ "inc = \\A: A. A + 1;\n"

/-- The first text is accepted although its type has no meaning, and the abbreviation in the second
one is not expanded. -/
theorem resolve_hidden :
    (∃ p q, desugarText undeclaredSample = .ok p ∧ p.resolve.run 0 = .ok (q, 0) ∧
      q.stmts.flatMap Stmt.scopedTypes = [⟨[], ["x"], .name (some 1) "x"⟩] ∧
      p.resolveTypes.run 0 = .error (.unknownType (some 1) "x")) ∧
    ∃ p q q', desugarText hiddenSample = .ok p ∧ p.resolve.run 0 = .ok (q, 0) ∧
      q.stmts.flatMap Stmt.scopedTypes = [⟨[], ["A"], .name (some 2) "A"⟩] ∧
      p.resolveTypes.run 0 = .ok (q', 0) ∧
      q'.stmts.flatMap Stmt.scopedTypes = [⟨[], ["A"], .name (some 1) "Int"⟩] := by
  constructor
  · let f : Stmt := .assign 1 "f" (.lam ⟨some 1, none⟩ "x" (.typed (.name (some 1) "x"))
      (.var ⟨some 1, none⟩ "x"))
    refine ⟨⟨1, [.stmt f]⟩, ⟨1, [f]⟩, ?_, ?_, ?_, ?_⟩
    · cbv
    · cbv
    · cbv
    · cbv
  · let inc (t : Ty) : Stmt := .assign 2 "inc" (.lam ⟨some 2, none⟩ "A" (.typed t)
      (.bin ⟨some 2, none⟩ .add (.var ⟨some 2, none⟩ "A") (.val ⟨some 2, none⟩ (.int 1))))
    refine ⟨⟨1, [.typedef 1 "A" (.name (some 1) "Int"), .stmt (inc (.name (some 2) "A"))]⟩,
      ⟨1, [inc (.name (some 2) "A")]⟩, ⟨1, [inc (.name (some 1) "Int")]⟩, ?_, ?_, ?_, ?_, ?_⟩
    · cbv
    · cbv
    · cbv
    · cbv
    · cbv

end Program

end TraitCalculus
