import Mathlib
import TraitCalculus.Proofs.SourceNames
import TraitCalculus.Proofs.Unloading

/-! Substitution in expressions against the one of the textbook. An expression has a nameless
shape, in which a variable cannot be captured; substitution agrees with the one on shapes exactly
if no lambda that keeps its name stands between an occurrence of the variable and a free variable
of the new expression. -/
namespace TraitCalculus

/-- What an expression is made by, besides its parts. Notes and types of parameters are left out. -/
inductive Form where
  | lam
  | tlam (x : String) (bounds : List String)
  | cond
  | bin (op : BinOp)
  | un (op : UnOp)
  | app
  | tapp (type : Ty)
  | ascribe (type : Ty)
  | proj (label : String)
  | val (v : Value)
  | list
  | record (labels : List String)

/-- An expression in which a bound variable is the number of lambdas between it and its own. -/
inductive Shape where
  | bound (i : Nat)
  | free (x : String)
  | node (form : Form) (parts : List Shape)

namespace Shape

mutual

/-- `new` for the free variable `x`. No variable of `new` can be captured. -/
def subst : Shape → String → Shape → Shape
  | bound i, _, _ => bound i
  | free y, x, new => if y = x then new else free y
  | node form parts, x, new => node form (substParts parts x new)

def substParts : List Shape → String → Shape → List Shape
  | [], _, _ => []
  | s :: parts, x, new => s.subst x new :: substParts parts x new

end

mutual

def freeNames : Shape → List String
  | bound _ => []
  | free x => [x]
  | node _ parts => freeNamesParts parts

def freeNamesParts : List Shape → List String
  | [] => []
  | s :: parts => s.freeNames ++ freeNamesParts parts

end

theorem substParts_eq (parts : List Shape) (x : String) (new : Shape) :
    substParts parts x new = parts.map (·.subst x new) := by
  induction parts with
  | nil => rfl
  | cons s parts ih => simp [substParts, ih]

theorem freeNamesParts_eq (parts : List Shape) :
    freeNamesParts parts = parts.flatMap freeNames :=
  walk_eq_flatMap rfl (fun _ _ => rfl) parts

theorem induction {motive : Shape → Prop} (bound : ∀ i, motive (bound i))
    (free : ∀ x, motive (free x))
    (node : ∀ form parts, (∀ s ∈ parts, motive s) → motive (node form parts)) :
    ∀ s, motive s := by
  intro s
  apply @Shape.rec motive (fun parts => ∀ s ∈ parts, motive s) bound free node
  · simp
  · intro s parts hs hparts
    exact List.forall_mem_cons.mpr ⟨hs, hparts⟩

theorem subst_eq_self (s : Shape) (x : String) (new : Shape) (h : x ∉ s.freeNames) :
    s.subst x new = s := by
  induction s using Shape.induction with
  | bound i => rfl
  | free y =>
    have hy : y ≠ x := fun he => h (by simp [freeNames, he])
    rw [subst, if_neg hy]
  | node form parts ih =>
    rw [subst, substParts_eq]
    congr 1
    calc
      parts.map (·.subst x new) = parts.map id := by
        apply List.map_congr_left
        intro s hs
        apply ih s hs
        intro hx
        apply h
        rw [freeNames, freeNamesParts_eq]
        exact List.mem_flatMap.mpr ⟨s, hs, hx⟩
      _ = parts := List.map_id parts

end Shape

namespace Expr

/-- What an expression is made by, if it is neither a variable nor a lambda. -/
def form? : Expr → Option Form
  | lam .. => none
  | tlam _ x bounds _ => some (.tlam x bounds)
  | cond .. => some .cond
  | bin _ op _ _ => some (.bin op)
  | un _ op _ => some (.un op)
  | app .. => some .app
  | tapp _ _ t => some (.tapp t)
  | ascribe _ _ t => some (.ascribe t)
  | proj _ _ label => some (.proj label)
  | var .. => none
  | val _ v => some (.val v)
  | list .. => some .list
  | record _ fs => some (.record (fs.map Prod.fst))

/-- The expressions that an expression is made of. -/
def parts : Expr → List Expr
  | lam _ _ _ body => [body]
  | tlam _ _ _ body => [body]
  | cond _ c y z => [c, y, z]
  | bin _ _ l r => [l, r]
  | un _ _ e => [e]
  | app _ f a => [f, a]
  | tapp _ f _ => [f]
  | ascribe _ e _ => [e]
  | proj _ e _ => [e]
  | var .. => []
  | val .. => []
  | list _ es => es
  | record _ fs => fs.map Prod.snd

/-- Induction over expressions by what they are made by: only lambdas bind variables. -/
theorem induct_form {motive : Expr → Prop} (var : ∀ n x, motive (var n x))
    (lam : ∀ n x p body, motive body → motive (lam n x p body))
    (form : ∀ e f, e.form? = some f → (∀ d ∈ e.parts, motive d) → motive e) :
    ∀ e, motive e := by
  intro e
  induction e using Expr.induction with
  | lam n x p body ih => exact lam n x p body ih
  | var n x => exact var n x
  | tlam n x bounds body ih | un n op e ih | tapp n f t ih | ascribe n e t ih | proj n e label ih =>
    exact form _ _ rfl (by simpa [parts] using ih)
  | cond n c y z ihc ihy ihz => exact form _ _ rfl (by simp [parts, ihc, ihy, ihz])
  | bin n op l r ihl ihr | app n f a ihl ihr => exact form _ _ rfl (by simp [parts, ihl, ihr])
  | val n v => exact form _ _ rfl (by simp [parts])
  | list n es ih => exact form _ _ rfl ih
  | record n fs ih =>
    apply form _ _ rfl
    intro d hd
    obtain ⟨f, hf, rfl⟩ := List.mem_map.mp hd
    exact ih f hf

mutual

/-- The nameless shape under lambdas for `xs`, the innermost first. -/
def shape (xs : List String) : Expr → Shape
  | lam _ x _ body => .node .lam [body.shape (x :: xs)]
  | tlam _ x bounds body => .node (.tlam x bounds) [body.shape xs]
  | cond _ c y z => .node .cond [c.shape xs, y.shape xs, z.shape xs]
  | bin _ op l r => .node (.bin op) [l.shape xs, r.shape xs]
  | un _ op e => .node (.un op) [e.shape xs]
  | app _ f a => .node .app [f.shape xs, a.shape xs]
  | tapp _ f t => .node (.tapp t) [f.shape xs]
  | ascribe _ e t => .node (.ascribe t) [e.shape xs]
  | proj _ e label => .node (.proj label) [e.shape xs]
  | var _ x => if x ∈ xs then .bound (xs.idxOf x) else .free x
  | val _ v => .node (.val v) []
  | list _ es => .node .list (shapeItems xs es)
  | record _ fs => .node (.record (fs.map Prod.fst)) (shapeFields xs fs)

def shapeItems (xs : List String) : List Expr → List Shape
  | [] => []
  | e :: es => e.shape xs :: shapeItems xs es

def shapeFields (xs : List String) : List (String × Expr) → List Shape
  | [] => []
  | (_, e) :: fs => e.shape xs :: shapeFields xs fs

end

mutual

/-- The variables that no lambda binds. -/
def freeVars : Expr → List String
  | lam _ x _ body => body.freeVars.filter (· ≠ x)
  | tlam _ _ _ body => body.freeVars
  | cond _ c y z => c.freeVars ++ (y.freeVars ++ z.freeVars)
  | bin _ _ l r => l.freeVars ++ r.freeVars
  | un _ _ e => e.freeVars
  | app _ f a => f.freeVars ++ a.freeVars
  | tapp _ f _ => f.freeVars
  | ascribe _ e _ => e.freeVars
  | proj _ e _ => e.freeVars
  | var _ x => [x]
  | val .. => []
  | list _ es => freeVarsItems es
  | record _ fs => freeVarsFields fs

def freeVarsItems : List Expr → List String
  | [] => []
  | e :: es => e.freeVars ++ freeVarsItems es

def freeVarsFields : List (String × Expr) → List String
  | [] => []
  | (_, e) :: fs => e.freeVars ++ freeVarsFields fs

end

mutual

/-- The parameters of the lambdas that stand around free occurrences of `x`, where those for `xs`
stand around the expression. -/
def around (x : String) (xs : List String) : Expr → List String
  | lam _ y _ body => if y = x then [] else body.around x (y :: xs)
  | tlam _ _ _ body => body.around x xs
  | cond _ c y z => c.around x xs ++ (y.around x xs ++ z.around x xs)
  | bin _ _ l r => l.around x xs ++ r.around x xs
  | un _ _ e => e.around x xs
  | app _ f a => f.around x xs ++ a.around x xs
  | tapp _ f _ => f.around x xs
  | ascribe _ e _ => e.around x xs
  | proj _ e _ => e.around x xs
  | var _ y => if y = x then xs else []
  | val .. => []
  | list _ es => aroundItems x xs es
  | record _ fs => aroundFields x xs fs

def aroundItems (x : String) (xs : List String) : List Expr → List String
  | [] => []
  | e :: es => e.around x xs ++ aroundItems x xs es

def aroundFields (x : String) (xs : List String) : List (String × Expr) → List String
  | [] => []
  | (_, e) :: fs => e.around x xs ++ aroundFields x xs fs

end

section Forms

variable {e : Expr} {f : Form}

theorem shape_of_form (h : e.form? = some f) (xs : List String) :
    e.shape xs = .node f (e.parts.map (·.shape xs)) := by
  have hitems (es : List Expr) : shapeItems xs es = es.map (·.shape xs) := by
    induction es with
    | nil => rfl
    | cons e es ih => simp [shapeItems, ih]
  have hfields (fs : List (String × Expr)) : shapeFields xs fs = fs.map (·.2.shape xs) := by
    induction fs with
    | nil => rfl
    | cons g fs ih => simp [shapeFields, ih]
  cases e <;> cases h <;> simp [shape, parts, hitems, hfields]

theorem freeVars_of_form (h : e.form? = some f) : e.freeVars = e.parts.flatMap freeVars := by
  have hitems (es : List Expr) : freeVarsItems es = es.flatMap freeVars := by
    induction es with
    | nil => rfl
    | cons e es ih => simp [freeVarsItems, ih]
  have hfields (fs : List (String × Expr)) : freeVarsFields fs = fs.flatMap (·.2.freeVars) := by
    induction fs with
    | nil => rfl
    | cons g fs ih => simp [freeVarsFields, ih]
  cases e <;> cases h <;> simp [freeVars, parts, hitems, hfields, List.flatMap_map]

theorem around_of_form (h : e.form? = some f) (x : String) (xs : List String) :
    e.around x xs = e.parts.flatMap (around x xs) := by
  have hitems (es : List Expr) : aroundItems x xs es = es.flatMap (around x xs) := by
    induction es with
    | nil => rfl
    | cons e es ih => simp [aroundItems, ih]
  have hfields (fs : List (String × Expr)) :
      aroundFields x xs fs = fs.flatMap (·.2.around x xs) := by
    induction fs with
    | nil => rfl
    | cons g fs ih => simp [aroundFields, ih]
  cases e <;> cases h <;> simp [around, parts, hitems, hfields, List.flatMap_map]

theorem termNames_of_form (h : e.form? = some f) : e.termNames = e.parts.flatMap termNames := by
  have hitems (es : List Expr) : termNamesItems es = es.flatMap termNames := by
    induction es with
    | nil => rfl
    | cons e es ih => simp [termNamesItems, ih]
  have hfields (fs : List (String × Expr)) :
      termNamesFields fs = fs.flatMap (·.2.termNames) := by
    induction fs with
    | nil => rfl
    | cons g fs ih => simp [termNamesFields, ih]
  cases e <;> cases h <;> simp [termNames, parts, hitems, hfields, List.flatMap_map]

theorem termNames_of_mem_parts (h : e.form? = some f) {P : String → Prop}
    (he : ∀ w ∈ e.termNames, P w) {d : Expr} (hd : d ∈ e.parts) : ∀ w ∈ d.termNames, P w := by
  intro w hw
  apply he w
  rw [termNames_of_form h]
  exact List.mem_flatMap.mpr ⟨d, hd, hw⟩

theorem length_substItems (ρ : List (String × String)) (σ : Option (String × Expr)) (k : Nat)
    (es : List Expr) : ((substItems ρ σ es).run k).1.length = es.length := by
  induction es generalizing k with
  | nil => rfl
  | cons e es ih =>
    rw [run_substItems_cons, List.length_cons, ih, List.length_cons]

/-- Substitution in an expression that binds no variable goes through its parts. -/
theorem run_substIn_of_form (h : e.form? = some f) (ρ : List (String × String))
    (σ : Option (String × Expr)) (k : Nat) :
    ((e.substIn ρ σ).run k).1.form? = some f ∧
      ((e.substIn ρ σ).run k).1.parts = ((substItems ρ σ e.parts).run k).1 := by
  cases e with
  | lam | var => cases h
  | record n fs =>
    have hrun : (((record n fs).substIn ρ σ).run k).1 = record n ((substFields ρ σ fs).run k).1 :=
      rfl
    have hlen : ((substItems ρ σ (fs.map Prod.snd)).run k).1.length = (fs.map Prod.fst).length := by
      rw [length_substItems, List.length_map, List.length_map]
    rw [hrun, run_substFields]
    constructor
    · rw [← h, form?, form?, List.map_fst_zip hlen.ge]
    · rw [parts, parts, List.map_snd_zip hlen.le]
  | _ => exact ⟨h, rfl⟩

end Forms

theorem mem_freeNames_shape (e : Expr) (xs : List String) (y : String) :
    y ∈ (e.shape xs).freeNames ↔ y ∈ e.freeVars ∧ y ∉ xs := by
  induction e using Expr.induct_form generalizing xs with
  | var n x =>
    by_cases hx : x ∈ xs
    · simp only [shape, if_pos hx, Shape.freeNames, freeVars, List.mem_singleton, List.not_mem_nil,
        false_iff, not_and, not_not]
      intro h
      exact h ▸ hx
    · simp only [shape, if_neg hx, Shape.freeNames, freeVars, List.mem_singleton, iff_self_and]
      intro h
      exact h ▸ hx
  | lam n x p body ih =>
    simp only [shape, Shape.freeNames, Shape.freeNamesParts, List.append_nil, ih, freeVars,
      List.mem_filter, List.mem_cons, not_or, decide_eq_true_eq, and_assoc]
  | form e f hf ih =>
    rw [shape_of_form hf, Shape.freeNames, Shape.freeNamesParts_eq, freeVars_of_form hf,
      List.flatMap_map, List.mem_flatMap, List.mem_flatMap]
    constructor
    · rintro ⟨d, hd, hy⟩
      have hyd := (ih d hd xs).mp hy
      exact ⟨⟨d, hd, hyd.1⟩, hyd.2⟩
    · rintro ⟨⟨d, hd, hyd⟩, hy⟩
      exact ⟨d, hd, (ih d hd xs).mpr ⟨hyd, hy⟩⟩

/-- The shape depends only on where the free variables stand among the lambdas around. -/
theorem shape_congr (e : Expr) {xs ys : List String}
    (h : ∀ w ∈ e.freeVars, (w ∈ xs ↔ w ∈ ys) ∧ (w ∈ xs → xs.idxOf w = ys.idxOf w)) :
    e.shape xs = e.shape ys := by
  induction e using Expr.induct_form generalizing xs ys with
  | var n x =>
    obtain ⟨hmem, hidx⟩ := h x (by simp [freeVars])
    by_cases hx : x ∈ xs
    · rw [shape, shape, if_pos hx, if_pos (hmem.mp hx), hidx hx]
    · rw [shape, shape, if_neg hx, if_neg (mt hmem.mpr hx)]
  | lam n x p body ih =>
    rw [shape, shape, ih]
    intro w hw
    by_cases hwx : w = x
    · simp [hwx]
    · have hwf : w ∈ (lam n x p body).freeVars := by simp [freeVars, hw, hwx]
      obtain ⟨hmem, hidx⟩ := h w hwf
      constructor
      · rw [List.mem_cons, List.mem_cons, hmem]
      · intro hm
        rw [List.idxOf_cons_ne _ (Ne.symm hwx), List.idxOf_cons_ne _ (Ne.symm hwx),
          hidx (by simpa [hwx] using hm)]
  | form e f hf ih =>
    rw [shape_of_form hf, shape_of_form hf]
    congr 1
    apply List.map_congr_left
    intro d hd
    apply ih d hd
    intro w hw
    apply h w
    rw [freeVars_of_form hf]
    exact List.mem_flatMap.mpr ⟨d, hd, hw⟩

/-- An expression looks the same under lambdas exactly if none of them binds a variable of it. -/
theorem shape_eq_nil_iff (e : Expr) (ys : List String) :
    e.shape ys = e.shape [] ↔ ∀ y ∈ ys, y ∉ e.freeVars := by
  constructor
  · intro h y hy hf
    have hmem : y ∈ (e.shape []).freeNames := by simp [mem_freeNames_shape, hf]
    rw [← h, mem_freeNames_shape] at hmem
    exact hmem.2 hy
  · intro h
    apply shape_congr
    intro w hw
    have hwy : w ∉ ys := fun hm => h w hm hw
    simp [hwy]

/-- A variable that is bound is not replaced. -/
theorem subst_shape_of_mem (e : Expr) {x : String} {xs : List String} (h : x ∈ xs) (new : Shape) :
    (e.shape xs).subst x new = e.shape xs := by
  apply Shape.subst_eq_self
  rw [mem_freeNames_shape]
  exact fun hx => hx.2 h

theorem freeVars_subset_termNames (e : Expr) : ∀ x ∈ e.freeVars, x ∈ e.termNames := by
  induction e using Expr.induct_form with
  | var n x => exact fun y hy => hy
  | lam n x p body ih =>
    intro y hy
    exact List.mem_cons_of_mem x (ih y (List.mem_of_mem_filter hy))
  | form e f hf ih =>
    intro y hy
    rw [freeVars_of_form hf] at hy
    obtain ⟨d, hd, hyd⟩ := List.mem_flatMap.mp hy
    rw [termNames_of_form hf]
    exact List.mem_flatMap.mpr ⟨d, hd, ih d hd y hyd⟩

/-- A lambda that hides the variable is left alone unless a lambda around it was renamed. -/
theorem run_substIn_lam_hidden (ρ : List (String × String)) {σ : Option (String × Expr)} (k : Nat)
    (n : Note) {x : String} (p : Param) (body : Expr) (h : σ.filter (·.1 ≠ x) = none) :
    (((lam n x p body).substIn ρ σ).run k).1 =
      if (ρ.filter (·.1 ≠ x)).isEmpty then lam n x p body
      else lam .blank x .erased ((body.substIn (ρ.filter (·.1 ≠ x)) none).run k).1 := by
  split
  · next hρ =>
    simp only [substIn, h, if_pos hρ]
    rfl
  · next hρ =>
    simp only [substIn, h, if_neg hρ]
    rfl

theorem run_substIn_lam_kept (ρ : List (String × String)) (k : Nat) (n : Note) {x y : String}
    (p : Param) (body : Expr) {new : Expr} (hy : y ≠ x) (hx : x ∉ new.freeTypes) :
    (((lam n x p body).substIn ρ (some (y, new))).run k).1 =
      lam .blank x .erased
        ((body.substIn (ρ.filter (·.1 ≠ x)) (some (y, new))).run k).1 := by
  have hσ : (some (y, new)).filter (·.1 ≠ x) = some (y, new) := by simp [Option.filter, hy]
  simp only [substIn, hσ, if_neg hx]
  rfl

theorem run_substIn_lam_renamed (ρ : List (String × String)) (k : Nat) (n : Note) {x y : String}
    (p : Param) (body : Expr) {new : Expr} (hy : y ≠ x) (hx : x ∈ new.freeTypes) :
    (((lam n x p body).substIn ρ (some (y, new))).run k).1 =
      lam .blank (freshName x (k + 1)) .erased
        ((body.substIn ((x, freshName x (k + 1)) :: ρ.filter (·.1 ≠ x)) (some (y, new))).run
          (k + 1)).1 := by
  have hσ : (some (y, new)).filter (·.1 ≠ x) = some (y, new) := by simp [Option.filter, hy]
  simp only [substIn, hσ, if_pos hx]
  rfl

/-- Substitution in the items of a list keeps a view of them if it keeps the view of each. -/
theorem map_substItems_eq_iff {α : Type} {ρ : List (String × String)}
    {σ : Option (String × Expr)} {es : List Expr} {k₀ : Nat} {view view' : Expr → α}
    {keeps : Expr → Prop}
    (h : ∀ e ∈ es, ∀ k, k₀ ≤ k → (view' ((e.substIn ρ σ).run k).1 = view e ↔ keeps e)) {k : Nat}
    (hk : k₀ ≤ k) :
    ((substItems ρ σ es).run k).1.map view' = es.map view ↔ ∀ e ∈ es, keeps e := by
  induction es generalizing k with
  | nil => exact iff_of_true rfl (by simp)
  | cons e es ih =>
    obtain ⟨he, hes⟩ := List.forall_mem_cons.mp h
    have hrest := ih hes (hk.trans (substIn_drawn_le e ρ σ k))
    rw [run_substItems_cons, List.map_cons, List.map_cons, List.cons.injEq, he k hk, hrest,
      List.forall_mem_cons]

section Capture

open Ty (Underway renamed)

variable {k₀ k : Nat} {x : String} {xs ys : List String} {ρ : List (String × String)}

/-- A variable that is not replaced is bound where it was bound. -/
theorem shape_var_renamed {σ : Option (String × Ty)}
    (h : Underway k₀ x .emptyList xs ys ρ σ k) {w : String} (hw : OldName k₀ w) (n n' : Note) :
    (var n' (renamed ρ w)).shape ys = (var n w).shape xs := by
  by_cases hx : w ∈ xs
  · obtain ⟨hmem, hidx⟩ := h.inside w hx
    rw [shape, shape, if_pos hmem, if_pos hx, hidx]
  · have hρ : renamed ρ w = w := by rw [renamed, h.outside w hx, Option.getD_none]
    rw [hρ, shape, shape, if_neg (h.apart w hx hw), if_neg hx]

theorem substVar_none (ρ : List (String × String)) (n : Note) (w : String) :
    ∃ n', substVar ρ none n w = var n' (renamed ρ w) := by
  unfold substVar renamed
  cases ρ.lookup w with
  | none => exact ⟨n, rfl⟩
  | some z => exact ⟨.blank, rfl⟩

theorem substVar_some (ρ : List (String × String)) (y : String) (new : Expr) (n : Note)
    (w : String) : ∃ n', substVar ρ (some (y, new)) n w =
      if renamed ρ w = y then new else var n' (renamed ρ w) := by
  unfold substVar renamed
  cases ρ.lookup w with
  | none => exact ⟨n, rfl⟩
  | some z => exact ⟨.blank, rfl⟩

/-- A lambda under which nothing is left to replace keeps its shape if its body does. -/
theorem shape_lam_hidden {σ : Option (String × Expr)} {y : String} (n : Note) (p : Param)
    (body : Expr) (hσ : σ.filter (·.1 ≠ y) = none)
    (hin : Underway k₀ x .emptyList (y :: xs) (y :: ys) (ρ.filter (·.1 ≠ y)) none k)
    (hold : ∀ w ∈ body.termNames, OldName k₀ w)
    (hbody : ((body.substIn (ρ.filter (·.1 ≠ y)) none).run k).1.shape (y :: ys) =
      body.shape (y :: xs)) :
    (((lam n y p body).substIn ρ σ).run k).1.shape ys = (lam n y p body).shape xs := by
  rw [run_substIn_lam_hidden ρ k n p body hσ]
  split
  · next hρ =>
    -- no lambda around was renamed, so each variable has kept its place
    rw [List.isEmpty_iff.mp hρ] at hin
    rw [shape, shape, shape_congr]
    intro w hw
    have hplace : w ∈ y :: xs → w ∈ y :: ys ∧ (y :: ys).idxOf w = (y :: xs).idxOf w :=
      hin.inside w
    have hback : w ∈ y :: ys → w ∈ y :: xs := by
      intro hm
      by_contra hw'
      exact hin.apart w hw' (hold w (freeVars_subset_termNames body w hw)) hm
    exact ⟨⟨hback, fun hm => (hplace hm).1⟩, fun hm => (hplace (hback hm)).2⟩
  · rw [shape, shape, hbody]

/-- Where the variable is hidden, binders are renamed and nothing else changes. -/
theorem shape_substIn_none (e : Expr) (h : Underway k₀ x .emptyList xs ys ρ none k)
    (he : ∀ w ∈ e.termNames, OldName k₀ w) :
    ((e.substIn ρ none).run k).1.shape ys = e.shape xs := by
  induction e using Expr.induct_form generalizing xs ys ρ k with
  | var n w =>
    obtain ⟨n', hvar⟩ := substVar_none ρ n w
    rw [run_substIn_var, hvar]
    exact shape_var_renamed h (he w (by simp [termNames])) n n'
  | lam n y p body ih =>
    obtain ⟨hy, hbody⟩ := List.forall_mem_cons.mp he
    have hx : x ∈ y :: xs := by
      rcases h.target with ht | ht
      · cases ht
      · exact List.mem_cons_of_mem y ht.2
    have hin := h.hide hy hx
    exact shape_lam_hidden n p body rfl hin hbody (ih hin hbody)
  | form e f hf ih =>
    obtain ⟨hform, hparts⟩ := run_substIn_of_form hf ρ none k
    rw [shape_of_form hform, shape_of_form hf, hparts]
    have hall : ∀ d ∈ e.parts, ∀ k', k ≤ k' →
        (((d.substIn ρ none).run k').1.shape ys = d.shape xs ↔ True) := by
      intro d hd k' hk'
      exact iff_true_intro (ih d hd (h.mono hk') (termNames_of_mem_parts hf he hd))
    rw [(map_substItems_eq_iff hall le_rfl).mpr (fun _ _ => trivial)]

/-- Where the variable is not hidden, substitution agrees with the one on shapes exactly if each
lambda around an occurrence of it that binds a variable of `new` is renamed. -/
theorem shape_substIn_some (e : Expr) {new : Expr}
    (h : Underway k₀ x .emptyList xs ys ρ (some (x, .emptyList)) k) (hxs : x ∉ xs)
    (hopen : (∀ z ∈ ys, z ∉ new.freeVars) ↔
      ∀ z ∈ xs, z ∈ new.freeVars → z ∈ new.freeTypes)
    (hx : OldName k₀ x) (hn : ∀ w ∈ new.freeVars, OldName k₀ w)
    (he : ∀ w ∈ e.termNames, OldName k₀ w) :
    ((e.substIn ρ (some (x, new))).run k).1.shape ys = (e.shape xs).subst x (new.shape []) ↔
      ∀ z ∈ e.around x xs, z ∈ new.freeVars → z ∈ new.freeTypes := by
  induction e using Expr.induct_form generalizing xs ys ρ k with
  | var n w =>
    obtain ⟨n', hvar⟩ := substVar_some ρ x new n w
    rw [run_substIn_var, hvar]
    by_cases hw : w = x
    · subst hw
      have hρ : renamed ρ w = w := by rw [renamed, h.outside w hxs, Option.getD_none]
      rw [if_pos hρ, shape, if_neg hxs, Shape.subst, if_pos rfl, around, if_pos rfl, ← hopen]
      exact shape_eq_nil_iff new ys
    · have hρ : renamed ρ w ≠ x := h.renamed_ne_old hw hx
      have hfree : x ∉ ((var n w).shape xs).freeNames := by
        rw [mem_freeNames_shape, freeVars, List.mem_singleton]
        exact fun hm => hw hm.1.symm
      rw [if_neg hρ, shape_var_renamed h (he w (by simp [termNames])) n n', around, if_neg hw,
        Shape.subst_eq_self _ _ _ hfree]
      simp
  | lam n y p body ih =>
    obtain ⟨hy, hbody⟩ := List.forall_mem_cons.mp he
    have hnode : ((lam n y p body).shape xs).subst x (new.shape []) =
        .node .lam [(body.shape (y :: xs)).subst x (new.shape [])] := rfl
    by_cases hyx : y = x
    · -- the lambda hides `x`, which is then not free in its shape
      have hin := h.hide hy (hyx ▸ List.mem_cons_self)
      have hσ : (some (x, new)).filter (·.1 ≠ y) = none := by simp [hyx]
      rw [shape_lam_hidden n p body hσ hin hbody (shape_substIn_none body hin hbody), hnode,
        subst_shape_of_mem body (hyx ▸ List.mem_cons_self), around, if_pos hyx, shape]
      simp
    · have hxs' : x ∉ y :: xs := by simp [Ne.symm hyx, hxs]
      rw [hnode, around, if_neg hyx]
      by_cases hty : y ∈ new.freeTypes
      · have hfresh : freshName y (k + 1) ∉ new.freeVars :=
          fun hm => ((hn _ hm).mono h.le).ne_freshName y rfl
        rw [run_substIn_lam_renamed ρ k n p body (Ne.symm hyx) hty, shape,
          ← ih (h.rename hy hx (by simp [Ty.free])) hxs' _ hbody]
        · simp
        · rw [List.forall_mem_cons, List.forall_mem_cons, hopen]
          simp [hfresh, hty]
      · rw [run_substIn_lam_kept ρ k n p body (Ne.symm hyx) hty, shape,
          ← ih (h.keep hy hyx (by simp [Ty.free])) hxs' _ hbody]
        · simp
        · rw [List.forall_mem_cons, List.forall_mem_cons, hopen]
          simp [hty]
  | form e f hf ih =>
    obtain ⟨hform, hparts⟩ := run_substIn_of_form hf ρ (some (x, new)) k
    have hall : ∀ d ∈ e.parts, ∀ k', k ≤ k' →
        (((d.substIn ρ (some (x, new))).run k').1.shape ys =
            (d.shape xs).subst x (new.shape []) ↔
          ∀ z ∈ d.around x xs, z ∈ new.freeVars → z ∈ new.freeTypes) := by
      intro d hd k' hk'
      exact ih d hd (h.mono hk') hxs hopen (termNames_of_mem_parts hf he hd)
    calc
      ((e.substIn ρ (some (x, new))).run k).1.shape ys = (e.shape xs).subst x (new.shape []) ↔
          ((substItems ρ (some (x, new)) e.parts).run k).1.map (·.shape ys) =
            e.parts.map fun d => (d.shape xs).subst x (new.shape []) := by
        rw [shape_of_form hform, shape_of_form hf, hparts, Shape.subst, Shape.substParts_eq,
          List.map_map]
        simp [Function.comp_def]
      _ ↔ ∀ d ∈ e.parts, ∀ z ∈ d.around x xs, z ∈ new.freeVars → z ∈ new.freeTypes :=
        map_substItems_eq_iff hall le_rfl
      _ ↔ ∀ z ∈ e.around x xs, z ∈ new.freeVars → z ∈ new.freeTypes := by
        rw [around_of_form hf]
        simp only [List.mem_flatMap]
        constructor
        · rintro h z ⟨d, hd, hz⟩
          exact h d hd z hz
        · intro h d hd z hz
          exact h z ⟨d, hd, hz⟩

end Capture

/-- Substitution is the one of the textbook exactly if every lambda of `e` that stands around a
free occurrence of `x` and is named like a free variable of `new` is also named like a free type
name of `new`: those are the lambdas that get a fresh name. -/
theorem shape_subst_iff (e : Expr) (x : String) (new : Expr) (k : Nat) (hx : OldName k x)
    (he : ∀ w ∈ e.termNames, OldName k w) (hn : ∀ w ∈ new.termNames, OldName k w) :
    ((e.subst x new).run k).1.shape [] = (e.shape []).subst x (new.shape []) ↔
      ∀ y ∈ e.around x [], y ∈ new.freeVars → y ∈ new.freeTypes := by
  have hfree : ∀ w ∈ new.freeVars, OldName k w :=
    fun w hw => hn w (freeVars_subset_termNames new w hw)
  exact shape_substIn_some e (.start k x .emptyList) List.not_mem_nil (by simp) hx hfree he

/-- The variable `y` at the type `y`, for `x` below a lambda for `y`: the lambda is renamed. -/
theorem shape_subst_renamed :
    (∀ w ∈ ["x", "y"], OldName 0 w) ∧
      (((lam .blank "y" (.typed .int) (var .blank "x")).subst "x"
          (tapp .blank (var .blank "y") (.name none "y"))).run 0).1.shape [] =
        ((lam .blank "y" (.typed .int) (var .blank "x")).shape []).subst "x"
          ((tapp .blank (var .blank "y") (.name none "y")).shape []) := by
  have hold : ∀ w ∈ ["x", "y"], OldName 0 w := by
    have hsource : ∀ w ∈ ["x", "y"], SourceName w := by
      unfold SourceName
      decide
    exact fun w hw => (hsource w hw).old 0
  refine ⟨hold, (shape_subst_iff _ "x" _ 0 (hold "x" (by simp)) ?_ ?_).mpr (by decide)⟩
  · intro w hw
    apply hold w
    revert w
    decide
  · intro w hw
    apply hold w
    revert w
    decide

/-- The variable `y` for `x` below a lambda for `y`: the lambda keeps its name and captures it. -/
theorem shape_subst_captured :
    (((lam .blank "y" (.typed .int) (var .blank "x")).subst "x" (var .blank "y")).run 0).1.shape
        [] ≠
      ((lam .blank "y" (.typed .int) (var .blank "x")).shape []).subst "x"
        ((var .blank "y").shape []) := by
  intro h
  have hfree := congrArg Shape.freeNames h
  revert hfree
  decide

end Expr

end TraitCalculus
