import Mathlib
import TraitCalculus.Proofs.PlainPrograms

/-! Type safety of plain programs. Whatever a plain program that has been typed is given to read,
its run ends, every statement that is finished has a canonical value of its type, and nothing fails
but what types do not rule out. -/
namespace TraitCalculus

namespace Eval

/-- The run `d` does what `c` does, unless `c` runs out of fuel. -/
def Below {α : Type} (c d : Eval α) : Prop :=
  ∀ m, (∃ m', c.run m = .error .outOfFuel m') ∨ d.run m = c.run m

namespace Below

variable {α β : Type} {b c d : Eval α}

theorem refl (c : Eval α) : Below c c := fun _ => Or.inr rfl

theorem trans (h : Below b c) (h' : Below c d) : Below b d := by
  intro m
  rcases h m with hout | hbc
  · exact Or.inl hout
  · rcases h' m with ⟨m', hout⟩ | hcd
    · exact Or.inl ⟨m', hbc ▸ hout⟩
    · exact Or.inr (hcd.trans hbc)

theorem bind {f g : α → Eval β} (h : Below c d) (h' : ∀ a, Below (f a) (g a)) :
    Below (c >>= f) (d >>= g) := by
  intro m
  rw [EStateM.run_bind, EStateM.run_bind]
  rcases h m with ⟨m', hout⟩ | hcd
  · exact Or.inl ⟨m', by rw [hout]⟩
  · rw [hcd]
    cases c.run m with
    | ok a m₁ => exact h' a m₁
    | error e m₁ => exact Or.inr rfl

theorem mapM {γ : Type} (as : List γ) {f g : γ → Eval α} (h : ∀ a, Below (f a) (g a)) :
    Below (as.mapM f) (as.mapM g) := by
  induction as with
  | nil => exact refl _
  | cons a as ih =>
    rw [List.mapM_cons, List.mapM_cons]
    exact .bind (h a) fun b => .bind ih fun bs => refl _

end Below

end Eval

/-- More fuel changes nothing but a lack of it. -/
theorem Expr.eval_below_succ (line fuel : Nat) (e : Expr) :
    Eval.Below (e.eval line fuel) (e.eval line (fuel + 1)) := by
  induction fuel generalizing e with
  | zero => exact fun m => Or.inl ⟨m, rfl⟩
  | succ fuel ih =>
    cases e with
    | lam n x p body | var n x | val n v => exact .refl _
    | tlam n x bounds body => exact ih body
    | cond n c y z =>
      refine .bind (ih c) fun v => ?_
      cases v with
      | val m w =>
        cases w with
        | bool b =>
          cases b with
          | true => exact ih y
          | false => exact ih z
        | _ => exact .bind (ih y) fun _ => .bind (ih z) fun _ => .refl _
      | _ => exact .bind (ih y) fun _ => .bind (ih z) fun _ => .refl _
    | bin n op l r =>
      cases op with
      | or =>
        refine .bind (ih l) fun v => ?_
        cases v with
        | val m w =>
          cases w with
          | bool b =>
            cases b with
            | true => exact .refl _
            | false => exact .bind (ih r) fun _ => .refl _
          | _ => exact .bind (ih r) fun _ => .refl _
        | _ => exact .bind (ih r) fun _ => .refl _
      | and =>
        refine .bind (ih l) fun v => ?_
        cases v with
        | val m w =>
          cases w with
          | bool b =>
            cases b with
            | true => exact .bind (ih r) fun _ => .refl _
            | false => exact .refl _
          | _ => exact .bind (ih r) fun _ => .refl _
        | _ => exact .bind (ih r) fun _ => .refl _
      | _ => exact .bind (ih l) fun _ => .bind (ih r) fun _ => .refl _
    | un n op e =>
      cases op with
      | not | neg => exact .bind (ih e) fun _ => .refl _
    | app n f a =>
      rw [eval_app, eval_app]
      refine .bind (ih f) fun f' => .bind (ih a) fun a' => ?_
      cases f' with
      -- substitution takes no fuel, and `ih` is for whatever it makes of the body
      | lam m x p body => exact .bind (.refl _) fun body' => ih body'
      | _ => exact .refl _
    | tapp n f t => exact ih f
    | ascribe n e t => exact ih e
    | proj n e label =>
      refine .bind (ih e) fun v => ?_
      cases v with
      | record m fs =>
        dsimp only
        cases fs.lookup label with
        | none => exact .refl _
        | some e => exact ih e
      | _ => exact .refl _
    | list n es => exact .bind (.mapM es ih) fun _ => .refl _
    | record n fs =>
      exact .bind (.mapM fs fun f => .bind (ih f.2) fun _ => .refl _) fun _ => .refl _

namespace Expr

theorem eval_below {line n k : Nat} (h : n ≤ k) (e : Expr) :
    Eval.Below (e.eval line n) (e.eval line k) := by
  induction k, h using Nat.le_induction with
  | base => exact .refl _
  | succ k _ ih => exact ih.trans (eval_below_succ line k e)

/-- Lambdas and the names of builtins. -/
def isFunction : Expr → Bool
  | lam .. => true
  | var _ x => (Builtin.ofName? x).isSome
  | _ => false

end Expr

namespace Ty

mutual

/-- Canonical values: literals of a basic type, lists of canonical elements, records with exactly
the fields of their type, and functions. A quantified type is read at its body. -/
def Canonical : Ty → Expr → Prop
  | name _ x, e => ∃ n a, e = .val n a ∧ Rule.lit a = .name none x
  | all _ _ _ body, e => body.Canonical e
  | arrow _ _ _, e => e.isFunction = true
  | app _ _ _, _ => False
  | list _ elem, e => ∃ n es, e = .list n es ∧ ∀ u ∈ es, elem.Canonical u
  | emptyList, e => ∃ n, e = .list n []
  | record _ fields, e => ∃ n fs, e = .record n fs ∧ ∀ label,
      Option.Rel (fun P u => P u) ((canonicalFields fields).lookup label) (fs.lookup label)

def canonicalFields : List (String × Ty) → List (String × (Expr → Prop))
  | [] => []
  | (label, t) :: fields => (label, t.Canonical) :: canonicalFields fields

end

theorem canonicalFields_eq (fields : List (String × Ty)) :
    canonicalFields fields = fields.map fun f => (f.1, f.2.Canonical) :=
  walk_eq_map rfl (fun _ _ => rfl) fields

end Ty

namespace Closure

variable {G : List String} {k : Nat} {g : Env}

theorem isFunction_of_shown {v : Val} {e : Expr} (h : Shown G k v e) (hv : v.isFunction = true) :
    e.isFunction = true := by
  cases h with
  | closure hlam =>
    cases hlam with
    | lam => rfl
  | prim hr hc =>
    show (Builtin.ofName? _).isSome = true
    rw [Builtin.ofName?_name]
    rfl
  | cons | consOf => rfl
  | lit | list | record => cases hv

/-- Labels that are not on one side are not on the other. -/
theorem lookup_eq_none_of_labels {α β : Type} {fs : List (String × α)} {gs : List (String × β)}
    (h : fs.map Prod.fst = gs.map Prod.fst) {label : String} (hf : fs.lookup label = none) :
    gs.lookup label = none := by
  rw [List.lookup_eq_none_iff] at hf ⊢
  intro p hp
  have hmem : p.1 ∈ fs.map Prod.fst := h ▸ List.mem_map_of_mem hp
  obtain ⟨q, hq, hqp⟩ := List.mem_map.mp hmem
  exact hqp ▸ hf q hq

/-- An expression that unloads a value of a type is canonical. The names of `δ` that are not free
in the end may mean anything, and are taken to mean nothing. -/
theorem canonical_of_shown {t : Ty} {δ : String → Sem} (hδ : ∀ x, δ x = .base x ∨ δ x = .empty)
    {v : Val} {e : Expr} (hv : (t.sem δ).mem g v) (h : Shown G k v e) : t.Canonical e := by
  induction t using Ty.induction generalizing δ v e with
  | name line x =>
    rw [Ty.sem_name] at hv
    rcases hδ x with hx | hx
    · rw [hx] at hv
      obtain ⟨a, rfl, ha⟩ := hv
      cases h with
      | lit => exact ⟨_, a, rfl, ha⟩
    · rw [hx] at hv
      exact hv.elim
  | all line x bounds body ih =>
    rw [Ty.sem_all] at hv
    -- a value for all meanings of the variable is one for the empty meaning
    refine ih (fun y => ?_) (hv .empty) h
    by_cases hy : y = x
    · exact Or.inr (by rw [hy, Function.update_self])
    · rw [Function.update_of_ne hy]
      exact hδ y
  | arrow line dom cod _ _ => exact isFunction_of_shown h hv.1
  | app line fn arg _ _ => exact hv.elim
  | list line elem ih =>
    obtain ⟨vs, rfl, hvs⟩ := hv
    cases h with
    | @list _ es n hlen hes =>
      refine ⟨n, es, rfl, fun u hu => ?_⟩
      obtain ⟨i, hi, rfl⟩ := List.mem_iff_getElem.mp hu
      have hi' : i < vs.length := hlen ▸ hi
      have hpair : (vs[i], es[i]) ∈ vs.zip es := by
        rw [List.mem_iff_getElem]
        exact ⟨i, by simp [hi, hi'], by simp⟩
      exact ih hδ (hvs _ (List.getElem_mem hi')) (hes _ _ hpair)
  | emptyList =>
    obtain rfl : v = .list [] := hv
    cases h with
    | @list _ es n hlen hes =>
      obtain rfl : es = [] := List.length_eq_zero_iff.mp hlen.symm
      exact ⟨n, rfl⟩
  | record line fields ih =>
    rw [Ty.sem_record] at hv
    obtain ⟨us, rfl, hus⟩ := hv
    cases h with
    | @record _ gs n hlabels hes =>
      refine ⟨n, gs, rfl, fun label => ?_⟩
      have hl := hus label
      rw [Assoc.lookup_map] at hl
      rw [Ty.canonicalFields_eq, Assoc.lookup_map]
      cases ht : fields.lookup label with
      | none =>
        rw [ht] at hl
        cases hu : us.lookup label with
        | none =>
          rw [lookup_eq_none_of_labels hlabels hu]
          exact .none
        | some u =>
          rw [hu] at hl
          cases hl
      | some t =>
        rw [ht] at hl
        cases hu : us.lookup label with
        | none =>
          rw [hu] at hl
          cases hl
        | some u =>
          rw [hu] at hl
          cases hl with
          | some hmem =>
            obtain ⟨e, he, hshown⟩ := shown_lookup hlabels hes hu
            rw [he]
            exact .some (ih (label, t) (Assoc.mem_of_lookup ht) hδ hmem hshown)

end Closure

/-- How the evaluation of an expression with the type `t` may end. -/
def Ty.Safe (t : Ty) : EStateM.Result EvalError Machine Expr → Prop
  | .ok v _ => t.Canonical v
  | .error e _ => e.Harmless ∨ e = .outOfFuel

/-- A run that settles has, with less fuel, the same result or none. -/
theorem Settles.below {α : Type} {p : Nat → Eval α} (hp : ∀ n k, n ≤ k → Eval.Below (p n) (p k))
    {m : Machine} {r : EStateM.Result EvalError Machine α} (h : Settles p m r) (n : Nat) :
    (∃ m', (p n).run m = .error .outOfFuel m') ∨ (p n).run m = r := by
  obtain ⟨depth, hdepth⟩ := h
  rcases hp n (max n depth) (le_max_left n depth) m with hout | hsame
  · exact Or.inl hout
  · exact Or.inr (hsame.symm.trans (hdepth _ (le_max_right n depth)))

namespace Stmt

theorem run_below {n k : Nat} (h : n ≤ k) (s : Stmt) : Eval.Below (s.run n) (s.run k) := by
  cases s with
  | assign line x e | eval line e => exact .bind (e.eval_below h) fun _ => .refl _
  | inst line trait type dict => exact .refl _
  | field line x trait type => exact .refl _

/-- The statement's expression has a type, and its evaluation from `m` ends in a way that the type
allows. -/
def Safe (fuel : Nat) (m : Machine) (s : Stmt) : Prop :=
  ∃ line e t, s.expr? = some (line, e) ∧ e.type? = some t ∧ t.Safe ((e.eval line fuel).run m)

open Closure

/-- What typing and plainness give for all statements of a program. -/
structure Fit (all : List Stmt) (k : Nat) (F : List String) : Prop where
  clash : NoClash all
  basics : ∀ w ∈ Ty.basicNames, w ∈ F
  core : ∀ s ∈ all, s.expr?.isSome = true
  within : ∀ s ∈ all, s.TypedWithin k F
  regular : ∀ s ∈ all, ∀ e ∈ s.expr?, e.2.Regular k F

/-- A run stands before the statements `ss`: the globals so far have their types, and those to
come are new. -/
structure Ready (all : List Stmt) (k : Nat) (F : List String) (Γ : Context) (σ : Store)
    (m : Machine) (ss : List Stmt) : Prop where
  typed : StmtsHaveTypes Γ ss
  scope : Γ.Within k F
  mem : ∀ s ∈ ss, s ∈ all
  models : Models Sem.base σ.globals Γ []
  shows : σ.Shows (globals all) m
  once : (globals ss).Nodup
  fresh : ∀ x ∈ globals ss, σ.globals.lookup x = none

/-- How an expression of type `t` is finished under the globals `g`. -/
inductive Finished (G : List String) (t : Ty) (g : Env) :
    EStateM.Result EvalError Machine Expr → Prop
  | ok {v : Expr} {w : Val} {m : Machine} {σ : Store} (hw : (t.sem Sem.base).mem g w)
      (hv : Shown G m.drawn w v) (hg : σ.globals = g) (hσ : σ.Shows G m) : Finished G t g (.ok v m)
  | error {e : EvalError} {m : Machine} (he : e.Harmless) : Finished G t g (.error e m)

section

variable {all ss : List Stmt} {k : Nat} {F : List String} {Γ : Context} {σ : Store} {m : Machine}
  {s : Stmt} {line : Nat} {e : Expr} {t : Ty}

theorem Finished.safe {G : List String} {g : Env} {r : EStateM.Result EvalError Machine Expr}
    (h : Finished G t g r) : t.Safe r := by
  cases h with
  | ok hw hv _ _ => exact canonical_of_shown (fun x => Or.inl rfl) hw hv
  | error he => exact Or.inl he

/-- Evaluation with closures ends, and evaluation by substitution follows it. -/
theorem Fit.settles (hf : Fit all k F) (hs : s ∈ all) (he : s.expr? = some (line, e))
    (ht : HasType Γ e t) (hΓ : Γ.Within k F) (hm : Models Sem.base σ.globals Γ [])
    (hσ : σ.Shows (globals all) m) :
    ∃ r, Settles (fun n => e.eval line n) m r ∧ Finished (globals all) t σ.globals r := by
  have hlams : ∀ x ∈ e.lamNames, x ∈ s.lamNames := by
    cases s with
    | assign | eval =>
      obtain ⟨-, rfl⟩ := Prod.mk.inj (Option.some.inj he)
      exact fun _ => id
    | inst | field => cases he
  -- with closures the expression ends by its type, and substitution ends the same way
  have hruns : Runs σ.globals (fun n => Closure.eval line n [] e)
      ((t.sem Sem.base).mem σ.globals) :=
    runs_eval ht hf.basics hΓ (hf.regular s hs _ he) (fun _ _ => rfl) hm
  obtain ⟨r, ⟨depth, hdepth⟩, hends⟩ := hruns σ rfl
  have hagree := simulates_expr hf.clash hs hlams line depth σ m hσ (Nat.zero_le _)
  rw [hdepth depth (le_refl depth)] at hagree
  cases hends with
  | ok hg hw =>
    cases hagree with
    | ok hset hσ' _ hv => exact ⟨_, hset, .ok hw hv hg hσ'⟩
  | error hharm =>
    cases hagree with
    | error hset => exact ⟨_, hset, .error hharm⟩

/-- A finished statement leaves a run that stands before the next ones. -/
inductive After (all : List Stmt) (k : Nat) (F : List String) (ss : List Stmt) :
    EStateM.Result EvalError Machine String → Prop
  | ok {text : String} {m : Machine} {Γ : Context} {σ : Store} (h : Ready all k F Γ σ m ss) :
      After all k F ss (.ok text m)
  | error {e : EvalError} {m : Machine} (he : e.Harmless) : After all k F ss (.error e m)

theorem Ready.log (h : Ready all k F Γ σ m ss) (s : Stmt) (v : Expr) :
    After all k F ss ((s.logLine v).run m) := by
  unfold logLine
  split_ifs
  · exact .ok h
  · exact .error trivial

/-- An expression that stands alone changes no global. -/
theorem Ready.eval {σ' : Store} {m' : Machine}
    (h : Ready all k F Γ σ m (.eval line e :: ss)) (hss : StmtsHaveTypes Γ ss)
    (hg : σ'.globals = σ.globals) (hσ : σ'.Shows (globals all) m') :
    Ready all k F Γ σ' m' ss where
  typed := hss
  scope := h.scope
  mem := fun s hs => h.mem s (List.mem_cons_of_mem _ hs)
  models := hg ▸ h.models
  shows := hσ
  once := h.once
  fresh := hg ▸ h.fresh

/-- An assignment adds a global of its type. -/
theorem Ready.assign {x : String} {σ' : Store} {m' : Machine} {v : Expr} {w : Val}
    (hf : Fit all k F) (h : Ready all k F Γ σ m (.assign line x e :: ss)) (ht : HasType Γ e t)
    (hss : StmtsHaveTypes ((x, .term t) :: Γ) ss) (hw : (t.sem Sem.base).mem σ.globals w)
    (hv : Shown (globals all) m'.drawn w v) (hg : σ'.globals = σ.globals)
    (hσ : σ'.Shows (globals all) m') :
    Ready all k F ((x, .term t) :: Γ) { σ' with globals := Assoc.insert x w σ'.globals }
      { m' with globals := Assoc.insert x v m'.globals } ss := by
  have hs : .assign line x e ∈ all := h.mem _ List.mem_cons_self
  have hx : x ∈ globals all := List.mem_filterMap.mpr ⟨_, hs, rfl⟩
  have hxss : x ∈ globals (.assign line x e :: ss) := List.mem_cons_self
  obtain ⟨hnew, honce⟩ := List.nodup_cons.mp h.once
  have htype : t.Within k F := (hf.within _ hs).found (line, e) rfl t ht.type?_eq
  refine ⟨hss, h.scope.cons_term x htype, fun s hs => h.mem s (List.mem_cons_of_mem _ hs), ?_,
    hσ.insert hx hv, honce, fun y hy => ?_⟩
  · rw [hg]
    exact h.models.insert (h.fresh x hxss) (hf.clash.builtins x hx).1 hw
  · have hne : y ≠ x := fun he => hnew (he ▸ hy)
    show (Assoc.insert x w σ'.globals).lookup y = none
    rw [Assoc.lookup_insert_of_ne _ _ hne, hg]
    exact h.fresh y (List.mem_cons_of_mem x hy)

/-- One statement: with enough fuel its run ends. -/
theorem Ready.settles_run (hf : Fit all k F) (h : Ready all k F Γ σ m (s :: ss)) :
    ∃ r, Settles (fun n => s.run n) m r ∧ After all k F ss r := by
  have hs : s ∈ all := h.mem s List.mem_cons_self
  have htyped := h.typed
  cases s with
  | assign line x e =>
    cases htyped with
    | assign ht hss =>
      obtain ⟨r, hset, hfin⟩ := hf.settles hs rfl ht h.scope h.models h.shows
      cases hfin with
      | error he => exact ⟨_, hset.bind_error, .error he⟩
      | ok hw hv hg hσ =>
        exact ⟨_, hset.bind (.const rfl), (h.assign hf ht hss hw hv hg hσ).log _ _⟩
  | eval line e =>
    cases htyped with
    | eval ht hss =>
      obtain ⟨r, hset, hfin⟩ := hf.settles hs rfl ht h.scope h.models h.shows
      cases hfin with
      | error he => exact ⟨_, hset.bind_error, .error he⟩
      | ok hw hv hg hσ => exact ⟨_, hset.bind (.const rfl), (h.eval hss hg hσ).log _ _⟩
  | inst line trait type dict | field line x trait type => cases hf.core _ hs

theorem Ready.safe (hf : Fit all k F) (h : Ready all k F Γ σ m (s :: ss)) (fuel : Nat) :
    s.Safe fuel m := by
  have hs : s ∈ all := h.mem s List.mem_cons_self
  have htyped := h.typed
  obtain ⟨line, e, t, he, ht⟩ : ∃ line e t, s.expr? = some (line, e) ∧ HasType Γ e t := by
    cases htyped with
    | assign ht _ | eval ht _ => exact ⟨_, _, _, rfl, ht⟩
    | inst | field => cases hf.core _ hs
  obtain ⟨r, hset, hfin⟩ := hf.settles hs he ht h.scope h.models h.shows
  refine ⟨line, e, t, he, ht.type?_eq, ?_⟩
  rcases hset.below (fun _ _ hle => e.eval_below hle) fuel with ⟨m', hout⟩ | hr
  · rw [hout]
    exact Or.inr rfl
  · rw [hr]
    exact hfin.safe

/-- Statements that have been run leave a run that stands before the others. -/
theorem Ready.reach (hf : Fit all k F) {done : List Stmt}
    (h : Ready all k F Γ σ m (done ++ ss)) {fuel : Nat} {log log' : String} {m' : Machine}
    (hrun : runAll fuel log m done = (log', m', .ok ())) :
    ∃ Γ' σ', Ready all k F Γ' σ' m' ss := by
  induction done generalizing Γ σ m log with
  | nil =>
    obtain ⟨-, hm⟩ := Prod.mk.inj hrun
    obtain ⟨rfl, -⟩ := Prod.mk.inj hm
    exact ⟨Γ, σ, h⟩
  | cons s done ih =>
    obtain ⟨r, hset, hafter⟩ := h.settles_run hf
    unfold runAll at hrun
    -- a run that is out of fuel does not get here; any other is the one that settles
    rcases hset.below (fun _ _ hle => s.run_below hle) fuel with ⟨m₁, hout⟩ | hr
    · rw [hout] at hrun
      cases hrun
    · rw [hr] at hrun
      cases hafter with
      | ok h' => exact ih h' hrun
      | error => cases hrun

theorem Ready.error (hf : Fit all k F) (h : Ready all k F Γ σ m ss) {fuel : Nat} {log : String}
    {err : EvalError} (hrun : (runAll fuel log m ss).2.2 = .error err) :
    err.Harmless ∨ err = .outOfFuel := by
  induction ss generalizing Γ σ m log with
  | nil => cases hrun
  | cons s ss ih =>
    obtain ⟨r, hset, hafter⟩ := h.settles_run hf
    unfold runAll at hrun
    rcases hset.below (fun _ _ hle => s.run_below hle) fuel with ⟨m₁, hout⟩ | hr
    · rw [hout] at hrun
      exact Or.inr (Except.error.inj hrun).symm
    · rw [hr] at hrun
      cases hafter with
      | ok h' => exact ih h' hrun
      | error he => exact Or.inl (Except.error.inj hrun ▸ he)

/-- With enough fuel, a run never lacks it. -/
theorem Ready.ends (hf : Fit all k F) (h : Ready all k F Γ σ m ss) :
    ∃ depth, ∀ fuel log, depth ≤ fuel → (runAll fuel log m ss).2.2 ≠ .error .outOfFuel := by
  induction ss generalizing Γ σ m with
  | nil => exact ⟨0, fun fuel log _ => nofun⟩
  | cons s ss ih =>
    obtain ⟨r, ⟨depth, hdepth⟩, hafter⟩ := h.settles_run hf
    cases hafter with
    | ok h' =>
      obtain ⟨depth', hdepth'⟩ := ih h'
      refine ⟨max depth depth', fun fuel log hle => ?_⟩
      unfold runAll
      rw [hdepth fuel (le_trans (le_max_left depth depth') hle)]
      exact hdepth' fuel _ (le_trans (le_max_right depth depth') hle)
    | error he =>
      refine ⟨depth, fun fuel log hle hout => ?_⟩
      unfold runAll at hout
      rw [hdepth fuel hle] at hout
      rw [Except.error.inj hout] at he
      exact he

end

end Stmt

namespace Program

/-- A plain program that has been typed meets what its run relies on. -/
theorem fit {code : String} {p q : Program Stmt} {drawn : Nat} {st : TypingState}
    (hr : resolveText code = .ok (p, drawn)) (hi : (p.infer drawn).2 = .ok (q, st)) (hp : p.Plain)
    (hc : q.ComparesBasics) (hxs : "__xs" ∉ Stmt.globals p.stmts) :
    Stmt.Fit q.stmts st.drawn (Ty.basicNames ++ p.lamNames) := by
  have hq := infer_plain hp hi
  obtain ⟨-, hlams, htlams⟩ := Stmt.names_plain hq
  obtain ⟨-, -, hwithin⟩ := infer_sound hr hi
  -- the type lambdas of all statements are apart, so those of each one are
  have hapart : Expr.Apart (Ty.basicNames ++ p.lamNames) (q.stmts.flatMap Stmt.tlams)
      (q.stmts.flatMap Stmt.compared) := by
    rw [htlams]
    refine ⟨hp.typeVars, fun b hb hmem => ?_, hc⟩
    rcases List.mem_append.mp hmem with hbasic | hlam
    · exact (hp.typeNames b hb).1 hbasic
    · exact (hp.typeNames b hb).2 hlam
  refine ⟨hp.noClash hr hxs hq, fun w hw => List.mem_append_left _ hw, Stmt.core_plain hq, hwithin,
    fun s hs e he => ?_⟩
  have hse := hapart.flatMap s hs
  have hwse := (hwithin s hs).written
  rw [Stmt.tlams, Stmt.compared, he] at hse
  refine Expr.regular ?_ hse
  cases s with
  | assign | eval =>
    obtain rfl := Option.some.inj he
    exact hwse
  | inst | field => cases he

/-- Type safety. A plain program that has been typed has no dictionaries to be passed. In its run
on any input, a statement whose expression is finished has a canonical value of the type that was
found, and nothing fails but division by zero, the head of an empty list, conversion between
integers and texts, and reading behind the end of the input. With enough fuel the run ends. -/
theorem run_safe {code : String} {p q : Program Stmt} {drawn : Nat} {st : TypingState}
    (hr : resolveText code = .ok (p, drawn)) (hi : (p.infer drawn).2 = .ok (q, st)) (hp : p.Plain)
    (hc : q.ComparesBasics) (hxs : "__xs" ∉ Stmt.globals p.stmts) (input : String) :
    q.dispatch = .ok q ∧
      (∀ fuel done s rest log m, q.stmts = done ++ s :: rest →
        Stmt.runAll fuel "" { input := inputLines input } done = (log, m, .ok ()) →
        s.Safe fuel m) ∧
      (∀ fuel e, (q.run fuel input).2.2 = .error e → e.Harmless ∨ e = .outOfFuel) ∧
      ∃ depth, ∀ fuel, depth ≤ fuel → (q.run fuel input).2.2 ≠ .error .outOfFuel := by
  have hq := infer_plain hp hi
  have hf := fit hr hi hp hc hxs
  have hready : Stmt.Ready q.stmts st.drawn (Ty.basicNames ++ p.lamNames) Context.builtins
      { input := inputLines input } { input := inputLines input } q.stmts :=
    { typed := (infer_sound hr hi).1
      scope := Context.within_builtins hf.basics
      mem := fun _ => id
      models := .builtins fun _ _ => rfl
      shows := Closure.Store.shows_start _ _
      once := (Stmt.names_plain hq).1 ▸ hp.once
      fresh := fun _ _ => rfl }
  refine ⟨dispatch_plain hq, fun fuel done s rest log m hsplit hrun => ?_,
    fun fuel e he => hready.error hf he, ?_⟩
  · rw [hsplit] at hready
    obtain ⟨Γ, σ, hreached⟩ := Stmt.Ready.reach (hsplit ▸ hf) hready hrun
    exact hreached.safe (hsplit ▸ hf) fuel
  · obtain ⟨depth, hdepth⟩ := hready.ends hf
    exact ⟨depth, fun fuel hle => hdepth fuel "" hle⟩

/-- Functions over all types, a list, a record, division, equality and input. -/
def plainSample : String :=
  "twice = \\a. \\f: a -> a. \\x: a. f (f x);\n" ++
    "first = \\b. \\l: [b]. head (cons (head l) (tail l));\n" ++
    "pair = \x7bn = twice (\\y: Int. y / 2) (first [31, 5]), s = \"a\" + read\x7d;\n" ++
    "pair.n == 7;\n"

theorem run_safe_plain : ∃ p drawn q st, resolveText plainSample = .ok (p, drawn) ∧
    (p.infer drawn).2 = .ok (q, st) ∧ p.Plain ∧ q.ComparesBasics ∧ q.dispatch = .ok q ∧
    (∀ fuel e, (q.run fuel "b\n").2.2 = .error e → e.Harmless ∨ e = .outOfFuel) ∧
    ∃ depth, ∀ fuel, depth ≤ fuel → (q.run fuel "b\n").2.2 ≠ .error .outOfFuel := by
  have hok : ((resolveText plainSample).toOption.any fun r =>
      decide r.1.Plain && decide ("__xs" ∉ Stmt.globals r.1.stmts) &&
        (r.1.infer r.2).2.toOption.any fun q => decide q.1.ComparesBasics) = true := by
    decide +kernel
  obtain ⟨⟨p, drawn⟩, hr, hok⟩ := exists_of_any_toOption hok
  obtain ⟨hnames, hc⟩ := Bool.and_eq_true_iff.mp hok
  obtain ⟨hp, hxs⟩ := Bool.and_eq_true_iff.mp hnames
  obtain ⟨⟨q, st⟩, hi, hc⟩ := exists_of_any_toOption hc
  have hsafe := run_safe hr hi (of_decide_eq_true hp) (of_decide_eq_true hc)
    (of_decide_eq_true hxs) "b\n"
  exact ⟨p, drawn, q, st, hr, hi, of_decide_eq_true hp, of_decide_eq_true hc, hsafe.1, hsafe.2.2⟩

/-- A global with the name that `cons` generates, in a function that is put into a list. -/
def capturedSample : String :=
  "__xs = 5;\n" ++ "f = \\u: Int. __xs;\n" ++ "g = head (cons f [f]);\n" ++ "r = g 0;\n"

theorem not_safe_of_list {s : Stmt} {fuel line : Nat} {m m' : Machine} {e : Expr} {t : Ty}
    {n : Note} {es : List Expr} (he : s.expr? = some (line, e)) (ht : e.type? = some t)
    (hbasic : t.isBasic = true) (hv : (e.eval line fuel).run m = .ok (.list n es) m') :
    ¬s.Safe fuel m := by
  rintro ⟨line', e', t', he', ht', hsafe⟩
  obtain ⟨rfl, rfl⟩ := Prod.mk.inj (Option.some.inj (he.symm.trans he'))
  obtain rfl := Option.some.inj (ht.symm.trans ht')
  rw [hv] at hsafe
  cases t with
  | name l x =>
    obtain ⟨_, _, hval, _⟩ := hsafe
    cases hval
  | _ => cases hbasic

/-- The last statement of a run of the sample gives a list for an integer. -/
def endsInList (fuel : Nat) (q : Program Stmt) : Bool :=
  match q.stmts.reverse with
  | [] => false
  | s :: done =>
    match Stmt.runAll fuel "" { input := inputLines "" } done.reverse, s.expr? with
    | (_, m, .ok ()), some (line, e) =>
      e.type?.any Ty.isBasic &&
        match (e.eval line fuel).run m with
        | .ok (.list ..) _ => true
        | _ => false
    | _, _ => false

theorem run_captured : ∃ p drawn q st done s log m,
    resolveText capturedSample = .ok (p, drawn) ∧ (p.infer drawn).2 = .ok (q, st) ∧ p.Plain ∧
    q.ComparesBasics ∧ q.stmts = done ++ [s] ∧
    Stmt.runAll 20 "" { input := inputLines "" } done = (log, m, .ok ()) ∧ ¬s.Safe 20 m := by
  have hok : ((resolveText capturedSample).toOption.any fun r => decide r.1.Plain &&
      (r.1.infer r.2).2.toOption.any fun q =>
        decide q.1.ComparesBasics && q.1.endsInList 20) = true := by
    decide +kernel
  obtain ⟨⟨p, drawn⟩, hr, hok⟩ := exists_of_any_toOption hok
  obtain ⟨hp, hok⟩ := Bool.and_eq_true_iff.mp hok
  obtain ⟨⟨q, st⟩, hi, hok⟩ := exists_of_any_toOption hok
  obtain ⟨hc, hend⟩ := Bool.and_eq_true_iff.mp hok
  unfold endsInList at hend
  split at hend
  · cases hend
  · rename_i s done hstmts
    split at hend
    · rename_i log m line e hrun he
      obtain ⟨hbasic, hlist⟩ := Bool.and_eq_true_iff.mp hend
      obtain ⟨t, ht, hbasic⟩ := (Option.any_eq_true _ _).mp hbasic
      split at hlist
      · rename_i n es m' hv
        have hsplit : q.stmts = done.reverse ++ [s] := by
          rw [← List.reverse_reverse q.stmts, hstmts, List.reverse_cons]
        exact ⟨p, drawn, q, st, done.reverse, s, log, m, hr, hi, of_decide_eq_true hp,
          of_decide_eq_true hc, hsplit, hrun, not_safe_of_list he ht hbasic hv⟩
      · cases hlist
    · cases hend

end Program

end TraitCalculus
