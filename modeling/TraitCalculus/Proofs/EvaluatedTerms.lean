import Mathlib
import TraitCalculus.Proofs.FinishedEvaluations

/-! Results of evaluation are normal forms. No types stand outside the bodies of their lambdas, and
a result that is evaluated again, at any later time of the run, is what it was: nothing is printed,
read or drawn. -/
namespace TraitCalculus

theorem Eval.run_bind_of_ok {α β : Type} {x : Eval α} {f : α → Eval β} {m m₁ : Machine} {a : α}
    (h : x.run m = .ok a m₁) : (x >>= f).run m = (f a).run m₁ := by
  rw [EStateM.run_bind, h]

def Param.isErased : Param → Bool
  | erased => true
  | _ => false

namespace Expr

mutual

/-- No types stand outside the bodies of lambdas. -/
def erased : Expr → Bool
  | lam _ _ p _ => p.isErased
  | tlam .. | tapp .. | ascribe .. => false
  | cond _ c y z => c.erased && y.erased && z.erased
  | bin _ _ l r => l.erased && r.erased
  | un _ _ e => e.erased
  | app _ f a => f.erased && a.erased
  | proj _ e _ => e.erased
  | var .. | val .. => true
  | list _ es => erasedItems es
  | record _ fs => erasedFields fs

def erasedItems : List Expr → Bool
  | [] => true
  | e :: es => e.erased && erasedItems es

def erasedFields : List (String × Expr) → Bool
  | [] => true
  | (_, e) :: fs => e.erased && erasedFields fs

end

theorem erasedItems_iff {es : List Expr} :
    erasedItems es = true ↔ ∀ e ∈ es, e.erased = true :=
  walk_eq_true rfl (fun _ _ => rfl) es

theorem erasedFields_iff {fs : List (String × Expr)} :
    erasedFields fs = true ↔ ∀ e ∈ fs.map Prod.snd, e.erased = true := by
  induction fs with
  | nil => simp [erasedFields]
  | cons f fs ih => simp [erasedFields, ih]

/-- What evaluation leaves: none of its rules applies, and types are dropped. -/
structure Evaluated (v : Expr) : Prop where
  reduced : (v.shape []).Reduced
  erased : v.erased = true

/-- All globals have been evaluated. -/
def EvaluatedIn (m : Machine) : Prop := ∀ x v, m.globals.lookup x = some v → v.Evaluated

namespace EvaluatedIn

variable {m m' : Machine}

theorem reducedIn (h : EvaluatedIn m) : ReducedIn m := fun x v hx => (h x v hx).reduced

theorem later (h : EvaluatedIn m) (hl : m.Later m') : EvaluatedIn m' := by
  unfold EvaluatedIn
  rw [hl.globals]
  exact h

theorem of_eval {line fuel : Nat} {e v : Expr} (h : EvaluatedIn m)
    (he : (e.eval line fuel).run m = .ok v m') : EvaluatedIn m' :=
  h.later (reduced_of_eval he h.reducedIn).2

end EvaluatedIn

theorem RanItems.erased {line fuel : Nat} {es vs : List Expr} {m m' : Machine}
    (ih : ∀ {e v : Expr} {m m' : Machine}, (e.eval line fuel).run m = .ok v m' → EvaluatedIn m →
      v.erased = true)
    (h : RanItems line fuel es m vs m') (hm : EvaluatedIn m) : ∀ v ∈ vs, v.erased = true := by
  induction h with
  | nil => simp
  | cons he _ ihs => exact List.forall_mem_cons.mpr ⟨ih he hm, ihs (hm.of_eval he)⟩

theorem erased_of_eval {line fuel : Nat} {e v : Expr} {m m' : Machine}
    (h : (e.eval line fuel).run m = .ok v m') (hm : EvaluatedIn m) : v.erased = true := by
  induction fuel generalizing e v m m' with
  | zero => cases h
  | succ fuel ih =>
    cases ran_of_eval h with
    | lam => rfl
    | tlam h | tapp h | ascribe h => exact ih h hm
    | yes hc _ hv | no hc _ hv | field hc _ hv => exact ih hv (hm.of_eval hc)
    | cond hc _ hy hz =>
      have hmc := hm.of_eval hc
      rw [erased, ih hc hm, ih hy hmc, ih hz (hmc.of_eval hy)]
      rfl
    | short hl _ => exact ih hl hm
    | bin hl _ hr hv =>
      have hl' := ih hl hm
      have hr' := ih hr (hm.of_eval hl)
      obtain ⟨-, hjoined⟩ := joined_of_join hv
      cases hjoined with
      | stuck => rw [erased, hl', hr', Bool.and_self]
      | lit => rfl
      | lists hleft hright =>
        subst hleft hright
        rw [erased, erasedItems_iff] at hl' hr' ⊢
        exact List.forall_mem_append.mpr ⟨hl', hr'⟩
    | un he hv =>
      obtain ⟨-, ⟨-, rfl⟩ | ⟨-, k, w, rfl⟩⟩ := negate_ok hv
      · rw [erased, ih he hm]
      · rfl
    | @call _ _ _ _ body _ w x _ _ m₁ m₂ _ hf ha hb =>
      have hdraw : m₂.Later { m₂ with drawn := ((body.subst x w).run m₂.drawn).2 } :=
        ⟨rfl, substIn_drawn_le body [] (some (x, w)) m₂.drawn⟩
      exact ih hb (((hm.of_eval hf).of_eval ha).later hdraw)
    | builtin hf _ ha hb =>
      have ha' := ih ha (hm.of_eval hf)
      obtain ⟨-, -, happlied⟩ := applied_of_evalBuiltin hb
      cases happlied with
      | arg => exact ha'
      | lit => rfl
      | head hlist =>
        subst hlist
        rw [erased, erasedItems_iff] at ha'
        exact ha' _ List.mem_cons_self
      | tail hlist =>
        subst hlist
        rw [erased, erasedItems_iff] at ha' ⊢
        exact fun e he => ha' e (List.mem_of_mem_tail he)
      | stuck _ => rw [erased, ha', Bool.and_true, erased]
    | app hf ha _ => rw [erased, ih hf hm, ih ha (hm.of_eval hf), Bool.and_self]
    | proj he _ => rw [erased, ih he hm]
    | global hx => exact (hm _ _ hx).erased
    | name _ hx =>
      obtain ⟨-, -, b, -, ⟨⟨k, w, rfl⟩, -⟩ | ⟨rfl, -⟩ | ⟨-, rfl, -⟩⟩ := evalName_ok hx <;> rfl
    | val => rfl
    | list hvs => exact erasedItems_iff.mpr (hvs.erased ih hm)
    | record hvs =>
      rw [erased, erasedFields_iff, List.map_snd_zip (by simp [hvs.length_eq])]
      exact hvs.erased ih hm

theorem evaluated_of_eval {line fuel : Nat} {e v : Expr} {m m' : Machine}
    (h : (e.eval line fuel).run m = .ok v m') (hm : EvaluatedIn m) : v.Evaluated :=
  ⟨(reduced_of_eval h hm.reducedIn).1, erased_of_eval h hm⟩

section Stuck

variable {n : Note} {m : Machine}

theorem run_join_of_stuck {op : BinOp} {l r : Expr}
    (h : Shape.stuck op (l.shape []) (r.shape []) = true) :
    (join n op l r).run m = .ok (bin n op l r) m := by
  cases hrun : (join n op l r).run m with
  | ok v m' =>
    obtain ⟨rfl, hjoined⟩ := joined_of_join hrun
    cases hjoined with
    | stuck => rfl
    | lit hnot | lists _ _ hnot =>
      rw [h] at hnot
      cases hnot
  | error e m' =>
    -- an operator fails on two literals only, where it is not stuck
    exfalso
    cases op with
    | or | and =>
      simp only [join] at hrun
      split at hrun <;> cases hrun
    | _ =>
      simp only [join, evalBin] at hrun
      split at hrun
      · simp [Shape.stuck, shape, Shape.lit?] at h
      · split_ifs at hrun <;> cases hrun
      · cases hrun

theorem run_negate_of_stuck {op : UnOp} {e : Expr} (h : Shape.stuckUn op (e.shape []) = true) :
    (negate n op e).run m = .ok (un n op e) m := by
  cases hrun : (negate n op e).run m with
  | ok v m' =>
    obtain ⟨rfl, ⟨-, rfl⟩ | ⟨hnot, -⟩⟩ := negate_ok hrun
    · rfl
    · rw [h] at hnot
      cases hnot
  | error err m' =>
    exfalso
    cases op with
    | not =>
      simp only [negate] at hrun
      split at hrun <;> cases hrun
    | neg =>
      simp only [negate] at hrun
      split at hrun
      · simp [Shape.stuckUn, shape, Shape.lit?] at h
      · cases hrun

theorem evalApplied_of_stuck {line fuel : Nat} {f a : Expr}
    (h : (f.shape []).isFunction = false) : evalApplied line fuel n a f = pure (app n f a) := by
  cases f with
  | lam => cases h
  | var k x =>
    have hx : Builtin.ofName? x = none := by simpa [shape, Shape.isFunction] using h
    simp only [evalApplied, hx]
  | _ => rfl

theorem run_evalName {line : Nat} {x : String} {b : Builtin} (hx : Builtin.ofName? x = some b)
    (hread : b ≠ .read) (hcons : b ≠ .cons) : (evalName line n x).run m = .ok (var n x) m := by
  unfold evalName
  rw [hx]
  cases b with
  | read => exact absurd rfl hread
  | cons => exact absurd rfl hcons
  | _ => rfl

theorem run_mapM_self {line fuel : Nat} {es : List Expr}
    (h : ∀ e ∈ es, (e.eval line fuel).run m = .ok e m) :
    (es.mapM (eval line fuel)).run m = .ok es m := by
  induction es with
  | nil => rfl
  | cons e es ih =>
    obtain ⟨he, hes⟩ := List.forall_mem_cons.mp h
    rw [List.mapM_cons, Eval.run_bind_of_ok he, Eval.run_bind_of_ok (ih hes)]
    rfl

end Stuck

end Expr

namespace Shape

variable {fuel : Nat}

theorem exists_succ_of_sizeOf_le {s : Shape} (h : sizeOf s ≤ fuel) : ∃ k, fuel = k + 1 := by
  refine Nat.exists_eq_succ_of_ne_zero fun h0 => ?_
  subst h0
  cases s <;> simp at h

theorem sizeOf_le_of_mem {form : Form} {parts : List Shape} {s : Shape}
    (h : sizeOf (node form parts) ≤ fuel + 1) (hs : s ∈ parts) : sizeOf s ≤ fuel := by
  have hlt := List.sizeOf_lt_of_mem hs
  rw [node.sizeOf_spec] at h
  omega

end Shape

namespace Expr

/-- A result is what it was when it is evaluated again, and the machine is as it was. -/
theorem Evaluated.run_eval {v : Expr} (hv : v.Evaluated) {m : Machine}
    (hm : ∀ b : Builtin, m.globals.lookup b.name = none) {line fuel : Nat}
    (hfuel : sizeOf (v.shape []) ≤ fuel) : (v.eval line fuel).run m = .ok v m := by
  obtain ⟨hr, he⟩ := hv
  induction v using Expr.induction generalizing fuel with
  | lam n x p body =>
    obtain ⟨fuel, rfl⟩ := Shape.exists_succ_of_sizeOf_le hfuel
    cases p with
    | erased => rfl
    | _ => cases he
  | tlam | tapp | ascribe => cases he
  | cond n c y z ihc ihy ihz =>
    obtain ⟨fuel, rfl⟩ := Shape.exists_succ_of_sizeOf_le hfuel
    simp only [Expr.erased, Bool.and_eq_true] at he
    cases hr with
    | cond hc hy hz hnone =>
      rw [eval_cond, Eval.run_bind_of_ok (ihc (Shape.sizeOf_le_of_mem hfuel (by simp)) hc he.1.1)]
      simp only [hnone]
      rw [Eval.run_bind_of_ok (ihy (Shape.sizeOf_le_of_mem hfuel (by simp)) hy he.1.2),
        Eval.run_bind_of_ok (ihz (Shape.sizeOf_le_of_mem hfuel (by simp)) hz he.2)]
      rfl
  | bin n op l r ihl ihr =>
    obtain ⟨fuel, rfl⟩ := Shape.exists_succ_of_sizeOf_le hfuel
    simp only [Expr.erased, Bool.and_eq_true] at he
    cases hr with
    | bin hl hr hd hstuck =>
      rw [eval_bin, Eval.run_bind_of_ok (ihl (Shape.sizeOf_le_of_mem hfuel (by simp)) hl he.1),
        hd, if_neg Bool.false_ne_true,
        Eval.run_bind_of_ok (ihr (Shape.sizeOf_le_of_mem hfuel (by simp)) hr he.2)]
      exact run_join_of_stuck hstuck
  | un n op e ih =>
    obtain ⟨fuel, rfl⟩ := Shape.exists_succ_of_sizeOf_le hfuel
    cases hr with
    | un hs hstuck =>
      rw [eval_un, Eval.run_bind_of_ok (ih (Shape.sizeOf_le_of_mem hfuel (by simp)) hs he)]
      exact run_negate_of_stuck hstuck
  | app n f a ihf iha =>
    obtain ⟨fuel, rfl⟩ := Shape.exists_succ_of_sizeOf_le hfuel
    simp only [Expr.erased, Bool.and_eq_true] at he
    cases hr with
    | app hf ha hstuck =>
      rw [eval_app, Eval.run_bind_of_ok (ihf (Shape.sizeOf_le_of_mem hfuel (by simp)) hf he.1),
        Eval.run_bind_of_ok (iha (Shape.sizeOf_le_of_mem hfuel (by simp)) ha he.2),
        evalApplied_of_stuck hstuck]
      rfl
  | proj n e label ih =>
    obtain ⟨fuel, rfl⟩ := Shape.exists_succ_of_sizeOf_le hfuel
    cases hr with
    | proj hs hstuck =>
      rw [eval_proj, Eval.run_bind_of_ok (ih (Shape.sizeOf_le_of_mem hfuel (by simp)) hs he)]
      cases e with
      | record => cases hstuck
      | _ => rfl
  | var n x =>
    obtain ⟨fuel, rfl⟩ := Shape.exists_succ_of_sizeOf_le hfuel
    cases hr with
    | builtin hx hread hcons =>
      have hlookup : m.globals.lookup x = none := by
        rw [← Builtin.name_of_ofName? hx, hm]
      calc
        ((var n x).eval line (fuel + 1)).run m = (evalVar line n x).run m := rfl
        _ = (evalName line n x).run m := by rw [run_evalVar, hlookup]
        _ = .ok (var n x) m := run_evalName hx hread hcons
  | val n v =>
    obtain ⟨fuel, rfl⟩ := Shape.exists_succ_of_sizeOf_le hfuel
    rfl
  | list n es ih =>
    obtain ⟨fuel, rfl⟩ := Shape.exists_succ_of_sizeOf_le hfuel
    rw [Expr.erased, erasedItems_iff] at he
    rw [shape_list] at hr hfuel
    cases hr with
    | list hes =>
      have hself : ∀ e ∈ es, (e.eval line fuel).run m = .ok e m := by
        intro e hmem
        have hs := List.mem_map_of_mem (f := (·.shape [])) hmem
        exact ih e hmem (Shape.sizeOf_le_of_mem hfuel hs) (hes _ hs) (he e hmem)
      exact Eval.run_bind_of_ok (run_mapM_self hself)
  | record n fs ih =>
    obtain ⟨fuel, rfl⟩ := Shape.exists_succ_of_sizeOf_le hfuel
    rw [Expr.erased, erasedFields_iff] at he
    rw [shape_record] at hr hfuel
    cases hr with
    | record hes =>
      have hself : ∀ e ∈ fs.map Prod.snd, (e.eval line fuel).run m = .ok e m := by
        intro e hmem
        have hs := List.mem_map_of_mem (f := (·.shape [])) hmem
        obtain ⟨g, hg, rfl⟩ := List.mem_map.mp hmem
        exact ih g hg (Shape.sizeOf_le_of_mem hfuel hs) (hes _ hs) (he _ hmem)
      rw [eval_record, Eval.run_bind_of_ok (run_mapM_self hself), ← List.zip_of_prod rfl rfl]
      rfl

end Expr

/-- All globals have been evaluated, and none has the name of a builtin. -/
structure Machine.Evaluated (m : Machine) : Prop where
  globals : Expr.EvaluatedIn m
  builtins : ∀ b : Builtin, m.globals.lookup b.name = none

/-- A state with the globals that statements leave, none of which assigns the name of a builtin. -/
def Machine.Reaches (m m' : Machine) : Prop :=
  ∃ ss fuel log log' m₁, (∀ x ∈ Stmt.globals ss, Builtin.ofName? x = none) ∧
    Stmt.runAll fuel log m ss = (log', m₁, .ok ()) ∧ m'.globals = m₁.globals

namespace Stmt

variable {fuel : Nat} {m m' : Machine}

theorem evaluated_run {s : Stmt} {text : String} (h : (s.run fuel).run m = .ok text m')
    (hs : ∀ x, s.assigned? = some x → Builtin.ofName? x = none) (hm : m.Evaluated) :
    m'.Evaluated := by
  cases s with
  | assign line x e =>
    obtain ⟨v, m₁, he, rfl⟩ := run_assign_ok h
    have hm₁ := hm.globals.of_eval he
    have hglobals : m₁.globals = m.globals :=
      (Expr.reduced_of_eval he hm.globals.reducedIn).2.globals
    constructor
    · intro y w hy
      by_cases hyx : y = x
      · subst hyx
        obtain rfl : v = w := Option.some.inj ((Assoc.lookup_insert_self y v _).symm.trans hy)
        exact Expr.evaluated_of_eval he hm.globals
      · exact hm₁ y w ((Assoc.lookup_insert_of_ne v m₁.globals hyx).symm.trans hy)
    · intro b
      have hne : b.name ≠ x := by
        rintro rfl
        cases (hs b.name rfl).symm.trans (Builtin.ofName?_name b)
      calc
        (Assoc.insert x v m₁.globals).lookup b.name = m₁.globals.lookup b.name :=
          Assoc.lookup_insert_of_ne v m₁.globals hne
        _ = none := by rw [hglobals, hm.builtins]
  | eval line e =>
    obtain ⟨v, he⟩ := run_eval_ok h
    have hglobals : m'.globals = m.globals :=
      (Expr.reduced_of_eval he hm.globals.reducedIn).2.globals
    exact ⟨hm.globals.of_eval he, hglobals ▸ hm.builtins⟩
  | inst | field =>
    obtain ⟨-, rfl⟩ := EStateM.Result.ok.inj h
    exact hm

theorem evaluated_runAll {ss : List Stmt} {log log' : String}
    (h : runAll fuel log m ss = (log', m', .ok ()))
    (hss : ∀ x ∈ globals ss, Builtin.ofName? x = none) (hm : m.Evaluated) : m'.Evaluated := by
  induction ss generalizing log m with
  | nil =>
    obtain ⟨-, rfl⟩ : log = log' ∧ m = m' := by simpa [runAll] using h
    exact hm
  | cons s ss ih =>
    rw [runAll] at h
    split at h
    · cases h
    · rename_i text m₁ hrun
      refine ih h (fun x hx => hss x ?_) (evaluated_run hrun (fun x hx => hss x ?_) hm)
      · unfold globals at hx ⊢
        rw [List.filterMap_cons]
        split <;> simp [hx]
      · simp [globals, hx]

end Stmt

theorem Machine.Reaches.evaluated {m m' : Machine} (h : m.Reaches m') (hm : m.Evaluated) :
    m'.Evaluated := by
  obtain ⟨ss, fuel, log, log', m₁, hss, hrun, hglobals⟩ := h
  obtain ⟨hm₁, hb⟩ := Stmt.evaluated_runAll hrun hss hm
  unfold Expr.EvaluatedIn at hm₁
  rw [← hglobals] at hm₁ hb
  exact ⟨hm₁, hb⟩

theorem Machine.evaluated_start (input : List String) : Machine.Evaluated { input := input } := by
  constructor
  · intro x v hx
    cases hx
  · intro b
    rfl

namespace Expr

/-- Results are normal forms: whatever is evaluated in a state of a run, what it comes to has no
types outside the bodies of lambdas, and evaluated again, in that state or in a later one, it comes
to itself and leaves the state as it is. -/
theorem eval_result {input : List String} {m m₁ : Machine}
    (hm : Machine.Reaches { input := input } m) {line fuel : Nat} {e v : Expr}
    (h : (e.eval line fuel).run m = .ok v m₁) :
    v.erased = true ∧ ∃ depth, ∀ m', m.Reaches m' → ∀ line' fuel', depth ≤ fuel' →
      (v.eval line' fuel').run m' = .ok v m' := by
  have hstate := hm.evaluated (Machine.evaluated_start input)
  have hv := evaluated_of_eval h hstate.globals
  refine ⟨hv.erased, sizeOf (v.shape []), ?_⟩
  intro m' hlater line' fuel' hfuel
  exact hv.run_eval (hlater.evaluated hstate).builtins hfuel

/-- A function under a type lambda, and a sum that no rule reduces. -/
def halfReduced : Expr :=
  .record .blank [
    ("id", .tlam .blank "a" [] (.lam .blank "x" (.typed (.name none "a")) (.var .blank "x"))),
    ("sum", .bin .blank .add (.var .blank "g") (.val .blank (.int 1)))]

theorem eval_result_halfReduced : ∃ m v m₁, Machine.Reaches { input := [] } m ∧
    (halfReduced.eval 2 9).run m = .ok v m₁ ∧ v.erased = true ∧
    ∃ depth, ∀ m', m.Reaches m' → ∀ line' fuel', depth ≤ fuel' →
      (v.eval line' fuel').run m' = .ok v m' := by
  have hreach : Machine.Reaches { input := [] }
      { globals := [("g", .var .blank "print")] } := by
    refine ⟨[.assign 1 "g" (.var .blank "print")], 9, "", _, _, ?_, rfl, rfl⟩
    simp [Stmt.globals, Stmt.assigned?]
    decide
  have hrun : (halfReduced.eval 2 9).run { globals := [("g", .var .blank "print")] } =
      .ok _ _ := rfl
  exact ⟨_, _, _, hreach, hrun, eval_result hreach hrun⟩

end Expr

end TraitCalculus
