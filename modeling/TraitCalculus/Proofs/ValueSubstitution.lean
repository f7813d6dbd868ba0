import Mathlib
import TraitCalculus.Proofs.DictionaryFitting
import TraitCalculus.Proofs.EvaluatedTerms

/-! Values under substitution. Where the variable does not occur, a value keeps its shape and is
still a value, with names among those drawn so far. Evaluation gives such values. -/
namespace TraitCalculus

/-- The form holds no type. -/
def Form.untyped : Form → Bool
  | tlam .. | tapp _ | ascribe _ => false
  | _ => true

namespace Expr

open Ty (renamed)

theorem erased_of_form {e : Expr} {f : Form} (h : e.form? = some f) :
    e.erased = true ↔ f.untyped = true ∧ ∀ d ∈ e.parts, d.erased = true := by
  cases e <;> cases h <;>
    simp [erased, parts, Form.untyped, erasedItems_iff, erasedFields_iff, and_assoc]

theorem erased_substIn (e : Expr) {σ : Option (String × Expr)} (he : e.erased = true)
    (hσ : ∀ y new, σ = some (y, new) → new.erased = true) (ρ : List (String × String)) (k : Nat) :
    ((e.substIn ρ σ).run k).1.erased = true := by
  induction e using Expr.induct_form generalizing k with
  | var n x =>
    rw [run_substIn_var]
    cases σ with
    | none =>
      obtain ⟨n', hvar⟩ := substVar_none ρ n x
      rw [hvar, erased]
    | some p =>
      obtain ⟨n', hvar⟩ := substVar_some ρ p.1 p.2 n x
      rw [hvar]
      split_ifs
      · exact hσ p.1 p.2 rfl
      · rfl
  | lam n x p body =>
    obtain ⟨y, ρ', σ', k', -, hrun | ⟨-, -, -, hrun⟩⟩ := run_substIn_lam ρ σ k n x p body
    · rw [hrun]
      rfl
    · rw [hrun]
      exact he
  | form e f hf ih =>
    obtain ⟨hform, hparts⟩ := run_substIn_of_form hf ρ σ k
    obtain ⟨huntyped, hall⟩ := (erased_of_form hf).mp he
    rw [erased_of_form hform, hparts]
    refine ⟨huntyped, forall_mem_of_forall₂ (forall₂_substItems ρ σ e.parts k)
      (fun d hd j => ih d hd (hall d hd) j) ?_⟩
    rintro d d' ⟨j, -, rfl, -⟩ hd
    exact hd j

theorem drawn_substIn_of_form {e : Expr} {f : Form} (h : e.form? = some f)
    (ρ : List (String × String)) (σ : Option (String × Expr)) (k : Nat) :
    ((e.substIn ρ σ).run k).2 = ((substItems ρ σ e.parts).run k).2 := by
  cases e with
  | lam | var => cases h
  | record n fs =>
    have hrun : (((record n fs).substIn ρ σ).run k).2 = ((substFields ρ σ fs).run k).2 := rfl
    rw [hrun, run_substFields, parts]
  | _ => rfl

/-- The names of variables and lambdas are among those drawn so far. -/
def OldAt (k : Nat) (e : Expr) : Prop := ∀ w ∈ e.termNames, OldName k w

theorem OldAt.mono {e : Expr} {k k' : Nat} (h : e.OldAt k) (hk : k ≤ k') : e.OldAt k' :=
  fun w hw => (h w hw).mono hk

theorem oldAt_of_form {e : Expr} {f : Form} {k : Nat} (h : e.form? = some f) :
    e.OldAt k ↔ ∀ d ∈ e.parts, d.OldAt k := by
  unfold OldAt
  rw [termNames_of_form h]
  constructor
  · intro hall d hd w hw
    exact hall w (List.mem_flatMap.mpr ⟨d, hd, hw⟩)
  · intro hall w hw
    obtain ⟨d, hd, hw⟩ := List.mem_flatMap.mp hw
    exact hall d hd w hw

theorem old_renamed {ρ : List (String × String)} {k : Nat} {x : String} (hx : OldName k x)
    (hρ : ∀ p ∈ ρ, OldName k p.2) : OldName k (renamed ρ x) := by
  unfold renamed
  cases hl : ρ.lookup x with
  | none => exact hx
  | some z => exact hρ (x, z) (Assoc.mem_of_lookup hl)

/-- The names of a substituted expression have been drawn when it is done. -/
theorem old_substIn (e : Expr) {ρ : List (String × String)} {σ : Option (String × Expr)} {k : Nat}
    (he : e.OldAt k) (hρ : ∀ p ∈ ρ, OldName k p.2)
    (hσ : ∀ y new, σ = some (y, new) → new.OldAt k) :
    ((e.substIn ρ σ).run k).1.OldAt ((e.substIn ρ σ).run k).2 := by
  induction e using Expr.induct_form generalizing ρ σ k with
  | var n x =>
    have hx := old_renamed (he x (by simp [termNames])) hρ
    rw [run_substIn_var]
    cases σ with
    | none =>
      obtain ⟨n', hvar⟩ := substVar_none ρ n x
      rw [hvar]
      simpa [OldAt, termNames] using hx
    | some p =>
      obtain ⟨n', hvar⟩ := substVar_some ρ p.1 p.2 n x
      rw [hvar]
      split_ifs
      · exact hσ p.1 p.2 rfl
      · simpa [OldAt, termNames] using hx
  | lam n x p body ih =>
    obtain ⟨hx, hbody⟩ := List.forall_mem_cons.mp he
    have hfilter : ∀ q ∈ ρ.filter (·.1 ≠ x), OldName k q.2 :=
      fun q hq => hρ q (List.mem_of_mem_filter hq)
    obtain ⟨y, ρ', σ', k', hin, hrun⟩ := run_substIn_lam ρ σ k n x p body
    have henter : k ≤ k' ∧ OldName k' y ∧ (∀ q ∈ ρ', OldName k' q.2) ∧
        ∀ z new, σ' = some (z, new) → new.OldAt k' := by
      cases hin with
      | hidden _ => exact ⟨le_rfl, hx, hfilter, by simp⟩
      | kept => exact ⟨le_rfl, hx, hfilter, hσ⟩
      | renamed =>
        have hle : k ≤ k + 1 := Nat.le_succ k
        have hfresh := oldName_freshName x (k + 1)
        refine ⟨hle, hfresh, List.forall_mem_cons.mpr ⟨hfresh, fun q hq => (hfilter q hq).mono hle⟩,
          fun z new hz => (hσ z new hz).mono hle⟩
    obtain ⟨hle, hy, hρ', hσ'⟩ := henter
    have hbody' : body.OldAt k' := OldAt.mono hbody hle
    rcases hrun with hrun | ⟨rfl, -, -, hrun⟩
    · rw [hrun]
      exact List.forall_mem_cons.mpr
        ⟨hy.mono (body.substIn_drawn_le ρ' σ' k'), ih hbody' hρ' hσ'⟩
    · rw [hrun]
      exact List.forall_mem_cons.mpr ⟨hy, hbody'⟩
  | form e f hf ih =>
    obtain ⟨hform, hparts⟩ := run_substIn_of_form hf ρ σ k
    rw [oldAt_of_form hform, hparts, drawn_substIn_of_form hf]
    refine forall_mem_of_forall₂ (forall₂_substItems ρ σ e.parts k) (P := (· ∈ e.parts))
      (fun d hd => hd) ?_
    rintro d d' ⟨j, hj, rfl, hend⟩ hd
    refine (ih d hd ?_ ?_ ?_).mono hend
    · exact ((oldAt_of_form hf).mp he d hd).mono hj
    · exact fun p hp => (hρ p hp).mono hj
    · exact fun y new hy => (hσ y new hy).mono hj

/-- The free variables of a substituted expression are its own ones, renamed, or come with the new
expression. -/
theorem mem_freeVars_substIn (e : Expr) {ρ : List (String × String)} {σ : Option (String × Expr)}
    {k : Nat} {z : String} (h : z ∈ ((e.substIn ρ σ).run k).1.freeVars) :
    (∃ w ∈ e.freeVars, z = renamed ρ w) ∨ ∃ y new, σ = some (y, new) ∧ z ∈ new.freeVars := by
  induction e using Expr.induct_form generalizing ρ σ k with
  | var n x =>
    rw [run_substIn_var] at h
    cases σ with
    | none =>
      obtain ⟨n', hvar⟩ := substVar_none ρ n x
      rw [hvar, freeVars, List.mem_singleton] at h
      exact .inl ⟨x, by simp [freeVars], h⟩
    | some p =>
      obtain ⟨n', hvar⟩ := substVar_some ρ p.1 p.2 n x
      rw [hvar] at h
      split_ifs at h
      · exact .inr ⟨p.1, p.2, rfl, h⟩
      · rw [freeVars, List.mem_singleton] at h
        exact .inl ⟨x, by simp [freeVars], h⟩
  | lam n x p body ih =>
    obtain ⟨y, ρ', σ', k', hin, hrun⟩ := run_substIn_lam ρ σ k n x p body
    have hname : renamed ρ' x = y ∧ (∀ w, w ≠ x → renamed ρ' w = renamed ρ w) ∧
        (σ' = none ∨ σ' = σ) := by
      cases hin with
      | hidden => exact ⟨Ty.Underway.renamed_erase_self ρ x,
          fun w hw => Ty.Underway.renamed_erase_of_ne ρ hw, .inl rfl⟩
      | kept => exact ⟨Ty.Underway.renamed_erase_self ρ x,
          fun w hw => Ty.Underway.renamed_erase_of_ne ρ hw, .inr rfl⟩
      | renamed =>
        refine ⟨Ty.Underway.renamed_cons_self _ x _, fun w hw => ?_, .inr rfl⟩
        rw [Ty.Underway.renamed_cons_of_ne _ _ hw, Ty.Underway.renamed_erase_of_ne ρ hw]
    obtain ⟨hx, hother, hσ⟩ := hname
    rcases hrun with hrun | ⟨-, rfl, -, hrun⟩
    · rw [hrun, freeVars, List.mem_filter] at h
      obtain ⟨hz, hzy⟩ := h
      rcases ih hz with ⟨w, hw, hzw⟩ | ⟨z', new, hnew, hz⟩
      · have hwx : w ≠ x := by
          rintro rfl
          exact of_decide_eq_true hzy (hzw.trans hx)
        refine .inl ⟨w, ?_, hzw.trans (hother w hwx)⟩
        exact List.mem_filter.mpr ⟨hw, decide_eq_true hwx⟩
      · rcases hσ with rfl | rfl
        · cases hnew
        · exact .inr ⟨z', new, hnew, hz⟩
    · rw [hrun] at h
      have hzx : z ≠ x := of_decide_eq_true (List.mem_filter.mp h).2
      exact .inl ⟨z, h, hother z hzx⟩
  | form e f hf ih =>
    obtain ⟨hform, hparts⟩ := run_substIn_of_form hf ρ σ k
    rw [freeVars_of_form hform, hparts, List.mem_flatMap] at h
    obtain ⟨d', hd', hz⟩ := h
    rw [freeVars_of_form hf]
    have hall : ∀ d' ∈ ((substItems ρ σ e.parts).run k).1, z ∈ d'.freeVars →
        (∃ w ∈ e.parts.flatMap freeVars, z = renamed ρ w) ∨
          ∃ y new, σ = some (y, new) ∧ z ∈ new.freeVars := by
      refine forall_mem_of_forall₂ (forall₂_substItems ρ σ e.parts k) (P := (· ∈ e.parts))
        (fun d hd => hd) ?_
      rintro d d' ⟨j, -, rfl, -⟩ hd hz
      rcases ih d hd hz with ⟨w, hw, hzw⟩ | hnew
      · exact .inl ⟨w, List.mem_flatMap.mpr ⟨d, hd, hw⟩, hzw⟩
      · exact .inr hnew
    exact hall d' hd' hz

/-- What can be met as a value when `k` names have been drawn. -/
structure Held (k : Nat) (v : Expr) : Prop where
  evaluated : v.Evaluated
  old : v.OldAt k

namespace Held

variable {k : Nat} {v new : Expr}

theorem mono {k' : Nat} (h : v.Held k) (hk : k ≤ k') : v.Held k' :=
  ⟨h.evaluated, h.old.mono hk⟩

theorem free_old (h : v.Held k) : ∀ w ∈ v.freeVars, OldName k w :=
  fun w hw => h.old w (freeVars_subset_termNames v w hw)

/-- A value in which neither the variable nor a name of a lambda around it occurs. -/
theorem substIn {k₀ : Nat} {x : String} {w : Expr} {xs zs : List String}
    {ρ : List (String × String)} (hw : w.Held k₀) (hv : v.Held k₀) (hx : OldName k₀ x)
    (hu : Ty.Underway k₀ x .emptyList xs zs ρ (some (x, .emptyList)) k) (hxs : x ∉ xs)
    (hxw : x ∉ w.freeVars) (hxsw : ∀ z ∈ xs, z ∉ w.freeVars) (hxsv : ∀ z ∈ xs, z ∉ v.freeVars) :
    ((w.substIn ρ (some (x, v))).run k).1.shape [] = w.shape [] ∧
      ((w.substIn ρ (some (x, v))).run k).1.Held ((w.substIn ρ (some (x, v))).run k).2 := by
  -- the new names of the lambdas are none of the free variables of the two values
  have hzv : ∀ z ∈ zs, z ∉ v.freeVars := fun z hz hfree =>
    hu.apart z (fun hm => hxsv z hm hfree) (hv.free_old z hfree) hz
  have hzw : ∀ z ∈ zs, z ∉ w.freeVars := fun z hz hfree =>
    hu.apart z (fun hm => hxsw z hm hfree) (hw.free_old z hfree) hz
  have hsubst := (shape_substIn_some w hu hxs
    (iff_of_true hzv fun z hz hfree => absurd hfree (hxsv z hz)) hx hv.free_old hw.old).mpr
    (by simp [around_eq_nil w xs hxw])
  have hnot : x ∉ (w.shape xs).freeNames := fun h => hxw ((mem_freeNames_shape w xs x).mp h).1
  rw [Shape.subst_eq_self _ _ _ hnot, (shape_eq_nil_iff w xs).mpr hxsw] at hsubst
  have hclosed : ∀ z ∈ zs, z ∉ ((w.substIn ρ (some (x, v))).run k).1.freeVars := by
    intro z hz hfree
    rcases mem_freeVars_substIn w hfree with ⟨u, hu', rfl⟩ | ⟨y, new, hnew, hfree⟩
    · have hnone := hu.outside u fun hm => hxsw u hm hu'
      rw [renamed, hnone, Option.getD_none] at hz
      exact hzw u hz hu'
    · obtain ⟨-, rfl⟩ := Prod.mk.inj (Option.some.inj hnew)
      exact hzv z hz hfree
  have hshape := ((shape_eq_nil_iff _ zs).mpr hclosed).symm.trans hsubst
  have hσ {P : Expr → Prop} (hP : P v) (y : String) (d : Expr)
      (hd : some (x, v) = some (y, d)) : P d :=
    (Prod.mk.inj (Option.some.inj hd)).2 ▸ hP
  refine ⟨hshape, ⟨hshape ▸ hw.evaluated.reduced, ?_⟩, ?_⟩
  · exact erased_substIn w hw.evaluated.erased (hσ hv.evaluated.erased) ρ k
  · exact old_substIn w (hw.old.mono hu.le) (fun p hp => (hu.drawn p hp).2)
      (hσ (hv.old.mono hu.le))

/-- A value in which the variable does not occur. -/
theorem subst {x : String} (h : v.Held k) (hnew : new.Held k) (hx : OldName k x)
    (hfree : x ∉ v.freeVars) : ((v.subst x new).run k).1.shape [] = v.shape [] ∧
      ((v.subst x new).run k).1.Held ((v.subst x new).run k).2 :=
  h.substIn hnew hx (.start k x .emptyList) (by simp) hfree (by simp) (by simp)

end Held

/-- All globals are values. -/
def HeldIn (m : Machine) : Prop := ∀ x v, m.globals.lookup x = some v → v.Held m.drawn

namespace HeldIn

variable {m m' : Machine}

theorem evaluatedIn (h : HeldIn m) : EvaluatedIn m := fun x v hx => (h x v hx).evaluated

theorem later (h : HeldIn m) (hl : m.Later m') : HeldIn m' := by
  intro x v hx
  rw [hl.globals] at hx
  exact (h x v hx).mono hl.drawn

end HeldIn

section

variable {line fuel : Nat} {m m' : Machine} {e v : Expr}

theorem later_of_eval (h : (e.eval line fuel).run m = .ok v m') (hm : HeldIn m) : m.Later m' :=
  (reduced_of_eval h hm.evaluatedIn.reducedIn).2

/-- Two operands, one after the other. -/
theorem oldAt_operands {f a v w : Expr} {m₁ m₂ : Machine}
    (ih : ∀ {e v : Expr} {m m' : Machine}, (e.eval line fuel).run m = .ok v m' → HeldIn m →
      e.OldAt m.drawn → v.OldAt m'.drawn)
    (hf : (f.eval line fuel).run m = .ok v m₁) (ha : (a.eval line fuel).run m₁ = .ok w m₂)
    (hm : HeldIn m) (hes : ∀ e ∈ [f, a], e.OldAt m.drawn) :
    m.Later m₂ ∧ v.OldAt m₂.drawn ∧ w.OldAt m₂.drawn := by
  have hlf := later_of_eval hf hm
  have hla := later_of_eval ha (hm.later hlf)
  have hw := ih ha (hm.later hlf) ((hes a (by simp)).mono hlf.drawn)
  exact ⟨hlf.trans hla, (ih hf hm (hes f (by simp))).mono hla.drawn, hw⟩

theorem RanItems.oldAt {es vs : List Expr}
    (ih : ∀ {e v : Expr} {m m' : Machine}, (e.eval line fuel).run m = .ok v m' → HeldIn m →
      e.OldAt m.drawn → v.OldAt m'.drawn)
    (h : RanItems line fuel es m vs m') (hm : HeldIn m) (hes : ∀ e ∈ es, e.OldAt m.drawn) :
    m.Later m' ∧ ∀ v ∈ vs, v.OldAt m'.drawn := by
  induction h with
  | nil => exact ⟨.refl _, by simp⟩
  | cons he _ ihs =>
    obtain ⟨hfirst, hrest⟩ := List.forall_mem_cons.mp hes
    have hl := later_of_eval he hm
    obtain ⟨hl', hvs⟩ := ihs (hm.later hl) fun d hd => (hrest d hd).mono hl.drawn
    exact ⟨hl.trans hl', List.forall_mem_cons.mpr ⟨(ih he hm hfirst).mono hl'.drawn, hvs⟩⟩

end

theorem oldAt_of_eval {line fuel : Nat} {e v : Expr} {m m' : Machine}
    (h : (e.eval line fuel).run m = .ok v m') (hm : HeldIn m) (he : e.OldAt m.drawn) :
    v.OldAt m'.drawn := by
  induction fuel generalizing e v m m' with
  | zero => cases h
  | succ fuel ih =>
    cases ran_of_eval h with
    | lam => exact he
    | tlam h | tapp h | ascribe h => exact ih h hm he
    | yes hc _ hv | no hc _ hv =>
      have hl := later_of_eval hc hm
      exact ih hv (hm.later hl) (((oldAt_of_form rfl).mp he _ (by simp [parts])).mono hl.drawn)
    | cond hc _ hy hz =>
      have hparts := (oldAt_of_form rfl).mp he
      simp only [parts, List.forall_mem_cons] at hparts
      obtain ⟨hoc, hoy, hoz, -⟩ := hparts
      have hlc := later_of_eval hc hm
      have hly := later_of_eval hy (hm.later hlc)
      have hlz := later_of_eval hz ((hm.later hlc).later hly)
      have hc' := ((ih hc hm hoc).mono hly.drawn).mono hlz.drawn
      have hy' := (ih hy (hm.later hlc) (hoy.mono hlc.drawn)).mono hlz.drawn
      have hz' := ih hz ((hm.later hlc).later hly) ((hoz.mono hlc.drawn).mono hly.drawn)
      exact (oldAt_of_form rfl).mpr (by simp [parts, hc', hy', hz'])
    | short hl _ => exact ih hl hm ((oldAt_of_form rfl).mp he _ (by simp [parts]))
    | bin hl _ hr hv =>
      obtain ⟨-, hl', hr'⟩ := oldAt_operands ih hl hr hm ((oldAt_of_form rfl).mp he)
      obtain ⟨rfl, hjoined⟩ := joined_of_join hv
      cases hjoined with
      | stuck => exact (oldAt_of_form rfl).mpr (by simp [parts, hl', hr'])
      | lit => exact (oldAt_of_form rfl).mpr (by simp [parts])
      | lists hleft hright =>
        subst hleft hright
        rw [oldAt_of_form rfl] at hl' hr' ⊢
        exact List.forall_mem_append.mpr ⟨hl', hr'⟩
    | un hu hv =>
      have hu' := ih hu hm ((oldAt_of_form rfl).mp he _ (by simp [parts]))
      obtain ⟨rfl, ⟨-, rfl⟩ | ⟨-, k, w, rfl⟩⟩ := negate_ok hv
      · exact hu'
      · exact (oldAt_of_form rfl).mpr (by simp [parts])
    | @call _ _ f a body _ w x _ _ m₁ m₂ _ hf ha hb =>
      obtain ⟨hl, hlam, hw⟩ := oldAt_operands ih hf ha hm ((oldAt_of_form rfl).mp he)
      have hbody : body.OldAt m₂.drawn := (List.forall_mem_cons.mp hlam).2
      have hdraw : m₂.Later { m₂ with drawn := ((body.subst x w).run m₂.drawn).2 } :=
        ⟨rfl, substIn_drawn_le body [] (some (x, w)) m₂.drawn⟩
      refine ih hb ((hm.later hl).later hdraw) (old_substIn body hbody (by simp) ?_)
      intro y new hy
      exact (Prod.mk.inj (Option.some.inj hy)).2 ▸ hw
    | builtin hf hx ha hb =>
      obtain ⟨-, hf', hw⟩ := oldAt_operands ih hf ha hm ((oldAt_of_form rfl).mp he)
      obtain ⟨-, hdrawn, happlied⟩ := applied_of_evalBuiltin hb
      rw [hdrawn]
      cases happlied with
      | arg => exact hw
      | lit => exact (oldAt_of_form rfl).mpr (by simp [parts])
      | head hlist =>
        subst hlist
        exact (oldAt_of_form rfl).mp hw _ List.mem_cons_self
      | tail hlist =>
        subst hlist
        rw [oldAt_of_form rfl] at hw ⊢
        exact fun d hd => hw d (List.mem_of_mem_tail hd)
      | stuck _ => exact (oldAt_of_form rfl).mpr (by simp [parts, hf', hw])
    | app hf ha _ =>
      obtain ⟨-, hf', ha'⟩ := oldAt_operands ih hf ha hm ((oldAt_of_form rfl).mp he)
      exact (oldAt_of_form rfl).mpr (by simp [parts, hf', ha'])
    | field hr hfield hv =>
      have hl := later_of_eval hr hm
      have hr' := ih hr hm he
      rw [oldAt_of_form rfl] at hr'
      exact ih hv (hm.later hl) (hr' _ (List.mem_map_of_mem (Assoc.mem_of_lookup hfield)))
    | proj hr _ =>
      have hr' := ih hr hm he
      exact hr'
    | global hx => exact (hm _ _ hx).old
    | name _ hx =>
      obtain ⟨-, hdrawn, b, -, ⟨⟨k, w, rfl⟩, -⟩ | ⟨rfl, -⟩ | ⟨-, rfl, -⟩⟩ := evalName_ok hx
      · exact (oldAt_of_form rfl).mpr (by simp [parts])
      · have hsource : ∀ w ∈ consFunction.termNames, SourceName w := by
          unfold SourceName
          decide
        exact fun w hw => (hsource w hw).old _
      · exact hdrawn ▸ he
    | val => exact he
    | list hvs =>
      rw [oldAt_of_form rfl] at he ⊢
      exact (hvs.oldAt ih hm he).2
    | record hvs =>
      rw [oldAt_of_form rfl] at he ⊢
      rw [parts, List.map_snd_zip (by simp [hvs.length_eq])]
      exact (hvs.oldAt ih hm he).2

/-- What is evaluated in a run is a value: it is evaluated, and its names have been drawn. -/
theorem held_of_eval {line fuel : Nat} {e v : Expr} {m m' : Machine}
    (h : (e.eval line fuel).run m = .ok v m') (hm : HeldIn m) (he : e.OldAt m.drawn) :
    v.Held m'.drawn ∧ HeldIn m' :=
  ⟨⟨evaluated_of_eval h hm.evaluatedIn, oldAt_of_eval h hm he⟩, hm.later (later_of_eval h hm)⟩

/-- With enough fuel an expression comes to a value, and nothing changes but the number of names
drawn. -/
def Yields (line : Nat) (m : Machine) (e v : Expr) (k : Nat) : Prop :=
  ∃ depth, ∀ fuel, depth ≤ fuel → (e.eval line fuel).run m = .ok v { m with drawn := k }

namespace Yields

variable {line : Nat} {m : Machine} {n n' : Note} {f a v w : Expr} {x : String} {k k₁ k₂ : Nat}

theorem self (hv : v.Evaluated) (hm : ∀ b : Builtin, m.globals.lookup b.name = none) :
    Yields line m v v m.drawn :=
  ⟨sizeOf (v.shape []), fun _ hfuel => hv.run_eval hm hfuel⟩

theorem lam {p : Param} {body : Expr} :
    Yields line m (.lam n x p body) (.lam n x .erased body) m.drawn := by
  refine ⟨1, fun fuel hfuel => ?_⟩
  obtain ⟨fuel, rfl⟩ := Nat.exists_eq_add_of_le' hfuel
  rfl

/-- A lambda is applied to a value. -/
theorem call {p : Param} {body : Expr} (hf : Yields line m f (.lam n' x p body) k)
    (ha : Yields line { m with drawn := k } a w k₁)
    (hb : Yields line { m with drawn := ((body.subst x w).run k₁).2 }
      ((body.subst x w).run k₁).1 v k₂) : Yields line m (app n f a) v k₂ := by
  obtain ⟨d, hf⟩ := hf
  obtain ⟨d₁, ha⟩ := ha
  obtain ⟨d₂, hb⟩ := hb
  refine ⟨max d (max d₁ d₂) + 1, fun fuel hfuel => ?_⟩
  obtain ⟨fuel, rfl⟩ := Nat.exists_eq_add_of_le' hfuel
  rw [← add_assoc, eval_app, Eval.run_bind_of_ok (hf _ (by omega)),
    Eval.run_bind_of_ok (ha _ (by omega))]
  exact hb _ (by omega)

end Yields

end Expr

end TraitCalculus
