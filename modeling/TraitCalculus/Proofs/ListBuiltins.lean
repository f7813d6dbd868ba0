import Mathlib
import TraitCalculus.Proofs.ValueSubstitution

/-! The laws of the list builtins. `cons` is not a rule of its own: it stands for two lambdas around
a sum, so its arguments go through two substitutions, and the first one may get other names for its
bound variables on the way. -/
namespace TraitCalculus

namespace Expr

/-- The name of a builtin, with type arguments or without. -/
inductive Names (b : Builtin) : Expr → Prop
  | var (n : Note) : Names b (var n b.name)
  | tapp (n : Note) {f : Expr} (t : Ty) (h : Names b f) : Names b (tapp n f t)

section

variable (line : Nat) {m : Machine} (hm : ∀ b : Builtin, m.globals.lookup b.name = none)
include hm

theorem Names.run_eval {b : Builtin} {f : Expr} (h : f.Names b) :
    ∃ n depth, ∀ fuel, depth ≤ fuel →
      (f.eval line fuel).run m = (evalName line n b.name).run m := by
  induction h with
  | var n =>
    refine ⟨n, 1, fun fuel hfuel => ?_⟩
    obtain ⟨fuel, rfl⟩ := Nat.exists_eq_add_of_le' hfuel
    have hvar := run_evalVar line n b.name m
    rw [hm] at hvar
    exact hvar
  | tapp n t _ ih =>
    obtain ⟨n', depth, hrun⟩ := ih
    refine ⟨n', depth + 1, fun fuel hfuel => ?_⟩
    obtain ⟨fuel, rfl⟩ := Nat.exists_eq_add_of_le' hfuel
    exact hrun (fuel + depth) (by omega)

theorem Names.yields_cons {f : Expr} (h : f.Names .cons) :
    Yields line m f consFunction m.drawn := by
  obtain ⟨n, depth, hrun⟩ := h.run_eval line hm
  exact ⟨depth, fun fuel hfuel => hrun fuel hfuel⟩

theorem Names.yields_var {b : Builtin} {f : Expr} (h : f.Names b) (hread : b ≠ .read)
    (hcons : b ≠ .cons) : ∃ n, Yields line m f (.var n b.name) m.drawn := by
  obtain ⟨n, depth, hrun⟩ := h.run_eval line hm
  refine ⟨n, depth, fun fuel hfuel => ?_⟩
  rw [hrun fuel hfuel]
  exact run_evalName (Builtin.ofName?_name b) hread hcons

/-- Two lists of values are joined. -/
theorem yields_append {j k : Note} {es fs : List Expr} (hes : (list j es).Evaluated)
    (hfs : (list k fs).Evaluated) (n : Note) :
    Yields line m (bin n .add (list j es) (list k fs)) (list ⟨n.line, none⟩ (es ++ fs)) m.drawn := by
  obtain ⟨d, hl⟩ : Yields line m _ _ _ := .self hes hm
  obtain ⟨d', hr⟩ : Yields line m _ _ _ := .self hfs hm
  refine ⟨max d d' + 1, fun fuel hfuel => ?_⟩
  obtain ⟨fuel, rfl⟩ := Nat.exists_eq_add_of_le' hfuel
  rw [← add_assoc, eval_bin, Eval.run_bind_of_ok (hl _ (by omega))]
  exact Eval.run_bind_of_ok (hr _ (by omega))

/-- A builtin on an argument that comes to a value. -/
theorem Names.run_app {b : Builtin} {f a w : Expr} (h : f.Names b) (hread : b ≠ .read)
    (hcons : b ≠ .cons) {k : Nat} (ha : Yields line m a w k) (n : Note) :
    ∃ n' depth, ∀ fuel, depth ≤ fuel → ((app n f a).eval line fuel).run m =
      (evalBuiltin line n (.var n' b.name) w b).run { m with drawn := k } := by
  obtain ⟨n', d, hf⟩ := h.yields_var line hm hread hcons
  obtain ⟨d', ha⟩ := ha
  refine ⟨n', max d d' + 1, fun fuel hfuel => ?_⟩
  obtain ⟨fuel, rfl⟩ := Nat.exists_eq_add_of_le' hfuel
  rw [← add_assoc, eval_app, Eval.run_bind_of_ok (hf _ (by omega)),
    Eval.run_bind_of_ok (ha _ (by omega))]
  simp only [evalApplied, Builtin.ofName?_name]

end

/-- What `cons` comes to with its first argument. -/
def consOf (n : Note) (y : String) (v : Expr) : Expr :=
  lam .blank y .erased (bin .blank .add (list .blank [v]) (var n y))

/-- The first argument of `cons`: the parameter for the list keeps its name or gets a fresh one, and
does not occur in the argument. -/
theorem run_subst_cons {v : Expr} {k : Nat} (hv : v.Held k) (hfree : "__xs" ∉ v.freeVars) :
    ∃ n y k', ((lam .blank "__xs" .erased (bin .blank .add (list .blank [var .blank "__x"])
        (var .blank "__xs"))).subst "__x" v).run k = (consOf n y v, k') ∧
      k ≤ k' ∧ OldName k' y ∧ y ∉ v.freeVars := by
  have hold : OldName k "__xs" := by
    have hsource : SourceName "__xs" := by
      unfold SourceName
      decide
    exact hsource.old k
  obtain ⟨y, ρ, σ, k', hin, hrun⟩ := run_substIn_lam [] (some ("__x", v)) k .blank "__xs" .erased
    (bin .blank .add (list .blank [var .blank "__x"]) (var .blank "__xs"))
  cases hin with
  | hidden h => simp at h
  | kept z new hσ hne =>
    rcases hrun with hrun | ⟨-, -, hnone, -⟩
    · exact ⟨.blank, _, _, hrun, le_rfl, hold, hfree⟩
    · cases hnone
  | renamed z new hσ hne =>
    rcases hrun with hrun | ⟨-, hnil, -⟩
    · refine ⟨.blank, _, _, hrun, Nat.le_succ k, oldName_freshName _ _, ?_⟩
      exact fun hmem => (hv.free_old _ hmem).ne_freshName "__xs" rfl
    · cases hnil

theorem evaluated_singleton {v : Expr} (hv : v.Evaluated) (n : Note) : (list n [v]).Evaluated := by
  constructor
  · rw [shape_list]
    exact .list (by simpa using hv.reduced)
  · simp [erased, erasedItems, hv.erased]

/-- `cons` puts its first argument in front of the list. -/
theorem yields_cons {line : Nat} {m : Machine} (hm : ∀ b : Builtin, m.globals.lookup b.name = none)
    {f v : Expr} (hf : f.Names .cons) (hv : v.Held m.drawn) {j : Note} {es : List Expr}
    (hes : (list j es).Held m.drawn) (hfree : "__xs" ∉ v.freeVars) (n n' : Note) :
    ∃ u k, u.shape [] = v.shape [] ∧
      Yields line m (app n (app n' f v) (list j es)) (list .blank (u :: es)) k := by
  obtain ⟨i, y, k₁, hrun, hle, hy, hnot⟩ := run_subst_cons hv hfree
  obtain ⟨hshape, hu⟩ := (hv.mono hle).subst (hes.mono hle) hy hnot
  refine ⟨_, ((v.subst y (list j es)).run k₁).2, hshape, ?_⟩
  -- the first argument is put into the inner lambda, the list into the sum that it holds
  have hfirst : Yields line m (app n' f v) (consOf i y v) k₁ := by
    refine .call (hf.yields_cons line hm) (.self hv.evaluated hm) ?_
    rw [hrun]
    exact .lam
  refine .call hfirst (.self hes.evaluated hm) ?_
  have hsum : ((bin .blank .add (list .blank [v]) (var i y)).subst y (list j es)).run k₁ =
      (bin .blank .add (list .blank [((v.subst y (list j es)).run k₁).1]) (list j es),
        ((v.subst y (list j es)).run k₁).2) := by
    have hvar : substVar [] (some (y, list j es)) i y = list j es := if_pos rfl
    have hparts : ((bin .blank .add (list .blank [v]) (var i y)).subst y (list j es)).run k₁ =
        (bin .blank .add (list .blank [((v.subst y (list j es)).run k₁).1])
          (substVar [] (some (y, list j es)) i y), ((v.subst y (list j es)).run k₁).2) := rfl
    rw [hparts, hvar]
  rw [hsum]
  exact yields_append (m := { m with drawn := ((v.subst y (list j es)).run k₁).2 }) line hm
    (evaluated_singleton hu.evaluated _) hes.evaluated .blank

/-- The evaluation rules of lists, for values that are met in the state: `cons` puts a value in
front of a list, `head` and `tail` give them back, but for notes and the names of bound variables.
The empty list is its own tail and has no head. -/
theorem list_rules {m : Machine} (hm : ∀ b : Builtin, m.globals.lookup b.name = none) {v : Expr}
    (hv : v.Held m.drawn) {j : Note} {es : List Expr} (hes : (list j es).Held m.drawn)
    (hfree : "__xs" ∉ v.freeVars) {cons head tail : Expr} (hcons : cons.Names .cons)
    (hhead : head.Names .head) (htail : tail.Names .tail) (n n₁ n₂ : Note) (line : Nat) :
    (∃ u k, u.shape [] = v.shape [] ∧
      Yields line m (app n (app n₁ cons v) (list j es)) (list .blank (u :: es)) k ∧
      Yields line m (app n₂ head (app n (app n₁ cons v) (list j es))) u k ∧
      Yields line m (app n₂ tail (app n (app n₁ cons v) (list j es))) (list .blank es) k) ∧
    Yields line m (app n₂ tail (list j [])) (list j []) m.drawn ∧
    ∃ depth, ∀ fuel, depth ≤ fuel →
      ((app n₂ head (list j [])).eval line fuel).run m = .error (.headOfEmpty line) m := by
  have hnil : (list j []).Evaluated := by
    refine ⟨?_, rfl⟩
    rw [shape_list]
    exact .list (by simp)
  have hself : Yields line m (list j []) (list j []) m.drawn := .self hnil hm
  obtain ⟨u, k, hshape, hlist⟩ := yields_cons hm hcons hv hes hfree n n₁
  obtain ⟨_, d, hfirst⟩ := hhead.run_app line hm (by decide) (by decide) hlist n₂
  obtain ⟨_, d', hrest⟩ := htail.run_app line hm (by decide) (by decide) hlist n₂
  obtain ⟨_, d₀, hnone⟩ := hhead.run_app line hm (by decide) (by decide) hself n₂
  obtain ⟨_, d₀', hempty⟩ := htail.run_app line hm (by decide) (by decide) hself n₂
  exact ⟨⟨u, k, hshape, hlist, ⟨d, hfirst⟩, ⟨d', hrest⟩⟩, ⟨d₀', hempty⟩, ⟨d₀, hnone⟩⟩

/-- A function whose type has the name of the parameter of `cons`, which is then renamed. -/
def taggedFunction : Expr :=
  lam ⟨none, some (.name none "__xs")⟩ "x" .erased (app .blank (var .blank "print") (var .blank "x"))

theorem list_rules_function : ∃ u k, u.shape [] = taggedFunction.shape [] ∧
    Yields 1 {} (app .blank (tapp .blank (var .blank "head") .string) (app .blank
      (app .blank (var .blank "cons") taggedFunction) (list .blank [val .blank (.int 2)]))) u k := by
  have hv : taggedFunction.Held 0 := by
    have hsource : ∀ w ∈ taggedFunction.termNames, SourceName w := by
      unfold SourceName
      decide
    exact ⟨⟨.lam, rfl⟩, fun w hw => (hsource w hw).old 0⟩
  have hes : (list .blank [val .blank (.int 2)]).Held 0 := by
    have htwo : (val .blank (.int 2)).Evaluated := ⟨.val, rfl⟩
    refine ⟨evaluated_singleton htwo _, ?_⟩
    intro w hw
    cases hw
  obtain ⟨⟨u, k, hshape, -, hhead, -⟩, -⟩ := list_rules (m := {}) (fun _ => rfl) hv hes (by decide)
    (.var .blank) (.tapp .blank .string (.var .blank)) (.var .blank) .blank .blank .blank 1
  exact ⟨u, k, hshape, hhead⟩

end Expr

end TraitCalculus
