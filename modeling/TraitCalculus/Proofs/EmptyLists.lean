import Mathlib
import TraitCalculus.Proofs.TypeEquality
import TraitCalculus.Proofs.TypeScope

/-! Where an empty list is accepted. Its type is none of the types `[T]` and equals only itself, so
an empty list does not fit where a list of some element type is expected. -/
namespace TraitCalculus

theorem Ty.same_emptyList {t : Ty} : t.same .emptyList = true ↔ t = .emptyList := by
  cases t <;> simp [Ty.same]

theorem Ty.emptyList_same {t : Ty} : Ty.emptyList.same t = true ↔ t = .emptyList := by
  cases t <;> simp [Ty.same]

theorem Rule.sum_of_not_same {line : Option Nat} {l r : Ty} (h : l.same r = false) :
    Rule.sum line l r = .error (.fault line (.mismatch l r)) := by
  simp [Rule.sum, h]

namespace Expr

/-- A list with a first element, by `cons` at the element type. -/
def consAt (n : Note) (t : Ty) (first rest : Expr) : Expr :=
  app n (app n (tapp n (var n Builtin.cons.name) t) first) rest

/-- A node gets the type that the rule for it gives, and fails as the rule does. -/
theorem run_annotate (r : Except TypeError Ty) (e : Expr) (s : TypingState) :
    (do return annotate e (← r) : Typing (Expr × Ty)).run s = r.map fun t => (annotate e t, s) := by
  cases r <;> rfl

section

variable {Γ : Scope Entry} {s s₁ s₂ : TypingState} {t t' l l' : Expr} {T U : Ty} (n i : Note)

/-- `cons` at a type is a function of an element and a list; no name is drawn for its type. -/
theorem run_infer_cons (hcons : Γ.get? Builtin.cons.name = some (.term Builtin.cons.type)) :
    ∃ e, ((tapp n (var n Builtin.cons.name) T).infer Γ).run s =
      .ok ((e, .arrow none T (.arrow none (.list none T) (.list none T))), s) := by
  have hvar : ((var n Builtin.cons.name).infer Γ).run s =
      .ok (annotate (var n Builtin.cons.name) Builtin.cons.type, s) := by
    refine (run_annotate _ _ s).trans ?_
    rw [Rule.var, hcons]
    rfl
  exact ⟨_, (run_bind_of_ok hvar).trans rfl⟩

/-- The list that `cons` gets has the type of the lists of its first argument, or is refused. -/
theorem run_infer_consAt (hcons : Γ.get? Builtin.cons.name = some (.term Builtin.cons.type))
    (ht : (t.infer Γ).run s = .ok ((t', T), s₁)) (hl : (l.infer Γ).run s₁ = .ok ((l', U), s₂)) :
    ∃ e, ((consAt n T t l).infer Γ).run s =
      if (Ty.list none T).same U then .ok ((e, .list none T), s₂)
      else .error (.fault n.line (.mismatch (.list none T) U)) := by
  obtain ⟨c, hc⟩ := run_infer_cons (T := T) (s := s) n hcons
  have hone : ((app n (tapp n (var n Builtin.cons.name) T) t).infer Γ).run s =
      .ok (annotate (app n c t') (.arrow none (.list none T) (.list none T)), s₁) := by
    refine (run_bind_of_ok hc).trans ((run_bind_of_ok ht).trans ?_)
    refine (run_annotate _ _ s₁).trans ?_
    simp only [Rule.app, T.same_refl, if_true]
    rfl
  have htwo : ((consAt n T t l).infer Γ).run s =
      (Rule.app n.line (.arrow none (.list none T) (.list none T)) U).map fun V =>
        (annotate (app n (annotate (app n c t') (.arrow none (.list none T) (.list none T))).1 l') V,
          s₂) :=
    (run_bind_of_ok hone).trans ((run_bind_of_ok hl).trans (run_annotate _ _ s₂))
  rw [htwo, Rule.app]
  by_cases hsame : (Ty.list none T).same U = true
  · simp only [if_pos hsame]
    exact ⟨_, rfl⟩
  · simp only [if_neg hsame]
    exact ⟨c, rfl⟩

/-- Empty lists and the types of lists, in a scope where `cons` is the builtin. After an element of
type `T`, `cons` at `T` takes every list of the type `[T]`, but refuses an empty one. A sum of an
empty list and another operand, on either side, is accepted just if the other one has the type of
the empty list too. -/
theorem infer_with_nil (hcons : Γ.get? Builtin.cons.name = some (.term Builtin.cons.type))
    (s : TypingState) :
    (∀ t t' T s₁, (t.infer Γ).run s = .ok ((t', T), s₁) →
      ((consAt n T t (list i [])).infer Γ).run s =
        .error (.fault n.line (.mismatch (.list none T) .emptyList)) ∧
      ∀ l l' U s₂, (l.infer Γ).run s₁ = .ok ((l', U), s₂) → (Ty.list none T).same U = true →
        ∃ e, ((consAt n T t l).infer Γ).run s = .ok ((e, .list none T), s₂)) ∧
    ∀ l l' U s₁, (l.infer Γ).run s = .ok ((l', U), s₁) →
      (U = .emptyList ∧
        (∃ e, ((bin n .add l (list i [])).infer Γ).run s = .ok ((e, .emptyList), s₁)) ∧
        ∃ e, ((bin n .add (list i []) l).infer Γ).run s = .ok ((e, .emptyList), s₁)) ∨
      (U ≠ .emptyList ∧
        ((bin n .add l (list i [])).infer Γ).run s =
          .error (.fault n.line (.mismatch U .emptyList)) ∧
        ((bin n .add (list i []) l).infer Γ).run s =
          .error (.fault n.line (.mismatch .emptyList U))) := by
  refine ⟨fun t t' T s₁ ht => ⟨?_, fun l l' U s₂ hl hsame => ?_⟩, fun l l' U s₁ hl => ?_⟩
  · obtain ⟨_, hrun⟩ := run_infer_consAt (l := list i []) n hcons ht rfl
    exact hrun
  · obtain ⟨e, hrun⟩ := run_infer_consAt n hcons ht hl
    rw [if_pos hsame] at hrun
    exact ⟨e, hrun⟩
  -- The empty list is typed without a change of state, so the rule decides on both sides.
  have hnil : ((list i []).infer Γ).run s =
      .ok ((list ⟨i.line, some .emptyList⟩ [], .emptyList), s) := rfl
  have hright : ((bin n .add l (list i [])).infer Γ).run s =
      (Rule.sum n.line U .emptyList).map fun t =>
        (annotate (bin n .add l' (list ⟨i.line, some .emptyList⟩ [])) t, s₁) :=
    (run_bind_of_ok hl).trans (run_annotate _ _ s₁)
  have hleft : ((bin n .add (list i []) l).infer Γ).run s =
      (Rule.sum n.line .emptyList U).map fun t =>
        (annotate (bin n .add (list ⟨i.line, some .emptyList⟩ []) l') t, s₁) :=
    (run_bind_of_ok hnil).trans ((run_bind_of_ok hl).trans (run_annotate _ _ s₁))
  by_cases hU : U = .emptyList
  · subst hU
    exact .inl ⟨rfl, ⟨_, hright⟩, ⟨_, hleft⟩⟩
  · have hR : U.same .emptyList = false := by simpa using mt Ty.same_emptyList.mp hU
    have hL : Ty.emptyList.same U = false := by simpa using mt Ty.emptyList_same.mp hU
    rw [hright, hleft, Rule.sum_of_not_same hR, Rule.sum_of_not_same hL]
    exact .inr ⟨hU, rfl, rfl⟩

end

/-- One element in front of no element, and the list of that element in a sum with the empty one. -/
theorem infer_with_nil_ints :
    ((consAt ⟨some 1, none⟩ .int (val .blank (.int 1)) (list .blank [])).infer .builtins).run {} =
      .error (.fault (some 1) (.mismatch (.list none .int) .emptyList)) ∧
    ((bin ⟨some 1, none⟩ .add (list .blank [val .blank (.int 1)]) (list .blank [])).infer
      .builtins).run {} = .error (.fault (some 1) (.mismatch (.list none .int) .emptyList)) := by
  obtain ⟨hcons, hsum⟩ := infer_with_nil ⟨some 1, none⟩ .blank (Γ := .builtins) rfl {}
  refine ⟨(hcons _ _ _ _ rfl).1, ?_⟩
  rcases hsum (list .blank [val .blank (.int 1)]) _ _ _ rfl with ⟨heq, -, -⟩ | ⟨-, hright, -⟩
  · cases heq
  · exact hright

/-- An element and a list of integers for which the empty list is no list of integers. -/
theorem nil_not_list_of_ints :
    (∃ e s, ((val .blank (.int 1)).infer .builtins).run {} = .ok ((e, .int), s)) ∧
    (∃ e s, ((list .blank [val .blank (.int 1)]).infer .builtins).run {} =
      .ok ((e, .list none .int), s)) ∧
    (∀ r, ((consAt .blank .int (val .blank (.int 1)) (list .blank [])).infer .builtins).run {} ≠
      .ok r) ∧
    (∀ r, ((bin .blank .add (list .blank [val .blank (.int 1)]) (list .blank [])).infer
      .builtins).run {} ≠ .ok r) ∧
    ∀ r, ((bin .blank .add (list .blank []) (list .blank [val .blank (.int 1)])).infer
      .builtins).run {} ≠ .ok r := by
  refine ⟨⟨_, _, rfl⟩, ⟨_, _, rfl⟩, ?_, ?_, ?_⟩
  all_goals
    intro r h
    cases h

end Expr

end TraitCalculus
