import Mathlib
import TraitCalculus.Proofs.Retyping

/-! Typing with inference, repeated. Where a type argument is inferred, function and argument are
typed a second time, and the application is accepted only if no name was drawn for the type of the
argument. So the tree that typing leaves can be typed again, with or without inference, and the
type differs from the first in names of quantifiers only. -/
namespace TraitCalculus

namespace Ty

/-- Where a quantified function is like one whose parameter was matched, its instance has a
parameter with names of the type argument only. -/
theorem names_domain_subst {l : Option Nat} {x y : String} {dom cod body t u : Ty}
    (h : (arrow l dom cod).nameless [x] = body.nameless [y]) (ht : dom.unify x u = some t)
    (i : Nat) :
    ∃ l' dom' cod', ((body.subst y t).run i).1 = arrow l' dom' cod' ∧
      ∀ w ∈ dom'.names, w ∈ t.names := by
  cases body with
  | arrow l' dom' cod' =>
    obtain ⟨hdom, -⟩ := Nameless.arrow.inj h
    rw [unify_of_nameless_eq dom hdom] at ht
    have hsk := (finds_of_unify dom' ht).skeleton
    have hfill : ((dom'.substIn [] (some (y, t))).run i).1 = dom'.fill y t :=
      congrArg Prod.fst (hsk.run_subst t i)
    rw [subst, run_substIn_arrow, hfill]
    exact ⟨l', _, _, rfl, hsk.names_fill t⟩
  | _ => grind [nameless]

/-- Matching finds a part of the type that is matched. -/
theorem settled_unify {k : Nat} {s t u : Ty} {x : String} (ht : t.Settled k)
    (h : s.unify x t = some u) : u.Settled k :=
  ((finds_of_unify s h).within ⟨ht, fun _ hw => hw⟩).old

end Ty

namespace Expr

attribute [local simp] bare bareItems bareFields

/-- Types in notes are not read, only written. -/
theorem explicit_bare (e : Expr) (Γ : Scope Entry) : e.bare.explicit Γ = e.explicit Γ := by
  unfold explicit
  induction e using Expr.induction generalizing Γ with
  | lam n x p body ih =>
    cases p with
    | typed t =>
      simp only [bare, typeWith, ih]
      rfl
    | _ => rfl
  | tlam n x bounds body ih | un n op e ih | tapp n f t ih | ascribe n e t ih | proj n e label ih =>
    simp only [bare, typeWith, ih]
    rfl
  | cond n c y z ihc ihy ihz =>
    simp only [bare, typeWith, ihc, ihy, ihz]
    rfl
  | bin n op l r ihl ihr | app n f a ihl ihr =>
    simp only [bare, typeWith, ihl, ihr]
    rfl
  | var n x => rfl
  | val n v => rfl
  | list n es ih =>
    cases es with
    | nil => rfl
    | cons e es =>
      obtain ⟨ihe, ihes⟩ := List.forall_mem_cons.mp ih
      have hitems : ∀ t,
          typeItems explicitApp Γ t (bareItems es) = typeItems explicitApp Γ t es := by
        intro t
        clear ih
        induction es with
        | nil => rfl
        | cons d ds ihds =>
          obtain ⟨ihd, ihds'⟩ := List.forall_mem_cons.mp ihes
          simp only [bareItems, typeItems, ihd, ihds ihds', line_bare]
      simp only [bare, bareItems, typeWith, ihe, hitems]
      rfl
  | record n fs ih =>
    have hfields : typeFields explicitApp Γ (bareFields fs) = typeFields explicitApp Γ fs := by
      induction fs with
      | nil => rfl
      | cons f fs ihs =>
        obtain ⟨ihf, ihfs⟩ := List.forall_mem_cons.mp ih
        simp only [bareFields, typeFields, ihf, ihs ihfs]
    simp only [bare, typeWith, hfields]
    rfl

theorem stable_explicit (e : Expr) : Stable explicitApp e := by
  apply stable_typeWith
  intro n f a ihf iha k Γ s s' r hΓ he hk h
  obtain ⟨hf, ha⟩ := List.forall_mem_append.mp he
  obtain ⟨⟨f₁, u⟩, s₁, hfrun, h⟩ := run_bind_eq_ok h
  obtain ⟨⟨a₁, v⟩, s₂, harun, h⟩ := run_bind_eq_ok h
  have hfout := ihf hΓ hf hk hfrun
  have haout := iha hΓ ha (hk.trans hfout.found.drawn) harun
  exact outcome_app hk (fun _ _ _ _ => rfl) hfout haout h

section Inferred

variable {k : Nat} {Γ : Scope Entry} {s s₁ s₂ s' : TypingState} {mf ma : Typing (Expr × Ty)}
  {f₁ a₁ : Expr} {l l' : Option Nat} {x : String} {bs : List String} {dom cod A t : Ty}
  {n n' : Note} {r : Expr × Ty}

/-- No name was drawn for the type of an argument from which a type argument was inferred, if the
application with this type argument is accepted: all names of the parameter's type are from the
first visit of the argument, all names of the argument's type from the second. -/
theorem settled_argument (hΓ : Γ.Settled k) (hk : k ≤ s.drawn)
    (hf : Outcome k Γ s mf (f₁, .all l x bs (.arrow l' dom cod)) s₁)
    (ha : Outcome k Γ s₁ ma (a₁, A) s₂) (ht : dom.unify x A = some t)
    (h : ((app n (tapp n' f₁ t) a₁).explicit Γ).run s₂ = .ok (r, s')) : A.Settled k := by
  have hk₁ := hk.trans hf.found.drawn
  have hk₂ := hk₁.trans ha.found.drawn
  obtain ⟨⟨g, G⟩, s₃, hg, h⟩ := run_bind_eq_ok h
  obtain ⟨⟨a₂, A₂⟩, s₄, ha₂, h⟩ := run_bind_eq_ok h
  obtain ⟨v, s₅, hv, -⟩ := run_bind_eq_ok h
  obtain ⟨hok, rfl⟩ := run_lift_eq_ok hv
  obtain ⟨l₂, dom₂, rfl, hsame⟩ := Rule.app_ok hok
  -- the function is found with a quantified type like the first one
  obtain ⟨⟨f₂, F₂⟩, s₆, hf₂, hg⟩ := run_bind_eq_ok hg
  obtain ⟨u, s₇, hu, hret⟩ := run_bind_eq_ok hg
  obtain ⟨hgu, rfl⟩ := run_pure_eq_ok hret
  obtain ⟨lq, y, cs, body, rfl, -, rfl, rfl⟩ := Rule.run_tapp_eq_ok.mp hu
  have hlike := hf.explicit.run_eq hk₂ ha.found.knows hf₂
  obtain ⟨y', body', he, -, -, hplace⟩ := hlike.alike.of_all
  obtain ⟨-, rfl, -, rfl⟩ := Ty.all.inj he
  obtain ⟨l₃, dom₃, cod₃, hinst, hnames⟩ := Ty.names_domain_subst hplace ht s₆.drawn
  obtain ⟨-, hG⟩ := Prod.mk.inj hgu
  obtain ⟨-, rfl, -⟩ := Ty.arrow.inj (hG.trans hinst)
  have hfound₃ := (stable_explicit f₁ hΓ hf.tree hk₂ hf₂).found
  have hd₃ : s₂.drawn ≤ ((body.subst y t).run s₆.drawn).2 :=
    hfound₃.drawn.trans (Ty.substIn_drawn_le body [] _ _)
  have hdom : dom₂.Settled ((body.subst y t).run s₆.drawn).2 := by
    intro w hw
    apply OldName.mono _ hd₃
    exact Ty.settled_unify (ha.found.old hk₁) ht w (hnames w hw)
  -- the argument's type of the second visit has the names of the parameter's
  have hfound₂ := (stable_explicit a₁ hΓ ha.tree (hk₂.trans hd₃) ha₂).found
  obtain ⟨-, hA₂⟩ := Ty.settled_of_same hdom hfound₂.apart hsame
  have hlike₂ := ha.explicit.run_eq
    (s := { s₆ with drawn := ((body.subst y t).run s₆.drawn).2 }) (hk₂.trans hd₃) hfound₃.knows ha₂
  obtain rfl : A = A₂ := hlike₂.alike.symm.eq_of_settled hA₂
  exact hA₂

/-- The body of the quantified type is matched again, with the same result. -/
theorem inferApp_of_like {f' a' : Expr} {F' : Ty} {i : Nat} (ht : dom.unify x A = some t)
    (hf : Like k (f₁, .all l x bs (.arrow l' dom cod)) (f', F') i) (ha : a'.bare = a₁.bare) :
    inferApp Γ n (f', F') (a', A) = (app n (tapp ⟨n.line, none⟩ f₁ t) a₁).explicit Γ := by
  obtain ⟨x', body', rfl, -, -, hplace⟩ := hf.alike.of_all
  cases body' with
  | arrow l'' dom' cod' =>
    obtain ⟨hdom, -⟩ := Nameless.arrow.inj hplace
    have ht' : dom'.unify x' A = some t := Ty.unify_of_nameless_eq dom hdom A ▸ ht
    calc
      inferApp Γ n (f', .all l x' bs (.arrow l'' dom' cod')) (a', A)
          = (app n (tapp ⟨n.line, none⟩ f' t) a').explicit Γ := by
        simp only [inferApp, ht']
        rfl
      _ = (app n (tapp ⟨n.line, none⟩ f' t) a').bare.explicit Γ := (explicit_bare _ Γ).symm
      _ = (app n (tapp ⟨n.line, none⟩ f₁ t) a₁).bare.explicit Γ := by
        simp only [bare, hf.bare, ha]
      _ = (app n (tapp ⟨n.line, none⟩ f₁ t) a₁).explicit Γ := explicit_bare _ Γ
  | _ => grind [Ty.nameless]

/-- An application whose type argument is inferred. -/
theorem outcome_inferred {f a : Expr} (hΓ : Γ.Settled k) (hk : k ≤ s.drawn)
    (hf : Outcome k Γ s (f.infer Γ) (f₁, .all l x bs (.arrow l' dom cod)) s₁)
    (ha : Outcome k Γ s₁ (a.infer Γ) (a₁, A) s₂) (ht : dom.unify x A = some t)
    (h : ((app n (tapp ⟨n.line, none⟩ f₁ t) a₁).explicit Γ).run s₂ = .ok (r, s')) :
    Outcome k Γ s ((app n f a).infer Γ) r s' := by
  have hk₁ := hk.trans hf.found.drawn
  have hA := settled_argument hΓ hk hf ha ht h
  have htree : ∀ w ∈ (app n (tapp ⟨n.line, none⟩ f₁ t) a₁).typeNames, OldName k w :=
    List.forall_mem_append.mpr ⟨List.forall_mem_append.mpr ⟨hf.tree, Ty.settled_unify hA ht⟩, ha.tree⟩
  have hout := stable_explicit _ hΓ htree (hk₁.trans ha.found.drawn) h
  have hknows := hout.found.knows.trans ha.found.knows
  constructor
  · exact hout.found.widen (hf.found.drawn.trans ha.found.drawn) le_rfl
      (hknows.trans hf.found.knows)
  · exact hout.tree
  · apply (hf.again.knowing hknows).bind
    rintro ⟨f', F'⟩ i hi hf'
    apply ((ha.again.knowing hout.found.knows).later hi).bind
    rintro ⟨a', A'⟩ j hj ha'
    obtain rfl : A' = A := ha'.eq_of_settled hA
    rw [inferApp_of_like ht hf' ha'.bare]
    exact hout.again.later (hi.trans hj)
  · exact hout.explicit

end Inferred

theorem stable_infer (e : Expr) : Stable inferApp e := by
  apply stable_typeWith
  intro n f a ihf iha k Γ s s' r hΓ he hk h
  obtain ⟨hf, ha⟩ := List.forall_mem_append.mp he
  obtain ⟨⟨f₁, F⟩, s₁, hfrun, h⟩ := run_bind_eq_ok h
  obtain ⟨⟨a₁, A⟩, s₂, harun, h⟩ := run_bind_eq_ok h
  have hfout := ihf hΓ hf hk hfrun
  have haout := iha hΓ ha (hk.trans hfout.found.drawn) harun
  unfold inferApp at h
  split at h
  · split at h
    · rename_i hF _ t ht
      obtain rfl : F = _ := hF
      exact outcome_inferred hΓ hk hfout haout ht h
    · cases h
  · exact outcome_app hk (fun _ _ _ _ => rfl) hfout haout h

end Expr

namespace Typing

variable {α β : Type}

/-- Wherever the second typing succeeds the first does, with the same result. -/
def Includes (m' m : Typing α) : Prop :=
  ∀ s a s', m.run s = .ok (a, s') → m'.run s = .ok (a, s')

theorem Includes.refl (m : Typing α) : Includes m m := fun _ _ _ h => h

theorem Includes.bind {m m' : Typing α} {f f' : α → Typing β} (hm : Includes m' m)
    (hf : ∀ a, Includes (f' a) (f a)) : Includes (m' >>= f') (m >>= f) := by
  intro s b s' h
  obtain ⟨a, s₁, ha, hb⟩ := run_bind_eq_ok h
  rw [run_bind_of_ok (hm s a s₁ ha)]
  exact hf a s₁ b s' hb

end Typing

namespace Expr

open Typing (Includes)

/-- What is typed without inference is typed alike with it. -/
theorem infer_includes (e : Expr) (Γ : Scope Entry) : Includes (e.infer Γ) (e.explicit Γ) := by
  unfold infer explicit
  induction e using Expr.induction generalizing Γ with
  | lam n x p body ih =>
    cases p with
    | typed t => exact (ih _).bind fun _ => .refl _
    | _ => exact .refl _
  | tlam n x bounds body ih => exact (Includes.refl _).bind fun _ => (ih _).bind fun _ => .refl _
  | cond n c y z ihc ihy ihz =>
    exact (ihc Γ).bind fun _ => (ihy Γ).bind fun _ => (ihz Γ).bind fun _ => .refl _
  | bin n op l r ihl ihr => exact (ihl Γ).bind fun _ => (ihr Γ).bind fun _ => .refl _
  | un n op e ih | tapp n f t ih | ascribe n e t ih | proj n e label ih =>
    exact (ih Γ).bind fun _ => .refl _
  | app n f a ihf iha =>
    apply (ihf Γ).bind
    rintro ⟨f', F⟩
    apply (iha Γ).bind
    intro a' s r s' h
    -- without inference only a function that is not quantified can be applied
    obtain ⟨t, s₁, ht, -⟩ := run_bind_eq_ok h
    obtain ⟨hok, -⟩ := run_lift_eq_ok ht
    obtain ⟨l, dom, hF, -⟩ := Rule.app_ok hok
    obtain rfl : F = .arrow l dom t := hF
    exact h
  | var n x => exact .refl _
  | val n v => exact .refl _
  | list n es ih =>
    cases es with
    | nil => exact .refl _
    | cons e es =>
      obtain ⟨ihe, ihes⟩ := List.forall_mem_cons.mp ih
      have hitems : ∀ t, Includes (typeItems inferApp Γ t es) (typeItems explicitApp Γ t es) := by
        intro t
        clear ih
        induction es with
        | nil => exact .refl _
        | cons d ds ihds =>
          obtain ⟨ihd, ihds'⟩ := List.forall_mem_cons.mp ihes
          apply (ihd Γ).bind
          rintro ⟨d', u⟩
          simp only
          split_ifs
          · exact (ihds ihds').bind fun _ => .refl _
          · exact .refl _
      exact (ihe Γ).bind fun r => (hitems r.2).bind fun _ => .refl _
  | record n fs ih =>
    have hfields : Includes (typeFields inferApp Γ fs) (typeFields explicitApp Γ fs) := by
      induction fs with
      | nil => exact .refl _
      | cons f fs ihs =>
        obtain ⟨ihf, ihfs⟩ := List.forall_mem_cons.mp ih
        exact (ihf Γ).bind fun _ => (ihs ihfs).bind fun _ => .refl _
    exact hfields.bind fun _ => .refl _

/-- Two types found for one expression, one after the other, count as the same only if no name
was drawn for them. -/
theorem same_again_iff {k : Nat} {s s' s₂ s₃ : TypingState} {t u : Ty} (hk : k ≤ s.drawn)
    (ht : Found k s t s') (hd : s'.drawn ≤ s₂.drawn) (hu : Found k s₂ u s₃) (h : t.Alike k u) :
    t.same u = true ↔ t.Settled k := by
  constructor
  · exact fun hsame => (Ty.settled_of_same ((ht.old hk).mono hd) hu.apart hsame).1
  · intro hset
    rw [h.eq_of_settled hset]
    exact Ty.same_refl t

section Twice

variable {Γ : Scope Entry} {s s' : TypingState} {e e' : Expr} {T : Ty}

/-- Typing the expression itself once more. -/
theorem infer_twice_iff (hΓ : Γ.Settled s.drawn) (he : ∀ w ∈ e.typeNames, OldName s.drawn w)
    (h : (e.infer Γ).run s = .ok ((e', T), s')) :
    (∃ e₂ U s₂, (e.infer Γ).run s' = .ok ((e₂, U), s₂) ∧ T.same U = true) ↔
      T.Settled s.drawn := by
  have hout := stable_infer e hΓ he le_rfl h
  obtain ⟨⟨e₂, U⟩, s₂, hrun, -, -, hlike⟩ := hout.again s' hout.found.drawn (.refl _)
  have hout₂ := stable_infer e hΓ he hout.found.drawn hrun
  rw [← same_again_iff le_rfl hout.found le_rfl hout₂.found hlike.alike]
  constructor
  · rintro ⟨e₃, V, s₃, hrun', hsame⟩
    obtain ⟨he', -⟩ := Prod.mk.inj (Except.ok.inj (hrun.symm.trans hrun'))
    obtain ⟨-, rfl⟩ := Prod.mk.inj he'
    exact hsame
  · exact fun hsame => ⟨e₂, U, s₂, hrun, hsame⟩

/-- A branch and the other are typed one after the other, and so are elements of a list. -/
theorem infer_cond_self_iff (n n' : Note) (h : (e.infer Γ).run s = .ok ((e', T), s')) :
    (∃ r s₂, ((cond n (val n' (.bool true)) e e).infer Γ).run s = .ok (r, s₂)) ↔
      ∃ e₂ U s₂, (e.infer Γ).run s' = .ok ((e₂, U), s₂) ∧ T.same U = true := by
  have htest : ((val n' (.bool true)).typeWith inferApp Γ).run s =
      .ok ((val ⟨n'.line, some .bool⟩ (.bool true), .bool), s) := rfl
  have hboth : ((cond n (val n' (.bool true)) e e).infer Γ).run s =
      (do
        let r ← e.infer Γ
        return annotate (cond n (val ⟨n'.line, some .bool⟩ (.bool true)) e' r.1)
          (← Rule.cond n.line .bool T r.2) : Typing (Expr × Ty)).run s' :=
    (run_bind_of_ok htest).trans (run_bind_of_ok h)
  rw [hboth]
  constructor
  · rintro ⟨r, s₂, hrun⟩
    obtain ⟨⟨e₂, U⟩, s₃, hz, hrun⟩ := run_bind_eq_ok hrun
    obtain ⟨v, s₄, hv, -⟩ := run_bind_eq_ok hrun
    obtain ⟨hok, -⟩ := run_lift_eq_ok hv
    exact ⟨e₂, U, s₃, hz, (Rule.cond_ok hok).2.1⟩
  · rintro ⟨e₂, U, s₂, hrun, hsame⟩
    have hrule : Rule.cond n.line .bool T U = .ok T := by
      simp [Rule.cond, hsame, Ty.same_refl]
    rw [run_bind_of_ok hrun]
    simp only [hrule]
    exact ⟨_, _, rfl⟩

theorem infer_list_self_iff (n : Note) (h : (e.infer Γ).run s = .ok ((e', T), s')) :
    (∃ r s₂, ((list n [e, e]).infer Γ).run s = .ok (r, s₂)) ↔
      ∃ e₂ U s₂, (e.infer Γ).run s' = .ok ((e₂, U), s₂) ∧ T.same U = true := by
  have hboth : ((list n [e, e]).infer Γ).run s =
      (do
        let es ← typeItems inferApp Γ T [e]
        return annotate (list n (e' :: es)) (.list none T) : Typing (Expr × Ty)).run s' :=
    run_bind_of_ok h
  rw [hboth]
  constructor
  · rintro ⟨r, s₂, hrun⟩
    obtain ⟨es, s₃, hes, -⟩ := run_bind_eq_ok hrun
    obtain ⟨⟨e₂, U⟩, s₄, hz, hes⟩ := run_bind_eq_ok hes
    simp only at hes
    split_ifs at hes with hsame
    · exact ⟨e₂, U, s₄, hz, hsame⟩
    · cases hes
  · rintro ⟨e₂, U, s₂, hrun, hsame⟩
    have hes : (typeItems inferApp Γ T [e]).run s' = .ok ([e₂], s₂) := by
      rw [typeItems]
      refine (run_bind_of_ok hrun).trans ?_
      simp only [if_pos hsame]
      rfl
    rw [run_bind_of_ok hes]
    exact ⟨_, _, rfl⟩

/-- The type of an argument from which a type argument is inferred is found again by the second
visit of the argument. -/
theorem infer_argument {n : Note} {f a f₁ a₁ : Expr} {l : Option Nat} {x : String}
    {bs : List String} {body A : Ty} {r : Expr × Ty} {s₁ s₂ : TypingState}
    (hΓ : Γ.Settled s.drawn) (he : ∀ w ∈ (app n f a).typeNames, OldName s.drawn w)
    (h : ((app n f a).infer Γ).run s = .ok (r, s'))
    (hf : (f.infer Γ).run s = .ok ((f₁, .all l x bs body), s₁))
    (ha : (a.infer Γ).run s₁ = .ok ((a₁, A), s₂)) :
    ∀ s₃, s₂.drawn ≤ s₃.drawn → Knows s₃.instances s₂.instances →
      ∃ a₂ s₄, (a₁.explicit Γ).run s₃ = .ok ((a₂, A), s₄) := by
  obtain ⟨hfn, han⟩ := List.forall_mem_append.mp he
  have hfout := stable_infer f hΓ hfn le_rfl hf
  have haout := stable_infer a hΓ han hfout.found.drawn ha
  have happ : (inferApp Γ n (f₁, .all l x bs body) (a₁, A)).run s₂ = .ok (r, s') := by
    rw [← h]
    exact ((run_bind_of_ok hf).trans (run_bind_of_ok ha)).symm
  have hA : A.Settled s.drawn := by
    unfold inferApp at happ
    split at happ
    · split at happ
      · rename_i hF _ t ht
        obtain ⟨rfl, rfl, rfl, rfl⟩ := Ty.all.inj hF
        exact settled_argument hΓ le_rfl hfout haout ht happ
      · cases happ
    · cases happ
  intro s₃ hd hknows
  obtain ⟨⟨a₂, A₂⟩, s₄, hrun, -, -, hlike⟩ :=
    haout.explicit s₃ ((hfout.found.drawn.trans haout.found.drawn).trans hd) hknows
  obtain rfl : A₂ = A := hlike.eq_of_settled hA
  exact ⟨a₂, s₄, hrun⟩

/-- Typing again. The tree that typing leaves can be typed at every later point that knows the
same instances, with inference and without it, and gives the same tree and an alpha-equivalent
type. The two types count as the same exactly if no name was drawn for the first, and exactly
then `if true then e else e` and `[e, e]` are accepted too. Where a type argument was inferred,
the second visit of the argument finds the very type that inference used. -/
theorem infer_again (hΓ : Γ.Settled s.drawn) (he : ∀ w ∈ e.typeNames, OldName s.drawn w)
    (h : (e.infer Γ).run s = .ok ((e', T), s')) :
    (∀ s₂, s'.drawn ≤ s₂.drawn → Knows s₂.instances s'.instances →
      ∃ e₂ U s₃, (e'.infer Γ).run s₂ = .ok ((e₂, U), s₃) ∧
        (e'.explicit Γ).run s₂ = .ok ((e₂, U), s₃) ∧ e₂.bare = e'.bare ∧ T.AlphaEq U ∧
        (T.same U = true ↔ T.Settled s.drawn)) ∧
    (∀ n n', (∃ r s₂, ((cond n (val n' (.bool true)) e e).infer Γ).run s = .ok (r, s₂)) ↔
      T.Settled s.drawn) ∧
    (∀ n, (∃ r s₂, ((list n [e, e]).infer Γ).run s = .ok (r, s₂)) ↔ T.Settled s.drawn) ∧
    ∀ n f a f₁ l x bs body s₁ a₁ A s₂, e = app n f a →
      (f.infer Γ).run s = .ok ((f₁, .all l x bs body), s₁) →
      (a.infer Γ).run s₁ = .ok ((a₁, A), s₂) →
      ∀ s₃, s₂.drawn ≤ s₃.drawn → Knows s₃.instances s₂.instances →
        ∃ a₂ s₄, (a₁.explicit Γ).run s₃ = .ok ((a₂, A), s₄) := by
  have htwice := infer_twice_iff hΓ he h
  refine ⟨?_, ?_, ?_, ?_⟩
  · intro s₂ hd hknows
    have hout := stable_infer e hΓ he le_rfl h
    have hd₂ := hout.found.drawn.trans hd
    obtain ⟨⟨e₂, U⟩, s₃, hrun, -, -, hlike⟩ := hout.explicit s₂ hd₂ hknows
    have hout₂ := stable_explicit e' hΓ hout.tree hd₂ hrun
    exact ⟨e₂, U, s₃, infer_includes e' Γ _ _ _ hrun, hrun, hlike.bare, hlike.alike.alpha,
      same_again_iff le_rfl hout.found hd hout₂.found hlike.alike⟩
  · exact fun n n' => (infer_cond_self_iff n n' h).trans htwice
  · exact fun n => (infer_list_self_iff n h).trans htwice
  · rintro n f a f₁ l x bs body s₁ a₁ A s₂ rfl hf ha
    exact infer_argument hΓ he h hf ha

end Twice

/-- `keep : forall a. forall b. a -> b -> a` and `same : forall a. a -> a`, under a type lambda
over `b`. -/
def sampleScope : Scope Entry :=
  (((⟨[], []⟩ : Scope Entry).extend "keep" (.term keepType)).extend "same" (.term sameType)).extend
    "b" .type
where
  a : Ty := .name none "a"
  b : Ty := .name none "b"
  keepType : Ty := .all none "a" [] (.all none "b" [] (.arrow none a (.arrow none b a)))
  sameType : Ty := .all none "a" [] (.arrow none a a)

theorem settled_sampleScope : sampleScope.Settled 0 := by
  have hold : ∀ w ∈ ["a", "b"], OldName 0 w := by
    intro w hw
    have hsource : ∀ y ∈ ["a", "b"], '$' ∉ y.toList := by decide
    exact SourceName.old (hsource w hw) 0
  have hkeep : sampleScope.keepType.Settled 0 := by
    intro w hw
    apply hold w
    revert w
    decide
  have hsame : sampleScope.sameType.Settled 0 := by
    intro w hw
    apply hold w
    revert w
    decide
  have hempty : (⟨[], []⟩ : Scope Entry).Settled 0 := by
    intro x t h
    cases h
  exact ((hempty.extend_term "keep" hkeep).extend_term "same" hsame).extend_type "b"

/-- `same 5` is completed to `same @Int 5`, which is typed again. -/
theorem infer_again_same :
    ∃ e' s', ((app .blank (var .blank "same") (val .blank (.int 5))).infer sampleScope).run {} =
        .ok ((e', .int), s') ∧
      ∃ e₂ U s₂, (e'.infer sampleScope).run s' = .ok ((e₂, U), s₂) ∧ Ty.int.AlphaEq U := by
  obtain ⟨e', s', h⟩ : ∃ e' s', ((app .blank (var .blank "same") (val .blank (.int 5))).infer
      sampleScope).run {} = .ok ((e', .int), s') := ⟨_, _, rfl⟩
  obtain ⟨hagain, -⟩ := infer_again settled_sampleScope (by simp [typeNames]) h
  obtain ⟨e₂, U, s₂, hinfer, -, -, halpha, -⟩ := hagain s' le_rfl (.refl _)
  exact ⟨e', s', h, e₂, U, s₂, hinfer, halpha⟩

/-- `keep @b`, where a name is drawn for the inner quantifier at each visit: the types of the two
visits do not count as the same, and neither `if true then keep @b else keep @b` nor
`[keep @b, keep @b]` is accepted. -/
theorem infer_again_drawn :
    let e := tapp .blank (var .blank "keep") (.name none "b")
    ∃ e' T s', (e.infer sampleScope).run {} = .ok ((e', T), s') ∧
      (∃ e₂ U s₂, (e'.infer sampleScope).run s' = .ok ((e₂, U), s₂) ∧ T.same U = false) ∧
      (((cond .blank (val .blank (.bool true)) e e).infer sampleScope).run {}).isOk = false ∧
      (((list .blank [e, e]).infer sampleScope).run {}).isOk = false := by
  refine ⟨_, _, _, rfl, ⟨_, _, _, rfl, ?_⟩, ?_, ?_⟩
  · decide
  · decide
  · decide

end Expr

end TraitCalculus
