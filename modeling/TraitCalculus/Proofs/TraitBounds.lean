import Mathlib
import TraitCalculus.Proofs.RepeatedRuns
import TraitCalculus.Proofs.DictionaryScope

/-! What typing makes sure of at the type arguments of bounded functions, and what dictionary
passing needs there. The instances in scope are the ones announced before and those of the
variables of bounded type lambdas around. Typing asks for an instance of one of the bounds;
dictionary passing wants all of them, and finds each one that is in scope. -/
namespace TraitCalculus

/-- The traits that are implemented at a place, with the types that implement them. A variable of
a type lambda goes by its name, so it does not hide an outer one of the same name here. -/
abbrev Instances := List (String × Ty)

namespace Instances

def implements (I : Instances) (trait : String) (t : Ty) : Bool :=
  I.any fun i => i.1 = trait && i.2.same t

/-- The instances under a type lambda over `x`. -/
def under (I : Instances) (x : String) (bounds : List String) : Instances :=
  bounds.map (·, .name none x) ++ I

/-- The type implements one of the bounds, unless there are none. -/
def meetsOne (I : Instances) (bounds : List String) (t : Ty) : Bool :=
  bounds.isEmpty || bounds.any (I.implements · t)

def meetsAll (I : Instances) (bounds : List String) (t : Ty) : Bool :=
  bounds.all (I.implements · t)

end Instances

namespace Expr

section EveryTypeApp

variable (ok : Instances → List String → Ty → Bool)

mutual

/-- Every type application in an expression passes the test, which is given the instances in
scope, the bounds of the function and the type argument. -/
def everyTypeApp (I : Instances) : Expr → Bool
  | lam _ _ _ body => body.everyTypeApp I
  | tlam _ x bounds body => body.everyTypeApp (I.under x bounds)
  | cond _ c y z => c.everyTypeApp I && (y.everyTypeApp I && z.everyTypeApp I)
  | bin _ _ l r => l.everyTypeApp I && r.everyTypeApp I
  | un _ _ e => e.everyTypeApp I
  | app _ f a => f.everyTypeApp I && a.everyTypeApp I
  | tapp _ f t => ok I f.wanted t && f.everyTypeApp I
  | ascribe _ e _ => e.everyTypeApp I
  | proj _ e _ => e.everyTypeApp I
  | var .. => true
  | val .. => true
  | list _ es => everyTypeAppItems I es
  | record _ fs => everyTypeAppFields I fs

def everyTypeAppItems (I : Instances) : List Expr → Bool
  | [] => true
  | e :: es => e.everyTypeApp I && everyTypeAppItems I es

def everyTypeAppFields (I : Instances) : List (String × Expr) → Bool
  | [] => true
  | (_, e) :: fs => e.everyTypeApp I && everyTypeAppFields I fs

end

end EveryTypeApp

end Expr

/-- Every type application in the statements passes the test. An announced instance is in scope
from there on. -/
def Stmt.everyTypeApp (ok : Instances → List String → Ty → Bool) (I : Instances) :
    List Stmt → Bool
  | [] => true
  | assign _ _ e :: ss => e.everyTypeApp ok I && everyTypeApp ok I ss
  | eval _ e :: ss => e.everyTypeApp ok I && everyTypeApp ok I ss
  | inst _ trait type _ :: ss => everyTypeApp ok ((trait, type) :: I) ss
  | field .. :: ss => everyTypeApp ok I ss

def Program.everyTypeApp (ok : Instances → List String → Ty → Bool) (p : Program Stmt) : Bool :=
  Stmt.everyTypeApp ok [] p.stmts

namespace Expr

variable {ok ok' ok'' : Instances → List String → Ty → Bool}

theorem everyTypeApp_withType (I : Instances) (e : Expr) (t : Ty) :
    (e.withType t).everyTypeApp ok I = e.everyTypeApp ok I := by
  cases e <;> rfl

theorem type?_withType (e : Expr) (t : Ty) : (e.withType t).type? = some t := by
  cases e <;> rfl

theorem everyTypeAppItems_iff {I : Instances} {es : List Expr} :
    everyTypeAppItems ok I es = true ↔ ∀ e ∈ es, e.everyTypeApp ok I = true :=
  walk_eq_true rfl (fun _ _ => rfl) es

theorem everyTypeAppFields_iff {I : Instances} {fs : List (String × Expr)} :
    everyTypeAppFields ok I fs = true ↔ ∀ f ∈ fs, f.2.everyTypeApp ok I = true :=
  walk_eq_true rfl (fun _ _ => rfl) fs

/-- Two tests that are passed everywhere may be combined. -/
theorem everyTypeApp_combine
    (hok : ∀ I bs t, ok I bs t = true → ok' I bs t = true → ok'' I bs t = true) (e : Expr)
    {I : Instances} (h : e.everyTypeApp ok I = true) (h' : e.everyTypeApp ok' I = true) :
    e.everyTypeApp ok'' I = true := by
  induction e using Expr.induction generalizing I with
  | lam n x p body ih
  | tlam n x bounds body ih
  | un n op e ih
  | ascribe n e t ih
  | proj n e label ih => exact ih h h'
  | cond n c y z ihc ihy ihz =>
    simp only [everyTypeApp, Bool.and_eq_true] at h h' ⊢
    exact ⟨ihc h.1 h'.1, ihy h.2.1 h'.2.1, ihz h.2.2 h'.2.2⟩
  | bin n op l r ihl ihr | app n f a ihl ihr =>
    simp only [everyTypeApp, Bool.and_eq_true] at h h' ⊢
    exact ⟨ihl h.1 h'.1, ihr h.2 h'.2⟩
  | tapp n f t ih =>
    simp only [everyTypeApp, Bool.and_eq_true] at h h' ⊢
    exact ⟨hok I f.wanted t h.1 h'.1, ih h.2 h'.2⟩
  | var n x => rfl
  | val n v => rfl
  | list n es ih =>
    apply everyTypeAppItems_iff.mpr
    intro e he
    exact ih e he (everyTypeAppItems_iff.mp h e he) (everyTypeAppItems_iff.mp h' e he)
  | record n fs ih =>
    apply everyTypeAppFields_iff.mpr
    intro f hf
    exact ih f hf (everyTypeAppFields_iff.mp h f hf) (everyTypeAppFields_iff.mp h' f hf)

end Expr

theorem Stmt.everyTypeApp_combine {ok ok' ok'' : Instances → List String → Ty → Bool}
    (hok : ∀ I bs t, ok I bs t = true → ok' I bs t = true → ok'' I bs t = true) (ss : List Stmt)
    {I : Instances} (h : everyTypeApp ok I ss = true) (h' : everyTypeApp ok' I ss = true) :
    everyTypeApp ok'' I ss = true := by
  induction ss generalizing I with
  | nil => rfl
  | cons s ss ih =>
    cases s with
    | assign line x e | eval line e =>
      simp only [everyTypeApp, Bool.and_eq_true] at h h' ⊢
      exact ⟨e.everyTypeApp_combine hok h.1 h'.1, ih h.2 h'.2⟩
    | inst line trait type dict => exact ih h h'
    | field line x trait type => exact ih h h'

/-- The types that implement a trait, in the table of a typing. -/
def implementors (is : List (String × List Ty)) (trait : String) : List Ty :=
  (is.lookup trait).getD []

namespace Instances

variable {I : Instances} {is js ms : List (String × List Ty)}

/-- All instances in the table of a typing are in scope. -/
def Covers (I : Instances) (is : List (String × List Ty)) : Prop :=
  ∀ trait, ∀ t ∈ implementors is trait, (trait, t) ∈ I

theorem Covers.congr (h : I.Covers is) (hjs : implementors js = implementors is) : I.Covers js := by
  intro trait t ht
  rw [hjs] at ht
  exact h trait t ht

theorem mem_iterate_cons {t u : Ty} {ts : List Ty} (n : Nat) (h : u ∈ (t :: ·)^[n] ts) :
    u = t ∨ u ∈ ts := by
  induction n with
  | zero => exact Or.inr h
  | succ n ih =>
    rw [Function.iterate_succ_apply'] at h
    rcases List.mem_cons.mp h with h | h
    · exact Or.inl h
    · exact ih h

theorem Covers.under (h : I.Covers is) (x : String) (bounds : List String) :
    (I.under x bounds).Covers (Typing.update (.name none x :: ·) bounds is) := by
  intro trait t ht
  rw [implementors, Typing.lookup_update] at ht
  split_ifs at ht with hmem
  · rcases mem_iterate_cons _ ht with rfl | ht
    · exact List.mem_append_left _ (List.mem_map.mpr ⟨trait, hmem, rfl⟩)
    · exact List.mem_append_right _ (h trait t ht)
  · exact List.mem_append_right _ (h trait t ht)

theorem Covers.inst (h : I.Covers is) (trait : String) (type : Ty) :
    Covers ((trait, type) :: I) (Typing.update (type :: ·) [trait] is) := by
  intro other t ht
  rw [implementors, Typing.lookup_update] at ht
  split_ifs at ht with hmem
  · obtain rfl : other = trait := List.mem_singleton.mp hmem
    rcases mem_iterate_cons _ ht with rfl | ht
    · exact List.mem_cons_self
    · exact List.mem_cons_of_mem _ (h other t ht)
  · exact List.mem_cons_of_mem _ (h other t ht)

/-- What was assumed under a type lambda is taken back behind it. -/
theorem implementors_released {t : Ty} {bounds : List String}
    (h : implementors ms = implementors (Typing.update (t :: ·) bounds is)) :
    implementors (Typing.update List.tail bounds ms) = implementors is := by
  funext trait
  have htrait := congrFun h trait
  unfold implementors at htrait ⊢
  rw [Typing.lookup_update] at htrait ⊢
  split_ifs at htrait ⊢ with hmem
  · rw [htrait, Option.getD_some, Option.getD_some, Typing.iterate_tail_cons]
  · exact htrait

end Instances

namespace Rule

theorem implementors_of_implementing {is : List (String × List Ty)} {bs : List String}
    {ts : List Ty} (h : implementing is bs = .ok ts) :
    ∀ t ∈ ts, ∃ trait ∈ bs, t ∈ implementors is trait := by
  induction bs generalizing ts with
  | nil =>
    obtain rfl : [] = ts := Except.ok.inj h
    exact fun t ht => nomatch ht
  | cons trait bs ih =>
    rw [implementing] at h
    split at h
    · cases h
    · next us hus =>
      split at h
      · cases h
      · next vs hvs =>
        obtain rfl : us ++ vs = ts := Except.ok.inj h
        have hentry : implementors is trait = us := by rw [implementors, hus, Option.getD_some]
        intro t ht
        rcases List.mem_append.mp ht with ht | ht
        · exact ⟨trait, List.mem_cons_self, hentry ▸ ht⟩
        · obtain ⟨other, hother, ht⟩ := ih hvs t ht
          exact ⟨other, List.mem_cons_of_mem trait hother, ht⟩

/-- A type argument that is accepted has an instance of one of the bounds in scope. -/
theorem meetsOne_of_bounds {I : Instances} {is : List (String × List Ty)} {line : Option Nat}
    {bs : List String} {fn : Expr} {arg : Ty} (hI : I.Covers is)
    (h : bounds is line bs fn arg = .ok ()) : I.meetsOne bs arg = true := by
  unfold bounds at h
  split_ifs at h with hbs
  · rw [Instances.meetsOne, hbs, Bool.true_or]
  · split at h
    · cases h
    · next ts hts =>
      split_ifs at h with hany
      obtain ⟨t, ht, hsame⟩ := List.any_eq_true.mp hany
      obtain ⟨trait, htrait, ht⟩ := implementors_of_implementing hts t ht
      have himpl : I.implements trait arg = true :=
        List.any_eq_true.mpr ⟨(trait, t), hI trait t ht, by simp [hsame]⟩
      rw [Instances.meetsOne, List.any_eq_true.mpr ⟨trait, htrait, himpl⟩, Bool.or_true]

end Rule

namespace Expr

/-- What typing leaves: the same instances as before, a note of the type, and type arguments that
have an instance of one of their bounds. -/
structure Enforced (I : Instances) (st : TypingState) (r : Expr × Ty) (st' : TypingState) :
    Prop where
  instances : implementors st'.instances = implementors st.instances
  type?_eq : r.1.type? = some r.2
  meets : r.1.everyTypeApp Instances.meetsOne I = true

theorem Enforced.annotate {I : Instances} {st st' : TypingState} {e : Expr} {t : Ty}
    (hst : implementors st'.instances = implementors st.instances)
    (he : e.everyTypeApp Instances.meetsOne I = true) : Enforced I st (annotate e t) st' :=
  ⟨hst, type?_withType e t, (everyTypeApp_withType I e t).trans he⟩

/-- Typing by the rule enforces bounds in the expression. -/
def Enforces (rule : AppRule) (e : Expr) : Prop :=
  ∀ {s : Scope Entry} {I : Instances} {st st' : TypingState} {r : Expr × Ty},
    I.Covers st.instances → (e.typeWith rule s).run st = .ok (r, st') → Enforced I st r st'

def AppRule.Enforces (rule : AppRule) : Prop :=
  ∀ {s : Scope Entry} {I : Instances} {n : Note} {f a : Expr × Ty} {st st' : TypingState}
    {r : Expr × Ty}, I.Covers st.instances → f.1.everyTypeApp Instances.meetsOne I = true →
    a.1.everyTypeApp Instances.meetsOne I = true → (rule s n f a).run st = .ok (r, st') →
    Enforced I st r st'

section TypeWith

variable {rule : AppRule} {s : Scope Entry} {I : Instances} {st st' : TypingState}

theorem enforced_items (es : List Expr) (ih : ∀ e ∈ es, Enforces rule e) {t : Ty}
    {es' : List Expr} (hI : I.Covers st.instances)
    (h : (typeItems rule s t es).run st = .ok (es', st')) :
    implementors st'.instances = implementors st.instances ∧
      everyTypeAppItems Instances.meetsOne I es' = true := by
  induction es generalizing st es' with
  | nil =>
    obtain ⟨rfl, rfl⟩ := run_pure_eq_ok h
    exact ⟨rfl, rfl⟩
  | cons e es ihs =>
    obtain ⟨⟨e', u⟩, st₁, he, h⟩ := run_bind_eq_ok h
    have hfirst := ih e List.mem_cons_self hI he
    simp only at h
    split_ifs at h with htu
    · obtain ⟨rest, hrest, rfl⟩ := run_bind_pure_eq_ok h
      obtain ⟨hst, hmeets⟩ := ihs (fun d hd => ih d (List.mem_cons_of_mem e hd))
        (hI.congr hfirst.instances) hrest
      refine ⟨hst.trans hfirst.instances, ?_⟩
      rw [everyTypeAppItems, hfirst.meets, hmeets, Bool.and_true]
    · cases h

theorem enforced_fields (fs : List (String × Expr)) (ih : ∀ f ∈ fs, Enforces rule f.2)
    {fs' : List (String × Expr)} {ts : List (String × Ty)} (hI : I.Covers st.instances)
    (h : (typeFields rule s fs).run st = .ok ((fs', ts), st')) :
    implementors st'.instances = implementors st.instances ∧
      everyTypeAppFields Instances.meetsOne I fs' = true := by
  induction fs generalizing st fs' ts with
  | nil =>
    obtain ⟨he, rfl⟩ := run_pure_eq_ok h
    obtain ⟨rfl, rfl⟩ := Prod.mk.inj he
    exact ⟨rfl, rfl⟩
  | cons f fs ihs =>
    obtain ⟨label, e⟩ := f
    obtain ⟨⟨e', t⟩, st₁, he, h⟩ := run_bind_eq_ok h
    obtain ⟨⟨rest, us⟩, st₂, hrest, hret⟩ := run_bind_eq_ok h
    obtain ⟨hres, rfl⟩ := run_pure_eq_ok hret
    obtain ⟨rfl, rfl⟩ := Prod.mk.inj hres
    have hfirst := ih (label, e) List.mem_cons_self hI he
    obtain ⟨hst, hmeets⟩ := ihs (fun d hd => ih d (List.mem_cons_of_mem _ hd))
      (hI.congr hfirst.instances) hrest
    refine ⟨hst.trans hfirst.instances, ?_⟩
    rw [everyTypeAppFields, hfirst.meets, hmeets, Bool.and_true]

theorem enforces_typeWith (hrule : rule.Enforces) (e : Expr) : Enforces rule e := by
  induction e using Expr.induction with
  | lam n x p body ih =>
    intro s I st st' r hI h
    cases p with
    | typed t =>
      obtain ⟨⟨body', u⟩, st₁, hbody, hret⟩ := run_bind_eq_ok h
      obtain ⟨rfl, rfl⟩ := run_pure_eq_ok hret
      have hb := ih hI hbody
      exact .annotate hb.instances hb.meets
    | dictionary => cases h
    | erased => cases h
  | tlam n x bounds body ih =>
    intro s I st st' r hI h
    obtain ⟨_, st₁, hassume, h⟩ := run_bind_eq_ok h
    obtain ⟨⟨body', u⟩, st₂, hbody, h⟩ := run_bind_eq_ok h
    obtain ⟨_, hrelease, rfl⟩ := run_bind_pure_eq_ok h
    rw [Typing.run_assume] at hassume
    rw [Typing.run_release] at hrelease
    obtain ⟨-, rfl⟩ := Prod.mk.inj (Except.ok.inj hassume)
    obtain ⟨-, rfl⟩ := Prod.mk.inj (Except.ok.inj hrelease)
    -- the body is typed with the variable's instances, which are gone behind it
    have hb := ih (hI.under x bounds) hbody
    exact .annotate (Instances.implementors_released hb.instances) hb.meets
  | cond n c y z ihc ihy ihz =>
    intro s I st st' r hI h
    obtain ⟨⟨c', t₁⟩, st₁, hc, h⟩ := run_bind_eq_ok h
    obtain ⟨⟨y', t₂⟩, st₂, hy, h⟩ := run_bind_eq_ok h
    obtain ⟨⟨z', t₃⟩, st₃, hz, h⟩ := run_bind_eq_ok h
    obtain ⟨t, ht, rfl⟩ := run_bind_pure_eq_ok h
    obtain ⟨-, rfl⟩ := run_lift_eq_ok ht
    have hec := ihc hI hc
    have hey := ihy (hI.congr hec.instances) hy
    have hyst := hey.instances.trans hec.instances
    have hez := ihz (hI.congr hyst) hz
    refine .annotate (hez.instances.trans hyst) ?_
    rw [everyTypeApp, hec.meets, hey.meets, hez.meets, Bool.and_true, Bool.and_true]
  | bin n op l r ihl ihr =>
    intro s I st st' res hI h
    obtain ⟨⟨l', t₁⟩, st₁, hl, h⟩ := run_bind_eq_ok h
    obtain ⟨⟨r', t₂⟩, st₂, hr, h⟩ := run_bind_eq_ok h
    obtain ⟨t, ht, rfl⟩ := run_bind_pure_eq_ok h
    obtain ⟨-, rfl⟩ := run_lift_eq_ok ht
    have hel := ihl hI hl
    have her := ihr (hI.congr hel.instances) hr
    refine .annotate (her.instances.trans hel.instances) ?_
    rw [everyTypeApp, hel.meets, her.meets, Bool.and_true]
  | un n op e ih | ascribe n e t ih | proj n e label ih =>
    intro s I st st' r hI h
    obtain ⟨⟨e', t₁⟩, st₁, he, h⟩ := run_bind_eq_ok h
    obtain ⟨t, ht, rfl⟩ := run_bind_pure_eq_ok h
    obtain ⟨-, rfl⟩ := run_lift_eq_ok ht
    have hee := ih hI he
    exact .annotate hee.instances hee.meets
  | app n f a ihf iha =>
    intro s I st st' r hI h
    obtain ⟨f', st₁, hf, h⟩ := run_bind_eq_ok h
    obtain ⟨a', st₂, ha, h⟩ := run_bind_eq_ok h
    have hef := ihf hI hf
    have hea := iha (hI.congr hef.instances) ha
    have hst := hea.instances.trans hef.instances
    have happ := hrule (hI.congr hst) hef.meets hea.meets h
    exact ⟨happ.instances.trans hst, happ.type?_eq, happ.meets⟩
  | tapp n f t ih =>
    intro s I st st' r hI h
    obtain ⟨⟨f', q⟩, st₁, hf, h⟩ := run_bind_eq_ok h
    obtain ⟨u, hu, rfl⟩ := run_bind_pure_eq_ok h
    obtain ⟨l, x, bs, body, rfl, hbounds, rfl, rfl⟩ := Rule.run_tapp_eq_ok.mp hu
    have hef := ih hI hf
    have hwanted : f'.wanted = bs := by
      rw [wanted, hef.type?_eq]
      rfl
    refine .annotate hef.instances ?_
    rw [everyTypeApp, hwanted, Rule.meetsOne_of_bounds (hI.congr hef.instances) hbounds, hef.meets,
      Bool.and_true]
  | var n x =>
    intro s I st st' r hI h
    obtain ⟨t, ht, rfl⟩ := run_bind_pure_eq_ok h
    obtain ⟨-, rfl⟩ := run_lift_eq_ok ht
    exact .annotate rfl rfl
  | val n v =>
    intro s I st st' r hI h
    obtain ⟨rfl, rfl⟩ := run_pure_eq_ok h
    exact .annotate rfl rfl
  | list n es ih =>
    intro s I st st' r hI h
    cases es with
    | nil =>
      obtain ⟨rfl, rfl⟩ := run_pure_eq_ok h
      exact .annotate rfl rfl
    | cons e es =>
      obtain ⟨⟨e', t⟩, st₁, he, h⟩ := run_bind_eq_ok h
      obtain ⟨es', hes, rfl⟩ := run_bind_pure_eq_ok h
      have hfirst := ih e List.mem_cons_self hI he
      obtain ⟨hst, hmeets⟩ := enforced_items es (fun d hd => ih d (List.mem_cons_of_mem e hd))
        (hI.congr hfirst.instances) hes
      refine .annotate (hst.trans hfirst.instances) ?_
      rw [everyTypeApp, everyTypeAppItems, hfirst.meets, hmeets, Bool.and_true]
  | record n fs ih =>
    intro s I st st' r hI h
    obtain ⟨⟨fs', ts⟩, st₁, hfs, hret⟩ := run_bind_eq_ok h
    obtain ⟨rfl, rfl⟩ := run_pure_eq_ok hret
    obtain ⟨hst, hmeets⟩ := enforced_fields fs ih hI hfs
    exact .annotate hst hmeets

end TypeWith

theorem enforces_explicitApp : AppRule.Enforces explicitApp := by
  intro s I n f a st st' r hI hf ha h
  obtain ⟨t, ht, rfl⟩ := run_bind_pure_eq_ok h
  obtain ⟨-, rfl⟩ := run_lift_eq_ok ht
  refine .annotate rfl ?_
  rw [everyTypeApp, hf, ha, Bool.and_true]

/-- A type argument that is inferred is held against the bounds in the second visit. -/
theorem enforces_inferApp : AppRule.Enforces inferApp := by
  intro s I n f a st st' r hI hf ha h
  unfold inferApp at h
  split at h
  · next l x bs l' dom cod hfn =>
    split at h
    · next t ht =>
      obtain ⟨f', st₁, hf', h⟩ := run_bind_eq_ok h
      obtain ⟨a', st₂, ha', h⟩ := run_bind_eq_ok h
      have hef := enforces_typeWith enforces_explicitApp _ hI hf'
      have hea := enforces_typeWith enforces_explicitApp _ (hI.congr hef.instances) ha'
      have hst := hea.instances.trans hef.instances
      have happ := enforces_explicitApp (hI.congr hst) hef.meets hea.meets h
      exact ⟨happ.instances.trans hst, happ.type?_eq, happ.meets⟩
    · cases h
  · exact enforces_explicitApp hI hf ha h

end Expr

/-- Statements that are typed have an instance of one of the bounds at each type argument. -/
theorem Stmt.inferAll_meetsOne {sc : Scope Entry} {st st' : TypingState} {log : String}
    {ss ss' done : List Stmt} {I : Instances} (hI : I.Covers st.instances)
    (h : (inferAll sc st log done ss).2 = .ok (ss', st')) :
    ∃ new, ss' = done.reverse ++ new ∧ everyTypeApp Instances.meetsOne I new = true := by
  induction ss generalizing sc st log done I with
  | nil =>
    obtain ⟨rfl, rfl⟩ := Prod.mk.inj (Except.ok.inj h)
    exact ⟨[], (List.append_nil _).symm, rfl⟩
  | cons s ss ih =>
    unfold inferAll at h
    split at h
    · cases h
    · next s' sc' line st₁ hinfer =>
      -- what the statement adds to the instances, and the check of its expression
      suffices hstep : ∃ J : Instances, J.Covers st₁.instances ∧
          ∀ new, everyTypeApp Instances.meetsOne J new = true →
            everyTypeApp Instances.meetsOne I (s' :: new) = true by
        obtain ⟨J, hJ, hcons⟩ := hstep
        obtain ⟨new, rfl, hnew⟩ := ih hJ h
        exact ⟨s' :: new, by simp, hcons new hnew⟩
      cases s with
      | assign l x e | eval l e =>
        obtain ⟨⟨e', t⟩, st₂, he, hret⟩ := run_bind_eq_ok hinfer
        obtain ⟨hres, rfl⟩ := run_pure_eq_ok hret
        obtain ⟨rfl, -⟩ := Prod.mk.inj hres
        have hee := e.enforces_typeWith Expr.enforces_inferApp hI he
        refine ⟨I, hI.congr hee.instances, fun new hnew => ?_⟩
        rw [everyTypeApp, hee.meets, hnew, Bool.and_true]
      | inst l trait type dict =>
        obtain ⟨_, st₂, hassume, hret⟩ := run_bind_eq_ok hinfer
        rw [Typing.run_assume] at hassume
        obtain ⟨-, rfl⟩ := Prod.mk.inj (Except.ok.inj hassume)
        obtain ⟨hres, rfl⟩ := run_pure_eq_ok hret
        obtain ⟨rfl, -⟩ := Prod.mk.inj hres
        exact ⟨(trait, type) :: I, hI.inst trait type, fun new hnew => hnew⟩
      | field l x trait type =>
        obtain ⟨hres, rfl⟩ := run_pure_eq_ok hinfer
        obtain ⟨rfl, -⟩ := Prod.mk.inj hres
        exact ⟨I, hI, fun new hnew => hnew⟩

theorem Program.infer_meetsOne {p q : Program Stmt} {drawn : Nat} {st : TypingState}
    (hi : (p.infer drawn).2 = .ok (q, st)) : q.everyTypeApp Instances.meetsOne = true := by
  unfold infer at hi
  split at hi
  · cases hi
  · next log ss st₁ hss =>
    obtain ⟨rfl, rfl⟩ := Prod.mk.inj (Except.ok.inj hi)
    have hstart : Instances.Covers [] [] := fun trait t ht => nomatch ht
    obtain ⟨new, rfl, hnew⟩ := Stmt.inferAll_meetsOne hstart (congrArg Prod.snd hss)
    exact hnew

end TraitCalculus
