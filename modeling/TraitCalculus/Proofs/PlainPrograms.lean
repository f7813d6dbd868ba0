import Mathlib
import TraitCalculus.Proofs.LexicalScope
import TraitCalculus.Proofs.TypeSoundness

/-! Plain programs, which do without traits and keep their names apart. Typing keeps the names of
a plain program, dictionary passing finds nothing to do in it, and its expressions meet what
soundness of the typing rules asks for. -/
namespace TraitCalculus

namespace Expr

mutual

/-- The type lambdas of an expression: their variables and bounds. -/
def tlams : Expr → List (String × List String)
  | lam _ _ _ body => body.tlams
  | tlam _ x bounds body => (x, bounds) :: body.tlams
  | cond _ c y z => c.tlams ++ (y.tlams ++ z.tlams)
  | bin _ _ l r => l.tlams ++ r.tlams
  | un _ _ e => e.tlams
  | app _ f a => f.tlams ++ a.tlams
  | tapp _ f _ => f.tlams
  | ascribe _ e _ => e.tlams
  | proj _ e _ => e.tlams
  | var _ _ => []
  | val _ _ => []
  | list _ es => tlamsItems es
  | record _ fs => tlamsFields fs

def tlamsItems : List Expr → List (String × List String)
  | [] => []
  | e :: es => e.tlams ++ tlamsItems es

def tlamsFields : List (String × Expr) → List (String × List String)
  | [] => []
  | (_, e) :: fs => e.tlams ++ tlamsFields fs

end

mutual

/-- The operands of equality and inequality. -/
def compared : Expr → List Expr
  | lam _ _ _ body => body.compared
  | tlam _ _ _ body => body.compared
  | cond _ c y z => c.compared ++ (y.compared ++ z.compared)
  | bin _ op l r =>
    (if op = .eq ∨ op = .neq then [l, r] else []) ++ (l.compared ++ r.compared)
  | un _ _ e => e.compared
  | app _ f a => f.compared ++ a.compared
  | tapp _ f _ => f.compared
  | ascribe _ e _ => e.compared
  | proj _ e _ => e.compared
  | var _ _ => []
  | val _ _ => []
  | list _ es => comparedItems es
  | record _ fs => comparedFields fs

def comparedItems : List Expr → List Expr
  | [] => []
  | e :: es => e.compared ++ comparedItems es

def comparedFields : List (String × Expr) → List Expr
  | [] => []
  | (_, e) :: fs => e.compared ++ comparedFields fs

end

theorem tlamsItems_eq (es : List Expr) : tlamsItems es = es.flatMap tlams :=
  walk_eq_flatMap rfl (fun _ _ => rfl) es

theorem tlamsFields_eq (fs : List (String × Expr)) :
    tlamsFields fs = fs.flatMap fun f => f.2.tlams :=
  walk_eq_flatMap rfl (fun _ _ => rfl) fs

theorem comparedItems_eq (es : List Expr) : comparedItems es = es.flatMap compared :=
  walk_eq_flatMap rfl (fun _ _ => rfl) es

theorem comparedFields_eq (fs : List (String × Expr)) :
    comparedFields fs = fs.flatMap fun f => f.2.compared :=
  walk_eq_flatMap rfl (fun _ _ => rfl) fs

/-- Type lambdas have names of their own, apart from those of `F`, and operands of equality have
basic types. -/
structure Apart (F : List String) (tlams : List (String × List String)) (compared : List Expr) :
    Prop where
  nodup : (tlams.map Prod.fst).Nodup
  names : ∀ b ∈ tlams, b.1 ∉ F
  basic : ∀ e ∈ compared, e.type?.any Ty.isBasic = true

namespace Apart

variable {F : List String} {bs bs' : List (String × List String)} {cs cs' : List Expr}

theorem append (h : Apart F (bs ++ bs') (cs ++ cs')) : Apart F bs cs ∧ Apart F bs' cs' := by
  obtain ⟨hnodup, hnames, hbasic⟩ := h
  rw [List.map_append] at hnodup
  obtain ⟨hn, hn'⟩ := List.forall_mem_append.mp hnames
  obtain ⟨hb, hb'⟩ := List.forall_mem_append.mp hbasic
  exact ⟨⟨hnodup.of_append_left, hn, hb⟩, ⟨hnodup.of_append_right, hn', hb'⟩⟩

theorem flatMap {α : Type} {as : List α} {f : α → List (String × List String)}
    {g : α → List Expr} (h : Apart F (as.flatMap f) (as.flatMap g)) :
    ∀ a ∈ as, Apart F (f a) (g a) := by
  induction as with
  | nil => simp
  | cons a as ih =>
    rw [List.flatMap_cons, List.flatMap_cons] at h
    exact List.forall_mem_cons.mpr ⟨h.append.1, ih h.append.2⟩

end Apart

/-- Types within scope, type lambdas with names of their own and equality on basic types only are
what soundness of the rules needs. -/
theorem regular {e : Expr} {k : Nat} {F : List String} (hw : e.Within k F)
    (h : Apart F e.tlams e.compared) : e.Regular k F := by
  induction e using Expr.induction generalizing F with
  | lam n x p body ih => exact ⟨hw.1, ih hw.2 h⟩
  | tlam n x bounds body ih =>
    obtain ⟨hx, hrest⟩ := List.forall_mem_cons.mp h.names
    obtain ⟨hnew, hbody⟩ := List.nodup_cons.mp h.nodup
    -- below, the variable counts as a name in scope, and no type lambda there has it
    refine ⟨hx, ih hw.2 ⟨hbody, fun b hb hmem => ?_, h.basic⟩⟩
    rcases List.mem_cons.mp hmem with he | hmem
    · have hvar : b.1 ∈ body.tlams.map Prod.fst := List.mem_map_of_mem hb
      exact hnew (he ▸ hvar)
    · exact hrest b hb hmem
  | cond n c y z ihc ihy ihz =>
    obtain ⟨hc, hyz⟩ := h.append
    obtain ⟨hy, hz⟩ := hyz.append
    exact ⟨ihc hw.1 hc, ihy hw.2.1 hy, ihz hw.2.2 hz⟩
  | bin n op l r ihl ihr =>
    have hall : Apart F ([] ++ (l.tlams ++ r.tlams)) (_ ++ (l.compared ++ r.compared)) := h
    obtain ⟨hequal, hparts⟩ := hall.append
    obtain ⟨hl, hr⟩ := hparts.append
    refine ⟨fun hop => hequal.basic l ?_, ihl hw.1 hl, ihr hw.2 hr⟩
    rw [if_pos hop]
    exact List.mem_cons_self
  | un n op e ih | proj n e label ih => exact ih hw h
  | app n f a ihf iha =>
    obtain ⟨hf, ha⟩ := h.append
    exact ⟨ihf hw.1 hf, iha hw.2 ha⟩
  | tapp n f t ih | ascribe n e t ih => exact ih hw.1 h
  | var n x => trivial
  | val n v => trivial
  | list n es ih =>
    have hes : Apart F (es.flatMap tlams) (es.flatMap compared) := by
      rw [← tlamsItems_eq, ← comparedItems_eq]
      exact h
    exact regularItems_iff.mpr fun e he =>
      ih e he (withinItems_iff.mp hw e he) (hes.flatMap e he)
  | record n fs ih =>
    have hfs : Apart F (fs.flatMap fun f => f.2.tlams) (fs.flatMap fun f => f.2.compared) := by
      rw [← tlamsFields_eq, ← comparedFields_eq]
      exact h
    exact regularFields_iff.mpr fun f hf =>
      ih f hf (withinFields_iff.mp hw f hf) (hfs.flatMap f hf)

end Expr

/-- Without traits typing has no instances, leaves none, and gives results of `P`. -/
def Typing.Plainly {α : Type} (m : Typing α) (P : α → Prop) : Prop :=
  ∀ (st st' : TypingState) (a : α), st.instances = [] → m.run st = .ok (a, st') →
    st'.instances = [] ∧ P a

namespace Typing.Plainly

variable {α β : Type} {P : α → Prop} {Q : β → Prop}

theorem pure {a : α} (ha : P a) : Plainly (Pure.pure a) P := by
  intro st st' b hst h
  obtain ⟨rfl, rfl⟩ := run_pure_eq_ok h
  exact ⟨hst, ha⟩

theorem bind {m : Typing α} {f : α → Typing β} (hm : m.Plainly P)
    (hf : ∀ a, P a → (f a).Plainly Q) : (m >>= f).Plainly Q := by
  intro st st' b hst h
  obtain ⟨a, st₁, ha, hb⟩ := run_bind_eq_ok h
  obtain ⟨hst₁, hPa⟩ := hm st st₁ a hst ha
  exact hf a hPa st₁ st' b hst₁ hb

/-- Rules that only look at types. -/
theorem rule {x : Except TypeError α} : Plainly (liftM x : Typing α) fun _ => True := by
  intro st st' a hst hx
  obtain ⟨-, rfl⟩ := run_lift_eq_ok hx
  exact ⟨hst, trivial⟩

theorem fail (line : Option Nat) (f : TypeFault) : Plainly (Typing.fail line f : Typing α) P :=
  fun _ _ _ _ h => nomatch h

theorem assume (t : Ty) : Plainly (Typing.assume t []) fun _ => True := by
  intro st st' a hst h
  obtain ⟨-, rfl⟩ := Prod.mk.inj (Except.ok.inj h)
  exact ⟨hst, trivial⟩

theorem release : Plainly (Typing.release []) fun _ => True := by
  intro st st' a hst h
  obtain ⟨-, rfl⟩ := Prod.mk.inj (Except.ok.inj h)
  exact ⟨hst, trivial⟩

/-- No type meets a bound. -/
theorem tapp (line : Option Nat) (fn : Expr) (quantified arg : Ty) :
    Plainly (Rule.tapp line fn quantified arg) fun _ => quantified.bounds = [] := by
  intro st st' t hst h
  unfold Rule.tapp at h
  split at h
  · rename_i l x bs body
    obtain ⟨s, st₁, hget, hrest⟩ := run_bind_eq_ok h
    obtain ⟨rfl, rfl⟩ := Prod.mk.inj (Except.ok.inj hget)
    obtain ⟨u, st₂, hbounds, hsubst⟩ := run_bind_eq_ok hrest
    obtain ⟨hok, rfl⟩ := run_lift_eq_ok hbounds
    obtain ⟨-, rfl⟩ := Prod.mk.inj (Except.ok.inj hsubst)
    refine ⟨hst, ?_⟩
    cases bs with
    | nil => rfl
    | cons trait traits =>
      rw [hst] at hok
      cases hok
  · cases h

end Typing.Plainly

namespace Expr

theorem fieldOf?_nil (e : Expr) : e.fieldOf? [] = none := by
  cases e <;> rfl

/-- A typed expression that names what the given one names, and that has no dictionaries to be
passed. -/
structure PlainlyTyped (e : Expr) (r : Expr × Ty) : Prop where
  type : r.1.type? = some r.2
  lamNames : r.1.lamNames = e.lamNames
  tlams : r.1.tlams = e.tlams
  dispatch : r.1.dispatch [] = pure r.1

/-- No type lambda has a bound. -/
def Unbounded (e : Expr) : Prop := ∀ b ∈ e.tlams, b.2 = []

/-- Typing by the rule keeps plain expressions plain. -/
def PlainRule (rule : AppRule) : Prop :=
  ∀ {s : Scope Entry} {n : Note} {f₀ a₀ : Expr} {f a : Expr × Ty}, f₀.Unbounded → a₀.Unbounded →
    PlainlyTyped f₀ f → PlainlyTyped a₀ a →
    (rule s n f a).Plainly (PlainlyTyped (.app n f₀ a₀))

section

variable {rule : AppRule} {s : Scope Entry}

theorem plainly_items {es : List Expr} {t : Ty}
    (ih : ∀ e ∈ es, (e.typeWith rule s).Plainly (PlainlyTyped e)) :
    (typeItems rule s t es).Plainly fun es' => lamNamesItems es' = lamNamesItems es ∧
      tlamsItems es' = tlamsItems es ∧ dispatchItems [] es' = pure es' := by
  induction es with
  | nil => exact .pure ⟨rfl, rfl, rfl⟩
  | cons e es ihes =>
    obtain ⟨he, hes⟩ := List.forall_mem_cons.mp ih
    refine .bind he fun r hr => ?_
    dsimp only
    split_ifs
    · refine .bind (ihes hes) fun es' hes' => .pure ⟨?_, ?_, ?_⟩
      · rw [lamNamesItems, lamNamesItems, hr.lamNames, hes'.1]
      · rw [tlamsItems, tlamsItems, hr.tlams, hes'.2.1]
      · rw [dispatchItems, hr.dispatch, hes'.2.2]
        rfl
    · exact .fail _ _

theorem plainly_fields {fs : List (String × Expr)}
    (ih : ∀ f ∈ fs, (f.2.typeWith rule s).Plainly (PlainlyTyped f.2)) :
    (typeFields rule s fs).Plainly fun r => lamNamesFields r.1 = lamNamesFields fs ∧
      tlamsFields r.1 = tlamsFields fs ∧ dispatchFields [] r.1 = pure r.1 := by
  induction fs with
  | nil => exact .pure ⟨rfl, rfl, rfl⟩
  | cons f fs ihfs =>
    obtain ⟨label, e⟩ := f
    obtain ⟨he, hfs⟩ := List.forall_mem_cons.mp ih
    refine .bind he fun r hr => .bind (ihfs hfs) fun fs' hfs' => .pure ⟨?_, ?_, ?_⟩
    · rw [lamNamesFields, lamNamesFields, hr.lamNames, hfs'.1]
    · rw [tlamsFields, tlamsFields, hr.tlams, hfs'.2.1]
    · rw [dispatchFields, hr.dispatch, hfs'.2.2]
      rfl

/-- Typing keeps plain expressions plain, if its rule for applications does. -/
theorem plainly_typeWith (hrule : PlainRule rule) {e : Expr} (he : e.Unbounded) :
    (e.typeWith rule s).Plainly (PlainlyTyped e) := by
  induction e using Expr.induction generalizing s with
  | lam n x p body ih =>
    cases p with
    | typed t =>
      refine .bind (ih he) fun r hr => .pure ⟨rfl, congrArg (x :: ·) hr.lamNames, hr.tlams, ?_⟩
      show (lam _ x _ r.1).dispatch [] = _
      rw [dispatch, show Assoc.erase x [] = ([] : List (String × String)) from rfl, hr.dispatch]
      rfl
    | dictionary | erased => exact .fail _ _
  | tlam n x bounds body ih =>
    obtain ⟨hbounds, hbody⟩ := List.forall_mem_cons.mp he
    obtain rfl : bounds = [] := hbounds
    refine .bind (.assume _) fun _ _ => .bind (ih hbody) fun r hr => .bind .release fun _ _ =>
      .pure ⟨rfl, hr.lamNames, congrArg ((x, []) :: ·) hr.tlams, ?_⟩
    show (tlam _ x [] r.1).dispatch [] = _
    rw [dispatch]
    show (do
      let body ← r.1.dispatch []
      return tlam _ x [] body) = _
    rw [hr.dispatch]
    rfl
  | cond n c y z ihc ihy ihz =>
    obtain ⟨hc, hyz⟩ := List.forall_mem_append.mp he
    obtain ⟨hy, hz⟩ := List.forall_mem_append.mp hyz
    refine .bind (ihc hc) fun c' hc' => .bind (ihy hy) fun y' hy' => .bind (ihz hz) fun z' hz' =>
      .bind .rule fun t _ => .pure ⟨rfl, ?_, ?_, ?_⟩
    · show c'.1.lamNames ++ (y'.1.lamNames ++ z'.1.lamNames) = _
      rw [hc'.lamNames, hy'.lamNames, hz'.lamNames, lamNames]
    · show c'.1.tlams ++ (y'.1.tlams ++ z'.1.tlams) = _
      rw [hc'.tlams, hy'.tlams, hz'.tlams, tlams]
    · show (cond _ c'.1 y'.1 z'.1).dispatch [] = _
      rw [dispatch, hc'.dispatch, hy'.dispatch, hz'.dispatch]
      rfl
  | bin n op l r ihl ihr =>
    obtain ⟨hl, hr⟩ := List.forall_mem_append.mp he
    refine .bind (ihl hl) fun l' hl' => .bind (ihr hr) fun r' hr' =>
      .bind .rule fun t _ => .pure ⟨rfl, ?_, ?_, ?_⟩
    · show l'.1.lamNames ++ r'.1.lamNames = _
      rw [hl'.lamNames, hr'.lamNames, lamNames]
    · show l'.1.tlams ++ r'.1.tlams = _
      rw [hl'.tlams, hr'.tlams, tlams]
    · show (bin _ op l'.1 r'.1).dispatch [] = _
      rw [dispatch, hl'.dispatch, hr'.dispatch]
      rfl
  | un n op e ih =>
    refine .bind (ih he) fun r hr => .bind .rule
      fun t _ => .pure ⟨rfl, hr.lamNames, hr.tlams, ?_⟩
    show (un _ op r.1).dispatch [] = _
    rw [dispatch, hr.dispatch]
    rfl
  | app n f a ihf iha =>
    obtain ⟨hf, ha⟩ := List.forall_mem_append.mp he
    exact .bind (ihf hf) fun f' hf' => .bind (iha ha) fun a' ha' => hrule hf ha hf' ha'
  | tapp n f t ih =>
    refine .bind (ih he) fun f' hf' => .bind (.tapp _ _ _ _) fun u hu =>
      .pure ⟨rfl, hf'.lamNames, hf'.tlams, ?_⟩
    -- there are no instances, so only a type without bounds can be applied
    have hwanted : f'.1.wanted = [] := by
      rw [wanted, hf'.type]
      exact hu
    show (tapp _ f'.1 t).dispatch [] = _
    rw [dispatch, fieldOf?_nil, hwanted, hf'.dispatch]
    rfl
  | ascribe n e t ih =>
    refine .bind (ih he) fun r hr => .bind .rule
      fun u _ => .pure ⟨rfl, hr.lamNames, hr.tlams, ?_⟩
    show (ascribe _ r.1 t).dispatch [] = _
    rw [dispatch, hr.dispatch]
    rfl
  | proj n e label ih =>
    refine .bind (ih he) fun r hr => .bind .rule
      fun u _ => .pure ⟨rfl, hr.lamNames, hr.tlams, ?_⟩
    show (proj _ r.1 label).dispatch [] = _
    rw [dispatch, hr.dispatch]
    rfl
  | var n x =>
    exact .bind .rule fun t _ => .pure ⟨rfl, rfl, rfl, rfl⟩
  | val n v => exact .pure ⟨rfl, rfl, rfl, rfl⟩
  | list n es ih =>
    have hes : ∀ e ∈ es, e.Unbounded := by
      intro e hmem b hb
      refine he b ?_
      rw [tlams, tlamsItems_eq]
      exact List.mem_flatMap.mpr ⟨e, hmem, hb⟩
    cases es with
    | nil => exact .pure ⟨rfl, rfl, rfl, rfl⟩
    | cons e es =>
      have hall : ∀ e' ∈ e :: es, (e'.typeWith rule s).Plainly (PlainlyTyped e') :=
        fun e' hmem => ih e' hmem (hes e' hmem)
      obtain ⟨hfirst, hrest⟩ := List.forall_mem_cons.mp hall
      refine .bind hfirst fun r hr => .bind (plainly_items hrest) fun es' hes' =>
        .pure ⟨rfl, ?_, ?_, ?_⟩
      · show r.1.lamNames ++ lamNamesItems es' = _
        rw [hr.lamNames, hes'.1, lamNames, lamNamesItems]
      · show r.1.tlams ++ tlamsItems es' = _
        rw [hr.tlams, hes'.2.1, tlams, tlamsItems]
      · show (list _ (r.1 :: es')).dispatch [] = _
        rw [dispatch, dispatchItems, hr.dispatch, hes'.2.2]
        rfl
  | record n fs ih =>
    have hfs : ∀ f ∈ fs, f.2.Unbounded := by
      intro f hmem b hb
      refine he b ?_
      rw [tlams, tlamsFields_eq]
      exact List.mem_flatMap.mpr ⟨f, hmem, hb⟩
    refine .bind (plainly_fields fun f hmem => ih f hmem (hfs f hmem)) fun r hr =>
      .pure ⟨rfl, hr.1, hr.2.1, ?_⟩
    show (record _ r.1).dispatch [] = _
    rw [dispatch, hr.2.2]
    rfl

theorem plainRule_explicitApp : PlainRule explicitApp := by
  intro s n f₀ a₀ f a _ _ hf ha
  refine .bind .rule fun t _ => .pure ⟨rfl, ?_, ?_, ?_⟩
  · show f.1.lamNames ++ a.1.lamNames = _
    rw [hf.lamNames, ha.lamNames, lamNames]
  · show f.1.tlams ++ a.1.tlams = _
    rw [hf.tlams, ha.tlams, tlams]
  · show (app _ f.1 a.1).dispatch [] = _
    rw [dispatch, hf.dispatch, ha.dispatch]
    rfl

/-- A type argument that is put in brings no names with it. -/
theorem plainRule_inferApp : PlainRule inferApp := by
  intro s n f₀ a₀ f a hf₀ ha₀ hf ha
  unfold inferApp
  split
  · split
    · rename_i t _
      have hf₁ : (tapp ⟨n.line, none⟩ f.1 t).Unbounded := fun b hb => hf₀ b (hf.tlams ▸ hb)
      have ha₁ : a.1.Unbounded := fun b hb => ha₀ b (ha.tlams ▸ hb)
      refine .bind (plainly_typeWith plainRule_explicitApp hf₁) fun f' hf' =>
        .bind (plainly_typeWith plainRule_explicitApp ha₁) fun a' ha' => ?_
      refine plainRule_explicitApp hf₀ ha₀ ⟨hf'.type, ?_, ?_, hf'.dispatch⟩
        ⟨ha'.type, ha'.lamNames.trans ha.lamNames, ha'.tlams.trans ha.tlams, ha'.dispatch⟩
      · exact hf'.lamNames.trans hf.lamNames
      · exact hf'.tlams.trans hf.tlams
    · exact .fail _ _
  · exact plainRule_explicitApp hf₀ ha₀ hf ha

end

end Expr

namespace Stmt

def tlams (s : Stmt) : List (String × List String) := s.expr?.elim [] fun e => e.2.tlams

def compared (s : Stmt) : List Expr := s.expr?.elim [] fun e => e.2.compared

theorem lamNames_subset_termNames (s : Stmt) : ∀ x ∈ s.lamNames, x ∈ s.termNames := by
  cases s with
  | assign line x e =>
    exact fun y hy => List.mem_cons_of_mem x (e.lamNames_sublist_termNames.subset hy)
  | eval line e | inst line trait type e => exact fun y hy => e.lamNames_sublist_termNames.subset hy
  | field line x trait type => exact nofun

theorem mem_termNames_of_assigned {s : Stmt} {x : String} (h : s.assigned? = some x) :
    x ∈ s.termNames := by
  cases s with
  | assign line y e =>
    obtain rfl : y = x := Option.some.inj h
    exact List.mem_cons_self
  | _ => cases h

/-- A statement and what typing makes of it. -/
inductive PlainlyTyped : Stmt → Stmt → Prop
  | assign {line : Nat} {x : String} {e : Expr} {r : Expr × Ty} (h : e.PlainlyTyped r) :
      PlainlyTyped (.assign line x e) (.assign line x r.1)
  | eval {line : Nat} {e : Expr} {r : Expr × Ty} (h : e.PlainlyTyped r) :
      PlainlyTyped (.eval line e) (.eval line r.1)

theorem plainly_infer {s : Stmt} (hs : s.expr?.isSome = true) (hu : ∀ b ∈ s.tlams, b.2 = [])
    {sc : Scope Entry} : (s.infer sc).Plainly fun r => s.PlainlyTyped r.1 := by
  cases s with
  | assign line x e =>
    exact .bind (Expr.plainly_typeWith Expr.plainRule_inferApp hu) fun r hr =>
      .pure (.assign hr)
  | eval line e =>
    exact .bind (Expr.plainly_typeWith Expr.plainRule_inferApp hu) fun r hr => .pure (.eval hr)
  | inst line trait type dict => cases hs
  | field line x trait type => cases hs

theorem inferAll_plain {ss ss' done : List Stmt} {sc : Scope Entry} {st st' : TypingState}
    {log : String} (hs : ∀ s ∈ ss, s.expr?.isSome = true)
    (hu : ∀ b ∈ ss.flatMap tlams, b.2 = []) (hst : st.instances = [])
    (h : (inferAll sc st log done ss).2 = .ok (ss', st')) :
    ∃ new, ss' = done.reverse ++ new ∧ List.Forall₂ PlainlyTyped ss new := by
  induction ss generalizing sc st log done with
  | nil =>
    obtain ⟨rfl, -⟩ := Prod.mk.inj (Except.ok.inj h)
    exact ⟨[], by simp, .nil⟩
  | cons s ss ih =>
    rw [List.flatMap_cons] at hu
    obtain ⟨hu₁, hu₂⟩ := List.forall_mem_append.mp hu
    obtain ⟨hs₁, hs₂⟩ := List.forall_mem_cons.mp hs
    unfold inferAll at h
    split at h
    · cases h
    · rename_i s' sc' line st₁ hinfer
      obtain ⟨hst₁, hs'⟩ := plainly_infer hs₁ hu₁ _ _ _ hst hinfer
      obtain ⟨new, rfl, hnew⟩ := ih hs₂ hu₂ hst₁ h
      exact ⟨s' :: new, by simp, .cons hs' hnew⟩

/-- Dictionary passing leaves plain statements as they are. -/
theorem dispatchAll_plain {ss ss' : List Stmt} (h : List.Forall₂ PlainlyTyped ss ss')
    (done : List Stmt) : dispatchAll [] done ss' = pure (done.reverse ++ ss') := by
  induction h generalizing done with
  | nil => simp [dispatchAll]
  | @cons s s' ss ss' hs _ ih =>
    cases hs with
    | @assign line x e r hr =>
      show (do
        let e ← r.1.dispatch []
        dispatchAll [] (.assign line x e :: done) ss') = _
      rw [hr.dispatch, pure_bind, ih]
      simp
    | @eval line e r hr =>
      show (do
        let e ← r.1.dispatch []
        dispatchAll [] (.eval line e :: done) ss') = _
      rw [hr.dispatch, pure_bind, ih]
      simp

theorem core_plain {ss ss' : List Stmt} (h : List.Forall₂ PlainlyTyped ss ss') :
    ∀ s ∈ ss', s.expr?.isSome = true := by
  induction h with
  | nil => simp
  | cons hs _ ih =>
    refine List.forall_mem_cons.mpr ⟨?_, ih⟩
    cases hs <;> rfl

/-- Typing keeps the names of plain statements. -/
theorem names_plain {ss ss' : List Stmt} (h : List.Forall₂ PlainlyTyped ss ss') :
    globals ss' = globals ss ∧ ss'.flatMap lamNames = ss.flatMap lamNames ∧
      ss'.flatMap tlams = ss.flatMap tlams := by
  induction h with
  | nil => exact ⟨rfl, rfl, rfl⟩
  | @cons s s' ss ss' hs _ ih =>
    obtain ⟨hglobals, hlams, htlams⟩ := ih
    simp only [globals] at hglobals
    simp only [globals, List.flatMap_cons, List.filterMap_cons, hglobals, hlams, htlams]
    cases hs with
    | @assign line x e r hr | @eval line e r hr =>
      exact ⟨rfl, by rw [lamNames, hr.lamNames, lamNames],
        congrArg (· ++ _) hr.tlams⟩

end Stmt

namespace Program

def tlams (p : Program Stmt) : List (String × List String) := p.stmts.flatMap Stmt.tlams

def compared (p : Program Stmt) : List Expr := p.stmts.flatMap Stmt.compared

/-- A program without traits, implementations and bounds, whose names are kept apart: it assigns
no global twice and no builtin, a parameter is neither a global nor a builtin, and the variables of
type lambdas differ from each other, from the basic types and from parameters. -/
structure Plain (p : Program Stmt) : Prop where
  stmts : ∀ s ∈ p.stmts, s.expr?.isSome = true
  unbounded : ∀ b ∈ p.tlams, b.2 = []
  once : (Stmt.globals p.stmts).Nodup
  builtins : ∀ x ∈ Stmt.globals p.stmts, Builtin.ofName? x = none
  params : ∀ x ∈ p.lamNames, x ∉ Stmt.globals p.stmts ∧ Builtin.ofName? x = none
  typeVars : (p.tlams.map Prod.fst).Nodup
  typeNames : ∀ b ∈ p.tlams, b.1 ∉ Ty.basicNames ∧ b.1 ∉ p.lamNames

instance (p : Program Stmt) : Decidable p.Plain :=
  decidable_of_iff ((∀ s ∈ p.stmts, s.expr?.isSome = true) ∧ (∀ b ∈ p.tlams, b.2 = []) ∧
      (Stmt.globals p.stmts).Nodup ∧
      (∀ x ∈ Stmt.globals p.stmts, Builtin.ofName? x = none) ∧
      (∀ x ∈ p.lamNames, x ∉ Stmt.globals p.stmts ∧ Builtin.ofName? x = none) ∧
      (p.tlams.map Prod.fst).Nodup ∧
      ∀ b ∈ p.tlams, b.1 ∉ Ty.basicNames ∧ b.1 ∉ p.lamNames)
    ⟨fun ⟨h₁, h₂, h₃, h₄, h₅, h₆, h₇⟩ => ⟨h₁, h₂, h₃, h₄, h₅, h₆, h₇⟩,
      fun h => ⟨h.stmts, h.unbounded, h.once, h.builtins, h.params, h.typeVars, h.typeNames⟩⟩

/-- Only basic types are compared. -/
def ComparesBasics (p : Program Stmt) : Prop := ∀ e ∈ p.compared, e.type?.any Ty.isBasic = true

instance (p : Program Stmt) : Decidable p.ComparesBasics :=
  inferInstanceAs (Decidable (∀ e ∈ p.compared, _ = true))

/-- Typing a plain program. -/
theorem infer_plain {p q : Program Stmt} {drawn : Nat} {st : TypingState} (hp : p.Plain)
    (h : (p.infer drawn).2 = .ok (q, st)) : List.Forall₂ Stmt.PlainlyTyped p.stmts q.stmts := by
  unfold infer at h
  split at h
  · cases h
  · rename_i log ss st' hall
    obtain ⟨rfl, rfl⟩ := Prod.mk.inj (Except.ok.inj h)
    obtain ⟨new, rfl, hnew⟩ := Stmt.inferAll_plain hp.stmts hp.unbounded rfl
      (congrArg Prod.snd hall)
    exact hnew

theorem dispatch_plain {p q : Program Stmt}
    (h : List.Forall₂ Stmt.PlainlyTyped p.stmts q.stmts) : q.dispatch = .ok q := by
  rw [dispatch, Stmt.dispatchAll_plain h]
  rfl

/-- The names of a plain program of a text do not clash, if no global has the name that `cons`
generates. -/
theorem Plain.noClash {code : String} {p q : Program Stmt} {drawn : Nat} (hp : p.Plain)
    (hr : resolveText code = .ok (p, drawn)) (hxs : "__xs" ∉ Stmt.globals p.stmts)
    (hq : List.Forall₂ Stmt.PlainlyTyped p.stmts q.stmts) : Stmt.NoClash q.stmts := by
  obtain ⟨hglobals, hlams, -⟩ := Stmt.names_plain hq
  have hsource := within_resolveText hr
  refine .of_source (fun s hs x hx => ?_) (fun x hx => ?_) (hglobals ▸ hxs)
  · have hmem : x ∈ p.lamNames := by
      rw [lamNames, ← hlams]
      exact List.mem_flatMap.mpr ⟨s, hs, hx⟩
    obtain ⟨s', hs', hx'⟩ := List.mem_flatMap.mp hmem
    rw [hglobals]
    exact ⟨(hp.params x hmem).1, (hp.params x hmem).2,
      (hsource s' hs').2 x (s'.lamNames_subset_termNames x hx')⟩
  · rw [hglobals] at hx
    refine ⟨hp.builtins x hx, ?_⟩
    obtain ⟨s', hs', hx'⟩ := List.mem_filterMap.mp hx
    exact (hsource s' hs').2 x (Stmt.mem_termNames_of_assigned hx')

end Program

end TraitCalculus
