import Mathlib
import TraitCalculus.Proofs.Elaboration

/-! When dictionary passing leaves a closed program. Dispatch keeps one table of dictionaries and
never takes the parameters of a type lambda out of it again; the function of a bounded type
application it does not enter. The program it leaves is closed exactly if each dictionary that it
takes from the table is in scope, and each function that it does not enter is closed already. -/
namespace TraitCalculus

namespace Expr

mutual

/-- Every variable is bound by a lambda around it, or is among `names`. -/
def closed (names : List String) : Expr → Bool
  | lam _ x _ body => body.closed (x :: names)
  | tlam _ _ _ body => body.closed names
  | cond _ c y z => c.closed names && (y.closed names && z.closed names)
  | bin _ _ l r => l.closed names && r.closed names
  | un _ _ e => e.closed names
  | app _ f a => f.closed names && a.closed names
  | tapp _ f _ => f.closed names
  | ascribe _ e _ => e.closed names
  | proj _ e _ => e.closed names
  | var _ x => decide (x ∈ names)
  | val .. => true
  | list _ es => closedItems names es
  | record _ fs => closedFields names fs

def closedItems (names : List String) : List Expr → Bool
  | [] => true
  | e :: es => e.closed names && closedItems names es

def closedFields (names : List String) : List (String × Expr) → Bool
  | [] => true
  | (_, e) :: fs => e.closed names && closedFields names fs

end

end Expr

namespace Dictionaries

/-- The dictionary that was added last for a trait and a type. -/
def newest? (d : Dictionaries) (trait : String) (type : Ty) : Option Expr :=
  (d.known.find? fun k => k.1 = trait && k.2.1.same type).map (·.2.2)

/-- The newest dictionaries for the type are in scope. -/
def inReach (names : List String) (d : Dictionaries) (type : Ty) (traits : List String) : Bool :=
  traits.all fun trait => (d.newest? trait type).all (·.closed names)

/-- The dictionary parameters for the variable `x`, and the table with them. -/
def opened (x : String) : List String → Dictionaries → List String × Dictionaries
  | [], d => ([], d)
  | trait :: traits, d =>
    let y := paramName trait (d.params + 1)
    let r := opened x traits ⟨d.params + 1, (trait, .name none x, .var .blank y) :: d.known⟩
    (y :: r.1, r.2)

end Dictionaries

namespace Expr

/-- The field names left under a type lambda with dictionary parameters `dicts`. -/
def hide (x : String) (dicts : List String) (owners : List (String × String)) :
    List (String × String) :=
  dicts.foldl (fun os d => Assoc.erase d os) (Assoc.erase x owners)

/-- The fields left under a type lambda are those that neither its variable nor a dictionary
parameter hides. -/
theorem lookup_hide (x : String) (dicts : List String) (owners : List (String × String))
    (y : String) : (hide x dicts owners).lookup y =
      if y = x ∨ y ∈ dicts then none else owners.lookup y := by
  have hfold : ∀ (ds : List String) (os : List (String × String)),
      (ds.foldl (fun os d => Assoc.erase d os) os).lookup y =
        if y ∈ ds then none else os.lookup y := by
    intro ds
    induction ds with
    | nil => simp
    | cons d ds ih =>
      intro os
      rw [List.foldl_cons, ih]
      by_cases hyd : y = d
      · subst hyd
        simp [Assoc.lookup_erase_self]
      · simp [hyd, Assoc.lookup_erase_of_ne os hyd]
  rw [hide, hfold]
  by_cases hyx : y = x
  · subst hyx
    simp [Assoc.lookup_erase_self]
  · simp [hyx, Assoc.lookup_erase_of_ne owners hyx]

mutual

/-- The table behind an expression: all parameters of type lambdas that are passed on the way
stay in it. -/
def visit (owners : List (String × String)) (d : Dictionaries) : Expr → Dictionaries
  | lam _ x _ body => body.visit (Assoc.erase x owners) d
  | tlam _ x bounds body =>
    let r := Dictionaries.opened x bounds.reverse d
    body.visit (hide x r.1 owners) r.2
  | cond _ c y z => z.visit owners (y.visit owners (c.visit owners d))
  | bin _ _ l r => r.visit owners (l.visit owners d)
  | un _ _ e => e.visit owners d
  | app _ f a => a.visit owners (f.visit owners d)
  | tapp _ f _ =>
    if (f.fieldOf? owners).isNone && f.wanted.isEmpty then f.visit owners d else d
  | ascribe _ e _ => e.visit owners d
  | proj _ e _ => e.visit owners d
  | var .. => d
  | val .. => d
  | list _ es => visitItems owners d es
  | record _ fs => visitFields owners d fs

def visitItems (owners : List (String × String)) (d : Dictionaries) : List Expr → Dictionaries
  | [] => d
  | e :: es => visitItems owners (e.visit owners d) es

def visitFields (owners : List (String × String)) (d : Dictionaries) :
    List (String × Expr) → Dictionaries
  | [] => d
  | (_, e) :: fs => visitFields owners (e.visit owners d) fs

end

mutual

/-- Every dictionary that is asked for is in scope where it is asked for, and the functions of
bounded type applications are closed as they stand. -/
def supplied (owners : List (String × String)) (names : List String) (d : Dictionaries) :
    Expr → Bool
  | lam _ x _ body => body.supplied (Assoc.erase x owners) (x :: names) d
  | tlam _ x bounds body =>
    let r := Dictionaries.opened x bounds.reverse d
    body.supplied (hide x r.1 owners) (r.1 ++ names) r.2
  | cond _ c y z =>
    c.supplied owners names d && (y.supplied owners names (c.visit owners d) &&
      z.supplied owners names (y.visit owners (c.visit owners d)))
  | bin _ _ l r => l.supplied owners names d && r.supplied owners names (l.visit owners d)
  | un _ _ e => e.supplied owners names d
  | app _ f a => f.supplied owners names d && a.supplied owners names (f.visit owners d)
  | tapp _ f t =>
    match f.fieldOf? owners with
    | some (_, trait) => d.inReach names t [trait]
    | none =>
      if f.wanted.isEmpty then f.supplied owners names d
      else f.closed names && d.inReach names t f.wanted
  | ascribe _ e _ => e.supplied owners names d
  | proj _ e _ => e.supplied owners names d
  | var .. => true
  | val .. => true
  | list _ es => suppliedItems owners names d es
  | record _ fs => suppliedFields owners names d fs

def suppliedItems (owners : List (String × String)) (names : List String) (d : Dictionaries) :
    List Expr → Bool
  | [] => true
  | e :: es => e.supplied owners names d && suppliedItems owners names (e.visit owners d) es

def suppliedFields (owners : List (String × String)) (names : List String) (d : Dictionaries) :
    List (String × Expr) → Bool
  | [] => true
  | (_, e) :: fs => e.supplied owners names d && suppliedFields owners names (e.visit owners d) fs

end

end Expr

namespace Stmt

/-- The expressions of statements are closed under the names of globals that have been assigned.
A trait's field hides a global of its name. -/
def closedAll (names : List String) : List Stmt → Bool
  | [] => true
  | assign _ x e :: ss => e.closed (x :: names) && closedAll (x :: names) ss
  | eval _ e :: ss => e.closed names && closedAll names ss
  | inst .. :: ss => closedAll names ss
  | field _ x _ _ :: ss => closedAll (names.filter (· ≠ x)) ss

def suppliedAll (owners : List (String × String)) (names : List String) (d : Dictionaries) :
    List Stmt → Bool
  | [] => true
  | assign _ x e :: ss =>
    e.supplied (Assoc.erase x owners) (x :: names) d &&
      suppliedAll (Assoc.erase x owners) (x :: names) (e.visit (Assoc.erase x owners) d) ss
  | eval _ e :: ss => e.supplied owners names d && suppliedAll owners names (e.visit owners d) ss
  | inst _ trait type dict :: ss =>
    suppliedAll owners names { d with known := (trait, type, dict) :: d.known } ss
  | field _ x trait _ :: ss =>
    suppliedAll (Assoc.insert x trait owners) (names.filter (· ≠ x)) d ss

end Stmt

namespace Program

/-- Every variable is bound by a lambda, a builtin, or a global of this or an earlier
statement. -/
def closed (p : Program Stmt) : Bool := Stmt.closedAll (Builtin.all.map Builtin.name) p.stmts

def supplied (p : Program Stmt) : Bool :=
  Stmt.suppliedAll [] (Builtin.all.map Builtin.name) {} p.stmts

end Program

namespace Dictionaries

theorem run_bind (x : String) (traits : List String) (d : Dictionaries) :
    (bind x traits).run d = .ok (opened x traits d) := by
  induction traits generalizing d with
  | nil => rfl
  | cons trait traits ih =>
    have hrest := ih ⟨d.params + 1,
      (trait, .name none x, .var .blank (paramName trait (d.params + 1))) :: d.known⟩
    unfold bind
    change (do
      let ys ← bind x traits
      pure (paramName trait (d.params + 1) :: ys) : Dispatch (List String)).run _ = _
    rw [StateT.run_bind, hrest]
    rfl

theorem find_ok {trait : String} {type : Ty} {d d' : Dictionaries} {e : Expr}
    (h : (find trait type).run d = .ok (e, d')) : d' = d ∧ d.newest? trait type = some e := by
  obtain ⟨s, d₁, hget, hrest⟩ := run_bind_eq_ok h
  obtain ⟨rfl, rfl⟩ := Prod.mk.inj (Except.ok.inj hget)
  unfold newest?
  split at hrest
  · rename_i k hk
    obtain ⟨rfl, rfl⟩ := run_pure_eq_ok hrest
    exact ⟨rfl, by rw [hk, Option.map_some]⟩
  · cases hrest

theorem closed_apply {line : Option Nat} {type : Ty} {fn e : Expr} {traits : List String}
    {d d' : Dictionaries} (names : List String)
    (h : (apply line type fn traits).run d = .ok (e, d')) :
    d' = d ∧ e.closed names = (fn.closed names && d.inReach names type traits) := by
  induction traits generalizing fn with
  | nil =>
    obtain ⟨rfl, rfl⟩ := run_pure_eq_ok h
    exact ⟨rfl, by simp [inReach]⟩
  | cons trait traits ih =>
    obtain ⟨dict, d₁, hfind, happ⟩ := run_bind_eq_ok h
    obtain ⟨rfl, hnew⟩ := find_ok hfind
    obtain ⟨rfl, hclosed⟩ := ih happ
    refine ⟨rfl, ?_⟩
    rw [hclosed, Expr.closed]
    simp [inReach, hnew, Bool.and_assoc]

end Dictionaries

theorem FieldsHaveType.mem {Γ : Context} {fs : List (String × Expr)} {ts : List (String × Ty)}
    (h : FieldsHaveType Γ fs ts) : ∀ f ∈ fs, ∃ s, HasType Γ f.2 s := by
  induction fs generalizing ts with
  | nil => simp
  | cons f fs ih =>
    cases h with
    | cons he hfs => exact List.forall_mem_cons.mpr ⟨⟨_, he⟩, ih hfs⟩

theorem HasType.elements {Γ : Context} {n : Note} {es : List Expr} {t : Ty}
    (h : HasType Γ (.list n es) t) : ∀ e ∈ es, ∃ s, HasType Γ e s := by
  cases h with
  | nil => simp
  | list he hes =>
    refine List.forall_mem_cons.mpr ⟨⟨_, he⟩, fun e hmem => ?_⟩
    obtain ⟨s, hs, -⟩ := hes.mem e hmem
    exact ⟨s, hs⟩

/-- A variable with a type is in scope, or names a trait's field. -/
def Visible (Γ : Context) (owners : List (String × String)) (names : List String) : Prop :=
  ∀ x t, Γ.lookup x = some (.term t) → x ∈ names ∨ (owners.lookup x).isSome

namespace Visible

variable {Γ : Context} {owners : List (String × String)} {names : List String}

theorem erase (h : Visible Γ owners names) (x : String) {names' : List String}
    (hn : ∀ y ∈ names, y ∈ names') (hx : x ∈ names') :
    Visible Γ (Assoc.erase x owners) names' := by
  intro y t hy
  by_cases hyx : y = x
  · exact Or.inl (hyx ▸ hx)
  · rw [Assoc.lookup_erase_of_ne owners hyx]
    exact (h y t hy).imp_left (hn y)

theorem lam (h : Visible Γ owners names) (x : String) (t : Ty) :
    Visible ((x, .term t) :: Γ) (Assoc.erase x owners) (x :: names) := by
  intro y u hy
  by_cases hyx : y = x
  · exact Or.inl (hyx ▸ List.mem_cons_self)
  · rw [Assoc.lookup_cons_if, if_neg hyx] at hy
    exact h.erase x (fun _ => List.mem_cons_of_mem x) List.mem_cons_self y u hy

/-- Under a type lambda the variable hides a field, and so do the dictionary parameters. -/
theorem tlam (h : Visible Γ owners names) (x : String) (dicts : List String) :
    Visible ((x, .type) :: Γ) (Expr.hide x dicts owners) (dicts ++ names) := by
  intro y t hy
  have hyx : y ≠ x := by
    rintro rfl
    simp at hy
  rw [Assoc.lookup_cons_if, if_neg hyx] at hy
  rcases h y t hy with hn | ho
  · exact Or.inl (List.mem_append_right _ hn)
  · by_cases hyd : y ∈ dicts
    · exact Or.inl (List.mem_append_left _ hyd)
    · rw [Expr.lookup_hide, if_neg (by simp [hyx, hyd])]
      exact Or.inr ho

end Visible

namespace Expr

theorem closed_foldl_lam (dicts names : List String) (body : Expr) :
    (dicts.foldl (fun b d => lam .blank d .dictionary b) body).closed names =
      body.closed (dicts ++ names) := by
  induction dicts generalizing body with
  | nil => rfl
  | cons d dicts ih =>
    rw [List.foldl_cons, ih, closed, List.cons_append]

/-- What dispatch does to the table and to closedness. -/
def Dispatched (owners : List (String × String)) (names : List String) (d : Dictionaries)
    (e e' : Expr) (d' : Dictionaries) : Prop :=
  d' = e.visit owners d ∧ e'.closed names = e.supplied owners names d

section Dispatch

variable {owners : List (String × String)} {names : List String} {d d' : Dictionaries} {e' : Expr}
  {n : Note} {x : String}

/-- A type lambda: the parameters are in the table before the body is entered. -/
theorem dispatch_tlam_ok {bounds : List String} {body : Expr}
    (h : ((tlam n x bounds body).dispatch owners).run d = .ok (e', d')) :
    ∃ dicts d₁ body', Dictionaries.opened x bounds.reverse d = (dicts, d₁) ∧
      (body.dispatch (hide x dicts owners)).run d₁ = .ok (body', d') ∧
      e' = .tlam n x bounds (dicts.foldl (fun b d => lam .blank d .dictionary b) body') := by
  obtain ⟨dicts, d₁, hbind, hrest⟩ := run_bind_eq_ok h
  rw [Dictionaries.run_bind] at hbind
  obtain ⟨body', hbody, rfl⟩ := run_bind_pure_eq_ok hrest
  exact ⟨dicts, d₁, body', Except.ok.inj hbind, hbody, rfl⟩

theorem fieldOf?_eq_some {f : Expr} {F : String} (h : f.fieldOf? owners = some (x, F)) :
    ∃ m, f = .var m x ∧ owners.lookup x = some F := by
  cases f with
  | var m y =>
    obtain ⟨G, hG, hpair⟩ := Option.map_eq_some_iff.mp h
    obtain ⟨rfl, rfl⟩ := Prod.mk.inj hpair
    exact ⟨m, rfl, hG⟩
  | _ => cases h

/-- A type application is that of a trait's field, of a function without bounds, or of one with
bounds, which is not entered. -/
theorem dispatch_tapp_ok {f : Expr} {t : Ty}
    (h : ((tapp n f t).dispatch owners).run d = .ok (e', d')) :
    (∃ m x F dict, f = .var m x ∧ owners.lookup x = some F ∧ d.newest? F t = some dict ∧
      e' = .proj ⟨n.line, none⟩ dict x ∧ d' = d) ∨
    f.fieldOf? owners = none ∧
      ((f.wanted.isEmpty = true ∧
        ∃ f', (f.dispatch owners).run d = .ok (f', d') ∧ e' = .tapp n f' t) ∨
      (¬f.wanted.isEmpty = true ∧
        (Dictionaries.apply n.line t (.tapp n f t) f.wanted).run d = .ok (e', d'))) := by
  unfold dispatch at h
  split at h
  · rename_i x F hfield
    obtain ⟨m, rfl, hF⟩ := fieldOf?_eq_some hfield
    obtain ⟨dict, hfind, rfl⟩ := run_bind_pure_eq_ok h
    obtain ⟨rfl, hnew⟩ := Dictionaries.find_ok hfind
    exact .inl ⟨m, x, F, dict, rfl, hF, hnew, rfl, rfl⟩
  · rename_i hfield
    refine .inr ⟨hfield, ?_⟩
    split_ifs at h with hw
    · obtain ⟨f', hf, rfl⟩ := run_bind_pure_eq_ok h
      exact .inl ⟨hw, f', hf, rfl⟩
    · exact .inr ⟨hw, h⟩

theorem dispatch_var_ok (h : ((var n x).dispatch owners).run d = .ok (e', d')) :
    owners.lookup x = none ∧ e' = .var n x ∧ d' = d := by
  unfold dispatch at h
  split_ifs at h with ho
  · cases h
  · obtain ⟨rfl, rfl⟩ := run_pure_eq_ok h
    exact ⟨Option.not_isSome_iff_eq_none.mp ho, rfl, rfl⟩

theorem dispatched_items (es : List Expr)
    (ih : ∀ e ∈ es, ∀ d e' d', (e.dispatch owners).run d = .ok (e', d') →
      Dispatched owners names d e e' d') {es' : List Expr}
    (h : (dispatchItems owners es).run d = .ok (es', d')) :
    d' = visitItems owners d es ∧ closedItems names es' = suppliedItems owners names d es := by
  induction es generalizing d es' with
  | nil =>
    obtain ⟨rfl, rfl⟩ := run_pure_eq_ok h
    exact ⟨rfl, rfl⟩
  | cons e es ihs =>
    obtain ⟨e', d₁, he, hrest⟩ := run_bind_eq_ok h
    obtain ⟨rest, hes, rfl⟩ := run_bind_pure_eq_ok hrest
    obtain ⟨rfl, hc⟩ := ih e List.mem_cons_self d e' d₁ he
    obtain ⟨rfl, hcs⟩ := ihs (fun e₁ h₁ => ih e₁ (List.mem_cons_of_mem e h₁)) hes
    exact ⟨rfl, by rw [closedItems, suppliedItems, hc, hcs]⟩

theorem dispatched_fields (fs : List (String × Expr))
    (ih : ∀ f ∈ fs, ∀ d e' d', (f.2.dispatch owners).run d = .ok (e', d') →
      Dispatched owners names d f.2 e' d') {fs' : List (String × Expr)}
    (h : (dispatchFields owners fs).run d = .ok (fs', d')) :
    d' = visitFields owners d fs ∧
      closedFields names fs' = suppliedFields owners names d fs := by
  induction fs generalizing d fs' with
  | nil =>
    obtain ⟨rfl, rfl⟩ := run_pure_eq_ok h
    exact ⟨rfl, rfl⟩
  | cons f fs ihs =>
    obtain ⟨e', d₁, he, hrest⟩ := run_bind_eq_ok h
    obtain ⟨rest, hfs, rfl⟩ := run_bind_pure_eq_ok hrest
    obtain ⟨rfl, hc⟩ := ih f List.mem_cons_self d e' d₁ he
    obtain ⟨rfl, hcs⟩ := ihs (fun f₁ h₁ => ih f₁ (List.mem_cons_of_mem f h₁)) hfs
    exact ⟨rfl, by rw [closedFields, suppliedFields, hc, hcs]⟩

/-- Dispatch of an expression with a derivation: its table is the one that `visit` computes, and
its result is closed exactly if the expression is supplied. -/
theorem dispatched (e : Expr) {Γ : Context} {t : Ty} {e' : Expr} (ht : HasType Γ e t)
    (hv : Visible Γ owners names) (h : (e.dispatch owners).run d = .ok (e', d')) :
    Dispatched owners names d e e' d' := by
  induction e using Expr.induction generalizing Γ t owners names d d' e' with
  | lam n x p body ih =>
    cases ht with
    | lam hbody =>
      obtain ⟨body', hb, rfl⟩ := run_bind_pure_eq_ok h
      exact ih hbody (hv.lam x _) hb
  | tlam n x bounds body ih =>
    cases ht with
    | tlam hbody =>
      obtain ⟨dicts, d₁, body', hopen, hb, rfl⟩ := dispatch_tlam_ok h
      obtain ⟨hd, hc⟩ := ih hbody (hv.tlam x dicts) hb
      constructor
      · rw [visit, hopen]
        exact hd
      · rw [closed, closed_foldl_lam, supplied, hopen]
        exact hc
  | cond n c y z ihc ihy ihz =>
    cases ht with
    | cond htc hty htz hs htu =>
      obtain ⟨c', d₁, hc, hrest⟩ := run_bind_eq_ok h
      obtain ⟨y', d₂, hy, hrest⟩ := run_bind_eq_ok hrest
      obtain ⟨z', hz, rfl⟩ := run_bind_pure_eq_ok hrest
      obtain ⟨rfl, hcc⟩ := ihc htc hv hc
      obtain ⟨rfl, hcy⟩ := ihy hty hv hy
      obtain ⟨rfl, hcz⟩ := ihz htz hv hz
      exact ⟨rfl, by rw [closed, supplied, hcc, hcy, hcz]⟩
  | bin n op l r ihl ihr =>
    cases ht with
    | bin htl htr hop =>
      obtain ⟨l', d₁, hl, hrest⟩ := run_bind_eq_ok h
      obtain ⟨r', hr, rfl⟩ := run_bind_pure_eq_ok hrest
      obtain ⟨rfl, hcl⟩ := ihl htl hv hl
      obtain ⟨rfl, hcr⟩ := ihr htr hv hr
      exact ⟨rfl, by rw [closed, supplied, hcl, hcr]⟩
  | un n op e ih =>
    cases ht with
    | un hte hop =>
      obtain ⟨e', he, rfl⟩ := run_bind_pure_eq_ok h
      obtain ⟨hd, hc⟩ := ih hte hv he
      exact ⟨hd, hc⟩
  | app n f a ihf iha =>
    cases ht with
    | app htf hta hdom =>
      obtain ⟨f', d₁, hf, hrest⟩ := run_bind_eq_ok h
      obtain ⟨a', ha, rfl⟩ := run_bind_pure_eq_ok hrest
      obtain ⟨rfl, hcf⟩ := ihf htf hv hf
      obtain ⟨rfl, hca⟩ := iha hta hv ha
      exact ⟨rfl, by rw [closed, supplied, hcf, hca]⟩
  | tapp n f u ih =>
    cases ht with
    | tapp htf hu =>
      obtain ⟨m, x, F, dict, rfl, hF, hnew, rfl, rfl⟩ |
        ⟨hfield, ⟨hw, f', hf, rfl⟩ | ⟨hw, happ⟩⟩ := dispatch_tapp_ok h
      · refine ⟨by simp [visit, fieldOf?, hF], ?_⟩
        simp [closed, supplied, fieldOf?, hF, Dictionaries.inReach, hnew]
      · obtain ⟨rfl, hc⟩ := ih htf hv hf
        refine ⟨by simp [visit, hfield, hw], ?_⟩
        rw [closed, hc]
        simp [supplied, hfield, hw]
      · obtain ⟨rfl, hc⟩ := Dictionaries.closed_apply names happ
        refine ⟨by simp [visit, hfield, hw], ?_⟩
        rw [hc, closed]
        simp [supplied, hfield, hw]
  | ascribe n e u ih =>
    cases ht with
    | ascribe hte hst =>
      obtain ⟨e', he, rfl⟩ := run_bind_pure_eq_ok h
      obtain ⟨hd, hc⟩ := ih hte hv he
      exact ⟨hd, hc⟩
  | proj n e label ih =>
    cases ht with
    | proj hte hfield =>
      obtain ⟨e', he, rfl⟩ := run_bind_pure_eq_ok h
      obtain ⟨hd, hc⟩ := ih hte hv he
      exact ⟨hd, hc⟩
  | var n x =>
    cases ht with
    | var hx =>
      obtain ⟨ho, rfl, rfl⟩ := dispatch_var_ok h
      -- a variable that has a type and is no field is in scope
      have hmem : x ∈ names := (hv x _ hx).resolve_right (by simp [ho])
      exact ⟨rfl, by simp [closed, supplied, hmem]⟩
  | val n v =>
    obtain ⟨rfl, rfl⟩ := run_pure_eq_ok h
    exact ⟨rfl, rfl⟩
  | list n es ih =>
    obtain ⟨es', hes, rfl⟩ := run_bind_pure_eq_ok h
    refine dispatched_items es (fun e he d e' d' hrun => ?_) hes
    obtain ⟨s, hs⟩ := ht.elements e he
    exact ih e he hs hv hrun
  | record n fs ih =>
    cases ht with
    | record htf =>
      obtain ⟨fs', hfs, rfl⟩ := run_bind_pure_eq_ok h
      refine dispatched_fields fs (fun f hf d e' d' hrun => ?_) hfs
      obtain ⟨s, hs⟩ := htf.mem f hf
      exact ih f hf hs hv hrun

end Dispatch

end Expr

namespace Visible

variable {Γ : Context} {owners : List (String × String)} {names : List String}

/-- Behind the announcement of a trait's field. -/
theorem field (h : Visible Γ owners names) (x trait : String) (t : Ty) :
    Visible ((x, .term t) :: Γ) (Assoc.insert x trait owners) (names.filter (· ≠ x)) := by
  intro y u hy
  by_cases hyx : y = x
  · rw [hyx, Assoc.lookup_insert_self]
    exact Or.inr rfl
  · rw [Assoc.lookup_cons_if, if_neg hyx] at hy
    rw [Assoc.lookup_insert_of_ne trait owners hyx]
    exact (h y u hy).imp_left fun hn => by simp [hn, hyx]

theorem builtins : Visible Context.builtins [] (Builtin.all.map Builtin.name) := by
  intro x t hx
  obtain ⟨l₁, l₂, hl, -⟩ := List.lookup_eq_some_iff.mp hx
  have hmem : (x, Entry.term t) ∈ Context.builtins := by simp [hl]
  obtain ⟨b, hb, he⟩ := List.mem_map.mp hmem
  exact Or.inl (List.mem_map.mpr ⟨b, hb, (Prod.mk.inj he).1⟩)

end Visible

theorem Stmt.dispatchedAll {Γ : Context} {owners : List (String × String)} {names : List String}
    {d d' : Dictionaries} {done ss ss' : List Stmt} (ht : StmtsHaveTypes Γ ss)
    (hv : Visible Γ owners names) (h : (dispatchAll owners done ss).run d = .ok (ss', d')) :
    ∃ new, ss' = done.reverse ++ new ∧ closedAll names new = suppliedAll owners names d ss := by
  induction ss generalizing Γ owners names d done with
  | nil =>
    obtain ⟨rfl, rfl⟩ := run_pure_eq_ok h
    exact ⟨[], (List.append_nil _).symm, rfl⟩
  | cons s ss ih =>
    cases ht with
    | @assign _ line x e t _ he hss =>
      obtain ⟨e', d₁, he', hrest⟩ := run_bind_eq_ok h
      have hve : Visible Γ (Assoc.erase x owners) (x :: names) :=
        hv.erase x (fun _ => List.mem_cons_of_mem x) List.mem_cons_self
      obtain ⟨rfl, hc⟩ := e.dispatched he hve he'
      obtain ⟨new, rfl, hnew⟩ := ih hss (hv.lam x t) hrest
      refine ⟨.assign line x e' :: new, by simp, ?_⟩
      rw [closedAll, suppliedAll, hc, hnew]
    | @eval _ line e t _ he hss =>
      obtain ⟨e', d₁, he', hrest⟩ := run_bind_eq_ok h
      obtain ⟨rfl, hc⟩ := e.dispatched he hv he'
      obtain ⟨new, rfl, hnew⟩ := ih hss hv hrest
      refine ⟨.eval line e' :: new, by simp, ?_⟩
      rw [closedAll, suppliedAll, hc, hnew]
    | @inst _ line trait type dict _ hss =>
      obtain ⟨_, d₁, hadd, hrest⟩ := run_bind_eq_ok h
      obtain ⟨-, rfl⟩ := Prod.mk.inj (Except.ok.inj hadd)
      obtain ⟨new, rfl, hnew⟩ := ih hss hv hrest
      exact ⟨.inst line trait type dict :: new, by simp, hnew⟩
    | @field _ line x trait type _ hss =>
      obtain ⟨new, rfl, hnew⟩ := ih hss (hv.field x trait type) h
      exact ⟨.field line x trait type :: new, by simp, hnew⟩

namespace Program

theorem exists_dispatch_of_dispatchText {code : String} {r : Program Stmt}
    (h : dispatchText code = .ok r) : ∃ q, inferText code = .ok q ∧ q.dispatch = .ok r := by
  unfold dispatchText at h
  split at h
  · cases h
  · rename_i q hq
    cases hd : q.dispatch with
    | error e =>
      rw [hd] at h
      cases h
    | ok r' =>
      rw [hd] at h
      exact ⟨q, hq, hd.trans (congrArg Except.ok (Except.ok.inj h))⟩

theorem exists_dispatchAll_of_dispatch {q r : Program Stmt} (h : q.dispatch = .ok r) :
    ∃ d, (Stmt.dispatchAll [] [] q.stmts).run {} = .ok (r.stmts, d) := by
  unfold dispatch at h
  split at h
  · cases h
  · next ss d hss =>
    obtain rfl := Except.ok.inj h
    exact ⟨d, hss⟩

/-- A program that passes all stages is closed behind dispatch exactly if every dictionary that
is asked for is in scope there, and functions of bounded type applications need none. -/
theorem dispatch_closed_iff {code : String} {q r : Program Stmt} (hi : inferText code = .ok q)
    (hd : q.dispatch = .ok r) : r.closed = true ↔ q.supplied = true := by
  obtain ⟨p, drawn, st, hr, hq⟩ := exists_infer_of_inferText hi
  have ht := (infer_sound hr hq).1
  obtain ⟨d, hss⟩ := exists_dispatchAll_of_dispatch hd
  obtain ⟨new, hstmts, hnew⟩ := Stmt.dispatchedAll ht Visible.builtins hss
  rw [closed, supplied, hstmts, ← hnew]
  rfl

/-- Bounded functions that pass their dictionaries on. -/
def passingSample : String :=
  "trait Show a \x7bshow: a -> String;\x7d\n" ++
    "impl Show for Int \x7bshow = int_to_string;\x7d\n" ++
    "twice = \\a impl Show. \\x: a. show @a x + show @a x;\n" ++
    "angle = \\b impl Show. \\y: b. \"<\" + twice @b y + \">\";\n" ++ "s = angle @Int 5;\n"

theorem dispatch_closed_passing : ∃ q r, inferText passingSample = .ok q ∧
    q.dispatch = .ok r ∧ q.supplied = true ∧ r.closed = true := by
  have hrun : ((dispatchText passingSample).toOption.isSome &&
      ((inferText passingSample).toOption.all supplied)) = true := by decide +kernel
  obtain ⟨hsome, hall⟩ := Bool.and_eq_true_iff.mp hrun
  cases hd : dispatchText passingSample with
  | error e =>
    rw [hd] at hsome
    cases hsome
  | ok r =>
    obtain ⟨q, hi, hq⟩ := exists_dispatch_of_dispatchText hd
    rw [hi] at hall
    have hs : q.supplied = true := hall
    exact ⟨q, r, hi, hq, hs, (dispatch_closed_iff hi hq).mpr hs⟩

/-- A bounded type lambda that is applied where it stands: dispatch passes a dictionary to it, but
leaves the field in its body. -/
def openSample : String :=
  "trait Show a \x7bshow: a -> String;\x7d\n" ++
    "impl Show for Int \x7bshow = int_to_string;\x7d\n" ++
    "y = (\\a impl Show. \\x: a. show @a x) @Int 5;\n"

theorem dispatch_open : ∃ q r, inferText openSample = .ok q ∧ q.dispatch = .ok r ∧
    r.closed = false := by
  have hrun : ((dispatchText openSample).toOption.any fun r => !r.closed) = true := by
    decide +kernel
  cases hd : dispatchText openSample with
  | error e =>
    rw [hd] at hrun
    cases hrun
  | ok r =>
    obtain ⟨q, hi, hq⟩ := exists_dispatch_of_dispatchText hd
    rw [hd] at hrun
    exact ⟨q, r, hi, hq, by simpa [Except.toOption] using hrun⟩

end Program

end TraitCalculus
