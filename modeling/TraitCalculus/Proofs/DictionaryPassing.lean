import Mathlib
import TraitCalculus.Proofs.DictionaryCalls
import TraitCalculus.Proofs.DictionaryScope

/-! Dispatch makes expressions fit. Types that count as the same may ask for different dictionaries,
and the function of a bounded type application is not entered. Where an expression does without
both, dispatch leaves one that passes dictionaries where the types demand them. -/
namespace TraitCalculus

/-- A quantified type without its quantifier. -/
def Ty.inner : Ty → Ty
  | all _ _ _ body => body
  | t => t

namespace Expr

/-- What an expression demands by the type in its note. -/
def demand (e : Expr) : Demand := (e.type?.map Ty.demand).getD .plain

mutual

/-- Dispatch finds nothing to do: no bounded type lambda or type application, and no field. -/
def settled (owners : List (String × String)) : Expr → Bool
  | lam _ x _ body => body.settled (Assoc.erase x owners)
  | tlam _ x bounds body => bounds.isEmpty && body.settled (Assoc.erase x owners)
  | cond _ c y z => c.settled owners && (y.settled owners && z.settled owners)
  | bin _ _ l r => l.settled owners && r.settled owners
  | un _ _ e => e.settled owners
  | app _ f a => f.settled owners && a.settled owners
  | tapp _ f _ => f.wanted.isEmpty && f.settled owners
  | ascribe _ e _ => e.settled owners
  | proj _ e _ => e.settled owners
  | var _ x => (owners.lookup x).isNone
  | val .. => true
  | list _ es => settledItems owners es
  | record _ fs => settledFields owners fs

def settledItems (owners : List (String × String)) : List Expr → Bool
  | [] => true
  | e :: es => e.settled owners && settledItems owners es

def settledFields (owners : List (String × String)) : List (String × Expr) → Bool
  | [] => true
  | (_, e) :: fs => e.settled owners && settledFields owners fs

end

mutual

/-- The types agree on dictionaries wherever they have to be the same, type arguments ask for none,
and the function of a bounded type application is settled. -/
def faithful (owners : List (String × String)) : Expr → Bool
  | lam _ x _ body => body.faithful (Assoc.erase x owners)
  | tlam _ x _ body => body.faithful (Assoc.erase x owners)
  | cond _ c y z =>
    decide (y.demand = z.demand) &&
      (c.faithful owners && (y.faithful owners && z.faithful owners))
  | bin _ op l r =>
    decide (op = .add → l.demand = r.demand) && (l.faithful owners && r.faithful owners)
  | un _ _ e => e.faithful owners
  | app n f a =>
    decide (f.demand = .arrow a.demand (app n f a).demand) &&
      (f.faithful owners && a.faithful owners)
  | tapp _ f t =>
    decide (t.demand = .plain) && ((f.fieldOf? owners).isSome ||
      (f.faithful owners && (f.wanted.isEmpty || f.settled owners)))
  | ascribe _ e _ => e.faithful owners
  | proj _ e _ => e.faithful owners
  | var .. => true
  | val .. => true
  | list n es =>
    decide (∀ e ∈ es, (list n es).demand = .listOf e.demand) && faithfulItems owners es
  | record _ fs => faithfulFields owners fs

def faithfulItems (owners : List (String × String)) : List Expr → Bool
  | [] => true
  | e :: es => e.faithful owners && faithfulItems owners es

def faithfulFields (owners : List (String × String)) : List (String × Expr) → Bool
  | [] => true
  | (_, e) :: fs => e.faithful owners && faithfulFields owners fs

end

theorem faithfulItems_iff {owners : List (String × String)} {es : List Expr} :
    faithfulItems owners es = true ↔ ∀ e ∈ es, e.faithful owners = true :=
  walk_eq_true rfl (fun _ _ => rfl) es

theorem faithfulFields_iff {owners : List (String × String)} {fs : List (String × Expr)} :
    faithfulFields owners fs = true ↔ ∀ f ∈ fs, f.2.faithful owners = true :=
  walk_eq_true rfl (fun _ _ => rfl) fs

theorem dispatch_settled (e : Expr) {owners : List (String × String)}
    (h : e.settled owners = true) : e.dispatch owners = pure e := by
  induction e using Expr.induction generalizing owners with
  | lam n x p body ih | un n op e ih | ascribe n e t ih | proj n e label ih =>
    rw [dispatch, ih h, pure_bind]
  | tlam n x bounds body ih =>
    obtain ⟨hbounds, hbody⟩ := Bool.and_eq_true_iff.mp h
    obtain rfl := List.isEmpty_iff.mp hbounds
    rw [dispatch, List.reverse_nil, Dictionaries.bind, pure_bind]
    show (do
      let body ← body.dispatch (Assoc.erase x owners)
      pure (tlam n x [] body)) = _
    rw [ih hbody, pure_bind]
  | cond n c y z ihc ihy ihz =>
    obtain ⟨hc, hyz⟩ := Bool.and_eq_true_iff.mp h
    obtain ⟨hy, hz⟩ := Bool.and_eq_true_iff.mp hyz
    rw [dispatch, ihc hc, pure_bind, ihy hy, pure_bind, ihz hz, pure_bind]
  | bin n op l r ihl ihr | app n f a ihl ihr =>
    obtain ⟨hl, hr⟩ := Bool.and_eq_true_iff.mp h
    rw [dispatch, ihl hl, pure_bind, ihr hr, pure_bind]
  | tapp n f t ih =>
    obtain ⟨hw, hf⟩ := Bool.and_eq_true_iff.mp h
    -- a settled function is no field
    have hfield : f.fieldOf? owners = none := by
      cases f with
      | var n x => simpa [settled, fieldOf?] using hf
      | _ => rfl
    rw [dispatch, hfield]
    simp only [hw, if_true]
    rw [ih hf, pure_bind]
  | var n x =>
    have hx : owners.lookup x = none := by simpa [settled] using h
    simp [dispatch, hx]
  | val n v => rfl
  | list n es ih =>
    have hitems : dispatchItems owners es = pure es := by
      rw [settled] at h
      induction es with
      | nil => rfl
      | cons e es ihs =>
        obtain ⟨he, hes⟩ := Bool.and_eq_true_iff.mp h
        obtain ⟨ihe, ihes⟩ := List.forall_mem_cons.mp ih
        rw [dispatchItems, ihe he, pure_bind, ihs ihes hes, pure_bind]
    rw [dispatch, hitems, pure_bind]
  | record n fs ih =>
    have hfields : dispatchFields owners fs = pure fs := by
      rw [settled] at h
      induction fs with
      | nil => rfl
      | cons f fs ihs =>
        obtain ⟨he, hfs⟩ := Bool.and_eq_true_iff.mp h
        obtain ⟨ihe, ihfs⟩ := List.forall_mem_cons.mp ih
        rw [dispatchFields, ihe he, pure_bind, ihs ihfs hfs, pure_bind]
    rw [dispatch, hfields, pure_bind]

end Expr

theorem HasType.demand_eq {Γ : Context} {e : Expr} {t : Ty} (h : HasType Γ e t) :
    e.demand = t.demand := by
  rw [Expr.demand, h.type?_eq]
  rfl

theorem HasType.wanted_eq {Γ : Context} {e : Expr} {t : Ty} (h : HasType Γ e t) :
    e.wanted = t.bounds := by
  rw [Expr.wanted, h.type?_eq]
  rfl

/-- The elements of a list, if they all demand what the list's type says. -/
theorem HasType.elements_demand {Γ : Context} {n : Note} {es : List Expr} {t : Ty}
    (h : HasType Γ (.list n es) t) (hsame : ∀ e ∈ es, (Expr.list n es).demand = .listOf e.demand) :
    ∃ S, t.demand = .listOf S ∧ ∀ e ∈ es, ∃ s, HasType Γ e s ∧ s.demand = S := by
  obtain ⟨S, hS⟩ : ∃ S, t.demand = .listOf S := by
    cases h with
    | nil => exact ⟨.plain, rfl⟩
    | list => exact ⟨_, rfl⟩
  refine ⟨S, hS, fun e he => ?_⟩
  obtain ⟨s, hs⟩ := h.elements e he
  have helem := hsame e he
  rw [h.demand_eq, hS, hs.demand_eq] at helem
  exact ⟨s, hs, (Demand.listOf_injective helem).symm⟩

theorem Ty.demand_of_same_name {t : Ty} {line : Option Nat} {x : String}
    (h : t.same (.name line x) = true) : t.demand = .plain := by
  cases t with
  | name => rfl
  | _ => simp [same] at h

namespace Builtin

theorem reserved_name (b : Builtin) : Dictionaries.reserved b.name = false := by
  cases b <;> decide

theorem demand_type (b : Builtin) : b.type.demand = .plain := by
  cases b <;> decide

end Builtin

theorem World.Sound.local_paramName {W : World} (hW : W.Sound) (F : String) (k : Nat) :
    W.Local (Dictionaries.paramName F k) := by
  rintro (h | h)
  · exact Dictionaries.ne_paramName (hW.params _ h) F k rfl
  · obtain ⟨b, hb⟩ := Option.isSome_iff_exists.mp h
    exact Dictionaries.ne_paramName b.reserved_name F k (Builtin.name_of_ofName? hb)

/-- A name that lambdas of a text can have: neither a global's nor a builtin's, and not kept for
dictionary parameters. -/
def World.OwnName (W : World) (x : String) : Prop :=
  W.Local x ∧ SourceName x ∧ Dictionaries.reserved x = false

namespace Dictionaries

variable {W : World} {D : String → Shape → Prop} {k : Nat} {Δ : List (String × Demand)}
  {names : List String} {d d' : Dictionaries}

/-- The table holds dictionary parameters and the globals of instances, each for its trait. -/
def Known (W : World) (d : Dictionaries) : Prop :=
  ∀ entry ∈ d.known, (∃ k, entry.2.2 = .var .blank (paramName entry.1 k)) ∨
    ∃ n g, entry.2.2 = .var n g ∧ (entry.1, g) ∈ W.instances

/-- Each name is that of a dictionary parameter for its trait. -/
abbrev Named (traits ys : List String) : Prop :=
  List.Forall₂ (fun trait y => ∃ k, y = paramName trait k) traits ys

theorem named_opened (x : String) (traits : List String) (d : Dictionaries) :
    Named traits (opened x traits d).1 := by
  induction traits generalizing d with
  | nil => exact .nil
  | cons trait traits ih => exact .cons ⟨_, rfl⟩ (ih _)

/-- Dictionary parameters hide no field. -/
theorem Named.hide_eq {traits ys : List String} (hn : Named traits ys)
    {owners : List (String × String)} (hlabels : ∀ o ∈ owners, reserved o.1 = false) (x : String) :
    Expr.hide x ys owners = Assoc.erase x owners := by
  have herase : ∀ os : List (String × String), (∀ o ∈ os, reserved o.1 = false) →
      ys.foldl (fun os d => Assoc.erase d os) os = os := by
    intro os hos
    induction hn with
    | nil => rfl
    | @cons trait y _ _ hy _ ih =>
      obtain ⟨j, rfl⟩ := hy
      have hkeep : Assoc.erase (paramName trait j) os = os :=
        List.filter_eq_self.mpr fun o ho => decide_eq_true (ne_paramName (hos o ho) trait j)
      rw [List.foldl_cons, hkeep, ih]
  exact herase _ fun o ho => hlabels o (List.mem_of_mem_filter ho)

theorem Known.opened (h : d.Known W) (x : String) (traits : List String) :
    (opened x traits d).2.Known W := by
  induction traits generalizing d with
  | nil => exact h
  | cons trait traits ih => exact ih (List.forall_mem_cons.mpr ⟨Or.inl ⟨_, rfl⟩, h⟩)

theorem Known.inst (h : d.Known W) {trait g : String} (hg : (trait, g) ∈ W.instances) (type : Ty)
    (n : Note) : Known W { d with known := (trait, type, .var n g) :: d.known } :=
  List.forall_mem_cons.mpr ⟨Or.inr ⟨n, g, rfl, hg⟩, h⟩

/-- Names in scope are variables with a demand, globals or builtins, and dictionary parameters
demand dictionaries of their traits. -/
structure Scoped (W : World) (Δ : List (String × Demand)) (names : List String) : Prop where
  names : ∀ x ∈ names, (Δ.lookup x).isSome ∨ ¬W.Local x
  params : ∀ F k T, Δ.lookup (paramName F k) = some T → T = .dict F

namespace Scoped

theorem cons (h : Scoped W Δ names) {x : String} {S : Demand}
    (hx : ∀ F, Stands F x → S = .dict F) : Scoped W ((x, S) :: Δ) (x :: names) := by
  constructor
  · intro y hy
    rw [Assoc.lookup_cons_if]
    split_ifs with hyx
    · exact Or.inl rfl
    · exact h.names y ((List.mem_cons.mp hy).resolve_left hyx)
  · intro F k T hT
    rw [Assoc.lookup_cons_if] at hT
    split_ifs at hT with he
    · exact Option.some.inj hT ▸ hx F (he ▸ .param k)
    · exact h.params F k T hT

/-- Under the parameters of a bounded type lambda. -/
theorem append {traits ys : List String} (hn : Named traits ys) (h : Scoped W Δ names) :
    Scoped W (ys.zip (traits.map .dict) ++ Δ) (ys ++ names) := by
  induction hn with
  | nil => exact h
  | cons hy _ ih =>
    apply ih.cons
    intro F hF
    obtain ⟨k, rfl⟩ := hy
    rw [hF.trait_eq]

/-- A dictionary of the table that is in scope. -/
theorem fits_newest (hs : Scoped W Δ names) (hW : W.Sound) (hd : d.Known W) {F : String} {t : Ty}
    {e : Expr} (h : d.newest? F t = some e) (hc : e.closed names = true) :
    Expr.Fits W D k Δ e (.dict F) := by
  obtain ⟨entry, hfind, rfl⟩ := Option.map_eq_some_iff.mp h
  have hF : entry.1 = F := by
    have hmatch := List.find?_some hfind
    simp only [Bool.and_eq_true, decide_eq_true_eq] at hmatch
    exact hmatch.1
  rcases hd entry (List.mem_of_find?_eq_some hfind) with ⟨j, he⟩ | ⟨n, g, he, hg⟩
  · rw [he, hF] at hc ⊢
    have hmem : paramName F j ∈ names := of_decide_eq_true hc
    -- a parameter is no global, so it has a demand, and its name says which
    obtain ⟨T, hT⟩ := Option.isSome_iff_exists.mp
      ((hs.names _ hmem).resolve_right (not_not_intro (hW.local_paramName F j)))
    exact .var (hs.params F j T hT ▸ hT)
  · rw [he]
    exact .inst (hF ▸ hg)

/-- A function is applied to the dictionaries that it takes. -/
theorem fits_apply (hs : Scoped W Δ names) (hW : W.Sound) (hd : d.Known W) {line : Option Nat}
    {t : Ty} {traits : List String} {fn e : Expr} {T : Demand} (hT : T.isDict = false)
    (h : (apply line t fn traits).run d = .ok (e, d')) (hr : d.inReach names t traits = true)
    (hfn : Expr.Fits W D k Δ fn (.taking traits T)) : Expr.Fits W D k Δ e T := by
  induction traits generalizing fn with
  | nil =>
    obtain ⟨rfl, -⟩ := run_pure_eq_ok h
    exact hfn
  | cons trait traits ih =>
    obtain ⟨dict, d₁, hfind, happ⟩ := run_bind_eq_ok h
    obtain ⟨rfl, hnew⟩ := find_ok hfind
    obtain ⟨hdict, hrest⟩ := List.forall_mem_cons.mp (List.all_eq_true.mp hr)
    rw [hnew] at hdict
    apply ih happ (List.all_eq_true.mpr hrest)
    exact .app (S := .dict trait) (Demand.isDict_taking traits hT) hfn
      (hs.fits_newest hW hd hnew hdict)

end Scoped

end Dictionaries

namespace Expr.Fits

variable {W : World} {D : String → Shape → Prop} {k : Nat} {Δ : List (String × Demand)} {n : Note}

/-- Lambdas for dictionaries, the last trait's outermost. -/
theorem foldl_lam (hW : W.Sound) {traits ys : List String} (hn : Dictionaries.Named traits ys)
    {body : Expr} {T : Demand} (h : Fits W D k (ys.zip (traits.map .dict) ++ Δ) body T) :
    Fits W D k Δ (ys.foldl (fun b y => .lam .blank y .dictionary b) body)
      (.taking traits.reverse T) := by
  induction hn generalizing body T with
  | nil => exact h
  | @cons trait y traits ys hy _ ih =>
    obtain ⟨j, rfl⟩ := hy
    rw [List.foldl_cons, List.reverse_cons, Demand.taking, List.foldr_append]
    apply ih
    apply Fits.lam (hW.local_paramName trait j) (Dictionaries.oldName_paramName trait j k) _ h
    intro F hF
    rw [hF.trait_eq]

theorem of_fields {fs : List (String × Expr)} {ts : List (String × Ty)}
    (h : List.Forall₂ (fun f t => f.1 = t.1 ∧ Fits W D k Δ f.2 t.2.demand) fs ts) :
    Fits W D k Δ (.record n fs) (Ty.demandFields ts) := by
  have hdemand : Ty.demandFields ts =
      .ofFields ((fs.map Prod.fst).zip (ts.map fun t => t.2.demand)) := by
    rw [Ty.demandFields_eq]
    congr 1
    induction h with
    | nil => rfl
    | cons hf _ ih =>
      rw [List.map_cons, ih, ← hf.1]
      rfl
  rw [hdemand]
  apply Fits.record (by simpa using h.length_eq)
  clear hdemand
  induction h with
  | nil => simp
  | cons hf _ ih =>
    intro e S he
    rcases List.mem_cons.mp he with he | he
    · obtain ⟨rfl, rfl⟩ := Prod.mk.inj he
      exact hf.2
    · exact ih e S he

end Expr.Fits

/-- What the variables of a context demand: those that name no field are variables with a demand,
globals or builtins, and the fields of traits have the demands that the traits say. -/
structure Sees (W : World) (Γ : Context) (owners : List (String × String))
    (Δ : List (String × Demand)) : Prop where
  names : ∀ x t, Γ.lookup x = some (.term t) → Dictionaries.reserved x = false
  labels : ∀ o ∈ owners, Dictionaries.reserved o.1 = false
  vars : ∀ x t, Γ.lookup x = some (.term t) → owners.lookup x = none →
    Δ.lookup x = some t.demand ∨ W.globals.lookup x = some t.demand ∨
      ((Builtin.ofName? x).isSome ∧ t.demand = .plain)
  fields : ∀ x t F, Γ.lookup x = some (.term t) → owners.lookup x = some F →
    W.fields.lookup (F, x) = some t.inner.demand

namespace Sees

variable {W : World} {D : String → Shape → Prop} {k : Nat} {Γ : Context}
  {owners : List (String × String)} {Δ : List (String × Demand)} {names : List String}

/-- One more variable. Nothing else changes for the others. -/
theorem cons (h : Sees W Γ owners Δ) {x : String} {t : Ty} {owners' : List (String × String)}
    {Δ' : List (String × Demand)} (hx : Dictionaries.reserved x = false)
    (hlabels : ∀ o ∈ owners', Dictionaries.reserved o.1 = false)
    (ho : ∀ y, y ≠ x → owners'.lookup y = owners.lookup y)
    (hΔ : ∀ y, y ≠ x → Δ'.lookup y = Δ.lookup y)
    (hvar : owners'.lookup x = none → Δ'.lookup x = some t.demand ∨
      W.globals.lookup x = some t.demand)
    (hfield : ∀ F, owners'.lookup x = some F → W.fields.lookup (F, x) = some t.inner.demand) :
    Sees W ((x, .term t) :: Γ) owners' Δ' where
  names := by
    intro y u hy
    rw [Assoc.lookup_cons_if] at hy
    split_ifs at hy with hyx
    · exact hyx ▸ hx
    · exact h.names y u hy
  labels := hlabels
  vars := by
    intro y u hy hnone
    rw [Assoc.lookup_cons_if] at hy
    split_ifs at hy with hyx
    · obtain rfl := Entry.term.inj (Option.some.inj hy)
      subst hyx
      exact (hvar hnone).imp_right Or.inl
    · rw [ho y hyx] at hnone
      rw [hΔ y hyx]
      exact h.vars y u hy hnone
  fields := by
    intro y u F hy hF
    rw [Assoc.lookup_cons_if] at hy
    split_ifs at hy with hyx
    · obtain rfl := Entry.term.inj (Option.some.inj hy)
      subst hyx
      exact hfield F hF
    · rw [ho y hyx] at hF
      exact h.fields y u F hy hF

theorem lam (h : Sees W Γ owners Δ) {x : String} (hx : Dictionaries.reserved x = false) (t : Ty) :
    Sees W ((x, .term t) :: Γ) (Assoc.erase x owners) ((x, t.demand) :: Δ) := by
  apply h.cons hx
  · exact fun o ho => h.labels o (List.mem_of_mem_filter ho)
  · exact fun y hy => Assoc.lookup_erase_of_ne owners hy
  · exact fun y hy => by rw [Assoc.lookup_cons_if, if_neg hy]
  · exact fun _ => Or.inl (by rw [Assoc.lookup_cons_if, if_pos rfl])
  · intro F hF
    rw [Assoc.lookup_erase_self] at hF
    cases hF

theorem hide_eq (h : Sees W Γ owners Δ) (x : String) {traits ys : List String}
    (hn : Dictionaries.Named traits ys) : Expr.hide x ys owners = Assoc.erase x owners :=
  hn.hide_eq h.labels x

/-- Under a type lambda. No variable has the name of a dictionary parameter. -/
theorem tlam (h : Sees W Γ owners Δ) (x : String) {traits ys : List String}
    (hn : Dictionaries.Named traits ys) :
    Sees W ((x, .type) :: Γ) (Assoc.erase x owners) (ys.zip (traits.map .dict) ++ Δ) := by
  have hlookup : ∀ y, Dictionaries.reserved y = false →
      (ys.zip (traits.map Demand.dict) ++ Δ).lookup y = Δ.lookup y := by
    intro y hy
    induction hn with
    | nil => rfl
    | cons hz _ ih =>
      obtain ⟨j, rfl⟩ := hz
      rw [List.map_cons, List.zip_cons_cons, List.cons_append, Assoc.lookup_cons_if,
        if_neg (Dictionaries.ne_paramName hy _ j), ih]
  have hterm : ∀ y t, List.lookup y ((x, Entry.type) :: Γ) = some (.term t) →
      y ≠ x ∧ Γ.lookup y = some (.term t) := by
    intro y t hy
    rw [Assoc.lookup_cons_if] at hy
    split_ifs at hy with hyx
    · cases hy
    · exact ⟨hyx, hy⟩
  refine ⟨fun y t hy => h.names y t (hterm y t hy).2,
    fun o ho => h.labels o (List.mem_of_mem_filter ho), fun y t hy ho => ?_,
    fun y t F hy ho => ?_⟩
  · obtain ⟨hyx, hy⟩ := hterm y t hy
    rw [Assoc.lookup_erase_of_ne owners hyx] at ho
    rw [hlookup y (h.names y t hy)]
    exact h.vars y t hy ho
  · obtain ⟨hyx, hy⟩ := hterm y t hy
    rw [Assoc.lookup_erase_of_ne owners hyx] at ho
    exact h.fields y t F hy ho

theorem fits_var (h : Sees W Γ owners Δ) {n : Note} {x : String} {t : Ty}
    (hx : Γ.lookup x = some (.term t)) (ho : owners.lookup x = none) :
    Expr.Fits W D k Δ (.var n x) t.demand := by
  rcases h.vars x t hx ho with hΔ | hglobal | ⟨hb, hplain⟩
  · exact .var hΔ
  · exact .global hglobal
  · obtain ⟨b, hb⟩ := Option.isSome_iff_exists.mp hb
    rw [hplain]
    exact .builtin hb

end Sees

namespace Expr

section Dispatch

variable {W : World} {D : String → Shape → Prop} {k : Nat} {Γ : Context}
  {owners : List (String × String)} {Δ : List (String × Demand)} {names : List String}
  {d d' : Dictionaries}

theorem fits_bin {n : Note} {op : BinOp} {l r : Expr} {s t u : Ty} (hop : op.HasType s t u)
    (hadd : op = .add → s.demand = t.demand) (hl : Fits W D k Δ l s.demand)
    (hr : Fits W D k Δ r t.demand) : Fits W D k Δ (.bin n op l r) u.demand := by
  cases hop with
  | logic _ hs ht | order _ hs ht | arith _ hs ht =>
    rw [Ty.demand_of_same_name hs] at hl
    rw [Ty.demand_of_same_name ht] at hr
    exact .bin rfl (Or.inr rfl) hl hr
  | equality hop => exact .equality hop hl hr
  | sum => exact .bin (Ty.isDict_demand s) (Or.inl rfl) hl (hadd rfl ▸ hr)

/-- What is to be shown of a part of an expression. -/
def FitsBehind (W : World) (D : String → Shape → Prop) (k : Nat) (Δ : List (String × Demand))
    (names : List String) (owners : List (String × String)) (e : Expr) (S : Demand) : Prop :=
  ∀ {d d' : Dictionaries} {e' : Expr}, d.Known W →
    (e.dispatch owners).run d = .ok (e', d') → e'.closed names = true →
      Fits W D k Δ e' S ∧ d'.Known W

theorem fits_items {es es' : List Expr} {S : Demand}
    (ih : ∀ e ∈ es, FitsBehind W D k Δ names owners e S) (hd : d.Known W)
    (hc : closedItems names es' = true) (h : (dispatchItems owners es).run d = .ok (es', d')) :
    (∀ e ∈ es', Fits W D k Δ e S) ∧ d'.Known W := by
  induction es generalizing d es' with
  | nil =>
    obtain ⟨rfl, rfl⟩ := run_pure_eq_ok h
    exact ⟨by simp, hd⟩
  | cons e es ihs =>
    obtain ⟨e', d₁, he, hrest⟩ := run_bind_eq_ok h
    obtain ⟨rest, hes, rfl⟩ := run_bind_pure_eq_ok hrest
    obtain ⟨hce, hces⟩ := Bool.and_eq_true_iff.mp hc
    obtain ⟨ihe, ihes⟩ := List.forall_mem_cons.mp ih
    obtain ⟨hfit, hd₁⟩ := ihe hd he hce
    obtain ⟨hfits, hd₂⟩ := ihs ihes hd₁ hces hes
    exact ⟨List.forall_mem_cons.mpr ⟨hfit, hfits⟩, hd₂⟩

theorem fits_fields {fs fs' : List (String × Expr)} {ts : List (String × Ty)}
    (ht : FieldsHaveType Γ fs ts)
    (ih : ∀ f ∈ fs, ∀ t, HasType Γ f.2 t → FitsBehind W D k Δ names owners f.2 t.demand)
    (hd : d.Known W) (hc : closedFields names fs' = true)
    (h : (dispatchFields owners fs).run d = .ok (fs', d')) :
    List.Forall₂ (fun f t => f.1 = t.1 ∧ Fits W D k Δ f.2 t.2.demand) fs' ts ∧ d'.Known W := by
  induction fs generalizing d fs' ts with
  | nil =>
    cases ht
    obtain ⟨rfl, rfl⟩ := run_pure_eq_ok h
    exact ⟨.nil, hd⟩
  | cons f fs ihs =>
    cases ht with
    | cons hte htes =>
      obtain ⟨e', d₁, he, hrest⟩ := run_bind_eq_ok h
      obtain ⟨rest, hfs, rfl⟩ := run_bind_pure_eq_ok hrest
      obtain ⟨hce, hces⟩ := Bool.and_eq_true_iff.mp hc
      obtain ⟨ihe, ihfs⟩ := List.forall_mem_cons.mp ih
      obtain ⟨hfit, hd₁⟩ := ihe _ hte hd he hce
      obtain ⟨hfits, hd₂⟩ := ihs htes ihfs hd₁ hces hfs
      exact ⟨.cons ⟨rfl, hfit⟩ hfits, hd₂⟩

/-- Dispatch of an expression with a derivation: where the types agree on dictionaries, its result
passes them as its type demands. -/
theorem fits_dispatch (hW : W.Sound) (e : Expr) {t : Ty} (ht : HasType Γ e t)
    (hsees : Sees W Γ owners Δ) (hs : Dictionaries.Scoped W Δ names)
    (hlams : ∀ x ∈ e.lamNames, W.OwnName x) (hf : e.faithful owners = true) :
    FitsBehind W D k Δ names owners e t.demand := by
  induction e using Expr.induction generalizing Γ t owners Δ names with intro d d' e' hd h hc
  | lam n x p body ih =>
    cases ht with
    | lam hbody =>
      obtain ⟨body', hb, rfl⟩ := run_bind_pure_eq_ok h
      obtain ⟨⟨hlocal, hsource, hfree⟩, hlams⟩ := List.forall_mem_cons.mp hlams
      have hparam : ∀ S F, Dictionaries.Stands F x → S = Demand.dict F :=
        fun S F hF => absurd hF (Dictionaries.not_stands hfree F)
      obtain ⟨hfit, hd₁⟩ := ih hbody (hsees.lam hfree _) (hs.cons (hparam _)) hlams hf hd hb hc
      exact ⟨.lam hlocal (hsource.old k) (hparam _) hfit, hd₁⟩
  | tlam n x bounds body ih =>
    cases ht with
    | tlam hbody =>
      obtain ⟨dicts, d₁, body', hopen, hb, rfl⟩ := dispatch_tlam_ok h
      obtain ⟨rfl, rfl⟩ := Prod.mk.inj hopen
      -- the table keeps the names of the parameters
      have hn := Dictionaries.named_opened x bounds.reverse d
      rw [closed, closed_foldl_lam] at hc
      rw [hsees.hide_eq x hn] at hb
      obtain ⟨hfit, hd₁⟩ := ih hbody (hsees.tlam x hn) (hs.append hn) hlams hf
        (hd.opened x bounds.reverse) hb hc
      have hlams := Fits.foldl_lam hW hn hfit
      rw [List.reverse_reverse] at hlams
      exact ⟨.tlam hlams, hd₁⟩
  | cond n c y z ihc ihy ihz =>
    cases ht with
    | cond htc hty htz hst htu =>
      obtain ⟨c', d₁, hc', hrest⟩ := run_bind_eq_ok h
      obtain ⟨y', d₂, hy', hrest⟩ := run_bind_eq_ok hrest
      obtain ⟨z', hz', rfl⟩ := run_bind_pure_eq_ok hrest
      obtain ⟨hsame, hf⟩ := Bool.and_eq_true_iff.mp hf
      obtain ⟨hfc, hf⟩ := Bool.and_eq_true_iff.mp hf
      obtain ⟨hfy, hfz⟩ := Bool.and_eq_true_iff.mp hf
      obtain ⟨hcc, hc⟩ := Bool.and_eq_true_iff.mp hc
      obtain ⟨hcy, hcz⟩ := Bool.and_eq_true_iff.mp hc
      obtain ⟨hlc, hlams⟩ := List.forall_mem_append.mp hlams
      obtain ⟨hly, hlz⟩ := List.forall_mem_append.mp hlams
      obtain ⟨hfitc, hd₁⟩ := ihc htc hsees hs hlc hfc hd hc' hcc
      obtain ⟨hfity, hd₂⟩ := ihy hty hsees hs hly hfy hd₁ hy' hcy
      obtain ⟨hfitz, hd₃⟩ := ihz htz hsees hs hlz hfz hd₂ hz' hcz
      rw [Ty.demand_of_same_name hst] at hfitc
      have hbranch := of_decide_eq_true hsame
      rw [hty.demand_eq, htz.demand_eq] at hbranch
      exact ⟨.cond (Ty.isDict_demand _) hfitc hfity (hbranch ▸ hfitz), hd₃⟩
  | bin n op l r ihl ihr =>
    cases ht with
    | bin htl htr hop =>
      obtain ⟨l', d₁, hl', hrest⟩ := run_bind_eq_ok h
      obtain ⟨r', hr', rfl⟩ := run_bind_pure_eq_ok hrest
      obtain ⟨hsame, hf⟩ := Bool.and_eq_true_iff.mp hf
      obtain ⟨hfl, hfr⟩ := Bool.and_eq_true_iff.mp hf
      obtain ⟨hcl, hcr⟩ := Bool.and_eq_true_iff.mp hc
      obtain ⟨hll, hlr⟩ := List.forall_mem_append.mp hlams
      obtain ⟨hfitl, hd₁⟩ := ihl htl hsees hs hll hfl hd hl' hcl
      obtain ⟨hfitr, hd₂⟩ := ihr htr hsees hs hlr hfr hd₁ hr' hcr
      have hadd := of_decide_eq_true hsame
      rw [htl.demand_eq, htr.demand_eq] at hadd
      exact ⟨fits_bin hop hadd hfitl hfitr, hd₂⟩
  | un n op e ih =>
    cases ht with
    | un hte hop =>
      obtain ⟨e', he, rfl⟩ := run_bind_pure_eq_ok h
      obtain ⟨hfit, hd₁⟩ := ih hte hsees hs hlams hf hd he hc
      refine ⟨?_, hd₁⟩
      cases hop with
      | not hst | neg hst =>
        rw [Ty.demand_of_same_name hst] at hfit
        exact .un hfit
  | app n f a ihf iha =>
    cases ht with
    | app htf hta hdom =>
      obtain ⟨f', d₁, hf', hrest⟩ := run_bind_eq_ok h
      obtain ⟨a', ha', rfl⟩ := run_bind_pure_eq_ok hrest
      obtain ⟨hsame, hf⟩ := Bool.and_eq_true_iff.mp hf
      obtain ⟨hff, hfa⟩ := Bool.and_eq_true_iff.mp hf
      obtain ⟨hcf, hca⟩ := Bool.and_eq_true_iff.mp hc
      obtain ⟨hlf, hla⟩ := List.forall_mem_append.mp hlams
      obtain ⟨hfitf, hd₁⟩ := ihf htf hsees hs hlf hff hd hf' hcf
      obtain ⟨hfita, hd₂⟩ := iha hta hsees hs hla hfa hd₁ ha' hca
      have hdemand := of_decide_eq_true hsame
      rw [htf.demand_eq, hta.demand_eq, Ty.demand] at hdemand
      rw [(Demand.arrow_injective hdemand).1.symm] at hfita
      exact ⟨.app (Ty.isDict_demand _) hfitf hfita, hd₂⟩
  | tapp n f u ih =>
    cases ht with
    | tapp htf hu =>
      obtain ⟨hplain, hf⟩ := Bool.and_eq_true_iff.mp hf
      rw [Ty.demand_instance (of_decide_eq_true hplain) hu]
      obtain ⟨m, x, F, dict, rfl, hF, hnew, rfl, rfl⟩ | ⟨hfield, hcases⟩ := dispatch_tapp_ok h
      · refine ⟨.field (Ty.isDict_demand _) (hs.fits_newest hW hd hnew hc) ?_, hd⟩
        cases htf with
        | var hx => exact hsees.fields _ _ _ hx hF
      · rw [hfield, Option.isSome_none, Bool.false_or] at hf
        obtain ⟨hff, hset⟩ := Bool.and_eq_true_iff.mp hf
        have htaking : FitsBehind W D k Δ names owners f _ := ih htf hsees hs hlams hff
        obtain ⟨hw, f', hf', rfl⟩ | ⟨hw, happ⟩ := hcases
        · obtain ⟨hfit, hd₁⟩ := htaking hd hf' hc
          rw [htf.wanted_eq] at hw
          obtain rfl := List.isEmpty_iff.mp hw
          exact ⟨.tapp hfit, hd₁⟩
        · obtain ⟨rfl, hclosed⟩ := Dictionaries.closed_apply names happ
          rw [hclosed, closed] at hc
          obtain ⟨hcf, hreach⟩ := Bool.and_eq_true_iff.mp hc
          have hrun : (f.dispatch owners).run d' = .ok (f, d') := by
            rw [dispatch_settled f (by simpa [hw] using hset)]
            rfl
          have hfit := (htaking hd hrun hcf).1
          rw [htf.wanted_eq] at happ hreach
          exact ⟨hs.fits_apply hW hd (Ty.isDict_demand _) happ hreach (.tapp hfit), hd⟩
  | ascribe n e u ih =>
    cases ht with
    | ascribe hte hst =>
      obtain ⟨e', he, rfl⟩ := run_bind_pure_eq_ok h
      obtain ⟨hfit, hd₁⟩ := ih hte hsees hs hlams hf hd he hc
      exact ⟨.ascribe hfit, hd₁⟩
  | proj n e label ih =>
    cases ht with
    | proj hte hfield =>
      obtain ⟨e', he, rfl⟩ := run_bind_pure_eq_ok h
      obtain ⟨hfit, hd₁⟩ := ih hte hsees hs hlams hf hd he hc
      rw [← Ty.get_demandFields hfield]
      refine ⟨.proj (Ty.isDict_demand (.record none _)) ?_ hfit, hd₁⟩
      rw [Ty.get_demandFields hfield]
      exact Ty.isDict_demand _
  | var n x =>
    cases ht with
    | var hx =>
      obtain ⟨ho, rfl, rfl⟩ := dispatch_var_ok h
      exact ⟨hsees.fits_var hx ho, hd⟩
  | val n v =>
    cases ht with
    | val =>
      obtain ⟨rfl, rfl⟩ := run_pure_eq_ok h
      have hlit : (Rule.lit v).demand = .plain := by cases v <;> rfl
      rw [hlit]
      exact ⟨.val, hd⟩
  | list n es ih =>
    obtain ⟨es', hes, rfl⟩ := run_bind_pure_eq_ok h
    obtain ⟨hsame, hf⟩ := Bool.and_eq_true_iff.mp hf
    obtain ⟨S, hS, helems⟩ := ht.elements_demand (of_decide_eq_true hsame)
    have hparts : ∀ e ∈ es, FitsBehind W D k Δ names owners e S := by
      intro e he
      obtain ⟨s, hte, rfl⟩ := helems e he
      exact ih e he hte hsees hs (fun x hx => hlams x (mem_lamNamesItems.mpr ⟨e, he, hx⟩))
        (faithfulItems_iff.mp hf e he)
    obtain ⟨hfits, hd₁⟩ := fits_items hparts hd hc hes
    rw [hS]
    exact ⟨.list hfits, hd₁⟩
  | record n fs ih =>
    cases ht with
    | record htf =>
      obtain ⟨fs', hfs, rfl⟩ := run_bind_pure_eq_ok h
      have hparts : ∀ f ∈ fs, ∀ t, HasType Γ f.2 t →
          FitsBehind W D k Δ names owners f.2 t.demand := fun f hmem t hte =>
        ih f hmem hte hsees hs (fun x hx => hlams x (mem_lamNamesFields.mpr ⟨f, hmem, hx⟩))
          (faithfulFields_iff.mp hf f hmem)
      obtain ⟨hfits, hd₁⟩ := fits_fields htf hparts hd hc hfs
      exact ⟨.of_fields hfits, hd₁⟩

end Dispatch

end Expr

end TraitCalculus
