import Mathlib
import TraitCalculus.Proofs.DictionaryPassing
import TraitCalculus.Proofs.PlainPrograms

/-! Runs that pass dictionaries to their own traits. In a faithful program the types agree on
dictionaries wherever they have to be the same, and names are kept apart. If dispatch leaves it
closed, then in every run a lambda for a dictionary of a trait is only ever applied to the value of
a global that implements the trait. -/
namespace TraitCalculus

namespace Stmt

/-- The global that a statement assigns, and what it demands. -/
def global? : Stmt → Option (String × Demand)
  | assign _ x e => some (x, e.demand)
  | _ => none

/-- The field of a trait that a statement announces, and what it demands. -/
def field? : Stmt → Option ((String × String) × Demand)
  | field _ x trait type => some ((trait, x), type.inner.demand)
  | _ => none

/-- The global that a statement announces as a dictionary of a trait. -/
def instance? : Stmt → Option (String × String)
  | inst _ trait _ (.var _ g) => some (trait, g)
  | _ => none

end Stmt

/-- What a typed program says of its globals and of its traits. -/
def Program.world (p : Program Stmt) : World where
  globals := p.stmts.filterMap Stmt.global?
  fields := p.stmts.filterMap Stmt.field?
  instances := p.stmts.filterMap Stmt.instance?

/-- A record with the demand `R` has the fields of the trait. -/
def World.serves (W : World) (trait : String) (R : Demand) : Bool :=
  W.fields.all fun f => decide (f.1.1 = trait → R.get f.1.2 = f.2)

namespace Stmt

/-- Instances are globals that serve their traits, and fields are announced with one demand. -/
def announced (W : World) : Stmt → Bool
  | inst _ trait _ (.var _ g) => (W.globals.lookup g).any (W.serves trait)
  | inst .. => false
  | field _ x trait type =>
    !Dictionaries.reserved x && decide (W.fields.lookup (trait, x) = some type.inner.demand)
  | _ => true

/-- The expressions of statements are faithful, and no assignment hides a field. -/
def faithfulAll (owners : List (String × String)) : List Stmt → Bool
  | [] => true
  | assign _ x e :: ss =>
    (owners.lookup x).isNone && (e.faithful owners && faithfulAll owners ss)
  | eval _ e :: ss => e.faithful owners && faithfulAll owners ss
  | inst .. :: ss => faithfulAll owners ss
  | field _ x trait _ :: ss => faithfulAll (Assoc.insert x trait owners) ss

end Stmt

namespace Program

/-- A typed program whose names are kept apart: it assigns no global twice and no builtin, and a
parameter is neither a global nor a builtin. What it announces is consistent, and wherever two of
its types have to be the same, they agree on dictionaries. -/
structure Faithful (p : Program Stmt) : Prop where
  once : (Stmt.globals p.stmts).Nodup
  builtins : ∀ x ∈ Stmt.globals p.stmts, Builtin.ofName? x = none
  params : ∀ x ∈ p.lamNames, x ∉ Stmt.globals p.stmts ∧ Builtin.ofName? x = none
  unreserved : ∀ x ∈ Stmt.globals p.stmts ++ p.lamNames, Dictionaries.reserved x = false
  generated : "__x" ∉ Stmt.globals p.stmts ∧ "__xs" ∉ Stmt.globals p.stmts
  announced : ∀ s ∈ p.stmts, s.announced p.world = true
  exprs : Stmt.faithfulAll [] p.stmts = true

instance (p : Program Stmt) : Decidable p.Faithful :=
  decidable_of_iff ((Stmt.globals p.stmts).Nodup ∧
      (∀ x ∈ Stmt.globals p.stmts, Builtin.ofName? x = none) ∧
      (∀ x ∈ p.lamNames, x ∉ Stmt.globals p.stmts ∧ Builtin.ofName? x = none) ∧
      (∀ x ∈ Stmt.globals p.stmts ++ p.lamNames, Dictionaries.reserved x = false) ∧
      ("__x" ∉ Stmt.globals p.stmts ∧ "__xs" ∉ Stmt.globals p.stmts) ∧
      (∀ s ∈ p.stmts, s.announced p.world = true) ∧ Stmt.faithfulAll [] p.stmts = true)
    ⟨fun ⟨h₁, h₂, h₃, h₄, h₅, h₆, h₇⟩ => ⟨h₁, h₂, h₃, h₄, h₅, h₆, h₇⟩,
      fun h => ⟨h.once, h.builtins, h.params, h.unreserved, h.generated, h.announced, h.exprs⟩⟩

end Program

namespace Expr

theorem lamNames_bare (e : Expr) : e.bare.lamNames = e.lamNames := by
  induction e using Expr.induction with
  | lam n x p body ih
  | tlam n x bounds body ih
  | un n op e ih
  | tapp n f t ih
  | ascribe n e t ih
  | proj n e label ih => rw [bare, lamNames, ih, lamNames]
  | cond n c y z ihc ihy ihz => rw [bare, lamNames, ihc, ihy, ihz, lamNames]
  | bin n op l r ihl ihr | app n f a ihl ihr => rw [bare, lamNames, ihl, ihr, lamNames]
  | var n x => rfl
  | val n v => rfl
  | list n es ih =>
    rw [bare, lamNames, lamNames]
    induction es with
    | nil => rfl
    | cons e es ihs =>
      obtain ⟨he, hes⟩ := List.forall_mem_cons.mp ih
      rw [bareItems, lamNamesItems, he, ihs hes, lamNamesItems]
  | record n fs ih =>
    rw [bare, lamNames, lamNames]
    induction fs with
    | nil => rfl
    | cons f fs ihs =>
      obtain ⟨he, hes⟩ := List.forall_mem_cons.mp ih
      rw [bareFields, lamNamesFields, he, ihs hes, lamNamesFields]

/-- Type arguments bring no lambdas. -/
theorem lamNames_inserted {e e' : Expr} (h : Inserted e e') : e'.lamNames = e.lamNames := by
  induction e using Expr.induction generalizing e' with
  | lam n x p body ih =>
    cases h with
    | lam hb => rw [lamNames, ih hb, lamNames]
  | tlam n x bounds body ih =>
    cases h with
    | tlam hb => rw [lamNames, ih hb, lamNames]
  | cond n c y z ihc ihy ihz =>
    cases h with
    | cond hc hy hz => rw [lamNames, ihc hc, ihy hy, ihz hz, lamNames]
  | bin n op l r ihl ihr =>
    cases h with
    | bin hl hr => rw [lamNames, ihl hl, ihr hr, lamNames]
  | un n op e ih =>
    cases h with
    | un he => rw [lamNames, ih he, lamNames]
  | app n f a ihf iha =>
    cases h with
    | app hf ha => rw [lamNames, ihf hf, iha ha, lamNames]
    | @insert _ _ f' _ a' _ hf ha =>
      show f'.lamNames ++ a'.lamNames = _
      rw [ihf hf, iha ha, lamNames]
  | tapp n f t ih =>
    cases h with
    | tapp hf => rw [lamNames, ih hf, lamNames]
  | ascribe n e t ih =>
    cases h with
    | ascribe he => rw [lamNames, ih he, lamNames]
  | proj n e label ih =>
    cases h with
    | proj he => rw [lamNames, ih he, lamNames]
  | var n x | val n v =>
    cases h
    rfl
  | list n es ih =>
    cases h with
    | @list _ _ es' hes =>
      rw [lamNames, lamNames]
      induction es generalizing es' with
      | nil =>
        cases hes
        rfl
      | cons e es ihs =>
        cases hes with
        | cons he hes =>
          obtain ⟨ihe, ihes⟩ := List.forall_mem_cons.mp ih
          rw [lamNamesItems, ihe he, ihs ihes hes, lamNamesItems]
  | record n fs ih =>
    cases h with
    | @record _ _ fs' hfs =>
      rw [lamNames, lamNames]
      induction fs generalizing fs' with
      | nil =>
        cases hfs
        rfl
      | cons f fs ihs =>
        cases hfs with
        | cons he hfs =>
          obtain ⟨ihe, ihfs⟩ := List.forall_mem_cons.mp ih
          rw [lamNamesFields, ihe he, ihs ihfs hfs, lamNamesFields]

end Expr

/-- Typing keeps the names of globals and of lambdas. -/
theorem Stmt.names_inserted {ss ss' : List Stmt} (h : List.Forall₂ Stmt.Inserted ss ss') :
    globals ss' = globals ss ∧ ss'.flatMap lamNames = ss.flatMap lamNames := by
  induction h with
  | nil => exact ⟨rfl, rfl⟩
  | @cons s s' ss ss' hs _ ih =>
    obtain ⟨hglobals, hlams⟩ := ih
    simp only [globals] at hglobals
    simp only [globals, List.flatMap_cons, List.filterMap_cons, hglobals, hlams]
    cases hs with
    | @assign line x e e' he | @eval line e e' he =>
      refine ⟨rfl, congrArg (· ++ _) ?_⟩
      calc
        e'.lamNames = e'.bare.lamNames := (Expr.lamNames_bare e').symm
        _ = e.bare.lamNames := Expr.lamNames_inserted he
        _ = e.lamNames := Expr.lamNames_bare e
    | inst | field => exact ⟨rfl, rfl⟩

namespace Program

/-- The globals and lambdas of a typed text have names of a text. -/
theorem source_inferText {code : String} {q : Program Stmt} (h : inferText code = .ok q) :
    ∀ x ∈ Stmt.globals q.stmts ++ q.lamNames, SourceName x := by
  obtain ⟨p, drawn, st, hr, hi⟩ := exists_infer_of_inferText h
  obtain ⟨hglobals, hlams⟩ := Stmt.names_inserted (infer_sound hr hi).2.1
  have hsource := within_resolveText hr
  rw [hglobals, lamNames, hlams]
  intro x hx
  rcases List.mem_append.mp hx with hx | hx
  · obtain ⟨s, hs, hx⟩ := List.mem_filterMap.mp hx
    exact (hsource s hs).2 x (Stmt.mem_termNames_of_assigned hx)
  · obtain ⟨s, hs, hx⟩ := List.mem_flatMap.mp hx
    exact (hsource s hs).2 x (s.lamNames_subset_termNames x hx)

theorem map_fst_globals (p : Program Stmt) :
    p.world.globals.map Prod.fst = Stmt.globals p.stmts := by
  simp only [world, Stmt.globals, List.map_filterMap]
  congr 1
  funext s
  cases s <;> rfl

theorem exists_inst {p : Program Stmt} {F g : String} (h : (F, g) ∈ p.world.instances) :
    ∃ line type n, Stmt.inst line F type (.var n g) ∈ p.stmts := by
  obtain ⟨s, hs, hinst⟩ := List.mem_filterMap.mp h
  unfold Stmt.instance? at hinst
  split at hinst
  · obtain ⟨rfl, rfl⟩ := Prod.mk.inj (Option.some.inj hinst)
    exact ⟨_, _, _, hs⟩
  · cases hinst

theorem lookup_world_globals {p : Program Stmt} (honce : (Stmt.globals p.stmts).Nodup) {line : Nat}
    {x : String} {e : Expr} (h : .assign line x e ∈ p.stmts) :
    p.world.globals.lookup x = some e.demand := by
  have hmem : (x, e.demand) ∈ p.world.globals := List.mem_filterMap.mpr ⟨_, h, rfl⟩
  rw [← map_fst_globals] at honce
  exact Assoc.lookup_of_mem honce hmem

end Program

theorem World.serves_iff {W : World} {trait : String} {R : Demand}
    (h : W.serves trait R = true) : W.Serves trait R := by
  intro label S hS
  obtain ⟨l₁, l₂, hfields, -⟩ := List.lookup_eq_some_iff.mp hS
  have hmem : ((trait, label), S) ∈ W.fields := by simp [hfields]
  exact of_decide_eq_true (List.all_eq_true.mp h _ hmem) rfl

namespace Program.Faithful

variable {q : Program Stmt} (hq : q.Faithful)
include hq

theorem sound (hsource : ∀ x ∈ Stmt.globals q.stmts ++ q.lamNames, SourceName x) :
    q.world.Sound where
  names := by
    rw [map_fst_globals]
    exact fun x hx => ⟨hsource x (List.mem_append_left _ hx), hq.builtins x hx⟩
  params := by
    rw [map_fst_globals]
    exact fun x hx => hq.unreserved x (List.mem_append_left _ hx)
  generated := by
    rw [map_fst_globals]
    exact hq.generated
  values := by
    intro x S hS
    obtain ⟨s, -, hs⟩ := List.mem_filterMap.mp (Assoc.mem_of_lookup hS)
    cases s with
    | assign line y e =>
      obtain ⟨-, rfl⟩ := Prod.mk.inj (Option.some.inj hs)
      unfold Expr.demand
      cases e.type? with
      | none => rfl
      | some t => exact t.isDict_demand
    | _ => cases hs
  instances := by
    intro F g hg
    obtain ⟨line, type, n, hs⟩ := exists_inst hg
    obtain ⟨R, hR, hserves⟩ := (Option.any_eq_true _ _).mp (hq.announced _ hs)
    exact ⟨R, hR, World.serves_iff hserves⟩

theorem ownName (hsource : ∀ x ∈ Stmt.globals q.stmts ++ q.lamNames, SourceName x) {s : Stmt}
    (hs : s ∈ q.stmts) : ∀ x ∈ s.lamNames, q.world.OwnName x := by
  intro x hx
  have hmem : x ∈ q.lamNames := List.mem_flatMap.mpr ⟨s, hs, hx⟩
  obtain ⟨hglobal, hbuiltin⟩ := hq.params x hmem
  refine ⟨?_, hsource x (List.mem_append_right _ hmem),
    hq.unreserved x (List.mem_append_right _ hmem)⟩
  rintro (h | h)
  · rw [map_fst_globals] at h
    exact hglobal h
  · rw [hbuiltin] at h
    cases h

end Program.Faithful

namespace Sees

variable {W : World} {Γ : Context} {owners : List (String × String)}

theorem builtins (W : World) : Sees W Context.builtins [] [] := by
  have hterm : ∀ x t, Context.builtins.lookup x = some (.term t) →
      ∃ b : Builtin, b.name = x ∧ b.type = t := by
    intro x t hx
    obtain ⟨b, -, he⟩ := List.mem_map.mp (Assoc.mem_of_lookup hx)
    obtain ⟨hname, htype⟩ := Prod.mk.inj he
    exact ⟨b, hname, Entry.term.inj htype⟩
  refine ⟨fun x t hx => ?_, by simp, fun x t hx _ => ?_, by simp⟩
  · obtain ⟨b, rfl, -⟩ := hterm x t hx
    exact b.reserved_name
  · obtain ⟨b, rfl, rfl⟩ := hterm x t hx
    exact Or.inr (Or.inr ⟨by rw [b.ofName?_name]; rfl, b.demand_type⟩)

/-- Behind an assignment that hides no field. -/
theorem assign (h : Sees W Γ owners []) {x : String} {t : Ty}
    (hx : Dictionaries.reserved x = false) (ho : owners.lookup x = none)
    (hg : W.globals.lookup x = some t.demand) : Sees W ((x, .term t) :: Γ) owners [] := by
  apply h.cons hx h.labels (fun _ _ => rfl) (fun _ _ => rfl) (fun _ => Or.inr hg)
  intro F hF
  rw [ho] at hF
  cases hF

/-- Behind the announcement of a trait's field. -/
theorem field (h : Sees W Γ owners []) {x trait : String} {t : Ty}
    (hx : Dictionaries.reserved x = false)
    (hf : W.fields.lookup (trait, x) = some t.inner.demand) :
    Sees W ((x, .term t) :: Γ) (Assoc.insert x trait owners) [] := by
  apply h.cons hx
  · intro o ho
    rcases Assoc.mem_insert ho with rfl | ho
    · exact hx
    · exact h.labels o ho
  · exact fun y hy => Assoc.lookup_insert_of_ne trait owners hy
  · exact fun y _ => rfl
  · intro hnone
    rw [Assoc.lookup_insert_self] at hnone
    cases hnone
  · intro F hF
    rw [Assoc.lookup_insert_self] at hF
    exact Option.some.inj hF ▸ hf

end Sees

theorem Dictionaries.Scoped.builtins (W : World) :
    Dictionaries.Scoped W [] (Builtin.all.map Builtin.name) := by
  refine ⟨fun x hx => ?_, fun F k T hT => nomatch hT⟩
  obtain ⟨b, -, rfl⟩ := List.mem_map.mp hx
  exact Or.inr (World.taken_of_builtin b.ofName?_name)

theorem Assoc.erase_eq_self {α : Type} {x : String} {xs : List (String × α)}
    (h : xs.lookup x = none) : erase x xs = xs := by
  apply List.filter_eq_self.mpr
  intro p hp
  have hne : x ≠ p.1 := by simpa using List.lookup_eq_none_iff.mp h p hp
  exact decide_eq_true hne.symm

namespace Stmt

/-- The statement's expression passes dictionaries where they are demanded, and is assigned to a
global of its demand. -/
def Fits (W : World) : Stmt → Prop
  | assign _ x e => ∃ S, W.globals.lookup x = some S ∧ ∀ D k, Expr.Fits W D k [] e S
  | eval _ e => ∃ S, ∀ D k, Expr.Fits W D k [] e S
  | _ => True

section Dispatch

variable {owners : List (String × String)} {d d' : Dictionaries} {done ss ss' : List Stmt}

theorem dispatchAll_append (h : (dispatchAll owners done ss).run d = .ok (ss', d')) :
    ∃ new, ss' = done.reverse ++ new := by
  induction ss generalizing owners d done with
  | nil =>
    obtain ⟨rfl, rfl⟩ := run_pure_eq_ok h
    exact ⟨[], by simp⟩
  | cons s ss ih =>
    have hrest : ∃ s' owners' d₁, (dispatchAll owners' (s' :: done) ss).run d₁ = .ok (ss', d') := by
      cases s with
      | assign | eval | inst =>
        obtain ⟨_, d₁, -, hrest⟩ := run_bind_eq_ok h
        exact ⟨_, _, d₁, hrest⟩
      | field => exact ⟨_, _, d, h⟩
    obtain ⟨s', owners', d₁, hrest⟩ := hrest
    obtain ⟨new, rfl⟩ := ih hrest
    exact ⟨s' :: new, by simp⟩

/-- A statement that is done stands before the rest. -/
theorem exists_rest {s : Stmt} {new : List Stmt}
    (h : (dispatchAll owners (s :: done) ss).run d = .ok (done.reverse ++ new, d')) :
    ∃ rest, new = s :: rest ∧
      (dispatchAll owners (s :: done) ss).run d = .ok ((s :: done).reverse ++ rest, d') := by
  obtain ⟨rest, hrest⟩ := dispatchAll_append h
  refine ⟨rest, ?_, hrest ▸ h⟩
  rw [List.reverse_cons, List.append_assoc] at hrest
  exact List.append_cancel_left hrest

/-- Dispatch of the statements of a faithful program, in order. -/
theorem fitsAll {q : Program Stmt} (hq : q.Faithful)
    (hsource : ∀ x ∈ globals q.stmts ++ q.lamNames, SourceName x) {Γ : Context}
    {names : List String} {new : List Stmt} (hsub : ∀ s ∈ ss, s ∈ q.stmts)
    (ht : StmtsHaveTypes Γ ss) (hsees : Sees q.world Γ owners [])
    (hs : Dictionaries.Scoped q.world [] names) (hf : faithfulAll owners ss = true)
    (hd : d.Known q.world) (h : (dispatchAll owners done ss).run d = .ok (done.reverse ++ new, d'))
    (hc : closedAll names new = true) :
    globals new = globals ss ∧ ∀ s ∈ new, s.Fits q.world := by
  have hW := hq.sound hsource
  induction ss generalizing Γ owners names d done new with
  | nil =>
    obtain ⟨hnew, -⟩ := run_pure_eq_ok h
    obtain rfl : new = [] := by simpa using hnew
    exact ⟨rfl, by simp⟩
  | cons s ss ih =>
    obtain ⟨hmem, hmems⟩ := List.forall_mem_cons.mp hsub
    have hlams := hq.ownName hsource hmem
    have hannounced := hq.announced s hmem
    cases ht with
    | @assign _ line x e t _ hte hts =>
      obtain ⟨ho, hf⟩ := Bool.and_eq_true_iff.mp hf
      obtain ⟨hfe, hf⟩ := Bool.and_eq_true_iff.mp hf
      have ho : owners.lookup x = none := Option.isNone_iff_eq_none.mp ho
      obtain ⟨e', d₁, he, hrest⟩ := run_bind_eq_ok h
      rw [Assoc.erase_eq_self ho] at he hrest
      obtain ⟨rest, rfl, hdone⟩ := exists_rest hrest
      obtain ⟨hce, hc⟩ := Bool.and_eq_true_iff.mp hc
      have hglobal : q.world.globals.lookup x = some t.demand := by
        rw [Program.lookup_world_globals hq.once hmem, hte.demand_eq]
      have hfree : Dictionaries.reserved x = false :=
        hq.unreserved x (List.mem_append_left _ (List.mem_filterMap.mpr ⟨_, hmem, rfl⟩))
      have hscope : Dictionaries.Scoped q.world [] (x :: names) :=
        ⟨List.forall_mem_cons.mpr ⟨Or.inr (World.taken_of_lookup hglobal), hs.names⟩, hs.params⟩
      have hfits (D : String → Shape → Prop) (k : Nat) :=
        e.fits_dispatch (D := D) (k := k) hW hte hsees hscope hlams hfe hd he hce
      obtain ⟨hglobals, hall⟩ := ih hmems hts (hsees.assign hfree ho hglobal) hscope hf
        (hfits (fun _ _ => False) 0).2 hdone hc
      exact ⟨congrArg (x :: ·) hglobals,
        List.forall_mem_cons.mpr ⟨⟨_, hglobal, fun D k => (hfits D k).1⟩, hall⟩⟩
    | @eval _ line e t _ hte hts =>
      obtain ⟨hfe, hf⟩ := Bool.and_eq_true_iff.mp hf
      obtain ⟨e', d₁, he, hrest⟩ := run_bind_eq_ok h
      obtain ⟨rest, rfl, hdone⟩ := exists_rest hrest
      obtain ⟨hce, hc⟩ := Bool.and_eq_true_iff.mp hc
      have hfits (D : String → Shape → Prop) (k : Nat) :=
        e.fits_dispatch (D := D) (k := k) hW hte hsees hs hlams hfe hd he hce
      obtain ⟨hglobals, hall⟩ := ih hmems hts hsees hs hf (hfits (fun _ _ => False) 0).2 hdone hc
      exact ⟨hglobals, List.forall_mem_cons.mpr ⟨⟨_, fun D k => (hfits D k).1⟩, hall⟩⟩
    | @inst _ line trait type dict _ hts =>
      obtain ⟨_, d₁, hadd, hrest⟩ := run_bind_eq_ok h
      obtain ⟨-, rfl⟩ := Prod.mk.inj (Except.ok.inj hadd)
      obtain ⟨rest, rfl, hdone⟩ := exists_rest hrest
      -- what is announced is a global, and it serves the trait
      have hknown : Dictionaries.Known q.world
          { d with known := (trait, type, dict) :: d.known } := by
        cases dict with
        | var n g => exact hd.inst (List.mem_filterMap.mpr ⟨_, hmem, rfl⟩) type n
        | _ => cases hannounced
      obtain ⟨hglobals, hall⟩ := ih hmems hts hsees hs hf hknown hdone hc
      exact ⟨hglobals, List.forall_mem_cons.mpr ⟨trivial, hall⟩⟩
    | @field _ line x trait type _ hts =>
      obtain ⟨rest, rfl, hdone⟩ := exists_rest h
      obtain ⟨hfree, hdemand⟩ := Bool.and_eq_true_iff.mp hannounced
      have hscope : Dictionaries.Scoped q.world [] (names.filter (· ≠ x)) :=
        ⟨fun y hy => hs.names y (List.mem_of_mem_filter hy), hs.params⟩
      obtain ⟨hglobals, hall⟩ := ih hmems hts
        (hsees.field (by simpa using hfree) (of_decide_eq_true hdemand)) hscope hf hd hdone hc
      exact ⟨hglobals, List.forall_mem_cons.mpr ⟨trivial, hall⟩⟩

end Dispatch

end Stmt

/-- A call of a lambda: the globals at its time, the parameter and the evaluated argument. -/
structure Call where
  globals : List (String × Expr)
  param : String
  arg : Expr

namespace Stmt

/-- The calls while a statement is run. -/
def calls (fuel : Nat) (m : Machine) (s : Stmt) : List Call :=
  s.expr?.elim [] fun e => (e.2.calls e.1 fuel m).map fun c => ⟨m.globals, c.1, c.2⟩

/-- The calls while statements are run in order, until one fails. -/
def callsAll (fuel : Nat) : Machine → List Stmt → List Call
  | _, [] => []
  | m, s :: ss => s.calls fuel m ++ (s.run fuel).after m fun _ m => callsAll fuel m ss

end Stmt

/-- All calls of lambdas while a program is run on an input. -/
def Program.calls (fuel : Nat) (input : String) (p : Program Stmt) : List Call :=
  Stmt.callsAll fuel { input := inputLines input } p.stmts

/-- A new global with its demand. The globals that hold dictionaries stay as they are. -/
theorem World.Holds.assign {W : World} {m : Machine} {x : String} {v : Expr} {S : Demand}
    (hm : W.Holds m) (hx : m.globals.lookup x = none) (hS : W.globals.lookup x = some S)
    (hv : W.Fit m v S) (hr : (v.shape []).Reduced) :
    W.Holds { m with globals := Assoc.insert x v m.globals } := by
  have hold : ∀ y u, m.globals.lookup y = some u →
      (Assoc.insert x v m.globals).lookup y = some u := by
    intro y u hy
    have hyx : y ≠ x := by
      rintro rfl
      rw [hx] at hy
      cases hy
    rw [Assoc.lookup_insert_of_ne v m.globals hyx, hy]
  have hstill : ∀ {u : Expr} {T : Demand}, W.Fit m u T →
      W.Fit { m with globals := Assoc.insert x v m.globals } u T := by
    intro u T hu
    apply Expr.Fits.mono hu le_rfl
    rintro F s ⟨g, w, hg, hw, rfl⟩
    exact ⟨g, w, hg, hold g w hw, rfl⟩
  constructor
  · intro y u hy
    by_cases hyx : y = x
    · rw [hyx, Assoc.lookup_insert_self] at hy
      obtain rfl := Option.some.inj hy
      exact ⟨S, hyx ▸ hS, hstill hv⟩
    · rw [Assoc.lookup_insert_of_ne v m.globals hyx] at hy
      obtain ⟨T, hT, hu⟩ := hm.fits y u hy
      exact ⟨T, hT, hstill hu⟩
  · intro y u hy
    by_cases hyx : y = x
    · rw [hyx, Assoc.lookup_insert_self] at hy
      exact Option.some.inj hy ▸ hr
    · rw [Assoc.lookup_insert_of_ne v m.globals hyx] at hy
      exact hm.reduced y u hy

namespace Stmt

section Runs

variable {W : World} {fuel : Nat} {m m' : Machine} {s : Stmt}

/-- One statement, which assigns a new global. -/
theorem holds_run (hW : W.Sound) (hm : W.Holds m) (hs : s.Fits W)
    (hnew : ∀ x, s.assigned? = some x → m.globals.lookup x = none) {text : String}
    (h : (s.run fuel).run m = .ok text m') : W.Holds m' ∧
      ∀ y, s.assigned? ≠ some y → m'.globals.lookup y = m.globals.lookup y := by
  cases s with
  | assign line x e =>
    obtain ⟨S, hS, hfits⟩ := hs
    obtain ⟨v, m₁, hv, rfl⟩ := run_assign_ok h
    obtain ⟨hfit, hl, hm₁⟩ := Expr.fit_eval hW hm (hfits _ _) hv
    have hx : m₁.globals.lookup x = none := by
      rw [hl.globals]
      exact hnew x rfl
    refine ⟨hm₁.assign hx hS hfit (Expr.reduced_of_eval hv hm.reduced).1, fun y hy => ?_⟩
    have hyx : y ≠ x := fun he => hy (congrArg some he.symm)
    show (Assoc.insert x v m₁.globals).lookup y = _
    rw [Assoc.lookup_insert_of_ne v m₁.globals hyx, hl.globals]
  | eval line e =>
    obtain ⟨S, hfits⟩ := hs
    obtain ⟨v, hv⟩ := run_eval_ok h
    obtain ⟨-, hl, hm₁⟩ := Expr.fit_eval hW hm (hfits _ _) hv
    exact ⟨hm₁, fun y _ => by rw [hl.globals]⟩
  | inst line trait type dict | field line x trait type =>
    obtain ⟨-, rfl⟩ := EStateM.Result.ok.inj h
    exact ⟨hm, fun _ _ => rfl⟩

theorem supplied_calls (hW : W.Sound) (hm : W.Holds m) (hs : s.Fits W) :
    ∀ c ∈ s.calls fuel m, W.Supplied c.globals (c.param, c.arg) := by
  have hall : ∀ line e, s.expr? = some (line, e) → ∃ S, W.Fit m e S := by
    intro line e he
    cases s with
    | assign l x e' =>
      obtain ⟨-, rfl⟩ := Prod.mk.inj (Option.some.inj he)
      obtain ⟨S, -, hfits⟩ := hs
      exact ⟨S, hfits _ _⟩
    | eval l e' =>
      obtain ⟨-, rfl⟩ := Prod.mk.inj (Option.some.inj he)
      obtain ⟨S, hfits⟩ := hs
      exact ⟨S, hfits _ _⟩
    | inst | field => cases he
  intro c hc
  unfold calls at hc
  cases he : s.expr? with
  | none =>
    rw [he] at hc
    cases hc
  | some e =>
    rw [he] at hc
    obtain ⟨call, hcall, rfl⟩ := List.mem_map.mp hc
    obtain ⟨S, hfit⟩ := hall e.1 e.2 he
    exact Expr.supplies hW e.1 fuel hm hfit call hcall

/-- Statements in a row, each of which assigns a new global. -/
theorem supplied_callsAll (hW : W.Sound) {ss : List Stmt} (hm : W.Holds m)
    (hss : ∀ s ∈ ss, s.Fits W) (honce : (globals ss).Nodup)
    (hnew : ∀ x ∈ globals ss, m.globals.lookup x = none) :
    ∀ c ∈ callsAll fuel m ss, W.Supplied c.globals (c.param, c.arg) := by
  induction ss generalizing m with
  | nil => exact fun c hc => nomatch hc
  | cons s ss ih =>
    obtain ⟨hs, hss⟩ := List.forall_mem_cons.mp hss
    refine List.forall_mem_append.mpr ⟨supplied_calls hW hm hs, fun c hc => ?_⟩
    obtain ⟨text, m₁, hrun, hc⟩ := Eval.mem_after.mp hc
    have hglobals : globals (s :: ss) = s.assigned?.toList ++ globals ss := by
      cases s <;> rfl
    rw [hglobals] at honce hnew
    obtain ⟨hm₁, hkeep⟩ := holds_run hW hm hs
      (fun x hx => hnew x (by simp [hx])) hrun
    refine ih hm₁ hss honce.of_append_right (fun x hx => ?_) c hc
    -- the statement's own global is none of those to come
    have hne : s.assigned? ≠ some x := fun he =>
      List.disjoint_of_nodup_append honce (by simp [he]) hx
    rw [hkeep x hne]
    exact hnew x (List.mem_append_right _ hx)

end Runs

end Stmt

namespace Program

/-- In every run of a faithful program that dispatch leaves closed, a lambda for a dictionary of a
trait is applied to the value of a global that implements the trait, up to the names of bound
variables. -/
theorem calls_supplied {code : String} {q r : Program Stmt} (hi : inferText code = .ok q)
    (hq : q.Faithful) (hd : q.dispatch = .ok r) (hc : r.closed = true) (fuel : Nat)
    (input : String) :
    ∀ c ∈ r.calls fuel input, ∀ F, Dictionaries.Stands F c.param →
      ∃ line type n g v, Stmt.inst line F type (.var n g) ∈ q.stmts ∧
        c.globals.lookup g = some v ∧ c.arg.shape [] = v.shape [] := by
  obtain ⟨p, drawn, st, hr, hinfer⟩ := exists_infer_of_inferText hi
  have hsource := source_inferText hi
  have hW := hq.sound hsource
  obtain ⟨d, hss⟩ := exists_dispatchAll_of_dispatch hd
  have hknown : Dictionaries.Known q.world {} := fun entry hentry => nomatch hentry
  obtain ⟨hglobals, hfits⟩ := Stmt.fitsAll hq hsource (fun s hs => hs) (infer_sound hr hinfer).1
    (.builtins q.world) (.builtins q.world) hq.exprs hknown hss hc
  have hm : q.world.Holds { input := inputLines input } :=
    ⟨fun x v hx => (nomatch hx), fun x v hx => (nomatch hx)⟩
  intro c hcall F hparam
  obtain ⟨g, v, hg, hv, hshape⟩ := Stmt.supplied_callsAll hW hm hfits (hglobals ▸ hq.once)
    (fun x _ => rfl) c hcall F hparam
  obtain ⟨line, type, n, hs⟩ := exists_inst hg
  exact ⟨line, type, n, g, v, hs, hv, hshape.symm⟩

/-- A function with two bounds is handed to another one, whose type names them. -/
def handedSample : String :=
  "trait Show a \x7bshow: a -> String;\x7d\n" ++ "trait Eq a \x7beq: a -> a -> Bool;\x7d\n" ++
    "impl Show for Int \x7bshow = int_to_string;\x7d\n" ++
    "impl Eq for Int \x7beq = \\x: Int. \\y: Int. x == y;\x7d\n" ++
    "both = \\a impl Show + Eq. \\x: a. \\y: a. if eq @a x y then show @a x else \"no\";\n" ++
    "use = \\h: (forall a impl Show + Eq. a -> a -> String). h @Int 5 5;\n" ++ "s = use both;\n"

theorem calls_supplied_handed : ∃ q r, inferText handedSample = .ok q ∧ q.Faithful ∧
    q.dispatch = .ok r ∧ r.closed = true ∧ ∃ c ∈ r.calls 30 "",
      c.param = Dictionaries.paramName "Eq" 1 ∧
        ∃ line type n g v, Stmt.inst line "Eq" type (.var n g) ∈ q.stmts ∧
          c.globals.lookup g = some v ∧ c.arg.shape [] = v.shape [] := by
  have hrun : ((inferText handedSample).toOption.any fun q => decide q.Faithful &&
      q.dispatch.toOption.any fun r => r.closed &&
        (r.calls 30 "").any fun c => decide (c.param = Dictionaries.paramName "Eq" 1)) = true := by
    decide +kernel
  obtain ⟨q, hi, hrun⟩ := exists_of_any_toOption hrun
  obtain ⟨hfaithful, hrun⟩ := Bool.and_eq_true_iff.mp hrun
  have hfaithful : q.Faithful := of_decide_eq_true hfaithful
  obtain ⟨r, hd, hrun⟩ := exists_of_any_toOption hrun
  obtain ⟨hclosed, hcall⟩ := Bool.and_eq_true_iff.mp hrun
  obtain ⟨c, hc, hparam⟩ := List.any_eq_true.mp hcall
  have hparam := of_decide_eq_true hparam
  exact ⟨q, r, hi, hfaithful, hd, hclosed, c, hc, hparam,
    calls_supplied hi hfaithful hd hclosed 30 "" c hc "Eq" (hparam ▸ .param 1)⟩

/-- A function with a bound is handed to another one, whose type leaves the bound out: the types
count as the same, but no dictionary is passed. -/
def aliasSample : String :=
  "trait Show a \x7bshow: a -> String;\x7d\n" ++
    "impl Show for Int \x7bshow = int_to_string;\x7d\n" ++
    "f = \\a impl Show. \\x: a. show @a x;\n" ++
    "g = \\h: (forall a. a -> String). h @Int 5;\n" ++ "y = g f;\n"

theorem calls_unsupplied : ∃ q r, inferText aliasSample = .ok q ∧ q.dispatch = .ok r ∧
    r.closed = true ∧ ∃ c ∈ r.calls 30 "",
      c.param = Dictionaries.paramName "Show" 1 ∧ ∃ n, c.arg = .val n (.int 5) := by
  have hrun : ((inferText aliasSample).toOption.any fun q => q.dispatch.toOption.any fun r =>
      r.closed && (r.calls 30 "").any fun c => decide (c.param = Dictionaries.paramName "Show" 1) &&
        decide ((c.arg.shape []).lit? = some (.int 5))) = true := by
    decide +kernel
  obtain ⟨q, hi, hrun⟩ := exists_of_any_toOption hrun
  obtain ⟨r, hd, hrun⟩ := exists_of_any_toOption hrun
  obtain ⟨hclosed, hcall⟩ := Bool.and_eq_true_iff.mp hrun
  obtain ⟨c, hc, hboth⟩ := List.any_eq_true.mp hcall
  obtain ⟨hparam, harg⟩ := Bool.and_eq_true_iff.mp hboth
  exact ⟨q, r, hi, hd, hclosed, c, hc, of_decide_eq_true hparam,
    Expr.lit?_shape_iff.mp (of_decide_eq_true harg)⟩

end Program

end TraitCalculus
