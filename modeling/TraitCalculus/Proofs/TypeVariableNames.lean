import Mathlib
import TraitCalculus.Proofs.Places
import TraitCalculus.Proofs.Relabelling

/-! The name of a type lambda's variable. If the variable is called otherwise, by a name that
occurs nowhere, the program is accepted as before, or the one that is not accepted has a fault of
names only. This needs that the old name is not captured: where a type lambda binds it, nothing in
scope may have it in its type. -/
namespace TraitCalculus

/-- All names are as on the other side. -/
structure Naming.Plain (ν : Naming) : Prop where
  types : ∀ y, ν.types y = y
  hidden : ν.hidden = []

namespace Naming.Plain

variable {ν : Naming}

theorem lam (h : ν.Plain) (x : String) (p : Param) : (ν.lam x p).Plain :=
  ⟨h.types, by simp [Naming.lam, h.hidden]⟩

theorem tlam (h : ν.Plain) (x : String) (bounds : List String) : (ν.tlam x x bounds).Plain := by
  constructor
  · intro y
    by_cases hyx : y = x
    · rw [hyx, ν.types_tlam_self]
    · rw [ν.types_tlam_of_ne x bounds hyx, h.types]
  · simp [Naming.tlam, h.hidden]

theorem renamed_self (h : ν.Plain) (e : Expr) : e.Renamed ν e :=
  e.renamed_self (fun y _ => h.types y) (fun y _ => h.types y) (by simp [h.hidden])

theorem renamedItems_self (h : ν.Plain) (es : List Expr) : Expr.RenamedItems ν es es := by
  simpa using Expr.renamedItems_map id id es fun e _ => h.renamed_self e

theorem renamedFields_self (h : ν.Plain) (fs : List (String × Expr)) :
    Expr.RenamedFields ν fs fs := by
  simpa using Expr.renamedFields_map id id fs fun f _ => h.renamed_self f.2

/-- A type lambda that gives its variable `c` the name `d`. -/
theorem swapped (h : ν.Plain) {c d : String} (hc : c ∉ ν.scope) (hd : d ∉ ν.scope) (hcd : c ≠ d)
    (bounds : List String) : Swapped c d true (!bounds.isEmpty) (ν.tlam c d bounds) where
  new := ν.types_tlam_self c d bounds
  fixed := fun y hy => by rw [ν.types_tlam_of_ne d bounds hy, h.types]
  clear := fun hm => (ν.mem_scope_tlam hm).elim hcd.symm hd
  live := by
    intro hm
    rcases List.mem_append.mp hm with hm | hm
    · obtain ⟨bound, hbound, -⟩ := List.mem_map.mp hm
      simpa using List.ne_nil_of_mem hbound
    · exact absurd hm hc
  kind := fun _ => List.mem_cons_self
  hidden := by simp [Naming.tlam, h.hidden, hcd.symm]

theorem apart (h : ν.Plain) {c d : String} (hc : c ∉ ν.scope) (hd : d ∉ ν.scope) :
    ν.Apart c d := by
  intro y hy
  rw [h.types]
  exact iff_of_false (fun he => hd (he ▸ hy)) (fun he => hc (he ▸ hy))

end Naming.Plain

namespace Expr

variable {ν : Naming} {a b : String} {bounds : List String} {n : Note} {body : Expr}

/-- A type lambda and the relabelled one, where nothing in scope has one of the names in its
type. -/
theorem tlam_renamed_relabel (hν : ν.Plain) (ha : a ∉ ν.scope) (hb : b ∉ ν.scope) (hab : a ≠ b)
    (hsafe : body.reuseSafe a (!bounds.isEmpty) = true) (ht : b ∉ body.typeNames)
    (hv : b ∉ body.termNames) :
    (tlam n a bounds body).Renamed ν (tlam n b bounds (body.relabel a b true)) := by
  apply Renamed.tlam (hν.apart ha hb)
  · intro y hy _
    rw [hν.types]
    rintro rfl
    exact ht (body.openTypes_subset_typeNames y hy)
  · exact body.renamed_relabel (hν.swapped ha hb hab bounds) hsafe ht hv

theorem tlam_relabel_renamed (hν : ν.Plain) (ha : a ∉ ν.scope) (hb : b ∉ ν.scope) (hab : a ≠ b)
    (hsafe : body.reuseSafe a (!bounds.isEmpty) = true) (ht : b ∉ body.typeNames)
    (hv : b ∉ body.termNames) {k : Nat} {F : List String} (hw : body.Within k F)
    (hold : OldName k b) :
    (tlam n b bounds (body.relabel a b true)).Renamed ν (tlam n a bounds body) := by
  apply Renamed.tlam (hν.apart hb ha)
  · intro y hy _
    rw [hν.types]
    rintro rfl
    exact not_mem_openTypes_relabel hw ht hold hab hy
  · exact body.relabel_renamed hab (hν.swapped hb ha hab.symm bounds) (fun _ => rfl) hsafe ht hv

end Expr

namespace Frame

/-- The names in the types that a node brings into scope: those of a parameter's type, and a type
variable that has bounds. -/
def scopeNames : Frame → List String
  | lam _ _ p => p.freeTypes
  | tlam _ x bounds => bounds.map fun _ => x
  | _ => []

/-- What corresponds to what under the node. -/
def naming (ν : Naming) : Frame → Naming
  | lam _ x p => ν.lam x p
  | tlam _ x bounds => ν.tlam x x bounds
  | _ => ν

variable {ν : Naming} {e e' : Expr}

theorem plain_naming (h : ν.Plain) (F : Frame) : (F.naming ν).Plain := by
  cases F with
  | lam n x p => exact h.lam x p
  | tlam n x bounds => exact h.tlam x bounds
  | _ => exact h

theorem scope_naming (ν : Naming) (F : Frame) : (F.naming ν).scope = F.scopeNames ++ ν.scope := by
  cases F <;> rfl

theorem renamed_fill (hν : ν.Plain) (F : Frame) (h : e.Renamed (F.naming ν) e') :
    (F.fill e).Renamed ν (F.fill e') := by
  cases F with
  | lam n x p =>
    refine .lam ?_ h
    rintro t rfl
    exact ⟨t, rfl, .of_fixed fun y _ => hν.types y⟩
  | tlam n x bounds =>
    refine .tlam ?_ ?_ h
    · intro y _
      rw [hν.types]
    · intro y _ hyx
      rw [hν.types]
      exact hyx
  | test n y z => exact .cond h (hν.renamed_self y) (hν.renamed_self z)
  | yes n c z => exact .cond (hν.renamed_self c) h (hν.renamed_self z)
  | no n c y => exact .cond (hν.renamed_self c) (hν.renamed_self y) h
  | left n op r => exact .bin h (hν.renamed_self r)
  | right n op l => exact .bin (hν.renamed_self l) h
  | operand n op => exact .un h
  | fn n a => exact .app h (hν.renamed_self a)
  | arg n f => exact .app (hν.renamed_self f) h
  | typeFn n t => exact .tapp h (.of_fixed fun y _ => hν.types y)
  | ascribed n t => exact .ascribe h (.of_fixed fun y _ => hν.types y)
  | projected n label => exact .proj h
  | item n before after =>
    apply Expr.Renamed.list
    induction before with
    | nil => exact .cons h (hν.renamedItems_self after)
    | cons d before ih => exact .cons (hν.renamed_self d) (ih h)
  | field n before label after =>
    apply Expr.Renamed.record
    induction before with
    | nil => exact .cons h (hν.renamedFields_self after)
    | cons d before ih => exact .cons (hν.renamed_self d.2) (ih h)

/-- The part is within some names, and any other part within them can take its place. -/
theorem within_fill {k : Nat} (F : Frame) {G : List String} (hw : (F.fill e).Within k G) :
    ∃ H, e.Within k H ∧ ∀ d : Expr, d.Within k H → (F.fill d).Within k G := by
  cases F with
  | lam n x p | right n op l | arg n f => exact ⟨G, hw.2, fun d hd => ⟨hw.1, hd⟩⟩
  | tlam n x bounds => exact ⟨x :: G, hw.2, fun d hd => ⟨hw.1, hd⟩⟩
  | test n y z | left n op r | fn n a | typeFn n t | ascribed n t =>
    exact ⟨G, hw.1, fun d hd => ⟨hd, hw.2⟩⟩
  | yes n c z => exact ⟨G, hw.2.1, fun d hd => ⟨hw.1, hd, hw.2.2⟩⟩
  | no n c y => exact ⟨G, hw.2.2, fun d hd => ⟨hw.1, hw.2.1, hd⟩⟩
  | operand n op => exact ⟨G, hw, fun d hd => hd⟩
  | projected n label => exact ⟨G, hw, fun d hd => hd⟩
  | item n before after =>
    have hall := Expr.withinItems_iff.mp hw
    simp only [List.forall_mem_append, List.forall_mem_cons] at hall
    refine ⟨G, hall.2.1, fun d hd => Expr.withinItems_iff.mpr ?_⟩
    simp only [List.forall_mem_append, List.forall_mem_cons]
    exact ⟨hall.1, hd, hall.2.2⟩
  | field n before label after =>
    have hall := Expr.withinFields_iff.mp hw
    simp only [List.forall_mem_append, List.forall_mem_cons] at hall
    refine ⟨G, hall.2.1, fun d hd => Expr.withinFields_iff.mpr ?_⟩
    simp only [List.forall_mem_append, List.forall_mem_cons]
    exact ⟨hall.1, hd, hall.2.2⟩

theorem typeNames_fill (F : Frame) {y : String} (hy : y ∈ e.typeNames) :
    y ∈ (F.fill e).typeNames := by
  cases F with
  | item n before after => exact Expr.mem_typeNamesItems.mpr ⟨e, by simp, hy⟩
  | field n before label after => exact Expr.mem_typeNamesFields.mpr ⟨(label, e), by simp, hy⟩
  | _ => simp [fill, Expr.typeNames, hy]

theorem termNames_fill (F : Frame) {y : String} (hy : y ∈ e.termNames) :
    y ∈ (F.fill e).termNames := by
  cases F with
  | item n before after => exact Expr.mem_termNamesItems.mpr ⟨e, by simp, hy⟩
  | field n before label after => exact Expr.mem_termNamesFields.mpr ⟨(label, e), by simp, hy⟩
  | _ => simp [fill, Expr.termNames, hy]

theorem scopeNames_fill (F : Frame) (e : Expr) {y : String} (hy : y ∈ F.scopeNames) :
    y ∈ (F.fill e).typeNames := by
  cases F with
  | lam n x p =>
    cases p with
    | typed t => exact List.mem_append_left _ (Ty.free_subset_names t y hy)
    | dictionary | erased => cases hy
  | tlam n x bounds =>
    obtain ⟨_, -, rfl⟩ := List.mem_map.mp hy
    exact List.mem_cons_self
  | _ => cases hy

end Frame

namespace Place

variable {ν : Naming} {e e' : Expr}

/-- The names in the types that nodes around the place bring into scope. -/
def scopeNames (K : Place) : List String := K.flatMap Frame.scopeNames

/-- Parts that are renamed forms of each other make expressions that are. -/
theorem renamed_fill (hν : ν.Plain) (K : Place)
    (h : ∀ ν' : Naming, ν'.Plain → (∀ y ∈ ν'.scope, y ∈ K.scopeNames ∨ y ∈ ν.scope) →
      e.Renamed ν' e') : (K.fill e).Renamed ν (K.fill e') := by
  induction K generalizing ν with
  | nil => exact h ν hν fun y hy => Or.inr hy
  | cons F K ih =>
    rw [fill_cons, fill_cons]
    apply F.renamed_fill hν
    apply ih (F.plain_naming hν)
    intro ν' hν' hscope
    apply h ν' hν'
    intro y hy
    rw [scopeNames, List.flatMap_cons, List.mem_append, or_assoc]
    rcases hscope y hy with hy | hy
    · exact Or.inr (Or.inl hy)
    · rw [F.scope_naming, List.mem_append] at hy
      exact hy.imp_right Or.inr

theorem within_fill {k : Nat} (K : Place) {G : List String} (hw : (K.fill e).Within k G) :
    ∃ H, e.Within k H ∧ ∀ d : Expr, d.Within k H → (K.fill d).Within k G := by
  induction K generalizing G with
  | nil => exact ⟨G, hw, fun d hd => hd⟩
  | cons F K ih =>
    obtain ⟨G₁, hpart, hfill⟩ := F.within_fill hw
    obtain ⟨H, he, hd⟩ := ih hpart
    exact ⟨H, he, fun d hdw => hfill _ (hd d hdw)⟩

theorem typeNames_fill (K : Place) {y : String} (hy : y ∈ e.typeNames) :
    y ∈ (K.fill e).typeNames := by
  induction K with
  | nil => exact hy
  | cons F K ih => exact F.typeNames_fill ih

theorem termNames_fill (K : Place) {y : String} (hy : y ∈ e.termNames) :
    y ∈ (K.fill e).termNames := by
  induction K with
  | nil => exact hy
  | cons F K ih => exact F.termNames_fill ih

theorem scopeNames_fill (K : Place) (e : Expr) {y : String} (hy : y ∈ K.scopeNames) :
    y ∈ (K.fill e).typeNames := by
  induction K with
  | nil => cases hy
  | cons F K ih =>
    rw [scopeNames, List.flatMap_cons] at hy
    rcases List.mem_append.mp hy with hy | hy
    · exact F.scopeNames_fill (fill K e) hy
    · exact F.typeNames_fill (ih hy)

end Place

namespace Stmt

/-- The expression of a statement, or the dictionary of an instance. -/
def body? : Stmt → Option Expr
  | assign _ _ e => some e
  | eval _ e => some e
  | inst _ _ _ dict => some dict
  | field .. => none

/-- The statement with another expression. -/
def withBody (e : Expr) : Stmt → Stmt
  | assign line x _ => assign line x e
  | eval line _ => eval line e
  | inst line trait type _ => inst line trait type e
  | field line x trait type => field line x trait type

/-- The names of all types that are written in a statement, and of its type lambdas. -/
def typeNames : Stmt → List String
  | assign _ _ e => e.typeNames
  | eval _ e => e.typeNames
  | inst _ _ type dict => type.names ++ dict.typeNames
  | field _ _ _ type => type.names

variable {s : Stmt} {e e' : Expr}

theorem openTypes_subset_typeNames (s : Stmt) : ∀ y ∈ s.openTypes, y ∈ s.typeNames := by
  cases s with
  | assign line x e | eval line e => exact e.openTypes_subset_typeNames
  | inst line trait type dict =>
    exact fun y hy => List.mem_append_left _ (Ty.free_subset_names type y hy)
  | field line x trait type => exact Ty.free_subset_names type

theorem typeNames_body (h : s.body? = some e) {y : String} (hy : y ∈ e.typeNames) :
    y ∈ s.typeNames := by
  cases s with
  | assign | eval => exact Option.some.inj h ▸ hy
  | inst line trait type dict => exact List.mem_append_right _ (Option.some.inj h ▸ hy)
  | field => cases h

theorem termNames_body (h : s.body? = some e) {y : String} (hy : y ∈ e.termNames) :
    y ∈ s.termNames := by
  cases s with
  | assign line x e => exact List.mem_cons_of_mem x (Option.some.inj h ▸ hy)
  | eval | inst => exact Option.some.inj h ▸ hy
  | field => cases h

theorem within_body (h : s.body? = some e) {k : Nat} {G : List String} (hw : s.Within k G) :
    e.Within k G := by
  cases s with
  | assign | eval => exact Option.some.inj h ▸ hw
  | inst => exact Option.some.inj h ▸ hw.2
  | field => cases h

theorem within_withBody {k : Nat} {G : List String} (hw : s.Within k G) (he : e.Within k G) :
    (s.withBody e).Within k G := by
  cases s with
  | assign | eval => exact he
  | inst => exact ⟨hw.1, he⟩
  | field => exact hw

theorem announced?_withBody (s : Stmt) (e : Expr) : (s.withBody e).announced? = s.announced? := by
  cases s <;> rfl

theorem renamed_withBody {F : List String} (h : s.body? = some e)
    (he : e.Renamed (.same F) e') : s.Renamed F (s.withBody e') := by
  cases s with
  | assign => exact .assign (Option.some.inj h ▸ he)
  | eval => exact .eval (Option.some.inj h ▸ he)
  | inst => exact .inst
  | field => exact .field

theorem withBody_renamed {F : List String} (h : s.body? = some e)
    (he : e'.Renamed (.same F) e) : (s.withBody e').Renamed F s := by
  cases s with
  | assign => exact .assign (Option.some.inj h ▸ he)
  | eval => exact .eval (Option.some.inj h ▸ he)
  | inst => exact .inst
  | field => exact .field

theorem renamed_self (F : List String) (s : Stmt) : s.Renamed F s := by
  have hplain : (Naming.same F).Plain := ⟨fun _ => rfl, rfl⟩
  cases s with
  | assign line x e => exact .assign (hplain.renamed_self e)
  | eval line e => exact .eval (hplain.renamed_self e)
  | inst => exact .inst
  | field => exact .field

theorem renamedAll_self (F : List String) (ss : List Stmt) : RenamedAll F ss ss := by
  induction ss generalizing F with
  | nil => exact .nil
  | cons s ss ih => exact .cons (renamed_self F s) (ih _)

/-- One statement is renamed, and the others are as they were. -/
theorem renamedAll_one {F : List String} {s s' : Stmt} (pre post : List Stmt)
    (h : ∀ G, (∀ y ∈ G, y ∈ F ∨ y ∈ pre.flatMap openTypes) → s.Renamed G s') :
    RenamedAll F (pre ++ s :: post) (pre ++ s' :: post) := by
  induction pre generalizing F with
  | nil => exact .cons (h F fun y hy => Or.inl hy) (renamedAll_self _ post)
  | cons d pre ih =>
    refine .cons (renamed_self F d) (ih fun G hG => h G fun y hy => ?_)
    rw [List.flatMap_cons, List.mem_append]
    rcases hG y hy with hy | hy
    · exact (List.mem_append.mp hy).symm.imp_right Or.inl
    · exact Or.inr (Or.inr hy)

end Stmt

namespace Program

/-- The names of all variables, lambdas and types in a program, and of what it assigns. -/
def names (p : Program Stmt) : List String := p.stmts.flatMap fun s => s.termNames ++ s.typeNames

theorem not_mem_names {p : Program Stmt} {b : String} (h : b ∉ p.names) :
    ∀ s ∈ p.stmts, b ∉ s.termNames ∧ b ∉ s.typeNames := by
  intro s hs
  have hout : b ∉ s.termNames ++ s.typeNames := fun hm => h (List.mem_flatMap.mpr ⟨s, hs, hm⟩)
  exact not_or.mp (mt List.mem_append.mpr hout)

theorem isOk_or_namesOnly {α β : Type} {I : Instances} {r : Except TypeError α}
    {r' : Except TypeError β} (h : r.isOk = true → Follows I (fun _ => True) r')
    (h' : r'.isOk = true → Follows I (fun _ => True) r) :
    r.isOk = r'.isOk ∨ ∃ e : TypeError, e.NamesOnly I ∧ (r = .error e ∨ r' = .error e) := by
  cases r with
  | ok a =>
    cases h rfl with
    | ok => exact Or.inl rfl
    | names he => exact Or.inr ⟨_, he, Or.inr rfl⟩
  | error e =>
    cases r' with
    | error e' => exact Or.inl rfl
    | ok b =>
      cases h' rfl with
      | names he => exact Or.inr ⟨e, he, Or.inl rfl⟩

/-- The name of a type lambda's variable, at any place of a program. The variable gets a name that
occurs nowhere. If the old name is not captured, that is, if nothing in scope has it in its type
where this type lambda or one inside it binds the name, then the program is accepted as before,
or one of the two fails and has a fault of names only. -/
theorem infer_relabel {code : String} {p p' : Program Stmt} {drawn : Nat} {pre post : List Stmt}
    {s : Stmt} {K : Place} {n : Note} {a b : String} {bounds : List String} {body : Expr}
    (hr : resolveText code = .ok (p, drawn)) (hp : p.stmts = pre ++ s :: post)
    (hs : s.body? = some (K.fill (.tlam n a bounds body)))
    (hb : SourceName b) (hfresh : b ∉ Ty.basicNames ++ p.names)
    (hp' : p'.stmts =
      pre ++ s.withBody (K.fill (.tlam n b bounds (body.relabel a b true))) :: post)
    (houter : a ∉ Ty.basicNames ++ pre.flatMap Stmt.openTypes ++ K.scopeNames)
    (hinner : body.reuseSafe a (!bounds.isEmpty) = true) :
    (p.infer drawn).2.isOk = (p'.infer drawn).2.isOk ∨
      ∃ e : TypeError, e.NamesOnly p.announced ∧
        ((p.infer drawn).2 = .error e ∨ (p'.infer drawn).2 = .error e) := by
  have hmem : s ∈ p.stmts := by simp [hp]
  obtain ⟨hbasic, hnames⟩ := not_or.mp (mt List.mem_append.mpr hfresh)
  obtain ⟨hterm, htype⟩ := not_mem_names hnames s hmem
  have htlam : b ∉ (Expr.tlam n a bounds body).typeNames :=
    fun hm => htype (Stmt.typeNames_body hs (K.typeNames_fill hm))
  obtain ⟨hba, ht⟩ := not_or.mp (mt List.mem_cons.mpr htlam)
  have hv : b ∉ body.termNames := by
    intro hm
    have hnode : b ∈ (Expr.tlam n a bounds body).termNames := hm
    exact hterm (Stmt.termNames_body hs (K.termNames_fill hnode))
  -- at the type lambda, nothing in scope has one of the names in its type
  have hclear : ∀ {ν : Naming}, (∀ y ∈ ν.scope, y ∈ K.scopeNames ∨ y ∈ Ty.basicNames ∨
      y ∈ pre.flatMap Stmt.openTypes) → a ∉ ν.scope ∧ b ∉ ν.scope := by
    intro ν hν
    constructor
    · intro hm
      have hscope := hν a hm
      simp only [List.mem_append, not_or] at houter
      tauto
    · intro hm
      rcases hν b hm with hK | hbas | hpre
      · exact htype (Stmt.typeNames_body hs (K.scopeNames_fill _ hK))
      · exact hbasic hbas
      · obtain ⟨d, hd, hbd⟩ := List.mem_flatMap.mp hpre
        have hdp : d ∈ p.stmts := by simp [hp, hd]
        exact (not_mem_names hnames d hdp).2 (d.openTypes_subset_typeNames b hbd)
  have hw := fun d hd => (within_resolveText hr d hd).1
  have hold : OldName drawn b := hb.old drawn
  obtain ⟨H, hnode, hfill⟩ := K.within_fill (Stmt.within_body hs (hw s hmem))
  -- the relabelled program has its types within the same names
  have hw' : ∀ d ∈ p'.stmts, d.Within drawn (Ty.basicNames ++ p.lamNames) := by
    have hbody : (Expr.tlam n b bounds (body.relabel a b true)).Within drawn H := by
      refine ⟨hold, hnode.2.relabel ht hold ?_ List.mem_cons_self⟩
      intro w hw hwa
      exact List.mem_cons_of_mem b ((List.mem_cons.mp hw).resolve_left hwa)
    have hnew := Stmt.within_withBody (hw s hmem) (hfill _ hbody)
    rw [hp] at hw
    rw [hp']
    simp only [List.forall_mem_append, List.forall_mem_cons] at hw ⊢
    exact ⟨hw.1, hnew, hw.2.2⟩
  have hthere : Stmt.RenamedAll Ty.basicNames p.stmts p'.stmts := by
    rw [hp, hp']
    refine Stmt.renamedAll_one pre post fun G hG => Stmt.renamed_withBody hs ?_
    refine K.renamed_fill ⟨fun _ => rfl, rfl⟩ fun ν hν hscope => ?_
    obtain ⟨ha, hb⟩ := hclear fun y hy => (hscope y hy).imp_right (hG y)
    exact Expr.tlam_renamed_relabel hν ha hb (Ne.symm hba) hinner ht hv
  have hback : Stmt.RenamedAll Ty.basicNames p'.stmts p.stmts := by
    rw [hp, hp']
    refine Stmt.renamedAll_one pre post fun G hG => Stmt.withBody_renamed hs ?_
    refine K.renamed_fill ⟨fun _ => rfl, rfl⟩ fun ν hν hscope => ?_
    obtain ⟨ha, hb⟩ := hclear fun y hy => (hscope y hy).imp_right (hG y)
    exact Expr.tlam_relabel_renamed hν ha hb (Ne.symm hba) hinner ht hv hnode.2 hold
  have hannounced : p'.announced = p.announced := by
    rw [announced, announced, hp, hp']
    simp [List.filterMap_cons, Stmt.announced?_withBody]
  have hF : ∀ w ∈ Ty.basicNames, w ∈ Ty.basicNames ++ p.lamNames :=
    fun w hw => List.mem_append_left _ hw
  apply isOk_or_namesOnly
  · intro hok
    exact hannounced ▸ inStep_infer hthere hF hw hw' hok
  · intro hok
    exact inStep_infer hback hF hw' hw hok

/-- A type lambda whose name is bound again inside it, where nothing in scope has it in its
type. -/
def shadowedSample : String :=
  "f = \\c. \\z: c. (\\a. (\\a. \\y: a. y) @(a -> a) (\\x: a. x)) @c z;\n"

/-- The inner type lambda of that form, whose name can be changed. -/
def shadowsName (p : Program Stmt) : Bool :=
  match p.stmts with
  | [.assign _ "f" (.tlam _ "c" [] (.lam _ "z" (.typed (.name _ "c"))
      (.app _ (.tapp _ (.tlam _ "a" [] body) _) _)))] =>
    decide ("b" ∉ Ty.basicNames ++ p.names ∧ "a" ∈ body.typeNames ∧
      body.reuseSafe "a" false = true)
  | _ => false

theorem infer_relabel_shadowed : ∃ p drawn s K n body, ∃ p' : Program Stmt,
    resolveText shadowedSample = .ok (p, drawn) ∧ p.stmts = [s] ∧
    s.body? = some (Place.fill K (.tlam n "a" [] body)) ∧ "b" ∉ Ty.basicNames ++ p.names ∧
    p'.stmts = [s.withBody (K.fill (.tlam n "b" [] (body.relabel "a" "b" true)))] ∧
    "a" ∈ body.typeNames ∧ body.reuseSafe "a" false = true ∧
    ((p.infer drawn).2.isOk = (p'.infer drawn).2.isOk ∨
      ∃ e : TypeError, e.NamesOnly p.announced ∧
        ((p.infer drawn).2 = .error e ∨ (p'.infer drawn).2 = .error e)) := by
  have hrun : ((resolveText shadowedSample).toOption.any fun r => r.1.shadowsName) = true := by
    decide +kernel
  cases hr : resolveText shadowedSample with
  | error e =>
    rw [hr] at hrun
    cases hrun
  | ok r =>
    rw [hr] at hrun
    simp only [Except.toOption, Option.any_some, shadowsName] at hrun
    split at hrun
    · next line n₁ n₂ l n₃ n₄ n body t z hstmts =>
      obtain ⟨hfresh, ha, hsafe⟩ := of_decide_eq_true hrun
      let K : Place := [.tlam n₁ "c" [], .lam n₂ "z" (.typed (.name l "c")), .fn n₃ z, .typeFn n₄ t]
      have hs : (Stmt.assign line "f" (K.fill (.tlam n "a" [] body))).body? =
          some (K.fill (.tlam n "a" [] body)) := rfl
      have hb : SourceName "b" := by
        unfold SourceName
        decide
      have houter : "a" ∉ Ty.basicNames ++ [].flatMap Stmt.openTypes ++ K.scopeNames := by
        simp [K, Place.scopeNames, Frame.scopeNames, Param.freeTypes, Ty.free, Ty.basicNames]
      exact ⟨r.1, r.2, _, K, n, body, ⟨r.1.line, _⟩, rfl, hstmts, hs, hfresh, rfl, ha, hsafe,
        infer_relabel hr hstmts hs hb hfresh rfl houter hsafe⟩
    · cases hrun

/-- A type lambda whose name is in the type of a parameter in scope. -/
def reboundSample : String := "f = \\a. \\x: a. \\a. \\y: a. if true then x else y;\n"

/-- Changing the name of the inner type lambda of that form makes the program fail. -/
def capturesName (r : Program Stmt × Nat) : Bool :=
  match r.1.stmts with
  | [.assign line "f" (.tlam n₁ "a" [] (.lam n₂ "x" p (.tlam n "a" [] body)))] =>
    decide ("b" ∉ Ty.basicNames ++ r.1.names) && (r.1.infer r.2).2.isOk &&
      !((Program.mk r.1.line [.assign line "f" (.tlam n₁ "a" [] (.lam n₂ "x" p
        (.tlam n "b" [] (body.relabel "a" "b" true))))]).infer r.2).2.isOk
  | _ => false

theorem infer_relabel_captured : ∃ p drawn s K n body, ∃ p' : Program Stmt,
    resolveText reboundSample = .ok (p, drawn) ∧ p.stmts = [s] ∧
    s.body? = some (Place.fill K (.tlam n "a" [] body)) ∧ "b" ∉ Ty.basicNames ++ p.names ∧
    p'.stmts = [s.withBody (K.fill (.tlam n "b" [] (body.relabel "a" "b" true)))] ∧
    (p.infer drawn).2.isOk = true ∧ (p'.infer drawn).2.isOk = false := by
  have hrun : (resolveText reboundSample).toOption.any capturesName = true := by
    decide +kernel
  cases hr : resolveText reboundSample with
  | error e =>
    rw [hr] at hrun
    cases hrun
  | ok r =>
    rw [hr] at hrun
    simp only [Except.toOption, Option.any_some, capturesName] at hrun
    split at hrun
    · next line n₁ n₂ p n body hstmts =>
      simp only [Bool.and_eq_true, decide_eq_true_eq, Bool.not_eq_true'] at hrun
      obtain ⟨⟨hfresh, hok⟩, hfail⟩ := hrun
      exact ⟨r.1, r.2, _, [.tlam n₁ "a" [], .lam n₂ "x" p], n, body, _, rfl, hstmts, rfl, hfresh,
        rfl, hok, hfail⟩
    · cases hrun

end Program

end TraitCalculus
