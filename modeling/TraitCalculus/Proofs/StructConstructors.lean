import Mathlib
import TraitCalculus.Proofs.ImplBlocks
import TraitCalculus.Proofs.RecordFunctions
import TraitCalculus.Proofs.TypeNameScope

/-! Structs and their constructors. A struct is resolved twice, as an abbreviation and with the
parameters of its constructor, which stands behind the abbreviation. The two agree if the fields do
not mention the name of the struct, except that names which are drawn on the way are drawn twice.
The constructor is accepted in every scope, and the fields of what it makes are its arguments. -/
namespace TraitCalculus

/-- A field of a struct with the constructor's parameter for it. -/
structure Component where
  label : String
  param : String
  type : Ty

namespace Component

/-- The field in the type of the record. -/
def typed (c : Component) : String × Ty := (c.label, c.type)

/-- The field in the record that is made; its note holds the type when this is known. -/
def value (note : Ty → Note) (c : Component) : String × Expr :=
  (c.label, .var (note c.type) c.param)

/-- Lambdas for the parameters, the outermost first. -/
def lambdas (cs : List Component) (body : Expr) : Expr :=
  cs.foldr (fun c body => .lam .blank c.param (.typed c.type) body) body

/-- The fields as labels with their values. -/
theorem map_value (note : Ty → Note) (cs : List Component) : cs.map (value note) =
    (cs.map (·.label)).zip (cs.map fun c => Expr.var (note c.type) c.param) := by
  rw [List.zip_map']
  rfl

/-- Without notes, the record depends on labels and parameters only. -/
theorem values_congr {cs ds : List Component} (hlabel : cs.map (·.label) = ds.map (·.label))
    (hparam : cs.map (·.param) = ds.map (·.param)) :
    cs.map (value fun _ => .blank) = ds.map (value fun _ => .blank) := by
  have hvars (cs : List Component) : (cs.map fun c => Expr.var .blank c.param) =
      (cs.map (·.param)).map (Expr.var .blank) := (List.map_map ..).symm
  rw [map_value, map_value, hlabel, hvars, hvars, hparam]

section

variable {aliases aliases' : Aliases} {bound : List String} {body : Expr}

theorem run_resolve_values (cs : List Component) (k : Nat) :
    ((Expr.record .blank (cs.map (value fun _ => .blank))).resolve aliases bound).run k =
      .ok (.record .blank (cs.map (value fun _ => .blank)), k) := by
  have hfields : (Expr.resolveFields aliases bound (cs.map (value fun _ => .blank))).run k =
      .ok (cs.map (value fun _ => .blank), k) := by
    induction cs with
    | nil => rfl
    | cons c cs ih =>
      rw [List.map_cons, value, Expr.resolveFields, Expr.resolve, pure_bind, run_bind_of_ok ih]
      rfl
  rw [Expr.resolve, run_bind_of_ok hfields]
  rfl

/-- The types of parameters are resolved as those of fields, if these do not mention what is
different behind the lambdas. -/
theorem run_resolve_lambdas {cs : List Component} {Us : List (String × Ty)} {k k' : Nat}
    (hbody : ∀ bound k, (body.resolve aliases' bound).run k = .ok (body, k))
    (hfree : ∀ c ∈ cs, ∀ w ∈ c.type.free,
      aliases'.lookup w = aliases.lookup w ∧ w ∉ bound ∧ ∀ d ∈ cs, w ≠ d.param)
    (h : (Ty.resolveFields aliases [] (cs.map typed)).run k = .ok (Us, k')) :
    ∃ cs', ((lambdas cs body).resolve aliases' bound).run k = .ok (lambdas cs' body, k') ∧
      cs'.map typed = Us ∧ cs'.map (·.param) = cs.map (·.param) := by
  induction cs generalizing bound k Us with
  | nil =>
    obtain ⟨rfl, rfl⟩ := run_pure_eq_ok h
    exact ⟨[], hbody bound _, rfl, rfl⟩
  | cons c cs ih =>
    obtain ⟨t, k₁, ht, h⟩ := run_bind_eq_ok h
    obtain ⟨rest, hrest, rfl⟩ := run_bind_pure_eq_ok h
    obtain ⟨hc, hcs⟩ := List.forall_mem_cons.mp hfree
    have ht' : (c.type.resolve aliases' (c.param :: bound)).run k = .ok (t, k₁) := by
      rw [← ht]
      refine congrArg (StateT.run · k) (c.type.resolve_agree fun w hw line => ?_)
      obtain ⟨hlookup, hbound, hparam⟩ := hc w hw
      simp [Ty.resolveName, hlookup, hbound, hparam c List.mem_cons_self]
    have hinner : ∀ d ∈ cs, ∀ w ∈ d.type.free, aliases'.lookup w = aliases.lookup w ∧
        w ∉ c.param :: bound ∧ ∀ d ∈ cs, w ≠ d.param := by
      intro d hd w hw
      obtain ⟨hlookup, hbound, hparam⟩ := hcs d hd w hw
      exact ⟨hlookup, by simp [hbound, hparam c List.mem_cons_self],
        fun d hd => hparam d (List.mem_cons_of_mem c hd)⟩
    obtain ⟨cs', hrun, htyped, hparams⟩ := ih hinner hrest
    refine ⟨⟨c.label, c.param, t⟩ :: cs', ?_, ?_, ?_⟩
    · rw [lambdas, List.foldr_cons, Expr.resolve, Param.resolve, bind_assoc, run_bind_of_ok ht',
        pure_bind]
      exact (run_bind_of_ok hrun).trans rfl
    · rw [List.map_cons, htyped]
      rfl
    · rw [List.map_cons, List.map_cons, hparams]

end

/-- The scope inside of the lambdas. -/
def scope (Γ : Scope Entry) (cs : List Component) : Scope Entry :=
  cs.foldl (fun Γ c => Γ.extend c.param (.term c.type)) Γ

theorem get?_scope_of_not_mem {cs : List Component} {x : String} (hx : x ∉ cs.map (·.param))
    (Γ : Scope Entry) : (scope Γ cs).get? x = Γ.get? x := by
  induction cs generalizing Γ with
  | nil => rfl
  | cons c cs ih =>
    rw [List.map_cons, List.mem_cons, not_or] at hx
    rw [scope, List.foldl_cons, ← scope, ih hx.2, Scope.get?_extend_of_ne Γ _ hx.1]

theorem get?_scope {cs : List Component} (hnodup : (cs.map (·.param)).Nodup) {c : Component}
    (hc : c ∈ cs) (Γ : Scope Entry) : (scope Γ cs).get? c.param = some (.term c.type) := by
  induction cs generalizing Γ with
  | nil => cases hc
  | cons d cs ih =>
    obtain ⟨hd, hnodup⟩ := List.nodup_cons.mp hnodup
    rw [scope, List.foldl_cons, ← scope]
    rcases List.mem_cons.mp hc with rfl | hc
    · rw [get?_scope_of_not_mem hd, Scope.get?_extend_self]
    · exact ih hnodup hc _

/-- The note of a node whose type is known. -/
def noteOf (t : Ty) : Note := ⟨none, some t⟩

theorem run_infer_values {Γ : Scope Entry} {cs : List Component}
    (h : ∀ c ∈ cs, Γ.get? c.param = some (.term c.type)) (st : TypingState) :
    ((Expr.record .blank (cs.map (value fun _ => .blank))).infer Γ).run st =
      .ok ((.record (noteOf (.record none (cs.map typed))) (cs.map (value noteOf)),
        .record none (cs.map typed)), st) := by
  have hfields : (Expr.typeFields Expr.inferApp Γ (cs.map (value fun _ => .blank))).run st =
      .ok ((cs.map (value noteOf), cs.map typed), st) := by
    induction cs with
    | nil => rfl
    | cons c cs ih =>
      obtain ⟨hc, hcs⟩ := List.forall_mem_cons.mp h
      have hvar : ((Expr.var .blank c.param).typeWith Expr.inferApp Γ).run st =
          .ok ((.var (noteOf c.type) c.param, c.type), st) := by
        rw [Expr.typeWith, Rule.var, hc]
        rfl
      rw [List.map_cons, value, Expr.typeFields, run_bind_of_ok hvar, run_bind_of_ok (ih hcs)]
      rfl
  rw [Expr.infer, Expr.typeWith, run_bind_of_ok hfields]
  rfl

/-- Lambdas are accepted if their body is, and have the type of a function of the parameters. -/
theorem run_infer_lambdas {cs : List Component} {Γ : Scope Entry} {body body' : Expr} {R : Ty}
    {st : TypingState} (h : (body.infer (scope Γ cs)).run st = .ok ((body', R), st)) :
    ∃ e, ((lambdas cs body).infer Γ).run st =
      .ok ((e, (cs.map (·.type)).foldr (.arrow none) R), st) ∧
      Expr.Under (cs.map (·.param)) body' e := by
  induction cs generalizing Γ with
  | nil => exact ⟨body', h, .nil _⟩
  | cons c cs ih =>
    obtain ⟨e, hrun, hunder⟩ := ih h
    refine ⟨_, ?_, .cons (noteOf (.arrow none c.type ((cs.map (·.type)).foldr (.arrow none) R)))
      (.typed c.type) hunder⟩
    exact (run_bind_of_ok hrun).trans rfl

end Component

/-- Dispatch leaves a record of parameters under the lambdas for them as it is. -/
theorem Expr.Under.run_dispatch {ys : List String} {cs : List Component} {n : Note} {e : Expr}
    (h : Expr.Under ys (.record n (cs.map (Component.value Component.noteOf))) e)
    {owners : List (String × String)} {d : Dictionaries}
    (hown : ∀ c ∈ cs, c.param ∈ ys ∨ owners.lookup c.param = none) :
    (e.dispatch owners).run d = .ok (e, d) := by
  generalize hbody : record n (cs.map (Component.value Component.noteOf)) = body at h
  induction h generalizing owners with
  | nil =>
    subst hbody
    have hfields : (dispatchFields owners (cs.map (Component.value Component.noteOf))).run d =
        .ok (cs.map (Component.value Component.noteOf), d) := by
      induction cs with
      | nil => rfl
      | cons c cs ih =>
        obtain ⟨hc, hcs⟩ := List.forall_mem_cons.mp hown
        have hnone : owners.lookup c.param = none := by simpa using hc
        have hvar : ((var (Component.noteOf c.type) c.param).dispatch owners).run d =
            .ok (var (Component.noteOf c.type) c.param, d) := by
          rw [dispatch, hnone]
          rfl
        rw [List.map_cons, Component.value, dispatchFields, run_bind_of_ok hvar,
          run_bind_of_ok (ih hcs)]
        rfl
    rw [dispatch, run_bind_of_ok hfields]
    rfl
  | @cons y ys _ e n p _ ih =>
    have hinner : ∀ c ∈ cs, c.param ∈ ys ∨ (Assoc.erase y owners).lookup c.param = none := by
      intro c hc
      by_cases hy : c.param = y
      · exact .inr (hy ▸ Assoc.lookup_erase_self y owners)
      · rw [Assoc.lookup_erase_of_ne owners hy]
        simpa [hy] using hown c hc
    rw [dispatch, run_bind_of_ok (ih hinner hbody)]
    rfl

namespace Item

theorem paramName_injective : Function.Injective paramName := by
  intro j k h
  have hl : "__x".toList ++ (toString j).toList = "__x".toList ++ (toString k).toList := by
    simpa [paramName] using congrArg String.toList h
  exact Nat.repr_injective (String.toList_injective (List.append_cancel_left hl))

/-- The fields of a struct with the parameters of its constructor. -/
def components (fields : List (Member Ty)) : List Component :=
  fields.mapIdx fun k m => ⟨m.name, paramName k, m.item⟩

theorem map_components {α : Type} (g : Component → α) (fields : List (Member Ty)) :
    (components fields).map g = fields.mapIdx fun k m => g ⟨m.name, paramName k, m.item⟩ :=
  List.ext_getElem (by simp [components]) (by simp [components])

theorem constructor_eq (fields : List (Member Ty)) : constructor fields =
    Component.lambdas (components fields)
      (.record .blank ((components fields).map (Component.value fun _ => .blank))) := by
  have hparams := map_components (fun c => (c.param, c.type)) fields
  rw [Component.lambdas, map_components, constructor, ← hparams, List.foldr_map]
  rfl

theorem typed_components (fields : List (Member Ty)) :
    (components fields).map Component.typed = written fields :=
  List.ext_getElem (by simp [components, written]) (by simp [components, written, Component.typed])

theorem label_components (fields : List (Member Ty)) :
    (components fields).map (·.label) = fields.map (·.name) :=
  List.ext_getElem (by simp [components]) (by simp [components])

theorem param_components (fields : List (Member Ty)) :
    (components fields).map (·.param) = (List.range fields.length).map paramName :=
  List.ext_getElem (by simp [components]) (by simp [components])

/-- No type of a field mentions the struct or a parameter of its constructor. -/
def Apart (S : String) (fields : List (Member Ty)) : Prop :=
  ∀ m ∈ fields, ∀ w ∈ m.item.free, w ≠ S ∧ ∀ j < fields.length, w ≠ paramName j

/-- Neither the abbreviation nor the lambdas around it change the meaning of a parameter's type. -/
theorem Apart.components {S : String} {fields : List (Member Ty)} (h : Apart S fields) (T : Ty)
    (aliases : Aliases) : ∀ c ∈ components fields, ∀ w ∈ c.type.free,
      (Assoc.insert S T aliases).lookup w = aliases.lookup w ∧ w ∉ [] ∧
        ∀ d ∈ components fields, w ≠ d.param := by
  intro c hc w hmem
  have htyped := List.mem_map_of_mem (f := Component.typed) hc
  rw [typed_components] at htyped
  obtain ⟨m, hm, hcm⟩ := List.mem_map.mp htyped
  obtain ⟨hS, hparam⟩ := h m hm w ((Prod.mk.inj hcm).2 ▸ hmem)
  refine ⟨Assoc.lookup_insert_of_ne _ _ hS, List.not_mem_nil, fun d hd => ?_⟩
  have hd' := List.mem_map_of_mem (f := (·.param)) hd
  rw [param_components] at hd'
  obtain ⟨j, hj, hdj⟩ := List.mem_map.mp hd'
  exact hdj ▸ hparam j (List.mem_range.mp hj)

/-- A struct is resolved: the abbreviation, and behind it the constructor. Its types are those of
the abbreviation, but for names that are drawn a second time. -/
theorem foldlM_struct {line k k₁ : Nat} {S : String} {fields : List (Member Ty)}
    {aliases : Aliases} {Ts : List (String × Ty)} (hsource : (struct line S fields).Source)
    (hw : Aliases.Within k aliases) (hlabels : (fields.map (·.name)).Nodup)
    (hTs : (Ty.resolveFields aliases [] (written fields)).run k = .ok (Ts, k₁))
    (hapart : Apart S fields) (i : Nat) :
    ∃ ds cs k₂, (struct line S fields).desugar i = .ok ds ∧
      (ds.foldlM Decl.step (aliases, [])).run k = .ok ((Assoc.insert S (.record none Ts) aliases,
        [.assign line S (Component.lambdas cs
          (.record .blank (cs.map (Component.value fun _ => .blank))))]), k₂) ∧
      cs.map (·.label) = fields.map (·.name) ∧
      cs.map (·.param) = (List.range fields.length).map paramName ∧
      (Ty.record none Ts).AlphaEq (.record none (cs.map Component.typed)) ∧
      (k₁ = k → cs.map Component.typed = Ts) := by
  have hrecord : ((Ty.record none (written fields)).resolve aliases []).run k =
      .ok (.record none Ts, k₁) := by
    rw [Ty.resolve, run_bind_of_ok hTs]
    rfl
  have hnames : ∀ k, ∀ w ∈ (Ty.record none (written fields)).names, OldName k w := by
    intro k w hmem
    obtain ⟨f, hf, hmem⟩ := Ty.mem_namesFields.mp hmem
    obtain ⟨m, hm, rfl⟩ := List.mem_map.mp hf
    exact ((hsource.2 m hm).2 w hmem).old k
  obtain ⟨hle, -⟩ := Ty.within_resolve _ (fun _ => id) hw (hnames k) hrecord
  -- the parameters are resolved from the counter that the abbreviation leaves
  obtain ⟨u, k₂, hagain, hα⟩ :=
    Ty.resolve_anew _ hw (hw.later hle) (hnames k) (hnames k₁) hrecord
  obtain ⟨Us, hUs, rfl⟩ := run_bind_pure_eq_ok hagain
  rw [← typed_components] at hUs
  obtain ⟨cs, hrun, rfl, hparams⟩ := Component.run_resolve_lambdas
    (fun _ k => Component.run_resolve_values (components fields) k)
    (hapart.components (.record none Ts) aliases) hUs
  have hlabel : cs.map (·.label) = (components fields).map (·.label) := by
    have hmap := Ty.labels_resolveFields hUs
    rwa [List.map_map, List.map_map] at hmap
  have hvalues := Component.values_congr hlabel hparams
  rw [← hvalues] at hrun
  have hds : (struct line S fields).desugar i = .ok [.typedef line S (.record none (written fields)),
      .stmt (.assign line S (Component.lambdas (components fields)
        (.record .blank (cs.map (Component.value fun _ => .blank)))))] := by
    rw [desugar, recordType, repeated?_eq_none.mpr ⟨hlabels, by simp⟩, constructor_eq, ← hvalues]
    rfl
  refine ⟨_, cs, k₂, hds, ?_, hlabel.trans (label_components fields),
    hparams.trans (param_components fields), hα, ?_⟩
  · rw [List.foldlM_cons, Decl.step, bind_assoc, run_bind_of_ok hrecord, pure_bind,
      List.foldlM_cons, Decl.step, Stmt.resolve, bind_assoc, bind_assoc, run_bind_of_ok hrun]
    rfl
  · rintro rfl
    rw [typed_components, hTs] at hUs
    exact (Prod.mk.inj (Except.ok.inj hUs)).1.symm

/-- In every state where `c` is the value of the struct's name: the fields of what it makes of values
are these values, but for notes and the names of bound variables. -/
def Recovers (S : String) (labels : List String) (c : Expr) : Prop :=
  ∀ (m : Machine) (line : Nat) (n n' : Note) (args : List (Note × Expr)) (label : String) (v : Expr),
    (∀ b : Builtin, m.globals.lookup b.name = none) → m.globals.lookup S = some c →
    args.length = labels.length →
    (∀ a ∈ args.map Prod.snd, a.Held m.drawn ∧ ∀ j < labels.length, paramName j ∉ a.freeVars) →
    (label, v) ∈ labels.zip (args.map Prod.snd) →
    ∃ u k, u.shape [] = v.shape [] ∧
      Expr.Yields line m (.proj n' (args.foldl (fun f a => .app a.1 f a.2) (.var n S)) label) u k

theorem old_paramName (k j : Nat) : OldName k (paramName j) := by
  have hsource : SourceName (paramName j) := by
    unfold SourceName paramName
    rw [String.toList_append, List.mem_append]
    exact not_or.mpr ⟨by decide, dollar_not_mem_repr j⟩
  exact hsource.old k

/-- Lambdas around the record of their parameters, as a value. -/
theorem recovers_under {S : String} {cs : List Component} {n : Note} {c : Expr}
    (hlabels : (cs.map (·.label)).Nodup)
    (hparams : cs.map (·.param) = (List.range cs.length).map paramName)
    (hc : Expr.Under (cs.map (·.param)) (.record n (cs.map (Component.value Component.noteOf))) c) :
    Recovers S (cs.map (·.label)) c := by
  intro m line n₁ n₂ args label v hm hS hlen hargs hv
  have hvar : Expr.Yields line m (.var n₁ S) c m.drawn := by
    refine ⟨1, fun fuel hfuel => ?_⟩
    obtain ⟨fuel, rfl⟩ := Nat.exists_eq_add_of_le' hfuel
    have hrun := Expr.run_evalVar line n₁ S m
    rw [hS] at hrun
    exact hrun
  rw [Component.map_value] at hc
  set parts := cs.map fun c => Expr.var (Component.noteOf c.type) c.param
  have hfilled : Expr.Filled m.drawn [] (args.map Prod.snd) (cs.map (·.param)) parts := by
    constructor
    · rw [Expr.targets, List.map_nil, List.nil_append, List.map_map, List.forall₂_map_left_iff,
        List.forall₂_map_right_iff, List.forall₂_same]
      exact fun c _ => .param _ c.param
    · simpa using hlen.symm
    · rw [hparams]
      exact List.nodup_range.map paramName_injective
    · rw [hparams, List.forall_mem_map]
      exact fun j _ => old_paramName _ j
    · rw [hparams, List.forall_mem_map, List.nil_append]
      intro j hj a ha
      exact (hargs a ha).2 j (by simpa using hj)
  exact Expr.yields_field line hm hvar hc hfilled (fun a ha => (hargs a ha).1) (by simp [parts])
    hlabels hv n₂

/-- A constructor has a value, which does not depend on the state. -/
theorem exists_value {cs : List Component} {n : Note} {e : Expr}
    (h : Expr.Under (cs.map (·.param)) (.record n (cs.map (Component.value Component.noteOf))) e) :
    ∃ c, Expr.Under (cs.map (·.param)) (.record n (cs.map (Component.value Component.noteOf))) c ∧
      ∀ line (m : Machine), (∀ b : Builtin, m.globals.lookup b.name = none) →
        Expr.Yields line m e c m.drawn := by
  cases cs with
  | nil =>
    cases h
    have hempty : (Expr.record n []).Evaluated :=
      @Expr.evaluated_record [] [] rfl (by simp) n
    exact ⟨_, .nil _, fun line m hm => .self hempty hm⟩
  | cons c cs =>
    cases h with
    | cons n' p h => exact ⟨_, .cons n' .erased h, fun line m _ => .lam⟩

/-- A struct whose fields can be resolved, have different names and mention neither the struct nor
the parameters of its constructor. Its name stands for the record type of the fields. The
constructor is accepted in every scope and has the type of a function from the fields to the
record, with the types of the abbreviation but for names drawn for them, which are drawn anew; it
goes through the later stages as it is, and its value gives each field the argument for it. -/
theorem struct_constructor {code : String} {p : Program Item} (hp : Program.ofText code = .ok p)
    {pre post : List Item} {line : Nat} {S : String} {fields : List (Member Ty)}
    (hsplit : p.stmts = pre ++ .struct line S fields :: post) {aliases : Aliases} {k : Nat}
    (hleaves : Leaves pre aliases k) (hlabels : (fields.map (·.name)).Nodup)
    {Ts : List (String × Ty)} {k₁ : Nat}
    (hTs : (Ty.resolveFields aliases [] (written fields)).run k = .ok (Ts, k₁))
    (hapart : Apart S fields) (i : Nat) :
    ∃ ds e Us k₂, (struct line S fields).desugar i = .ok ds ∧
      (ds.foldlM Decl.step (aliases, [])).run k =
        .ok ((Assoc.insert S (.record none Ts) aliases, [.assign line S e]), k₂) ∧
      (Ty.record none Ts).AlphaEq (.record none Us) ∧ (k₁ = k → Us = Ts) ∧
      ∀ Γ st, ∃ e' c, (e.infer Γ).run st =
          .ok ((e', (Us.map Prod.snd).foldr (.arrow none) (.record none Us)), st) ∧
        (∀ owners d, (e'.dispatch owners).run d = .ok (e', d)) ∧
        (∀ line (m : Machine), (∀ b : Builtin, m.globals.lookup b.name = none) →
          Expr.Yields line m e' c m.drawn) ∧
        Recovers S (fields.map (·.name)) c := by
  have hsource : ∀ item ∈ p.stmts, item.Source := Program.source_ofText hp
  rw [hsplit, List.forall_mem_append, List.forall_mem_cons] at hsource
  obtain ⟨hpre, hstruct, -⟩ := hsource
  obtain ⟨ds, cs, k₂, hds, hrun, hlabel, hparams, hα, hsame⟩ :=
    foldlM_struct hstruct (hleaves.within hpre) hlabels hTs hapart i
  have hlen : cs.length = fields.length := by simpa using congrArg List.length hlabel
  have hnodup : (cs.map (·.param)).Nodup := by
    rw [hparams]
    exact List.nodup_range.map paramName_injective
  refine ⟨ds, _, _, k₂, hds, hrun, hα, hsame, fun Γ st => ?_⟩
  obtain ⟨e', hinfer, hunder⟩ := Component.run_infer_lambdas (Component.run_infer_values
    (fun c hc => Component.get?_scope hnodup hc Γ) st)
  obtain ⟨c, hc, hyields⟩ := exists_value hunder
  rw [← hlen] at hparams
  rw [← hlabel] at hlabels ⊢
  refine ⟨e', c, ?_, fun owners d => ?_, hyields, recovers_under hlabels hparams hc⟩
  · rw [hinfer, List.map_map]
    rfl
  · exact hunder.run_dispatch fun c hc => .inl (List.mem_map_of_mem hc)

/-- A struct with a field of an abbreviated type and one of a function type. -/
def pairSample : String := "type I = Int;\nstruct P \x7bx: I; f: I -> I;\x7d\n"

def pairFields : List (Member Ty) :=
  [⟨2, "x", .name (some 2) "I"⟩,
    ⟨2, "f", .arrow (some 2) (.name (some 2) "I") (.name (some 2) "I")⟩]

/-- The second field of a pair of an integer and a function. -/
theorem struct_constructor_pair : ∃ c u k, u.shape [] = (Expr.var .blank "print").shape [] ∧
    Expr.Yields 3 { globals := [("P", c)] } (.proj .blank (.app .blank (.app .blank
      (.var .blank "P") (.val .blank (.int 5))) (.var .blank "print")) "f") u k := by
  have hp : Program.ofText pairSample =
      .ok ⟨1, [.typedef 1 "I" (.name (some 1) "Int"), struct 2 "P" pairFields]⟩ := by cbv
  have hleaves : Leaves [.typedef 1 "I" (.name (some 1) "Int")] [("I", .name (some 1) "Int")] 0 :=
    ⟨_, _, rfl, rfl⟩
  have hTs : (Ty.resolveFields [("I", .name (some 1) "Int")] [] (written pairFields)).run 0 =
      .ok ([("x", .name (some 1) "Int"), ("f", .arrow none (.name (some 1) "Int")
        (.name (some 1) "Int"))], 0) := rfl
  obtain ⟨_, _, _, _, -, -, -, -, hall⟩ := struct_constructor hp
    (List.singleton_append (l := [struct 2 "P" pairFields])).symm hleaves (by decide) hTs
    (by unfold Apart; decide) 0
  obtain ⟨_, c, -, -, -, hrecovers⟩ := hall .builtins {}
  have hargs : ∀ a ∈ [Expr.val .blank (.int 5), .var .blank "print"],
      a.Held 0 ∧ ∀ j < 2, paramName j ∉ a.freeVars := by
    have hprint : OldName 0 "print" := SourceName.old (by unfold SourceName; decide) 0
    rw [List.forall_mem_cons, List.forall_mem_singleton]
    refine ⟨⟨⟨⟨.val, rfl⟩, fun w hw => by cases hw⟩, by decide⟩,
      ⟨⟨⟨.builtin rfl (by decide) (by decide), rfl⟩, ?_⟩, by decide⟩⟩
    simpa [Expr.OldAt, Expr.termNames] using hprint
  obtain ⟨u, k, hshape, hyields⟩ := hrecovers { globals := [("P", c)] } 3 .blank .blank
    [(.blank, .val .blank (.int 5)), (.blank, .var .blank "print")] "f" (.var .blank "print")
    (fun b => by cases b <;> rfl) rfl rfl hargs (by simp [pairFields])
  exact ⟨c, u, k, hshape, hyields⟩

/-- A field whose type is an application under a quantifier, for which a name is drawn. -/
def redrawnSample : String :=
  "type K = forall a. forall b. a -> b -> a;\nstruct S \x7bf: forall b. K b;\x7d\n" ++
    "copy = \\s: S. S s.f;\n"

/-- The name `b$k` stands for the variable of the inner quantifier. -/
def redrawn (x : String) : Ty :=
  .all (some 2) "b" [] (.all (some 1) x [] (.arrow none (.name (some 2) "b")
    (.arrow none (.name none x) (.name (some 2) "b"))))

/-- The struct's name stands for another type than that of the records the constructor makes, and a
copy of such a record from its own field is refused. -/
theorem struct_constructor_redrawn : ∃ T U n body, T = redrawn "b$1" ∧ U = redrawn "b$2" ∧
    Program.resolveText redrawnSample = .ok (⟨1, [.assign 2 "S" (.lam .blank "__x0" (.typed U)
        (.record .blank [("f", .var .blank "__x0")])),
      .assign 3 "copy" (.lam n "s" (.typed (.record none [("f", T)])) body)]⟩, 2) ∧
    (Ty.record none [("f", T)]).same (.record none [("f", U)]) = false ∧
    (Program.inferText redrawnSample).isOk = false := by
  refine ⟨_, _, ⟨some 3, none⟩, .app ⟨some 3, none⟩ (.var ⟨some 3, none⟩ "S")
    (.proj ⟨some 3, none⟩ (.var ⟨some 3, none⟩ "s") "f"), rfl, rfl, ?_, ?_, ?_⟩
  · cbv
  · decide
  · decide +kernel

end Item

end TraitCalculus
