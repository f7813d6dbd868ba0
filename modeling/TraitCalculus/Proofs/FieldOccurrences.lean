import Mathlib
import TraitCalculus.Proofs.DictionaryStock
import TraitCalculus.Proofs.LexicalScope
import TraitCalculus.Proofs.Places

/-! Which variables dictionary passing takes for fields of traits. Typing and dictionary passing
each keep track of what names stand for, and follow the same binders and statements, but for two
things: an assignment hides a field of its name from dictionary passing in its own expression
already, and dictionary parameters hide fields of their names. -/
namespace TraitCalculus

namespace Frame

variable {owners : List (String × String)} {d : Dictionaries} {e : Expr}

/-- Dispatch of the node with `e` in it comes to `e`, with field names, a table and the dictionary
parameters that the node binds: the parts before it have been dispatched, and the function of a
type application is neither a field nor left as it is. -/
inductive Enters (owners : List (String × String)) (d : Dictionaries) (e : Expr) :
    Frame → List (String × String) → Dictionaries → List String → Prop
  | lam {n : Note} {x : String} {p : Param} :
      Enters owners d e (.lam n x p) (Assoc.erase x owners) d []
  | tlam {n : Note} {x : String} {bounds dicts : List String} {d' : Dictionaries}
      (h : (Dictionaries.bind x bounds.reverse).run d = .ok (dicts, d')) :
      Enters owners d e (.tlam n x bounds) (Expr.hide x dicts owners) d' dicts
  | test {n : Note} {y z : Expr} : Enters owners d e (.test n y z) owners d []
  | yes {n : Note} {c z c' : Expr} {d' : Dictionaries}
      (hc : (c.dispatch owners).run d = .ok (c', d')) : Enters owners d e (.yes n c z) owners d' []
  | no {n : Note} {c y c' y' : Expr} {d₁ d' : Dictionaries}
      (hc : (c.dispatch owners).run d = .ok (c', d₁))
      (hy : (y.dispatch owners).run d₁ = .ok (y', d')) : Enters owners d e (.no n c y) owners d' []
  | left {n : Note} {op : BinOp} {r : Expr} : Enters owners d e (.left n op r) owners d []
  | right {n : Note} {op : BinOp} {l l' : Expr} {d' : Dictionaries}
      (hl : (l.dispatch owners).run d = .ok (l', d')) :
      Enters owners d e (.right n op l) owners d' []
  | operand {n : Note} {op : UnOp} : Enters owners d e (.operand n op) owners d []
  | fn {n : Note} {a : Expr} : Enters owners d e (.fn n a) owners d []
  | arg {n : Note} {f f' : Expr} {d' : Dictionaries}
      (hf : (f.dispatch owners).run d = .ok (f', d')) : Enters owners d e (.arg n f) owners d' []
  | typeFn {n : Note} {t : Ty} (hfield : e.fieldOf? owners = none)
      (hwanted : e.wanted.isEmpty = true) : Enters owners d e (.typeFn n t) owners d []
  | ascribed {n : Note} {t : Ty} : Enters owners d e (.ascribed n t) owners d []
  | projected {n : Note} {label : String} : Enters owners d e (.projected n label) owners d []
  | item {n : Note} {before after before' : List Expr} {d' : Dictionaries}
      (hb : (Expr.dispatchItems owners before).run d = .ok (before', d')) :
      Enters owners d e (.item n before after) owners d' []
  | field {n : Note} {before after before' : List (String × Expr)} {label : String}
      {d' : Dictionaries} (hb : (Expr.dispatchFields owners before).run d = .ok (before', d')) :
      Enters owners d e (.field n before label after) owners d' []

end Frame

section Failure

variable {σ ε α β : Type}

theorem run_bind_of_error {m : StateT σ (Except ε) α} {f : α → StateT σ (Except ε) β} {s : σ}
    {err : ε} (h : m.run s = .error err) : (m >>= f).run s = .error err := by
  rw [StateT.run_bind, h]
  rfl

end Failure

namespace Frame.Enters

variable {owners owners' : List (String × String)} {d d' : Dictionaries} {e : Expr} {F : Frame}
  {dicts : List String}

/-- The node is not dispatched if the part it comes to is not. -/
theorem error (h : F.Enters owners d e owners' d' dicts) {err : DictionaryError}
    (he : (e.dispatch owners').run d' = .error err) :
    ((F.fill e).dispatch owners).run d = .error err := by
  cases h with
  | lam | test | left | operand | fn | ascribed | projected => exact run_bind_of_error he
  | tlam hbind | yes hbind | right hbind | arg hbind =>
    rw [fill, Expr.dispatch, run_bind_of_ok hbind]
    exact run_bind_of_error he
  | no hc hy =>
    rw [fill, Expr.dispatch, run_bind_of_ok hc, run_bind_of_ok hy]
    exact run_bind_of_error he
  | typeFn hfield hwanted =>
    rw [fill, Expr.dispatch, hfield, if_pos hwanted]
    exact run_bind_of_error he
  | @item n before after before' d' hb | @field n before after before' label d' hb =>
    refine run_bind_of_error ?_
    induction before generalizing d before' with
    | nil =>
      obtain ⟨-, rfl⟩ := run_pure_eq_ok hb
      exact run_bind_of_error he
    | cons b before ih =>
      obtain ⟨b', d₁, hfirst, h⟩ := run_bind_eq_ok hb
      obtain ⟨rest, hrest, rfl⟩ := run_bind_pure_eq_ok h
      exact (run_bind_of_ok hfirst).trans (run_bind_of_error (ih hrest))

/-- The field names inside: those that neither the node's name nor a dictionary parameter
hides. -/
theorem lookup (h : F.Enters owners d e owners' d' dicts) (x : String) :
    owners'.lookup x = if F.binder? = some x ∨ x ∈ dicts then none else owners.lookup x := by
  cases h with
  | @lam n y p =>
    by_cases hx : x = y
    · subst hx
      simp [binder?, Assoc.lookup_erase_self]
    · have hy : y ≠ x := Ne.symm hx
      simp [binder?, hy, Assoc.lookup_erase_of_ne owners hx]
  | @tlam n y bounds dicts d' hbind =>
    rw [Expr.lookup_hide]
    simp [binder?, eq_comm]
  | _ => simp [binder?]

end Frame.Enters

namespace Place

/-- Dispatch of an expression comes to the part at a place. -/
inductive Enters (e : Expr) : List (String × String) → Dictionaries → Place →
    List (String × String) → Dictionaries → List String → Prop
  | here {owners : List (String × String)} {d : Dictionaries} : Enters e owners d [] owners d []
  | step {owners owners₁ owners₂ : List (String × String)} {d d₁ d₂ : Dictionaries} {F : Frame}
      {K : Place} {dicts dicts' : List String}
      (hF : F.Enters owners d (K.fill e) owners₁ d₁ dicts)
      (hK : Enters e owners₁ d₁ K owners₂ d₂ dicts') :
      Enters e owners d (F :: K) owners₂ d₂ (dicts ++ dicts')

variable {owners owners' : List (String × String)} {d d' : Dictionaries} {e : Expr} {K : Place}
  {dicts : List String}

theorem Enters.error (h : Enters e owners d K owners' d' dicts) {err : DictionaryError}
    (he : (e.dispatch owners').run d' = .error err) :
    ((K.fill e).dispatch owners).run d = .error err := by
  induction h with
  | here => exact he
  | step hF _ ih => exact hF.error (ih he)

theorem Enters.lookup_eq_some_iff (h : Enters e owners d K owners' d' dicts) {x trait : String} :
    owners'.lookup x = some trait ↔ owners.lookup x = some trait ∧ ¬K.Binds x ∧ x ∉ dicts := by
  induction h with
  | here => simp [Binds]
  | step hF _ ih =>
    rw [ih, hF.lookup, binds_cons]
    split_ifs with hhidden
    · simp only [false_and, List.mem_append, not_or, false_iff]
      tauto
    · rw [not_or] at hhidden
      simp only [List.mem_append]
      tauto

/-- Binders hide what statements announce. -/
theorem lookup_origins_eq_announced {O : Origins} {x trait : String} {type : Ty} :
    (K.origins O).lookup x = some (.announced trait type) ↔
      O.lookup x = some (.announced trait type) ∧ ¬K.Binds x := by
  induction K generalizing O with
  | nil => simp [origins, Binds]
  | cons F K ih =>
    have hstep : (F.origins O).lookup x = some (.announced trait type) ↔
        O.lookup x = some (.announced trait type) ∧ F.binder? ≠ some x := by
      cases F with
      | lam n y p | tlam n y bounds =>
        simp only [Frame.origins, Frame.binder?, Assoc.lookup_cons_if]
        split_ifs with hx
        · simp [hx]
        · simp [Ne.symm hx]
      | _ => simp [Frame.origins, Frame.binder?]
    have hcons : origins (F :: K) O = origins K (F.origins O) := rfl
    rw [hcons, ih, hstep, binds_cons, not_or, and_assoc]

end Place

namespace Stmt

/-- The field names in the expression of a statement, and behind it. -/
def owners (owners : List (String × String)) : Stmt → List (String × String)
  | assign _ x _ => Assoc.erase x owners
  | field _ x trait _ => Assoc.insert x trait owners
  | _ => owners

/-- Dispatch of statements, cut in two. -/
theorem run_dispatchAll_append {os : List (String × String)} {done pre rest ss : List Stmt}
    {d d' : Dictionaries} (h : (dispatchAll os done pre).run d = .ok (ss, d')) :
    (dispatchAll os done (pre ++ rest)).run d =
      (dispatchAll (pre.foldl owners os) ss.reverse rest).run d' := by
  induction pre generalizing os done d with
  | nil =>
    obtain ⟨rfl, rfl⟩ := run_pure_eq_ok h
    rw [List.reverse_reverse]
    rfl
  | cons s pre ih =>
    cases s with
    | assign line x e | eval line e | inst line trait type dict =>
      obtain ⟨e', d₁, he, h⟩ := run_bind_eq_ok h
      rw [List.cons_append, dispatchAll, run_bind_of_ok he]
      exact ih h
    | field line x trait type => exact ih h

/-- The field names behind statements are those whose latest meaning is a trait's announcement. -/
theorem lookup_owners {os : List (String × String)} {O : Origins} {ss : List Stmt}
    {x trait : String}
    (h : os.lookup x = some trait ↔ ∃ type, O.lookup x = some (.announced trait type)) :
    (ss.foldl owners os).lookup x = some trait ↔
      ∃ type, (ss.foldl origins O).lookup x = some (.announced trait type) := by
  induction ss generalizing os O with
  | nil => exact h
  | cons s ss ih =>
    apply ih
    cases s with
    | assign line y e =>
      simp only [owners, origins, Assoc.lookup_cons_if]
      by_cases hx : x = y
      · subst hx
        simp [Assoc.lookup_erase_self]
      · rw [Assoc.lookup_erase_of_ne os hx, if_neg hx, h]
    | eval line e => exact h
    | inst line trait' type dict => exact h
    | field line y trait' type =>
      simp only [owners, origins, Assoc.lookup_cons_if]
      by_cases hx : x = y
      · subst hx
        simp [Assoc.lookup_insert_self]
      · rw [Assoc.lookup_insert_of_ne trait' os hx, if_neg hx, h]

end Stmt

namespace Program

/-- Dispatch of a program comes to the part `e` at the place `K` in the expression of the
statement `s` behind the statements `pre`: those have been dispatched, and it comes to the part
with the field names `owners` and the table `d`, under the dictionary parameters `dicts`. -/
structure Visits (q : Program Stmt) (pre : List Stmt) (s : Stmt) (K : Place) (e : Expr)
    (owners : List (String × String)) (d : Dictionaries) (dicts : List String) : Prop where
  statement : ∃ post, q.stmts = pre ++ s :: post
  expression : ∃ line, s.expr? = some (line, K.fill e)
  entered : ∃ ss d₀, (Stmt.dispatchAll [] [] pre).run {} = .ok (ss, d₀) ∧
    K.Enters e (s.owners (pre.foldl Stmt.owners [])) d₀ owners d dicts

variable {q : Program Stmt} {pre : List Stmt} {s : Stmt} {K : Place} {e : Expr}
  {owners : List (String × String)} {d : Dictionaries} {dicts : List String}

/-- The program is not dispatched if a part that dispatch comes to is not. -/
theorem Visits.error (h : q.Visits pre s K e owners d dicts) {err : DictionaryError}
    (he : (e.dispatch owners).run d = .error err) : q.dispatch = .error err := by
  obtain ⟨post, hq⟩ := h.statement
  obtain ⟨line, hs⟩ := h.expression
  obtain ⟨ss, d₀, hpre, hK⟩ := h.entered
  have hexpr := hK.error he
  have hrun : (Stmt.dispatchAll [] [] q.stmts).run {} = .error err := by
    rw [hq, Stmt.run_dispatchAll_append hpre]
    cases s with
    | assign l x f | eval l f =>
      obtain ⟨-, rfl⟩ := Prod.mk.inj (Option.some.inj hs)
      exact run_bind_of_error hexpr
    | inst l trait type dict => cases hs
    | field l x trait type => cases hs
  rw [dispatch, hrun]

theorem Visits.lookup_iff (h : q.Visits pre s K e owners d dicts) {x trait : String} :
    owners.lookup x = some trait ↔
      (∃ type, (K.origins (Origins.after pre)).lookup x = some (.announced trait type)) ∧
      s.assigned? ≠ some x ∧ x ∉ dicts := by
  obtain ⟨line, hs⟩ := h.expression
  obtain ⟨ss, d₀, -, hK⟩ := h.entered
  have hbuiltins : ([] : List (String × String)).lookup x = some trait ↔
      ∃ type, Origins.builtins.lookup x = some (.announced trait type) := by
    constructor
    · exact fun h => nomatch h
    · rintro ⟨type, htype⟩
      obtain ⟨b, -, hb⟩ := List.mem_map.mp (Assoc.mem_of_lookup htype)
      cases hb
  have hglobals : (pre.foldl Stmt.owners []).lookup x = some trait ↔ ∃ type,
      (pre.foldl Stmt.origins Origins.builtins).lookup x = some (.announced trait type) :=
    Stmt.lookup_owners hbuiltins
  -- in its own expression, an assignment already hides a field of its name
  have hown : (s.owners (pre.foldl Stmt.owners [])).lookup x = some trait ↔
      (pre.foldl Stmt.owners []).lookup x = some trait ∧ s.assigned? ≠ some x := by
    cases s with
    | assign l y f =>
      simp only [Stmt.owners, Stmt.assigned?]
      by_cases hx : x = y
      · subst hx
        simp [Assoc.lookup_erase_self]
      · simp [Assoc.lookup_erase_of_ne _ hx, Ne.symm hx]
    | eval l f => simp [Stmt.owners, Stmt.assigned?]
    | inst l trait type dict => cases hs
    | field l y trait type => cases hs
  rw [hK.lookup_eq_some_iff, hown, hglobals, Origins.after]
  simp only [Place.lookup_origins_eq_announced, exists_and_right]
  tauto

/-- Fields in dictionary passing. A variable that it visits, or looks at as the function of a type
application, counts as a field there exactly if typing found it to be the field that a trait
announced, unless it stands in an assignment to its own name or under a dictionary parameter of
its name. -/
theorem dispatch_fields {code : String} {p : Program Stmt} {drawn : Nat} {st : TypingState}
    (hr : resolveText code = .ok (p, drawn)) (hi : (p.infer drawn).2 = .ok (q, st))
    (hv : q.Visits pre s K e owners d dicts) :
    (∀ err, (e.dispatch owners).run d = .error err → q.dispatch = .error err) ∧
    ∀ n x, (e = .var n x ∨ ∃ m t, e = .tapp m (.var n x) t) →
      (∃ Γ u, HasType Γ (.var n x) u ∧ (K.origins (Origins.after pre)).Shows Γ) ∧
      ∀ trait, owners.lookup x = some trait ↔
        (∃ type, (K.origins (Origins.after pre)).lookup x = some (.announced trait type)) ∧
        s.assigned? ≠ some x ∧ x ∉ dicts := by
  refine ⟨fun err => hv.error, fun n x hvar => ⟨?_, fun trait => hv.lookup_iff⟩⟩
  obtain ⟨post, hq⟩ := hv.statement
  obtain ⟨line, hs⟩ := hv.expression
  obtain ⟨htypes, -, -⟩ := infer_sound hr hi
  rw [hq] at htypes
  obtain ⟨Δ, hrest, hΔ⟩ := htypes.split Origins.shows_builtins
  -- the statement's derivation has one for the part, and so one for the variable
  have hexpr : ∃ t, HasType Δ (K.fill e) t := by
    cases hrest with
    | assign he => exact (Prod.mk.inj (Option.some.inj hs)).2 ▸ ⟨_, he⟩
    | eval he => exact (Prod.mk.inj (Option.some.inj hs)).2 ▸ ⟨_, he⟩
    | inst => cases hs
    | field => cases hs
  obtain ⟨t, ht⟩ := hexpr
  obtain ⟨Γ, u, hu, hΓ⟩ := HasType.place hΔ ht
  rcases hvar with rfl | ⟨m, v, rfl⟩
  · exact ⟨Γ, u, hu, hΓ⟩
  · cases hu with
    | tapp hf => exact ⟨Γ, _, hf, hΓ⟩

/-- A field under a bounded type lambda. -/
def accessedSample : String :=
  "trait Show a \x7bshow: a -> String;\x7d\n" ++ "f = \\a impl Show. \\x: a. show @a x;\n"

/-- The field is the function called in the body. -/
def accessesField (q : Program Stmt) : Bool :=
  match q.stmts with
  | [.field _ x trait _,
      .assign _ "f" (.tlam _ "a" ["Show"] (.lam _ "x" _ (.app _ (.tapp _ (.var _ "show") _) _)))] =>
    decide (x = "show" ∧ trait = "Show")
  | _ => false

theorem dispatch_fields_accessed : ∃ p drawn q st pre s K m n t owners d dicts,
    resolveText accessedSample = .ok (p, drawn) ∧ (p.infer drawn).2 = .ok (q, st) ∧
    q.Visits pre s K (.tapp m (.var n "show") t) owners d dicts ∧
    owners.lookup "show" = some "Show" := by
  have hrun : (inferText accessedSample).toOption.any accessesField = true := by
    decide +kernel
  cases hq : inferText accessedSample with
  | error e =>
    rw [hq] at hrun
    cases hrun
  | ok q =>
    rw [hq] at hrun
    obtain ⟨p, drawn, st, hr, hi⟩ := exists_infer_of_inferText hq
    simp only [Except.toOption, Option.any_some, accessesField] at hrun
    split at hrun
    · next line x trait type line' n₁ n₂ param n₃ m n t a hstmts =>
      obtain ⟨rfl, rfl⟩ : x = "show" ∧ trait = "Show" := of_decide_eq_true hrun
      have hbind := Dictionaries.run_bind "a" ["Show"].reverse {}
      -- the type lambda names a dictionary parameter, and the lambda has another name
      have hv : q.Visits [.field line "show" "Show" type] _
          [.tlam n₁ "a" ["Show"], .lam n₂ "x" param, .fn n₃ a] (.tapp m (.var n "show") t) _ _ _ :=
        ⟨⟨[], hstmts⟩, ⟨line', rfl⟩, _, _, rfl, .step (.tlam hbind) (.step .lam (.step .fn .here))⟩
      refine ⟨p, drawn, q, st, _, _, _, m, n, t, _, _, _, hr, hi, hv, ?_⟩
      refine (((dispatch_fields hr hi hv).2 n "show" (Or.inr ⟨m, t, rfl⟩)).2 "Show").mpr ?_
      exact ⟨⟨type, rfl⟩, by simp [Stmt.assigned?], by decide⟩
    · cases hrun

/-- A field that is assigned to its own name. -/
def reusedSample : String :=
  "trait Show a \x7bshow: a -> String;\x7d\n" ++
    "impl Show for Int \x7bshow = int_to_string;\x7d\n" ++ "show = show @Int;\n"

/-- The field is what is assigned last, and dispatch gets there. -/
def reusesField (q : Program Stmt) : Bool :=
  match q.stmts with
  | [.field l x trait type, .assign l₁ "__Show_inst_0" e, .inst l₂ trait' type' e',
      .assign _ "show" (.tapp _ (.var _ "show") _)] =>
    decide (x = "show" ∧ trait = "Show") && ((Stmt.dispatchAll [] [] [.field l x trait type,
      .assign l₁ "__Show_inst_0" e, .inst l₂ trait' type' e']).run {}).isOk
  | _ => false

theorem dispatch_fields_reused : ∃ p drawn q st pre s K m n t owners d dicts,
    resolveText reusedSample = .ok (p, drawn) ∧ (p.infer drawn).2 = .ok (q, st) ∧
    q.Visits pre s K (.tapp m (.var n "show") t) owners d dicts ∧
    (∃ type, (K.origins (Origins.after pre)).lookup "show" = some (.announced "Show" type)) ∧
    owners.lookup "show" = none := by
  have hrun : (inferText reusedSample).toOption.any reusesField = true := by
    decide +kernel
  cases hq : inferText reusedSample with
  | error e =>
    rw [hq] at hrun
    cases hrun
  | ok q =>
    rw [hq] at hrun
    obtain ⟨p, drawn, st, hr, hi⟩ := exists_infer_of_inferText hq
    simp only [Except.toOption, Option.any_some, reusesField] at hrun
    split at hrun
    · next l x trait type l₁ e l₂ trait' type' e' line m n t hstmts =>
      obtain ⟨hnames, hok⟩ := Bool.and_eq_true_iff.mp hrun
      obtain ⟨rfl, rfl⟩ : x = "show" ∧ trait = "Show" := of_decide_eq_true hnames
      cases hpre : (Stmt.dispatchAll [] [] [.field l "show" "Show" type,
          .assign l₁ "__Show_inst_0" e, .inst l₂ trait' type' e']).run {} with
      | error err =>
        rw [hpre] at hok
        cases hok
      | ok r =>
        have hv : q.Visits [.field l "show" "Show" type, .assign l₁ "__Show_inst_0" e,
            .inst l₂ trait' type' e'] (.assign line "show" (.tapp m (.var n "show") t)) []
            (.tapp m (.var n "show") t) _ _ _ :=
          ⟨⟨[], hstmts⟩, ⟨line, rfl⟩, _, _, hpre, .here⟩
        exact ⟨p, drawn, q, st, _, _, _, m, n, t, _, _, _, hr, hi, hv, ⟨type, rfl⟩,
          Assoc.lookup_erase_self _ _⟩
    · cases hrun

end Program

end TraitCalculus
