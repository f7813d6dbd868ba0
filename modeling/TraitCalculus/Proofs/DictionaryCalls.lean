import Mathlib
import TraitCalculus.Proofs.DictionaryFitting

/-! The calls of an evaluation. An expression that fits is evaluated to one with the same demand,
and on the way every lambda for a dictionary of a trait is applied to a dictionary of that trait. -/
namespace TraitCalculus

namespace World

/-- The shapes of the dictionaries that the globals hold. -/
def passed (W : World) (globals : List (String × Expr)) (trait : String) (s : Shape) : Prop :=
  ∃ g u, (trait, g) ∈ W.instances ∧ globals.lookup g = some u ∧ u.shape [] = s

/-- A call for a dictionary of a trait is supplied with one that the globals hold. -/
def Supplied (W : World) (globals : List (String × Expr)) (c : String × Expr) : Prop :=
  ∀ F, Dictionaries.Stands F c.1 → W.passed globals F (c.2.shape [])

/-- An expression without variables fits in this state of the machine. -/
abbrev Fit (W : World) (m : Machine) (e : Expr) (S : Demand) : Prop :=
  Expr.Fits W (W.passed m.globals) m.drawn [] e S

/-- The globals have been evaluated and have their demands. -/
structure Holds (W : World) (m : Machine) : Prop where
  fits : ∀ x v, m.globals.lookup x = some v → ∃ S, W.globals.lookup x = some S ∧ W.Fit m v S
  reduced : Expr.ReducedIn m

variable {W : World} {m m' : Machine} {e v : Expr} {S T : Demand}

/-- What fits still fits later. -/
theorem Fit.still (h : W.Fit m e S) (hl : m.Later m') : W.Fit m' e S := by
  unfold Fit
  rw [hl.globals]
  exact Expr.Fits.later h hl.drawn

theorem Holds.later (h : W.Holds m) (hl : m.Later m') : W.Holds m' where
  fits := by
    intro x v hx
    rw [hl.globals] at hx
    obtain ⟨S, hS, hv⟩ := h.fits x v hx
    exact ⟨S, hS, Fit.still hv hl⟩
  reduced := h.reduced.later hl

theorem Holds.builtins (hW : W.Sound) (h : W.Holds m) (b : Builtin) :
    m.globals.lookup b.name = none := by
  cases hb : m.globals.lookup b.name with
  | none => rfl
  | some v =>
    obtain ⟨S, hS, -⟩ := h.fits b.name v hb
    have hnone := hW.not_builtin hS
    rw [Builtin.ofName?_name] at hnone
    cases hnone

end World

namespace Demand

theorem plain_eq_arrow {S T : Demand} (h : arrow S T = plain) : S = plain ∧ T = plain :=
  arrow_injective (h.trans arrow_plain.symm)

theorem plain_eq_listOf {S : Demand} (h : listOf S = plain) : S = plain :=
  listOf_injective (h.trans rfl)

theorem isDict_of_eq {S : Demand} {F : String} (h : S = dict F) : S.isDict = true := by
  rw [h]
  rfl

end Demand

namespace Expr

namespace Fits

variable {W : World} {D : String → Shape → Prop} {k : Nat} {Δ : List (String × Demand)} {n : Note}
  {S T : Demand}

theorem lam_inv {x : String} {p : Param} {body : Expr}
    (h : Fits W D k Δ (.lam n x p body) (.arrow S T)) :
    W.Local x ∧ OldName k x ∧ (∀ F, Dictionaries.Stands F x → S = .dict F) ∧
      Fits W D k ((x, S) :: Δ) body T := by
  generalize hU : Demand.arrow S T = U at h
  cases h with
  | lam hx hold hparam hbody =>
    obtain ⟨rfl, rfl⟩ := Demand.arrow_injective hU
    exact ⟨hx, hold, hparam, hbody⟩
  | copy =>
    have hdict := Demand.isDict_of_eq hU
    rw [Demand.isDict_arrow] at hdict
    cases hdict

theorem val_inv {v : Value} (hT : T.isDict = false) (h : Fits W D k Δ (.val n v) T) :
    T = .plain := by
  cases h with
  | val => rfl
  | copy => cases hT

theorem list_inv {es : List Expr} (hT : T.isDict = false) (h : Fits W D k Δ (.list n es) T) :
    ∃ S, T = .listOf S ∧ ∀ e ∈ es, Fits W D k Δ e S := by
  cases h with
  | list h => exact ⟨_, rfl, h⟩
  | copy => cases hT

theorem exists_lookup_zip {α : Type} {fs : List (String × Expr)} {Ss : List α}
    (hlen : (fs.map Prod.snd).length = Ss.length) {label : String} {e : Expr}
    (h : fs.lookup label = some e) : ∃ S, ((fs.map Prod.fst).zip Ss).lookup label = some S ∧
      (e, S) ∈ (fs.map Prod.snd).zip Ss := by
  induction fs generalizing Ss with
  | nil => cases h
  | cons f fs ih =>
    cases Ss with
    | nil => cases hlen
    | cons S Ss =>
      rw [Assoc.lookup_cons_if] at h
      simp only [List.map_cons, List.zip_cons_cons, Assoc.lookup_cons_if]
      split_ifs at h ⊢ with hl
      · obtain rfl := Option.some.inj h
        exact ⟨S, rfl, List.mem_cons_self⟩
      · obtain ⟨T, hT, hmem⟩ := ih (by simpa using hlen) h
        exact ⟨T, hT, List.mem_cons_of_mem _ hmem⟩

theorem record_inv {fs : List (String × Expr)} (hT : T.isDict = false)
    (h : Fits W D k Δ (.record n fs) T) {label : String} {e : Expr}
    (hl : fs.lookup label = some e) : Fits W D k Δ e (T.get label) := by
  cases h with
  | record hlen h =>
    obtain ⟨S, hS, hmem⟩ := exists_lookup_zip hlen hl
    rw [Demand.get_ofFields, hS]
    exact h e S hmem
  | copy => cases hT

theorem builtin_inv (hW : W.Sound) {x : String} {b : Builtin} (hx : Builtin.ofName? x = some b)
    (hT : T.isDict = false) (h : Fits W D k [] (.var n x) T) : T = .plain := by
  cases h with
  | var h => cases h
  | global h =>
    rw [hW.not_builtin h] at hx
    cases hx
  | inst | copy => cases hT
  | builtin => rfl

/-- A dictionary is a copy of one that is known. -/
theorem dict_inv (hW : W.Sound) {v : Expr} {F : String} (h : Fits W D k [] v (.dict F))
    (hv : (v.shape []).Reduced) : D F (v.shape []) ∧
      ∃ R, R.isDict = false ∧ W.Serves F R ∧ Fits W D k [] v R := by
  generalize hU : Demand.dict F = U at h
  have hdict : U.isDict = true := Demand.isDict_of_eq hU.symm
  cases h with
  | lam =>
    rw [Demand.isDict_arrow] at hdict
    cases hdict
  | tlam | tapp | ascribe => cases hv
  | cond hT | bin hT | app hT | proj _ hT | field hT =>
    rw [hT] at hdict
    cases hdict
  | equality | un | builtin | val => cases hdict
  | var hx => cases hx
  | global hx =>
    rw [hW.values _ _ hx] at hdict
    cases hdict
  | inst hg =>
    cases hv with
    | builtin hb =>
      obtain ⟨R, hR, -⟩ := hW.instances _ _ hg
      rw [hW.not_builtin hR] at hb
      cases hb
  | list =>
    rw [Demand.isDict_listOf] at hdict
    cases hdict
  | record =>
    rw [Demand.isDict_ofFields] at hdict
    cases hdict
  | copy hv hR hF h =>
    obtain rfl := Demand.dict.inj hU
    exact ⟨hv, _, hR, hF, h⟩

theorem plain_lam {x : String} {p : Param} {body : Expr}
    (hx : x ∉ W.globals.map Prod.fst) (hb : Builtin.ofName? x = none) (hsource : SourceName x)
    (hfree : Dictionaries.reserved x = false) (h : Fits W D k ((x, .plain) :: Δ) body .plain) :
    Fits W D k Δ (.lam n x p body) .plain := by
  have hlocal : W.Local x := by
    rintro (h | h)
    · exact hx h
    · rw [hb] at h
      cases h
  exact .lam hlocal (hsource.old k)
    (fun F hF => absurd hF (Dictionaries.not_stands hfree F)) h

/-- The function `cons`. -/
theorem consFunction (hW : W.Sound) : Fits W D k Δ Expr.consFunction .plain := by
  have hsource : SourceName "__x" ∧ SourceName "__xs" := by
    unfold SourceName
    decide
  refine plain_lam hW.generated.1 (by decide) hsource.1 (by decide)
    (plain_lam hW.generated.2 (by decide) hsource.2 (by decide) ?_)
  refine .bin rfl (Or.inl rfl) ?_ (.var rfl)
  exact .list (S := .plain) (by simpa using .var rfl)

end Fits

/-- Each item is evaluated in some state of the machine. -/
theorem RanItems.forall₂ {line fuel : Nat} {es vs : List Expr} {m m' : Machine}
    (h : RanItems line fuel es m vs m') (hm : ReducedIn m) :
    m.Later m' ∧ List.Forall₂ (fun e v => ∃ m₁ m₂, m.Later m₁ ∧
      (e.eval line fuel).run m₁ = .ok v m₂ ∧ m₂.Later m') es vs := by
  induction h with
  | nil => exact ⟨.refl _, .nil⟩
  | @cons e v es vs m m₁ m' he _ ih =>
    obtain ⟨-, hl⟩ := reduced_of_eval he hm
    obtain ⟨hl', hes⟩ := ih (hm.later hl)
    refine ⟨hl.trans hl', .cons ⟨m, m₁, .refl m, he, hl'⟩ (hes.imp ?_)⟩
    rintro d u ⟨m₂, m₃, hl₂, hd, hl₃⟩
    exact ⟨m₂, m₃, hl.trans hl₂, hd, hl₃⟩

section Preservation

variable {W : World} {line fuel : Nat}

/-- Evaluation with this fuel keeps demands. -/
def Keeps (W : World) (line fuel : Nat) : Prop :=
  ∀ {e v : Expr} {m m' : Machine} {S : Demand}, W.Holds m → W.Fit m e S →
    (e.eval line fuel).run m = .ok v m' → W.Fit m' v S

theorem fit_joined {n : Note} {op : BinOp} {l r v : Expr} {m : Machine} {T : Demand}
    (hT : T.isDict = false) (hop : op = .add ∨ T = .plain) (hl : W.Fit m l T) (hr : W.Fit m r T)
    (h : Joined n op l r v) : W.Fit m v T := by
  cases h with
  | stuck => exact .bin hT hop hl hr
  | lit _ hadd =>
    have hplain : T = .plain := by
      rcases hop with hop | hop
      · obtain ⟨j, u, rfl⟩ := hadd hop
        exact hl.val_inv hT
      · exact hop
    rw [hplain]
    exact .val
  | lists hleft hright =>
    subst hleft hright
    obtain ⟨S, rfl, hes⟩ := hl.list_inv hT
    obtain ⟨S', hS, hfs⟩ := hr.list_inv hT
    obtain rfl := Demand.listOf_injective hS
    exact .list (List.forall_mem_append.mpr ⟨hes, hfs⟩)

theorem fit_applied (hW : W.Sound) {n n' : Note} {x : String} {a v : Expr} {b : Builtin}
    {m : Machine} {S T : Demand} (hx : Builtin.ofName? x = some b)
    (hf : W.Fit m (.var n' x) (.arrow S T)) (ha : W.Fit m a S)
    (h : Applied n (.var n' x) a b v) : W.Fit m v T := by
  obtain ⟨rfl, rfl⟩ := Demand.plain_eq_arrow (hf.builtin_inv hW hx (Demand.isDict_arrow S T))
  cases h with
  | arg => exact ha
  | lit => exact .val
  | head hlist =>
    subst hlist
    obtain ⟨S, hS, hes⟩ := ha.list_inv rfl
    obtain rfl := Demand.plain_eq_listOf hS.symm
    exact hes _ List.mem_cons_self
  | tail hlist =>
    subst hlist
    obtain ⟨S, hS, hes⟩ := ha.list_inv rfl
    rw [hS]
    exact .list fun e he => hes e (List.mem_of_mem_tail he)
  | stuck => exact .app rfl hf ha

/-- A copy of a dictionary is evaluated to another copy. -/
theorem passed_eval (hW : W.Sound) {e v : Expr} {m m' : Machine} {F : String} (hm : W.Holds m)
    (he : W.passed m.globals F (e.shape [])) (h : (e.eval line fuel).run m = .ok v m') :
    W.passed m'.globals F (v.shape []) := by
  obtain ⟨g, u, hg, hu, hshape⟩ := he
  have hred : (e.shape []).Reduced := hshape ▸ hm.reduced g u hu
  obtain ⟨hv, rfl⟩ := shape_eval_of_reduced hred (hm.builtins hW) h
  exact ⟨g, u, hg, hu, hshape.trans hv.symm⟩

/-- A part that is evaluated, and the state behind it. -/
theorem Keeps.part (ih : Keeps W line fuel) {e v : Expr} {m m' : Machine} {S : Demand}
    (hm : W.Holds m) (hfit : W.Fit m e S) (h : (e.eval line fuel).run m = .ok v m') :
    W.Fit m' v S ∧ m.Later m' ∧ W.Holds m' := by
  obtain ⟨-, hl⟩ := reduced_of_eval h hm.reduced
  exact ⟨ih hm hfit h, hl, hm.later hl⟩

/-- One more unit of fuel: a case for each rule of fitting. -/
theorem keeps_succ (hW : W.Sound) (ih : Keeps W line fuel) : Keeps W line (fuel + 1) := by
  intro e v m m' S hm hfit h
  unfold World.Fit at hfit
  generalize hΔ : ([] : List (String × Demand)) = Δ at hfit
  induction hfit with subst hΔ
  | lam hx hold hparam hbody =>
    cases ran_of_eval h with
    | lam => exact .lam hx hold hparam hbody
  | tlam hbody =>
    cases ran_of_eval h with
    | tlam h => exact ih hm hbody h
  | tapp hf =>
    cases ran_of_eval h with
    | tapp h => exact ih hm hf h
  | ascribe hf =>
    cases ran_of_eval h with
    | ascribe h => exact ih hm hf h
  | cond hT hc hy hz =>
    cases ran_of_eval h with
    | yes hc' _ hy' =>
      obtain ⟨-, hl, hm₁⟩ := ih.part hm hc hc'
      exact ih hm₁ (World.Fit.still hy hl) hy'
    | no hc' _ hz' =>
      obtain ⟨-, hl, hm₁⟩ := ih.part hm hc hc'
      exact ih hm₁ (World.Fit.still hz hl) hz'
    | cond hc' _ hy' hz' =>
      obtain ⟨hc₁, hl, hm₁⟩ := ih.part hm hc hc'
      obtain ⟨hy₁, hl', hm₂⟩ := ih.part hm₁ (World.Fit.still hy hl) hy'
      obtain ⟨hz₁, hl'', -⟩ := ih.part hm₂ (World.Fit.still hz (hl.trans hl')) hz'
      exact .cond hT (World.Fit.still hc₁ (hl'.trans hl'')) (World.Fit.still hy₁ hl'') hz₁
  | bin hT hop hleft hright =>
    cases ran_of_eval h with
    | short hl hd => exact ih hm hleft hl
    | bin hl _ hr hv =>
      obtain ⟨hl₁, hlater, hm₁⟩ := ih.part hm hleft hl
      obtain ⟨hr₁, hlater', -⟩ := ih.part hm₁ (World.Fit.still hright hlater) hr
      obtain ⟨rfl, hjoined⟩ := joined_of_join hv
      exact fit_joined hT hop (World.Fit.still hl₁ hlater') hr₁ hjoined
  | equality hop hleft hright =>
    cases ran_of_eval h with
    | short _ hd => rcases hop with rfl | rfl <;> cases hd
    | bin hl _ hr hv =>
      obtain ⟨hl₁, hlater, hm₁⟩ := ih.part hm hleft hl
      obtain ⟨hr₁, hlater', -⟩ := ih.part hm₁ (World.Fit.still hright hlater) hr
      obtain ⟨rfl, hjoined⟩ := joined_of_join hv
      cases hjoined with
      | stuck => exact .equality hop (World.Fit.still hl₁ hlater') hr₁
      | lit => exact .val
      | lists _ _ _ hlevel => rcases hop with rfl | rfl <;> cases hlevel
  | un he =>
    cases ran_of_eval h with
    | un he' hv =>
      have he₁ := ih hm he he'
      obtain ⟨rfl, ⟨-, rfl⟩ | ⟨-, k, w, rfl⟩⟩ := negate_ok hv
      · exact .un he₁
      · exact .val
  | app hT hf ha =>
    cases ran_of_eval h with
    | @call _ _ _ _ body _ w x _ _ m₁ m₂ _ hf' ha' hb =>
      obtain ⟨hf₁, hl, hm₁⟩ := ih.part hm hf hf'
      obtain ⟨ha₁, hl', hm₂⟩ := ih.part hm₁ (World.Fit.still ha hl) ha'
      obtain ⟨hx, hold, -, hbody⟩ := (World.Fit.still hf₁ hl').lam_inv
      have hdraw : m₂.Later { m₂ with drawn := ((body.subst x w).run m₂.drawn).2 } :=
        ⟨rfl, substIn_drawn_le body [] (some (x, w)) m₂.drawn⟩
      exact ih (hm₂.later hdraw) (hbody.subst hW hx hold ha₁) hb
    | builtin hf' hx ha' hb =>
      obtain ⟨hf₁, hl, hm₁⟩ := ih.part hm hf hf'
      obtain ⟨ha₁, hl', hm₂⟩ := ih.part hm₁ (World.Fit.still ha hl) ha'
      obtain ⟨hglobals, hdrawn, happlied⟩ := applied_of_evalBuiltin hb
      exact World.Fit.still (fit_applied hW hx (World.Fit.still hf₁ hl') ha₁ happlied)
        ⟨hglobals, hdrawn.ge⟩
    | app hf' ha' _ =>
      obtain ⟨hf₁, hl, hm₁⟩ := ih.part hm hf hf'
      obtain ⟨ha₁, hl', -⟩ := ih.part hm₁ (World.Fit.still ha hl) ha'
      exact .app hT (World.Fit.still hf₁ hl') ha₁
  | proj hR hT he =>
    cases ran_of_eval h with
    | field he' hfield hv =>
      obtain ⟨he₁, -, hm₁⟩ := ih.part hm he he'
      exact ih hm₁ (he₁.record_inv hR hfield) hv
    | proj he' _ => exact .proj hR hT (ih hm he he')
  | field hT he hF =>
    cases ran_of_eval h with
    | field he' hfield hv =>
      obtain ⟨he₁, hl, hm₁⟩ := ih.part hm he he'
      obtain ⟨-, R, hR, hserves, hrecord⟩ := he₁.dict_inv hW (reduced_of_eval he' hm.reduced).1
      rw [← hserves _ _ hF]
      exact ih hm₁ (hrecord.record_inv hR hfield) hv
    | proj he' _ => exact .field hT (ih hm he he') hF
  | var hx => cases hx
  | global hx =>
    cases ran_of_eval h with
    | global hv =>
      obtain ⟨S, hS, hfit⟩ := hm.fits _ _ hv
      obtain rfl := Option.some.inj (hx.symm.trans hS)
      exact hfit
    | name _ hv =>
      obtain ⟨-, -, b, hb, -⟩ := evalName_ok hv
      rw [hW.not_builtin hx] at hb
      cases hb
  | inst hg =>
    obtain ⟨R, hR, hserves⟩ := hW.instances _ _ hg
    cases ran_of_eval h with
    | global hv =>
      obtain ⟨S, hS, hfit⟩ := hm.fits _ _ hv
      obtain rfl := Option.some.inj (hR.symm.trans hS)
      exact .copy ⟨_, _, hg, hv, rfl⟩ (hW.values _ _ hR) hserves hfit
    | name _ hv =>
      obtain ⟨-, -, b, hb, -⟩ := evalName_ok hv
      rw [hW.not_builtin hR] at hb
      cases hb
  | builtin hx =>
    cases ran_of_eval h with
    | global hv =>
      rw [← Builtin.name_of_ofName? hx, hm.builtins hW] at hv
      cases hv
    | name _ hv =>
      obtain ⟨-, -, b, hb, ⟨⟨k, w, rfl⟩, -⟩ | ⟨rfl, -⟩ | ⟨-, rfl, -⟩⟩ := evalName_ok hv
      · exact .val
      · exact .consFunction hW
      · exact .builtin hx
  | val =>
    cases ran_of_eval h with
    | val => exact .val
  | list hes =>
    cases ran_of_eval h with
    | list hvs =>
      obtain ⟨-, hall⟩ := hvs.forall₂ hm.reduced
      refine .list (forall_mem_of_forall₂ hall hes ?_)
      rintro d u ⟨m₁, m₂, hl, hd, hl'⟩ hfit
      exact World.Fit.still (ih (hm.later hl) (World.Fit.still hfit hl) hd) hl'
  | record hlen hes =>
    cases ran_of_eval h with
    | record hvs =>
      obtain ⟨-, hall⟩ := hvs.forall₂ hm.reduced
      refine .record_zip (by simpa using hall.length_eq) (hall.length_eq.symm.trans hlen)
        (forall_zip_of_forall₂ hall hes ?_)
      rintro d u S ⟨m₁, m₂, hl, hd, hl'⟩ hfit
      exact World.Fit.still (ih (hm.later hl) (World.Fit.still hfit hl) hd) hl'
  | copy hv hR hserves _ ihv => exact .copy (passed_eval hW hm hv h) hR hserves (ihv h rfl)

theorem keeps (hW : W.Sound) (line fuel : Nat) : Keeps W line fuel := by
  induction fuel with
  | zero => exact fun _ _ h => nomatch h
  | succ fuel ih => exact keeps_succ hW ih

theorem fit_eval (hW : W.Sound) {e v : Expr} {m m' : Machine} {S : Demand} (hm : W.Holds m)
    (hfit : W.Fit m e S) (h : (e.eval line fuel).run m = .ok v m') :
    W.Fit m' v S ∧ m.Later m' ∧ W.Holds m' :=
  Keeps.part (keeps hW line fuel) hm hfit h

end Preservation

end Expr

/-- What follows a computation, if it ends well. -/
def Eval.after {α β : Type} (c : Eval α) (m : Machine) (f : α → Machine → List β) : List β :=
  match c.run m with
  | .ok a m => f a m
  | .error .. => []

theorem Eval.mem_after {α β : Type} {c : Eval α} {m : Machine} {f : α → Machine → List β} {b : β} :
    b ∈ c.after m f ↔ ∃ a m', c.run m = .ok a m' ∧ b ∈ f a m' := by
  unfold after
  constructor
  · intro h
    split at h
    · exact ⟨_, _, by assumption, h⟩
    · cases h
  · rintro ⟨a, m', hrun, h⟩
    rw [hrun]
    exact h

namespace Expr

/-- The calls while items are evaluated one after the other. -/
def callsItems (run : Expr → Eval Expr) (calls : Expr → Machine → List (String × Expr)) :
    List Expr → Machine → List (String × Expr)
  | [], _ => []
  | e :: es, m => calls e m ++ (run e).after m fun _ m => callsItems run calls es m

/-- The calls of lambdas while an expression is evaluated, in order: the parameter of each and its
evaluated argument. -/
def calls (line : Nat) : Nat → Expr → Machine → List (String × Expr)
  | 0, _, _ => []
  | fuel + 1, e, m =>
    match e with
    | tlam _ _ _ body => body.calls line fuel m
    | cond _ c y z =>
      c.calls line fuel m ++ (c.eval line fuel).after m fun c m =>
        match c with
        | val _ (.bool true) => y.calls line fuel m
        | val _ (.bool false) => z.calls line fuel m
        | _ => y.calls line fuel m ++ (y.eval line fuel).after m fun _ m => z.calls line fuel m
    | bin _ op l r =>
      l.calls line fuel m ++ (l.eval line fuel).after m fun l m =>
        if Shape.decides op (l.shape []) then [] else r.calls line fuel m
    | un _ _ e => e.calls line fuel m
    | app _ f a =>
      f.calls line fuel m ++ (f.eval line fuel).after m fun f m =>
        a.calls line fuel m ++ (a.eval line fuel).after m fun a m =>
          match f with
          | lam _ x _ body =>
            let (body, k) := (body.subst x a).run m.drawn
            (x, a) :: body.calls line fuel { m with drawn := k }
          | _ => []
    | tapp _ f _ => f.calls line fuel m
    | ascribe _ e _ => e.calls line fuel m
    | proj _ e label =>
      e.calls line fuel m ++ (e.eval line fuel).after m fun e m =>
        match e with
        | record _ fs =>
          match fs.lookup label with
          | some e => e.calls line fuel m
          | none => []
        | _ => []
    | list _ es => callsItems (eval line fuel) (calls line fuel) es m
    | record _ fs => callsItems (eval line fuel) (calls line fuel) (fs.map Prod.snd) m
    | _ => []

section Calls

variable {W : World} {line fuel : Nat}

/-- Evaluation with this fuel makes no call that is not supplied. -/
def Supplies (W : World) (line fuel : Nat) : Prop :=
  ∀ {e : Expr} {m : Machine} {S : Demand}, W.Holds m → W.Fit m e S →
    ∀ c ∈ e.calls line fuel m, W.Supplied m.globals c

theorem supplied_items (hW : W.Sound) (ih : Supplies W line fuel) {es : List Expr} {m : Machine}
    (hm : W.Holds m) (hes : ∀ e ∈ es, ∃ S, W.Fit m e S) :
    ∀ c ∈ callsItems (eval line fuel) (calls line fuel) es m, W.Supplied m.globals c := by
  induction es generalizing m with
  | nil => simp [callsItems]
  | cons e es ihs =>
    obtain ⟨⟨S, he⟩, hrest⟩ := List.forall_mem_cons.mp hes
    refine List.forall_mem_append.mpr ⟨ih hm he, fun c hc => ?_⟩
    obtain ⟨v, m₁, hv, hc⟩ := Eval.mem_after.mp hc
    obtain ⟨-, hl, hm₁⟩ := fit_eval hW hm he hv
    rw [← hl.globals]
    exact ihs hm₁ (fun e he => (hrest e he).imp fun S hS => World.Fit.still hS hl) c hc

/-- One more unit of fuel: a case for each rule of fitting. -/
theorem supplies_succ (hW : W.Sound) (ih : Supplies W line fuel) : Supplies W line (fuel + 1) := by
  intro e m S hm hfit
  unfold World.Fit at hfit
  generalize hΔ : ([] : List (String × Demand)) = Δ at hfit
  induction hfit with subst hΔ
  | lam => exact fun c hc => nomatch hc
  | tlam hbody => exact ih hm hbody
  | tapp hf => exact ih hm hf
  | ascribe he => exact ih hm he
  | un he => exact ih hm he
  | cond hT hc hy hz =>
    refine List.forall_mem_append.mpr ⟨ih hm hc, fun call hcall => ?_⟩
    obtain ⟨c', m₁, hc', hcall⟩ := Eval.mem_after.mp hcall
    obtain ⟨-, hl, hm₁⟩ := fit_eval hW hm hc hc'
    rw [← hl.globals]
    split at hcall
    · exact ih hm₁ (World.Fit.still hy hl) call hcall
    · exact ih hm₁ (World.Fit.still hz hl) call hcall
    · rcases List.mem_append.mp hcall with hcall | hcall
      · exact ih hm₁ (World.Fit.still hy hl) call hcall
      · obtain ⟨y', m₂, hy', hcall⟩ := Eval.mem_after.mp hcall
        obtain ⟨-, hl', hm₂⟩ := fit_eval hW hm₁ (World.Fit.still hy hl) hy'
        rw [← hl'.globals]
        exact ih hm₂ (World.Fit.still hz (hl.trans hl')) call hcall
  | bin _ _ hleft hright | equality _ hleft hright =>
    refine List.forall_mem_append.mpr ⟨ih hm hleft, fun call hcall => ?_⟩
    obtain ⟨l', m₁, hl', hcall⟩ := Eval.mem_after.mp hcall
    obtain ⟨-, hl, hm₁⟩ := fit_eval hW hm hleft hl'
    rw [← hl.globals]
    split_ifs at hcall
    · cases hcall
    · exact ih hm₁ (World.Fit.still hright hl) call hcall
  | app hT hf ha =>
    refine List.forall_mem_append.mpr ⟨ih hm hf, fun call hcall => ?_⟩
    obtain ⟨f', m₁, hf', hcall⟩ := Eval.mem_after.mp hcall
    obtain ⟨hf₁, hl, hm₁⟩ := fit_eval hW hm hf hf'
    rw [← hl.globals]
    rcases List.mem_append.mp hcall with hcall | hcall
    · exact ih hm₁ (World.Fit.still ha hl) call hcall
    · obtain ⟨a', m₂, ha', hcall⟩ := Eval.mem_after.mp hcall
      obtain ⟨ha₁, hl', hm₂⟩ := fit_eval hW hm₁ (World.Fit.still ha hl) ha'
      rw [← hl'.globals]
      cases f' with
      | lam n x p body =>
        obtain ⟨hx, hold, hparam, hbody⟩ := (World.Fit.still hf₁ hl').lam_inv
        rcases List.mem_cons.mp hcall with rfl | hcall
        · -- the parameter's name tells what the lambda demands
          intro F hF
          rw [hparam F hF] at ha₁
          exact (ha₁.dict_inv hW (reduced_of_eval ha' hm₁.reduced).1).1
        · have hdraw : m₂.Later { m₂ with drawn := ((body.subst x a').run m₂.drawn).2 } :=
            ⟨rfl, substIn_drawn_le body [] (some (x, a')) m₂.drawn⟩
          exact ih (hm₂.later hdraw) (hbody.subst hW hx hold ha₁) call hcall
      | _ => cases hcall
  | proj hR hT he =>
    refine List.forall_mem_append.mpr ⟨ih hm he, fun call hcall => ?_⟩
    obtain ⟨e', m₁, he', hcall⟩ := Eval.mem_after.mp hcall
    obtain ⟨he₁, hl, hm₁⟩ := fit_eval hW hm he he'
    rw [← hl.globals]
    split at hcall
    · split at hcall
      · rename_i hfield
        exact ih hm₁ (he₁.record_inv hR hfield) call hcall
      · cases hcall
    · cases hcall
  | field hT he hF =>
    refine List.forall_mem_append.mpr ⟨ih hm he, fun call hcall => ?_⟩
    obtain ⟨e', m₁, he', hcall⟩ := Eval.mem_after.mp hcall
    obtain ⟨he₁, hl, hm₁⟩ := fit_eval hW hm he he'
    obtain ⟨-, R, hR, -, hrecord⟩ := he₁.dict_inv hW (reduced_of_eval he' hm.reduced).1
    rw [← hl.globals]
    split at hcall
    · split at hcall
      · rename_i hfield
        exact ih hm₁ (hrecord.record_inv hR hfield) call hcall
      · cases hcall
    · cases hcall
  | var | global | inst | builtin | val => exact fun c hc => nomatch hc
  | list hes => exact supplied_items hW ih hm fun e he => ⟨_, hes e he⟩
  | record hlen hes =>
    refine supplied_items hW ih hm fun e he => ?_
    obtain ⟨S, hS⟩ := Fits.exists_mem_zip hlen he
    exact ⟨S, hes e S hS⟩
  | copy _ _ _ _ ihv => exact ihv rfl

theorem supplies (hW : W.Sound) (line fuel : Nat) : Supplies W line fuel := by
  induction fuel with
  | zero => exact fun _ _ c hc => nomatch hc
  | succ fuel ih => exact supplies_succ hW ih

end Calls

end Expr

end TraitCalculus
