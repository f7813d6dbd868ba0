import Mathlib
import TraitCalculus.Proofs.DictionaryCalls
import TraitCalculus.Proofs.ShapeTyping

/-! Evaluation keeps types. An expression that fits and has a type is evaluated to a value of this
type, and so is every expression that is evaluated on the way. In particular the test of a
conditional ends with a truth value, and no more than one branch is evaluated. -/
namespace TraitCalculus

namespace Expr.Fits

variable {W : World} {D : String → Shape → Prop} {k : Nat} {Δ : List (String × Demand)}
  {e : Expr} {S : Demand}

/-- The parts of what fits, except for the body of a lambda. -/
theorem parts (h : Fits W D k Δ e S) {f : Form} (hf : e.form? = some f) :
    ∀ d ∈ e.parts, ∃ T, Fits W D k Δ d T := by
  induction h with
  | lam | var | global | inst | builtin => cases hf
  | tlam h | un h | tapp h | ascribe h | proj _ _ h | field _ h =>
    exact List.forall_mem_singleton.mpr ⟨_, h⟩
  | cond _ hc hy hz =>
    exact List.forall_mem_cons.mpr ⟨⟨_, hc⟩,
      List.forall_mem_cons.mpr ⟨⟨_, hy⟩, List.forall_mem_singleton.mpr ⟨_, hz⟩⟩⟩
  | bin _ _ hl hr | equality _ hl hr | app _ hl hr =>
    exact List.forall_mem_cons.mpr ⟨⟨_, hl⟩, List.forall_mem_singleton.mpr ⟨_, hr⟩⟩
  | val => exact fun d hd => nomatch hd
  | list h => exact fun d hd => ⟨_, h d hd⟩
  | record hlen h =>
    intro d hd
    obtain ⟨T, hT⟩ := exists_mem_zip hlen hd
    exact ⟨T, h d T hT⟩
  | copy _ _ _ _ ih => exact fun d hd => (ih hf d hd).imp fun T hT => hT.closed _

theorem field_of {n : Note} {fs : List (String × Expr)} {label : String}
    (h : Fits W D k Δ (.record n fs) S) (he : fs.lookup label = some e) :
    ∃ T, Fits W D k Δ e T :=
  h.parts rfl e (List.mem_map.mpr ⟨_, Assoc.mem_of_lookup he, rfl⟩)

/-- A function and its argument, also in a copy of a dictionary. -/
theorem app_inv {n : Note} {f a : Expr} (h : Fits W D k [] (.app n f a) S) :
    ∃ T U, Fits W D k [] f (.arrow T U) ∧ Fits W D k [] a T := by
  generalize he : Expr.app n f a = e at h
  generalize hΔ : ([] : List (String × Demand)) = Δ at h
  induction h with subst hΔ
  | app _ hf ha =>
    obtain ⟨-, rfl, rfl⟩ := Expr.app.inj he
    exact ⟨_, _, hf, ha⟩
  | copy _ _ _ _ ih => exact ih he rfl
  | _ => cases he

/-- The lambdas around a variable have local names. -/
theorem around (h : Fits W D k Δ e S) (x : String) (xs : List String) :
    ∀ y ∈ e.around x xs, y ∈ xs ∨ W.Local y := by
  induction h generalizing xs with
  | @lam _ _ z _ _ _ _ hz _ _ _ ih =>
    intro y hy
    rw [Expr.around] at hy
    split_ifs at hy
    · cases hy
    · rcases ih (z :: xs) y hy with hmem | hlocal
      · rcases List.mem_cons.mp hmem with rfl | hmem
        · exact Or.inr hz
        · exact Or.inl hmem
      · exact Or.inr hlocal
  | tlam _ ih | un _ ih | tapp _ ih | ascribe _ ih | proj _ _ _ ih | field _ _ _ ih => exact ih xs
  | cond _ _ _ _ ihc ihy ihz =>
    exact List.forall_mem_append.mpr ⟨ihc xs, List.forall_mem_append.mpr ⟨ihy xs, ihz xs⟩⟩
  | bin _ _ _ _ ihl ihr | equality _ _ _ ihl ihr | app _ _ _ ihl ihr =>
    exact List.forall_mem_append.mpr ⟨ihl xs, ihr xs⟩
  | var | global | inst | builtin =>
    intro y hy
    rw [Expr.around] at hy
    split_ifs at hy
    · exact Or.inl hy
    · cases hy
  | val =>
    intro y hy
    cases hy
  | list _ ih =>
    intro y hy
    rw [around_of_form rfl] at hy
    obtain ⟨e, he, hy⟩ := List.mem_flatMap.mp hy
    exact ih e he xs y hy
  | record hlen _ ih =>
    intro y hy
    rw [around_of_form rfl] at hy
    obtain ⟨e, he, hy⟩ := List.mem_flatMap.mp hy
    obtain ⟨S, hS⟩ := exists_mem_zip hlen he
    exact ih e S hS xs y hy
  | copy _ _ _ _ ih => exact ih xs

/-- Substitution is the one of shapes: what is substituted is closed but for globals and builtins,
and no lambda has the name of one. -/
theorem shape_subst (hW : W.Sound) {x : String} {body new : Expr} {T : Demand}
    (h : Fits W D k [(x, S)] body T) (hold : OldName k x) (hnew : Fits W D k [] new S) :
    ((body.subst x new).run k).1.shape [] = (body.shape []).subst x (new.shape []) := by
  have hbody : ∀ w ∈ body.termNames, OldName k w := h.old hW fun y U hy => by
    rw [Assoc.lookup_cons_if] at hy
    split_ifs at hy with hyx
    · exact hyx ▸ hold
    · cases hy
  refine (shape_subst_iff body x new k hold hbody (hnew.old hW fun y U hy => nomatch hy)).mpr ?_
  intro y hy hfree
  exact absurd ((h.around x [] y hy).resolve_left List.not_mem_nil) (hnew.free_closed hW y hfree)

end Expr.Fits

/-- The globals have the types that the signature says. -/
def Signature.Holds (G : Signature) (m : Machine) : Prop :=
  ∀ x v, m.globals.lookup x = some v →
    ∃ A, G.globals.lookup x = some A ∧ Shape.Typed G [] (v.shape []) A

/-- The globals have their demands and their types. -/
structure Machine.Ready (W : World) (G : Signature) (m : Machine) : Prop where
  fits : W.Holds m
  types : G.Holds m

theorem Machine.Ready.later {W : World} {G : Signature} {m m' : Machine} (h : m.Ready W G)
    (hl : m.Later m') : m'.Ready W G := by
  refine ⟨h.fits.later hl, ?_⟩
  unfold Signature.Holds
  rw [hl.globals]
  exact h.types

/-- The types of results of operators on literals. -/
theorem Value.type_apply {op : BinOp} {v w u : Value} {A : Nameless} (hop : op.Takes A)
    (hv : v.type = A) (hw : w.type = A) (h : v.apply op w = .ok u) : u.type = op.result A := by
  have number : A = .int → ∃ i j, v = int i ∧ w = int j := by
    rintro rfl
    obtain ⟨i, rfl⟩ := int_of_type hv
    obtain ⟨j, rfl⟩ := int_of_type hw
    exact ⟨i, j, rfl, rfl⟩
  cases op with
  | or | and => cases h
  | eq | neq =>
    obtain rfl := Except.ok.inj h
    rfl
  | gt | geq | lt | leq =>
    obtain ⟨i, j, rfl, rfl⟩ := number hop
    obtain rfl := Except.ok.inj h
    rfl
  | add =>
    rcases hop with rfl | rfl | rfl | ⟨B, rfl⟩
    · obtain ⟨i, j, rfl, rfl⟩ := number rfl
      obtain rfl := Except.ok.inj h
      rfl
    · obtain ⟨s, rfl⟩ := text_of_type hv
      obtain ⟨t, rfl⟩ := text_of_type hw
      obtain rfl := Except.ok.inj h
      rfl
    · cases v <;> cases hv
    · cases v <;> cases hv
  | sub | mul =>
    obtain ⟨i, j, rfl, rfl⟩ := number hop
    obtain rfl := Except.ok.inj h
    rw [hop]
    rfl
  | div | mod =>
    obtain ⟨i, j, rfl, rfl⟩ := number hop
    rw [hop]
    simp only [apply, div, mod] at h
    split_ifs at h
    obtain rfl := Except.ok.inj h
    rfl

namespace Expr

open Shape (Typed Canonical)

section Steps

variable {G : Signature} {n : Note} {m m' : Machine} {A B : Nameless}

/-- A value of a basic type. -/
theorem literal_of (hG : G.Sound) {v : Expr} {x : String} (hv : (v.shape []).Canonical)
    (h : Typed G [] (v.shape []) (.free x)) : ∃ k u, v = val k u ∧ u.type = .free x := by
  obtain ⟨u, hu, htype⟩ := h.literal_of hG hv
  obtain ⟨k, hk⟩ := lit?_shape_iff.mp (show (v.shape []).lit? = some u by rw [hu]; rfl)
  exact ⟨k, u, hk, htype⟩

theorem typed_literal {k : Note} {u : Value} (h : u.type = A) :
    Typed G [] ((val k u).shape []) A :=
  h ▸ .form .val

theorem typed_list {k : Note} {es : List Expr} (h : ∀ e ∈ es, Typed G [] (e.shape []) A) :
    Typed G [] ((list k es).shape []) (.list A) := by
  rw [shape_list]
  refine .form (.list fun s hs => ?_)
  obtain ⟨e, he, rfl⟩ := List.mem_map.mp hs
  exact h e he

/-- A list of elements of a type. -/
theorem elements_of (hG : G.Sound) {v : Expr} (hv : (v.shape []).Canonical)
    (h : Typed G [] (v.shape []) (.list A)) :
    ∃ k es, v = list k es ∧ ∀ e ∈ es, Typed G [] (e.shape []) A := by
  obtain ⟨k, es, rfl⟩ := isList_shape_iff.mp (h.isList hG hv (Or.inr ⟨A, rfl⟩))
  refine ⟨k, es, rfl, fun e he => ?_⟩
  have hmem : e.shape [] ∈ es.map (·.shape []) := List.mem_map_of_mem he
  rw [shape_list] at h
  generalize es.map (·.shape []) = parts at h hmem
  cases h with
  | form h =>
    cases h with
    | list h => exact h _ hmem

theorem empty_of (hG : G.Sound) {v : Expr} (hv : (v.shape []).Canonical)
    (h : Typed G [] (v.shape []) .emptyList) : ∃ k, v = list k [] := by
  obtain ⟨k, es, rfl⟩ := isList_shape_iff.mp (h.isList hG hv (Or.inl rfl))
  cases es with
  | nil => exact ⟨k, rfl⟩
  | cons e es =>
    cases h with
    | form h => cases h

/-- The field of a record that is a value. -/
theorem typed_field {fs : List (String × Expr)} {e : Expr} {label : String}
    {fields : List (String × Nameless)} (h : Typed G [] ((record n fs).shape []) (.record fields))
    (he : fs.lookup label = some e) (hA : fields.lookup label = some A) :
    Typed G [] (e.shape []) A := by
  rw [shape_record] at h
  cases h with
  | form h =>
    cases h with
    | record hlen h hfields =>
      rw [List.length_map] at hlen
      obtain ⟨B, hB, hmem⟩ := Fits.exists_lookup_zip hlen he
      rw [hfields, hB] at hA
      obtain rfl := Option.some.inj hA
      refine h _ _ ?_
      rw [List.zip_map_left]
      exact List.mem_map_of_mem hmem

theorem operand_of_run {α : Type} {x : Except OperandError α} {a : α}
    (h : (Eval.ofOperand x).run m = .ok a m') : x = .ok a := by
  cases x with
  | ok b => rw [(EStateM.Result.ok.inj h).1]
  | error e => cases h

theorem typed_join (hG : G.Sound) {op : BinOp} {l r v : Expr} (hop : op.Takes A)
    (hl : Typed G [] (l.shape []) A) (hlv : (l.shape []).Canonical)
    (hr : Typed G [] (r.shape []) A) (hrv : (r.shape []).Canonical)
    (hd : Shape.decides op (l.shape []) = false) (h : (join n op l r).run m = .ok v m') :
    Typed G [] (v.shape []) (op.result A) := by
  rcases hop.literals_or_lists with ⟨x, rfl⟩ | ⟨rfl, hlist⟩
  · obtain ⟨j, a, rfl, ha⟩ := literal_of hG hlv hl
    obtain ⟨k, b, rfl, hb⟩ := literal_of hG hrv hr
    cases op with
    | or | and =>
      -- the first operand does not decide, so the second one does
      obtain ⟨a, rfl⟩ := Value.bool_of_type (ha.trans hop)
      obtain ⟨b, rfl⟩ := Value.bool_of_type (hb.trans hop)
      cases a <;> cases hd
      cases b <;> obtain ⟨rfl, rfl⟩ := EStateM.Result.ok.inj h <;> exact typed_literal rfl
    | _ =>
      obtain ⟨u, m₁, hu, h⟩ := Eval.run_bind_eq_ok h
      obtain ⟨rfl, rfl⟩ := EStateM.Result.ok.inj h
      refine typed_literal (Value.type_apply hop ha hb ?_)
      exact operand_of_run hu
  · rcases hlist with rfl | ⟨B, rfl⟩
    · obtain ⟨j, rfl⟩ := empty_of hG hlv hl
      obtain ⟨k, rfl⟩ := empty_of hG hrv hr
      obtain ⟨rfl, rfl⟩ := EStateM.Result.ok.inj h
      exact hl
    · obtain ⟨j, es, rfl, hes⟩ := elements_of hG hlv hl
      obtain ⟨k, fs, rfl, hfs⟩ := elements_of hG hrv hr
      obtain ⟨rfl, rfl⟩ := EStateM.Result.ok.inj h
      exact typed_list (List.forall_mem_append.mpr ⟨hes, hfs⟩)

theorem typed_negate (hG : G.Sound) {op : UnOp} {e v : Expr} (he : Typed G [] (e.shape []) op.type)
    (hev : (e.shape []).Canonical) (h : (negate n op e).run m = .ok v m') :
    Typed G [] (v.shape []) op.type := by
  obtain ⟨k, u, rfl, hu⟩ : ∃ k u, e = val k u ∧ u.type = op.type := by
    cases op <;> exact literal_of hG hev he
  cases op with
  | not =>
    obtain ⟨b, rfl⟩ := Value.bool_of_type hu
    obtain ⟨rfl, rfl⟩ := EStateM.Result.ok.inj h
    exact typed_literal rfl
  | neg =>
    obtain ⟨i, rfl⟩ := Value.int_of_type hu
    obtain ⟨rfl, rfl⟩ := EStateM.Result.ok.inj h
    exact typed_literal rfl

theorem typed_builtin (hG : G.Sound) {line : Nat} {f a v : Expr} {b : Builtin}
    (hb : b.Has (.arrow A B)) (hcons : b ≠ .cons) (ha : Typed G [] (a.shape []) A)
    (hav : (a.shape []).Canonical) (h : (evalBuiltin line n f a b).run m = .ok v m') :
    Typed G [] (v.shape []) B := by
  cases hb with
  | print | println =>
    obtain ⟨w, m₁, -, h⟩ := Eval.run_bind_eq_ok h
    obtain ⟨text, m₂, -, h⟩ := Eval.run_bind_eq_ok h
    obtain ⟨_, m₃, -, h⟩ := Eval.run_bind_eq_ok h
    obtain ⟨rfl, rfl⟩ := EStateM.Result.ok.inj h
    exact ha
  | stringToInt | intToString =>
    obtain ⟨w, m₁, -, h⟩ := Eval.run_bind_eq_ok h
    obtain ⟨u, m₂, -, h⟩ := Eval.run_bind_eq_ok h
    obtain ⟨rfl, rfl⟩ := EStateM.Result.ok.inj h
    exact typed_literal rfl
  | head =>
    obtain ⟨k, es, rfl, hes⟩ := elements_of hG hav ha
    cases es with
    | nil => cases h
    | cons e es =>
      obtain ⟨rfl, rfl⟩ := EStateM.Result.ok.inj h
      exact hes _ List.mem_cons_self
  | tail =>
    obtain ⟨k, es, rfl, hes⟩ := elements_of hG hav ha
    obtain ⟨rfl, rfl⟩ := EStateM.Result.ok.inj h
    exact typed_list fun e he => hes e (List.mem_of_mem_tail he)
  | cons => exact absurd rfl hcons

/-- The function `cons`, for each type of elements. -/
theorem typed_consFunction : Typed G [] (consFunction.shape [])
    (.arrow A (.arrow (.list A) (.list A))) := by
  refine .form (.lam (.form (.lam (.form (.bin (A := .list A) ?_ ?_ (.form (.bound rfl)))))))
  · exact Or.inr (Or.inr (Or.inr ⟨A, rfl⟩))
  · exact .form (.list (List.forall_mem_singleton.mpr (.form (.bound rfl))))

theorem typed_name {line : Nat} {x : String} {b : Builtin} {v : Expr}
    (hx : Builtin.ofName? x = some b) (hb : b.Has A) (h : (evalName line n x).run m = .ok v m') :
    Typed G [] (v.shape []) A := by
  simp only [evalName, hx] at h
  cases hb with
  | read =>
    obtain ⟨text, m₁, -, h⟩ := Eval.run_bind_eq_ok h
    obtain ⟨rfl, rfl⟩ := EStateM.Result.ok.inj h
    exact typed_literal rfl
  | cons =>
    obtain ⟨rfl, rfl⟩ := EStateM.Result.ok.inj h
    exact typed_consFunction
  | print | println | stringToInt | intToString | head | tail =>
    obtain ⟨rfl, rfl⟩ := EStateM.Result.ok.inj h
    exact .form (.builtin hx (by constructor))

end Steps

/-- What an evaluation from `m` to `m'` leaves of an expression with a demand and a type. -/
structure Left (W : World) (G : Signature) (m m' : Machine) (v : Expr) (S : Demand)
    (A : Nameless) : Prop where
  fits : W.Fit m' v S
  typed : Typed G [] (v.shape []) A
  canonical : (v.shape []).Canonical
  later : m.Later m'
  ready : m'.Ready W G

section Preservation

variable {W : World} {G : Signature} {line fuel : Nat}

/-- Evaluation with this fuel keeps types. -/
def KeepsTypes (W : World) (G : Signature) (line fuel : Nat) : Prop :=
  ∀ {e v : Expr} {m m' : Machine} {S : Demand} {A : Nameless}, m.Ready W G → W.Fit m e S →
    Typed G [] (e.shape []) A → (e.eval line fuel).run m = .ok v m' → Typed G [] (v.shape []) A

theorem KeepsTypes.left (hW : W.Sound) (hG : G.Sound) (ih : KeepsTypes W G line fuel)
    {e v : Expr} {m m' : Machine} {S : Demand} {A : Nameless} (hm : m.Ready W G)
    (hfit : W.Fit m e S) (ht : Typed G [] (e.shape []) A)
    (h : (e.eval line fuel).run m = .ok v m') : Left W G m m' v S A := by
  obtain ⟨hv, hl, -⟩ := fit_eval hW hm.fits hfit h
  have htv := ih hm hfit ht h
  exact ⟨hv, htv, htv.canonical hG (reduced_of_eval h hm.fits.reduced).1, hl, hm.later hl⟩

/-- The body of a lambda with its argument. -/
theorem typed_body (hW : W.Sound) {n : Note} {x : String} {p : Param} {body a : Expr}
    {m : Machine} {S T : Demand} {A B : Nameless} (hfit : W.Fit m (.lam n x p body) (.arrow S T))
    (hf : Typed G [] ((lam n x p body).shape []) (.arrow A B)) (hafit : W.Fit m a S)
    (ha : Typed G [] (a.shape []) A) :
    W.Fit { m with drawn := ((body.subst x a).run m.drawn).2 } ((body.subst x a).run m.drawn).1 T ∧
      Typed G [] (((body.subst x a).run m.drawn).1.shape []) B := by
  obtain ⟨hx, hold, -, hbody⟩ := hfit.lam_inv
  refine ⟨hbody.subst hW hx hold hafit, ?_⟩
  rw [hbody.shape_subst hW hold hafit]
  cases hf with
  | form hf =>
    cases hf with
    | lam hf => exact typed_open body (Δ := []) rfl ha hf

theorem ready_drawn {m : Machine} (hm : m.Ready W G) (x : String) (body a : Expr) :
    Machine.Ready W G { m with drawn := ((body.subst x a).run m.drawn).2 } :=
  hm.later ⟨rfl, substIn_drawn_le body [] (some (x, a)) m.drawn⟩

theorem typed_items (ih : KeepsTypes W G line fuel) {es vs : List Expr} {m m' : Machine}
    (hm : m.Ready W G) (hes : ∀ e ∈ es, ∃ S, W.Fit m e S) (h : RanItems line fuel es m vs m') :
    List.Forall₂ (fun s s' => ∀ A, Typed G [] s A → Typed G [] s' A) (es.map (·.shape []))
      (vs.map (·.shape [])) := by
  obtain ⟨-, hall⟩ := h.forall₂ hm.fits.reduced
  rw [List.forall₂_map_left_iff, List.forall₂_map_right_iff]
  refine ((List.forall₂_and_left _ _).mpr ⟨hes, hall⟩).imp ?_
  rintro e v ⟨⟨S, hfit⟩, m₁, m₂, hl, hv, -⟩ A ht
  exact ih (hm.later hl) (World.Fit.still hfit hl) ht hv

/-- One more unit of fuel: a case for each rule of evaluation. -/
theorem keepsTypes_succ (hW : W.Sound) (hG : G.Sound) (ih : KeepsTypes W G line fuel) :
    KeepsTypes W G line (fuel + 1) := by
  intro e v m m' S A hm hfit ht h
  refine ht.transfer fun A hA => ?_
  cases ran_of_eval h with
  | lam | val => exact .form hA
  | tlam h =>
    obtain ⟨T, hbody⟩ := hfit.parts rfl _ List.mem_cons_self
    cases hA with
    | tlam ht => exact ih hm hbody ht h
  | ascribe h =>
    obtain ⟨T, he⟩ := hfit.parts rfl _ List.mem_cons_self
    cases hA with
    | ascribe ht => exact ih hm he ht h
  | tapp h =>
    obtain ⟨T, hf⟩ := hfit.parts rfl _ List.mem_cons_self
    cases hA with
    | tapp hS ht =>
      have hleft := ih.left hW hG hm hf ht h
      exact hleft.typed.instance_of hG hleft.canonical hS
  | yes hc _ hy =>
    obtain ⟨⟨Sc, hfc⟩, hparts⟩ := List.forall_mem_cons.mp (hfit.parts rfl)
    obtain ⟨Sy, hfy⟩ := hparts _ List.mem_cons_self
    cases hA with
    | cond htc hty _ =>
      have hleft := ih.left hW hG hm hfc htc hc
      exact ih hleft.ready (World.Fit.still hfy hleft.later) hty hy
  | no hc _ hz =>
    obtain ⟨⟨Sc, hfc⟩, hparts⟩ := List.forall_mem_cons.mp (hfit.parts rfl)
    obtain ⟨Sz, hfz⟩ := hparts _ (List.mem_cons_of_mem _ List.mem_cons_self)
    cases hA with
    | cond htc _ htz =>
      have hleft := ih.left hW hG hm hfc htc hc
      exact ih hleft.ready (World.Fit.still hfz hleft.later) htz hz
  | cond hc hnone _ _ =>
    obtain ⟨Sc, hfc⟩ := hfit.parts rfl _ List.mem_cons_self
    cases hA with
    | cond htc _ _ =>
      -- the test is a truth value
      have hleft := ih.left hW hG hm hfc htc hc
      obtain ⟨b, hb⟩ := hleft.typed.bool_of hG hleft.canonical
      rw [hb] at hnone
      cases hnone
  | @short _ op _ _ _ _ _ hl hd =>
    obtain ⟨Sl, hfl⟩ := hfit.parts rfl _ List.mem_cons_self
    cases hA with
    | bin hop htl _ =>
      have hleft := ih hm hfl htl hl
      cases op with
      | or | and => exact hop ▸ hleft
      | _ => cases hd
  | bin hl hd hr hv =>
    obtain ⟨⟨Sl, hfl⟩, hparts⟩ := List.forall_mem_cons.mp (hfit.parts rfl)
    obtain ⟨Sr, hfr⟩ := hparts _ List.mem_cons_self
    cases hA with
    | bin hop htl htr =>
      have hleft := ih.left hW hG hm hfl htl hl
      have hright := ih.left hW hG hleft.ready (World.Fit.still hfr hleft.later) htr hr
      exact typed_join hG hop hleft.typed hleft.canonical hright.typed hright.canonical hd hv
  | un he hv =>
    obtain ⟨Se, hfe⟩ := hfit.parts rfl _ List.mem_cons_self
    cases hA with
    | un hte =>
      have hleft := ih.left hW hG hm hfe hte he
      exact typed_negate hG hleft.typed hleft.canonical hv
  | call hf ha hb =>
    obtain ⟨T, U, hff, hfa⟩ := hfit.app_inv
    cases hA with
    | app htf hta =>
      have hfun := ih.left hW hG hm hff htf hf
      have harg := ih.left hW hG hfun.ready (World.Fit.still hfa hfun.later) hta ha
      obtain ⟨hbody, htbody⟩ := typed_body hW (World.Fit.still hfun.fits harg.later) hfun.typed
        harg.fits harg.typed
      exact ih (ready_drawn harg.ready _ _ _) hbody htbody hb
  | builtin hf hx ha hb =>
    obtain ⟨T, U, hff, hfa⟩ := hfit.app_inv
    cases hA with
    | app htf hta =>
      have hfun := ih.left hW hG hm hff htf hf
      have harg := ih.left hW hG hfun.ready (World.Fit.still hfa hfun.later) hta ha
      cases hfun.canonical with
      | builtin hx' _ hcons =>
        obtain rfl := Option.some.inj (hx.symm.trans hx')
        cases hfun.typed with
        | form htf =>
          exact typed_builtin hG (htf.builtin_inv hG hx) hcons harg.typed harg.canonical hb
  | app hf _ hstuck =>
    obtain ⟨T, U, hff, -⟩ := hfit.app_inv
    cases hA with
    | app htf _ =>
      have hfun := ih.left hW hG hm hff htf hf
      rw [hfun.typed.isFunction hG hfun.canonical] at hstuck
      cases hstuck
  | field he hfield hv =>
    obtain ⟨Se, hfe⟩ := hfit.parts rfl _ List.mem_cons_self
    cases hA with
    | proj hte hlabel =>
      have hleft := ih.left hW hG hm hfe hte he
      obtain ⟨T, hT⟩ := hleft.fits.field_of hfield
      exact ih hleft.ready hT (typed_field hleft.typed hfield hlabel) hv
    | field hte hlabel =>
      have hleft := ih.left hW hG hm hfe hte he
      obtain ⟨T, hT⟩ := hleft.fits.field_of hfield
      obtain ⟨fields, hserves, hrecord⟩ := hleft.typed.dict_of hG hleft.canonical
      exact ih hleft.ready hT (typed_field hrecord hfield (hserves _ _ hlabel)) hv
  | proj he hstuck =>
    obtain ⟨Se, hfe⟩ := hfit.parts rfl _ List.mem_cons_self
    cases hA with
    | proj hte _ =>
      have hleft := ih.left hW hG hm hfe hte he
      rw [hleft.typed.isRecord hG hleft.canonical] at hstuck
      cases hstuck
    | field hte _ =>
      have hleft := ih.left hW hG hm hfe hte he
      obtain ⟨fields, -, hrecord⟩ := hleft.typed.dict_of hG hleft.canonical
      rw [hrecord.isRecord hG hleft.canonical] at hstuck
      cases hstuck
  | global hx =>
    obtain ⟨B, hB, hv⟩ := hm.types _ _ hx
    cases hA with
    | global hA =>
      obtain rfl := Option.some.inj (hA.symm.trans hB)
      exact hv
    | builtin hb _ =>
      rw [hG _ _ hB] at hb
      cases hb
  | name _ hv =>
    cases hA with
    | global hA =>
      obtain ⟨-, -, b, hb, -⟩ := evalName_ok hv
      rw [hG _ _ hA] at hb
      cases hb
    | builtin hb hA => exact typed_name hb hA hv
  | list hvs =>
    rw [shape_list] at hA ⊢
    exact .form (hA.congr nofun (typed_items ih hm (hfit.parts rfl) hvs))
  | record hvs =>
    rw [shape_record] at hA
    rw [shape_record_zip _ hvs.length_eq]
    exact .form (hA.congr nofun (typed_items ih hm (hfit.parts rfl) hvs))

theorem keepsTypes (hW : W.Sound) (hG : G.Sound) (line fuel : Nat) : KeepsTypes W G line fuel := by
  induction fuel with
  | zero => exact fun _ _ _ h => nomatch h
  | succ fuel ih => exact keepsTypes_succ hW hG ih

end Preservation

end Expr

/-- An evaluation of an expression: the line of the statement, the fuel that is left for the parts,
and the machine. -/
structure Visit where
  line : Nat
  fuel : Nat
  expr : Expr
  machine : Machine

namespace Expr

/-- The evaluations while items are evaluated one after the other. -/
def visitsItems (run : Expr → Eval Expr) (visits : Expr → Machine → List Visit) :
    List Expr → Machine → List Visit
  | [], _ => []
  | e :: es, m => visits e m ++ (run e).after m fun _ m => visitsItems run visits es m

/-- All evaluations that are entered while an expression is evaluated, in order. -/
def visits (line : Nat) : Nat → Expr → Machine → List Visit
  | 0, _, _ => []
  | fuel + 1, e, m => ⟨line, fuel, e, m⟩ ::
    match e with
    | tlam _ _ _ body => body.visits line fuel m
    | cond _ c y z =>
      c.visits line fuel m ++ (c.eval line fuel).after m fun c m =>
        match c with
        | val _ (.bool true) => y.visits line fuel m
        | val _ (.bool false) => z.visits line fuel m
        | _ => y.visits line fuel m ++ (y.eval line fuel).after m fun _ m => z.visits line fuel m
    | bin _ op l r =>
      l.visits line fuel m ++ (l.eval line fuel).after m fun l m =>
        if Shape.decides op (l.shape []) then [] else r.visits line fuel m
    | un _ _ e => e.visits line fuel m
    | app _ f a =>
      f.visits line fuel m ++ (f.eval line fuel).after m fun f m =>
        a.visits line fuel m ++ (a.eval line fuel).after m fun a m =>
          match f with
          | lam _ x _ body =>
            let (body, k) := (body.subst x a).run m.drawn
            body.visits line fuel { m with drawn := k }
          | _ => []
    | tapp _ f _ => f.visits line fuel m
    | ascribe _ e _ => e.visits line fuel m
    | proj _ e label =>
      e.visits line fuel m ++ (e.eval line fuel).after m fun e m =>
        match e with
        | record _ fs =>
          match fs.lookup label with
          | some e => e.visits line fuel m
          | none => []
        | _ => []
    | list _ es => visitsItems (eval line fuel) (visits line fuel) es m
    | record _ fs => visitsItems (eval line fuel) (visits line fuel) (fs.map Prod.snd) m
    | _ => []

end Expr

/-- The expression has a demand and a type in a machine that is ready. -/
structure Visit.Safe (W : World) (G : Signature) (t : Visit) : Prop where
  ready : t.machine.Ready W G
  fits : ∃ S, W.Fit t.machine t.expr S
  typed : ∃ A, Shape.Typed G [] (t.expr.shape []) A

namespace Expr

open Shape (Typed Canonical)

section Visits

variable {W : World} {G : Signature} {line fuel : Nat}

/-- All evaluations with this fuel are safe. -/
def VisitsSafe (W : World) (G : Signature) (line fuel : Nat) : Prop :=
  ∀ {e : Expr} {m : Machine} {S : Demand} {A : Nameless}, m.Ready W G → W.Fit m e S →
    Typed G [] (e.shape []) A → ∀ t ∈ e.visits line fuel m, t.Safe W G

theorem left_eval (hW : W.Sound) (hG : G.Sound) {e v : Expr} {m m' : Machine} {S : Demand}
    {A : Nameless} (hm : m.Ready W G) (hfit : W.Fit m e S) (ht : Typed G [] (e.shape []) A)
    (h : (e.eval line fuel).run m = .ok v m') : Left W G m m' v S A :=
  KeepsTypes.left hW hG (keepsTypes hW hG line fuel) hm hfit ht h

/-- The parts of an expression with a type. -/
theorem typed_parts {e : Expr} {f : Form} (hf : e.form? = some f) {A : Nameless}
    (h : Typed G [] (e.shape []) A) : ∀ d ∈ e.parts, ∃ B, Typed G [] (d.shape []) B := by
  have hlam : f ≠ .lam := by
    rintro rfl
    cases e <;> cases hf
  rw [shape_of_form hf] at h
  exact fun d hd => h.parts hlam _ (List.mem_map_of_mem hd)

theorem safe_items (hW : W.Sound) (hG : G.Sound) (ih : VisitsSafe W G line fuel) {es : List Expr}
    {m : Machine} (hm : m.Ready W G) (hfits : ∀ e ∈ es, ∃ S, W.Fit m e S)
    (htypes : ∀ e ∈ es, ∃ A, Typed G [] (e.shape []) A) :
    ∀ t ∈ visitsItems (eval line fuel) (visits line fuel) es m, t.Safe W G := by
  induction es generalizing m with
  | nil => exact fun t ht => nomatch ht
  | cons e es ihs =>
    obtain ⟨⟨S, hfit⟩, hfits⟩ := List.forall_mem_cons.mp hfits
    obtain ⟨⟨A, hA⟩, htypes⟩ := List.forall_mem_cons.mp htypes
    refine List.forall_mem_append.mpr ⟨ih hm hfit hA, fun t ht => ?_⟩
    obtain ⟨v, m₁, hv, ht⟩ := Eval.mem_after.mp ht
    have hleft := left_eval hW hG hm hfit hA hv
    refine ihs hleft.ready (fun e he => ?_) htypes t ht
    exact (hfits e he).imp fun S hS => World.Fit.still hS hleft.later

/-- One more unit of fuel: a case for each form. -/
theorem visitsSafe_succ (hW : W.Sound) (hG : G.Sound) (ih : VisitsSafe W G line fuel) :
    VisitsSafe W G line (fuel + 1) := by
  intro e m S A hm hfit ht
  refine List.forall_mem_cons.mpr ⟨⟨hm, ⟨S, hfit⟩, ⟨A, ht⟩⟩, ?_⟩
  cases e with
  | lam | var | val => exact fun t ht => nomatch ht
  | tlam n x bounds d | un n op d | tapp n d u | ascribe n d u =>
    obtain ⟨T, hd⟩ := hfit.parts rfl d List.mem_cons_self
    obtain ⟨B, hB⟩ := typed_parts rfl ht d List.mem_cons_self
    exact ih hm hd hB
  | cond n c y z =>
    obtain ⟨⟨Sc, hfc⟩, hparts⟩ := List.forall_mem_cons.mp (hfit.parts rfl)
    obtain ⟨⟨Sy, hfy⟩, hparts⟩ := List.forall_mem_cons.mp hparts
    obtain ⟨Sz, hfz⟩ := hparts z List.mem_cons_self
    refine ht.elim_form fun A hA => ?_
    cases hA with
    | cond htc hty htz =>
      refine List.forall_mem_append.mpr ⟨ih hm hfc htc, fun t ht => ?_⟩
      obtain ⟨c', m₁, hc, ht⟩ := Eval.mem_after.mp ht
      have hleft := left_eval hW hG hm hfc htc hc
      obtain ⟨k, u, rfl, hu⟩ := literal_of hG hleft.canonical hleft.typed
      obtain ⟨b, rfl⟩ := Value.bool_of_type hu
      cases b with
      | true => exact ih hleft.ready (World.Fit.still hfy hleft.later) hty t ht
      | false => exact ih hleft.ready (World.Fit.still hfz hleft.later) htz t ht
  | bin n op l r =>
    obtain ⟨⟨Sl, hfl⟩, hparts⟩ := List.forall_mem_cons.mp (hfit.parts rfl)
    obtain ⟨Sr, hfr⟩ := hparts r List.mem_cons_self
    obtain ⟨⟨A, htl⟩, hparts⟩ := List.forall_mem_cons.mp (typed_parts rfl ht)
    obtain ⟨B, htr⟩ := hparts r List.mem_cons_self
    refine List.forall_mem_append.mpr ⟨ih hm hfl htl, fun t ht => ?_⟩
    obtain ⟨l', m₁, hl, ht⟩ := Eval.mem_after.mp ht
    have hleft := left_eval hW hG hm hfl htl hl
    split_ifs at ht
    · cases ht
    · exact ih hleft.ready (World.Fit.still hfr hleft.later) htr t ht
  | app n f a =>
    obtain ⟨T, U, hff, hfa⟩ := hfit.app_inv
    refine ht.elim_form fun A hA => ?_
    cases hA with
    | app htf hta =>
      refine List.forall_mem_append.mpr ⟨ih hm hff htf, fun t ht => ?_⟩
      obtain ⟨f', m₁, hf, ht⟩ := Eval.mem_after.mp ht
      have hfun := left_eval hW hG hm hff htf hf
      rcases List.mem_append.mp ht with ht | ht
      · exact ih hfun.ready (World.Fit.still hfa hfun.later) hta t ht
      · obtain ⟨a', m₂, ha, ht⟩ := Eval.mem_after.mp ht
        have harg := left_eval hW hG hfun.ready (World.Fit.still hfa hfun.later) hta ha
        cases f' with
        | lam n' x p body =>
          obtain ⟨hbody, htbody⟩ := typed_body hW (World.Fit.still hfun.fits harg.later) hfun.typed
            harg.fits harg.typed
          exact ih (ready_drawn harg.ready x body a') hbody htbody t ht
        | _ => cases ht
  | proj n e label =>
    obtain ⟨T, hfe⟩ := hfit.parts rfl e List.mem_cons_self
    obtain ⟨B, hte⟩ := typed_parts rfl ht e List.mem_cons_self
    refine List.forall_mem_append.mpr ⟨ih hm hfe hte, fun t ht => ?_⟩
    obtain ⟨e', m₁, he, ht⟩ := Eval.mem_after.mp ht
    have hleft := left_eval hW hG hm hfe hte he
    cases e' with
    | record n' fs =>
      simp only at ht
      split at ht
      · rename_i d hfield
        have hmem : d ∈ fs.map Prod.snd := List.mem_map.mpr ⟨_, Assoc.mem_of_lookup hfield, rfl⟩
        obtain ⟨U, hd⟩ := hleft.fits.parts rfl d hmem
        obtain ⟨C, hC⟩ := typed_parts rfl hleft.typed d hmem
        exact ih hleft.ready hd hC t ht
      · cases ht
    | _ => cases ht
  | list n es => exact safe_items hW hG ih hm (hfit.parts rfl) (typed_parts rfl ht)
  | record n fs => exact safe_items hW hG ih hm (hfit.parts rfl) (typed_parts rfl ht)

theorem visitsSafe (hW : W.Sound) (hG : G.Sound) (line fuel : Nat) : VisitsSafe W G line fuel := by
  induction fuel with
  | zero => exact fun _ _ _ t ht => nomatch ht
  | succ fuel ih => exact visitsSafe_succ hW hG ih

end Visits

end Expr

/-- A safe evaluation of a conditional whose test comes to an end: the test is a truth value, only
one branch is entered behind it, and the outcome is the one of this branch. -/
theorem Visit.Safe.decided {W : World} {G : Signature} (hW : W.Sound) (hG : G.Sound) {t : Visit}
    (h : t.Safe W G) {n : Note} {c y z v : Expr} {m : Machine} (he : t.expr = .cond n c y z)
    (hv : (c.eval t.line t.fuel).run t.machine = .ok v m) :
    ∃ k b, v = .val k (.bool b) ∧
      t.expr.visits t.line (t.fuel + 1) t.machine = t :: (c.visits t.line t.fuel t.machine ++
        (if b then y else z).visits t.line t.fuel m) ∧
      (t.expr.eval t.line (t.fuel + 1)).run t.machine =
        ((if b then y else z).eval t.line t.fuel).run m := by
  obtain ⟨line, fuel, e, start⟩ := t
  obtain rfl : e = .cond n c y z := he
  obtain ⟨S, hfit⟩ := h.fits
  obtain ⟨A, ht⟩ := h.typed
  obtain ⟨Sc, hfc⟩ := hfit.parts rfl c List.mem_cons_self
  have htc : Shape.Typed G [] (c.shape []) .bool := ht.elim_form fun A hA => by
    cases hA with
    | cond htc => exact htc
  have hleft := Expr.left_eval hW hG h.ready hfc htc hv
  obtain ⟨k, u, rfl, hu⟩ := Expr.literal_of hG hleft.canonical hleft.typed
  obtain ⟨b, rfl⟩ := Value.bool_of_type hu
  refine ⟨k, b, rfl, ?_, ?_⟩
  · rw [Expr.visits, Eval.after, hv]
    cases b <;> rfl
  · rw [Expr.eval_cond, EStateM.run_bind, hv]
    cases b <;> rfl

end TraitCalculus
