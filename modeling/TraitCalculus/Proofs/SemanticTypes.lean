import Mathlib
import TraitCalculus.Proofs.Elaboration
import TraitCalculus.Proofs.Simulation

/-! Types as sets of values. A type means a set of values of evaluation with closures, and a
quantified type the intersection over all sets that its variable can mean. An expression with a
type ends with a value in that set, or with an error that types do not rule out; so evaluation of
what has a type always ends. -/
namespace TraitCalculus

/-- Errors that types do not rule out. -/
def EvalError.Harmless : EvalError → Prop
  | headOfEmpty _ | number _ | endOfInput | operand .zeroDivisor => True
  | _ => False

namespace Closure

/-- Later globals: those that were there are unchanged, and no builtin is hidden. -/
structure Extends (g g' : Env) : Prop where
  keeps : ∀ x v, g.lookup x = some v → g'.lookup x = some v
  builtins : ∀ b : Builtin, g'.lookup b.name = none

theorem Extends.trans {g g' g'' : Env} (h : Extends g g') (h' : Extends g' g'') : Extends g g'' :=
  ⟨fun x v hx => h'.keeps x v (h.keeps x v hx), h'.builtins⟩

/-- How a run under the globals `g` may end. -/
inductive Ends {α : Type} (g : Env) (Q : α → Prop) : EStateM.Result Stop Store α → Prop
  | ok {a : α} {σ : Store} (hσ : σ.globals = g) (ha : Q a) : Ends g Q (.ok a σ)
  | error {e : EvalError} {σ : Store} (he : e.Harmless) : Ends g Q (.error (.error e) σ)

/-- With enough fuel the run ends, with a value of `Q` or a harmless error. -/
def Runs {α : Type} (g : Env) (p : Nat → Run α) (Q : α → Prop) : Prop :=
  ∀ σ : Store, σ.globals = g → ∃ r, Settles p σ r ∧ Ends g Q r

namespace Runs

variable {α β : Type} {g : Env} {p : Nat → Run α} {Q : α → Prop} {R : β → Prop}

theorem pure {a : α} (ha : Q a) : Runs g (fun _ => Pure.pure a) Q :=
  fun σ hσ => ⟨.ok a σ, .const rfl, .ok hσ ha⟩

theorem throw {e : EvalError} (he : e.Harmless) :
    Runs g (fun _ => (MonadExcept.throw (Stop.error e) : Run α)) Q :=
  fun σ _ => ⟨.error (.error e) σ, .const rfl, .error he⟩

theorem imp {Q' : α → Prop} (h : Runs g p Q) (hQ : ∀ a, Q a → Q' a) : Runs g p Q' := by
  intro σ hσ
  obtain ⟨r, hs, hr⟩ := h σ hσ
  refine ⟨r, hs, ?_⟩
  cases hr with
  | ok hσ' ha => exact .ok hσ' (hQ _ ha)
  | error he => exact .error he

theorem succ {q : Nat → Run α} (h : Runs g q Q) (hp : ∀ n, p (n + 1) = q n) : Runs g p Q := by
  intro σ hσ
  obtain ⟨r, hs, hr⟩ := h σ hσ
  exact ⟨r, hs.succ hp, hr⟩

theorem bind {q : α → Nat → Run β} (h : Runs g p Q) (h' : ∀ a, Q a → Runs g (q a) R) :
    Runs g (fun n => p n >>= fun a => q a n) R := by
  intro σ hσ
  obtain ⟨r, hs, hr⟩ := h σ hσ
  cases hr with
  | ok hσ' ha =>
    obtain ⟨r', hs', hr'⟩ := h' _ ha _ hσ'
    exact ⟨r', hs.bind hs', hr'⟩
  | error he => exact ⟨_, hs.bind_error, .error he⟩

theorem ofNumber (x : Except Text.NumberError α) : Runs g (fun _ => Closure.ofNumber x) fun _ =>
    True := by
  cases x with
  | ok a => exact pure trivial
  | error e => exact throw trivial

theorem literal (a : Value) : Runs g (fun _ => (Val.lit a).literal) (· = a) := pure rfl

theorem truth (b : Bool) : Runs g (fun _ => (Val.lit (.bool b)).truth) (· = b) := pure rfl

theorem print (s : String) : Runs g (fun _ => Closure.print s) fun _ => True :=
  fun σ hσ => ⟨.ok () { σ with output := σ.output ++ s }, .const rfl, .ok hσ trivial⟩

theorem readLine : Runs g (fun _ => Closure.readLine) fun _ => True := by
  intro σ hσ
  obtain ⟨globals, lines, output⟩ := σ
  cases lines with
  | nil => exact ⟨_, .const rfl, .error trivial⟩
  | cons line rest => exact ⟨_, .const rfl, .ok hσ trivial⟩

theorem congr {q : Nat → Run α} (h : Runs g q Q)
    (hp : ∀ n σ, σ.globals = g → (p n).run σ = (q n).run σ) : Runs g p Q := by
  intro σ hσ
  obtain ⟨r, ⟨n, hn⟩, hr⟩ := h σ hσ
  exact ⟨r, ⟨n, fun k hk => (hp k σ hσ).trans (hn k hk)⟩, hr⟩

/-- A run has one end, so that what it is for each `i` it is for all at once. -/
theorem all {ι : Type} [Nonempty ι] {Q : ι → α → Prop} (h : ∀ i, Runs g p (Q i)) :
    Runs g p fun a => ∀ i, Q i a := by
  intro σ hσ
  obtain ⟨i₀⟩ := ‹Nonempty ι›
  obtain ⟨r, hs, hr⟩ := h i₀ σ hσ
  refine ⟨r, hs, ?_⟩
  cases hr with
  | error he => exact .error he
  | ok hσ' _ =>
    refine .ok hσ' fun i => ?_
    obtain ⟨r', hs', hr'⟩ := h i σ hσ
    -- the run for `i` settles as the one for `i₀` did
    obtain rfl := hs.unique hs'
    cases hr' with
    | ok _ ha => exact ha

theorem mapM {γ : Type} {as : List γ} {f : Nat → γ → Run α}
    (h : ∀ a ∈ as, Runs g (fun n => f n a) Q) :
    Runs g (fun n => as.mapM (f n)) fun vs => ∀ v ∈ vs, Q v := by
  induction as with
  | nil => exact .pure (by simp)
  | cons a as ih =>
    obtain ⟨ha, has⟩ := List.forall_mem_cons.mp h
    simp only [List.mapM_cons]
    exact .bind ha fun v hv => .bind (ih has) fun vs hvs =>
      .pure (List.forall_mem_cons.mpr ⟨hv, hvs⟩)

end Runs

/-- A set of values for each state of the globals, which later globals keep. -/
@[ext]
structure Sem where
  mem : Env → Val → Prop
  mono : ∀ {g g' : Env} {v : Val}, Extends g g' → mem g v → mem g' v

namespace Sem

def empty : Sem := ⟨fun _ _ => False, fun _ => id⟩

instance : Inhabited Sem := ⟨empty⟩

/-- The literals whose type has the name `x`. -/
def base (x : String) : Sem :=
  ⟨fun _ v => ∃ a, v = .lit a ∧ Rule.lit a = .name none x, fun _ => id⟩

def arrow (A B : Sem) : Sem where
  mem g f := f.isFunction = true ∧ ∀ (g' : Env) (a : Val) (line : Nat), Extends g g' → A.mem g' a →
    Runs g' (fun n => apply line (eval line n) a f) (B.mem g')
  mono h hf := ⟨hf.1, fun g' a line h' ha => hf.2 g' a line (h.trans h') ha⟩

def list (A : Sem) : Sem where
  mem g v := ∃ vs, v = .list vs ∧ ∀ u ∈ vs, A.mem g u
  mono h := fun ⟨vs, hv, hvs⟩ => ⟨vs, hv, fun u hu => A.mono h (hvs u hu)⟩

def emptyList : Sem := ⟨fun _ v => v = .list [], fun _ => id⟩

/-- Records with exactly the given fields, in any order. -/
def record (fs : List (String × Sem)) : Sem where
  mem g v := ∃ us, v = .record us ∧ ∀ label,
    Option.Rel (fun A u => A.mem g u) (fs.lookup label) (us.lookup label)
  mono h := by
    rintro ⟨us, hv, hus⟩
    refine ⟨us, hv, fun label => ?_⟩
    have hl := hus label
    generalize fs.lookup label = A at hl ⊢
    generalize us.lookup label = u at hl ⊢
    cases hl with
    | some hu => exact .some (Sem.mono _ h hu)
    | none => exact .none

theorem record_congr {fs gs : List (String × Sem)}
    (h : ∀ label, fs.lookup label = gs.lookup label) : record fs = record gs := by
  ext g v
  simp only [record, h]

/-- The values that are in `F S` for every `S`. -/
def all (F : Sem → Sem) : Sem where
  mem g v := ∀ S, (F S).mem g v
  mono h hv S := (F S).mono h (hv S)

end Sem

end Closure

namespace Nameless

open Closure

mutual

/-- The meaning of a type: `ρ` for its bound variables, the innermost first, and `δ` for its free
names. -/
def sem (ρ : List Sem) (δ : String → Sem) : Nameless → Sem
  | bound i => ρ.getD i .empty
  | free x => δ x
  | all _ body => .all fun S => body.sem (S :: ρ) δ
  | arrow dom cod => .arrow (dom.sem ρ δ) (cod.sem ρ δ)
  | app _ _ => .empty
  | list elem => .list (elem.sem ρ δ)
  | emptyList => .emptyList
  | record fields => .record (semFields ρ δ fields)

def semFields (ρ : List Sem) (δ : String → Sem) :
    List (String × Nameless) → List (String × Sem)
  | [] => []
  | (label, t) :: fields => (label, t.sem ρ δ) :: semFields ρ δ fields

end

-- Every proof below unfolds these, so their equations are made here, once.
attribute [local simp] sem in
theorem semFields_eq (ρ : List Sem) (δ : String → Sem) (fields : List (String × Nameless)) :
    semFields ρ δ fields = fields.map fun f => (f.1, f.2.sem ρ δ) :=
  walk_eq_map rfl (fun _ _ => rfl) fields

/-- Only the free names matter. -/
theorem sem_congr (t : Nameless) {ρ : List Sem} {δ δ' : String → Sem}
    (h : ∀ x ∈ t.freeNames, δ x = δ' x) : t.sem ρ δ = t.sem ρ δ' := by
  induction t using Nameless.induction generalizing ρ with
  | bound i | app fn arg _ _ | emptyList => rfl
  | free x => exact h x (by simp [freeNames])
  | all bounds body ih =>
    rw [sem, sem]
    exact congrArg Sem.all (funext fun S => ih h)
  | arrow dom cod ihd ihc =>
    obtain ⟨hd, hc⟩ := List.forall_mem_append.mp h
    rw [sem, sem, ihd hd, ihc hc]
  | list elem ih => rw [sem, sem, ih h]
  | record fields ih =>
    rw [sem, sem, semFields_eq, semFields_eq]
    refine congrArg Sem.record (List.map_congr_left fun f hf => ?_)
    rw [ih f hf fun x hx => h x (mem_freeNamesFields.mpr ⟨f, hf, hx⟩)]

/-- Substitution is a change of meaning. -/
theorem sem_subst (t : Nameless) {x : String} {new : Nameless} {ρ : List Sem} {δ : String → Sem}
    (hnew : ∀ ρ, new.sem ρ δ = new.sem [] δ) :
    (t.subst x new).sem ρ δ = t.sem ρ (Function.update δ x (new.sem [] δ)) := by
  induction t using Nameless.induction generalizing ρ with
  | bound i | app fn arg _ _ | emptyList => rfl
  | free y =>
    rw [subst]
    by_cases hy : y = x
    · rw [if_pos hy, hnew ρ, sem, hy, Function.update_self]
    · rw [if_neg hy, sem, sem, Function.update_of_ne hy]
  | all bounds body ih =>
    rw [subst, sem, sem]
    exact congrArg Sem.all (funext fun S => ih)
  | arrow dom cod ihd ihc => rw [subst, sem, sem, ihd, ihc]
  | list elem ih => rw [subst, sem, sem, ih]
  | record fields ih =>
    rw [subst, sem, sem, substFields_eq, semFields_eq, semFields_eq, List.map_map]
    exact congrArg Sem.record (List.map_congr_left fun f hf => congrArg _ (ih f hf))

end Nameless

namespace Ty

open Closure

/-- Outer quantifiers can be read as a change of what free names mean. -/
theorem sem_nameless_append (t : Ty) (xs ys : List String) (ρ ρ' : List Sem) (δ : String → Sem)
    (hlen : xs.length = ρ.length) :
    (t.nameless (xs ++ ys)).sem (ρ ++ ρ') δ =
      (t.nameless xs).sem ρ fun y => ((name none y).nameless ys).sem ρ' δ := by
  induction t using Ty.induction generalizing xs ρ with
  | name line x =>
    by_cases hx : x ∈ xs
    · have hlt : xs.idxOf x < ρ.length := hlen ▸ List.idxOf_lt_length_of_mem hx
      simp [nameless, hx, Nameless.sem, List.idxOf_append_of_mem hx,
        List.getElem?_append_left hlt]
    · by_cases hy : x ∈ ys
      · simp [nameless, hx, hy, Nameless.sem, List.idxOf_append_of_notMem hx, hlen,
          List.getElem?_append_right (Nat.le_add_right ρ.length (ys.idxOf x))]
      · simp [nameless, hx, hy, Nameless.sem]
  | all line x bounds body ih =>
    rw [nameless, nameless, Nameless.sem, Nameless.sem]
    exact congrArg Sem.all (funext fun S => ih (x :: xs) (S :: ρ) (congrArg (· + 1) hlen))
  | arrow line dom cod ihd ihc =>
    rw [nameless, nameless, Nameless.sem, Nameless.sem, ihd xs ρ hlen, ihc xs ρ hlen]
  | app line fn arg _ _ => rfl
  | list line elem ih => rw [nameless, nameless, Nameless.sem, Nameless.sem, ih xs ρ hlen]
  | emptyList => rfl
  | record line fields ih =>
    rw [nameless, nameless, Nameless.sem, Nameless.sem, namelessFields_eq, namelessFields_eq,
      Nameless.semFields_eq, Nameless.semFields_eq, List.map_map, List.map_map]
    exact congrArg Sem.record (List.map_congr_left fun f hf => congrArg _ (ih f hf xs ρ hlen))

theorem lookup_semFields (xs : List String) (ρ : List Sem) (δ : String → Sem)
    (fields : List (String × Ty)) (label : String) :
    (Nameless.semFields ρ δ (namelessFields xs fields)).lookup label =
      (fields.lookup label).map fun t => (t.nameless xs).sem ρ δ := by
  rw [Nameless.semFields_eq, namelessFields_eq, List.map_map, ← Assoc.lookup_map]
  rfl

/-- A function that does not tell same types apart does not tell same record types apart. -/
theorem map_lookup_sameFields {β : Type} (f : Ty → β) {fs gs : List (String × Ty)}
    (hf : ∀ p ∈ fs, ∀ t, p.2.same t = true → f p.2 = f t) (h : sameFields fs gs = true)
    (label : String) : (fs.lookup label).map f = (gs.lookup label).map f := by
  induction fs generalizing gs with
  | nil =>
    obtain rfl : gs = [] := List.isEmpty_iff.mp h
    rfl
  | cons p fs ih =>
    obtain ⟨label', t⟩ := p
    rw [sameFields] at h
    cases hl : gs.lookup label' with
    | none =>
      rw [hl] at h
      cases h
    | some u =>
      rw [hl] at h
      obtain ⟨htu, hrest⟩ := Bool.and_eq_true_iff.mp h
      -- the other side is searched without the field that has been matched
      by_cases hlabel : label = label'
      · rw [Assoc.lookup_cons_if, if_pos hlabel, hlabel, hl, Option.map_some, Option.map_some,
          hf _ List.mem_cons_self u htu]
      · have hih := ih (fun p hp => hf p (List.mem_cons_of_mem _ hp)) hrest
        rw [Assoc.lookup_cons_if, if_neg hlabel, hih, Assoc.lookup_eraseP_of_ne _ hlabel]

/-- Types that count as the same have the same values. -/
theorem sem_nameless_same (s : Ty) {t : Ty} (h : s.same t = true) (xs : List String)
    (ρ : List Sem) (δ : String → Sem) :
    (s.nameless xs).sem ρ δ = (t.nameless xs).sem ρ δ := by
  induction s using Ty.induction generalizing t xs ρ with
  | name line x =>
    cases t with
    | name line' y =>
      obtain rfl : x = y := of_decide_eq_true h
      rfl
    | _ => cases h
  | all line x bounds body ih =>
    cases t with
    | all line' y bounds' body' =>
      obtain ⟨hxy, hbody⟩ := Bool.and_eq_true_iff.mp h
      obtain rfl : x = y := of_decide_eq_true hxy
      rw [nameless, nameless, Nameless.sem, Nameless.sem]
      exact congrArg Sem.all (funext fun S => ih hbody (x :: xs) (S :: ρ))
    | _ => cases h
  | arrow line dom cod ihd ihc =>
    cases t with
    | arrow line' dom' cod' =>
      obtain ⟨hd, hc⟩ := Bool.and_eq_true_iff.mp h
      rw [nameless, nameless, Nameless.sem, Nameless.sem, ihd hd, ihc hc]
    | _ => cases h
  | app line fn arg _ _ =>
    cases t with
    | app => rfl
    | _ => cases h
  | list line elem ih =>
    cases t with
    | list line' elem' => rw [nameless, nameless, Nameless.sem, Nameless.sem, ih h]
    | _ => cases h
  | emptyList =>
    cases t with
    | emptyList => rfl
    | _ => cases h
  | record line fields ih =>
    cases t with
    | record line' fields' =>
      rw [nameless, nameless, Nameless.sem, Nameless.sem]
      refine Sem.record_congr fun label => ?_
      rw [lookup_semFields, lookup_semFields]
      exact map_lookup_sameFields (fun t => (t.nameless xs).sem ρ δ)
        (fun f hf t ht => ih f hf ht xs ρ) h label
    | _ => cases h

/-- The values of a type, if its free names mean what `δ` says. -/
def sem (δ : String → Sem) (t : Ty) : Sem := (t.nameless []).sem [] δ

theorem sem_name (δ : String → Sem) (line : Option Nat) (x : String) :
    (name line x).sem δ = δ x := rfl

theorem sem_arrow (δ : String → Sem) (line : Option Nat) (dom cod : Ty) :
    (arrow line dom cod).sem δ = .arrow (dom.sem δ) (cod.sem δ) := rfl

theorem sem_list (δ : String → Sem) (line : Option Nat) (elem : Ty) :
    (list line elem).sem δ = .list (elem.sem δ) := rfl

theorem sem_same {s t : Ty} (h : s.same t = true) (δ : String → Sem) : s.sem δ = t.sem δ :=
  sem_nameless_same s h [] [] δ

theorem sem_congr {t : Ty} {δ δ' : String → Sem} (h : ∀ x ∈ t.free, δ x = δ' x) :
    t.sem δ = t.sem δ' :=
  Nameless.sem_congr _ fun x hx => h x ((mem_free_iff_nameless t x).mpr hx)

theorem sem_all (δ : String → Sem) (line : Option Nat) (x : String) (bounds : List String)
    (body : Ty) :
    (all line x bounds body).sem δ = .all fun S => body.sem (Function.update δ x S) := by
  rw [sem, nameless, Nameless.sem]
  refine congrArg Sem.all (funext fun S => ?_)
  have hnames := sem_nameless_append body [] [x] [] [S] δ rfl
  rw [List.nil_append, List.nil_append] at hnames
  rw [hnames, sem]
  congr 1
  funext y
  by_cases hy : y = x
  · simp [nameless, Nameless.sem, hy]
  · simp [nameless, Nameless.sem, hy]

theorem sem_record (δ : String → Sem) (line : Option Nat) (fields : List (String × Ty)) :
    (record line fields).sem δ = .record (fields.map fun f => (f.1, f.2.sem δ)) := by
  rw [sem, nameless, Nameless.sem, Nameless.semFields_eq, namelessFields_eq, List.map_map]
  rfl

/-- An instance of a quantified type. -/
theorem sem_instance {body t u : Ty} {x : String}
    (h : u.nameless [] = (body.nameless []).subst x (t.nameless [])) (δ : String → Sem) :
    u.sem δ = body.sem (Function.update δ x (t.sem δ)) := by
  rw [sem, h]
  refine Nameless.sem_subst _ fun ρ => ?_
  -- a type has no bound variables on the outside, so what they mean does not matter
  have hnames := sem_nameless_append t [] [] [] ρ δ rfl
  rw [List.nil_append, List.nil_append] at hnames
  rw [hnames]
  congr 1

end Ty

end TraitCalculus
