import Mathlib
import TraitCalculus.Proofs.SemanticTypes

/-! Soundness of the typing rules for types as sets of values, rule by rule: operators, builtins,
variables, and from these every expression that has a type. -/
namespace TraitCalculus

/-- The basic types. -/
def Ty.isBasic : Ty → Bool
  | name _ x => x ∈ basicNames
  | _ => false

theorem Ty.exists_of_isBasic {t : Ty} (h : t.isBasic = true) :
    ∃ x ∈ basicNames, t.same (.name none x) = true := by
  cases t with
  | name line x => exact ⟨x, of_decide_eq_true h, decide_eq_true rfl⟩
  | _ => cases h

namespace Closure

/-- The names of the basic types mean their literals. -/
def Basics (δ : String → Sem) : Prop := ∀ x ∈ Ty.basicNames, δ x = .base x

theorem Basics.update {δ : String → Sem} (h : Basics δ) {x : String} (hx : x ∉ Ty.basicNames)
    (S : Sem) : Basics (Function.update δ x S) := by
  intro y hy
  have hne : y ≠ x := fun he => hx (he ▸ hy)
  rw [Function.update_of_ne hne, h y hy]

section

variable {δ : String → Sem} {g : Env} {v w : Val} {S : Sem} {s t u : Ty}

theorem sem_lit (hδ : Basics δ) (a : Value) : ((Rule.lit a).sem δ).mem g (.lit a) := by
  obtain ⟨x, hx, ha⟩ : ∃ x ∈ Ty.basicNames, Rule.lit a = .name none x := by
    cases a <;> exact ⟨_, by decide, rfl⟩
  have hs : (Rule.lit a).sem δ = δ x := by rw [ha]; rfl
  rw [hs, hδ x hx]
  exact ⟨a, rfl, ha⟩

theorem exists_lit (hδ : Basics δ) {x : String} (hx : x ∈ Ty.basicNames)
    (h : s.same (.name none x) = true) (hv : (s.sem δ).mem g v) :
    ∃ a, v = .lit a ∧ Rule.lit a = .name none x := by
  have hs : s.sem δ = δ x := Ty.sem_same h δ
  rw [hs, hδ x hx] at hv
  exact hv

theorem exists_int (hδ : Basics δ) (h : s.same .int = true) (hv : (s.sem δ).mem g v) :
    ∃ n, v = .lit (.int n) := by
  obtain ⟨a, rfl, ha⟩ := exists_lit hδ (by decide) h hv
  cases a with
  | int n => exact ⟨n, rfl⟩
  | _ => exact absurd (Ty.name.inj ha).2 (by decide)

theorem exists_text (hδ : Basics δ) (h : s.same .string = true) (hv : (s.sem δ).mem g v) :
    ∃ a, v = .lit (.text a) := by
  obtain ⟨a, rfl, ha⟩ := exists_lit hδ (by decide) h hv
  cases a with
  | text a => exact ⟨a, rfl⟩
  | _ => exact absurd (Ty.name.inj ha).2 (by decide)

theorem exists_bool (hδ : Basics δ) (h : s.same .bool = true) (hv : (s.sem δ).mem g v) :
    ∃ b, v = .lit (.bool b) := by
  obtain ⟨a, rfl, ha⟩ := exists_lit hδ (by decide) h hv
  cases a with
  | bool b => exact ⟨b, rfl⟩
  | _ => exact absurd (Ty.name.inj ha).2 (by decide)

/-- What an operator does to literals. -/
theorem runs_lits {op : BinOp} {a b c : Value} (h : a.apply op b = .ok c)
    (hc : ((Rule.lit c).sem δ).mem g (.lit c) → (u.sem δ).mem g (.lit c)) (hδ : Basics δ) :
    Runs g (fun _ => applyBin op (.lit a) (.lit b)) ((u.sem δ).mem g) := by
  have hrun : applyBin op (.lit a) (.lit b) = pure (.lit c) := by
    show (ofOperand (a.apply op b) >>= fun c => pure (Val.lit c)) = _
    rw [h]
    rfl
  rw [hrun]
  exact .pure (hc (sem_lit hδ c))

/-- Division, which may fail. -/
theorem runs_division {op : BinOp} (hop : op = .div ∨ op = .mod) (hδ : Basics δ) (m n : Int) :
    Runs g (fun _ => applyBin op (.lit (.int m)) (.lit (.int n))) ((Ty.int.sem δ).mem g) := by
  by_cases hn : n = 0
  · have hrun : applyBin op (.lit (.int m)) (.lit (.int n)) =
        throw (.error (.operand .zeroDivisor)) := by
      rcases hop with rfl | rfl <;> subst hn <;> rfl
    rw [hrun]
    exact .throw trivial
  · have hnum : (Value.int n).number? ≠ some 0 := fun he => hn (Option.some.inj he)
    rcases hop with rfl | rfl
    · refine runs_lits (c := .int (m.fdiv n)) ?_ id hδ
      show Value.div _ _ = _
      rw [Value.div, if_neg hnum]
      rfl
    · refine runs_lits (c := .int (m.fmod n)) ?_ id hδ
      show (if (Value.int n).number? = some 0 then _ else _) = _
      rw [if_neg hnum]
      rfl

/-- Operators other than the logical ones, which do not evaluate both operands first. Equality is
for literals only. -/
theorem runs_bin {op : BinOp} (hδ : Basics δ) (hop : op.HasType s t u) (hor : op ≠ .or)
    (hand : op ≠ .and) (heq : op = .eq ∨ op = .neq → s.isBasic = true)
    (hv : (s.sem δ).mem g v) (hw : (t.sem δ).mem g w) :
    Runs g (fun _ => applyBin op v w) ((u.sem δ).mem g) := by
  cases hop with
  | logic hop hl hr => exact absurd hop (not_or.mpr ⟨hor, hand⟩)
  | equality hop h =>
    obtain ⟨x, hx, hs⟩ := Ty.exists_of_isBasic (heq hop)
    rw [← Ty.sem_same h] at hw
    obtain ⟨a, rfl, -⟩ := exists_lit hδ hx hs hv
    obtain ⟨b, rfl, -⟩ := exists_lit hδ hx hs hw
    rcases hop with rfl | rfl
    · exact runs_lits rfl id hδ
    · exact runs_lits rfl id hδ
  | order hop hl hr =>
    obtain ⟨m, rfl⟩ := exists_int hδ hl hv
    obtain ⟨n, rfl⟩ := exists_int hδ hr hw
    rcases hop with rfl | rfl | rfl | rfl <;> exact runs_lits rfl id hδ
  | sum h hl =>
    rw [← Ty.sem_same h] at hw
    rcases hl with hl | hl | hl
    · obtain ⟨m, rfl⟩ := exists_int hδ hl hv
      obtain ⟨n, rfl⟩ := exists_int hδ hl hw
      exact runs_lits rfl (fun hc => (Ty.sem_same hl δ) ▸ hc) hδ
    · obtain ⟨a, rfl⟩ := exists_text hδ hl hv
      obtain ⟨b, rfl⟩ := exists_text hδ hl hw
      exact runs_lits rfl (fun hc => (Ty.sem_same hl δ) ▸ hc) hδ
    · cases s with
      | list line elem =>
        obtain ⟨vs, rfl, hvs⟩ := hv
        obtain ⟨ws, rfl, hws⟩ := hw
        exact .pure ⟨vs ++ ws, rfl, List.forall_mem_append.mpr ⟨hvs, hws⟩⟩
      | emptyList =>
        obtain rfl : v = .list [] := hv
        obtain rfl : w = .list [] := hw
        exact .pure rfl
      | _ => cases hl
  | arith hop hl hr =>
    obtain ⟨m, rfl⟩ := exists_int hδ hl hv
    obtain ⟨n, rfl⟩ := exists_int hδ hr hw
    rcases hop with rfl | rfl | hop
    · exact runs_lits rfl id hδ
    · exact runs_lits rfl id hδ
    · exact runs_division hop hδ m n

theorem sem_print (hδ : Basics δ) {b : Builtin} (hb : b = .print ∨ b = .println) :
    (b.type.sem δ).mem g (.prim b) := by
  have htype : b.type = .arrow none .string .string := by rcases hb with rfl | rfl <;> rfl
  rw [htype]
  refine ⟨rfl, fun g' a line _ ha => ?_⟩
  obtain ⟨text, rfl⟩ := exists_text (s := .string) hδ rfl ha
  rcases hb with rfl | rfl
  · exact .bind (.literal _) fun _ _ => .bind (.ofNumber _) fun shown _ =>
      .bind (.print shown) fun _ _ => .pure ha
  · exact .bind (.literal _) fun _ _ => .bind (.ofNumber _) fun shown _ =>
      .bind (.print (shown ++ "\n")) fun _ _ => .pure ha

theorem sem_conversion (hδ : Basics δ) {b : Builtin}
    (hb : b = .stringToInt ∨ b = .intToString) : (b.type.sem δ).mem g (.prim b) := by
  rcases hb with rfl | rfl
  · refine ⟨rfl, fun g' a line _ ha => ?_⟩
    obtain ⟨text, rfl⟩ := exists_text (s := .string) hδ rfl ha
    exact .bind (.literal _) fun _ _ => .bind (.ofNumber _) fun n _ =>
      .pure (sem_lit hδ (.int n))
  · refine ⟨rfl, fun g' a line _ ha => ?_⟩
    obtain ⟨n, rfl⟩ := exists_int (s := .int) hδ rfl ha
    exact .bind (.literal _) fun _ _ => .bind (.ofNumber _) fun text _ =>
      .pure (sem_lit hδ (.text text))

theorem sem_head : (Sem.arrow (.list S) S).mem g (.prim .head) := by
  refine ⟨rfl, fun g' a line _ ha => ?_⟩
  obtain ⟨vs, rfl, hvs⟩ := ha
  cases vs with
  | nil => exact .throw trivial
  | cons v vs => exact .pure (hvs v List.mem_cons_self)

theorem sem_tail : (Sem.arrow (.list S) (.list S)).mem g (.prim .tail) := by
  refine ⟨rfl, fun g' a line _ ha => ?_⟩
  obtain ⟨vs, rfl, hvs⟩ := ha
  exact .pure ⟨vs.tail, rfl, fun u hu => hvs u (List.mem_of_mem_tail hu)⟩

theorem sem_cons : (Sem.arrow S (.arrow (.list S) (.list S))).mem g (.prim .cons) := by
  refine ⟨rfl, fun g' a line _ ha => .pure ⟨rfl, fun g'' b line hg hb => ?_⟩⟩
  obtain ⟨vs, rfl, hvs⟩ := hb
  exact .pure ⟨a :: vs, rfl, List.forall_mem_cons.mpr ⟨S.mono hg ha, hvs⟩⟩

/-- Builtins have the types they are announced with. To name `read` is to read, so it is not a
value. -/
theorem sem_prim (hδ : Basics δ) (b : Builtin) (hb : b ≠ .read) :
    (b.type.sem δ).mem g (.prim b) := by
  have ha (S : Sem) : Builtin.type.a.sem (Function.update δ "a" S) = S := by
    rw [Builtin.type.a, Ty.sem_name, Function.update_self]
  cases b with
  | print => exact sem_print hδ (Or.inl rfl)
  | println => exact sem_print hδ (Or.inr rfl)
  | read => exact absurd rfl hb
  | stringToInt => exact sem_conversion hδ (Or.inl rfl)
  | intToString => exact sem_conversion hδ (Or.inr rfl)
  | head =>
    rw [Builtin.type, Ty.sem_all]
    intro S
    simp only [Ty.sem_arrow, Ty.sem_list, ha]
    exact sem_head
  | tail =>
    rw [Builtin.type, Ty.sem_all]
    intro S
    simp only [Ty.sem_arrow, Ty.sem_list, ha]
    exact sem_tail
  | cons =>
    rw [Builtin.type, Ty.sem_all]
    intro S
    simp only [Ty.sem_arrow, Ty.sem_list, ha]
    exact sem_cons

end

end Closure

/-- The logical operators are for truth values. -/
theorem BinOp.HasType.of_logic {op : BinOp} {s t u : Ty} (h : op.HasType s t u)
    (hop : op = .or ∨ op = .and) : s.same .bool = true ∧ t.same .bool = true ∧ u = .bool := by
  cases h with
  | logic _ hl hr => exact ⟨hl, hr, rfl⟩
  | equality h' _ => rcases hop with rfl | rfl <;> simp at h'
  | order h' _ _ | arith h' _ _ => rcases hop with rfl | rfl <;> simp at h'
  | sum => simp at hop

namespace Expr

mutual

/-- What values of types need of an expression: the types of parameters are within the names of
`F`, a type lambda has a name of its own, and only basic types are compared. -/
def Regular (k : Nat) (F : List String) : Expr → Prop
  | lam _ _ p body => p.Within k F ∧ body.Regular k F
  | tlam _ x _ body => x ∉ F ∧ body.Regular k (x :: F)
  | cond _ c y z => c.Regular k F ∧ y.Regular k F ∧ z.Regular k F
  | bin _ op l r =>
    (op = .eq ∨ op = .neq → l.type?.any Ty.isBasic = true) ∧ l.Regular k F ∧ r.Regular k F
  | un _ _ e => e.Regular k F
  | app _ f a => f.Regular k F ∧ a.Regular k F
  | tapp _ f _ => f.Regular k F
  | ascribe _ e _ => e.Regular k F
  | proj _ e _ => e.Regular k F
  | var _ _ => True
  | val _ _ => True
  | list _ es => RegularItems k F es
  | record _ fs => RegularFields k F fs

def RegularItems (k : Nat) (F : List String) : List Expr → Prop
  | [] => True
  | e :: es => e.Regular k F ∧ RegularItems k F es

def RegularFields (k : Nat) (F : List String) : List (String × Expr) → Prop
  | [] => True
  | (_, e) :: fs => e.Regular k F ∧ RegularFields k F fs

end

theorem regularItems_iff {k : Nat} {F : List String} {es : List Expr} :
    RegularItems k F es ↔ ∀ e ∈ es, e.Regular k F :=
  walk_iff trivial (fun _ _ => Iff.rfl) es

theorem regularFields_iff {k : Nat} {F : List String} {fs : List (String × Expr)} :
    RegularFields k F fs ↔ ∀ f ∈ fs, f.2.Regular k F :=
  walk_iff trivial (fun _ _ => Iff.rfl) fs

end Expr

namespace Closure

/-- The variables of a context evaluate to values of their types, under these globals and all
later ones. -/
structure Models (δ : String → Sem) (g : Env) (Γ : Context) (env : Env) : Prop where
  globals : Extends g g
  vars : ∀ x t, Γ.lookup x = some (.term t) → ∀ g', Extends g g' →
    Runs g' (fun _ => evalVar env x) ((t.sem δ).mem g')

namespace Models

variable {δ : String → Sem} {g g' : Env} {Γ : Context} {env : Env} {x : String} {v : Val} {t : Ty}

theorem later (h : Models δ g Γ env) (hg : Extends g g') : Models δ g' Γ env where
  globals := ⟨fun _ _ => id, hg.builtins⟩
  vars := fun x t hx g'' hg' => h.vars x t hx g'' (hg.trans hg')

/-- A parameter. -/
theorem cons (h : Models δ g Γ env) (hv : (t.sem δ).mem g v) :
    Models δ g ((x, .term t) :: Γ) ((x, v) :: env) where
  globals := h.globals
  vars := by
    intro y u hy g' hg
    rw [Assoc.lookup_cons_if] at hy
    by_cases hyx : y = x
    · rw [if_pos hyx] at hy
      obtain rfl : t = u := Entry.term.inj (Option.some.inj hy)
      have hlocal : evalVar ((x, v) :: env) y = pure v :=
        evalVar_local (by rw [Assoc.lookup_cons_if, if_pos hyx])
      rw [hlocal]
      exact .pure (Sem.mono _ hg hv)
    · rw [if_neg hyx] at hy
      have hsame : ((x, v) :: env).lookup y = env.lookup y := by
        rw [Assoc.lookup_cons_if, if_neg hyx]
      have hvar : evalVar ((x, v) :: env) y = evalVar env y := by
        unfold evalVar
        rw [hsame]
      rw [hvar]
      exact h.vars y u hy g' hg

/-- A type variable that has a name of its own can mean anything. -/
theorem cons_type (h : Models δ g Γ env) {k : Nat} {F : List String} (hΓ : Γ.Within k F)
    (hx : x ∉ F) (S : Sem) : Models (Function.update δ x S) g ((x, .type) :: Γ) env where
  globals := h.globals
  vars := by
    intro y u hy g' hg
    rw [Assoc.lookup_cons_if] at hy
    by_cases hyx : y = x
    · rw [if_pos hyx] at hy
      cases hy
    · rw [if_neg hyx] at hy
      have hu : u.sem (Function.update δ x S) = u.sem δ := by
        refine Ty.sem_congr fun w hw => ?_
        have hne : w ≠ x := fun he => hx (he ▸ (hΓ.lookup hy).inScope w hw)
        exact Function.update_of_ne hne S δ
      rw [hu]
      exact h.vars y u hy g' hg

/-- The functions a program starts with. -/
theorem builtins (hδ : Basics δ) : Models δ [] Context.builtins [] where
  globals := ⟨fun _ _ => id, fun _ => rfl⟩
  vars := by
    intro x t hx g hg
    obtain ⟨b, -, hb⟩ := List.mem_map.mp (Assoc.mem_of_lookup hx)
    obtain ⟨rfl, ht⟩ := Prod.mk.inj hb
    obtain rfl := Entry.term.inj ht
    have hrun (n : Nat) (σ : Store) (hσ : σ.globals = g) :
        (evalVar [] b.name).run σ = (evalName b.name).run σ := by
      rw [run_evalVar rfl, hσ, hg.builtins b]
    refine .congr ?_ hrun
    by_cases hb : b = .read
    · subst hb
      exact .bind .readLine fun text _ => .pure (sem_lit hδ (.text text))
    · have hname : evalName b.name = pure (.prim b) := by
        unfold evalName
        rw [Builtin.ofName?_name]
        cases b <;> first | rfl | contradiction
      rw [hname]
      exact .pure (sem_prim hδ b hb)

/-- A new global. -/
theorem insert (h : Models δ g Γ []) (hx : g.lookup x = none) (hb : Builtin.ofName? x = none)
    (hv : (t.sem δ).mem g v) : Models δ (Assoc.insert x v g) ((x, .term t) :: Γ) [] := by
  -- the name is new, so no global changes and no builtin is hidden
  have hext : Extends g (Assoc.insert x v g) := by
    refine ⟨fun y w hy => ?_, fun b => ?_⟩
    · have hne : y ≠ x := by
        rintro rfl
        rw [hx] at hy
        cases hy
      rw [Assoc.lookup_insert_of_ne _ _ hne, hy]
    · have hne : b.name ≠ x := by
        rintro rfl
        rw [Builtin.ofName?_name] at hb
        cases hb
      rw [Assoc.lookup_insert_of_ne _ _ hne, h.globals.builtins b]
  refine ⟨(h.later hext).globals, fun y u hy g' hg => ?_⟩
  rw [Assoc.lookup_cons_if] at hy
  by_cases hyx : y = x
  · rw [if_pos hyx] at hy
    obtain rfl : t = u := Entry.term.inj (Option.some.inj hy)
    have hlookup : g'.lookup y = some v :=
      hg.keeps y v (by rw [hyx, Assoc.lookup_insert_self])
    have hrun (n : Nat) (σ : Store) (hσ : σ.globals = g') :
        (evalVar [] y).run σ = (pure v : Run Val).run σ := by
      rw [run_evalVar rfl, hσ, hlookup]
      rfl
    exact .congr (.pure (Sem.mono _ (hext.trans hg) hv)) hrun
  · rw [if_neg hyx] at hy
    exact h.vars y u hy g' (hext.trans hg)

end Models

section

variable {δ : String → Sem} {g env : Env} {Γ : Context} {line : Nat} {s t u : Ty}

theorem runs_un {op : UnOp} {n : Note} {e : Expr} (hδ : Basics δ) (hop : op.HasType t u)
    (he : Runs g (fun n => eval line n env e) ((t.sem δ).mem g)) :
    Runs g (fun i => eval line i env (.un n op e)) ((u.sem δ).mem g) := by
  cases hop with
  | not h =>
    refine .succ (.bind he fun v hv => ?_) fun _ => rfl
    obtain ⟨b, rfl⟩ := exists_bool hδ h hv
    exact .bind (.truth b) fun c _ => .pure (sem_lit hδ (.bool !c))
  | neg h =>
    refine .succ (.bind he fun v hv => ?_) fun _ => rfl
    obtain ⟨m, rfl⟩ := exists_int hδ h hv
    exact .pure (sem_lit hδ (.int (-m)))

/-- The logical operators, which may leave out their right operand. -/
theorem runs_logic {op : BinOp} {n : Note} {l r : Expr} (hδ : Basics δ)
    (hop : op = .or ∨ op = .and) (hs : s.same .bool = true) (ht : t.same .bool = true)
    (hl : Runs g (fun n => eval line n env l) ((s.sem δ).mem g))
    (hr : Runs g (fun n => eval line n env r) ((t.sem δ).mem g)) :
    Runs g (fun i => eval line i env (.bin n op l r)) ((Ty.bool.sem δ).mem g) := by
  have hright : Runs g (fun i => eval line i env r >>= fun w => w.truth >>= fun b =>
      pure (.lit (.bool b))) ((Ty.bool.sem δ).mem g) := by
    refine .bind hr fun w hw => ?_
    obtain ⟨b, rfl⟩ := exists_bool hδ ht hw
    exact .bind (.truth b) fun c _ => .pure (sem_lit hδ (.bool c))
  rcases hop with rfl | rfl
  · refine .succ (.bind hl fun v hv => ?_) fun _ => rfl
    obtain ⟨b, rfl⟩ := exists_bool hδ hs hv
    cases b with
    | true => exact .pure (sem_lit hδ (.bool true))
    | false => exact hright
  · refine .succ (.bind hl fun v hv => ?_) fun _ => rfl
    obtain ⟨b, rfl⟩ := exists_bool hδ hs hv
    cases b with
    | true => exact hright
    | false => exact .pure (sem_lit hδ (.bool false))

theorem runs_items {e : Expr} {es : List Expr} (h : HasType Γ e t) (hs : ItemsHaveType Γ es t)
    (he : ∀ e' ∈ e :: es, ∀ s, HasType Γ e' s →
      Runs g (fun n => eval line n env e') ((s.sem δ).mem g)) :
    Runs g (fun n => (e :: es).mapM (eval line n env)) fun vs =>
      ∀ v ∈ vs, (t.sem δ).mem g v := by
  refine .mapM fun e' hmem => ?_
  rcases List.mem_cons.mp hmem with rfl | hmem'
  · exact he e' hmem t h
  · obtain ⟨s, hs', hts⟩ := hs.mem e' hmem'
    exact Ty.sem_same hts δ ▸ he e' hmem s hs'

theorem runs_fields {fs : List (String × Expr)} {ts : List (String × Ty)}
    (h : FieldsHaveType Γ fs ts) (hf : ∀ f ∈ fs, ∀ s, HasType Γ f.2 s →
      Runs g (fun n => eval line n env f.2) ((s.sem δ).mem g)) :
    Runs g (fun n => fs.mapM fun f => return (f.1, ← eval line n env f.2)) fun us => ∀ label,
      Option.Rel (fun A u => A.mem g u) ((ts.map fun t => (t.1, t.2.sem δ)).lookup label)
        (us.lookup label) := by
  induction fs generalizing ts with
  | nil =>
    cases h
    exact .pure fun label => .none
  | cons f fs ih =>
    cases h with
    | @cons _ label e t _ ts he hfs =>
      obtain ⟨hfirst, hrest⟩ := List.forall_mem_cons.mp hf
      simp only [List.mapM_cons]
      refine .bind (.bind (hfirst t he) fun v hv => .pure
        (Q := fun p : String × Val => p.1 = label ∧ (t.sem δ).mem g p.2) ⟨rfl, hv⟩) fun p hp => ?_
      refine .bind (ih hfs hrest) fun us hus => .pure fun label' => ?_
      rw [List.map_cons, Assoc.lookup_cons_if, Assoc.lookup_cons_if, hp.1]
      by_cases hl : label' = label
      · rw [if_pos hl, if_pos hl]
        exact .some hp.2
      · rw [if_neg hl, if_neg hl]
        exact hus label'

/-- The rules are sound: an expression with a type evaluates to a value of the type. -/
theorem runs_eval {e : Expr} {k : Nat} {F : List String} (h : HasType Γ e t)
    (hF : ∀ w ∈ Ty.basicNames, w ∈ F) (hΓ : Γ.Within k F) (he : e.Regular k F) (hδ : Basics δ)
    (hm : Models δ g Γ env) : Runs g (fun n => eval line n env e) ((t.sem δ).mem g) := by
  induction e using Expr.induction generalizing Γ t δ g env F line with
  | lam n x p body ih =>
    cases h with
    | lam hbody =>
      -- the function may be called under later globals, which still model the context
      refine .succ (.pure ⟨rfl, fun g' a line' hg ha => ?_⟩) fun _ => rfl
      exact ih hbody hF (hΓ.cons_term x he.1) he.2 hδ ((hm.later hg).cons ha)
  | tlam n x bounds body ih =>
    cases h with
    | tlam hbody =>
      obtain ⟨hx, he⟩ := he
      rw [Ty.sem_all]
      -- the body is evaluated once, and its value is good for every meaning of the variable
      refine .succ (.all fun S => ?_) fun _ => rfl
      have hF' : ∀ w ∈ Ty.basicNames, w ∈ x :: F := fun w hw => List.mem_cons_of_mem x (hF w hw)
      exact ih hbody hF' (hΓ.cons_type x) he (hδ.update (fun hb => hx (hF x hb)) S)
        (hm.cons_type hΓ hx S)
  | cond n c y z ihc ihy ihz =>
    cases h with
    | cond hc hy hz hs htu =>
      refine .succ (.bind (ihc hc hF hΓ he.1 hδ hm) fun v hv => ?_) fun _ => rfl
      obtain ⟨b, rfl⟩ := exists_bool hδ hs hv
      cases b with
      | true => exact ihy hy hF hΓ he.2.1 hδ hm
      | false => exact Ty.sem_same htu δ ▸ ihz hz hF hΓ he.2.2 hδ hm
  | bin n op l r ihl ihr =>
    cases h with
    | bin hl hr hop =>
      obtain ⟨heq, hel, her⟩ := he
      have hl' : Runs g (fun n => eval line n env l) _ := ihl hl hF hΓ hel hδ hm
      have hr' : Runs g (fun n => eval line n env r) _ := ihr hr hF hΓ her hδ hm
      rw [hl.type?_eq] at heq
      by_cases hlogic : op = .or ∨ op = .and
      · obtain ⟨hs, ht, rfl⟩ := hop.of_logic hlogic
        exact runs_logic hδ hlogic hs ht hl' hr'
      · obtain ⟨hor, hand⟩ := not_or.mp hlogic
        refine .succ (.bind hl' fun v hv => .bind hr' fun w hw =>
          runs_bin hδ hop hor hand heq hv hw) fun _ => ?_
        cases op <;> first | rfl | contradiction
  | un n op e ih =>
    cases h with
    | un he' hop => exact runs_un hδ hop (ih he' hF hΓ he hδ hm)
  | app n f a ihf iha =>
    cases h with
    | app hf ha hdom =>
      refine .succ (.bind (ihf hf hF hΓ he.1 hδ hm) fun fv hfv =>
        .bind (iha ha hF hΓ he.2 hδ hm) fun av hav => ?_) fun _ => rfl
      rw [← Ty.sem_same hdom] at hav
      exact hfv.2 g av line hm.globals hav
  | tapp n f t ih =>
    cases h with
    | tapp hf hu =>
      refine .succ ((ih hf hF hΓ he hδ hm).imp fun v hv => ?_) fun _ => rfl
      rw [Ty.sem_all] at hv
      -- the instance is the meaning at one of these sets
      rw [Ty.sem_instance hu]
      exact hv _
  | ascribe n e t ih =>
    cases h with
    | ascribe he' hst => exact .succ (ih he' hF hΓ he hδ hm) fun _ => rfl
  | proj n e label ih =>
    cases h with
    | proj he' ht =>
      refine .succ (.bind (ih he' hF hΓ he hδ hm) fun v hv => ?_) fun _ => rfl
      rw [Ty.sem_record] at hv
      obtain ⟨us, rfl, hus⟩ := hv
      have hl := hus label
      rw [Assoc.lookup_map, ht] at hl
      cases hu : us.lookup label with
      | none =>
        rw [hu] at hl
        cases hl
      | some u =>
        rw [hu] at hl
        cases hl with
        | some hmem =>
          simp only [hu]
          exact .pure hmem
  | var n x =>
    cases h with
    | var hx => exact .succ (hm.vars x _ hx g hm.globals) fun _ => rfl
  | val n v =>
    cases h with
    | val => exact .succ (.pure (sem_lit hδ v)) fun _ => rfl
  | list n es ih =>
    have hes := Expr.regularItems_iff.mp he
    cases h with
    | nil => exact .succ (.pure rfl) fun _ => rfl
    | list hfirst hrest =>
      refine .succ (.bind (runs_items hfirst hrest fun e hmem s hs =>
        ih e hmem hs hF hΓ (hes e hmem) hδ hm) fun vs hvs => ?_) fun _ => rfl
      exact .pure ⟨vs, rfl, hvs⟩
  | record n fs ih =>
    have hfs := Expr.regularFields_iff.mp he
    cases h with
    | record hts =>
      refine .succ (.bind (runs_fields hts fun f hmem s hs =>
        ih f hmem hs hF hΓ (hfs f hmem) hδ hm) fun us hus => ?_) fun _ => rfl
      rw [Ty.sem_record]
      exact .pure ⟨us, rfl, hus⟩

end

end Closure

end TraitCalculus
