import Mathlib
import TraitCalculus.Proofs.Matching
import TraitCalculus.Proofs.TypeScope

/-! Typing leaves explicit derivations. The notes of a typed expression make up a derivation in
the calculus without inference, and the expression is the one that was given with type arguments
put behind functions. -/
namespace TraitCalculus

/-- What names stand for, the innermost binder first and the latest statement before earlier
ones. -/
abbrev Context := List (String × Entry)

/-- The type of an operator from the types of its operands. -/
inductive BinOp.HasType : BinOp → Ty → Ty → Ty → Prop
  | logic {op : BinOp} {l r : Ty} (hop : op = .or ∨ op = .and) (hl : l.same .bool = true)
      (hr : r.same .bool = true) : HasType op l r .bool
  | equality {op : BinOp} {l r : Ty} (hop : op = .eq ∨ op = .neq) (h : l.same r = true) :
      HasType op l r .bool
  | order {op : BinOp} {l r : Ty} (hop : op = .gt ∨ op = .lt ∨ op = .geq ∨ op = .leq)
      (hl : l.same .int = true) (hr : r.same .int = true) : HasType op l r .bool
  | sum {l r : Ty} (h : l.same r = true)
      (hl : l.same .int = true ∨ l.same .string = true ∨ Rule.isList l = true) :
      HasType .add l r l
  | arith {op : BinOp} {l r : Ty} (hop : op = .sub ∨ op = .mul ∨ op = .div ∨ op = .mod)
      (hl : l.same .int = true) (hr : r.same .int = true) : HasType op l r .int

inductive UnOp.HasType : UnOp → Ty → Ty → Prop
  | not {t : Ty} (h : t.same .bool = true) : HasType .not t .bool
  | neg {t : Ty} (h : t.same .int = true) : HasType .neg t .int

mutual

/-- The rules of the calculus with all type arguments in place. A node has the type that its note
holds, and the rule of its form derives it from the types of its parts. -/
inductive HasType : Context → Expr → Ty → Prop
  | lam {Γ : Context} {line : Option Nat} {x : String} {t s : Ty} {body : Expr}
      (hbody : HasType ((x, .term t) :: Γ) body s) :
      HasType Γ (.lam ⟨line, some (.arrow none t s)⟩ x (.typed t) body) (.arrow none t s)
  | tlam {Γ : Context} {line : Option Nat} {x : String} {bounds : List String} {s : Ty}
      {body : Expr} (hbody : HasType ((x, .type) :: Γ) body s) :
      HasType Γ (.tlam ⟨line, some (.all none x bounds s)⟩ x bounds body) (.all none x bounds s)
  | cond {Γ : Context} {line : Option Nat} {c y z : Expr} {s t u : Ty} (hc : HasType Γ c s)
      (hy : HasType Γ y t) (hz : HasType Γ z u) (hs : s.same .bool = true)
      (htu : t.same u = true) : HasType Γ (.cond ⟨line, some t⟩ c y z) t
  | bin {Γ : Context} {line : Option Nat} {op : BinOp} {l r : Expr} {s t u : Ty}
      (hl : HasType Γ l s) (hr : HasType Γ r t) (hop : op.HasType s t u) :
      HasType Γ (.bin ⟨line, some u⟩ op l r) u
  | un {Γ : Context} {line : Option Nat} {op : UnOp} {e : Expr} {t u : Ty} (he : HasType Γ e t)
      (hop : op.HasType t u) : HasType Γ (.un ⟨line, some u⟩ op e) u
  | app {Γ : Context} {line : Option Nat} {f a : Expr} {l : Option Nat} {dom cod t : Ty}
      (hf : HasType Γ f (.arrow l dom cod)) (ha : HasType Γ a t) (hdom : dom.same t = true) :
      HasType Γ (.app ⟨line, some cod⟩ f a) cod
  | tapp {Γ : Context} {line : Option Nat} {f : Expr} {l : Option Nat} {x : String}
      {bounds : List String} {body t u : Ty} (hf : HasType Γ f (.all l x bounds body))
      (hu : u.nameless [] = (body.nameless []).subst x (t.nameless [])) :
      HasType Γ (.tapp ⟨line, some u⟩ f t) u
  | ascribe {Γ : Context} {line : Option Nat} {e : Expr} {s t : Ty} (he : HasType Γ e s)
      (hst : s.same t = true) : HasType Γ (.ascribe ⟨line, some s⟩ e t) s
  | proj {Γ : Context} {line : Option Nat} {e : Expr} {label : String} {l : Option Nat}
      {fields : List (String × Ty)} {t : Ty} (he : HasType Γ e (.record l fields))
      (ht : fields.lookup label = some t) : HasType Γ (.proj ⟨line, some t⟩ e label) t
  | var {Γ : Context} {line : Option Nat} {x : String} {t : Ty}
      (hx : Γ.lookup x = some (.term t)) : HasType Γ (.var ⟨line, some t⟩ x) t
  | val {Γ : Context} {line : Option Nat} {v : Value} :
      HasType Γ (.val ⟨line, some (Rule.lit v)⟩ v) (Rule.lit v)
  | nil {Γ : Context} {line : Option Nat} : HasType Γ (.list ⟨line, some .emptyList⟩ []) .emptyList
  | list {Γ : Context} {line : Option Nat} {e : Expr} {es : List Expr} {t : Ty}
      (he : HasType Γ e t) (hes : ItemsHaveType Γ es t) :
      HasType Γ (.list ⟨line, some (.list none t)⟩ (e :: es)) (.list none t)
  | record {Γ : Context} {line : Option Nat} {fs : List (String × Expr)}
      {ts : List (String × Ty)} (hfs : FieldsHaveType Γ fs ts) :
      HasType Γ (.record ⟨line, some (.record none ts)⟩ fs) (.record none ts)

/-- All elements have types that count as the same as the given one. -/
inductive ItemsHaveType : Context → List Expr → Ty → Prop
  | nil {Γ : Context} {t : Ty} : ItemsHaveType Γ [] t
  | cons {Γ : Context} {e : Expr} {es : List Expr} {s t : Ty} (he : HasType Γ e s)
      (hts : t.same s = true) (hes : ItemsHaveType Γ es t) : ItemsHaveType Γ (e :: es) t

/-- Fields have the given labels and types, in order. -/
inductive FieldsHaveType : Context → List (String × Expr) → List (String × Ty) → Prop
  | nil {Γ : Context} : FieldsHaveType Γ [] []
  | cons {Γ : Context} {label : String} {e : Expr} {t : Ty} {fs : List (String × Expr)}
      {ts : List (String × Ty)} (he : HasType Γ e t) (hfs : FieldsHaveType Γ fs ts) :
      FieldsHaveType Γ ((label, e) :: fs) ((label, t) :: ts)

end

theorem HasType.type?_eq {Γ : Context} {e : Expr} {t : Ty} (h : HasType Γ e t) :
    e.type? = some t := by
  cases h <;> rfl

theorem ItemsHaveType.mem {Γ : Context} {es : List Expr} {t : Ty} (h : ItemsHaveType Γ es t) :
    ∀ e ∈ es, ∃ s, HasType Γ e s ∧ t.same s = true := by
  induction es with
  | nil => simp
  | cons e es ih =>
    cases h with
    | cons he hts hes => exact List.forall_mem_cons.mpr ⟨⟨_, he, hts⟩, ih hes⟩

namespace Expr

mutual

/-- An expression without the types in its notes. -/
def bare : Expr → Expr
  | lam n x p body => lam ⟨n.line, none⟩ x p body.bare
  | tlam n x bounds body => tlam ⟨n.line, none⟩ x bounds body.bare
  | cond n c y z => cond ⟨n.line, none⟩ c.bare y.bare z.bare
  | bin n op l r => bin ⟨n.line, none⟩ op l.bare r.bare
  | un n op e => un ⟨n.line, none⟩ op e.bare
  | app n f a => app ⟨n.line, none⟩ f.bare a.bare
  | tapp n f t => tapp ⟨n.line, none⟩ f.bare t
  | ascribe n e t => ascribe ⟨n.line, none⟩ e.bare t
  | proj n e label => proj ⟨n.line, none⟩ e.bare label
  | var n x => var ⟨n.line, none⟩ x
  | val n v => val ⟨n.line, none⟩ v
  | list n es => list ⟨n.line, none⟩ (bareItems es)
  | record n fs => record ⟨n.line, none⟩ (bareFields fs)

def bareItems : List Expr → List Expr
  | [] => []
  | e :: es => e.bare :: bareItems es

def bareFields : List (String × Expr) → List (String × Expr)
  | [] => []
  | (label, e) :: fs => (label, e.bare) :: bareFields fs

end

mutual

/-- The second expression is the first with type arguments put behind some of the functions that
are applied: leave them out again, and the first is back. -/
inductive Inserted : Expr → Expr → Prop
  | lam {n : Note} {x : String} {p : Param} {b b' : Expr} (hb : Inserted b b') :
      Inserted (.lam n x p b) (.lam n x p b')
  | tlam {n : Note} {x : String} {bounds : List String} {b b' : Expr} (hb : Inserted b b') :
      Inserted (.tlam n x bounds b) (.tlam n x bounds b')
  | cond {n : Note} {c c' y y' z z' : Expr} (hc : Inserted c c') (hy : Inserted y y')
      (hz : Inserted z z') : Inserted (.cond n c y z) (.cond n c' y' z')
  | bin {n : Note} {op : BinOp} {l l' r r' : Expr} (hl : Inserted l l') (hr : Inserted r r') :
      Inserted (.bin n op l r) (.bin n op l' r')
  | un {n : Note} {op : UnOp} {e e' : Expr} (he : Inserted e e') :
      Inserted (.un n op e) (.un n op e')
  | app {n : Note} {f f' a a' : Expr} (hf : Inserted f f') (ha : Inserted a a') :
      Inserted (.app n f a) (.app n f' a')
  | insert {n : Note} {f f' a a' : Expr} {t : Ty} (hf : Inserted f f') (ha : Inserted a a') :
      Inserted (.app n f a) (.app n (.tapp n f' t) a')
  | tapp {n : Note} {f f' : Expr} {t : Ty} (hf : Inserted f f') :
      Inserted (.tapp n f t) (.tapp n f' t)
  | ascribe {n : Note} {e e' : Expr} {t : Ty} (he : Inserted e e') :
      Inserted (.ascribe n e t) (.ascribe n e' t)
  | proj {n : Note} {e e' : Expr} {label : String} (he : Inserted e e') :
      Inserted (.proj n e label) (.proj n e' label)
  | var {n : Note} {x : String} : Inserted (.var n x) (.var n x)
  | val {n : Note} {v : Value} : Inserted (.val n v) (.val n v)
  | list {n : Note} {es es' : List Expr} (hes : InsertedItems es es') :
      Inserted (.list n es) (.list n es')
  | record {n : Note} {fs fs' : List (String × Expr)} (hfs : InsertedFields fs fs') :
      Inserted (.record n fs) (.record n fs')

inductive InsertedItems : List Expr → List Expr → Prop
  | nil : InsertedItems [] []
  | cons {e e' : Expr} {es es' : List Expr} (he : Inserted e e') (hes : InsertedItems es es') :
      InsertedItems (e :: es) (e' :: es')

inductive InsertedFields : List (String × Expr) → List (String × Expr) → Prop
  | nil : InsertedFields [] []
  | cons {label : String} {e e' : Expr} {fs fs' : List (String × Expr)} (he : Inserted e e')
      (hfs : InsertedFields fs fs') : InsertedFields ((label, e) :: fs) ((label, e') :: fs')

end

end Expr

namespace Rule

theorem cond_ok {line : Option Nat} {s t u v : Ty} (h : cond line s t u = .ok v) :
    s.same .bool = true ∧ t.same u = true ∧ v = t := by
  unfold cond at h
  split_ifs at h with hs ht
  exact ⟨by simpa using hs, by simpa using ht, (Except.ok.inj h).symm⟩

theorem ints_ok {line : Option Nat} {result l r t : Ty} (h : ints line result l r = .ok t) :
    l.same .int = true ∧ r.same .int = true ∧ t = result := by
  unfold ints at h
  split_ifs at h with hlr
  have hlr' := Bool.and_eq_true_iff.mp hlr
  exact ⟨hlr'.1, hlr'.2, (Except.ok.inj h).symm⟩

theorem logic_ok {line : Option Nat} {l r t : Ty} (h : logic line l r = .ok t) :
    l.same .bool = true ∧ r.same .bool = true ∧ t = .bool := by
  unfold logic at h
  split_ifs at h with hlr
  have hlr' := Bool.and_eq_true_iff.mp hlr
  exact ⟨hlr'.1, hlr'.2, (Except.ok.inj h).symm⟩

theorem equality_ok {line : Option Nat} {l r t : Ty} (h : equality line l r = .ok t) :
    l.same r = true ∧ t = .bool := by
  unfold equality at h
  split_ifs at h with hlr
  exact ⟨hlr, (Except.ok.inj h).symm⟩

theorem sum_ok {line : Option Nat} {l r t : Ty} (h : sum line l r = .ok t) :
    l.same r = true ∧ (l.same .int = true ∨ l.same .string = true ∨ isList l = true) ∧ t = l := by
  unfold sum at h
  split_ifs at h with hlr hl
  have hl' : l.same .int = true ∨ l.same .string = true ∨ isList l = true := by
    simpa [or_assoc] using hl
  exact ⟨by simpa using hlr, hl', (Except.ok.inj h).symm⟩

theorem bin_ok {line : Option Nat} {op : BinOp} {l r t : Ty} (h : bin line op l r = .ok t) :
    op.HasType l r t := by
  cases op with
  | or | and =>
    obtain ⟨hl, hr, rfl⟩ := logic_ok h
    exact .logic (by simp) hl hr
  | eq | neq =>
    obtain ⟨hlr, rfl⟩ := equality_ok h
    exact .equality (by simp) hlr
  | gt | lt | geq | leq =>
    obtain ⟨hl, hr, rfl⟩ := ints_ok h
    exact .order (by simp) hl hr
  | add =>
    obtain ⟨hlr, hl, rfl⟩ := sum_ok h
    exact .sum hlr hl
  | sub | mul | div | mod =>
    obtain ⟨hl, hr, rfl⟩ := ints_ok h
    exact .arith (by simp) hl hr

theorem un_ok {line : Option Nat} {op : UnOp} {t u : Ty} (h : un line op t = .ok u) :
    op.HasType t u := by
  cases op with
  | not =>
    simp only [un] at h
    split_ifs at h with ht
    exact Except.ok.inj h ▸ .not ht
  | neg =>
    simp only [un] at h
    split_ifs at h with ht
    exact Except.ok.inj h ▸ .neg ht

theorem proj_ok {line : Option Nat} {s t : Ty} {label : String} (h : proj line s label = .ok t) :
    ∃ l fields, s = .record l fields ∧ fields.lookup label = some t := by
  unfold proj at h
  split at h
  · rename_i l fields
    cases hl : fields.lookup label with
    | none =>
      rw [hl] at h
      cases h
    | some u =>
      rw [hl] at h
      exact ⟨l, fields, rfl, Except.ok.inj h ▸ hl⟩
  · cases h

theorem ascribe_ok {line : Option Nat} {stated found t : Ty}
    (h : ascribe line stated found = .ok t) : found.same stated = true ∧ t = found := by
  unfold ascribe at h
  split_ifs at h with hs
  exact ⟨hs, (Except.ok.inj h).symm⟩

theorem app_ok {line : Option Nat} {fn arg t : Ty} (h : app line fn arg = .ok t) :
    ∃ l dom, fn = .arrow l dom t ∧ dom.same arg = true := by
  unfold app at h
  split at h
  · split_ifs at h with hd
    rename_i l dom cod
    exact ⟨l, dom, Except.ok.inj h ▸ rfl, hd⟩
  · cases h
  · cases h

theorem var_ok {s : Scope Entry} {line : Option Nat} {x : String} {t : Ty}
    (h : var s line x = .ok t) : s.get? x = some (.term t) := by
  unfold var at h
  split at h
  · rename_i u hu
    exact Except.ok.inj h ▸ hu
  · cases h
  · cases h

theorem tapp_ok {line : Option Nat} {fn : Expr} {q arg t : Ty} {st st' : TypingState}
    (h : (tapp line fn q arg).run st = .ok (t, st')) :
    ∃ l x bs body, q = .all l x bs body ∧ t = ((body.subst x arg).run st.drawn).1 ∧
      st'.drawn = ((body.subst x arg).run st.drawn).2 := by
  unfold tapp at h
  split at h
  · rename_i l x bs body
    obtain ⟨s, st₁, hget, hrest⟩ := run_bind_eq_ok h
    obtain ⟨rfl, rfl⟩ := Prod.mk.inj (Except.ok.inj hget)
    obtain ⟨u, st₂, hbounds, hsubst⟩ := run_bind_eq_ok hrest
    have hst : st₂ = st := (run_lift_eq_ok hbounds).2
    obtain ⟨rfl, rfl⟩ := Prod.mk.inj (Except.ok.inj hsubst)
    exact ⟨l, x, bs, body, rfl, hst ▸ rfl, hst ▸ rfl⟩
  · cases h

end Rule

/-- The scope holds what the context says. -/
def Scope.Shows (s : Scope Entry) (Γ : Context) : Prop := ∀ x, s.get? x = Γ.lookup x

theorem Scope.Shows.extend {s : Scope Entry} {Γ : Context} (h : s.Shows Γ) (x : String)
    (a : Entry) : (s.extend x a).Shows ((x, a) :: Γ) := by
  intro y
  rw [Assoc.lookup_cons_if]
  by_cases hy : y = x
  · rw [hy, Scope.get?_extend_self, if_pos rfl]
  · rw [Scope.get?_extend_of_ne s a hy, if_neg hy, h y]

theorem Scope.Shows.set {s : Scope Entry} {Γ : Context} (h : s.Shows Γ) (x : String)
    (a : Entry) : (s.set x a).Shows ((x, a) :: Γ) := by
  intro y
  rw [Assoc.lookup_cons_if, ← h y]
  simp only [Scope.get?, Scope.set, List.findSome?_cons]
  by_cases hy : y = x
  · rw [hy, Assoc.lookup_insert_self, if_pos rfl]
  · rw [Assoc.lookup_insert_of_ne a s.frame hy, if_neg hy]

/-- The types of a context are within the names of `F`. -/
def Context.Within (k : Nat) (F : List String) (Γ : Context) : Prop :=
  ∀ x t, (x, Entry.term t) ∈ Γ → t.Within k F

namespace Context.Within

variable {k k' : Nat} {F F' : List String} {Γ : Context}

theorem mono (h : Context.Within k F Γ) (hk : k ≤ k') (hF : ∀ w ∈ F, w ∈ F') :
    Context.Within k' F' Γ :=
  fun x t hx => (h x t hx).mono hk hF

theorem later (h : Context.Within k F Γ) (hk : k ≤ k') : Context.Within k' F Γ :=
  h.mono hk fun _ => id

theorem cons_term (h : Context.Within k F Γ) (x : String) {t : Ty} (ht : t.Within k F) :
    Context.Within k F ((x, .term t) :: Γ) := by
  intro y u hy
  rcases List.mem_cons.mp hy with he | hy
  · obtain ⟨-, hu⟩ := Prod.mk.inj he
    exact Entry.term.inj hu ▸ ht
  · exact h y u hy

theorem cons_type (h : Context.Within k F Γ) (x : String) :
    Context.Within k (x :: F) ((x, .type) :: Γ) := by
  intro y u hy
  rcases List.mem_cons.mp hy with he | hy
  · cases he
  · exact (h y u hy).mono (le_refl k) fun w hw => List.mem_cons_of_mem x hw

theorem lookup (h : Context.Within k F Γ) {x : String} {t : Ty}
    (hx : Γ.lookup x = some (.term t)) : t.Within k F := by
  obtain ⟨l₁, l₂, rfl, -⟩ := List.lookup_eq_some_iff.mp hx
  exact h x t (by simp)

end Context.Within

namespace Expr

/-- A relation between expressions that all forms of expressions keep. -/
structure Congruent (R : Expr → Expr → Prop) : Prop where
  lam : ∀ {n x p b b'}, R b b' → R (.lam n x p b) (.lam n x p b')
  tlam : ∀ {n x bounds b b'}, R b b' → R (.tlam n x bounds b) (.tlam n x bounds b')
  cond : ∀ {n c c' y y' z z'}, R c c' → R y y' → R z z' → R (.cond n c y z) (.cond n c' y' z')
  bin : ∀ {n op l l' r r'}, R l l' → R r r' → R (.bin n op l r) (.bin n op l' r')
  un : ∀ {n op e e'}, R e e' → R (.un n op e) (.un n op e')
  app : ∀ {n f f' a a'}, R f f' → R a a' → R (.app n f a) (.app n f' a')
  tapp : ∀ {n f f' t}, R f f' → R (.tapp n f t) (.tapp n f' t)
  ascribe : ∀ {n e e' t}, R e e' → R (.ascribe n e t) (.ascribe n e' t)
  proj : ∀ {n e e' label}, R e e' → R (.proj n e label) (.proj n e' label)
  var : ∀ {n x}, R (.var n x) (.var n x)
  val : ∀ {n v}, R (.val n v) (.val n v)
  list : ∀ {n es es'}, List.Forall₂ R es es' → R (.list n es) (.list n es')
  record : ∀ {n fs fs'}, List.Forall₂ (fun f f' => f.1 = f'.1 ∧ R f.2 f'.2) fs fs' →
    R (.record n fs) (.record n fs')

theorem congruent_eq : Congruent Eq where
  lam h := by rw [h]
  tlam h := by rw [h]
  cond hc hy hz := by rw [hc, hy, hz]
  bin hl hr := by rw [hl, hr]
  un h := by rw [h]
  app hf ha := by rw [hf, ha]
  tapp h := by rw [h]
  ascribe h := by rw [h]
  proj h := by rw [h]
  var := rfl
  val := rfl
  list h := by
    rw [List.forall₂_eq_eq_eq] at h
    rw [h]
  record h := by
    have heq : ∀ {fs fs' : List (String × Expr)},
        List.Forall₂ (fun f f' => f.1 = f'.1 ∧ f.2 = f'.2) fs fs' → fs = fs' := by
      intro fs fs' h
      induction h with
      | nil => rfl
      | cons hf _ ih => rw [Prod.ext hf.1 hf.2, ih]
    rw [heq h]

theorem insertedItems_of_forall₂ {es es' : List Expr} (h : List.Forall₂ Inserted es es') :
    InsertedItems es es' := by
  induction h with
  | nil => exact .nil
  | cons he _ ih => exact .cons he ih

theorem insertedFields_of_forall₂ {fs fs' : List (String × Expr)}
    (h : List.Forall₂ (fun f f' => f.1 = f'.1 ∧ Inserted f.2 f'.2) fs fs') :
    InsertedFields fs fs' := by
  induction h with
  | nil => exact .nil
  | @cons f f' _ _ hf _ ih =>
    obtain ⟨label, e⟩ := f
    obtain ⟨label', e'⟩ := f'
    obtain ⟨rfl, he⟩ : label = label' ∧ Inserted e e' := hf
    exact .cons he ih

theorem congruent_inserted : Congruent Inserted where
  lam := .lam
  tlam := .tlam
  cond := .cond
  bin := .bin
  un := .un
  app := .app
  tapp := .tapp
  ascribe := .ascribe
  proj := .proj
  var := .var
  val := .val
  list h := .list (insertedItems_of_forall₂ h)
  record h := .record (insertedFields_of_forall₂ h)

/-- What typing an expression gives: a derivation whose types are within the names in scope, for
an expression related to the one that was given. -/
structure Checked (R : Expr → Expr → Prop) (Γ : Context) (k : Nat) (F : List String) (e : Expr)
    (r : Expr × Ty) : Prop where
  derives : HasType Γ r.1 r.2
  type : r.2.Within k F
  within : r.1.Within k F
  shape : R e.bare r.1.bare

theorem Checked.later {R : Expr → Expr → Prop} {Γ : Context} {k k' : Nat} {F : List String}
    {e : Expr} {r : Expr × Ty} (h : Checked R Γ k F e r) (hk : k ≤ k') :
    Checked R Γ k' F e r :=
  ⟨h.derives, h.type.later hk, h.within.later hk, h.shape⟩

/-- Typing by the rule is sound for the expression. -/
def Sound (rule : AppRule) (R : Expr → Expr → Prop) (e : Expr) : Prop :=
  ∀ {s : Scope Entry} {Γ : Context} {F : List String} {st st' : TypingState} {r : Expr × Ty},
    s.Shows Γ → (∀ w ∈ Ty.basicNames, w ∈ F) → Γ.Within st.drawn F → e.Within st.drawn F →
    (e.typeWith rule s).run st = .ok (r, st') →
    st.drawn ≤ st'.drawn ∧ Checked R Γ st'.drawn F e r

/-- The rule for applications is sound for functions and arguments that are typed. -/
def AppRule.Sound (rule : AppRule) (R : Expr → Expr → Prop) : Prop :=
  ∀ {s : Scope Entry} {Γ : Context} {F : List String} {n : Note} {f₀ a₀ : Expr} {f a : Expr × Ty}
    {st st' : TypingState} {r : Expr × Ty}, s.Shows Γ → (∀ w ∈ Ty.basicNames, w ∈ F) →
    Γ.Within st.drawn F → Checked R Γ st.drawn F f₀ f → Checked R Γ st.drawn F a₀ a →
    (rule s n f a).run st = .ok (r, st') →
    st.drawn ≤ st'.drawn ∧ Checked R Γ st'.drawn F (.app n f₀ a₀) r

section TypeWith

variable {rule : AppRule} {R : Expr → Expr → Prop} {s : Scope Entry} {Γ : Context}
  {F : List String} {st st' : TypingState}

theorem sound_items (es : List Expr) (ih : ∀ e ∈ es, Sound rule R e) {t : Ty} {es' : List Expr}
    (hs : s.Shows Γ) (hF : ∀ w ∈ Ty.basicNames, w ∈ F) (hΓ : Γ.Within st.drawn F)
    (he : ∀ e ∈ es, e.Within st.drawn F) (h : (typeItems rule s t es).run st = .ok (es', st')) :
    st.drawn ≤ st'.drawn ∧ ItemsHaveType Γ es' t ∧ (∀ e ∈ es', e.Within st'.drawn F) ∧
      List.Forall₂ R (bareItems es) (bareItems es') := by
  induction es generalizing st es' with
  | nil =>
    obtain ⟨rfl, rfl⟩ := run_pure_eq_ok h
    exact ⟨le_refl _, .nil, by simp, .nil⟩
  | cons e es ihs =>
    obtain ⟨hw, hws⟩ := List.forall_mem_cons.mp he
    obtain ⟨⟨e', u⟩, st₁, he', h⟩ := run_bind_eq_ok h
    obtain ⟨hk₁, hc⟩ := ih e List.mem_cons_self hs hF hΓ hw he'
    simp only at h
    split_ifs at h with htu
    · obtain ⟨rest, hrest, rfl⟩ := run_bind_pure_eq_ok h
      obtain ⟨hk₂, hts, hrw, hR⟩ := ihs (fun d hd => ih d (List.mem_cons_of_mem e hd))
        (hΓ.later hk₁) (fun d hd => (hws d hd).later hk₁) hrest
      exact ⟨hk₁.trans hk₂, .cons hc.derives htu hts,
        List.forall_mem_cons.mpr ⟨hc.within.later hk₂, hrw⟩, .cons hc.shape hR⟩
    · cases h

theorem sound_fields (fs : List (String × Expr)) (ih : ∀ f ∈ fs, Sound rule R f.2)
    {fs' : List (String × Expr)} {ts : List (String × Ty)} (hs : s.Shows Γ)
    (hF : ∀ w ∈ Ty.basicNames, w ∈ F) (hΓ : Γ.Within st.drawn F)
    (hf : ∀ f ∈ fs, f.2.Within st.drawn F)
    (h : (typeFields rule s fs).run st = .ok ((fs', ts), st')) :
    st.drawn ≤ st'.drawn ∧ FieldsHaveType Γ fs' ts ∧ (∀ t ∈ ts, t.2.Within st'.drawn F) ∧
      (∀ f ∈ fs', f.2.Within st'.drawn F) ∧
      List.Forall₂ (fun f f' => f.1 = f'.1 ∧ R f.2 f'.2) (bareFields fs) (bareFields fs') := by
  induction fs generalizing st fs' ts with
  | nil =>
    obtain ⟨he, rfl⟩ := run_pure_eq_ok h
    obtain ⟨rfl, rfl⟩ := Prod.mk.inj he
    exact ⟨le_refl _, .nil, by simp, by simp, .nil⟩
  | cons f fs ihs =>
    obtain ⟨label, e⟩ := f
    obtain ⟨hw, hws⟩ := List.forall_mem_cons.mp hf
    obtain ⟨⟨e', t⟩, st₁, he', h⟩ := run_bind_eq_ok h
    obtain ⟨⟨rest, us⟩, st₂, hrest, hret⟩ := run_bind_eq_ok h
    obtain ⟨he, rfl⟩ := run_pure_eq_ok hret
    obtain ⟨rfl, rfl⟩ := Prod.mk.inj he
    obtain ⟨hk₁, hc⟩ := ih (label, e) List.mem_cons_self hs hF hΓ hw he'
    obtain ⟨hk₂, hts, htw, hrw, hR⟩ := ihs (fun d hd => ih d (List.mem_cons_of_mem _ hd))
      (hΓ.later hk₁) (fun d hd => (hws d hd).later hk₁) hrest
    exact ⟨hk₁.trans hk₂, .cons hc.derives hts,
      List.forall_mem_cons.mpr ⟨hc.type.later hk₂, htw⟩,
      List.forall_mem_cons.mpr ⟨hc.within.later hk₂, hrw⟩, .cons ⟨rfl, hc.shape⟩ hR⟩

theorem within_bin {op : BinOp} {l r t : Ty} {k : Nat} (hF : ∀ w ∈ Ty.basicNames, w ∈ F)
    (hl : l.Within k F) (h : op.HasType l r t) : t.Within k F := by
  cases h with
  | logic | equality | order | arith => exact .basic (by decide) hF k none
  | sum => exact hl

theorem within_un {op : UnOp} {t u : Ty} {k : Nat} (hF : ∀ w ∈ Ty.basicNames, w ∈ F)
    (h : op.HasType t u) : u.Within k F := by
  cases h with
  | not | neg => exact .basic (by decide) hF k none

theorem within_lit (v : Value) {k : Nat} (hF : ∀ w ∈ Ty.basicNames, w ∈ F) :
    (Rule.lit v).Within k F := by
  cases v with
  | int | text | bool => exact .basic (by decide) hF k none

/-- Typing is sound if its rule for applications is. -/
theorem sound_typeWith (hR : Congruent R) (hrule : rule.Sound R) (e : Expr) : Sound rule R e := by
  induction e using Expr.induction with
  | lam n x p body ih =>
    intro s Γ F st st' r hs hF hΓ hw h
    cases p with
    | typed t =>
      obtain ⟨⟨body', u⟩, st₁, hbody, hret⟩ := run_bind_eq_ok h
      obtain ⟨rfl, rfl⟩ := run_pure_eq_ok hret
      obtain ⟨hk, hc⟩ := ih (hs.extend x (.term t)) hF (hΓ.cons_term x hw.1) hw.2 hbody
      have ht : t.Within st'.drawn F := Ty.Within.later hw.1 hk
      exact ⟨hk, .lam hc.derives, Ty.Within.arrow_iff.mpr ⟨ht, hc.type⟩, ⟨ht, hc.within⟩,
        hR.lam hc.shape⟩
    | dictionary => cases h
    | erased => cases h
  | tlam n x bounds body ih =>
    intro s Γ F st st' r hs hF hΓ hw h
    obtain ⟨_, st₁, hassume, h⟩ := run_bind_eq_ok h
    obtain ⟨⟨body', u⟩, st₂, hbody, h⟩ := run_bind_eq_ok h
    obtain ⟨_, hrelease, rfl⟩ := run_bind_pure_eq_ok h
    -- bounds come and go among the instances, which the counter does not see
    have hk₁ : st₁.drawn = st.drawn := by
      obtain ⟨-, rfl⟩ := Prod.mk.inj (Except.ok.inj hassume)
      rfl
    have hk₃ : st'.drawn = st₂.drawn := by
      obtain ⟨-, rfl⟩ := Prod.mk.inj (Except.ok.inj hrelease)
      rfl
    have hF' : ∀ w ∈ Ty.basicNames, w ∈ x :: F := fun w hw => List.mem_cons_of_mem x (hF w hw)
    obtain ⟨hk, hc⟩ := ih (hs.extend x .type) hF' (hk₁ ▸ hΓ.cons_type x) (hk₁ ▸ hw.2) hbody
    rw [hk₁, ← hk₃] at hk
    rw [← hk₃] at hc
    have hx : OldName st'.drawn x := hw.1.mono hk
    exact ⟨hk, .tlam hc.derives, Ty.Within.all_iff.mpr ⟨hx, hc.type⟩, ⟨hx, hc.within⟩,
      hR.tlam hc.shape⟩
  | cond n c y z ihc ihy ihz =>
    intro s Γ F st st' r hs hF hΓ hw h
    obtain ⟨⟨c', t₁⟩, st₁, hc, h⟩ := run_bind_eq_ok h
    obtain ⟨⟨y', t₂⟩, st₂, hy, h⟩ := run_bind_eq_ok h
    obtain ⟨⟨z', t₃⟩, st₃, hz, h⟩ := run_bind_eq_ok h
    obtain ⟨t, ht, rfl⟩ := run_bind_pure_eq_ok h
    obtain ⟨hrule, rfl⟩ := run_lift_eq_ok ht
    obtain ⟨hbool, hsame, rfl⟩ := Rule.cond_ok hrule
    -- later parts draw more names, so what holds of earlier parts is carried along
    obtain ⟨hk₁, hcc⟩ := ihc hs hF hΓ hw.1 hc
    obtain ⟨hk₂, hcy⟩ := ihy hs hF (hΓ.later hk₁) (hw.2.1.later hk₁) hy
    obtain ⟨hk₃, hcz⟩ := ihz hs hF (hΓ.later (hk₁.trans hk₂)) (hw.2.2.later (hk₁.trans hk₂)) hz
    exact ⟨(hk₁.trans hk₂).trans hk₃, .cond hcc.derives hcy.derives hcz.derives hbool hsame,
      hcy.type.later hk₃,
      ⟨hcc.within.later (hk₂.trans hk₃), hcy.within.later hk₃, hcz.within⟩,
      hR.cond hcc.shape hcy.shape hcz.shape⟩
  | bin n op l r ihl ihr =>
    intro s Γ F st st' res hs hF hΓ hw h
    obtain ⟨⟨l', t₁⟩, st₁, hl, h⟩ := run_bind_eq_ok h
    obtain ⟨⟨r', t₂⟩, st₂, hr, h⟩ := run_bind_eq_ok h
    obtain ⟨t, ht, rfl⟩ := run_bind_pure_eq_ok h
    obtain ⟨hrule, rfl⟩ := run_lift_eq_ok ht
    have hop := Rule.bin_ok hrule
    obtain ⟨hk₁, hcl⟩ := ihl hs hF hΓ hw.1 hl
    obtain ⟨hk₂, hcr⟩ := ihr hs hF (hΓ.later hk₁) (hw.2.later hk₁) hr
    exact ⟨hk₁.trans hk₂, .bin hcl.derives hcr.derives hop,
      within_bin hF (hcl.type.later hk₂) hop, ⟨hcl.within.later hk₂, hcr.within⟩,
      hR.bin hcl.shape hcr.shape⟩
  | un n op e ih =>
    intro s Γ F st st' r hs hF hΓ hw h
    obtain ⟨⟨e', t₁⟩, st₁, he, h⟩ := run_bind_eq_ok h
    obtain ⟨t, ht, rfl⟩ := run_bind_pure_eq_ok h
    obtain ⟨hrule, rfl⟩ := run_lift_eq_ok ht
    have hop := Rule.un_ok hrule
    obtain ⟨hk, hc⟩ := ih hs hF hΓ hw he
    exact ⟨hk, .un hc.derives hop, within_un hF hop, hc.within, hR.un hc.shape⟩
  | app n f a ihf iha =>
    intro s Γ F st st' r hs hF hΓ hw h
    obtain ⟨f', st₁, hf, h⟩ := run_bind_eq_ok h
    obtain ⟨a', st₂, ha, h⟩ := run_bind_eq_ok h
    obtain ⟨hk₁, hcf⟩ := ihf hs hF hΓ hw.1 hf
    obtain ⟨hk₂, hca⟩ := iha hs hF (hΓ.later hk₁) (hw.2.later hk₁) ha
    obtain ⟨hk₃, hc⟩ := hrule hs hF (hΓ.later (hk₁.trans hk₂)) (hcf.later hk₂) hca h
    exact ⟨(hk₁.trans hk₂).trans hk₃, hc⟩
  | tapp n f t ih =>
    intro s Γ F st st' r hs hF hΓ hw h
    obtain ⟨⟨f', q⟩, st₁, hf, h⟩ := run_bind_eq_ok h
    obtain ⟨u, hu, rfl⟩ := run_bind_pure_eq_ok h
    obtain ⟨l, x, bs, body, rfl, rfl, hk₂⟩ := Rule.tapp_ok hu
    obtain ⟨hk₁, hc⟩ := ih hs hF hΓ hw.1 hf
    have ht : t.Within st₁.drawn F := hw.2.later hk₁
    obtain ⟨hx, hbody⟩ := Ty.Within.all_iff.mp hc.type
    have hsub := Ty.Within.subst hc.type ht
    rw [← hk₂] at hsub
    -- all names in use are old, so the instance captures nothing
    have hinst := Ty.nameless_subst body x t st₁.drawn hx
      (fun w hw => ht.old w (Ty.free_subset_names t w hw)) hbody.old
    exact ⟨hk₁.trans hsub.1, .tapp hc.derives hinst, hsub.2,
      ⟨hc.within.later hsub.1, ht.later hsub.1⟩, hR.tapp hc.shape⟩
  | ascribe n e t ih =>
    intro s Γ F st st' r hs hF hΓ hw h
    obtain ⟨⟨e', t₁⟩, st₁, he, h⟩ := run_bind_eq_ok h
    obtain ⟨u, hu, rfl⟩ := run_bind_pure_eq_ok h
    obtain ⟨hrule, rfl⟩ := run_lift_eq_ok hu
    obtain ⟨hsame, rfl⟩ := Rule.ascribe_ok hrule
    obtain ⟨hk, hc⟩ := ih hs hF hΓ hw.1 he
    exact ⟨hk, .ascribe hc.derives hsame, hc.type, ⟨hc.within, hw.2.later hk⟩,
      hR.ascribe hc.shape⟩
  | proj n e label ih =>
    intro s Γ F st st' r hs hF hΓ hw h
    obtain ⟨⟨e', t₁⟩, st₁, he, h⟩ := run_bind_eq_ok h
    obtain ⟨u, hu, rfl⟩ := run_bind_pure_eq_ok h
    obtain ⟨hrule, rfl⟩ := run_lift_eq_ok hu
    obtain ⟨l, fields, rfl, hfield⟩ := Rule.proj_ok hrule
    obtain ⟨hk, hc⟩ := ih hs hF hΓ hw he
    obtain ⟨l₁, l₂, rfl, -⟩ := List.lookup_eq_some_iff.mp hfield
    exact ⟨hk, .proj hc.derives hfield,
      Ty.Within.record_iff.mp hc.type (label, u) (by simp), hc.within, hR.proj hc.shape⟩
  | var n x =>
    intro s Γ F st st' r hs hF hΓ hw h
    obtain ⟨t, ht, rfl⟩ := run_bind_pure_eq_ok h
    obtain ⟨hrule, rfl⟩ := run_lift_eq_ok ht
    have hx : Γ.lookup x = some (.term t) := (hs x).symm.trans (Rule.var_ok hrule)
    exact ⟨le_refl _, .var hx, hΓ.lookup hx, trivial, hR.var⟩
  | val n v =>
    intro s Γ F st st' r hs hF hΓ hw h
    obtain ⟨rfl, rfl⟩ := run_pure_eq_ok h
    exact ⟨le_refl _, .val, within_lit v hF, trivial, hR.val⟩
  | list n es ih =>
    intro s Γ F st st' r hs hF hΓ hw h
    cases es with
    | nil =>
      obtain ⟨rfl, rfl⟩ := run_pure_eq_ok h
      exact ⟨le_refl _, .nil, .emptyList _ F, trivial, hR.list .nil⟩
    | cons e es =>
      obtain ⟨⟨e', t⟩, st₁, he, h⟩ := run_bind_eq_ok h
      obtain ⟨es', hes, rfl⟩ := run_bind_pure_eq_ok h
      obtain ⟨hk₁, hc⟩ := ih e List.mem_cons_self hs hF hΓ hw.1 he
      obtain ⟨hk₂, hts, hws, hRs⟩ := sound_items es
        (fun d hd => ih d (List.mem_cons_of_mem e hd)) hs hF (hΓ.later hk₁)
        (fun d hd => (withinItems_iff.mp hw.2 d hd).later hk₁) hes
      exact ⟨hk₁.trans hk₂, .list hc.derives hts, Ty.Within.list_iff.mpr (hc.type.later hk₂),
        ⟨hc.within.later hk₂, withinItems_iff.mpr hws⟩, hR.list (.cons hc.shape hRs)⟩
  | record n fs ih =>
    intro s Γ F st st' r hs hF hΓ hw h
    obtain ⟨⟨fs', ts⟩, st₁, hfs, hret⟩ := run_bind_eq_ok h
    obtain ⟨rfl, rfl⟩ := run_pure_eq_ok hret
    obtain ⟨hk, hts, htw, hws, hRs⟩ := sound_fields fs ih hs hF hΓ (withinFields_iff.mp hw) hfs
    exact ⟨hk, .record hts, Ty.Within.record_iff.mpr htw, withinFields_iff.mpr hws,
      hR.record hRs⟩

end TypeWith

theorem sound_explicitApp {R : Expr → Expr → Prop} (hR : Congruent R) :
    AppRule.Sound explicitApp R := by
  intro s Γ F n f₀ a₀ f a st st' r hs hF hΓ hf ha h
  obtain ⟨t, ht, rfl⟩ := run_bind_pure_eq_ok h
  obtain ⟨hrule, rfl⟩ := run_lift_eq_ok ht
  obtain ⟨l, dom, hfn, hdom⟩ := Rule.app_ok hrule
  have harrow := hf.derives
  have htype := hf.type
  rw [hfn] at harrow htype
  exact ⟨le_refl _, .app harrow ha.derives hdom, (Ty.Within.arrow_iff.mp htype).2,
    ⟨hf.within, ha.within⟩, hR.app hf.shape ha.shape⟩

/-- Typing without inference changes notes only. -/
theorem sound_explicit (e : Expr) : Sound explicitApp Eq e :=
  sound_typeWith congruent_eq (sound_explicitApp congruent_eq) e

end Expr

namespace Ty

/-- Matching finds a part of the type that is matched. -/
theorem Finds.within {x : String} {p t u : Ty} {k : Nat} {F : List String} (h : Finds x p t u)
    (ht : t.Within k F) : u.Within k F := by
  induction h with
  | name => exact ht
  | arrow _ _ _ ihd _ => exact ihd (Within.arrow_iff.mp ht).1
  | list _ ih => exact ih (Within.list_iff.mp ht)
  | @record line line' fs gs last other found _ hother _ _ hlast ih =>
    have hmem : last ∈ fs := List.mem_of_getLast? hlast
    exact ih last hmem (Within.record_iff.mp ht _ (Assoc.mem_of_lookup (hother last hmem)))

end Ty

namespace Expr

/-- An inferred type argument is one that could have been written, and with it the application
is typed without inference. -/
theorem sound_inferApp : AppRule.Sound inferApp Inserted := by
  intro s Γ F n f₀ a₀ f a st st' r hs hF hΓ hf ha h
  unfold inferApp at h
  split at h
  · rename_i l x bs l' dom cod hfn
    split at h
    · rename_i t ht
      -- the type argument is a part of the type of the argument, so its names are in scope
      have htw := (Ty.finds_of_unify dom ht).within ha.type
      obtain ⟨f', st₁, hf', h⟩ := run_bind_eq_ok h
      obtain ⟨a', st₂, ha', h⟩ := run_bind_eq_ok h
      -- function and argument are typed a second time, which changes notes only
      obtain ⟨hk₁, hcf⟩ := sound_explicit (tapp ⟨n.line, none⟩ f.1 t) hs hF hΓ
        ⟨hf.within, htw⟩ hf'
      obtain ⟨hk₂, hca⟩ := sound_explicit a.1 hs hF (hΓ.later hk₁) (ha.within.later hk₁) ha'
      obtain ⟨hk₃, hc⟩ := sound_explicitApp congruent_eq hs hF (hΓ.later (hk₁.trans hk₂))
        (hcf.later hk₂) hca h
      refine ⟨(hk₁.trans hk₂).trans hk₃, hc.derives, hc.type, hc.within, ?_⟩
      rw [← hc.shape]
      exact .insert hf.shape ha.shape
    · cases h
  · exact sound_explicitApp congruent_inserted hs hF hΓ hf ha h

theorem sound_infer (e : Expr) : Sound inferApp Inserted e :=
  sound_typeWith congruent_inserted sound_inferApp e

end Expr

/-- The functions a program starts with. -/
def Context.builtins : Context := Builtin.all.map fun b => (b.name, .term b.type)

theorem Scope.shows_builtins : Scope.builtins.Shows Context.builtins := by
  intro x
  simp only [Scope.get?, Scope.builtins, List.findSome?_cons, List.findSome?_nil]
  rw [Context.builtins]
  cases (Builtin.all.map fun b => (b.name, Entry.term b.type)).lookup x <;> rfl

theorem Builtin.within_type (b : Builtin) {k : Nat} {F : List String}
    (hF : ∀ w ∈ Ty.basicNames, w ∈ F) : b.type.Within k F := by
  have hsrc : ∀ w ∈ b.type.names, '$' ∉ w.toList := by cases b <;> decide
  have hfree : ∀ w ∈ b.type.free, w ∈ Ty.basicNames := by cases b <;> decide
  exact ⟨fun w hw => SourceName.old (hsrc w hw) k, fun w hw => hF w (hfree w hw)⟩

theorem Context.within_builtins {k : Nat} {F : List String} (hF : ∀ w ∈ Ty.basicNames, w ∈ F) :
    Context.Within k F Context.builtins := by
  intro x t hx
  obtain ⟨b, -, hb⟩ := List.mem_map.mp hx
  exact Entry.term.inj (Prod.mk.inj hb).2 ▸ b.within_type hF

/-- Derivations for the expressions of statements, each under what the statements before it
bind. -/
inductive StmtsHaveTypes : Context → List Stmt → Prop
  | nil {Γ : Context} : StmtsHaveTypes Γ []
  | assign {Γ : Context} {line : Nat} {x : String} {e : Expr} {t : Ty} {ss : List Stmt}
      (he : HasType Γ e t) (hss : StmtsHaveTypes ((x, .term t) :: Γ) ss) :
      StmtsHaveTypes Γ (.assign line x e :: ss)
  | eval {Γ : Context} {line : Nat} {e : Expr} {t : Ty} {ss : List Stmt} (he : HasType Γ e t)
      (hss : StmtsHaveTypes Γ ss) : StmtsHaveTypes Γ (.eval line e :: ss)
  | inst {Γ : Context} {line : Nat} {trait : String} {type : Ty} {dict : Expr} {ss : List Stmt}
      (hss : StmtsHaveTypes Γ ss) : StmtsHaveTypes Γ (.inst line trait type dict :: ss)
  | field {Γ : Context} {line : Nat} {x trait : String} {type : Ty} {ss : List Stmt}
      (hss : StmtsHaveTypes ((x, .term type) :: Γ) ss) :
      StmtsHaveTypes Γ (.field line x trait type :: ss)

/-- The second statement is the first with type arguments put into its expression. -/
inductive Stmt.Inserted : Stmt → Stmt → Prop
  | assign {line : Nat} {x : String} {e e' : Expr} (he : Expr.Inserted e.bare e'.bare) :
      Inserted (.assign line x e) (.assign line x e')
  | eval {line : Nat} {e e' : Expr} (he : Expr.Inserted e.bare e'.bare) :
      Inserted (.eval line e) (.eval line e')
  | inst {line : Nat} {trait : String} {type : Ty} {dict : Expr} :
      Inserted (.inst line trait type dict) (.inst line trait type dict)
  | field {line : Nat} {x trait : String} {type : Ty} :
      Inserted (.field line x trait type) (.field line x trait type)

namespace Stmt

/-- The expression that a statement evaluates, with the statement's line. -/
def expr? : Stmt → Option (Nat × Expr)
  | assign line _ e => some (line, e)
  | eval line e => some (line, e)
  | _ => none

/-- The types written in a statement and the type found for its expression are within the names
of `F`. -/
structure TypedWithin (k : Nat) (F : List String) (s : Stmt) : Prop where
  written : s.Within k F
  found : ∀ e ∈ s.expr?, ∀ t, e.2.type? = some t → t.Within k F

theorem TypedWithin.later {k k' : Nat} {F : List String} {s : Stmt} (h : s.TypedWithin k F)
    (hk : k ≤ k') : s.TypedWithin k' F :=
  ⟨h.written.later hk, fun e he t ht => (h.found e he t ht).later hk⟩

theorem typedWithin_of_checked {R : Expr → Expr → Prop} {Γ : Context} {k : Nat} {F : List String}
    {e : Expr} {r : Expr × Ty} {s : Stmt} {line : Nat} (h : Expr.Checked R Γ k F e r)
    (hs : s.expr? = some (line, r.1)) (hw : s.Within k F) : s.TypedWithin k F := by
  refine ⟨hw, fun e' he t ht => ?_⟩
  obtain rfl : (line, r.1) = e' := Option.some.inj (hs.symm.trans he)
  obtain rfl : r.2 = t := Option.some.inj (h.derives.type?_eq.symm.trans ht)
  exact h.type

variable {Γ : Context} {F : List String} {sc sc' : Scope Entry} {st st' : TypingState}

/-- One statement: it gets its derivation, and the next ones are typed under a context that has
its name. -/
theorem infer_sound {s s' : Stmt} {line : String} (hs : sc.Shows Γ)
    (hF : ∀ w ∈ Ty.basicNames, w ∈ F) (hΓ : Γ.Within st.drawn F) (hw : s.Within st.drawn F)
    (h : (s.infer sc).run st = .ok ((s', sc', line), st')) :
    st.drawn ≤ st'.drawn ∧ s.Inserted s' ∧ s'.TypedWithin st'.drawn F ∧
      ∃ Γ', sc'.Shows Γ' ∧ Γ'.Within st'.drawn F ∧
        ∀ ss, StmtsHaveTypes Γ' ss → StmtsHaveTypes Γ (s' :: ss) := by
  cases s with
  | assign l x e =>
    obtain ⟨⟨e', t⟩, st₁, he, hret⟩ := run_bind_eq_ok h
    obtain ⟨hres, rfl⟩ := run_pure_eq_ok hret
    obtain ⟨rfl, hscope⟩ := Prod.mk.inj hres
    obtain ⟨rfl, -⟩ := Prod.mk.inj hscope
    obtain ⟨hk, hc⟩ := e.sound_infer hs hF hΓ hw he
    exact ⟨hk, .assign hc.shape, typedWithin_of_checked hc rfl hc.within, _, hs.set x _,
      (hΓ.later hk).cons_term x hc.type, fun ss hss => .assign hc.derives hss⟩
  | eval l e =>
    obtain ⟨⟨e', t⟩, st₁, he, hret⟩ := run_bind_eq_ok h
    obtain ⟨hres, rfl⟩ := run_pure_eq_ok hret
    obtain ⟨rfl, hscope⟩ := Prod.mk.inj hres
    obtain ⟨rfl, -⟩ := Prod.mk.inj hscope
    obtain ⟨hk, hc⟩ := e.sound_infer hs hF hΓ hw he
    exact ⟨hk, .eval hc.shape, typedWithin_of_checked hc rfl hc.within, Γ, hs, hΓ.later hk,
      fun ss hss => .eval hc.derives hss⟩
  | inst l trait type dict =>
    obtain ⟨_, st₁, hassume, hret⟩ := run_bind_eq_ok h
    obtain ⟨-, rfl⟩ := Prod.mk.inj (Except.ok.inj hassume)
    obtain ⟨hres, rfl⟩ := run_pure_eq_ok hret
    obtain ⟨rfl, hscope⟩ := Prod.mk.inj hres
    obtain ⟨rfl, -⟩ := Prod.mk.inj hscope
    exact ⟨le_refl _, .inst, ⟨hw, nofun⟩, Γ, hs, hΓ, fun ss hss => .inst hss⟩
  | field l x trait type =>
    obtain ⟨hres, rfl⟩ := run_pure_eq_ok h
    obtain ⟨rfl, hscope⟩ := Prod.mk.inj hres
    obtain ⟨rfl, -⟩ := Prod.mk.inj hscope
    exact ⟨le_refl _, .field, ⟨hw, nofun⟩, _, hs.set x _, hΓ.cons_term x hw,
      fun ss hss => .field hss⟩

theorem inferAll_sound {ss ss' done : List Stmt} {log : String} (hs : sc.Shows Γ)
    (hF : ∀ w ∈ Ty.basicNames, w ∈ F) (hΓ : Γ.Within st.drawn F)
    (hw : ∀ s ∈ ss, s.Within st.drawn F)
    (h : (inferAll sc st log done ss).2 = .ok (ss', st')) :
    ∃ new, ss' = done.reverse ++ new ∧ st.drawn ≤ st'.drawn ∧ StmtsHaveTypes Γ new ∧
      List.Forall₂ Inserted ss new ∧ ∀ s ∈ new, s.TypedWithin st'.drawn F := by
  induction ss generalizing sc Γ st log done with
  | nil =>
    obtain ⟨rfl, rfl⟩ := Prod.mk.inj (Except.ok.inj h)
    exact ⟨[], (List.append_nil _).symm, le_refl _, .nil, .nil, by simp⟩
  | cons s ss ih =>
    obtain ⟨hw, hws⟩ := List.forall_mem_cons.mp hw
    unfold inferAll at h
    split at h
    · cases h
    · rename_i s' sc' line st₁ hinfer
      obtain ⟨hk₁, hins, hsw, Γ', hs', hΓ', hder⟩ := infer_sound hs hF hΓ hw hinfer
      obtain ⟨new, rfl, hk₂, hnew, hall, hwn⟩ :=
        ih hs' hΓ' (fun s hs => (hws s hs).later hk₁) h
      refine ⟨s' :: new, by simp, hk₁.trans hk₂, hder new hnew, .cons hins hall, ?_⟩
      exact List.forall_mem_cons.mpr ⟨hsw.later hk₂, hwn⟩

end Stmt

namespace Program

/-- Typing of a program that was read gives derivations for an expanded program, whose types are
within the names in scope. -/
theorem infer_sound {code : String} {p q : Program Stmt} {drawn : Nat} {st : TypingState}
    (hr : resolveText code = .ok (p, drawn)) (hi : (p.infer drawn).2 = .ok (q, st)) :
    StmtsHaveTypes Context.builtins q.stmts ∧ List.Forall₂ Stmt.Inserted p.stmts q.stmts ∧
      ∀ s ∈ q.stmts, s.TypedWithin st.drawn (Ty.basicNames ++ p.lamNames) := by
  have hF : ∀ w ∈ Ty.basicNames, w ∈ Ty.basicNames ++ p.lamNames :=
    fun w hw => List.mem_append_left _ hw
  have hw := within_resolveText hr
  unfold infer at hi
  split at hi
  · cases hi
  · rename_i log ss st₁ hss
    obtain ⟨rfl, rfl⟩ := Prod.mk.inj (Except.ok.inj hi)
    obtain ⟨new, rfl, -, hnew, hall, hwn⟩ := Stmt.inferAll_sound Scope.shows_builtins hF
      (Context.within_builtins hF) (fun s hs => (hw s hs).1) (congrArg Prod.snd hss)
    exact ⟨hnew, hall, hwn⟩

theorem exists_infer_of_inferText {code : String} {q : Program Stmt}
    (h : inferText code = .ok q) :
    ∃ p drawn st, resolveText code = .ok (p, drawn) ∧ (p.infer drawn).2 = .ok (q, st) := by
  unfold inferText at h
  split at h
  · cases h
  · rename_i p drawn hp
    cases hi : (p.infer drawn).2 with
    | error e =>
      rw [hi] at h
      cases h
    | ok r =>
      rw [hi] at h
      obtain rfl : r.1 = q := Except.ok.inj h
      exact ⟨p, drawn, r.2, hp, hi⟩

theorem exists_infer_of_isOk {code : String} (h : (inferText code).isOk = true) :
    ∃ p drawn q st, resolveText code = .ok (p, drawn) ∧ (p.infer drawn).2 = .ok (q, st) := by
  cases hq : inferText code with
  | error e =>
    rw [hq] at h
    cases h
  | ok q =>
    obtain ⟨p, drawn, st, hr, hi⟩ := exists_infer_of_inferText hq
    exact ⟨p, drawn, q, st, hr, hi⟩

/-- Elaboration. The notes that typing leaves are explicit derivations: each node's type follows
from those of its parts by the rule of its form, without inference, and an applied function is
never quantified. Without the type arguments that were put in, the statements are those that were
given. -/
theorem infer_explicit {code : String} {p q : Program Stmt} {drawn : Nat} {st : TypingState}
    (hr : resolveText code = .ok (p, drawn)) (hi : (p.infer drawn).2 = .ok (q, st)) :
    StmtsHaveTypes Context.builtins q.stmts ∧ List.Forall₂ Stmt.Inserted p.stmts q.stmts :=
  ⟨(infer_sound hr hi).1, (infer_sound hr hi).2.1⟩

/-- A program with nested type arguments to infer, one of them under a binder of its name. -/
def nestedSample : String :=
  "const = \\a. \\x: a. \\b. \\y: b. x;\n" ++ "pick = \\b. \\z: b. const z;\n" ++
    "twice = \\a. \\f: a -> a. \\x: a. f (f x);\n" ++
    "n = twice (\\x: Int. x + 1) (const 3 \"s\");\n"

theorem infer_explicit_nested : ∃ p drawn q st,
    resolveText nestedSample = .ok (p, drawn) ∧ (p.infer drawn).2 = .ok (q, st) ∧
    StmtsHaveTypes Context.builtins q.stmts ∧ List.Forall₂ Stmt.Inserted p.stmts q.stmts := by
  have hok : (inferText nestedSample).isOk = true := by decide +kernel
  obtain ⟨p, drawn, q, st, hr, hi⟩ := exists_infer_of_isOk hok
  exact ⟨p, drawn, q, st, hr, hi, infer_explicit hr hi⟩

end Program

end TraitCalculus
