import Mathlib
import TraitCalculus.Proofs.ClosureSemantics
import TraitCalculus.Proofs.FreshNames

/-! Closures as expressions. A closure unloads to a lambda that has its environment substituted
into its body. The relation allows for the copies, the renamings and the dropped notes of the
evaluator by substitution, and substitution keeps it. -/
namespace TraitCalculus

namespace Builtin

theorem sourceName_name (b : Builtin) : SourceName b.name := by
  cases b <;> (unfold SourceName; decide)

theorem name_of_ofName? {x : String} {b : Builtin} (h : ofName? x = some b) : b.name = x := by
  have hb := List.find?_some h
  simpa using hb

end Builtin

namespace Expr

/-- What substitution does at a lambda that it changes: the name, renaming and pair that it takes
inside, and the counter there. -/
inductive Entered (x : String) (ρ : List (String × String)) (σ : Option (String × Expr)) (k : Nat) :
    String → List (String × String) → Option (String × Expr) → Nat → Prop
  | hidden (h : σ = none ∨ ∃ new, σ = some (x, new)) :
      Entered x ρ σ k x (ρ.filter (·.1 ≠ x)) none k
  | kept (y : String) (new : Expr) (hσ : σ = some (y, new)) (hxy : y ≠ x) :
      Entered x ρ σ k x (ρ.filter (·.1 ≠ x)) σ k
  | renamed (y : String) (new : Expr) (hσ : σ = some (y, new)) (hxy : y ≠ x) :
      Entered x ρ σ k (freshName x (k + 1)) ((x, freshName x (k + 1)) :: ρ.filter (·.1 ≠ x)) σ
        (k + 1)

/-- A lambda is left alone where nothing is to be done below it, and is entered otherwise. -/
theorem run_substIn_lam (ρ : List (String × String)) (σ : Option (String × Expr)) (k : Nat)
    (n : Note) (x : String) (p : Param) (body : Expr) :
    ∃ y ρ' σ' k', Entered x ρ σ k y ρ' σ' k' ∧
      (((lam n x p body).substIn ρ σ).run k =
          (lam .blank y .erased ((body.substIn ρ' σ').run k').1, ((body.substIn ρ' σ').run k').2) ∨
        (y = x ∧ ρ' = [] ∧ σ' = none ∧
          ((lam n x p body).substIn ρ σ).run k = (lam n x p body, k'))) := by
  cases hσ : σ.filter (·.1 ≠ x) with
  | none =>
    have hcase : σ = none ∨ ∃ new, σ = some (x, new) := by
      cases σ with
      | none => exact Or.inl rfl
      | some s =>
        have hs : s.1 = x := by simpa [Option.filter] using hσ
        exact Or.inr ⟨s.2, hs ▸ rfl⟩
    refine ⟨_, _, _, _, .hidden hcase, ?_⟩
    by_cases hρ : (ρ.filter (·.1 ≠ x)).isEmpty
    · refine Or.inr ⟨rfl, List.isEmpty_iff.mp hρ, rfl, ?_⟩
      simp only [substIn, hσ, if_pos hρ]
      rfl
    · refine Or.inl ?_
      simp only [substIn, hσ, if_neg hρ]
      rfl
  | some s =>
    obtain ⟨y, new⟩ := s
    obtain ⟨hs, hne⟩ : σ = some (y, new) ∧ y ≠ x := by
      simpa [Option.filter_eq_some_iff] using hσ
    subst hs
    by_cases hx : x ∈ new.freeTypes
    · refine ⟨_, _, _, _, .renamed y new rfl hne, Or.inl ?_⟩
      simp only [substIn, hσ, if_pos hx]
      rfl
    · refine ⟨_, _, _, _, .kept y new rfl hne, Or.inl ?_⟩
      simp only [substIn, hσ, if_neg hx]
      rfl

theorem run_substIn_var (ρ : List (String × String)) (σ : Option (String × Expr)) (k : Nat)
    (n : Note) (x : String) : ((var n x).substIn ρ σ).run k = (substVar ρ σ n x, k) :=
  rfl

theorem run_substItems_cons (ρ : List (String × String)) (σ : Option (String × Expr)) (k : Nat)
    (e : Expr) (es : List Expr) :
    (substItems ρ σ (e :: es)).run k =
      (((e.substIn ρ σ).run k).1 :: ((substItems ρ σ es).run ((e.substIn ρ σ).run k).2).1,
        ((substItems ρ σ es).run ((e.substIn ρ σ).run k).2).2) :=
  rfl

/-- The fields of a record keep their labels, and their expressions are substituted in order. -/
theorem run_substFields (ρ : List (String × String)) (σ : Option (String × Expr)) (k : Nat)
    (fs : List (String × Expr)) :
    (substFields ρ σ fs).run k =
      ((fs.map Prod.fst).zip ((substItems ρ σ (fs.map Prod.snd)).run k).1,
        ((substItems ρ σ (fs.map Prod.snd)).run k).2) := by
  induction fs generalizing k with
  | nil => rfl
  | cons f fs ih =>
    have hstep : (substFields ρ σ (f :: fs)).run k =
        ((f.1, ((f.2.substIn ρ σ).run k).1) ::
            ((substFields ρ σ fs).run ((f.2.substIn ρ σ).run k).2).1,
          ((substFields ρ σ fs).run ((f.2.substIn ρ σ).run k).2).2) := rfl
    rw [hstep, ih, List.map_cons, List.map_cons, run_substItems_cons, List.zip_cons_cons]

theorem substItems_drawn_le (ρ : List (String × String)) (σ : Option (String × Expr))
    {es : List Expr} (h : ∀ e ∈ es, ∀ k, k ≤ ((e.substIn ρ σ).run k).2) (k : Nat) :
    k ≤ ((substItems ρ σ es).run k).2 := by
  induction es generalizing k with
  | nil => exact le_refl k
  | cons e es ih =>
    obtain ⟨he, hes⟩ := List.forall_mem_cons.mp h
    rw [run_substItems_cons]
    exact (he k).trans (ih hes _)

theorem substIn_drawn_le (e : Expr) (ρ : List (String × String)) (σ : Option (String × Expr))
    (k : Nat) : k ≤ ((e.substIn ρ σ).run k).2 := by
  induction e using Expr.induction generalizing ρ σ k with
  | lam n x p body ih =>
    obtain ⟨y, ρ', σ', k', hin, hrun⟩ := run_substIn_lam ρ σ k n x p body
    have hk : k ≤ k' := by cases hin <;> omega
    rcases hrun with hrun | ⟨-, -, -, hrun⟩
    · rw [hrun]
      exact hk.trans (ih ρ' σ' k')
    · rw [hrun]
      exact hk
  | tlam _ _ _ _ ih | un _ _ _ ih | tapp _ _ _ ih | ascribe _ _ _ ih | proj _ _ _ ih =>
    exact ih ρ σ k
  | cond n c y z ihc ihy ihz => exact (ihc ρ σ k).trans ((ihy ρ σ _).trans (ihz ρ σ _))
  | bin _ _ _ _ ihl ihr | app _ _ _ ihl ihr => exact (ihl ρ σ k).trans (ihr ρ σ _)
  | var _ _ | val _ _ => exact le_refl k
  | list n es ih => exact substItems_drawn_le ρ σ (fun e he k => ih e he ρ σ k) k
  | record n fs ih =>
    have hfs : ∀ e ∈ fs.map Prod.snd, ∀ k, k ≤ ((e.substIn ρ σ).run k).2 := by
      intro e he k
      obtain ⟨f, hf, rfl⟩ := List.mem_map.mp he
      exact ih f hf ρ σ k
    have hrun := congrArg Prod.snd (run_substFields ρ σ k fs)
    exact (substItems_drawn_le ρ σ hfs k).trans hrun.ge

end Expr

namespace Closure

/-- What a variable of an expression has become: nothing but its name, the parameter of a lambda
around it under its present name, or a value. -/
inductive Slot where
  | free
  | param (y : String)
  | value (v : Val)

/-- What is unloaded: a value, or an expression with a slot for each variable. -/
inductive Load where
  | value (v : Val)
  | term (η : String → Slot) (e : Expr)

def Env.slots (env : Env) (x : String) : Slot := (env.lookup x).elim .free .value

theorem Env.lookup_of_slots_value {env : Env} {x : String} {v : Val}
    (h : env.slots x = .value v) : env.lookup x = some v := by
  unfold slots at h
  cases hl : env.lookup x with
  | none =>
    rw [hl] at h
    cases h
  | some w =>
    rw [hl] at h
    exact congrArg some (Slot.value.inj h)

theorem Env.lookup_of_slots_free {env : Env} {x : String} (h : env.slots x = .free) :
    env.lookup x = none := by
  unfold slots at h
  cases hl : env.lookup x with
  | none => rfl
  | some w =>
    rw [hl] at h
    cases h

theorem Env.slots_ne_param (env : Env) (x y : String) : env.slots x ≠ .param y := by
  unfold slots
  cases env.lookup x <;> exact nofun

theorem Env.slots_cons (env : Env) (x : String) (v : Val) :
    Env.slots ((x, v) :: env) = Function.update env.slots x (.value v) := by
  funext y
  rw [slots, Assoc.lookup_cons_if]
  by_cases hy : y = x
  · rw [if_pos hy, hy, Function.update_self, Option.elim_some]
  · rw [if_neg hy, Function.update_of_ne hy, slots]

/-- The name of a global or of a builtin. -/
def Taken (G : List String) (x : String) : Prop := x ∈ G ∨ (Builtin.ofName? x).isSome

/-- The function `cons`, with the names `x` and `xs` for its parameters. -/
def consTerm (n : Fin 6 → Note) (p : Fin 2 → Param) (x xs : String) : Expr :=
  .lam (n 0) x (p 0) (.lam (n 1) xs (p 1)
    (.bin (n 2) .add (.list (n 3) [.var (n 4) x]) (.var (n 5) xs)))

/-- The function `cons` with its first argument in place. -/
def consOfTerm (n : Fin 4 → Note) (p : Param) (e : Expr) (xs : String) : Expr :=
  .lam (n 0) xs p (.bin (n 1) .add (.list (n 2) [e]) (.var (n 3) xs))

/-- The expression is a form of the load, its binders named by names that are old at `k`. Notes
and types do not matter. A variable that is bound nowhere and can never be a global may have
become anything: evaluation with closures does not get past it. -/
inductive Unloads (G : List String) (k : Nat) : Load → Expr → Prop
  | lit {v : Value} {n : Note} : Unloads G k (.value (.lit v)) (.val n v)
  | closure {env : Env} {x : String} {n : Note} {p : Param} {body e' : Expr}
      (h : Unloads G k (.term env.slots (.lam n x p body)) e') :
      Unloads G k (.value (.closure env x body)) e'
  | prim {b : Builtin} {n : Note} (hr : b ≠ .read) (hc : b ≠ .cons) :
      Unloads G k (.value (.prim b)) (.var n b.name)
  | cons {x xs : String} (n : Fin 6 → Note) (p : Fin 2 → Param) (hne : x ≠ xs)
      (hx : OldName k x) (hxs : OldName k xs) (ht : ¬Taken G xs) :
      Unloads G k (.value (.prim .cons)) (consTerm n p x xs)
  | consOf {v : Val} {e : Expr} {xs : String} (n : Fin 4 → Note) (p : Param)
      (hxs : OldName k xs) (ht : ¬Taken G xs) (h : Unloads G k (.value v) e) :
      Unloads G k (.value (.consOf v)) (consOfTerm n p e xs)
  | list {vs : List Val} {es : List Expr} {n : Note} (hlen : vs.length = es.length)
      (h : ∀ v e, (v, e) ∈ vs.zip es → Unloads G k (.value v) e) :
      Unloads G k (.value (.list vs)) (.list n es)
  | record {fs : List (String × Val)} {gs : List (String × Expr)} {n : Note}
      (hlabels : fs.map Prod.fst = gs.map Prod.fst)
      (h : ∀ v e, (v, e) ∈ (fs.map Prod.snd).zip (gs.map Prod.snd) → Unloads G k (.value v) e) :
      Unloads G k (.value (.record fs)) (.record n gs)
  | slot {η : String → Slot} {n : Note} {x : String} {v : Val} {e' : Expr}
      (hx : η x = .value v) (h : Unloads G k (.value v) e') : Unloads G k (.term η (.var n x)) e'
  | param {η : String → Slot} {n n' : Note} {x y : String} (hx : η x = .param y) :
      Unloads G k (.term η (.var n x)) (.var n' y)
  | name {η : String → Slot} {n n' : Note} {x : String} (hx : η x = .free) (ht : Taken G x) :
      Unloads G k (.term η (.var n x)) (.var n' x)
  | junk {η : String → Slot} {n : Note} {x : String} {e' : Expr} (hx : η x = .free)
      (ht : ¬Taken G x) : Unloads G k (.term η (.var n x)) e'
  | lam {η : String → Slot} {n n' : Note} {x y : String} {p p' : Param} {body body' : Expr}
      (hy : OldName k y) (ht : ¬Taken G y) (hne : ∀ z, z ≠ x → η z ≠ .param y)
      (h : Unloads G k (.term (Function.update η x (.param y)) body) body') :
      Unloads G k (.term η (.lam n x p body)) (.lam n' y p' body')
  | tlam {η : String → Slot} {n n' : Note} {x x' : String} {bs bs' : List String}
      {body body' : Expr} (h : Unloads G k (.term η body) body') :
      Unloads G k (.term η (.tlam n x bs body)) (.tlam n' x' bs' body')
  | cond {η : String → Slot} {n n' : Note} {c c' y y' z z' : Expr}
      (hc : Unloads G k (.term η c) c') (hy : Unloads G k (.term η y) y')
      (hz : Unloads G k (.term η z) z') :
      Unloads G k (.term η (.cond n c y z)) (.cond n' c' y' z')
  | bin {η : String → Slot} {n n' : Note} {op : BinOp} {l l' r r' : Expr}
      (hl : Unloads G k (.term η l) l') (hr : Unloads G k (.term η r) r') :
      Unloads G k (.term η (.bin n op l r)) (.bin n' op l' r')
  | un {η : String → Slot} {n n' : Note} {op : UnOp} {e e' : Expr}
      (h : Unloads G k (.term η e) e') : Unloads G k (.term η (.un n op e)) (.un n' op e')
  | app {η : String → Slot} {n n' : Note} {f f' a a' : Expr} (hf : Unloads G k (.term η f) f')
      (ha : Unloads G k (.term η a) a') : Unloads G k (.term η (.app n f a)) (.app n' f' a')
  | tapp {η : String → Slot} {n n' : Note} {f f' : Expr} {t t' : Ty}
      (h : Unloads G k (.term η f) f') : Unloads G k (.term η (.tapp n f t)) (.tapp n' f' t')
  | ascribe {η : String → Slot} {n n' : Note} {e e' : Expr} {t t' : Ty}
      (h : Unloads G k (.term η e) e') :
      Unloads G k (.term η (.ascribe n e t)) (.ascribe n' e' t')
  | proj {η : String → Slot} {n n' : Note} {e e' : Expr} {label : String}
      (h : Unloads G k (.term η e) e') :
      Unloads G k (.term η (.proj n e label)) (.proj n' e' label)
  | val {η : String → Slot} {n n' : Note} {v : Value} :
      Unloads G k (.term η (.val n v)) (.val n' v)
  | items {η : String → Slot} {n n' : Note} {es es' : List Expr} (hlen : es.length = es'.length)
      (h : ∀ e e', (e, e') ∈ es.zip es' → Unloads G k (.term η e) e') :
      Unloads G k (.term η (.list n es)) (.list n' es')
  | fields {η : String → Slot} {n n' : Note} {fs fs' : List (String × Expr)}
      (hlabels : fs.map Prod.fst = fs'.map Prod.fst)
      (h : ∀ e e', (e, e') ∈ (fs.map Prod.snd).zip (fs'.map Prod.snd) →
        Unloads G k (.term η e) e') :
      Unloads G k (.term η (.record n fs)) (.record n' fs')

namespace Unloads

variable {G : List String} {k k' : Nat}

theorem mono {l : Load} {e : Expr} (h : Unloads G k l e) (hk : k ≤ k') : Unloads G k' l e := by
  induction h with
  | lit => exact .lit
  | closure _ ih => exact .closure ih
  | prim hr hc => exact .prim hr hc
  | cons n p hne hx hxs ht => exact .cons n p hne (hx.mono hk) (hxs.mono hk) ht
  | consOf n p hxs ht _ ih => exact .consOf n p (hxs.mono hk) ht ih
  | list hlen _ ih => exact .list hlen ih
  | record hlabels _ ih => exact .record hlabels ih
  | slot hx _ ih => exact .slot hx ih
  | param hx => exact .param hx
  | name hx ht => exact .name hx ht
  | junk hx ht => exact .junk hx ht
  | lam hy ht hne _ ih => exact .lam (hy.mono hk) ht hne ih
  | tlam _ ih => exact .tlam ih
  | cond _ _ _ ihc ihy ihz => exact .cond ihc ihy ihz
  | bin _ _ ihl ihr => exact .bin ihl ihr
  | un _ ih => exact .un ih
  | app _ _ ihf iha => exact .app ihf iha
  | tapp _ ih => exact .tapp ih
  | ascribe _ ih => exact .ascribe ih
  | proj _ ih => exact .proj ih
  | val => exact .val
  | items hlen _ ih => exact .items hlen ih
  | fields hlabels _ ih => exact .fields hlabels ih

end Unloads

/-- What substitution makes of the parameter `y` of an enclosing lambda: its fresh name, the value
`v` if it is the variable to replace, or itself. -/
def move (ρ : List (String × String)) (σ : Option (String × Expr)) (v : Val) (y : String) : Slot :=
  match ρ.lookup y with
  | some z => .param z
  | none => if σ.any (·.1 = y) then .value v else .param y

def Slot.under (ρ : List (String × String)) (σ : Option (String × Expr)) (v : Val) : Slot → Slot
  | .param y => move ρ σ v y
  | s => s

/-- The load of the result of a substitution. -/
def Load.under (ρ : List (String × String)) (σ : Option (String × Expr)) (v : Val) : Load → Load
  | .value w => .value w
  | .term η e => .term (fun x => (η x).under ρ σ v) e

/-- All parameters are old at `k`. -/
def Load.Old (k : Nat) : Load → Prop
  | .value _ => True
  | .term η _ => ∀ x y, η x = .param y → OldName k y

/-- Substitution on its way through an expression whose names were old at `k₀`: the renaming has
names that were drawn since, and `v` unloads to the new expression. -/
structure Underway (G : List String) (k₀ k : Nat) (ρ : List (String × String))
    (σ : Option (String × Expr)) (v : Val) : Prop where
  le : k₀ ≤ k
  drawn : ∀ p ∈ ρ, ¬OldName k₀ p.2 ∧ OldName k p.2
  target : ∀ y new, σ = some (y, new) → OldName k₀ y ∧ Unloads G k₀ (.value v) new

/-- No global and no builtin is renamed or replaced. -/
structure Clear (G : List String) (ρ : List (String × String)) (σ : Option (String × Expr)) :
    Prop where
  keys : ∀ p ∈ ρ, ¬Taken G p.1
  target : ∀ y new, σ = some (y, new) → ¬Taken G y

section

variable {G : List String} {k₀ k k' : Nat} {ρ ρ' : List (String × String)}
  {σ σ' : Option (String × Expr)} {v : Val} {x y : String}

theorem Underway.later (h : Underway G k₀ k ρ σ v) (hk : k ≤ k') : Underway G k₀ k' ρ σ v where
  le := h.le.trans hk
  drawn := fun p hp => ⟨(h.drawn p hp).1, (h.drawn p hp).2.mono hk⟩
  target := h.target

/-- Under a lambda, its parameter has the new name, and all other names move as before. -/
theorem Entered.move (h : Expr.Entered x ρ σ k y ρ' σ' k') (v : Val) (w : String) :
    move ρ' σ' v w = if w = x then .param y else move ρ σ v w := by
  have herase (hw : w ≠ x) : (ρ.filter (·.1 ≠ x)).lookup w = ρ.lookup w :=
    Assoc.lookup_erase_of_ne ρ hw
  have hself : (ρ.filter (·.1 ≠ x)).lookup x = none := Assoc.lookup_erase_self x ρ
  cases h with
  | hidden h =>
    by_cases hw : w = x
    · rw [hw, Closure.move, hself, if_pos rfl]
      rfl
    · have hany : σ.any (·.1 = w) = false := by
        rcases h with rfl | ⟨new, rfl⟩
        · rfl
        · simpa using Ne.symm hw
      rw [if_neg hw, Closure.move, Closure.move, herase hw, hany]
      rfl
  | kept z new hσ hz =>
    by_cases hw : w = x
    · have hany : σ.any (·.1 = x) = false := by simpa [hσ] using hz
      rw [hw, Closure.move, hself, if_pos rfl, hany]
      rfl
    · rw [if_neg hw, Closure.move, Closure.move, herase hw]
  | renamed z new hσ hz =>
    by_cases hw : w = x
    · rw [hw, Closure.move, Assoc.lookup_cons_if, if_pos rfl, if_pos rfl]
    · rw [if_neg hw, Closure.move, Closure.move, Assoc.lookup_cons_if, if_neg hw, herase hw]

/-- The name of an entered lambda is not in use around it. -/
theorem Underway.move_ne (hu : Underway G k₀ k ρ σ v) (h : Expr.Entered x ρ σ k y ρ' σ' k')
    (hx : OldName k₀ x) {w : String} (hw : OldName k₀ w) (hwx : w ≠ x) :
    move ρ σ v w ≠ .param y := by
  -- a name that was drawn is no old one, and the next one drawn is no drawn one
  have hy : (OldName k₀ y ∧ y = x) ∨ y = freshName x (k + 1) := by
    cases h with
    | hidden _ | kept z new hσ hz => exact Or.inl ⟨hx, rfl⟩
    | renamed z new hσ hz => exact Or.inr rfl
  unfold move
  intro he
  split at he
  · rename_i z hz
    obtain rfl : z = y := Slot.param.inj he
    have hd := hu.drawn (w, z) (Assoc.mem_of_lookup hz)
    rcases hy with hy | hy
    · exact hd.1 hy.1
    · exact hd.2.ne_freshName x hy
  · split_ifs at he
    obtain rfl : w = y := Slot.param.inj he
    rcases hy with hy | hy
    · exact hwx hy.2
    · exact (hw.mono hu.le).ne_freshName x hy

theorem Underway.enter (hu : Underway G k₀ k ρ σ v) (h : Expr.Entered x ρ σ k y ρ' σ' k') :
    Underway G k₀ k' ρ' σ' v := by
  have hfilter : ∀ p ∈ ρ.filter (·.1 ≠ x), ¬OldName k₀ p.2 ∧ OldName k p.2 :=
    fun p hp => hu.drawn p (List.mem_of_mem_filter hp)
  cases h with
  | hidden _ => exact ⟨hu.le, hfilter, by simp⟩
  | kept z new hσ hz => exact ⟨hu.le, hfilter, hu.target⟩
  | renamed z new hσ hz =>
    refine ⟨hu.le.trans (Nat.le_succ k), ?_, hu.target⟩
    intro p hp
    rcases List.mem_cons.mp hp with rfl | hp
    · exact ⟨not_oldName_freshName x (Nat.lt_succ_of_le hu.le), oldName_freshName x (k + 1)⟩
    · exact ⟨(hfilter p hp).1, (hfilter p hp).2.mono (Nat.le_succ k)⟩

theorem Clear.enter (hc : Clear G ρ σ) (h : Expr.Entered x ρ σ k y ρ' σ' k') (hx : ¬Taken G x) :
    Clear G ρ' σ' := by
  have hfilter : ∀ p ∈ ρ.filter (·.1 ≠ x), ¬Taken G p.1 :=
    fun p hp => hc.keys p (List.mem_of_mem_filter hp)
  cases h with
  | hidden _ => exact ⟨hfilter, by simp⟩
  | kept z new hσ hz => exact ⟨hfilter, hc.target⟩
  | renamed z new hσ hz => exact ⟨List.forall_mem_cons.mpr ⟨hx, hfilter⟩, hc.target⟩

/-- What is put for a variable that is a parameter. -/
theorem Underway.substVar (hu : Underway G k₀ k ρ σ v) (n : Note) (y : String) :
    (∃ z n', move ρ σ v y = .param z ∧ Expr.substVar ρ σ n y = .var n' z) ∨
      ∃ new, move ρ σ v y = .value v ∧ Expr.substVar ρ σ n y = new ∧
        Unloads G k₀ (.value v) new := by
  unfold move Expr.substVar
  cases hl : ρ.lookup y with
  | some z =>
    refine Or.inl ⟨z, .blank, rfl, ?_⟩
    cases σ with
    | none => rfl
    | some s =>
      -- the variable to replace is old, the fresh name is not
      have hz : z ≠ s.1 := fun he =>
        (hu.drawn (y, z) (Assoc.mem_of_lookup hl)).1 (he ▸ (hu.target s.1 s.2 rfl).1)
      exact if_neg hz
  | none =>
    cases σ with
    | none => exact Or.inl ⟨y, n, rfl, rfl⟩
    | some s =>
      by_cases hs : y = s.1
      · refine Or.inr ⟨s.2, ?_, if_pos hs, (hu.target s.1 s.2 rfl).2⟩
        simp [hs]
      · refine Or.inl ⟨y, n, ?_, if_neg hs⟩
        simp [Ne.symm hs]

theorem not_taken_freshName (hG : ∀ g ∈ G, OldName 0 g) (x : String) (k : Nat) :
    ¬Taken G (freshName x (k + 1)) := by
  rintro (hg | hb)
  · exact (hG _ hg |>.mono (Nat.zero_le k)).ne_freshName x rfl
  · obtain ⟨b, hb⟩ := Option.isSome_iff_exists.mp hb
    have hname := Builtin.name_of_ofName? hb
    exact (b.sourceName_name.old k).ne_freshName x hname

theorem Entered.old (h : Expr.Entered x ρ σ k y ρ' σ' k') (hle : k₀ ≤ k) (hx : OldName k₀ x) :
    OldName k' y := by
  cases h with
  | hidden _ | kept z new hσ hz => exact hx.mono hle
  | renamed z new hσ hz => exact oldName_freshName x (k + 1)

/-- The name of an entered lambda is fit for a binder. -/
theorem Entered.binder (h : Expr.Entered x ρ σ k y ρ' σ' k') (hG : ∀ g ∈ G, OldName 0 g)
    (hle : k₀ ≤ k) (hx : OldName k₀ x) (ht : ¬Taken G x) : OldName k' y ∧ ¬Taken G y := by
  refine ⟨Entered.old h hle hx, ?_⟩
  cases h with
  | hidden _ => exact ht
  | kept z new hσ hz => exact ht
  | renamed z new hσ hz => exact not_taken_freshName hG x k

/-- List elements, one after the other. -/
theorem unloads_substItems {α : Type} {as : List α} {es : List Expr} {load : α → Load}
    (hlen : as.length = es.length)
    (h : ∀ a e, (a, e) ∈ as.zip es → ∀ j, k ≤ j →
      Unloads G ((e.substIn ρ σ).run j).2 (load a) ((e.substIn ρ σ).run j).1) :
    as.length = ((Expr.substItems ρ σ es).run k).1.length ∧
      ∀ a e, (a, e) ∈ as.zip ((Expr.substItems ρ σ es).run k).1 →
        Unloads G ((Expr.substItems ρ σ es).run k).2 (load a) e := by
  induction es generalizing as k with
  | nil =>
    obtain rfl : as = [] := List.length_eq_zero_iff.mp hlen
    exact ⟨rfl, by simp⟩
  | cons e es ih =>
    obtain ⟨a, as, rfl⟩ := List.exists_cons_of_length_eq_add_one hlen
    have hk := e.substIn_drawn_le ρ σ k
    have hrest : ∀ k, k ≤ ((Expr.substItems ρ σ es).run k).2 := fun k =>
      Expr.substItems_drawn_le ρ σ (fun e _ k => e.substIn_drawn_le ρ σ k) k
    obtain ⟨hlen', hes⟩ := ih (by simpa using hlen) fun b f hf j hj =>
      h b f (by simp [hf]) j (hk.trans hj)
    rw [Expr.run_substItems_cons]
    refine ⟨by simp [hlen'], fun b f hf => ?_⟩
    rcases List.mem_cons.mp hf with hf | hf
    · obtain ⟨rfl, rfl⟩ := Prod.mk.inj hf
      exact (h b e (by simp) k (le_refl k)).mono (hrest _)
    · exact hes b f hf

/-- Record fields: the labels stay. -/
theorem unloads_substFields {α : Type} {fs : List (String × α)} {gs : List (String × Expr)}
    {load : α → Load} (hlabels : fs.map Prod.fst = gs.map Prod.fst)
    (h : ∀ a e, (a, e) ∈ (fs.map Prod.snd).zip (gs.map Prod.snd) → ∀ j, k ≤ j →
      Unloads G ((e.substIn ρ σ).run j).2 (load a) ((e.substIn ρ σ).run j).1) :
    fs.map Prod.fst = ((Expr.substFields ρ σ gs).run k).1.map Prod.fst ∧
      ∀ a e, (a, e) ∈ (fs.map Prod.snd).zip (((Expr.substFields ρ σ gs).run k).1.map Prod.snd) →
        Unloads G ((Expr.substFields ρ σ gs).run k).2 (load a) e := by
  have hlen : (fs.map Prod.snd).length = (gs.map Prod.snd).length := by
    simpa using congrArg List.length hlabels
  obtain ⟨hlen', hes⟩ := unloads_substItems hlen h
  have hgs : (gs.map Prod.fst).length =
      ((Expr.substItems ρ σ (gs.map Prod.snd)).run k).1.length := by
    simpa using hlen.symm.trans hlen'
  rw [Expr.run_substFields]
  refine ⟨?_, ?_⟩
  · rw [List.map_fst_zip hgs.le, hlabels]
  · rwa [List.map_snd_zip hgs.ge]

theorem Slot.under_nil (s : Slot) (v : Val) : s.under [] none v = s := by
  cases s <;> rfl

theorem Slot.under_slots (env : Env) (ρ : List (String × String)) (σ : Option (String × Expr))
    (v : Val) : (fun x => (env.slots x).under ρ σ v) = env.slots := by
  funext x
  unfold Env.slots
  cases env.lookup x <;> rfl

/-- Slots below a lambda. -/
theorem Entered.update (h : Expr.Entered x ρ σ k y ρ' σ' k') {η : String → Slot} {z : String}
    (hne : ∀ w, w ≠ z → η w ≠ .param x) (v : Val) :
    (fun w => (Function.update η z (.param x) w).under ρ' σ' v) =
      Function.update (fun w => (η w).under ρ σ v) z (.param y) := by
  funext w
  by_cases hw : w = z
  · rw [hw, Function.update_self, Function.update_self, Slot.under, Entered.move h v x,
      if_pos rfl]
  · rw [Function.update_of_ne hw, Function.update_of_ne hw]
    cases hs : η w with
    | free => rfl
    | value u => rfl
    | param u =>
      have hux : u ≠ x := fun he => hne w hw (he ▸ hs)
      rw [Slot.under, Entered.move h v u, if_neg hux, Slot.under]

theorem Load.old_slots (env : Env) (e : Expr) (k : Nat) : (Load.term env.slots e).Old k :=
  fun x y hx => absurd hx (env.slots_ne_param x y)

/-- Below a lambda there is one more parameter, and it is old too. -/
theorem Load.Old.update {η : String → Slot} {e body : Expr} (h : (Load.term η e).Old k)
    (hy : OldName k y) : (Load.term (Function.update η x (.param y)) body).Old k := by
  intro w z hw
  by_cases hwx : w = x
  · rw [hwx, Function.update_self] at hw
    exact Slot.param.inj hw ▸ hy
  · rw [Function.update_of_ne hwx] at hw
    exact h w z hw

/-- Globals and builtins stay. -/
theorem Clear.substVar (hc : Clear G ρ σ) (ht : Taken G x) (n : Note) :
    Expr.substVar ρ σ n x = .var n x := by
  have hl : ρ.lookup x = none := by
    cases hl : ρ.lookup x with
    | none => rfl
    | some z => exact absurd ht (hc.keys (x, z) (Assoc.mem_of_lookup hl))
  unfold Expr.substVar
  rw [hl]
  cases σ with
  | none => rfl
  | some s =>
    have hs : x ≠ s.1 := fun he => hc.target s.1 s.2 rfl (he ▸ ht)
    exact if_neg hs

/-- The variable of an entered lambda. -/
theorem Underway.substVar_of_move (hu : Underway G k₀ k ρ σ v) {z : String}
    (hm : move ρ σ v y = .param z) (n : Note) : ∃ n', Expr.substVar ρ σ n y = .var n' z := by
  rcases hu.substVar n y with ⟨w, n', hw, hvar⟩ | ⟨new, hw, -⟩
  · obtain rfl : w = z := Slot.param.inj (hw.symm.trans hm)
    exact ⟨n', hvar⟩
  · rw [hw] at hm
    cases hm

/-- The function `cons` stays itself, with other names. -/
theorem unloads_consTerm (hG : ∀ g ∈ G, OldName 0 g) (hu : Underway G k₀ k ρ σ v)
    {x xs : String} (n : Fin 6 → Note) (p : Fin 2 → Param) (hne : x ≠ xs) (hx : OldName k₀ x)
    (hxs : OldName k₀ xs) (ht : ¬Taken G xs) :
    Unloads G (((consTerm n p x xs).substIn ρ σ).run k).2 (.value (.prim .cons))
      (((consTerm n p x xs).substIn ρ σ).run k).1 := by
  obtain ⟨x₁, ρ₁, σ₁, k₁, hin₁, hrun₁⟩ := Expr.run_substIn_lam ρ σ k (n 0) x (p 0)
    (.lam (n 1) xs (p 1) (.bin (n 2) .add (.list (n 3) [.var (n 4) x]) (.var (n 5) xs)))
  have hu₁ := hu.enter hin₁
  have hmove₁ : move ρ₁ σ₁ v x = .param x₁ := by rw [Entered.move hin₁ v x, if_pos rfl]
  have hx₁ : OldName k₁ x₁ := Entered.old hin₁ hu.le hx
  obtain ⟨xs₁, ρ₂, σ₂, k₂, hin₂, hrun₂⟩ := Expr.run_substIn_lam ρ₁ σ₁ k₁ (n 1) xs (p 1)
    (.bin (n 2) .add (.list (n 3) [.var (n 4) x]) (.var (n 5) xs))
  have hu₂ := hu₁.enter hin₂
  obtain ⟨hxs₁, ht₁⟩ := Entered.binder hin₂ hG hu₁.le hxs ht
  have hne₁ : x₁ ≠ xs₁ := fun he =>
    hu₁.move_ne hin₂ hxs hx hne (by rw [hmove₁, he])
  have hmove₂ : move ρ₂ σ₂ v x = .param x₁ := by
    rw [Entered.move hin₂ v x, if_neg hne, hmove₁]
  have hmove₃ : move ρ₂ σ₂ v xs = .param xs₁ := by rw [Entered.move hin₂ v xs, if_pos rfl]
  have hk₂ : k₁ ≤ k₂ := by cases hin₂ <;> omega
  rcases hrun₁ with hrun₁ | ⟨-, -, -, hrun₁⟩
  · rw [consTerm, hrun₁]
    rcases hrun₂ with hrun₂ | ⟨rfl, rfl, rfl, hrun₂⟩
    · obtain ⟨n₁, hv₁⟩ := hu₂.substVar_of_move hmove₂ (n 4)
      obtain ⟨n₂, hv₂⟩ := hu₂.substVar_of_move hmove₃ (n 5)
      have hbody : ((Expr.bin (n 2) .add (.list (n 3) [.var (n 4) x]) (.var (n 5) xs)).substIn
          ρ₂ σ₂).run k₂ = (.bin (n 2) .add (.list (n 3) [.var n₁ x₁]) (.var n₂ xs₁), k₂) := by
        rw [← hv₁, ← hv₂]
        rfl
      rw [hrun₂, hbody]
      exact .cons ![.blank, .blank, n 2, n 3, n₁, n₂] ![.erased, .erased] hne₁ (hx₁.mono hk₂)
        hxs₁ ht₁
    · -- below the inner lambda nothing is to be done, so the outer one has kept its name
      obtain rfl : x = x₁ := Slot.param.inj hmove₂
      rw [hrun₂]
      exact .cons ![.blank, n 1, n 2, n 3, n 4, n 5] ![.erased, p 1] hne (hx₁.mono hk₂) hxs₁ ht
  · have hk : k ≤ k₁ := by cases hin₁ <;> omega
    rw [consTerm, hrun₁]
    exact .cons n p hne (hx.mono (hu.le.trans hk)) (hxs.mono (hu.le.trans hk)) ht

/-- Substitution keeps what an expression stands for. -/
theorem Unloads.substIn (hG : ∀ g ∈ G, OldName 0 g) {l : Load} {e : Expr}
    (h : Unloads G k₀ l e) (hold : l.Old k₀) (hu : Underway G k₀ k ρ σ v) (hc : Clear G ρ σ) :
    Unloads G ((e.substIn ρ σ).run k).2 (l.under ρ σ v) ((e.substIn ρ σ).run k).1 := by
  induction h generalizing ρ σ k with
  | lit => exact .lit
  | closure h ih =>
    -- a closure has no open parameters, so its slots stay
    have hslots := ih (Load.old_slots _ _ k₀) hu hc
    rw [Load.under, Slot.under_slots] at hslots
    exact .closure hslots
  | prim hr hb =>
    rename_i b n
    have ht : Taken G b.name := Or.inr (by rw [Builtin.ofName?_name]; rfl)
    rw [Expr.run_substIn_var, hc.substVar ht n]
    exact .prim hr hb
  | cons n p hne hx hxs ht => exact unloads_consTerm hG hu n p hne hx hxs ht
  | consOf n p hxs ht h ih =>
    rename_i w e xs
    obtain ⟨xs₁, ρ₁, σ₁, k₁, hin, hrun⟩ := Expr.run_substIn_lam ρ σ k (n 0) xs p
      (.bin (n 1) .add (.list (n 2) [e]) (.var (n 3) xs))
    have hu₁ := hu.enter hin
    obtain ⟨hxs₁, ht₁⟩ := Entered.binder hin hG hu.le hxs ht
    rcases hrun with hrun | ⟨rfl, -, -, hrun⟩
    · have hmove : move ρ₁ σ₁ v xs = .param xs₁ := by rw [Entered.move hin v xs, if_pos rfl]
      obtain ⟨m, hv⟩ := hu₁.substVar_of_move hmove (n 3)
      have hbody : ((Expr.bin (n 1) .add (.list (n 2) [e]) (.var (n 3) xs)).substIn ρ₁ σ₁).run k₁ =
          (.bin (n 1) .add (.list (n 2) [((e.substIn ρ₁ σ₁).run k₁).1]) (.var m xs₁),
            ((e.substIn ρ₁ σ₁).run k₁).2) := by
        rw [← hv]
        rfl
      rw [consOfTerm, hrun, hbody]
      exact .consOf ![.blank, n 1, n 2, m] .erased (hxs₁.mono (e.substIn_drawn_le ρ₁ σ₁ k₁)) ht₁
        (ih trivial hu₁ (hc.enter hin ht))
    · rw [consOfTerm, hrun]
      exact .consOf n p hxs₁ ht (h.mono hu₁.le)
  | list hlen _ ih =>
    obtain ⟨hlen', hes⟩ := unloads_substItems hlen fun w e hw j hj =>
      ih w e hw trivial (hu.later hj) hc
    exact .list hlen' hes
  | record hlabels _ ih =>
    obtain ⟨hlabels', hes⟩ := unloads_substFields hlabels fun w e hw j hj =>
      ih w e hw trivial (hu.later hj) hc
    exact .record hlabels' hes
  | slot hx _ ih => exact .slot (by rw [hx]; rfl) (ih trivial hu hc)
  | param hx =>
    rename_i η n n' x y
    rw [Expr.run_substIn_var]
    rcases hu.substVar n' y with ⟨z, m, hz, hvar⟩ | ⟨new, hz, hvar, hnew⟩
    · rw [hvar]
      exact .param (by rw [hx]; exact hz)
    · rw [hvar]
      exact .slot (by rw [hx]; exact hz) (hnew.mono hu.le)
  | name hx ht =>
    rename_i η n n' x
    rw [Expr.run_substIn_var, hc.substVar ht n']
    exact .name (by rw [hx]; rfl) ht
  | junk hx ht => exact .junk (by rw [hx]; rfl) ht
  | lam hy ht hne h ih =>
    rename_i η n n' z x p p' body body'
    obtain ⟨y, ρ', σ', k', hin, hrun⟩ := Expr.run_substIn_lam ρ σ k n' x p' body'
    obtain ⟨hyold, hyt⟩ := Entered.binder hin hG hu.le hy ht
    have hu' := hu.enter hin
    have hold' : (Load.term (Function.update η z (.param x)) body).Old k₀ := hold.update hy
    -- no other slot is moved onto the new name
    have hne' : ∀ w, w ≠ z → (η w).under ρ σ v ≠ .param y := by
      intro w hw
      cases hs : η w with
      | free | value u => exact nofun
      | param u => exact hu.move_ne hin hy (hold w u hs) fun he => hne w hw (he ▸ hs)
    have hslots := Entered.update hin hne v
    rcases hrun with hrun | ⟨rfl, rfl, rfl, hrun⟩
    · have hbody := ih hold' hu' (hc.enter hin ht)
      rw [Load.under, hslots] at hbody
      rw [hrun]
      exact .lam (hyold.mono (body'.substIn_drawn_le ρ' σ' k')) hyt hne' hbody
    -- nothing is left to rename or replace, and the body is not entered
    · simp only [Slot.under_nil] at hslots
      rw [hrun]
      refine .lam hyold ht hne' ?_
      rw [← hslots]
      exact h.mono hu'.le
  | tlam _ ih => exact .tlam (ih hold hu hc)
  | cond _ _ _ ihc ihy ihz =>
    rename_i η n n' c c' y y' z z' hc' hy' hz'
    have h₁ := c'.substIn_drawn_le ρ σ k
    have h₂ := y'.substIn_drawn_le ρ σ ((c'.substIn ρ σ).run k).2
    have h₃ := z'.substIn_drawn_le ρ σ ((y'.substIn ρ σ).run ((c'.substIn ρ σ).run k).2).2
    exact .cond ((ihc hold hu hc).mono (h₂.trans h₃)) ((ihy hold (hu.later h₁) hc).mono h₃)
      (ihz hold (hu.later (h₁.trans h₂)) hc)
  | bin _ _ ihl ihr =>
    rename_i η n n' op l l' r r' hl hr
    have h₁ := l'.substIn_drawn_le ρ σ k
    have h₂ := r'.substIn_drawn_le ρ σ ((l'.substIn ρ σ).run k).2
    exact .bin ((ihl hold hu hc).mono h₂) (ihr hold (hu.later h₁) hc)
  | un _ ih => exact .un (ih hold hu hc)
  | app _ _ ihf iha =>
    rename_i η n n' f f' a a' hf ha
    have h₁ := f'.substIn_drawn_le ρ σ k
    have h₂ := a'.substIn_drawn_le ρ σ ((f'.substIn ρ σ).run k).2
    exact .app ((ihf hold hu hc).mono h₂) (iha hold (hu.later h₁) hc)
  | tapp _ ih => exact .tapp (ih hold hu hc)
  | ascribe _ ih => exact .ascribe (ih hold hu hc)
  | proj _ ih => exact .proj (ih hold hu hc)
  | val => exact .val
  | items hlen _ ih =>
    obtain ⟨hlen', hes⟩ := unloads_substItems hlen fun w e hw j hj =>
      ih w e hw hold (hu.later hj) hc
    exact .items hlen' hes
  | fields hlabels _ ih =>
    obtain ⟨hlabels', hes⟩ := unloads_substFields hlabels fun w e hw j hj =>
      ih w e hw hold (hu.later hj) hc
    exact .fields hlabels' hes

/-- The substitution of an argument starts with nothing renamed. -/
theorem Underway.start {a : Expr} (hy : OldName k y) (ha : Unloads G k (.value v) a) :
    Underway G k k [] (some (y, a)) v where
  le := le_refl k
  drawn := by simp
  target := by
    intro z new hz
    obtain ⟨rfl, rfl⟩ := Prod.mk.inj (Option.some.inj hz)
    exact ⟨hy, ha⟩

theorem Clear.start {a : Expr} (ht : ¬Taken G y) : Clear G [] (some (y, a)) where
  keys := by simp
  target := by
    intro z new hz
    obtain ⟨rfl, rfl⟩ := Prod.mk.inj (Option.some.inj hz)
    exact ht

/-- A closure's body with the argument put for the parameter is the body in the environment with
the argument. -/
theorem Unloads.subst (hG : ∀ g ∈ G, OldName 0 g) {env : Env} {body body' a : Expr}
    (hy : OldName k y) (ht : ¬Taken G y)
    (h : Unloads G k (.term (Function.update env.slots x (.param y)) body) body')
    (ha : Unloads G k (.value v) a) :
    Unloads G ((body'.subst y a).run k).2 (.term (Env.slots ((x, v) :: env)) body)
      ((body'.subst y a).run k).1 := by
  have hold : (Load.term (Function.update env.slots x (.param y)) body).Old k :=
    (Load.old_slots env body k).update hy
  -- the parameter becomes the argument, and the slots of the environment stay
  have hslots : (fun w => (Function.update env.slots x (.param y) w).under [] (some (y, a)) v) =
      Env.slots ((x, v) :: env) := by
    rw [Env.slots_cons]
    funext w
    by_cases hwx : w = x
    · rw [hwx, Function.update_self, Function.update_self, Slot.under, move]
      simp
    · rw [Function.update_of_ne hwx, Function.update_of_ne hwx]
      exact congrFun (Slot.under_slots env [] (some (y, a)) v) w
  have hbody := h.substIn hG hold (Underway.start hy ha) (Clear.start ht)
  rw [Load.under, hslots] at hbody
  exact hbody

/-- The first argument of `cons`. -/
theorem unloads_subst_cons {a : Expr} {xs : String} (hG : ∀ g ∈ G, OldName 0 g)
    (n : Fin 6 → Note) (p : Fin 2 → Param) (hne : x ≠ xs) (hx : OldName k x) (hxs : OldName k xs)
    (ht : ¬Taken G xs) (ha : Unloads G k (.value v) a) :
    ∃ n' p' xs' a' k', k ≤ k' ∧
      ((Expr.lam (n 1) xs (p 1)
          (.bin (n 2) .add (.list (n 3) [.var (n 4) x]) (.var (n 5) xs))).subst x a).run k =
        (consOfTerm n' p' a' xs', k') ∧
      Unloads G k' (.value (.consOf v)) (consOfTerm n' p' a' xs') := by
  have hu := Underway.start hx ha
  obtain ⟨xs₁, ρ, σ, k₁, hin, hrun⟩ := Expr.run_substIn_lam [] (some (x, a)) k (n 1) xs (p 1)
    (.bin (n 2) .add (.list (n 3) [.var (n 4) x]) (.var (n 5) xs))
  have hu₁ := hu.enter hin
  obtain ⟨hxs₁, ht₁⟩ := Entered.binder hin hG (le_refl k) hxs ht
  have hmove : move ρ σ v x = .value v := by
    rw [Entered.move hin v x, if_neg hne, move]
    simp
  have hmove' : move ρ σ v xs = .param xs₁ := by rw [Entered.move hin v xs, if_pos rfl]
  rcases hrun with hrun | ⟨-, rfl, rfl, -⟩
  · obtain ⟨m, hv⟩ := hu₁.substVar_of_move hmove' (n 5)
    rcases hu₁.substVar (n 4) x with ⟨z, m', hz, -⟩ | ⟨new, -, hnew, hunl⟩
    · rw [hmove] at hz
      cases hz
    · refine ⟨![.blank, n 2, n 3, m], .erased, xs₁, new, k₁, hu₁.le, ?_, ?_⟩
      · rw [Expr.subst, hrun]
        have hbody : ((Expr.bin (n 2) .add (.list (n 3) [.var (n 4) x]) (.var (n 5) xs)).substIn
            ρ σ).run k₁ = (.bin (n 2) .add (.list (n 3) [new]) (.var m xs₁), k₁) := by
          rw [← hnew, ← hv]
          rfl
        rw [hbody]
        rfl
      · exact .consOf _ _ hxs₁ ht₁ (hunl.mono hu₁.le)
  · -- the variable to replace is not the inner parameter, so the lambda is entered
    cases hmove

/-- The second argument of `cons`. -/
theorem unloads_subst_consOf {e a : Expr} {w : Val} {xs : String} (hG : ∀ g ∈ G, OldName 0 g)
    (n : Fin 4 → Note) (hxs : OldName k xs) (ht : ¬Taken G xs) (he : Unloads G k (.value w) e)
    (ha : Unloads G k (.value v) a) :
    ∃ e' k', k ≤ k' ∧ Unloads G k' (.value w) e' ∧
      ((Expr.bin (n 1) .add (.list (n 2) [e]) (.var (n 3) xs)).subst xs a).run k =
        (.bin (n 1) .add (.list (n 2) [e']) a, k') := by
  refine ⟨_, _, e.substIn_drawn_le [] (some (xs, a)) k,
    he.substIn hG trivial (Underway.start hxs ha) (Clear.start ht), ?_⟩
  have hvar : Expr.substVar [] (some (xs, a)) (n 3) xs = a := if_pos rfl
  have hrun : ((Expr.bin (n 1) .add (.list (n 2) [e]) (.var (n 3) xs)).subst xs a).run k =
      (.bin (n 1) .add (.list (n 2) [((e.substIn [] (some (xs, a))).run k).1])
          (Expr.substVar [] (some (xs, a)) (n 3) xs),
        ((e.substIn [] (some (xs, a))).run k).2) := rfl
  rw [hrun, hvar]

end

end Closure

end TraitCalculus
