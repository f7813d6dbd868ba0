import Mathlib
import TraitCalculus.Proofs.Simulation
import TraitCalculus.Proofs.TypeScope

/-! Lexical scoping. If the names of a program do not clash, the evaluator by substitution runs it
as the evaluator with closures does: it prints the same, reads the same lines and finds the same
ground values. All that it does on its own is to log results, which fails on integers that are too
long to be written. -/
namespace TraitCalculus

namespace Expr

mutual

/-- The ground value that an expression is. -/
def ground? : Expr → Option Closure.Val
  | val _ v => some (.lit v)
  | list _ es => (groundItems? es).map .list
  | record _ fs => (groundFields? fs).map .record
  | _ => none

def groundItems? : List Expr → Option (List Closure.Val)
  | [] => some []
  | e :: es =>
    match e.ground?, groundItems? es with
    | some v, some vs => some (v :: vs)
    | _, _ => none

def groundFields? : List (String × Expr) → Option (List (String × Closure.Val))
  | [] => some []
  | (label, e) :: fs =>
    match e.ground?, groundFields? fs with
    | some v, some vs => some ((label, v) :: vs)
    | _, _ => none

end

end Expr

theorem Eval.run_bind_eq_ok {α β : Type} {x : Eval α} {f : α → Eval β} {m m' : Machine} {b : β}
    (h : (x >>= f).run m = .ok b m') :
    ∃ a m₁, x.run m = .ok a m₁ ∧ (f a).run m₁ = .ok b m' := by
  rw [EStateM.run_bind] at h
  cases hx : x.run m with
  | ok a m₁ =>
    rw [hx] at h
    exact ⟨a, m₁, rfl, h⟩
  | error e m₁ =>
    rw [hx] at h
    cases h

namespace Stmt

section Run

variable {fuel line : Nat} {x text : String} {e v : Expr} {m m' : Machine}

theorem logLine_ok {s : Stmt} (h : (s.logLine v).run m = .ok text m') : m' = m := by
  unfold logLine at h
  split_ifs at h
  · exact (EStateM.Result.ok.inj h).2.symm
  · cases h

theorem run_assign_ok (h : ((assign line x e).run fuel).run m = .ok text m') :
    ∃ v m₁, (e.eval line fuel).run m = .ok v m₁ ∧
      m' = { m₁ with globals := Assoc.insert x v m₁.globals } := by
  obtain ⟨v, m₁, hv, h⟩ := Eval.run_bind_eq_ok h
  obtain ⟨_, m₂, hset, hlog⟩ := Eval.run_bind_eq_ok h
  obtain ⟨-, rfl⟩ := EStateM.Result.ok.inj hset
  exact ⟨v, m₁, hv, logLine_ok hlog⟩

theorem run_eval_ok (h : ((eval line e).run fuel).run m = .ok text m') :
    ∃ v, (e.eval line fuel).run m = .ok v m' := by
  obtain ⟨v, m₁, hv, hlog⟩ := Eval.run_bind_eq_ok h
  exact ⟨v, logLine_ok hlog ▸ hv⟩

end Run

/-- The name that a statement assigns. -/
def assigned? : Stmt → Option String
  | assign _ x _ => some x
  | _ => none

/-- The globals of a program. -/
def globals (ss : List Stmt) : List String := ss.filterMap assigned?

/-- The names of parameters, globals and builtins do not clash, nor does the name that `cons` puts
around its first argument; and none of them is one that is drawn later. -/
structure NoClash (ss : List Stmt) : Prop where
  params : ∀ s ∈ ss, ∀ x ∈ s.lamNames, ¬Closure.Taken (globals ss) x ∧ OldName 0 x
  builtins : ∀ x ∈ globals ss, Builtin.ofName? x = none ∧ OldName 0 x
  generated : "__xs" ∉ globals ss

/-- What a statement evaluates to, before that is logged. -/
def result (fuel : Nat) : Stmt → Eval (Option Expr)
  | assign line x e => do
    let v ← e.eval line fuel
    modify fun m => { m with globals := Assoc.insert x v m.globals }
    return some v
  | eval line e => return some (← e.eval line fuel)
  | _ => return none

end Stmt

namespace Closure

variable {G : List String} {k : Nat}

theorem mem_zip_self {α : Type} {as : List α} {a b : α} (h : (a, b) ∈ as.zip as) :
    a ∈ as ∧ a = b := by
  rw [List.zip_eq_zipWith, List.zipWith_self] at h
  obtain ⟨c, hc, he⟩ := List.mem_map.mp h
  obtain ⟨rfl, rfl⟩ := Prod.mk.inj he
  exact ⟨hc, rfl⟩

/-- An expression of the program stands for itself. -/
theorem unloads_self {η : String → Slot} {e : Expr} (hη : ∀ x, η x = .free ∨ η x = .param x)
    (h : ∀ x ∈ e.lamNames, ¬Taken G x ∧ OldName k x) : Unloads G k (.term η e) e := by
  induction e using Expr.induction generalizing η with
  | lam n x p body ih =>
    obtain ⟨hx, hbody⟩ := List.forall_mem_cons.mp h
    refine .lam hx.2 hx.1 (fun z hz he => ?_) (ih (fun z => ?_) hbody)
    · rcases hη z with hz' | hz'
      · rw [hz'] at he
        cases he
      · rw [hz'] at he
        exact hz (Slot.param.inj he)
    · by_cases hz : z = x
      · exact Or.inr (by rw [hz, Function.update_self])
      · rw [Function.update_of_ne hz]
        exact hη z
  | tlam n x bounds body ih => exact .tlam (ih hη h)
  | cond n c y z ihc ihy ihz =>
    obtain ⟨hc, hyz⟩ := List.forall_mem_append.mp h
    obtain ⟨hy, hz⟩ := List.forall_mem_append.mp hyz
    exact .cond (ihc hη hc) (ihy hη hy) (ihz hη hz)
  | bin n op l r ihl ihr =>
    obtain ⟨hl, hr⟩ := List.forall_mem_append.mp h
    exact .bin (ihl hη hl) (ihr hη hr)
  | un n op e ih => exact .un (ih hη h)
  | app n f a ihf iha =>
    obtain ⟨hf, ha⟩ := List.forall_mem_append.mp h
    exact .app (ihf hη hf) (iha hη ha)
  | tapp n f t ih => exact .tapp (ih hη h)
  | ascribe n e t ih => exact .ascribe (ih hη h)
  | proj n e label ih => exact .proj (ih hη h)
  | var n x =>
    rcases hη x with hx | hx
    -- a name that is bound nowhere may stand for anything, itself included
    · by_cases ht : Taken G x
      · exact .name hx ht
      · exact .junk hx ht
    · exact .param hx
  | val n v => exact .val
  | list n es ih =>
    refine .items rfl fun e e' he => ?_
    obtain ⟨hmem, rfl⟩ := mem_zip_self he
    exact ih e hmem hη fun x hx => h x (Expr.mem_lamNamesItems.mpr ⟨e, hmem, hx⟩)
  | record n fs ih =>
    refine .fields rfl fun e e' he => ?_
    obtain ⟨hmem, rfl⟩ := mem_zip_self he
    obtain ⟨f, hf, rfl⟩ := List.mem_map.mp hmem
    exact ih f hf hη fun x hx => h x (Expr.mem_lamNamesFields.mpr ⟨f, hf, hx⟩)

theorem Store.Shows.insert {σ : Store} {m : Machine} (h : σ.Shows G m) {x : String} (hx : x ∈ G)
    {v : Val} {e : Expr} (hv : Shown G m.drawn v e) :
    Store.Shows G { σ with globals := Assoc.insert x v σ.globals }
      { m with globals := Assoc.insert x e m.globals } where
  globals := by
    intro y
    by_cases hy : y = x
    · rw [hy, Assoc.lookup_insert_self, Assoc.lookup_insert_self]
      exact .some hv
    · rw [Assoc.lookup_insert_of_ne _ _ hy, Assoc.lookup_insert_of_ne _ _ hy]
      exact h.globals y
  known := by
    intro y w hy
    by_cases hyx : y = x
    · exact hyx ▸ hx
    · rw [Assoc.lookup_insert_of_ne _ _ hyx] at hy
      exact h.known y w hy
  input := h.input
  output := h.output

/-- The expression of a statement. -/
theorem simulates_expr {ss : List Stmt} (hn : Stmt.NoClash ss) {s : Stmt} (hs : s ∈ ss) {e : Expr}
    (he : ∀ x ∈ e.lamNames, x ∈ s.lamNames) (line fuel : Nat) :
    Simulates (Stmt.globals ss) 0 (Shown (Stmt.globals ss)) (eval line fuel [] e)
      fun n => e.eval line n := by
  have hG : ∀ g ∈ Stmt.globals ss, OldName 0 g := fun g hg => (hn.builtins g hg).2
  have hB : ∀ g ∈ Stmt.globals ss, Builtin.ofName? g = none := fun g hg => (hn.builtins g hg).1
  have hxs : ¬Taken (Stmt.globals ss) "__xs" := by
    rintro (hg | hb)
    · exact hn.generated hg
    · revert hb
      decide
  exact simulates_eval hG hB hxs fuel (unloads_self (fun _ => Or.inl rfl) fun x hx =>
    hn.params s hs x (he x hx))

/-- Both sides start without globals. -/
theorem Store.shows_start (G : List String) (input : List String) :
    Store.Shows G { input := input } { input := input } where
  globals := fun _ => .none
  known := nofun
  input := rfl
  output := rfl

end Closure

namespace Stmt

/-- Names of a program text that are kept apart do not clash. -/
theorem NoClash.of_source {ss : List Stmt}
    (hp : ∀ s ∈ ss, ∀ x ∈ s.lamNames,
      x ∉ globals ss ∧ Builtin.ofName? x = none ∧ SourceName x)
    (hg : ∀ x ∈ globals ss, Builtin.ofName? x = none ∧ SourceName x)
    (hxs : "__xs" ∉ globals ss) : NoClash ss where
  params := by
    intro s hs x hx
    obtain ⟨hglobal, hbuiltin, hsource⟩ := hp s hs x hx
    refine ⟨?_, hsource.old 0⟩
    rintro (h | h)
    · exact hglobal h
    · rw [hbuiltin] at h
      cases h
  builtins := fun x hx => ⟨(hg x hx).1, (hg x hx).2.old 0⟩
  generated := hxs

end Stmt

end TraitCalculus
