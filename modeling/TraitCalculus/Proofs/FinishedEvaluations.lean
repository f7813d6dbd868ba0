import Mathlib
import TraitCalculus.Proofs.LexicalScope
import TraitCalculus.Proofs.TermSubstitution

/-! What a finished evaluation has done, form by form, and what it leaves: an expression whose
shape does not change when it is evaluated again. What could not be reduced is not reduced a second
time either. -/
namespace TraitCalculus

namespace Shape

/-- The literal that a shape is. -/
def lit? : Shape → Option Value
  | node (.val v) _ => some v
  | _ => none

def truth? (s : Shape) : Option Bool :=
  match s.lit? with
  | some (.bool b) => some b
  | _ => none

def isList : Shape → Bool
  | node .list _ => true
  | _ => false

def isRecord : Shape → Bool
  | node (.record _) _ => true
  | _ => false

/-- Lambdas and the names of builtins. -/
def isFunction : Shape → Bool
  | node .lam _ => true
  | free x => (Builtin.ofName? x).isSome
  | _ => false

/-- The first operand decides, and the second is not evaluated. -/
def decides : BinOp → Shape → Bool
  | .or, s => s.truth? = some true
  | .and, s => s.truth? = some false
  | _, _ => false

/-- A logical operator does nothing with evaluated operands, where `b` as an operand decides. -/
def stuckAt (b : Bool) (l r : Shape) : Bool :=
  r.truth? ≠ some b ∧ ¬(l.truth? = some !b ∧ r.truth? = some !b)

/-- The operator does nothing with evaluated operands. -/
def stuck : BinOp → Shape → Shape → Bool
  | .or, l, r => stuckAt true l r
  | .and, l, r => stuckAt false l r
  | op, l, r =>
    (l.lit? = none ∨ r.lit? = none) ∧ ¬(l.isList = true ∧ r.isList = true ∧ op.level = 6)

def stuckUn : UnOp → Shape → Bool
  | .not, s => s.truth? = none
  | .neg, s => s.lit? = none

/-- The shapes that evaluation leaves: values, and what none of its rules reduces. -/
inductive Reduced : Shape → Prop
  | lam {parts : List Shape} : Reduced (node .lam parts)
  | val {v : Value} {parts : List Shape} : Reduced (node (.val v) parts)
  | builtin {x : String} {b : Builtin} (hx : Builtin.ofName? x = some b) (hread : b ≠ .read)
      (hcons : b ≠ .cons) : Reduced (free x)
  | list {parts : List Shape} (h : ∀ s ∈ parts, Reduced s) : Reduced (node .list parts)
  | record {labels : List String} {parts : List Shape} (h : ∀ s ∈ parts, Reduced s) :
      Reduced (node (.record labels) parts)
  | cond {c y z : Shape} (hc : Reduced c) (hy : Reduced y) (hz : Reduced z)
      (hnone : c.truth? = none) : Reduced (node .cond [c, y, z])
  | bin {op : BinOp} {l r : Shape} (hl : Reduced l) (hr : Reduced r) (hd : decides op l = false)
      (hstuck : stuck op l r = true) : Reduced (node (.bin op) [l, r])
  | un {op : UnOp} {s : Shape} (hs : Reduced s) (hstuck : stuckUn op s = true) :
      Reduced (node (.un op) [s])
  | app {f a : Shape} (hf : Reduced f) (ha : Reduced a) (hstuck : f.isFunction = false) :
      Reduced (node .app [f, a])
  | proj {s : Shape} {label : String} (hs : Reduced s) (hstuck : s.isRecord = false) :
      Reduced (node (.proj label) [s])

end Shape

namespace Expr

section Heads

variable {e : Expr}

theorem lit?_shape_iff {v : Value} : (e.shape []).lit? = some v ↔ ∃ n, e = val n v := by
  cases e with
  | val n w => simp [shape, Shape.lit?]
  | _ => simp [shape, Shape.lit?]

theorem truth?_shape_iff {b : Bool} :
    (e.shape []).truth? = some b ↔ ∃ n, e = val n (.bool b) := by
  cases e with
  | val n w => cases w <;> simp [shape, Shape.truth?, Shape.lit?]
  | _ => simp [shape, Shape.truth?, Shape.lit?]

theorem isList_shape_iff : (e.shape []).isList = true ↔ ∃ n es, e = list n es := by
  cases e <;> simp [shape, Shape.isList]

end Heads

/-- An operator on evaluated operands, the first of which does not decide. -/
def join (n : Note) : BinOp → Expr → Expr → Eval Expr
  | .or, l, r =>
    match l, r with
    | _, val m (.bool true) => return val m (.bool true)
    | val m (.bool false), val _ (.bool false) => return val m (.bool false)
    | l, r => return bin n .or l r
  | .and, l, r =>
    match l, r with
    | _, val m (.bool false) => return val m (.bool false)
    | val m (.bool true), val _ (.bool true) => return val m (.bool true)
    | l, r => return bin n .and l r
  | op, l, r => evalBin n op l r

/-- An operator on its evaluated operand. -/
def negate (n : Note) : UnOp → Expr → Eval Expr
  | .not, e =>
    match e with
    | val _ (.bool b) => return val .blank (.bool !b)
    | e => return un n .not e
  | .neg, e =>
    match e with
    | val _ v => return val .blank (← Eval.ofOperand v.neg)
    | e => return un n .neg e

section Equations

variable (line fuel : Nat) (n : Note)

theorem eval_cond (c y z : Expr) : (cond n c y z).eval line (fuel + 1) =
    c.eval line fuel >>= fun c => match (c.shape []).truth? with
      | some true => y.eval line fuel
      | some false => z.eval line fuel
      | none => y.eval line fuel >>= fun y => z.eval line fuel >>= fun z =>
        pure (cond n c y z) := by
  rw [eval]
  congr 1
  funext c
  cases c with
  | val m v =>
    cases v with
    | bool b => cases b <;> rfl
    | _ => rfl
  | _ => rfl

theorem eval_bin (op : BinOp) (l r : Expr) : (bin n op l r).eval line (fuel + 1) =
    l.eval line fuel >>= fun l => if Shape.decides op (l.shape []) then pure l
      else r.eval line fuel >>= fun r => join n op l r := by
  cases op with
  | or | and =>
    rw [eval]
    congr 1
    funext l
    cases l with
    | val m v =>
      cases v with
      | bool b => cases b <;> rfl
      | _ => rfl
    | _ => rfl
  | _ => rfl

theorem eval_un (op : UnOp) (e : Expr) : (un n op e).eval line (fuel + 1) =
    e.eval line fuel >>= fun e => negate n op e := by
  cases op with
  | not | neg =>
    rw [eval]
    rfl

theorem eval_proj (e : Expr) (label : String) : (proj n e label).eval line (fuel + 1) =
    e.eval line fuel >>= fun e => match e with
      | record _ fs => match fs.lookup label with
        | some e => e.eval line fuel
        | none => throw (.noField label)
      | e => pure (proj n e label) :=
  rfl

end Equations

/-- Expressions that were evaluated one after the other. -/
inductive RanItems (line fuel : Nat) : List Expr → Machine → List Expr → Machine → Prop
  | nil {m : Machine} : RanItems line fuel [] m [] m
  | cons {e v : Expr} {es vs : List Expr} {m m₁ m' : Machine}
      (he : (e.eval line fuel).run m = .ok v m₁) (hes : RanItems line fuel es m₁ vs m') :
      RanItems line fuel (e :: es) m (v :: vs) m'

theorem ranItems_of_mapM {line fuel : Nat} {es vs : List Expr} {m m' : Machine}
    (h : (es.mapM (eval line fuel)).run m = .ok vs m') : RanItems line fuel es m vs m' := by
  induction es generalizing m vs with
  | nil =>
    obtain ⟨rfl, rfl⟩ := EStateM.Result.ok.inj h
    exact .nil
  | cons e es ih =>
    rw [List.mapM_cons] at h
    obtain ⟨v, m₁, he, h⟩ := Eval.run_bind_eq_ok h
    obtain ⟨rest, m₂, hes, h⟩ := Eval.run_bind_eq_ok h
    obtain ⟨rfl, rfl⟩ := EStateM.Result.ok.inj h
    exact .cons he (ih hes)

/-- What an evaluation that is finished has done at an expression, with `fuel` left for the
parts. -/
inductive Ran (line fuel : Nat) : Expr → Machine → Expr → Machine → Prop
  | lam {n : Note} {x : String} {p : Param} {body : Expr} {m : Machine} :
      Ran line fuel (lam n x p body) m (lam n x .erased body) m
  | tlam {n : Note} {x : String} {bounds : List String} {body v : Expr} {m m' : Machine}
      (h : (body.eval line fuel).run m = .ok v m') : Ran line fuel (tlam n x bounds body) m v m'
  | yes {n : Note} {c y z c' v : Expr} {m m₁ m' : Machine}
      (hc : (c.eval line fuel).run m = .ok c' m₁) (htrue : (c'.shape []).truth? = some true)
      (hy : (y.eval line fuel).run m₁ = .ok v m') : Ran line fuel (cond n c y z) m v m'
  | no {n : Note} {c y z c' v : Expr} {m m₁ m' : Machine}
      (hc : (c.eval line fuel).run m = .ok c' m₁) (hfalse : (c'.shape []).truth? = some false)
      (hz : (z.eval line fuel).run m₁ = .ok v m') : Ran line fuel (cond n c y z) m v m'
  | cond {n : Note} {c y z c' y' z' : Expr} {m m₁ m₂ m' : Machine}
      (hc : (c.eval line fuel).run m = .ok c' m₁) (hnone : (c'.shape []).truth? = none)
      (hy : (y.eval line fuel).run m₁ = .ok y' m₂) (hz : (z.eval line fuel).run m₂ = .ok z' m') :
      Ran line fuel (cond n c y z) m (cond n c' y' z') m'
  | short {n : Note} {op : BinOp} {l r l' : Expr} {m m' : Machine}
      (hl : (l.eval line fuel).run m = .ok l' m') (hd : Shape.decides op (l'.shape []) = true) :
      Ran line fuel (bin n op l r) m l' m'
  | bin {n : Note} {op : BinOp} {l r l' r' v : Expr} {m m₁ m₂ m' : Machine}
      (hl : (l.eval line fuel).run m = .ok l' m₁) (hd : Shape.decides op (l'.shape []) = false)
      (hr : (r.eval line fuel).run m₁ = .ok r' m₂) (hv : (join n op l' r').run m₂ = .ok v m') :
      Ran line fuel (bin n op l r) m v m'
  | un {n : Note} {op : UnOp} {e e' v : Expr} {m m₁ m' : Machine}
      (he : (e.eval line fuel).run m = .ok e' m₁) (hv : (negate n op e').run m₁ = .ok v m') :
      Ran line fuel (un n op e) m v m'
  | call {n n' : Note} {f a body v w : Expr} {x : String} {p : Param} {m m₁ m₂ m' : Machine}
      (hf : (f.eval line fuel).run m = .ok (.lam n' x p body) m₁)
      (ha : (a.eval line fuel).run m₁ = .ok w m₂)
      (hb : (((body.subst x w).run m₂.drawn).1.eval line fuel).run
        { m₂ with drawn := ((body.subst x w).run m₂.drawn).2 } = .ok v m') :
      Ran line fuel (app n f a) m v m'
  | builtin {n n' : Note} {f a v w : Expr} {x : String} {b : Builtin} {m m₁ m₂ m' : Machine}
      (hf : (f.eval line fuel).run m = .ok (.var n' x) m₁) (hx : Builtin.ofName? x = some b)
      (ha : (a.eval line fuel).run m₁ = .ok w m₂)
      (hb : (evalBuiltin line n (.var n' x) w b).run m₂ = .ok v m') :
      Ran line fuel (app n f a) m v m'
  | app {n : Note} {f a f' a' : Expr} {m m₁ m' : Machine}
      (hf : (f.eval line fuel).run m = .ok f' m₁) (ha : (a.eval line fuel).run m₁ = .ok a' m')
      (hstuck : (f'.shape []).isFunction = false) :
      Ran line fuel (app n f a) m (app n f' a') m'
  | tapp {n : Note} {f v : Expr} {t : Ty} {m m' : Machine}
      (h : (f.eval line fuel).run m = .ok v m') : Ran line fuel (tapp n f t) m v m'
  | ascribe {n : Note} {e v : Expr} {t : Ty} {m m' : Machine}
      (h : (e.eval line fuel).run m = .ok v m') : Ran line fuel (ascribe n e t) m v m'
  | field {n n' : Note} {e e' v : Expr} {label : String} {fs : List (String × Expr)}
      {m m₁ m' : Machine} (he : (e.eval line fuel).run m = .ok (record n' fs) m₁)
      (hfield : fs.lookup label = some e') (hv : (e'.eval line fuel).run m₁ = .ok v m') :
      Ran line fuel (proj n e label) m v m'
  | proj {n : Note} {e e' : Expr} {label : String} {m m' : Machine}
      (he : (e.eval line fuel).run m = .ok e' m') (hstuck : (e'.shape []).isRecord = false) :
      Ran line fuel (proj n e label) m (proj n e' label) m'
  | global {n : Note} {x : String} {v : Expr} {m : Machine} (h : m.globals.lookup x = some v) :
      Ran line fuel (var n x) m v m
  | name {n : Note} {x : String} {v : Expr} {m m' : Machine} (hnone : m.globals.lookup x = none)
      (h : (evalName line n x).run m = .ok v m') : Ran line fuel (var n x) m v m'
  | val {n : Note} {v : Value} {m : Machine} : Ran line fuel (val n v) m (val n v) m
  | list {n : Note} {es vs : List Expr} {m m' : Machine}
      (h : RanItems line fuel es m vs m') : Ran line fuel (list n es) m (list n vs) m'
  | record {n : Note} {fs : List (String × Expr)} {vs : List Expr} {m m' : Machine}
      (h : RanItems line fuel (fs.map Prod.snd) m vs m') :
      Ran line fuel (record n fs) m (record n ((fs.map Prod.fst).zip vs)) m'

theorem ran_of_eval {line fuel : Nat} {e v : Expr} {m m' : Machine}
    (h : (e.eval line (fuel + 1)).run m = .ok v m') : Ran line fuel e m v m' := by
  cases e with
  | lam n x p body =>
    obtain ⟨rfl, rfl⟩ := EStateM.Result.ok.inj h
    exact .lam
  | tlam n x bounds body => exact .tlam h
  | cond n c y z =>
    rw [eval_cond] at h
    obtain ⟨c', m₁, hc, h⟩ := Eval.run_bind_eq_ok h
    split at h
    · rename_i htruth
      exact .yes hc htruth h
    · rename_i htruth
      exact .no hc htruth h
    · rename_i htruth
      obtain ⟨y', m₂, hy, h⟩ := Eval.run_bind_eq_ok h
      obtain ⟨z', m₃, hz, h⟩ := Eval.run_bind_eq_ok h
      obtain ⟨rfl, rfl⟩ := EStateM.Result.ok.inj h
      exact .cond hc htruth hy hz
  | bin n op l r =>
    rw [eval_bin] at h
    obtain ⟨l', m₁, hl, h⟩ := Eval.run_bind_eq_ok h
    split_ifs at h with hd
    · obtain ⟨rfl, rfl⟩ := EStateM.Result.ok.inj h
      exact .short hl hd
    · obtain ⟨r', m₂, hr, h⟩ := Eval.run_bind_eq_ok h
      exact .bin hl (by simpa using hd) hr h
  | un n op e =>
    rw [eval_un] at h
    obtain ⟨e', m₁, he, h⟩ := Eval.run_bind_eq_ok h
    exact .un he h
  | app n f a =>
    rw [eval_app] at h
    obtain ⟨f', m₁, hf, h⟩ := Eval.run_bind_eq_ok h
    obtain ⟨a', m₂, ha, h⟩ := Eval.run_bind_eq_ok h
    cases f' with
    | lam n' x p body =>
      obtain ⟨b, m₃, hb, h⟩ := Eval.run_bind_eq_ok h
      obtain ⟨rfl, rfl⟩ := EStateM.Result.ok.inj hb
      exact .call hf ha h
    | var n' x =>
      cases hx : Builtin.ofName? x with
      | some b =>
        simp only [evalApplied, hx] at h
        exact .builtin hf hx ha h
      | none =>
        simp only [evalApplied, hx] at h
        obtain ⟨rfl, rfl⟩ := EStateM.Result.ok.inj h
        exact .app hf ha (by simp [shape, Shape.isFunction, hx])
    | _ =>
      obtain ⟨rfl, rfl⟩ := EStateM.Result.ok.inj h
      exact .app hf ha rfl
  | tapp n f t => exact .tapp h
  | ascribe n e t => exact .ascribe h
  | proj n e label =>
    rw [eval_proj] at h
    obtain ⟨e', m₁, he, h⟩ := Eval.run_bind_eq_ok h
    cases e' with
    | record n' fs =>
      simp only at h
      split at h
      · rename_i e₁ hfield
        exact .field he hfield h
      · cases h
    | _ =>
      obtain ⟨rfl, rfl⟩ := EStateM.Result.ok.inj h
      exact .proj he rfl
  | var n x =>
    have hvar : (evalVar line n x).run m = .ok v m' := h
    rw [run_evalVar] at hvar
    split at hvar
    · rename_i u hu
      obtain ⟨rfl, rfl⟩ := EStateM.Result.ok.inj hvar
      exact .global hu
    · rename_i hnone
      exact .name hnone hvar
  | val n v =>
    obtain ⟨rfl, rfl⟩ := EStateM.Result.ok.inj h
    exact .val
  | list n es =>
    obtain ⟨vs, m₁, hvs, h⟩ := Eval.run_bind_eq_ok h
    obtain ⟨rfl, rfl⟩ := EStateM.Result.ok.inj h
    exact .list (ranItems_of_mapM hvs)
  | record n fs =>
    rw [eval_record] at h
    obtain ⟨vs, m₁, hvs, h⟩ := Eval.run_bind_eq_ok h
    obtain ⟨rfl, rfl⟩ := EStateM.Result.ok.inj h
    exact .record (ranItems_of_mapM hvs)

section Outcomes

variable {n : Note} {m m' : Machine}

theorem run_ofOperand_ok {α : Type} {x : Except OperandError α} {a : α}
    (h : (Eval.ofOperand x).run m = .ok a m') : m' = m := by
  cases x with
  | ok b => exact (EStateM.Result.ok.inj h).2.symm
  | error e => cases h

theorem run_ofNumber_ok {α : Type} {x : Except Text.NumberError α} {a : α}
    (h : (Eval.ofNumber x).run m = .ok a m') : m' = m := by
  cases x with
  | ok b => exact (EStateM.Result.ok.inj h).2.symm
  | error e => cases h

/-- How an operator on evaluated operands ends: it is stuck, gives a literal or joins lists. -/
inductive Joined (n : Note) (op : BinOp) (l r : Expr) : Expr → Prop
  | stuck (h : Shape.stuck op (l.shape []) (r.shape []) = true) : Joined n op l r (bin n op l r)
  | lit {k : Note} {w : Value} (h : Shape.stuck op (l.shape []) (r.shape []) = false)
      (hadd : op = .add → ∃ j u, l = val j u) : Joined n op l r (val k w)
  | lists {j k : Note} {es fs : List Expr} (hl : l = list j es) (hr : r = list k fs)
      (h : Shape.stuck op (l.shape []) (r.shape []) = false) (hop : op.level = 6) :
      Joined n op l r (list ⟨n.line, none⟩ (es ++ fs))

theorem joined_of_evalBin {op : BinOp} {l r v : Expr} (hor : op ≠ .or) (hand : op ≠ .and)
    (h : (evalBin n op l r).run m = .ok v m') : m' = m ∧ Joined n op l r v := by
  have hstuck : Shape.stuck op (l.shape []) (r.shape []) =
      decide (((l.shape []).lit? = none ∨ (r.shape []).lit? = none) ∧
        ¬((l.shape []).isList = true ∧ (r.shape []).isList = true ∧ op.level = 6)) := by
    cases op with
    | or => exact absurd rfl hor
    | and => exact absurd rfl hand
    | _ => rfl
  unfold evalBin at h
  split at h
  · obtain ⟨w, m₁, hw, h⟩ := Eval.run_bind_eq_ok h
    obtain ⟨rfl, rfl⟩ := EStateM.Result.ok.inj h
    refine ⟨run_ofOperand_ok hw, .lit ?_ fun _ => ⟨_, _, rfl⟩⟩
    rw [hstuck]
    simp [shape, Shape.lit?]
  · split_ifs at h with hop
    · obtain ⟨rfl, rfl⟩ := EStateM.Result.ok.inj h
      refine ⟨rfl, .lists rfl rfl ?_ hop⟩
      rw [hstuck]
      simp [shape, Shape.lit?, Shape.isList, hop]
    · obtain ⟨rfl, rfl⟩ := EStateM.Result.ok.inj h
      refine ⟨rfl, .stuck ?_⟩
      rw [hstuck]
      simp [shape, Shape.lit?, hop]
  · rename_i hlits hlists
    obtain ⟨rfl, rfl⟩ := EStateM.Result.ok.inj h
    refine ⟨rfl, .stuck ?_⟩
    rw [hstuck, decide_eq_true_eq]
    constructor
    · by_contra hsome
      obtain ⟨hl, hr⟩ := not_or.mp hsome
      obtain ⟨a, ha⟩ := Option.ne_none_iff_exists'.mp hl
      obtain ⟨b, hb⟩ := Option.ne_none_iff_exists'.mp hr
      obtain ⟨n₁, rfl⟩ := lit?_shape_iff.mp ha
      obtain ⟨n₂, rfl⟩ := lit?_shape_iff.mp hb
      exact hlits _ _ _ _ rfl rfl
    · rintro ⟨hl, hr, -⟩
      obtain ⟨n₁, es, rfl⟩ := isList_shape_iff.mp hl
      obtain ⟨n₂, fs, rfl⟩ := isList_shape_iff.mp hr
      exact hlists _ _ _ _ rfl rfl

theorem stuckAt_of_forms {b : Bool} {l r : Expr} (hr : ∀ k, r ≠ val k (.bool b))
    (hlr : ∀ j k, l = val j (.bool !b) → r ≠ val k (.bool !b)) :
    Shape.stuckAt b (l.shape []) (r.shape []) = true := by
  rw [Shape.stuckAt, decide_eq_true_eq]
  constructor
  · intro htruth
    obtain ⟨k, hk⟩ := truth?_shape_iff.mp htruth
    exact hr k hk
  · rintro ⟨hl, htruth⟩
    obtain ⟨j, hj⟩ := truth?_shape_iff.mp hl
    obtain ⟨k, hk⟩ := truth?_shape_iff.mp htruth
    exact hlr j k hj hk

theorem joined_of_join {op : BinOp} {l r v : Expr} (h : (join n op l r).run m = .ok v m') :
    m' = m ∧ Joined n op l r v := by
  cases op with
  | or | and =>
    simp only [join] at h
    split at h
    · obtain ⟨rfl, rfl⟩ := EStateM.Result.ok.inj h
      exact ⟨rfl, .lit (by simp [Shape.stuck, Shape.stuckAt, shape, Shape.truth?, Shape.lit?]) (by simp)⟩
    · obtain ⟨rfl, rfl⟩ := EStateM.Result.ok.inj h
      exact ⟨rfl, .lit (by simp [Shape.stuck, Shape.stuckAt, shape, Shape.truth?, Shape.lit?]) (by simp)⟩
    · rename_i hright hboth
      obtain ⟨rfl, rfl⟩ := EStateM.Result.ok.inj h
      exact ⟨rfl, .stuck (stuckAt_of_forms hright hboth)⟩
  | _ => exact joined_of_evalBin (by decide) (by decide) h

/-- An operator on one operand is stuck or gives a literal. -/
theorem negate_ok {op : UnOp} {e v : Expr} (h : (negate n op e).run m = .ok v m') :
    m' = m ∧ (Shape.stuckUn op (e.shape []) = true ∧ v = un n op e ∨
      Shape.stuckUn op (e.shape []) = false ∧ ∃ k w, v = val k w) := by
  cases op with
  | not =>
    simp only [negate] at h
    split at h
    · obtain ⟨rfl, rfl⟩ := EStateM.Result.ok.inj h
      exact ⟨rfl, Or.inr ⟨by simp [Shape.stuckUn, shape, Shape.truth?, Shape.lit?], _, _, rfl⟩⟩
    · rename_i hbool
      obtain ⟨rfl, rfl⟩ := EStateM.Result.ok.inj h
      refine ⟨rfl, Or.inl ⟨?_, rfl⟩⟩
      rw [Shape.stuckUn, decide_eq_true_eq, Option.eq_none_iff_forall_ne_some]
      intro b hb
      obtain ⟨k, rfl⟩ := truth?_shape_iff.mp hb
      exact hbool k b rfl
  | neg =>
    simp only [negate] at h
    split at h
    · obtain ⟨w, m₁, hw, h⟩ := Eval.run_bind_eq_ok h
      obtain ⟨rfl, rfl⟩ := EStateM.Result.ok.inj h
      exact ⟨run_ofOperand_ok hw, Or.inr ⟨by simp [Shape.stuckUn, shape, Shape.lit?], _, _, rfl⟩⟩
    · rename_i hval
      obtain ⟨rfl, rfl⟩ := EStateM.Result.ok.inj h
      refine ⟨rfl, Or.inl ⟨?_, rfl⟩⟩
      rw [Shape.stuckUn, decide_eq_true_eq, Option.eq_none_iff_forall_ne_some]
      intro w hw
      obtain ⟨k, rfl⟩ := lit?_shape_iff.mp hw
      exact hval k w rfl

/-- What the name of a builtin evaluates to. -/
theorem evalName_ok {line : Nat} {x : String} {v : Expr}
    (h : (evalName line n x).run m = .ok v m') :
    m'.globals = m.globals ∧ m'.drawn = m.drawn ∧ ∃ b, Builtin.ofName? x = some b ∧
      ((∃ k w, v = val k w) ∧ b = .read ∨ v = consFunction ∧ b = .cons ∨
        m' = m ∧ v = var n x ∧ b ≠ .read ∧ b ≠ .cons) := by
  unfold evalName at h
  split at h
  · rename_i hx
    obtain ⟨text, m₁, hread, h⟩ := Eval.run_bind_eq_ok h
    obtain ⟨rfl, rfl⟩ := EStateM.Result.ok.inj h
    obtain ⟨globals, lines, output, drawn⟩ := m
    cases lines with
    | nil => cases hread
    | cons first rest =>
      obtain ⟨rfl, rfl⟩ := EStateM.Result.ok.inj hread
      exact ⟨rfl, rfl, .read, hx, Or.inl ⟨⟨_, _, rfl⟩, rfl⟩⟩
  · rename_i hx
    obtain ⟨rfl, rfl⟩ := EStateM.Result.ok.inj h
    exact ⟨rfl, rfl, .cons, hx, Or.inr (Or.inl ⟨rfl, rfl⟩)⟩
  · rename_i b hread hcons hx
    obtain ⟨rfl, rfl⟩ := EStateM.Result.ok.inj h
    exact ⟨rfl, rfl, b, hx, Or.inr (Or.inr ⟨rfl, rfl, hread, hcons⟩)⟩
  · cases h

/-- What a builtin gives for an evaluated argument. -/
inductive Applied (n : Note) (f a : Expr) (b : Builtin) : Expr → Prop
  | arg : Applied n f a b a
  | lit {k : Note} {w : Value} : Applied n f a b (val k w)
  | head {k : Note} {e : Expr} {es : List Expr} (ha : a = list k (e :: es)) : Applied n f a b e
  | tail {k : Note} {es : List Expr} (ha : a = list k es) : Applied n f a b (list k es.tail)
  | stuck (hb : b = .read ∨ b = .cons) : Applied n f a b (app n f a)

theorem run_literal_ok {a : Expr} {w : Note × Value} (h : a.literal.run m = .ok w m') :
    m' = m := by
  cases a with
  | val k v => exact (EStateM.Result.ok.inj h).2.symm
  | _ => cases h

theorem run_elements_ok {a : Expr} {w : Note × List Expr} (h : a.elements.run m = .ok w m') :
    m' = m ∧ a = list w.1 w.2 := by
  cases a with
  | list k es =>
    obtain ⟨rfl, rfl⟩ := EStateM.Result.ok.inj h
    exact ⟨rfl, rfl⟩
  | _ => cases h

theorem applied_of_evalBuiltin {line : Nat} {f a v : Expr} {b : Builtin}
    (h : (evalBuiltin line n f a b).run m = .ok v m') :
    m'.globals = m.globals ∧ m'.drawn = m.drawn ∧ Applied n f a b v := by
  cases b with
  | print | println =>
    obtain ⟨w, m₁, hw, h⟩ := Eval.run_bind_eq_ok h
    obtain ⟨text, m₂, ht, h⟩ := Eval.run_bind_eq_ok h
    obtain ⟨_, m₃, hp, h⟩ := Eval.run_bind_eq_ok h
    obtain ⟨rfl, rfl⟩ := EStateM.Result.ok.inj h
    obtain rfl := run_literal_ok hw
    obtain rfl := run_ofNumber_ok ht
    obtain ⟨-, rfl⟩ := EStateM.Result.ok.inj hp
    exact ⟨rfl, rfl, .arg⟩
  | stringToInt | intToString =>
    obtain ⟨w, m₁, hw, h⟩ := Eval.run_bind_eq_ok h
    obtain ⟨u, m₂, hu, h⟩ := Eval.run_bind_eq_ok h
    obtain ⟨rfl, rfl⟩ := EStateM.Result.ok.inj h
    obtain rfl := run_literal_ok hw
    obtain rfl := run_ofNumber_ok hu
    exact ⟨rfl, rfl, .lit⟩
  | head =>
    obtain ⟨⟨k, es⟩, m₁, hw, h⟩ := Eval.run_bind_eq_ok h
    obtain ⟨rfl, ha⟩ := run_elements_ok hw
    cases es with
    | nil => cases h
    | cons e es =>
      obtain ⟨rfl, rfl⟩ := EStateM.Result.ok.inj h
      exact ⟨rfl, rfl, .head ha⟩
  | tail =>
    obtain ⟨⟨k, es⟩, m₁, hw, hret⟩ := Eval.run_bind_eq_ok h
    obtain ⟨rfl, ha⟩ := run_elements_ok hw
    obtain ⟨rfl, rfl⟩ := EStateM.Result.ok.inj hret
    exact ⟨rfl, rfl, .tail ha⟩
  | read =>
    obtain ⟨rfl, rfl⟩ := EStateM.Result.ok.inj h
    exact ⟨rfl, rfl, .stuck (Or.inl rfl)⟩
  | cons =>
    obtain ⟨rfl, rfl⟩ := EStateM.Result.ok.inj h
    exact ⟨rfl, rfl, .stuck (Or.inr rfl)⟩

end Outcomes

theorem RanItems.length_eq {line fuel : Nat} {es vs : List Expr} {m m' : Machine}
    (h : RanItems line fuel es m vs m') : vs.length = es.length := by
  induction h with
  | nil => rfl
  | cons _ _ ih => rw [List.length_cons, List.length_cons, ih]

theorem shape_list (n : Note) (es : List Expr) (xs : List String) :
    (list n es).shape xs = .node .list (es.map (·.shape xs)) :=
  shape_of_form rfl xs

theorem shape_record (n : Note) (fs : List (String × Expr)) (xs : List String) :
    (record n fs).shape xs =
      .node (.record (fs.map Prod.fst)) ((fs.map Prod.snd).map (·.shape xs)) :=
  shape_of_form rfl xs

/-- A record with evaluated fields. -/
theorem shape_record_zip (n : Note) {fs : List (String × Expr)} {vs : List Expr}
    (hlen : vs.length = (fs.map Prod.snd).length) (xs : List String) :
    (record n ((fs.map Prod.fst).zip vs)).shape xs =
      .node (.record (fs.map Prod.fst)) (vs.map (·.shape xs)) := by
  have hle : (fs.map Prod.fst).length = vs.length := by simpa using hlen.symm
  rw [shape_record, List.map_fst_zip hle.le, List.map_snd_zip hle.ge]

end Expr

/-- A later state of the machine within a statement. -/
structure Machine.Later (m m' : Machine) : Prop where
  globals : m'.globals = m.globals
  drawn : m.drawn ≤ m'.drawn

namespace Machine.Later

variable {m m' m'' : Machine}

theorem refl (m : Machine) : Later m m := ⟨rfl, le_rfl⟩

theorem trans (h : Later m m') (h' : Later m' m'') : Later m m'' :=
  ⟨h'.globals.trans h.globals, h.drawn.trans h'.drawn⟩

end Machine.Later

namespace Expr

/-- All globals have been evaluated. -/
def ReducedIn (m : Machine) : Prop := ∀ x v, m.globals.lookup x = some v → (v.shape []).Reduced

theorem ReducedIn.later {m m' : Machine} (h : ReducedIn m) (hl : m.Later m') : ReducedIn m' := by
  unfold ReducedIn
  rw [hl.globals]
  exact h

section

variable {line fuel : Nat}

theorem RanItems.reduced {es vs : List Expr} {m m' : Machine}
    (ih : ∀ {e v : Expr} {m m' : Machine}, (e.eval line fuel).run m = .ok v m' → ReducedIn m →
      (v.shape []).Reduced ∧ m.Later m')
    (h : RanItems line fuel es m vs m') (hm : ReducedIn m) :
    (∀ v ∈ vs, (v.shape []).Reduced) ∧ m.Later m' := by
  induction h with
  | nil => exact ⟨by simp, .refl _⟩
  | cons he _ ihs =>
    obtain ⟨hv, hl⟩ := ih he hm
    obtain ⟨hvs, hl'⟩ := ihs (hm.later hl)
    exact ⟨List.forall_mem_cons.mpr ⟨hv, hvs⟩, hl.trans hl'⟩

theorem reduced_items {vs : List Expr} (h : ∀ v ∈ vs, (v.shape []).Reduced) :
    ∀ s ∈ vs.map (·.shape []), s.Reduced := by
  intro s hs
  obtain ⟨v, hv, rfl⟩ := List.mem_map.mp hs
  exact h v hv

end

/-- What a finished evaluation leaves is reduced, and the globals are those that were there. -/
theorem reduced_of_eval {line fuel : Nat} {e v : Expr} {m m' : Machine}
    (h : (e.eval line fuel).run m = .ok v m') (hm : ReducedIn m) :
    (v.shape []).Reduced ∧ m.Later m' := by
  induction fuel generalizing e v m m' with
  | zero => cases h
  | succ fuel ih =>
    cases ran_of_eval h with
    | lam => exact ⟨.lam, .refl _⟩
    | tlam h | tapp h | ascribe h => exact ih h hm
    | yes hc _ hy =>
      obtain ⟨-, hl⟩ := ih hc hm
      obtain ⟨hv, hl'⟩ := ih hy (hm.later hl)
      exact ⟨hv, hl.trans hl'⟩
    | no hc _ hz =>
      obtain ⟨-, hl⟩ := ih hc hm
      obtain ⟨hv, hl'⟩ := ih hz (hm.later hl)
      exact ⟨hv, hl.trans hl'⟩
    | cond hc hnone hy hz =>
      obtain ⟨hc', hl⟩ := ih hc hm
      obtain ⟨hy', hl'⟩ := ih hy (hm.later hl)
      obtain ⟨hz', hl''⟩ := ih hz ((hm.later hl).later hl')
      exact ⟨.cond hc' hy' hz' hnone, (hl.trans hl').trans hl''⟩
    | short hl _ => exact ih hl hm
    | bin hl hd hr hv =>
      obtain ⟨hl', hml⟩ := ih hl hm
      obtain ⟨hr', hmr⟩ := ih hr (hm.later hml)
      obtain ⟨rfl, hjoined⟩ := joined_of_join hv
      refine ⟨?_, hml.trans hmr⟩
      cases hjoined with
      | stuck hstuck => exact .bin hl' hr' hd hstuck
      | lit => exact .val
      | lists hleft hright =>
        subst hleft hright
        rw [shape_list] at hl' hr'
        cases hl' with
        | list hes =>
          cases hr' with
          | list hfs =>
            rw [shape_list, List.map_append]
            exact .list (List.forall_mem_append.mpr ⟨hes, hfs⟩)
    | un he hv =>
      obtain ⟨he', hl⟩ := ih he hm
      obtain ⟨rfl, ⟨hstuck, rfl⟩ | ⟨-, k, w, rfl⟩⟩ := negate_ok hv
      · exact ⟨.un he' hstuck, hl⟩
      · exact ⟨.val, hl⟩
    | @call _ _ _ _ body _ w x _ _ m₁ m₂ _ hf ha hb =>
      obtain ⟨-, hl⟩ := ih hf hm
      obtain ⟨-, hl'⟩ := ih ha (hm.later hl)
      have hdraw : m₂.Later { m₂ with drawn := ((body.subst x w).run m₂.drawn).2 } :=
        ⟨rfl, substIn_drawn_le body [] (some (x, w)) m₂.drawn⟩
      obtain ⟨hv, hl''⟩ := ih hb (((hm.later hl).later hl').later hdraw)
      exact ⟨hv, ((hl.trans hl').trans hdraw).trans hl''⟩
    | builtin hf hx ha hb =>
      obtain ⟨hf', hl⟩ := ih hf hm
      obtain ⟨ha', hl'⟩ := ih ha (hm.later hl)
      obtain ⟨hglobals, hdrawn, happlied⟩ := applied_of_evalBuiltin hb
      refine ⟨?_, (hl.trans hl').trans ⟨hglobals, hdrawn.ge⟩⟩
      cases happlied with
      | arg => exact ha'
      | lit => exact .val
      | head hlist =>
        subst hlist
        rw [shape_list] at ha'
        cases ha' with
        | list hes => exact hes _ List.mem_cons_self
      | tail hlist =>
        subst hlist
        rw [shape_list] at ha' ⊢
        cases ha' with
        | list hes =>
          refine .list fun s hs => hes s ?_
          rw [List.map_tail] at hs
          exact List.mem_of_mem_tail hs
      | stuck hbuiltin =>
        -- `read` and `cons` are never left as names
        cases hf' with
        | builtin hx' hread hcons =>
          obtain rfl := Option.some.inj (hx.symm.trans hx')
          exact (hbuiltin.elim hread hcons).elim
    | app hf ha hstuck =>
      obtain ⟨hf', hl⟩ := ih hf hm
      obtain ⟨ha', hl'⟩ := ih ha (hm.later hl)
      exact ⟨.app hf' ha' hstuck, hl.trans hl'⟩
    | field he _ hv =>
      obtain ⟨-, hl⟩ := ih he hm
      obtain ⟨hv', hl'⟩ := ih hv (hm.later hl)
      exact ⟨hv', hl.trans hl'⟩
    | proj he hstuck =>
      obtain ⟨he', hl⟩ := ih he hm
      exact ⟨.proj he' hstuck, hl⟩
    | global hx => exact ⟨hm _ _ hx, .refl _⟩
    | name _ hx =>
      obtain ⟨hglobals, hdrawn, b, hb, ⟨⟨k, w, rfl⟩, -⟩ | ⟨rfl, -⟩ | ⟨-, rfl, hread, hcons⟩⟩ :=
        evalName_ok hx
      · exact ⟨.val, hglobals, hdrawn.ge⟩
      · exact ⟨.lam, hglobals, hdrawn.ge⟩
      · exact ⟨.builtin hb hread hcons, hglobals, hdrawn.ge⟩
    | val => exact ⟨.val, .refl _⟩
    | list hvs =>
      obtain ⟨hred, hl⟩ := hvs.reduced ih hm
      rw [shape_list]
      exact ⟨.list (reduced_items hred), hl⟩
    | record hvs =>
      obtain ⟨hred, hl⟩ := hvs.reduced ih hm
      rw [shape_record_zip _ hvs.length_eq]
      exact ⟨.record (reduced_items hred), hl⟩

theorem RanItems.shape_eq {line fuel : Nat} {es vs : List Expr} {m m' : Machine}
    (ih : ∀ {e v : Expr} {m' : Machine}, (e.shape []).Reduced →
      (e.eval line fuel).run m = .ok v m' → v.shape [] = e.shape [] ∧ m' = m)
    (hes : ∀ s ∈ es.map (·.shape []), s.Reduced) (h : RanItems line fuel es m vs m') :
    vs.map (·.shape []) = es.map (·.shape []) ∧ m' = m := by
  induction h with
  | nil => exact ⟨rfl, rfl⟩
  | cons he _ ihs =>
    obtain ⟨hfirst, hrest⟩ := List.forall_mem_cons.mp hes
    obtain ⟨hv, rfl⟩ := ih hfirst he
    obtain ⟨hvs, rfl⟩ := ihs ih hrest
    exact ⟨by rw [List.map_cons, List.map_cons, hv, hvs], rfl⟩

/-- Evaluation of what is reduced changes nothing but notes. -/
theorem shape_eval_of_reduced {line fuel : Nat} {e v : Expr} {m m' : Machine}
    (he : (e.shape []).Reduced) (hm : ∀ b : Builtin, m.globals.lookup b.name = none)
    (h : (e.eval line fuel).run m = .ok v m') : v.shape [] = e.shape [] ∧ m' = m := by
  induction fuel generalizing e v m' with
  | zero => cases h
  | succ fuel ih =>
    cases ran_of_eval h with
    | lam => exact ⟨rfl, rfl⟩
    | tlam _ | tapp _ | ascribe _ => cases he
    | yes hc htrue _ =>
      cases he with
      | cond hrc _ _ hnone =>
        obtain ⟨hc', -⟩ := ih hrc hc
        rw [hc', hnone] at htrue
        cases htrue
    | no hc hfalse _ =>
      cases he with
      | cond hrc _ _ hnone =>
        obtain ⟨hc', -⟩ := ih hrc hc
        rw [hc', hnone] at hfalse
        cases hfalse
    | cond hc _ hy hz =>
      cases he with
      | cond hrc hry hrz _ =>
        obtain ⟨hc', rfl⟩ := ih hrc hc
        obtain ⟨hy', rfl⟩ := ih hry hy
        obtain ⟨hz', rfl⟩ := ih hrz hz
        exact ⟨by rw [shape, shape, hc', hy', hz'], rfl⟩
    | short hl hd =>
      cases he with
      | bin hrl _ hnot _ =>
        obtain ⟨hl', -⟩ := ih hrl hl
        rw [hl', hnot] at hd
        cases hd
    | bin hl _ hr hv =>
      cases he with
      | bin hrl hrr _ hstuck =>
        obtain ⟨hl', rfl⟩ := ih hrl hl
        obtain ⟨hr', rfl⟩ := ih hrr hr
        obtain ⟨rfl, hjoined⟩ := joined_of_join hv
        rw [← hl', ← hr'] at hstuck
        cases hjoined with
        | stuck _ => exact ⟨by rw [shape, shape, hl', hr'], rfl⟩
        | lit hnot | lists _ _ hnot =>
          rw [hstuck] at hnot
          cases hnot
    | un hu hv =>
      cases he with
      | un hru hstuck =>
        obtain ⟨hu', rfl⟩ := ih hru hu
        rw [← hu'] at hstuck
        obtain ⟨rfl, ⟨-, rfl⟩ | ⟨hnot, -⟩⟩ := negate_ok hv
        · exact ⟨by rw [shape, shape, hu'], rfl⟩
        · rw [hstuck] at hnot
          cases hnot
    | call hf _ _ =>
      cases he with
      | app hrf _ hstuck =>
        obtain ⟨hf', -⟩ := ih hrf hf
        rw [← hf'] at hstuck
        cases hstuck
    | builtin hf hx _ _ =>
      cases he with
      | app hrf _ hstuck =>
        obtain ⟨hf', -⟩ := ih hrf hf
        rw [← hf'] at hstuck
        simp [shape, Shape.isFunction, hx] at hstuck
    | app hf ha _ =>
      cases he with
      | app hrf hra _ =>
        obtain ⟨hf', rfl⟩ := ih hrf hf
        obtain ⟨ha', rfl⟩ := ih hra ha
        exact ⟨by rw [shape, shape, hf', ha'], rfl⟩
    | field hr _ _ =>
      cases he with
      | proj hrr hstuck =>
        obtain ⟨hr', -⟩ := ih hrr hr
        rw [← hr'] at hstuck
        cases hstuck
    | proj hr _ =>
      cases he with
      | proj hrr _ =>
        obtain ⟨hr', rfl⟩ := ih hrr hr
        exact ⟨by rw [shape, shape, hr'], rfl⟩
    | global hx =>
      cases he with
      | builtin hb _ _ =>
        rw [← Builtin.name_of_ofName? hb, hm] at hx
        cases hx
    | name _ hx =>
      cases he with
      | builtin hb hread hcons =>
        obtain ⟨-, -, b, hb', ⟨-, rfl⟩ | ⟨-, rfl⟩ | ⟨rfl, rfl, -⟩⟩ := evalName_ok hx
        · exact absurd (Option.some.inj (hb.symm.trans hb')) hread
        · exact absurd (Option.some.inj (hb.symm.trans hb')) hcons
        · exact ⟨rfl, rfl⟩
    | val => exact ⟨rfl, rfl⟩
    | list hvs =>
      rw [shape_list] at he
      cases he with
      | list hes =>
        obtain ⟨hshapes, rfl⟩ := hvs.shape_eq (fun hr hrun => ih hr hrun) hes
        rw [shape_list, shape_list, hshapes]
        exact ⟨rfl, rfl⟩
    | record hvs =>
      rw [shape_record] at he
      cases he with
      | record hes =>
        obtain ⟨hshapes, rfl⟩ := hvs.shape_eq (fun hr hrun => ih hr hrun) hes
        rw [shape_record_zip _ hvs.length_eq, shape_record, hshapes]
        exact ⟨rfl, rfl⟩

end Expr

end TraitCalculus
