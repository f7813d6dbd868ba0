import Mathlib
import TraitCalculus.Proofs.Unloading

/-! Evaluation by substitution simulates evaluation with closures. The two are compared step by
step: a rule for each way to put runs together says that they agree if their parts do, and fuel
is spent only in the end, since a result that is reached stays. -/
namespace TraitCalculus

/-- From some fuel on, the run from `s` has this result. -/
def Settles {ε σ α : Type} (p : Nat → EStateM ε σ α) (s : σ) (r : EStateM.Result ε σ α) : Prop :=
  ∃ n, ∀ k, n ≤ k → (p k).run s = r

namespace Settles

variable {ε σ α β : Type} {p : Nat → EStateM ε σ α} {s s' : σ}

theorem unique {r r' : EStateM.Result ε σ α} (h : Settles p s r) (h' : Settles p s r') :
    r = r' := by
  obtain ⟨n, hn⟩ := h
  obtain ⟨n', hn'⟩ := h'
  rw [← hn (max n n') (le_max_left n n'), hn' (max n n') (le_max_right n n')]

theorem const {c : EStateM ε σ α} {r : EStateM.Result ε σ α} (h : c.run s = r) :
    Settles (fun _ => c) s r :=
  ⟨0, fun _ _ => h⟩

/-- One level of depth. -/
theorem succ {q : Nat → EStateM ε σ α} {r : EStateM.Result ε σ α} (h : Settles q s r)
    (hp : ∀ n, p (n + 1) = q n) : Settles p s r := by
  obtain ⟨n, hn⟩ := h
  refine ⟨n + 1, fun k hk => ?_⟩
  obtain ⟨j, rfl⟩ : ∃ j, k = j + 1 := ⟨k - 1, by omega⟩
  rw [hp]
  exact hn j (by omega)

theorem bind {q : α → Nat → EStateM ε σ β} {a : α} {r : EStateM.Result ε σ β}
    (h : Settles p s (.ok a s')) (h' : Settles (q a) s' r) :
    Settles (fun n => p n >>= fun a => q a n) s r := by
  obtain ⟨n, hn⟩ := h
  obtain ⟨n', hn'⟩ := h'
  refine ⟨max n n', fun k hk => ?_⟩
  have hok := hn k (le_trans (le_max_left n n') hk)
  have hr := hn' k (le_trans (le_max_right n n') hk)
  rw [EStateM.run_bind, hok]
  exact hr

theorem bind_error {q : α → Nat → EStateM ε σ β} {e : ε} (h : Settles p s (.error e s')) :
    Settles (fun n => p n >>= fun a => q a n) s (.error e s') := by
  obtain ⟨n, hn⟩ := h
  refine ⟨n, fun k hk => ?_⟩
  rw [EStateM.run_bind, hn k hk]

end Settles

theorem mapM_pure {m : Type → Type} [Monad m] [LawfulMonad m] {α : Type} (as : List α) :
    as.mapM (pure : α → m α) = pure as := by
  induction as with
  | nil => simp
  | cons a as ih => rw [List.mapM_cons, ih, pure_bind, pure_bind]

/-- The fields of a record are evaluated in order and keep their labels. -/
theorem mapM_fields {m : Type → Type} [Monad m] [LawfulMonad m] {α β : Type}
    (fs : List (String × α)) (f : α → m β) :
    (fs.mapM fun p => return (p.1, ← f p.2)) =
      (fs.map Prod.snd).mapM f >>= fun vs => pure ((fs.map Prod.fst).zip vs) := by
  induction fs with
  | nil => simp
  | cons p fs ih =>
    rw [List.mapM_cons, ih, List.map_cons, List.map_cons, List.mapM_cons]
    simp only [bind_assoc, pure_bind, List.zip_cons_cons]

namespace Expr

/-- A name that no global has. -/
def evalName (line : Nat) (n : Note) (x : String) : Eval Expr := do
  match Builtin.ofName? x with
  | some .read => return val .blank (.text (← Eval.readLine))
  | some .cons => return consFunction
  | some _ => return var n x
  | none => throw (.unbound line x)

theorem run_evalVar (line : Nat) (n : Note) (x : String) (m : Machine) :
    (evalVar line n x).run m =
      match m.globals.lookup x with
      | some v => .ok v m
      | none => (evalName line n x).run m := by
  have hget : (evalVar line n x).run m = EStateM.run (match m.globals.lookup x with
      | some v => pure v
      | none => evalName line n x) m := rfl
  rw [hget]
  cases m.globals.lookup x <;> rfl

/-- An evaluated function on an evaluated argument. -/
def evalApplied (line fuel : Nat) (n : Note) (a : Expr) : Expr → Eval Expr
  | lam _ x _ body => do (← Eval.ofFresh (body.subst x a)).eval line fuel
  | var m x =>
    match Builtin.ofName? x with
    | some b => evalBuiltin line n (var m x) a b
    | none => return app n (var m x) a
  | f => return app n f a

theorem eval_app (line fuel : Nat) (n : Note) (f a : Expr) :
    (app n f a).eval line (fuel + 1) =
      f.eval line fuel >>= fun f => a.eval line fuel >>= fun a => evalApplied line fuel n a f := by
  rw [eval]
  congr 1
  funext f
  congr 1
  funext a
  cases f <;> rfl

theorem eval_record (line fuel : Nat) (n : Note) (gs : List (String × Expr)) :
    (record n gs).eval line (fuel + 1) = (gs.map Prod.snd).mapM (eval line fuel) >>=
      fun es => pure (record n ((gs.map Prod.fst).zip es)) := by
  have hfields := mapM_fields gs (eval line fuel)
  rw [eval, hfields, bind_assoc]
  simp only [pure_bind]

end Expr

namespace Closure

theorem eval_record (line fuel : Nat) (env : Env) (n : Note) (fs : List (String × Expr)) :
    eval line (fuel + 1) env (.record n fs) = (fs.map Prod.snd).mapM (eval line fuel env) >>=
      fun vs => pure (.record ((fs.map Prod.fst).zip vs)) := by
  have hfields := mapM_fields fs (eval line fuel env)
  rw [eval, hfields, bind_assoc]
  simp only [pure_bind]

/-- The machine has the values of the store, unloaded. -/
structure Store.Shows (G : List String) (σ : Store) (m : Machine) : Prop where
  globals : ∀ x, Option.Rel (fun v e => Unloads G m.drawn (.value v) e) (σ.globals.lookup x)
    (m.globals.lookup x)
  known : ∀ x v, σ.globals.lookup x = some v → x ∈ G
  input : σ.input = m.input
  output : σ.output = m.output

theorem Store.Shows.later {G : List String} {σ : Store} {m : Machine} (h : σ.Shows G m) {k : Nat}
    (hk : m.drawn ≤ k) : σ.Shows G { m with drawn := k } where
  globals := by
    intro x
    have hx := h.globals x
    generalize σ.globals.lookup x = v at hx ⊢
    generalize m.globals.lookup x = e at hx ⊢
    cases hx with
    | some hv => exact .some (hv.mono hk)
    | none => exact .none
  known := h.known
  input := h.input
  output := h.output

/-- The run `p` from `m` ends as the run with closures did, if it has enough fuel. What is stuck
or too deep with closures does not count. -/
inductive Agrees {α β : Type} (G : List String) (R : Nat → α → β → Prop)
    (p : Nat → Eval β) (m : Machine) : EStateM.Result Stop Store α → Prop
  | ok {a : α} {σ' : Store} {b : β} {m' : Machine} (hs : Settles p m (.ok b m'))
      (hσ : σ'.Shows G m') (hk : m.drawn ≤ m'.drawn) (hab : R m'.drawn a b) :
      Agrees G R p m (.ok a σ')
  | error {e : EvalError} {σ' : Store} {m' : Machine} (hs : Settles p m (.error e m')) :
      Agrees G R p m (.error (.error e) σ')
  | depth {σ' : Store} : Agrees G R p m (.error .depth σ')
  | stuck {σ' : Store} : Agrees G R p m (.error .stuck σ')

theorem Agrees.congr {α β : Type} {G : List String} {R : Nat → α → β → Prop} {p q : Nat → Eval β}
    {m : Machine} {r : EStateM.Result Stop Store α} (h : Agrees G R p m r)
    (hpq : ∀ n, (p n).run m = (q n).run m) : Agrees G R q m r := by
  have hset {r : EStateM.Result EvalError Machine β} (hs : Settles p m r) : Settles q m r := by
    obtain ⟨n, hn⟩ := hs
    exact ⟨n, fun k hk => (hpq k).symm.trans (hn k hk)⟩
  cases h with
  | ok hs hσ hk hab => exact .ok (hset hs) hσ hk hab
  | error hs => exact .error (hset hs)
  | depth => exact .depth
  | stuck => exact .stuck

/-- From related states with `k` names drawn, the runs agree, with results related by `R`. -/
def Simulates {α β : Type} (G : List String) (k : Nat) (R : Nat → α → β → Prop) (c : Run α)
    (p : Nat → Eval β) : Prop :=
  ∀ (σ : Store) (m : Machine), σ.Shows G m → k ≤ m.drawn → Agrees G R p m (c.run σ)

namespace Simulates

variable {α β γ δ : Type} {G : List String} {k : Nat} {R : Nat → α → β → Prop}
  {S : Nat → γ → δ → Prop} {c : Run α} {p : Nat → Eval β}

theorem pure {a : α} {b : β} (h : ∀ j, k ≤ j → R j a b) :
    Simulates G k R (Pure.pure a) fun _ => Pure.pure b :=
  fun _ m hσ hk => .ok (.const rfl) hσ (le_refl _) (h m.drawn hk)

theorem stuck : Simulates G k R (throw .stuck) p := fun _ _ _ _ => .stuck

theorem error {e : EvalError} : Simulates G k R (throw (.error e)) fun _ => throw e :=
  fun _ _ _ _ => .error (.const rfl)

theorem succ {q : Nat → Eval β} (h : Simulates G k R c q) (hp : ∀ n, p (n + 1) = q n) :
    Simulates G k R c p := by
  intro σ m hσ hk
  have hr := h σ m hσ hk
  generalize c.run σ = r at hr
  cases hr with
  | ok hs hσ' hk' hab => exact .ok (hs.succ hp) hσ' hk' hab
  | error hs => exact .error (hs.succ hp)
  | depth => exact .depth
  | stuck => exact .stuck

theorem later (h : Simulates G k R c p) {j : Nat} (hj : k ≤ j) : Simulates G j R c p :=
  fun σ m hσ hm => h σ m hσ (hj.trans hm)

/-- Behind a run that settles, the other side goes on. -/
theorem prepend {ι : Type} {f : Nat → Eval ι} {q : ι → Nat → Eval δ} {i : ι} {m m' : Machine}
    {r : EStateM.Result Stop Store γ} (hs : Settles f m (.ok i m')) (hm : m.drawn ≤ m'.drawn)
    (h : Agrees G S (q i) m' r) : Agrees G S (fun n => f n >>= fun i => q i n) m r := by
  cases h with
  | ok hs' hσ hk hd => exact .ok (hs.bind hs') hσ (hm.trans hk) hd
  | error hs' => exact .error (hs.bind hs')
  | depth => exact .depth
  | stuck => exact .stuck

theorem bind {f : α → Run γ} {q : β → Nat → Eval δ} (h : Simulates G k R c p)
    (h' : ∀ j a b, k ≤ j → R j a b → Simulates G j S (f a) (q b)) :
    Simulates G k S (c >>= f) fun n => p n >>= fun b => q b n := by
  intro σ m hσ hk
  have hr := h σ m hσ hk
  rw [EStateM.run_bind]
  generalize c.run σ = r at hr
  cases hr with
  | ok hs hσ' hm hab =>
    exact prepend hs hm (h' _ _ _ (hk.trans hm) hab _ _ hσ' (le_refl _))
  | error hs => exact .error hs.bind_error
  | depth => exact .depth
  | stuck => exact .stuck

theorem stuck_bind {f : α → Run γ} {q : Nat → Eval δ} :
    Simulates G k S ((throw .stuck : Run α) >>= f) q := fun _ _ _ _ => .stuck

/-- Fresh names are drawn on one side only. -/
theorem ofFresh {f : Fresh β} {q : β → Nat → Eval δ} {c : Run γ}
    (hle : ∀ j, j ≤ (f.run j).2)
    (h : ∀ j, k ≤ j → Simulates G (f.run j).2 S c (q (f.run j).1)) :
    Simulates G k S c fun n => Eval.ofFresh f >>= fun b => q b n := by
  intro σ m hσ hk
  have hσ' : σ.Shows G { m with drawn := (f.run m.drawn).2 } := hσ.later (hle m.drawn)
  have hs : Settles (fun _ => Eval.ofFresh f) m
      (.ok (f.run m.drawn).1 { m with drawn := (f.run m.drawn).2 }) := .const rfl
  exact prepend hs (hle m.drawn) (h m.drawn hk σ _ hσ' (le_refl _))

theorem ofOperand (x : Except OperandError α) :
    Simulates G k (fun _ a b => a = b) (Closure.ofOperand x) fun _ => Eval.ofOperand x := by
  cases x with
  | ok a => exact pure fun _ _ => rfl
  | error e => exact error

theorem ofNumber (x : Except Text.NumberError α) :
    Simulates G k (fun _ a b => a = b) (Closure.ofNumber x) fun _ => Eval.ofNumber x := by
  cases x with
  | ok a => exact pure fun _ _ => rfl
  | error e => exact error

theorem print (s : String) :
    Simulates G k (fun _ _ _ => True) (Closure.print s) fun _ => Eval.print s := by
  intro σ m hσ hk
  have hσ' : Store.Shows G { σ with output := σ.output ++ s }
      { m with output := m.output ++ s } :=
    ⟨hσ.globals, hσ.known, hσ.input, congrArg (· ++ s) hσ.output⟩
  exact .ok (.const rfl) hσ' (le_refl _) trivial

theorem readLine : Simulates G k (fun _ a b => a = b) Closure.readLine fun _ => Eval.readLine := by
  intro σ m hσ hk
  obtain ⟨globals, lines, output⟩ := σ
  obtain ⟨globals', lines', output', drawn⟩ := m
  obtain rfl : lines = lines' := hσ.input
  cases lines with
  | nil => exact .error (.const rfl)
  | cons line rest =>
    have hσ' : Store.Shows G ⟨globals, rest, output⟩ ⟨globals', rest, output', drawn⟩ :=
      ⟨hσ.globals, hσ.known, rfl, hσ.output⟩
    exact .ok (.const rfl) hσ' (le_refl drawn) rfl

theorem mapM {as : List γ} {bs : List δ} {f : γ → Run α} {g : δ → Nat → Eval β}
    (hR : ∀ {j j' a b}, j ≤ j' → R j a b → R j' a b) (hlen : as.length = bs.length)
    (h : ∀ a b, (a, b) ∈ as.zip bs → ∀ j, k ≤ j → Simulates G j R (f a) (g b)) :
    Simulates G k (fun j us ws => us.length = as.length ∧ us.length = ws.length ∧
        ∀ u w, (u, w) ∈ us.zip ws → R j u w)
      (as.mapM f) fun n => bs.mapM fun b => g b n := by
  induction as generalizing bs k with
  | nil =>
    obtain rfl : bs = [] := List.length_eq_zero_iff.mp hlen.symm
    exact pure fun _ _ => ⟨rfl, rfl, by simp⟩
  | cons a as ih =>
    obtain ⟨b, bs, rfl⟩ := List.exists_cons_of_length_eq_add_one hlen.symm
    simp only [List.mapM_cons]
    refine bind (h a b (by simp) k (le_refl k)) fun j u w hj huw => ?_
    have hlen' : as.length = bs.length := by simpa using hlen
    refine bind (ih hlen' fun a b hab i hi => h a b (by simp [hab]) i (hj.trans hi))
      fun i us ws hi hus => ?_
    refine pure fun l hl => ⟨by simp [hus.1], by simp [hus.2.1], fun u' w' hu' => ?_⟩
    rcases List.mem_cons.mp hu' with he | hu'
    · obtain ⟨rfl, rfl⟩ := Prod.mk.inj he
      exact hR (hi.trans hl) huw
    · exact hR hl (hus.2.2 u' w' hu')

end Simulates

section

variable {G : List String} {k : Nat} {line : Nat}

/-- An expression that unloads a value. -/
abbrev Shown (G : List String) (k : Nat) (v : Val) (e : Expr) : Prop := Unloads G k (.value v) e

/-- A builtin is a value, and no global hides it. -/
theorem simulates_prim (hB : ∀ g ∈ G, Builtin.ofName? g = none) {b : Builtin} {n : Note}
    (hr : b ≠ .read) (hc : b ≠ .cons) :
    Simulates G k (Shown G) (pure (.prim b)) fun _ => Expr.evalVar line n b.name := by
  intro σ m hσ hk
  have hg : m.globals.lookup b.name = none := by
    have hx := hσ.globals b.name
    cases hl : σ.globals.lookup b.name with
    | none =>
      rw [hl] at hx
      generalize m.globals.lookup b.name = e at hx ⊢
      cases hx
      rfl
    | some v =>
      have hnone := hB _ (hσ.known _ v hl)
      rw [Builtin.ofName?_name] at hnone
      cases hnone
  have hrun : (Expr.evalVar line n b.name).run m = .ok (.var n b.name) m := by
    rw [Expr.run_evalVar, hg, Expr.evalName, Builtin.ofName?_name]
    cases b <;> first | rfl | contradiction
  exact .ok (.const hrun) hσ (le_refl _) (.prim hr hc)

/-- Elements of a list. -/
theorem simulates_items {α : Type} {as : List α} {es : List Expr} {f : α → Run Val} {n : Note}
    (hlen : as.length = es.length)
    (h : ∀ a e, (a, e) ∈ as.zip es → ∀ j, k ≤ j →
      Simulates G j (Shown G) (f a) fun n => e.eval line n) :
    Simulates G k (Shown G) (as.mapM f >>= fun vs => pure (.list vs))
      fun i => Expr.eval line i (.list n es) := by
  refine .succ (.bind (.mapM (R := Shown G) (fun hj h => h.mono hj) hlen h)
    fun j us ws hj hus => ?_) fun i => rfl
  exact .pure fun l hl => .list hus.2.1 fun u w huw => (hus.2.2 u w huw).mono hl

/-- Fields of a record. -/
theorem simulates_fields {α : Type} {fs : List (String × α)} {gs : List (String × Expr)}
    {f : α → Run Val} {n : Note} (hlabels : fs.map Prod.fst = gs.map Prod.fst)
    (h : ∀ a e, (a, e) ∈ (fs.map Prod.snd).zip (gs.map Prod.snd) → ∀ j, k ≤ j →
      Simulates G j (Shown G) (f a) fun n => e.eval line n) :
    Simulates G k (Shown G)
      ((fs.map Prod.snd).mapM f >>= fun vs => pure (.record ((fs.map Prod.fst).zip vs)))
      fun i => Expr.eval line i (.record n gs) := by
  have hlen : (fs.map Prod.snd).length = (gs.map Prod.snd).length := by
    simpa using congrArg List.length hlabels
  refine .succ (.bind (.mapM (R := Shown G) (fun hj h => h.mono hj) hlen h)
    fun j us ws hj hus => ?_) fun i => Expr.eval_record line i n gs
  have hus' : (fs.map Prod.fst).length = us.length := by simpa using hus.1.symm
  have hws' : (gs.map Prod.fst).length = ws.length := by rw [← hlabels, hus', hus.2.1]
  refine .pure fun l hl => .record ?_ ?_
  · rw [List.map_fst_zip hus'.le, List.map_fst_zip hws'.le, hlabels]
  · rw [List.map_snd_zip hus'.ge, List.map_snd_zip hws'.ge]
    exact fun u w huw => (hus.2.2 u w huw).mono hl

/-- A value is evaluated to itself, once more. -/
theorem simulates_value (hB : ∀ g ∈ G, Builtin.ofName? g = none) {v : Val} {e : Expr}
    (h : Shown G k v e) : Simulates G k (Shown G) (pure v) fun n => e.eval line n := by
  unfold Shown at h
  generalize hl : Load.value v = l at h
  induction h generalizing v with
  | lit =>
    cases hl
    exact .succ (.pure fun j hj => .lit) fun n => rfl
  | closure h ih =>
    cases hl
    cases h with
    | lam hy ht hne hbody =>
      refine .succ (.pure fun j hj => ?_) fun n => rfl
      exact .closure (n := .blank) (p := .erased) (.lam (hy.mono hj) ht hne (hbody.mono hj))
  | prim hr hc =>
    cases hl
    exact .succ (simulates_prim hB hr hc) fun n => rfl
  | cons n p hne hx hxs ht =>
    cases hl
    refine .succ (.pure fun j hj => ?_) fun n => rfl
    exact .cons n ![.erased, p 1] hne (hx.mono hj) (hxs.mono hj) ht
  | consOf n p hxs ht h ih =>
    cases hl
    refine .succ (.pure fun j hj => ?_) fun n => rfl
    exact .consOf n .erased (hxs.mono hj) ht (h.mono hj)
  | list hlen h ih =>
    cases hl
    rename_i vs es m
    have hrun : (pure (Val.list vs) : Run Val) = vs.mapM pure >>= fun vs => pure (.list vs) := by
      rw [mapM_pure, pure_bind]
    rw [hrun]
    exact simulates_items hlen fun v e hve j hj => (ih v e hve rfl).later hj
  | record hlabels h ih =>
    cases hl
    rename_i fs gs m
    have hrun : (pure (Val.record fs) : Run Val) = (fs.map Prod.snd).mapM pure >>= fun vs =>
        pure (.record ((fs.map Prod.fst).zip vs)) := by
      rw [mapM_pure, pure_bind, ← List.zip_of_prod rfl rfl]
    rw [hrun]
    exact simulates_fields hlabels fun v e hve j hj => (ih v e hve rfl).later hj
  | _ => cases hl

/-- Where a truth value is needed. -/
theorem simulates_truth {γ δ : Type} {S : Nat → γ → δ → Prop} {f : Bool → Run γ}
    {p : Nat → Eval δ} {v : Val} {e : Expr} (hv : Shown G k v e)
    (h : ∀ t n, e = .val n (.bool t) → Simulates G k S (f t) p) :
    Simulates G k S (v.truth >>= f) p := by
  cases hv with
  | lit =>
    rename_i w n
    cases w with
    | bool t => exact h t n rfl
    | int _ | text _ => exact .stuck_bind
  | _ => exact .stuck_bind

/-- Where a literal is needed. -/
theorem simulates_literal {γ δ : Type} {S : Nat → γ → δ → Prop} {f : Value → Run γ}
    {p : Nat → Eval δ} {v : Val} {e : Expr} (hv : Shown G k v e)
    (h : ∀ w n, e = .val n w → Simulates G k S (f w) p) :
    Simulates G k S (v.literal >>= f) p := by
  cases hv with
  | lit => exact h _ _ rfl
  | _ => exact .stuck_bind

/-- Where a list is needed. -/
theorem simulates_elements {γ δ : Type} {S : Nat → γ → δ → Prop} {f : List Val → Run γ}
    {p : Nat → Eval δ} {v : Val} {e : Expr} (hv : Shown G k v e)
    (h : ∀ vs es n, v = .list vs → e = .list n es → vs.length = es.length →
      (∀ w e, (w, e) ∈ vs.zip es → Shown G k w e) → Simulates G k S (f vs) p) :
    Simulates G k S (v.elements >>= f) p := by
  cases hv with
  | list hlen hes => exact h _ _ _ rfl rfl hlen hes
  | _ => exact .stuck_bind

/-- A literal is printed, with `f` to end the line or not. -/
theorem simulates_printed (f : String → String) {v : Val} {w : Value} {n : Note}
    (h : Shown G k v (.val n w)) :
    Simulates G k (Shown G) (ofNumber w.display >>= fun s => print (f s) >>= fun _ => pure v)
      fun _ => Eval.ofNumber w.display >>= fun s => Eval.print (f s) >>= fun _ =>
        pure (.val n w) := by
  refine .bind (.ofNumber w.display) fun j s t hj hst => ?_
  subst hst
  exact .bind (.print (f s)) fun i _ _ hi _ => .pure fun l hl => h.mono (by omega)

theorem simulates_builtin {b : Builtin} {n m : Note} {v : Val} {a : Expr} (hr : b ≠ .read)
    (hc : b ≠ .cons) (h : Shown G k v a) :
    Simulates G k (Shown G) (applyPrim line v b)
      fun _ => Expr.evalBuiltin line n (.var m b.name) a b := by
  cases b with
  | read => exact absurd rfl hr
  | cons => exact absurd rfl hc
  | print =>
    refine simulates_literal h fun w m ha => ?_
    subst ha
    exact simulates_printed id h
  | println =>
    refine simulates_literal h fun w m ha => ?_
    subst ha
    exact simulates_printed (· ++ "\n") h
  | stringToInt =>
    refine simulates_literal h fun w m ha => ?_
    subst ha
    show Simulates G k (Shown G) (ofNumber w.toInt >>= fun i => pure (.lit (.int i)))
      fun _ => Eval.ofNumber w.toInt >>= fun i => pure (.val m (.int i))
    exact .bind (.ofNumber w.toInt) fun j s t hj hst => hst ▸ .pure fun _ _ => .lit
  | intToString =>
    refine simulates_literal h fun w m ha => ?_
    subst ha
    show Simulates G k (Shown G) (ofNumber w.display >>= fun s => pure (.lit (.text s)))
      fun _ => Eval.ofNumber w.display >>= fun s => pure (.val m (.text s))
    exact .bind (.ofNumber w.display) fun j s t hj hst => hst ▸ .pure fun _ _ => .lit
  | head =>
    refine simulates_elements h fun vs es m hv ha hlen hes => ?_
    subst ha
    cases vs with
    | nil =>
      obtain rfl : es = [] := List.length_eq_zero_iff.mp hlen.symm
      exact .error
    | cons u vs =>
      obtain ⟨e, es, rfl⟩ := List.exists_cons_of_length_eq_add_one hlen.symm
      exact .pure fun j hj => (hes u e (by simp)).mono hj
  | tail =>
    refine simulates_elements h fun vs es m hv ha hlen hes => ?_
    subst ha
    refine .pure fun j hj => .list (by simp [hlen]) fun u e hue => (hes u e ?_).mono hj
    rw [← List.tail_zip] at hue
    exact List.mem_of_mem_tail hue

theorem simulates_bin {op : BinOp} {n : Note} {v w : Val} {l r : Expr} (hl : Shown G k v l)
    (hr : Shown G k w r) :
    Simulates G k (Shown G) (applyBin op v w) fun _ => Expr.evalBin n op l r := by
  cases hl with
  | lit =>
    cases hr with
    | lit => exact .bind (.ofOperand _) fun j u t hj hut => hut ▸ .pure fun _ _ => .lit
    | _ => exact .stuck
  | list hlen hes =>
    cases hr with
    | list hlen' hes' =>
      unfold applyBin Expr.evalBin
      split_ifs
      · refine .pure fun j hj => .list (by simp [hlen, hlen']) fun u e hue => ?_
        rw [List.zip_append hlen] at hue
        rcases List.mem_append.mp hue with hue | hue
        · exact (hes u e hue).mono hj
        · exact (hes' u e hue).mono hj
      · exact .stuck
    | _ => exact .stuck
  | _ => exact .stuck

/-- A name that no global has. -/
theorem simulates_evalName (hxs : ¬Taken G "__xs") (n : Note) (x : String) :
    Simulates G k (Shown G) (evalName x) fun _ => Expr.evalName line n x := by
  unfold evalName Expr.evalName
  cases hb : Builtin.ofName? x with
  | none => exact .stuck
  | some b =>
    obtain rfl := Builtin.name_of_ofName? hb
    have hprim (hr : b ≠ .read) (hc : b ≠ .cons) : Simulates G k (Shown G) (pure (.prim b))
        fun _ => pure (.var n b.name) := .pure fun _ _ => .prim hr hc
    cases b with
    | read =>
      refine .bind .readLine fun j s t hj hst => ?_
      subst hst
      exact .pure fun _ _ => .lit
    | cons =>
      refine .pure fun j hj => .cons (fun _ => .blank) (fun _ => .erased) (by decide) ?_ ?_ hxs
      · exact SourceName.old (by unfold SourceName; decide) j
      · exact SourceName.old (by unfold SourceName; decide) j
    | print | println | stringToInt | intToString | head | tail => exact hprim nofun nofun

/-- A variable without a slot is a global or a builtin. -/
theorem simulates_name (hxs : ¬Taken G "__xs") {env : Env} {x : String}
    (hx : env.lookup x = none) (n : Note) :
    Simulates G k (Shown G) (evalVar env x) fun _ => Expr.evalVar line n x := by
  intro σ m hσ hk
  have hglobal := hσ.globals x
  rw [run_evalVar hx]
  cases hv : σ.globals.lookup x with
  | none =>
    cases hm : m.globals.lookup x with
    | none =>
      have hname : Agrees G (Shown G) (fun _ => Expr.evalName line n x) m ((evalName x).run σ) :=
        simulates_evalName hxs n x σ m hσ hk
      refine hname.congr fun _ => ?_
      rw [Expr.run_evalVar, hm]
    | some e =>
      rw [hv, hm] at hglobal
      cases hglobal
  | some v =>
    cases hm : m.globals.lookup x with
    | none =>
      rw [hv, hm] at hglobal
      cases hglobal
    | some e =>
      rw [hv, hm] at hglobal
      cases hglobal with
      | some hshown =>
        have hrun : (Expr.evalVar line n x).run m = .ok e m := by rw [Expr.run_evalVar, hm]
        exact .ok (.const hrun) hσ (le_refl _) hshown

/-- A variable that is bound nowhere is stuck. -/
theorem simulates_junk {env : Env} {x : String} (hx : env.lookup x = none) (ht : ¬Taken G x)
    {p : Nat → Eval Expr} : Simulates G k (Shown G) (evalVar env x) p := by
  intro σ m hσ hk
  have hg : σ.globals.lookup x = none := by
    cases hl : σ.globals.lookup x with
    | none => rfl
    | some v => exact absurd (Or.inl (hσ.known x v hl)) ht
  have hb : Builtin.ofName? x = none := by
    cases hb : Builtin.ofName? x with
    | none => rfl
    | some b => exact absurd (Or.inr (by rw [hb]; rfl)) ht
  rw [run_evalVar hx, hg, evalName, hb]
  exact .stuck

/-- The field of a label, on both sides. -/
theorem shown_lookup {fs : List (String × Val)} {gs : List (String × Expr)} {label : String}
    {v : Val} (hlabels : fs.map Prod.fst = gs.map Prod.fst)
    (h : ∀ v e, (v, e) ∈ (fs.map Prod.snd).zip (gs.map Prod.snd) → Shown G k v e)
    (hv : fs.lookup label = some v) : ∃ e, gs.lookup label = some e ∧ Shown G k v e := by
  induction fs generalizing gs with
  | nil => cases hv
  | cons f fs ih =>
    obtain ⟨g, gs, rfl⟩ : ∃ g gs', gs = g :: gs' := by
      cases gs with
      | nil => cases hlabels
      | cons g gs => exact ⟨g, gs, rfl⟩
    obtain ⟨hfg, hlabels⟩ := List.cons_eq_cons.mp hlabels
    rw [Assoc.lookup_cons_if] at hv ⊢
    rw [← hfg]
    by_cases hl : label = f.1
    · rw [if_pos hl] at hv ⊢
      exact ⟨g.2, rfl, Option.some.inj hv ▸ h f.2 g.2 (by simp)⟩
    · rw [if_neg hl] at hv ⊢
      exact ih hlabels (fun v e hve => h v e (by simp [hve])) hv

/-- The second argument of `cons`: the two lists are joined. -/
theorem simulates_joined (hB : ∀ g ∈ G, Builtin.ofName? g = none) {v : Val} {vs : List Val}
    {e a : Expr} (n m : Note) (he : Shown G k v e) (ha : Shown G k (.list vs) a) :
    Simulates G k (Shown G) (pure (.list (v :: vs)))
      fun i => (Expr.bin n .add (.list m [e]) a).eval line i := by
  have hone : Shown G k (.list [v]) (.list m [e]) := by
    refine .list rfl fun u f huf => ?_
    obtain ⟨rfl, rfl⟩ : u = v ∧ f = e := by simpa using huf
    exact he
  have hrun : (pure (.list (v :: vs)) : Run Val) =
      pure (.list [v]) >>= fun l => pure (.list vs) >>= fun r => applyBin .add l r := rfl
  rw [hrun]
  exact .succ (.bind (simulates_value hB hone) fun j l l' hj hl =>
    .bind (simulates_value hB (ha.mono hj)) fun i r r' hi hr =>
      simulates_bin (hl.mono hi) hr) fun n => rfl

/-- An application, once function and argument are evaluated. -/
theorem simulates_apply (hG : ∀ g ∈ G, OldName 0 g) (hB : ∀ g ∈ G, Builtin.ofName? g = none)
    {call : Env → Expr → Run Val} (hcall : ∀ {k : Nat} {env : Env} {e e' : Expr},
      Unloads G k (.term env.slots e) e' →
        Simulates G k (Shown G) (call env e) fun n => e'.eval line n)
    {f a : Val} {f' a' : Expr} {n : Note} (hf : Shown G k f f') (ha : Shown G k a a') :
    Simulates G k (Shown G) (apply line call a f) fun i => Expr.evalApplied line i n a' f' := by
  cases hf with
  | closure hlam =>
    cases hlam with
    | lam hy ht hne hbody =>
      -- the environment gets the argument on one side, the body on the other
      rename_i y p body'
      exact .ofFresh (body'.substIn_drawn_le [] (some (y, a'))) fun j hj =>
        hcall (.subst hG (hy.mono hj) ht (hbody.mono hj) (ha.mono hj))
  | prim hr hc =>
    rename_i b m
    show Simulates G k (Shown G) (applyPrim line a b) fun _ =>
      match Builtin.ofName? b.name with
      | some b' => Expr.evalBuiltin line n (.var m b.name) a' b'
      | none => pure (.app n (.var m b.name) a')
    rw [Builtin.ofName?_name]
    exact simulates_builtin hr hc ha
  | cons m p hne hx hxs ht =>
    rename_i x xs
    refine .ofFresh (Expr.substIn_drawn_le _ [] (some (x, a'))) fun j hj => ?_
    obtain ⟨m', p', xs', a'', j', hj', hrun, hshown⟩ := unloads_subst_cons hG m p hne (hx.mono hj)
      (hxs.mono hj) ht (ha.mono hj)
    rw [hrun]
    exact simulates_value hB hshown
  | consOf m p hxs ht hv =>
    rename_i v e xs
    refine simulates_elements ha fun vs es l hvs hes hlen hall => ?_
    refine .ofFresh (Expr.substIn_drawn_le _ [] (some (xs, a'))) fun j hj => ?_
    obtain ⟨e', j', hj', he', hrun⟩ := unloads_subst_consOf hG m (hxs.mono hj) ht (hv.mono hj)
      (ha.mono hj)
    rw [hrun]
    subst hvs
    exact simulates_joined hB (m 1) (m 2) he' (ha.mono (hj.trans hj'))
  | _ => exact .stuck

/-- Evaluation by substitution does what evaluation with closures does. -/
theorem simulates_eval (hG : ∀ g ∈ G, OldName 0 g) (hB : ∀ g ∈ G, Builtin.ofName? g = none)
    (hxs : ¬Taken G "__xs") (fuel : Nat) {env : Env} {e e' : Expr}
    (h : Unloads G k (.term env.slots e) e') :
    Simulates G k (Shown G) (eval line fuel env e) fun n => e'.eval line n := by
  induction fuel generalizing k env e e' with
  | zero => exact fun _ _ _ _ => .depth
  | succ fuel ih =>
    generalize hl : Load.term env.slots e = l at h
    cases h with
    | slot hx h =>
      cases hl
      rename_i n x v
      have hlocal : eval line (fuel + 1) env (.var n x) = pure v :=
        evalVar_local (Env.lookup_of_slots_value hx)
      rw [hlocal]
      exact simulates_value hB h
    | param hx =>
      cases hl
      -- an environment has values only, no open parameters
      exact absurd hx (env.slots_ne_param _ _)
    | name hx ht =>
      cases hl
      exact .succ (simulates_name hxs (Env.lookup_of_slots_free hx) _) fun n => rfl
    | junk hx ht =>
      cases hl
      exact simulates_junk (Env.lookup_of_slots_free hx) ht
    | lam hy ht hne hbody =>
      cases hl
      refine .succ (.pure fun j hj => ?_) fun n => rfl
      exact .closure (n := .blank) (p := .erased) (.lam (hy.mono hj) ht hne (hbody.mono hj))
    | cond hc hy hz =>
      cases hl
      refine .succ (.bind (ih hc) fun j v c hj hv => ?_) fun n => rfl
      refine simulates_truth hv fun t n hc => ?_
      subst hc
      cases t with
      | true => exact ih (hy.mono hj)
      | false => exact ih (hz.mono hj)
    | bin hl' hr =>
      cases hl
      rename_i op l l' r r'
      cases op with
      | or =>
        refine .succ (.bind (ih hl') fun j v l hj hv => ?_) fun n => rfl
        refine simulates_truth hv fun t n hl => ?_
        subst hl
        cases t with
        | true => exact .pure fun _ _ => .lit
        | false =>
          refine .bind (ih (hr.mono hj)) fun i w r hi hw => ?_
          refine simulates_truth hw fun t n hr => ?_
          subst hr
          cases t <;> exact .pure fun _ _ => .lit
      | and =>
        refine .succ (.bind (ih hl') fun j v l hj hv => ?_) fun n => rfl
        refine simulates_truth hv fun t n hl => ?_
        subst hl
        cases t with
        | false => exact .pure fun _ _ => .lit
        | true =>
          refine .bind (ih (hr.mono hj)) fun i w r hi hw => ?_
          refine simulates_truth hw fun t n hr => ?_
          subst hr
          cases t <;> exact .pure fun _ _ => .lit
      | _ =>
        exact .succ (.bind (ih hl') fun j v l hj hv => .bind (ih (hr.mono hj))
          fun i w r hi hw => simulates_bin (hv.mono hi) hw) fun n => rfl
    | un h =>
      cases hl
      rename_i op e e'
      cases op with
      | not =>
        refine .succ (.bind (ih h) fun j v e hj hv => ?_) fun n => rfl
        refine simulates_truth hv fun t n he => ?_
        subst he
        exact .pure fun _ _ => .lit
      | neg =>
        refine .succ (.bind (ih h) fun j v e hj hv => ?_) fun n => rfl
        refine simulates_literal hv fun w n he => ?_
        subst he
        exact .bind (.ofOperand w.neg) fun i u t hi hut => hut ▸ .pure fun _ _ => .lit
    | app hf ha =>
      cases hl
      exact .succ (.bind (ih hf) fun j fv f hj hfv => .bind (ih (ha.mono hj))
        fun i av a hi hav => simulates_apply hG hB ih (hfv.mono hi) hav)
        fun n => Expr.eval_app line n _ _ _
    | tlam h | tapp h | ascribe h =>
      cases hl
      exact .succ (ih h) fun n => rfl
    | proj h =>
      cases hl
      rename_i label
      refine .succ (.bind (ih h) fun j v r hj hv => ?_) fun n => rfl
      cases hv with
      | record hlabels hes =>
        rename_i fs gs n
        cases hfield : fs.lookup label with
        | none =>
          simp only [hfield]
          exact .stuck
        | some v =>
          obtain ⟨e, he, hshown⟩ := shown_lookup hlabels hes hfield
          simp only [hfield, he]
          -- the field is a value already and is evaluated once more
          exact simulates_value hB hshown
      | _ => exact .stuck
    | val =>
      cases hl
      exact .succ (.pure fun j hj => .lit) fun n => rfl
    | items hlen h =>
      cases hl
      exact simulates_items hlen fun e e' he j hj => ih ((h e e' he).mono hj)
    | fields hlabels h =>
      cases hl
      rename_i n n' fs fs'
      rw [eval_record]
      exact simulates_fields hlabels fun e e' he j hj => ih ((h e e' he).mono hj)
    | _ => cases hl

end

end Closure

end TraitCalculus
