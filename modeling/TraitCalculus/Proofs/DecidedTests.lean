import Mathlib
import TraitCalculus.Proofs.DispatchTyping
import TraitCalculus.Proofs.SuppliedCalls
import TraitCalculus.Proofs.TypedEvaluations

/-! Conditionals run one branch. In a program with exact types that dispatch leaves closed, every
expression that a run evaluates has a type at run time, traits and dictionaries included. So the
test of a conditional, if its evaluation comes to an end, is a truth value, and the other branch is
never entered. -/
namespace TraitCalculus

/-- The type in the note of an expression, at run time. -/
def Expr.filled (e : Expr) : Nameless := (e.type?.map (Ty.filled .free)).getD .emptyList

namespace Stmt

/-- The global that a statement assigns, and its type. -/
def typedGlobal? : Stmt → Option (String × Nameless)
  | assign _ x e => some (x, e.filled)
  | _ => none

/-- The field of a trait that a statement announces, and its type. -/
def typedField? : Stmt → Option ((String × String) × Nameless)
  | field _ x trait (.all _ a _ body) => some ((trait, x), (body.nameless [a]).fill .free)
  | _ => none

end Stmt

/-- The types of the globals of a typed program, and of the fields of its traits. -/
def Program.signature (p : Program Stmt) : Signature where
  globals := p.stmts.filterMap Stmt.typedGlobal?
  fields := p.stmts.filterMap Stmt.typedField?

/-- A value of the type serves as a dictionary of the trait for `S`. -/
def Signature.serves (G : Signature) (trait : String) (S : Nameless) : Nameless → Bool
  | .record fields =>
    G.fields.all fun f => decide (f.1.1 = trait → fields.lookup f.1.2 = some (f.2.inst S 0))
  | _ => false

theorem Signature.serves_iff {G : Signature} {trait : String} {S A : Nameless}
    (h : G.serves trait S A = true) : ∃ fields, A = .record fields ∧ G.Serves trait S fields := by
  cases A with
  | record fields =>
    refine ⟨fields, rfl, fun label T hT => ?_⟩
    obtain ⟨l₁, l₂, hfields, -⟩ := List.lookup_eq_some_iff.mp hT
    have hmem : ((trait, label), T) ∈ G.fields := by simp [hfields]
    exact of_decide_eq_true (List.all_eq_true.mp h _ hmem) rfl
  | _ => cases h

namespace Stmt

/-- Instances are for types without bounds, by globals that serve as dictionaries, and fields are
announced with one type. -/
def served (G : Signature) : Stmt → Bool
  | inst _ trait type (.var _ g) =>
    type.unbounded && (G.globals.lookup g).any (G.serves trait (type.filled .free))
  | inst .. => false
  | field _ x trait (.all _ a _ body) =>
    decide (G.fields.lookup (trait, x) = some ((body.nameless [a]).fill .free))
  | field .. => false
  | _ => true

/-- The types in statements are exact. -/
def exactAll (owners : List (String × String)) (F : List String) : List Stmt → Bool
  | [] => true
  | assign _ _ e :: ss | eval _ e :: ss => e.exact owners F && exactAll owners F ss
  | inst .. :: ss => exactAll owners F ss
  | field _ x trait _ :: ss => exactAll (Assoc.insert x trait owners) F ss

end Stmt

namespace Program

/-- The type names in scope outside of all expressions. -/
def outerTypes (p : Program Stmt) : List String := Ty.basicNames ++ p.lamNames

/-- A faithful program whose types are exact: types that have to be the same agree also on bounds,
only basic types are compared, and instances serve their traits. -/
structure Exact (p : Program Stmt) : Prop extends p.Faithful where
  served : ∀ s ∈ p.stmts, s.served p.signature = true
  exact : Stmt.exactAll [] p.outerTypes p.stmts = true

instance (p : Program Stmt) : Decidable p.Exact :=
  decidable_of_iff (p.Faithful ∧ (∀ s ∈ p.stmts, s.served p.signature = true) ∧
      Stmt.exactAll [] p.outerTypes p.stmts = true)
    ⟨fun ⟨h₁, h₂, h₃⟩ => ⟨h₁, h₂, h₃⟩, fun h => ⟨h.toFaithful, h.served, h.exact⟩⟩

theorem map_fst_signature (p : Program Stmt) :
    p.signature.globals.map Prod.fst = Stmt.globals p.stmts := by
  simp only [signature, Stmt.globals, List.map_filterMap]
  congr 1
  funext s
  cases s <;> rfl

theorem mem_globals_of_lookup {p : Program Stmt} {x : String} {A : Nameless}
    (h : p.signature.globals.lookup x = some A) : x ∈ Stmt.globals p.stmts := by
  rw [← map_fst_signature]
  exact List.mem_map.mpr ⟨_, Assoc.mem_of_lookup h, rfl⟩

theorem lookup_eq_none_of_notMem {p : Program Stmt} {x : String}
    (h : x ∉ Stmt.globals p.stmts) : p.signature.globals.lookup x = none := by
  cases hx : p.signature.globals.lookup x with
  | none => rfl
  | some A => exact absurd (mem_globals_of_lookup hx) h

theorem lookup_signature_globals {p : Program Stmt} (honce : (Stmt.globals p.stmts).Nodup)
    {line : Nat} {x : String} {e : Expr} (h : .assign line x e ∈ p.stmts) :
    p.signature.globals.lookup x = some e.filled := by
  have hmem : (x, e.filled) ∈ p.signature.globals := List.mem_filterMap.mpr ⟨_, h, rfl⟩
  rw [← map_fst_signature] at honce
  exact Assoc.lookup_of_mem honce hmem

namespace Exact

variable {q : Program Stmt} (hq : q.Exact)
include hq

theorem sound_signature : q.signature.Sound :=
  fun x _ hx => hq.builtins x (mem_globals_of_lookup hx)

theorem proper_signature : q.signature.Proper q.outerTypes where
  basics := fun x hx => List.mem_append_left _ hx
  params := by
    intro trait k
    apply lookup_eq_none_of_notMem
    intro hmem
    have hfree := hq.unreserved _ (List.mem_append_left _ hmem)
    rw [Dictionaries.reserved_paramName] at hfree
    cases hfree

theorem lam_names {s : Stmt} (hs : s ∈ q.stmts) : ∀ x ∈ s.lamNames,
    Dictionaries.reserved x = false ∧ q.signature.globals.lookup x = none := by
  intro x hx
  have hmem : x ∈ q.lamNames := List.mem_flatMap.mpr ⟨s, hs, hx⟩
  exact ⟨hq.unreserved x (List.mem_append_right _ hmem),
    lookup_eq_none_of_notMem (hq.params x hmem).1⟩

end Exact

end Program

/-- Outside of all expressions. -/
def Setting.outer (top : List String) : Setting := ⟨top, .free, [], []⟩

namespace Builtin

/-- The types of builtins at run time. -/
theorem typed (G : Signature) (b : Builtin) :
    Shape.Typed G [] (.free b.name) (b.type.filled .free) := by
  have hname := b.ofName?_name
  cases b with
  | print => exact .form (.builtin hname .print)
  | println => exact .form (.builtin hname .println)
  | read => exact .form (.builtin hname .read)
  | stringToInt => exact .form (.builtin hname .stringToInt)
  | intToString => exact .form (.builtin hname .intToString)
  | head => exact .all fun S _ => .form (.builtin hname (.head S))
  | tail => exact .all fun S _ => .form (.builtin hname (.tail S))
  | cons => exact .all fun S _ => .form (.builtin hname (.cons S))

end Builtin

namespace Views

variable {G : Signature} {top : List String} {Γ : Context} {owners : List (String × String)}
  {names : List String}

theorem builtins (hG : G.Proper top) :
    Views G top (.outer top) Context.builtins [] (Builtin.all.map Builtin.name) := by
  have hterm : ∀ x t, Context.builtins.lookup x = some (.term t) →
      ∃ b : Builtin, b.name = x ∧ b.type = t := by
    intro x t hx
    obtain ⟨b, -, he⟩ := List.mem_map.mp (Assoc.mem_of_lookup hx)
    obtain ⟨hname, htype⟩ := Prod.mk.inj he
    exact ⟨b, hname, Entry.term.inj htype⟩
  refine ⟨fun _ => trivial, fun _ _ => rfl, fun _ hx => hx, fun x t hx => ?_, fun x t hx => ?_,
    nofun, nofun, fun x hx hres => ?_, fun x t n hx _ => ?_, nofun⟩
  · exact ((Context.within_builtins (k := 0) hG.basics).lookup hx).inScope
  · obtain ⟨b, rfl, -⟩ := hterm x t hx
    exact b.reserved_name
  · obtain ⟨b, -, rfl⟩ := List.mem_map.mp hx
    rw [b.reserved_name] at hres
    cases hres
  · obtain ⟨b, rfl, rfl⟩ := hterm x t hx
    exact b.typed G

/-- With one more name in scope that is not kept for dictionary parameters. -/
theorem name (h : Views G top (.outer top) Γ owners names) {x : String}
    (hx : Dictionaries.reserved x = false) :
    Views G top (.outer top) Γ owners (x :: names) := by
  refine { h with params := List.forall_mem_cons.mpr ⟨fun hres => ?_, h.params⟩ }
  rw [hx] at hres
  cases hres

/-- Behind a statement that binds a name. Nothing changes for the others. -/
theorem bind (h : Views G top (.outer top) Γ owners names) {x : String} {t : Ty}
    {owners' : List (String × String)} (hx : Dictionaries.reserved x = false)
    (ht : ∀ w ∈ t.free, w ∈ top) (hlabels : ∀ o ∈ owners', Dictionaries.reserved o.1 = false)
    (ho : ∀ y, y ≠ x → owners'.lookup y = owners.lookup y)
    (hvar : owners'.lookup x = none → G.globals.lookup x = some (t.filled .free))
    (hfield : ∀ trait, owners'.lookup x = some trait → ∃ l a bounds body,
      t = .all l a bounds body ∧
        G.fields.lookup (trait, x) = some ((body.nameless [a]).fill .free)) :
    Views G top (.outer top) ((x, .term t) :: Γ) owners' names := by
  have hold : ∀ y u, List.lookup y ((x, Entry.term t) :: Γ) = some (.term u) →
      y = x ∧ t = u ∨ y ≠ x ∧ Γ.lookup y = some (.term u) := by
    intro y u hy
    rw [Assoc.lookup_cons_if] at hy
    split_ifs at hy with hyx
    · exact Or.inl ⟨hyx, Entry.term.inj (Option.some.inj hy)⟩
    · exact Or.inr ⟨hyx, hy⟩
  refine { h with scope := ?_, terms := ?_, labels := hlabels, vars := ?_, fields := ?_ }
  · intro y u hy
    rcases hold y u hy with ⟨-, rfl⟩ | ⟨-, hy⟩
    · exact ht
    · exact h.scope y u hy
  · intro y u hy
    rcases hold y u hy with ⟨rfl, -⟩ | ⟨-, hy⟩
    · exact hx
    · exact h.terms y u hy
  · intro y u n hy hnone
    rcases hold y u hy with ⟨rfl, rfl⟩ | ⟨hyx, hy⟩
    · exact .form (.global (hvar hnone))
    · rw [ho y hyx] at hnone
      exact h.vars y u n hy hnone
  · intro y u trait hy htrait
    rcases hold y u hy with ⟨rfl, rfl⟩ | ⟨hyx, hy⟩
    · exact ⟨ht, hfield trait htrait⟩
    · rw [ho y hyx] at htrait
      exact h.fields y u trait hy htrait

end Views

/-- The global of an instance joins the table. -/
theorem Dictionaries.Tied.inst {G : Signature} {top : List String} {P : Setting}
    {d : Dictionaries} (h : d.Tied G top P) {trait g : String} {type : Ty} {n : Note}
    {fields : List (String × Nameless)} (hg : G.globals.lookup g = some (.record fields))
    (hserves : G.Serves trait (type.filled .free) fields) (hplain : type.unbounded = true)
    (htop : ∀ w ∈ type.free, w ∈ top) :
    Tied G top P { d with known := (trait, type, .var n g) :: d.known } :=
  ⟨h.numbers, List.forall_mem_cons.mpr ⟨.inst rfl hg hserves hplain htop, h.known⟩⟩

theorem HasType.filled_eq {Γ : Context} {e : Expr} {t : Ty} (h : HasType Γ e t) :
    e.filled = t.filled .free := by
  rw [Expr.filled, h.type?_eq]
  rfl

namespace Stmt

/-- The statement's expression has a type at run time, and is assigned to a global of this
type. -/
def Types (G : Signature) : Stmt → Prop
  | assign _ x e => ∃ A, G.globals.lookup x = some A ∧ Shape.Typed G [] (e.shape []) A
  | eval _ e => ∃ A, Shape.Typed G [] (e.shape []) A
  | _ => True

section Dispatch

variable {owners : List (String × String)} {d d' : Dictionaries} {done ss : List Stmt}

/-- Dispatch of the statements of a program with exact types, in order. -/
theorem typesAll {q : Program Stmt} (hq : q.Exact) {k : Nat}
    (hwithin : ∀ s ∈ q.stmts, s.TypedWithin k q.outerTypes) {Γ : Context} {names : List String}
    {new : List Stmt} (hsub : ∀ s ∈ ss, s ∈ q.stmts) (ht : StmtsHaveTypes Γ ss)
    (hv : Views q.signature q.outerTypes (.outer q.outerTypes) Γ owners names)
    (hf : faithfulAll owners ss = true) (hx : exactAll owners q.outerTypes ss = true)
    (hd : d.Tied q.signature q.outerTypes (.outer q.outerTypes))
    (h : (dispatchAll owners done ss).run d = .ok (done.reverse ++ new, d'))
    (hc : closedAll names new = true) : ∀ s ∈ new, s.Types q.signature := by
  have hG := hq.proper_signature
  induction ss generalizing Γ owners names d done new with
  | nil =>
    obtain ⟨hnew, -⟩ := run_pure_eq_ok h
    obtain rfl : new = [] := by simpa using hnew
    exact fun s hs => nomatch hs
  | cons s ss ih =>
    obtain ⟨hmem, hmems⟩ := List.forall_mem_cons.mp hsub
    have hlams := hq.lam_names hmem
    have hserved := hq.served s hmem
    have hw := hwithin s hmem
    cases ht with
    | @assign _ line x e t _ hte hts =>
      obtain ⟨ho, hf⟩ := Bool.and_eq_true_iff.mp hf
      obtain ⟨-, hf⟩ := Bool.and_eq_true_iff.mp hf
      obtain ⟨hxe, hx⟩ := Bool.and_eq_true_iff.mp hx
      have ho : owners.lookup x = none := Option.isNone_iff_eq_none.mp ho
      obtain ⟨e', d₁, he, hrest⟩ := run_bind_eq_ok h
      rw [Assoc.erase_eq_self ho] at he hrest
      obtain ⟨rest, rfl, hdone⟩ := exists_rest hrest
      obtain ⟨hce, hc⟩ := Bool.and_eq_true_iff.mp hc
      have hglobal : q.signature.globals.lookup x = some (t.filled .free) := by
        rw [Program.lookup_signature_globals hq.once hmem, hte.filled_eq]
      have hfree : Dictionaries.reserved x = false :=
        hq.unreserved x (List.mem_append_left _ (List.mem_filterMap.mpr ⟨_, hmem, rfl⟩))
      have htypes := e.types_dispatch hG hte (hv.name hfree) hlams hw.written hxe hd he hce
      have hnext := (hv.name hfree).bind hfree (hw.found _ rfl t hte.type?_eq).inScope hv.labels
        (fun _ _ => rfl) (fun _ => hglobal) fun trait htrait => by
          rw [ho] at htrait
          cases htrait
      have hall := ih hmems hts hnext hf hx (hd.grown (e.grows_dispatch owners _ _ _ he)) hdone hc
      exact List.forall_mem_cons.mpr ⟨⟨_, hglobal, htypes⟩, hall⟩
    | @eval _ line e t _ hte hts =>
      obtain ⟨-, hf⟩ := Bool.and_eq_true_iff.mp hf
      obtain ⟨hxe, hx⟩ := Bool.and_eq_true_iff.mp hx
      obtain ⟨e', d₁, he, hrest⟩ := run_bind_eq_ok h
      obtain ⟨rest, rfl, hdone⟩ := exists_rest hrest
      obtain ⟨hce, hc⟩ := Bool.and_eq_true_iff.mp hc
      have htypes := e.types_dispatch hG hte hv hlams hw.written hxe hd he hce
      have hall := ih hmems hts hv hf hx (hd.grown (e.grows_dispatch owners _ _ _ he)) hdone hc
      exact List.forall_mem_cons.mpr ⟨⟨_, htypes⟩, hall⟩
    | @inst _ line trait type dict _ hts =>
      obtain ⟨_, d₁, hadd, hrest⟩ := run_bind_eq_ok h
      obtain ⟨-, rfl⟩ := Prod.mk.inj (Except.ok.inj hadd)
      obtain ⟨rest, rfl, hdone⟩ := exists_rest hrest
      cases dict with
      | var n g =>
        obtain ⟨hplain, hany⟩ := Bool.and_eq_true_iff.mp hserved
        obtain ⟨A, hA, hserves⟩ := (Option.any_eq_true _ _).mp hany
        obtain ⟨fields, rfl, hdict⟩ := Signature.serves_iff hserves
        have hall := ih hmems hts hv hf hx (hd.inst hA hdict hplain hw.written.1.inScope) hdone hc
        exact List.forall_mem_cons.mpr ⟨trivial, hall⟩
      | _ => cases hserved
    | @field _ line x trait type _ hts =>
      obtain ⟨rest, rfl, hdone⟩ := exists_rest h
      obtain ⟨hfree, -⟩ := Bool.and_eq_true_iff.mp (hq.announced _ hmem)
      have hfree : Dictionaries.reserved x = false := by simpa using hfree
      have hfield : ∃ l a bounds body, type = .all l a bounds body ∧
          q.signature.fields.lookup (trait, x) = some ((body.nameless [a]).fill .free) := by
        cases type with
        | all l a bounds body => exact ⟨l, a, bounds, body, rfl, of_decide_eq_true hserved⟩
        | _ => cases hserved
      have hlabels : ∀ o ∈ Assoc.insert x trait owners, Dictionaries.reserved o.1 = false := by
        intro o ho
        rcases Assoc.mem_insert ho with rfl | ho
        · exact hfree
        · exact hv.labels o ho
      have hbind := hv.bind hfree hw.written.inScope hlabels
        (fun y hy => Assoc.lookup_insert_of_ne trait owners hy)
        (fun hnone => by
          rw [Assoc.lookup_insert_self] at hnone
          cases hnone)
        (fun F hF => by
          rw [Assoc.lookup_insert_self] at hF
          exact Option.some.inj hF ▸ hfield)
      have hnext : Views q.signature q.outerTypes (.outer q.outerTypes) ((x, .term type) :: Γ)
          (Assoc.insert x trait owners) (names.filter (· ≠ x)) :=
        { hbind with params := fun y hy => hbind.params y (List.mem_of_mem_filter hy) }
      exact List.forall_mem_cons.mpr ⟨trivial, ih hmems hts hnext hf hx hd hdone hc⟩

end Dispatch

/-- The evaluations while a statement is run. -/
def visits (fuel : Nat) (m : Machine) (s : Stmt) : List Visit :=
  s.expr?.elim [] fun e => e.2.visits e.1 fuel m

/-- The evaluations while statements are run in order, until one fails. -/
def visitsAll (fuel : Nat) : Machine → List Stmt → List Visit
  | _, [] => []
  | m, s :: ss => s.visits fuel m ++ (s.run fuel).after m fun _ m => visitsAll fuel m ss

section Runs

variable {W : World} {G : Signature} {fuel : Nat} {m m' : Machine} {s : Stmt}

/-- One statement, which assigns a new global. -/
theorem ready_run (hW : W.Sound) (hG : G.Sound) (hm : m.Ready W G) (hs : s.Fits W)
    (ht : s.Types G) (hnew : ∀ x, s.assigned? = some x → m.globals.lookup x = none) {text : String}
    (h : (s.run fuel).run m = .ok text m') : m'.Ready W G := by
  refine ⟨(holds_run hW hm.fits hs hnew h).1, ?_⟩
  cases s with
  | assign line x e =>
    obtain ⟨S, -, hfits⟩ := hs
    obtain ⟨A, hA, htyped⟩ := ht
    obtain ⟨v, m₁, hv, rfl⟩ := run_assign_ok h
    have hleft := Expr.left_eval hW hG hm (hfits _ _) htyped hv
    intro y u hy
    change (Assoc.insert x v m₁.globals).lookup y = some u at hy
    by_cases hyx : y = x
    · rw [hyx, Assoc.lookup_insert_self] at hy
      exact ⟨A, hyx ▸ hA, Option.some.inj hy ▸ hleft.typed⟩
    · rw [Assoc.lookup_insert_of_ne v m₁.globals hyx] at hy
      exact hleft.ready.types y u hy
  | eval line e =>
    obtain ⟨S, hfits⟩ := hs
    obtain ⟨A, htyped⟩ := ht
    obtain ⟨v, hv⟩ := run_eval_ok h
    exact (Expr.left_eval hW hG hm (hfits _ _) htyped hv).ready.types
  | inst line trait type dict | field line x trait type =>
    obtain ⟨-, rfl⟩ := EStateM.Result.ok.inj h
    exact hm.types

theorem safe_visits (hW : W.Sound) (hG : G.Sound) (hm : m.Ready W G) (hs : s.Fits W)
    (ht : s.Types G) : ∀ t ∈ s.visits fuel m, t.Safe W G := by
  cases s with
  | assign line x e =>
    obtain ⟨S, -, hfits⟩ := hs
    obtain ⟨A, -, htyped⟩ := ht
    exact Expr.visitsSafe hW hG line fuel hm (hfits _ _) htyped
  | eval line e =>
    obtain ⟨S, hfits⟩ := hs
    obtain ⟨A, htyped⟩ := ht
    exact Expr.visitsSafe hW hG line fuel hm (hfits _ _) htyped
  | inst | field => exact fun t ht => nomatch ht

/-- Statements in a row, each of which assigns a new global. -/
theorem safe_visitsAll (hW : W.Sound) (hG : G.Sound) {ss : List Stmt} (hm : m.Ready W G)
    (hfits : ∀ s ∈ ss, s.Fits W) (htypes : ∀ s ∈ ss, s.Types G) (honce : (globals ss).Nodup)
    (hnew : ∀ x ∈ globals ss, m.globals.lookup x = none) :
    ∀ t ∈ visitsAll fuel m ss, t.Safe W G := by
  induction ss generalizing m with
  | nil => exact fun t ht => nomatch ht
  | cons s ss ih =>
    obtain ⟨hs, hfits⟩ := List.forall_mem_cons.mp hfits
    obtain ⟨hst, htypes⟩ := List.forall_mem_cons.mp htypes
    refine List.forall_mem_append.mpr ⟨safe_visits hW hG hm hs hst, fun t ht => ?_⟩
    obtain ⟨text, m₁, hrun, ht⟩ := Eval.mem_after.mp ht
    have hglobals : globals (s :: ss) = s.assigned?.toList ++ globals ss := by
      cases s <;> rfl
    rw [hglobals] at honce hnew
    have hown : ∀ x, s.assigned? = some x → m.globals.lookup x = none :=
      fun x hx => hnew x (by simp [hx])
    refine ih (ready_run hW hG hm hs hst hown hrun) hfits htypes honce.of_append_right
      (fun x hx => ?_) t ht
    -- the statement's own global is none of those to come
    have hne : s.assigned? ≠ some x := fun he =>
      List.disjoint_of_nodup_append honce (by simp [he]) hx
    rw [(holds_run hW hm.fits hs hown hrun).2 x hne]
    exact hnew x (List.mem_append_right _ hx)

end Runs

end Stmt

/-- What the test of a conditional comes to, and the machine behind it. -/
def Visit.test? (t : Visit) : Option (Expr × Machine) :=
  match t.expr with
  | .cond _ c _ _ =>
    match (c.eval t.line t.fuel).run t.machine with
    | .ok v m => some (v, m)
    | .error .. => none
  | _ => none

theorem Visit.exists_of_test? {t : Visit} {v : Expr} {m : Machine} (h : t.test? = some (v, m)) :
    ∃ n c y z, t.expr = .cond n c y z ∧ (c.eval t.line t.fuel).run t.machine = .ok v m := by
  unfold test? at h
  split at h
  · rename_i n c y z he
    split at h
    · rename_i v' m' hv
      obtain ⟨rfl, rfl⟩ := Prod.mk.inj (Option.some.inj h)
      exact ⟨n, c, y, z, he, hv⟩
    · cases h
  · cases h

/-- The evaluation ends with this output. -/
def Visit.writes (t : Visit) (output : String) : Bool :=
  match (t.expr.eval t.line (t.fuel + 1)).run t.machine with
  | .ok _ m => decide (m.output = output)
  | .error .. => false

namespace Program

/-- All evaluations while a program is run on an input. -/
def visits (fuel : Nat) (input : String) (p : Program Stmt) : List Visit :=
  Stmt.visitsAll fuel { input := inputLines input } p.stmts

/-- In every run of a program with exact types that dispatch leaves closed, a test that is
evaluated without error is a truth value. What is evaluated behind it, the text that is printed and
the input that is read are those of one branch. -/
theorem tests_decided {code : String} {q r : Program Stmt} (hi : inferText code = .ok q)
    (hq : q.Exact) (hd : q.dispatch = .ok r) (hc : r.closed = true) (fuel : Nat)
    (input : String) :
    ∀ t ∈ r.visits fuel input, ∀ n c y z, t.expr = .cond n c y z → ∀ v m,
      (c.eval t.line t.fuel).run t.machine = .ok v m → ∃ k b, v = .val k (.bool b) ∧
        t.expr.visits t.line (t.fuel + 1) t.machine = t :: (c.visits t.line t.fuel t.machine ++
          (if b then y else z).visits t.line t.fuel m) ∧
        (t.expr.eval t.line (t.fuel + 1)).run t.machine =
          ((if b then y else z).eval t.line t.fuel).run m := by
  obtain ⟨p, drawn, st, hr, hinfer⟩ := exists_infer_of_inferText hi
  obtain ⟨htyped, hinserted, hwithin⟩ := infer_sound hr hinfer
  have hsource := source_inferText hi
  have hW := hq.sound hsource
  have hG := hq.sound_signature
  have hscope : Ty.basicNames ++ p.lamNames = q.outerTypes := by
    rw [outerTypes, lamNames, lamNames, (Stmt.names_inserted hinserted).2]
  rw [hscope] at hwithin
  obtain ⟨d, hss⟩ := exists_dispatchAll_of_dispatch hd
  have hknown : Dictionaries.Known q.world {} := List.forall_mem_nil _
  have htied : Dictionaries.Tied q.signature q.outerTypes (.outer q.outerTypes) {} :=
    ⟨fun _ _ hy => absurd hy List.not_mem_nil, List.forall_mem_nil _⟩
  obtain ⟨hglobals, hfits⟩ := Stmt.fitsAll hq.toFaithful hsource (fun s hs => hs) htyped
    (.builtins q.world) (.builtins q.world) hq.exprs hknown hss hc
  have htypes := Stmt.typesAll hq hwithin (fun s hs => hs) htyped
    (.builtins hq.proper_signature) hq.exprs hq.exact htied hss hc
  have hm : Machine.Ready q.world q.signature { input := inputLines input } := by
    refine ⟨⟨?_, ?_⟩, ?_⟩ <;>
    · intro x v h
      cases h
  intro t ht n c y z he v m hv
  have hsafe := Stmt.safe_visitsAll hW hG hm hfits htypes (hglobals ▸ hq.once)
    (fun x _ => rfl) t ht
  exact hsafe.decided hW hG he hv

/-- The test is a call of a field, which dispatch takes from a dictionary parameter. -/
def signSample : String :=
  "trait Test a \x7bholds: a -> Bool;\x7d\n" ++
    "impl Test for Int \x7bholds = \\n: Int. n > 0;\x7d\n" ++
    "report = \\a impl Test. \\x: a. if holds x then print \"yes\" else print \"no\";\n" ++
    "report (0 - 7);\n"

theorem tests_decided_dictionary : ∃ q r, inferText signSample = .ok q ∧ q.Exact ∧
    q.dispatch = .ok r ∧ r.closed = true ∧ ∃ t ∈ r.visits 30 "", ∃ n c y z v m,
      t.expr = .cond n c y z ∧ (c.eval t.line t.fuel).run t.machine = .ok v m ∧
        ∃ k b, v = .val k (.bool b) ∧
          t.expr.visits t.line (t.fuel + 1) t.machine = t :: (c.visits t.line t.fuel t.machine ++
            (if b then y else z).visits t.line t.fuel m) ∧
          (t.expr.eval t.line (t.fuel + 1)).run t.machine =
            ((if b then y else z).eval t.line t.fuel).run m := by
  have hrun : ((inferText signSample).toOption.any fun q => decide q.Exact &&
      q.dispatch.toOption.any fun r => r.closed &&
        (r.visits 30 "").any fun t => t.test?.isSome) = true := by
    decide +kernel
  obtain ⟨q, hi, hrun⟩ := exists_of_any_toOption hrun
  obtain ⟨hexact, hrun⟩ := Bool.and_eq_true_iff.mp hrun
  have hexact : q.Exact := of_decide_eq_true hexact
  obtain ⟨r, hd, hrun⟩ := exists_of_any_toOption hrun
  obtain ⟨hclosed, htest⟩ := Bool.and_eq_true_iff.mp hrun
  obtain ⟨t, ht, htest⟩ := List.any_eq_true.mp htest
  obtain ⟨⟨v, m⟩, htest⟩ := Option.isSome_iff_exists.mp htest
  obtain ⟨n, c, y, z, he, hv⟩ := Visit.exists_of_test? htest
  exact ⟨q, r, hi, hexact, hd, hclosed, t, ht, n, c, y, z, v, m, he, hv,
    tests_decided hi hexact hd hclosed 30 "" t ht n c y z he v m hv⟩

/-- Lists are compared: the operands have one type, but they are no literals. -/
def listTestSample : String := "if [1] == [1] then print \"a\" else print \"b\";\n"

/-- A test that is left as it is, so both branches are run. -/
theorem test_undecided : ∃ q r, inferText listTestSample = .ok q ∧ q.dispatch = .ok r ∧
    r.closed = true ∧ ∃ t ∈ r.visits 30 "", ∃ n c y z v m,
      t.expr = .cond n c y z ∧ (c.eval t.line t.fuel).run t.machine = .ok v m ∧
        (∀ k b, v ≠ .val k (.bool b)) ∧ ∃ w m',
          (t.expr.eval t.line (t.fuel + 1)).run t.machine = .ok w m' ∧ m'.output = "ab" := by
  have hrun : ((inferText listTestSample).toOption.any fun q => q.dispatch.toOption.any fun r =>
      r.closed && (r.visits 30 "").any fun t =>
        (t.test?.any fun r => (r.1.shape []).truth?.isNone) && t.writes "ab") = true := by
    decide +kernel
  obtain ⟨q, hi, hrun⟩ := exists_of_any_toOption hrun
  obtain ⟨r, hd, hrun⟩ := exists_of_any_toOption hrun
  obtain ⟨hclosed, hrun⟩ := Bool.and_eq_true_iff.mp hrun
  obtain ⟨t, ht, hrun⟩ := List.any_eq_true.mp hrun
  obtain ⟨htest, hboth⟩ := Bool.and_eq_true_iff.mp hrun
  obtain ⟨⟨v, m⟩, htest, hleft⟩ := (Option.any_eq_true _ _).mp htest
  obtain ⟨n, c, y, z, he, hv⟩ := Visit.exists_of_test? htest
  refine ⟨q, r, hi, hd, hclosed, t, ht, n, c, y, z, v, m, he, hv, ?_, ?_⟩
  · rintro k b rfl
    cases hleft
  · unfold Visit.writes at hboth
    split at hboth
    · rename_i w m' hw
      exact ⟨w, m', hw, of_decide_eq_true hboth⟩
    · cases hboth

end Program

end TraitCalculus
