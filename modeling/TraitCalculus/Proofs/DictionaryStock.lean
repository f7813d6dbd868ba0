import Mathlib
import TraitCalculus.Proofs.TraitBounds

/-! Dictionary passing finds every dictionary whose instance is in scope: its table has them all,
since nothing is ever taken out of it. A field that it projects belongs to a trait that is the one
bound of the field's type. -/
namespace TraitCalculus

namespace Stmt

/-- A trait's field is announced with a type over the trait's parameter, bounded by the trait. -/
def Announces : Stmt → Prop
  | field _ _ trait type => ∃ l a body, type = .all l a [trait] body
  | _ => True

theorem announces_inserted {ss ss' : List Stmt} (h : List.Forall₂ Inserted ss ss')
    (hs : ∀ s ∈ ss, s.Announces) : ∀ s ∈ ss', s.Announces := by
  induction h with
  | nil => exact hs
  | cons hins _ ih =>
    obtain ⟨hfirst, hrest⟩ := List.forall_mem_cons.mp hs
    refine List.forall_mem_cons.mpr ⟨?_, ih hrest⟩
    cases hins with
    | assign | eval | inst => trivial
    | field => exact hfirst

theorem announces_resolve {aliases : Aliases} {s s' : Stmt} {k k' : Nat} (hs : s.Announces)
    (h : (s.resolve aliases).run k = .ok (s', k')) : s'.Announces := by
  cases s with
  | assign line x e | eval line e =>
    obtain ⟨e', he, rfl⟩ := run_bind_pure_eq_ok h
    trivial
  | inst line trait type dict =>
    obtain ⟨type', k₁, ht, h⟩ := run_bind_eq_ok h
    obtain ⟨dict', hd, rfl⟩ := run_bind_pure_eq_ok h
    trivial
  | field line x trait type =>
    obtain ⟨l, a, body, rfl⟩ := hs
    obtain ⟨type', ht, rfl⟩ := run_bind_pure_eq_ok h
    -- a quantified type stays one, with its bounds
    obtain ⟨body', hbody, rfl⟩ := run_bind_pure_eq_ok ht
    exact ⟨l, a, body', rfl⟩

end Stmt

namespace Decl

def Announces : Decl → Prop
  | typedef .. => True
  | stmt s => s.Announces

theorem announces_resolveAll {aliases : Aliases} {done ss : List Stmt} {ds : List Decl}
    {k k' : Nat} (hdone : ∀ s ∈ done, s.Announces) (hds : ∀ d ∈ ds, d.Announces)
    (h : (resolveAll aliases done ds).run k = .ok (ss, k')) : ∀ s ∈ ss, s.Announces := by
  induction ds generalizing aliases done k with
  | nil =>
    obtain ⟨rfl, rfl⟩ := run_pure_eq_ok h
    simpa using hdone
  | cons d ds ih =>
    obtain ⟨hd, hrest⟩ := List.forall_mem_cons.mp hds
    cases d with
    | typedef line x t =>
      obtain ⟨t', k₁, ht, h⟩ := run_bind_eq_ok h
      exact ih hdone hrest h
    | stmt s =>
      obtain ⟨s', k₁, hs, h⟩ := run_bind_eq_ok h
      exact ih (List.forall_mem_cons.mpr ⟨Stmt.announces_resolve hd hs, hdone⟩) hrest h

end Decl

namespace Item

theorem announces_desugar {item : Item} {k : Nat} {ds : List Decl} (h : item.desugar k = .ok ds) :
    ∀ d ∈ ds, d.Announces := by
  cases item with
  | assign line x e | typedef line x t | eval line e =>
    obtain rfl := Except.ok.inj h
    exact List.forall_mem_singleton.mpr trivial
  | trait line name params members =>
    simp only [desugar] at h
    split at h
    · next a =>
      split at h
      · cases h
      · obtain rfl := Except.ok.inj h
        refine List.forall_mem_cons.mpr ⟨trivial, ?_⟩
        intro d hd
        obtain ⟨m, -, rfl⟩ := List.mem_map.mp hd
        exact ⟨some line, a, m.item, rfl⟩
    · cases h
  | struct line name members =>
    simp only [desugar] at h
    split at h
    · cases h
    · obtain rfl := Except.ok.inj h
      exact List.forall_mem_cons.mpr ⟨trivial, List.forall_mem_singleton.mpr trivial⟩
  | impl line name type members =>
    obtain rfl := Except.ok.inj h
    exact List.forall_mem_cons.mpr ⟨trivial, List.forall_mem_singleton.mpr trivial⟩

theorem announces_desugarAll {k : Nat} {done ds : List Decl} {items : List Item}
    (hdone : ∀ d ∈ done, d.Announces) (h : desugarAll k done items = .ok ds) :
    ∀ d ∈ ds, d.Announces := by
  induction items generalizing k done with
  | nil =>
    obtain rfl : done.reverse = ds := Except.ok.inj h
    simpa using hdone
  | cons item items ih =>
    unfold desugarAll at h
    split at h
    · cases h
    · next new hnew =>
      apply ih _ h
      intro d hd
      rcases List.mem_append.mp hd with hd | hd
      · exact announces_desugar hnew d (List.mem_reverse.mp hd)
      · exact hdone d hd

end Item

namespace Program

theorem announces_desugarText {code : String} {p : Program Decl} (h : desugarText code = .ok p) :
    ∀ d ∈ p.stmts, d.Announces := by
  unfold desugarText at h
  split at h
  · cases h
  · next items hitems =>
    unfold desugar at h
    split at h
    · cases h
    · next ds hds =>
      obtain rfl : (⟨items.line, ds⟩ : Program Decl) = p := Except.ok.inj h
      exact Item.announces_desugarAll (by simp) hds

theorem announces_resolveText {code : String} {p : Program Stmt} {drawn : Nat}
    (h : resolveText code = .ok (p, drawn)) : ∀ s ∈ p.stmts, s.Announces := by
  unfold resolveText at h
  split at h
  · cases h
  · next p₀ hp₀ =>
    cases hrun : p₀.resolve.run 0 with
    | error e =>
      rw [hrun] at h
      cases h
    | ok r =>
      rw [hrun] at h
      obtain rfl : r = (p, drawn) := Except.ok.inj h
      obtain ⟨ss, hss, rfl⟩ := run_bind_pure_eq_ok hrun
      exact Decl.announces_resolveAll (by simp) (announces_desugarText hp₀) hss

end Program

/-- The fields that dictionary passing knows have the types they were announced with. -/
def Announced (Γ : Context) (owners : List (String × String)) : Prop :=
  ∀ x trait, owners.lookup x = some trait →
    ∃ l a body, Γ.lookup x = some (.term (.all l a [trait] body))

namespace Announced

variable {Γ : Context} {owners : List (String × String)}

theorem ne_of_erase {x y trait : String}
    (h : (Assoc.erase x owners).lookup y = some trait) :
    y ≠ x ∧ owners.lookup y = some trait := by
  have hyx : y ≠ x := by
    rintro rfl
    rw [Assoc.lookup_erase_self] at h
    cases h
  exact ⟨hyx, by rwa [Assoc.lookup_erase_of_ne owners hyx] at h⟩

theorem erase (h : Announced Γ owners) (x : String) : Announced Γ (Assoc.erase x owners) :=
  fun y trait hy => h y trait (ne_of_erase hy).2

theorem cons_erase (h : Announced Γ owners) (x : String) (a : Entry) :
    Announced ((x, a) :: Γ) (Assoc.erase x owners) := by
  intro y trait hy
  obtain ⟨hyx, hy⟩ := ne_of_erase hy
  rw [Assoc.lookup_cons_if, if_neg hyx]
  exact h y trait hy

theorem hide (h : Announced Γ owners) (x : String) (dicts : List String) (a : Entry) :
    Announced ((x, a) :: Γ) (Expr.hide x dicts owners) := by
  intro y trait hy
  rw [Expr.lookup_hide] at hy
  split_ifs at hy with hhidden
  obtain ⟨hyx, -⟩ := not_or.mp hhidden
  rw [Assoc.lookup_cons_if, if_neg hyx]
  exact h y trait hy

theorem insert (h : Announced Γ owners) (x trait : String) {type : Ty}
    (htype : ∃ l a body, type = .all l a [trait] body) :
    Announced ((x, .term type) :: Γ) (Assoc.insert x trait owners) := by
  intro y other hy
  rw [Assoc.lookup_cons_if]
  by_cases hyx : y = x
  · rw [hyx, Assoc.lookup_insert_self] at hy
    obtain rfl := Option.some.inj hy
    obtain ⟨l, a, body, rfl⟩ := htype
    exact ⟨l, a, body, if_pos hyx⟩
  · rw [Assoc.lookup_insert_of_ne trait owners hyx] at hy
    rw [if_neg hyx]
    exact h y other hy

end Announced

namespace Dictionaries

/-- The table has a dictionary for each instance in scope. -/
def Stocks (d : Dictionaries) (I : Instances) : Prop :=
  ∀ i ∈ I, ∃ k ∈ d.known, k.1 = i.1 ∧ k.2.1 = i.2

theorem Stocks.add {d : Dictionaries} {I : Instances} (h : d.Stocks I) (params : Nat)
    (trait : String) (type : Ty) (dict : Expr) :
    Stocks ⟨params, (trait, type, dict) :: d.known⟩ ((trait, type) :: I) := by
  intro i hi
  rcases List.mem_cons.mp hi with rfl | hi
  · exact ⟨_, List.mem_cons_self, rfl, rfl⟩
  · obtain ⟨k, hk, heq⟩ := h i hi
    exact ⟨k, List.mem_cons_of_mem _ hk, heq⟩

theorem Stocks.subset {d : Dictionaries} {I J : Instances} (h : d.Stocks J)
    (hIJ : ∀ i ∈ I, i ∈ J) : d.Stocks I :=
  fun i hi => h i (hIJ i hi)

theorem Stocks.opened {d : Dictionaries} {I : Instances} (h : d.Stocks I) (x : String)
    (bounds : List String) :
    (Dictionaries.opened x bounds.reverse d).2.Stocks (I.under x bounds) := by
  -- parameters are named from the last bound to the first
  have hopened : ∀ (traits : List String) {d : Dictionaries} {J : Instances}, d.Stocks J →
      (Dictionaries.opened x traits d).2.Stocks (traits.map (·, .name none x) ++ J) := by
    intro traits
    induction traits with
    | nil => exact fun h => h
    | cons trait traits ih =>
      intro d J hJ
      apply (ih (hJ.add (d.params + 1) trait (.name none x) _)).subset
      intro i hi
      simpa [or_left_comm] using hi
  apply (hopened bounds.reverse h).subset
  intro i hi
  simpa [Instances.under] using hi

/-- A dispatch that starts with a dictionary for each instance in scope does not lack one, and
ends so. -/
def Serves {α : Type} (I : Instances) (m : Dispatch α) : Prop :=
  ∀ d : Dictionaries, d.Stocks I →
    (∀ a d', m.run d = .ok (a, d') → d'.Stocks I) ∧
      ∀ trait type, m.run d ≠ .error (.noDictionary trait type)

namespace Serves

variable {α β : Type} {I : Instances}

theorem pure (a : α) : Serves I (Pure.pure a) := by
  intro d hd
  refine ⟨?_, fun trait type h => nomatch h⟩
  intro a' d' h
  obtain ⟨-, rfl⟩ := run_pure_eq_ok h
  exact hd

theorem bind {m : Dispatch α} {f : α → Dispatch β} (hm : Serves I m)
    (hf : ∀ a, Serves I (f a)) : Serves I (m >>= f) := by
  intro d hd
  obtain ⟨hok, herror⟩ := hm d hd
  cases hrun : m.run d with
  | error e =>
    have hfail : (m >>= f).run d = .error e := by
      rw [StateT.run_bind, hrun]
      rfl
    rw [hfail]
    rw [hrun] at herror
    refine ⟨nofun, fun trait type h => ?_⟩
    exact herror trait type (congrArg _ (Except.error.inj h))
  | ok r =>
    rw [run_bind_of_ok hrun]
    exact hf r.1 r.2 (hok r.1 r.2 hrun)

theorem unapplied (line : Option Nat) (x : String) :
    Serves I (throw (.unappliedField line x) : Dispatch α) := by
  intro d _
  constructor
  · intro a d' h
    cases h
  · intro trait type h
    cases h

theorem find {trait : String} {t : Ty} (h : I.implements trait t = true) :
    Serves I (Dictionaries.find trait t) := by
  intro d hd
  obtain ⟨i, hi, hit⟩ := List.any_eq_true.mp h
  obtain ⟨htrait, hsame⟩ : i.1 = trait ∧ i.2.same t = true := by simpa using hit
  obtain ⟨k, hk, hktrait, hktype⟩ := hd i hi
  have hsome : (d.known.find? fun k => k.1 = trait && k.2.1.same t).isSome = true :=
    List.find?_isSome.mpr ⟨k, hk, by simp [hktrait, hktype, htrait, hsame]⟩
  obtain ⟨found, hfound⟩ := Option.isSome_iff_exists.mp hsome
  have hrun : (Dictionaries.find trait t).run d = .ok (found.2.2, d) := by
    unfold Dictionaries.find
    simp only [StateT.run_bind, StateT.run_get, pure_bind]
    rw [hfound]
    rfl
  rw [hrun]
  refine ⟨?_, fun trait type h => nomatch h⟩
  intro e d' h
  obtain ⟨-, rfl⟩ := Prod.mk.inj (Except.ok.inj h)
  exact hd

theorem apply (line : Option Nat) {t : Ty} (fn : Expr) {traits : List String}
    (h : I.meetsAll traits t = true) : Serves I (Dictionaries.apply line t fn traits) := by
  induction traits generalizing fn with
  | nil => exact pure fn
  | cons trait traits ih =>
    obtain ⟨hfirst, hrest⟩ : I.implements trait t = true ∧ I.meetsAll traits t = true := by
      simpa [Instances.meetsAll] using h
    exact bind (find hfirst) fun dict => ih _ hrest

end Serves

end Dictionaries

namespace Expr

open Dictionaries (Serves)

variable {Γ : Context} {owners : List (String × String)} {I : Instances}

theorem serves_items (es : List Expr) (h : ∀ e ∈ es, Serves I (e.dispatch owners)) :
    Serves I (dispatchItems owners es) := by
  induction es with
  | nil => exact .pure []
  | cons e es ih =>
    obtain ⟨he, hes⟩ := List.forall_mem_cons.mp h
    exact he.bind fun e' => (ih hes).bind fun rest => .pure _

theorem serves_fields (fs : List (String × Expr)) (h : ∀ f ∈ fs, Serves I (f.2.dispatch owners)) :
    Serves I (dispatchFields owners fs) := by
  induction fs with
  | nil => exact .pure []
  | cons f fs ih =>
    obtain ⟨hf, hfs⟩ := List.forall_mem_cons.mp h
    exact hf.bind fun e' => (ih hfs).bind fun rest => .pure _

/-- Under a type lambda the table has the dictionary parameters too, and it keeps them behind
it. -/
theorem serves_tlam {n : Note} {x : String} {bounds : List String} {body : Expr}
    (h : ∀ dicts, Serves (I.under x bounds) (body.dispatch (hide x dicts owners))) :
    Serves I ((tlam n x bounds body).dispatch owners) := by
  intro d hd
  have hbind := Dictionaries.run_bind x bounds.reverse d
  rw [dispatch, run_bind_of_ok hbind]
  obtain ⟨hok, herror⟩ := (h _).bind (fun body' => .pure _) _ (hd.opened x bounds)
  refine ⟨?_, herror⟩
  intro e d' hrun
  exact (hok e d' hrun).subset fun i hi => List.mem_append_right _ hi

/-- An expression with a type, whose type arguments meet all bounds, never lacks a dictionary. -/
theorem serves_dispatch (e : Expr) {t : Ty} (ht : HasType Γ e t) (ho : Announced Γ owners)
    (hm : e.everyTypeApp Instances.meetsAll I = true) : Serves I (e.dispatch owners) := by
  induction e using Expr.induction generalizing Γ owners I t with
  | lam n x p body ih =>
    cases ht with
    | lam hbody => exact (ih hbody (ho.cons_erase x _) hm).bind fun body' => .pure _
  | tlam n x bounds body ih =>
    cases ht with
    | tlam hbody => exact serves_tlam fun dicts => ih hbody (ho.hide x dicts _) hm
  | cond n c y z ihc ihy ihz =>
    simp only [everyTypeApp, Bool.and_eq_true] at hm
    cases ht with
    | cond hc hy hz =>
      exact (ihc hc ho hm.1).bind fun c' => (ihy hy ho hm.2.1).bind fun y' =>
        (ihz hz ho hm.2.2).bind fun z' => .pure _
  | bin n op l r ihl ihr =>
    simp only [everyTypeApp, Bool.and_eq_true] at hm
    cases ht with
    | bin hl hr =>
      exact (ihl hl ho hm.1).bind fun l' => (ihr hr ho hm.2).bind fun r' => .pure _
  | un n op e ih =>
    cases ht with
    | un he => exact (ih he ho hm).bind fun e' => .pure _
  | app n f a ihf iha =>
    simp only [everyTypeApp, Bool.and_eq_true] at hm
    cases ht with
    | app hf ha =>
      exact (ihf hf ho hm.1).bind fun f' => (iha ha ho hm.2).bind fun a' => .pure _
  | tapp n f s ih =>
    simp only [everyTypeApp, Bool.and_eq_true] at hm
    cases ht with
    | @tapp _ line _ l x bounds body _ _ hf =>
      have hwanted : f.wanted = bounds := by
        rw [wanted, hf.type?_eq]
        rfl
      rw [hwanted] at hm
      unfold dispatch
      split
      · next y trait hfield =>
        -- the field's type has its trait as the only bound, so that is the one that is met
        obtain ⟨m, rfl, howner⟩ := fieldOf?_eq_some hfield
        obtain ⟨l', a, body', hΓ⟩ := ho y trait howner
        cases hf with
        | var hx =>
          have hentry := Entry.term.inj (Option.some.inj (hx.symm.trans hΓ))
          obtain ⟨-, -, rfl, -⟩ := Ty.all.inj hentry
          have himpl : I.implements trait s = true := by
            simpa [Instances.meetsAll] using hm.1
          exact (Serves.find himpl).bind fun dict => .pure _
      · split_ifs with hempty
        · exact (ih hf ho hm.2).bind fun f' => .pure _
        · exact .apply line _ (hwanted ▸ hm.1)
  | ascribe n e s ih =>
    cases ht with
    | ascribe he => exact (ih he ho hm).bind fun e' => .pure _
  | proj n e label ih =>
    cases ht with
    | proj he => exact (ih he ho hm).bind fun e' => .pure _
  | var n x =>
    unfold dispatch
    split_ifs
    · exact .unapplied n.line x
    · exact .pure _
  | val n v => exact .pure _
  | list n es ih =>
    have hes := serves_items es fun e he => by
      obtain ⟨u, hu⟩ := ht.elements e he
      exact ih e he hu ho (everyTypeAppItems_iff.mp hm e he)
    exact hes.bind fun es' => .pure _
  | record n fs ih =>
    cases ht with
    | record hts =>
      have hfs := serves_fields fs fun f hf => by
        obtain ⟨u, hu⟩ := hts.mem f hf
        exact ih f hf hu ho (everyTypeAppFields_iff.mp hm f hf)
      exact hfs.bind fun fs' => .pure _

end Expr

theorem Stmt.serves_dispatchAll {Γ : Context} {owners : List (String × String)} {I : Instances}
    {ss done : List Stmt} (ht : StmtsHaveTypes Γ ss) (ha : ∀ s ∈ ss, s.Announces)
    (ho : Announced Γ owners) (hm : everyTypeApp Instances.meetsAll I ss = true)
    {d : Dictionaries} (hd : d.Stocks I) :
    ∀ trait type, (dispatchAll owners done ss).run d ≠ .error (.noDictionary trait type) := by
  induction ss generalizing Γ owners I done d with
  | nil => exact fun trait type h => nomatch h
  | cons s ss ih =>
    obtain ⟨has, hass⟩ := List.forall_mem_cons.mp ha
    intro trait type
    -- an expression is dispatched without lack, and the table behind it serves the rest
    have hexpr : ∀ {e : Expr} {t : Ty} {owners' : List (String × String)}
        {f : Expr → Dispatch (List Stmt)}, HasType Γ e t → Announced Γ owners' →
        e.everyTypeApp Instances.meetsAll I = true →
        (∀ e' d', Dictionaries.Stocks d' I → (f e').run d' ≠ .error (.noDictionary trait type)) →
        (e.dispatch owners' >>= f).run d ≠ .error (.noDictionary trait type) := by
      intro e t owners' f he ho' hme hf h
      obtain ⟨hok, herror⟩ := e.serves_dispatch he ho' hme d hd
      cases hrun : (e.dispatch owners').run d with
      | error err =>
        rw [StateT.run_bind, hrun] at h
        exact herror trait type (hrun.trans (congrArg _ (Except.error.inj h)))
      | ok r =>
        rw [run_bind_of_ok hrun] at h
        exact hf r.1 r.2 (hok r.1 r.2 hrun) h
    cases s with
    | assign line x e =>
      simp only [everyTypeApp, Bool.and_eq_true] at hm
      cases ht with
      | assign he hss =>
        exact hexpr he (ho.erase x) hm.1 fun e' d' hd' =>
          ih hss hass (ho.cons_erase x _) hm.2 hd' trait type
    | eval line e =>
      simp only [everyTypeApp, Bool.and_eq_true] at hm
      cases ht with
      | eval he hss =>
        exact hexpr he ho hm.1 fun e' d' hd' => ih hss hass ho hm.2 hd' trait type
    | inst line trait' type' dict =>
      cases ht with
      | inst hss => exact ih hss hass ho hm (hd.add d.params trait' type' dict) trait type
    | field line x trait' type' =>
      cases ht with
      | field hss => exact ih hss hass (ho.insert x trait' has) hm hd trait type

namespace Program

/-- Bounds at type arguments. Every type argument of a bounded function has an instance of one of
the bounds in scope. If those of functions with several bounds have instances of all of them, then
dictionary passing never lacks an instance. -/
theorem infer_bounds {code : String} {p q : Program Stmt} {drawn : Nat} {st : TypingState}
    (hr : resolveText code = .ok (p, drawn)) (hi : (p.infer drawn).2 = .ok (q, st)) :
    q.everyTypeApp Instances.meetsOne = true ∧
    (q.everyTypeApp (fun I bs t => decide (bs.length ≤ 1) || I.meetsAll bs t) = true →
      ∀ trait type, q.dispatch ≠ .error (.noDictionary trait type)) := by
  have hone := infer_meetsOne hi
  refine ⟨hone, fun hseveral trait type hlack => ?_⟩
  obtain ⟨htypes, hinserted, -⟩ := infer_sound hr hi
  have hannounces := Stmt.announces_inserted hinserted (announces_resolveText hr)
  -- one bound is met if one of the bounds is
  have hall : q.everyTypeApp Instances.meetsAll = true := by
    refine Stmt.everyTypeApp_combine ?_ q.stmts hone hseveral
    intro I bs t hmeets hcase
    rcases Bool.or_eq_true_iff.mp hcase with hlen | hall
    · rcases bs with _ | ⟨b, _ | ⟨c, bs⟩⟩
      · rfl
      · simpa [Instances.meetsOne, Instances.meetsAll] using hmeets
      · simp at hlen
    · exact hall
  have hstart : Dictionaries.Stocks {} [] := List.forall_mem_nil _
  have hnone : Announced Context.builtins [] := by
    intro x trait h
    cases h
  unfold dispatch at hlack
  split at hlack
  · next e he =>
    obtain rfl := Except.error.inj hlack
    exact Stmt.serves_dispatchAll htypes hannounces hnone hall hstart trait type he
  · cases hlack

/-- Functions with two bounds, one called at a type with both instances and one at a variable that
is bounded the other way round. -/
def describedSample : String :=
  "trait Show a \x7bshow: a -> String;\x7d\n" ++ "trait Eq a \x7beq: a -> a -> Bool;\x7d\n" ++
    "impl Show for Int \x7bshow = int_to_string;\x7d\n" ++
    "impl Eq for Int \x7beq = \\x: Int. \\y: Int. x == y;\x7d\n" ++
    "describe = \\a impl Show + Eq. \\x: a. if eq @a x x then show @a x else \"odd\";\n" ++
    "relay = \\b impl Eq + Show. \\y: b. describe @b y;\n" ++ "s = relay @Int 5;\n"

theorem infer_bounds_described : ∃ p drawn q st, resolveText describedSample = .ok (p, drawn) ∧
    (p.infer drawn).2 = .ok (q, st) ∧
    q.everyTypeApp (fun I bs t => decide (bs.length ≤ 1) || I.meetsAll bs t) = true ∧
    ∀ trait type, q.dispatch ≠ .error (.noDictionary trait type) := by
  have hrun : ((inferText describedSample).toOption.any fun q =>
      q.everyTypeApp fun I bs t => decide (bs.length ≤ 1) || I.meetsAll bs t) = true := by
    decide +kernel
  cases hq : inferText describedSample with
  | error e =>
    rw [hq] at hrun
    cases hrun
  | ok q =>
    rw [hq] at hrun
    obtain ⟨p, drawn, st, hr, hi⟩ := exists_infer_of_inferText hq
    exact ⟨p, drawn, q, st, hr, hi, hrun, (infer_bounds hr hi).2 hrun⟩

/-- A function with two bounds at a type that implements only the first. -/
def undescribedSample : String :=
  "trait Show a \x7bshow: a -> String;\x7d\n" ++ "trait Eq a \x7beq: a -> a -> Bool;\x7d\n" ++
    "impl Show for Int \x7bshow = int_to_string;\x7d\n" ++
    "impl Eq for Bool \x7beq = \\x: Bool. \\y: Bool. x && y;\x7d\n" ++
    "describe = \\a impl Show + Eq. \\x: a. if eq @a x x then show @a x else \"odd\";\n" ++
    "s = describe @Int 5;\n"

theorem infer_bounds_unmet : ∃ q, inferText undescribedSample = .ok q ∧
    q.everyTypeApp Instances.meetsAll = false ∧
    ∃ type, q.dispatch = .error (.noDictionary "Eq" type) := by
  have hrun : ((inferText undescribedSample).toOption.any fun q =>
      !q.everyTypeApp Instances.meetsAll && match q.dispatch with
        | .error (.noDictionary trait _) => decide (trait = "Eq")
        | _ => false) = true := by
    decide +kernel
  cases hq : inferText undescribedSample with
  | error e =>
    rw [hq] at hrun
    cases hrun
  | ok q =>
    rw [hq] at hrun
    obtain ⟨hunmet, hlack⟩ := Bool.and_eq_true_iff.mp hrun
    refine ⟨q, rfl, (Bool.not_eq_true' _).mp hunmet, ?_⟩
    split at hlack
    · next trait type hd =>
      obtain rfl : trait = "Eq" := of_decide_eq_true hlack
      exact ⟨type, hd⟩
    · cases hlack

end Program

end TraitCalculus
